import FlowTypes.Ty.Intersection
import FlowTypes.Ty.Subset

/-!
# Edges

An edge carries the values of one type to an input that accepts another.
-/

namespace FlowTypes.Node

/-- How much of what a source produces its target accepts: all of it, some of it but not all, or
nothing. -/
inductive Edge
  | compatible
  | partially
  | incompatible
  deriving DecidableEq

/-- Classifies an edge. A source that produces nothing is compatible with every target. -/
def Edge.between (source target : Ty) : Edge :=
  if source.subset target then .compatible
  else if source.isDisjoint target then .incompatible
  else .partially

end FlowTypes.Node
