import FlowTypes.StableSort
import FlowTypes.Text.Quoted

/-!
# Sets of texts

The two primitive sets of texts, all of them and a single one, with their canonical unions:
`all` absorbs every literal, and literals ascend by code point, each of them once.
-/

namespace FlowTypes

/-- A primitive set of texts. -/
inductive TextSet
  | all
  | literal (value : String)
  deriving DecidableEq

namespace TextSet

/-- Membership. -/
def has : TextSet → String → Bool
  | all, _ => true
  | literal s, t => s = t

/-- Inclusion. -/
def subset : TextSet → TextSet → Bool
  | _, all => true
  | all, literal _ => false
  | literal s, literal t => s = t

/-- The texts of both sets. -/
def meet : TextSet → TextSet → Option TextSet
  | all, b => some b
  | literal s, all => some (literal s)
  | literal s, literal t => if s = t then some (literal s) else none

/-- The text of a literal. -/
def literal? : TextSet → Option String
  | literal s => some s
  | all => none

/-- The canonical form of a union of primitive sets. -/
def canonical (items : List TextSet) : List TextSet :=
  if items.any (· = all) then [all]
  else
    (StableSort.dropRepeats (fun a b => decide (a = b))
      (StableSort.sort (fun a b => decide (a ≤ b)) (items.filterMap literal?))).map literal

/-- The joined texts of every pair of members. -/
def concatenate (xs ys : List TextSet) : List TextSet :=
  canonical (xs.flatMap fun x => ys.map fun y =>
    match x, y with
    | literal s, literal t => literal (s ++ t)
    | _, _ => all)

/-- The source text of a primitive set. -/
def text : TextSet → String
  | all => "string"
  | literal s => Quoted.write s

end TextSet

end FlowTypes
