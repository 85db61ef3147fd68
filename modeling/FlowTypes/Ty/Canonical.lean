import FlowTypes.Ty.Subset
import FlowTypes.Ty.Text

/-!
# Canonical unions

`Shape.canonical` brings a list of shapes into the form in which unions are kept: sets of numbers
first, then sets of texts, then records. Records ascend by their text, each text once, and none
of them is covered by another. A single record is kept as it is.
-/

namespace FlowTypes

namespace Shape

/-- Adds a record to those kept: not if one of them covers it, and in place of those it covers. -/
def addRecord (kept : List Shape) (item : Shape) : List Shape :=
  if kept.any (fun k => item.subset k) then kept
  else kept.filter (fun k => !k.subset item) ++ [item]

/-- The canonical form of a union of records. -/
def canonicalRecords : List Shape → List Shape
  | [] => []
  | [s] => [s]
  | items =>
    let keyed := items.map fun s => (s.describe, s)
    let sorted := StableSort.sort (fun a b => decide (a.1 ≤ b.1)) keyed
    let once := StableSort.dropRepeats (fun a b => decide (a.1 = b.1)) sorted
    (once.map (·.2)).foldl addRecord []

/-- The canonical form of a union of shapes. -/
def canonical (items : List Shape) : List Shape :=
  (NumberSet.canonical (items.filterMap number?)).map number
    ++ (TextSet.canonical (items.filterMap text?)).map text
    ++ canonicalRecords (items.filter isRecord)

end Shape

/-- The type of the values of any of the types. `any` absorbs all others. -/
def Ty.union (ts : List Ty) : Ty :=
  if ts.any Ty.isAny then .any else .oneOf (Shape.canonical (ts.flatMap Ty.shapes))

end FlowTypes
