import FlowTypes.Ty.Canonical

/-!
# Intersection of types

Intersection distributes over unions: shapes of the two sides meet pairwise, and what is left is
brought into canonical form, first for each shape of one side and then for all of them. The outer
loop runs over the left side; a single shape on the left that meets several on the right gives
the outer loop, and the lead, to the right side. The lead decides which of two equal literals is
kept, so it shows in nothing but the sign of a zero.
-/

namespace FlowTypes

/-- The side that the outer loop runs over, by the numbers of shapes. -/
def Side.outer (lead : Side) (lefts rights : Nat) : Side :=
  match lead with
  | .left => if lefts = 1 && rights != 1 then .right else .left
  | .right => if rights = 1 && lefts != 1 then .left else .right

/-- The canonical union of a table of meets, with one row for each shape of the left side. -/
def Shape.unionOfTable (outer : Side) (rights : Nat) (rows : List (List (Option Shape))) :
    List Shape :=
  let groups :=
    match outer with
    | .left => rows
    | .right => rows.foldr (List.zipWith (· :: ·)) (List.replicate rights [])
  Shape.canonical (groups.flatMap fun group => Shape.canonical (group.filterMap id))

mutual

/-- The values of both types, the given side leading. -/
def Ty.meet (lead : Side) : Ty → Ty → Ty
  | .any, b => b
  | .oneOf xs, .any => .oneOf xs
  | .oneOf xs, .oneOf ys =>
    let outer := lead.outer xs.length ys.length
    .oneOf (Shape.unionOfTable outer ys.length (Shape.meetTable outer xs ys))

/-- The values of both shapes, the given side leading; none if they share nothing. -/
def Shape.meet (lead : Side) : Shape → Shape → Option Shape
  | .number m, .number n => (m.meet lead n).map .number
  | .text s, .text t => (s.meet t).map .text
  | .record a xs, .record b ys =>
    if a = b then (Ty.meetFields lead xs ys).map (.record a) else none
  | _, _ => none

/-- The meets of every left shape with every right shape, row by row. -/
def Shape.meetTable (lead : Side) : List Shape → List Shape → List (List (Option Shape))
  | [], _ => []
  | x :: xs, ys => ys.map (fun y => Shape.meet lead x y) :: Shape.meetTable lead xs ys

/-- The meets of the same fields in the same order, unless one of them is empty. -/
def Ty.meetFields (lead : Side) :
    List (String × Ty) → List (String × Ty) → Option (List (String × Ty))
  | [], [] => some []
  | (m, x) :: xs, (n, y) :: ys =>
    let t := Ty.meet lead x y
    if m = n && !t.isNever then (Ty.meetFields lead xs ys).map ((m, t) :: ·) else none
  | _, _ => none

end

namespace Ty

/-- The values of both types. -/
def intersect (a b : Ty) : Ty := a.meet .left b

/-- The values of all of the types. -/
def intersectAll (ts : List Ty) : Ty := ts.foldl intersect any

/-- Do the types share no value? -/
def isDisjoint (a b : Ty) : Bool := (a.intersect b).isNever

end Ty

end FlowTypes
