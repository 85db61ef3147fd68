import FlowTypes.NumberSet.Difference
import FlowTypes.Ty.Canonical

/-!
# Difference of types

What the shapes of one type leave of another, one shape after the other. Texts and records are
removed only as wholes. A single shape is replaced by what is left of it; several are brought
into canonical form again.
-/

namespace FlowTypes

/-- The values of the left shape that the right one does not cover. -/
def Shape.without (a b : Shape) : List Shape :=
  match a, b with
  | .number m, .number n => (m.without n).map .number
  | _, _ => if a.subset b then [] else [a]

namespace Ty

/-- The values of a type that a shape does not cover. -/
def withoutShape (a : Ty) (b : Shape) : Ty :=
  match a with
  | any => any
  | oneOf [x] => oneOf (x.without b)
  | oneOf xs => oneOf (Shape.canonical (xs.flatMap (·.without b)))

/-- The values of the left type that the right one does not cover. -/
def without (a b : Ty) : Ty :=
  match b with
  | any => never
  | oneOf ys => ys.foldl withoutShape a

end Ty

end FlowTypes
