import FlowTypes.Ty.Basic

/-!
# Inclusion of types

Inclusion is decided shape by shape: each shape on the left is covered by one on the right, or is
a range of numbers that several on the right cover together. Records compare field by field.
-/

namespace FlowTypes

/-- Is this a range of numbers that several shapes cover together? -/
def Shape.jointlyCovered (x : Shape) (ys : List Shape) : Bool :=
  match x with
  | .number n => n.joint (ys.filterMap Shape.number?)
  | _ => false

mutual

/-- Is every value of the left type one of the right type? -/
def Ty.subset : Ty → Ty → Bool
  | .any, b => b.isAny
  | .oneOf _, .any => true
  | .oneOf xs, .oneOf ys => Shape.allCovered xs ys

/-- Is every value of the left shape one of the right shape? -/
def Shape.subset : Shape → Shape → Bool
  | .number m, .number n => m.subset n
  | .text s, .text t => s.subset t
  | .record a xs, .record b ys => a = b && Ty.fieldsSubset xs ys
  | _, _ => false

/-- Is each of the left shapes covered by the right ones? -/
def Shape.allCovered : List Shape → List Shape → Bool
  | [], _ => true
  | x :: xs, ys =>
    (ys.any (fun y => x.subset y) || x.jointlyCovered ys) && Shape.allCovered xs ys

/-- Are these the same fields in the same order, each type included in its counterpart? -/
def Ty.fieldsSubset : List (String × Ty) → List (String × Ty) → Bool
  | [], [] => true
  | (m, x) :: xs, (n, y) :: ys => m = n && x.subset y && Ty.fieldsSubset xs ys
  | _, _ => false

end

end FlowTypes
