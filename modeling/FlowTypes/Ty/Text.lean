import FlowTypes.Text.Join
import FlowTypes.Ty.Basic

/-!
# The text of types

Types are written in the notation in which they are read: alternatives between bars, records with
their fields in braces. A record without fields is its name alone.
-/

namespace FlowTypes

mutual

/-- The text of a type. -/
def Ty.text : Ty → String
  | .any => "any"
  | .oneOf [] => "never"
  | .oneOf (s :: ss) => joinWith " | " (Shape.texts (s :: ss))

/-- The text of a shape. -/
def Shape.describe : Shape → String
  | .number n => n.text
  | .text t => t.text
  | .record name [] => name
  | .record name (field :: fields) =>
    name ++ braced (joinWith ", " (Ty.fieldTexts (field :: fields)))

/-- The texts of some shapes. -/
def Shape.texts : List Shape → List String
  | [] => []
  | s :: ss => s.describe :: Shape.texts ss

/-- The texts of some fields. -/
def Ty.fieldTexts : List (String × Ty) → List String
  | [] => []
  | (name, t) :: fields => (name ++ ": " ++ t.text) :: Ty.fieldTexts fields

end

end FlowTypes
