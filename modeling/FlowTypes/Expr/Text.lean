import FlowTypes.Expr.Basic

/-!
# The text of expressions

Expressions are written in the notation in which they are read. Operands of bars and ampersands,
and records whose field is taken, stand in parentheses, so the text does not depend on which
operator binds tighter.
-/

namespace FlowTypes

mutual

/-- The text of an expression. -/
def Expr.text : Expr → String
  | .type t => t.text
  | .named name => name
  | .instantiate name fields => name ++ braced (joinWith ", " (Expr.fieldTexts fields))
  | .union items => joinWith " | " ((Expr.texts items).map fun s => "(" ++ s ++ ")")
  | .intersection items => joinWith " & " ((Expr.texts items).map fun s => "(" ++ s ++ ")")
  | .call function args => function ++ "(" ++ joinWith ", " (Expr.texts args) ++ ")"
  | .select scrutinee [] => "match " ++ scrutinee.text ++ " \x7b \x7d"
  | .select scrutinee (arm :: arms) =>
    "match " ++ scrutinee.text ++ braced (joinWith ", " (Expr.armTexts (arm :: arms)))
  | .access record field => "(" ++ record.text ++ ")." ++ field

/-- The text of an arm. -/
def Arm.text : Arm → String
  | .mk pattern none result => pattern.text ++ " => " ++ result.text
  | .mk pattern (some name) result => pattern.text ++ " as " ++ name ++ " => " ++ result.text

/-- The texts of some expressions. -/
def Expr.texts : List Expr → List String
  | [] => []
  | e :: es => e.text :: Expr.texts es

/-- The texts of some fields. -/
def Expr.fieldTexts : List (String × Expr) → List String
  | [] => []
  | (name, e) :: fields => (name ++ ": " ++ e.text) :: Expr.fieldTexts fields

/-- The texts of some arms. -/
def Expr.armTexts : List Arm → List String
  | [] => []
  | arm :: arms => arm.text :: Expr.armTexts arms

end

end FlowTypes
