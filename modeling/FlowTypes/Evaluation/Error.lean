import FlowTypes.Ty.Text

/-!
# Errors of evaluation

Why an expression denotes no type, with the wording of each reason.
-/

namespace FlowTypes

/-- Why an expression denotes no type. -/
inductive EvalError
  | unknownType (name : String)
  | unknownFunction (name : String)
  | wrongArity (function : String) (expected actual : Nat)
  | invalidArgument (function : String) (index : Nat) (expected actual : Ty)
  | unknownField (struct field : String)
  | duplicateField (struct field : String)
  | notAStruct (name : String)
  | cyclicDefinition (name : String)
  | noField (type : Ty) (field : String)
  deriving DecidableEq

/-- The wording of a reason. -/
def EvalError.message : EvalError → String
  | unknownType name => "unknown type `" ++ name ++ "`"
  | unknownFunction name => "unknown function `" ++ name ++ "`"
  | wrongArity function expected actual =>
    "function `" ++ function ++ "` takes " ++ toString expected ++ " argument(s) but "
      ++ toString actual ++ " were given"
  | invalidArgument function index expected actual =>
    "argument " ++ toString index ++ " of `" ++ function ++ "` must be `" ++ expected.text
      ++ "`, got `" ++ actual.text ++ "`"
  | unknownField struct field => "struct `" ++ struct ++ "` has no field `" ++ field ++ "`"
  | duplicateField struct field =>
    "field `" ++ field ++ "` of `" ++ struct ++ "` is given more than once"
  | notAStruct name => "`" ++ name ++ "` is not a struct"
  | cyclicDefinition name => "definition of `" ++ name ++ "` depends on itself"
  | noField type field => "no field `" ++ field ++ "` on `" ++ type.text ++ "`"

end FlowTypes
