import FlowTypes.Registry.Basic
import FlowTypes.Token.Basic

/-!
# Errors in source texts

What is wrong with a source text, and where. `SyntaxError.Problem.message` is the only place that
words it.
-/

namespace FlowTypes

/-- What may come next. -/
inductive SyntaxError.Expectation
  | token (kind : Token.Kind)
  | expression
  | number
  | definition
  | endOfInput
  deriving DecidableEq

/-- What is wrong with a source text. -/
inductive SyntaxError.Problem
  | unexpected (expected : SyntaxError.Expectation) (found : Option Token.Kind)
  | unrecognized (text : String)
  | tooDeep
  | boundNotANumber
  | emptyRange
  | unknownEscape
  | invalidNumber
  | refused (reason : DefinitionError)
  deriving DecidableEq

/-- What is wrong with a source text, and the stretch of it that is to blame. -/
structure SyntaxError where
  problem : SyntaxError.Problem
  span : Span
  deriving DecidableEq

namespace SyntaxError

/-- How an expectation is spelled in messages. -/
def Expectation.describe : Expectation → String
  | token kind => kind.describe
  | expression => "expression"
  | number => "number"
  | definition => "`struct` or `let`"
  | endOfInput => "end of input"

/-- The wording of a problem. -/
def Problem.message : Problem → String
  | unexpected expected none => "expected " ++ expected.describe ++ ", found end of input"
  | unexpected expected (some kind) =>
    "expected " ++ expected.describe ++ ", found " ++ kind.describe
  | unrecognized text => "unrecognized input `" ++ text ++ "`"
  | tooDeep => "expression nested too deeply"
  | boundNotANumber => "range bounds cannot be NaN"
  | emptyRange => "range is empty"
  | unknownEscape => "unknown escape sequence"
  | invalidNumber => "invalid number"
  | refused reason => reason.message

/-- The wording of an error, without its place. -/
def message (e : SyntaxError) : String := e.problem.message

end SyntaxError

end FlowTypes
