import FlowTypes.NumberSet.Arithmetic
import FlowTypes.Registry.Basic

/-!
# Built-in functions

Functions of types lifted from operations on unions of numbers or of texts. An argument
contributes its shapes of the kind in question, `any` all values of that kind; an argument
without such shapes gives `never`, and so does a wrong number of arguments.
-/

namespace FlowTypes

namespace Ty

/-- The sets of numbers of a type; all numbers for `any`. -/
def numbers : Ty → List NumberSet
  | any => [.all]
  | oneOf ss => ss.filterMap Shape.number?

/-- The sets of texts of a type; all texts for `any`. -/
def texts : Ty → List TextSet
  | any => [.all]
  | oneOf ss => ss.filterMap Shape.text?

/-- Changes the sign. -/
def negate (a : Ty) : Ty := ofNumbers (NumberSet.negate a.numbers)

/-- Rounds to the nearest integer, ties upwards. -/
def round (a : Ty) : Ty := ofNumbers (NumberSet.round a.numbers)

/-- One over the argument. -/
def reciprocal (a : Ty) : Ty := ofNumbers (NumberSet.reciprocal a.numbers)

/-- Sums. -/
def add (a b : Ty) : Ty := ofNumbers (NumberSet.add a.numbers b.numbers)

/-- Differences. -/
def subtract (a b : Ty) : Ty := ofNumbers (NumberSet.subtract a.numbers b.numbers)

/-- Products. -/
def multiply (a b : Ty) : Ty := ofNumbers (NumberSet.multiply a.numbers b.numbers)

/-- Minima. -/
def minimum (a b : Ty) : Ty := ofNumbers (NumberSet.minimum a.numbers b.numbers)

/-- Maxima. -/
def maximum (a b : Ty) : Ty := ofNumbers (NumberSet.maximum a.numbers b.numbers)

/-- Joined texts. -/
def concatenate (a b : Ty) : Ty := ofTexts (TextSet.concatenate a.texts b.texts)

end Ty

namespace Function

/-- A function of one argument. -/
def unary (name : String) (param : Ty) (f : Ty → Ty) : Function where
  name := name
  params := [param]
  apply
    | [a] => f a
    | _ => .never

/-- A function of two arguments of one type. -/
def binary (name : String) (param : Ty) (f : Ty → Ty → Ty) : Function where
  name := name
  params := [param, param]
  apply
    | [a, b] => f a b
    | _ => .never

/-- The built-in functions, in the order in which they are listed. -/
def builtins : List Function :=
  [binary "add" .number .add, binary "subtract" .number .subtract, binary "min" .number .minimum,
    binary "max" .number .maximum, binary "multiply" .number .multiply,
    unary "negate" .number .negate, unary "round" .number .round,
    unary "reciprocal" .number .reciprocal, binary "concat" .string .concatenate]

end Function

/-- The registry of the built-in functions and the struct `null`, which has no fields. -/
def Registry.withBuiltins : Registry := ⟨[], [⟨"null", []⟩], Function.builtins⟩

end FlowTypes
