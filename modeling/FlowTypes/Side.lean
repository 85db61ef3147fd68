/-!
# Sides

Which of two operands leads. It matters only where two operands stand for the same value and are
told apart by nothing but the sign of a zero: there the leading one is kept.
-/

namespace FlowTypes

/-- One of two operands. -/
inductive Side
  | left
  | right
  deriving DecidableEq

/-- The leading one of two operands. -/
def Side.pick {α : Type} : Side → α → α → α
  | left, a, _ => a
  | right, _, b => b

end FlowTypes
