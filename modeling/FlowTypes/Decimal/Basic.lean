import FlowTypes.Binary64.Rounding

/-!
# Decimals

A decimal is a natural number of digits times a power of ten. `Decimal.toBinary64` is the double
nearest to it. Two guards answer far outside the range of doubles before a power of ten is built,
so the work is bounded by the number of digits and not by the exponent.
-/

namespace FlowTypes

attribute [local instance] corePow

/-- The number `digits * 10 ^ exponent`. -/
structure Decimal where
  digits : Nat
  exponent : Int
  deriving DecidableEq

namespace Decimal

/-- The double nearest a decimal, with the given sign; ties to even. -/
def toBinary64 (negative : Bool) (d : Decimal) : Binary64 :=
  if d.digits = 0 then Binary64.ofRatio negative 0 1
  else if 310 ≤ d.exponent then .infinity negative
  else if d.exponent + d.digits.log2 + 1 < -330 then Binary64.ofRatio negative 0 1
  else Binary64.ofRatio negative (d.digits * 10 ^ d.exponent.toNat * Binary64.unitsPerOne)
    (10 ^ (-d.exponent).toNat)

end Decimal

end FlowTypes
