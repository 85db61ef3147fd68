import FlowTypes.Binary64.Basic

/-!
# Interchange words

The 64-bit word of a double: sign, eleven exponent bits, 52 significand bits. Magnitudes count
units of the least double, so the word of a magnitude is the significand that is left after its
excess bits are dropped, plus the number of dropped bits in the exponent's place; the leading bit
of a normal significand carries into the exponent by itself. NaN is written as the quiet one.
-/

namespace FlowTypes.Binary64

attribute [local instance] corePow

/-- The word of a magnitude, without a sign. -/
def magnitudeBits (magnitude : Nat) : Nat :=
  let dropped := magnitude.log2 - 52
  dropped * 2 ^ (52 : Nat) + magnitude / 2 ^ dropped

/-- The interchange word. -/
def bits : Binary64 → Nat
  | nan => 0x7ff8000000000000
  | infinity s => signBit s + 0x7ff0000000000000
  | finite s m _ => signBit s + magnitudeBits m
where
  /-- The topmost bit, set for negative numbers. -/
  signBit (negative : Bool) : Nat := if negative then 2 ^ (63 : Nat) else 0

end FlowTypes.Binary64
