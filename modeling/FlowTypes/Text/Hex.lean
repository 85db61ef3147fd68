/-!
# Hexadecimal digits

Naturals in base sixteen with lower-case digits, and the value of one digit of either case.
-/

namespace FlowTypes.Hex

/-- The digits of a natural, most significant first, lower case, none of them superfluous. -/
def digits (n : Nat) : List Char := Nat.toDigits 16 n

/-- The digits of a natural, padded on the left with zeros to `width`. -/
def padded (width n : Nat) : String :=
  let ds := digits n
  String.ofList (List.replicate (width - ds.length) '0' ++ ds)

/-- The value of a hexadecimal digit of either case. -/
def value? (c : Char) : Option Nat :=
  if '0' ≤ c ∧ c ≤ '9' then some (c.toNat - '0'.toNat)
  else if 'a' ≤ c ∧ c ≤ 'f' then some (c.toNat - 'a'.toNat + 10)
  else if 'A' ≤ c ∧ c ≤ 'F' then some (c.toNat - 'A'.toNat + 10)
  else none

end FlowTypes.Hex
