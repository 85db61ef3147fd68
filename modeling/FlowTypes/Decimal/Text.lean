import FlowTypes.Decimal.Shortest

/-!
# Decimal text

`Decimal.write` is positional: never an exponent, a fraction only where it is not zero.
`Decimal.read?` reads digits with an optional fraction and an optional exponent.

`Binary64.text` is the text of a double in type expressions: `NaN`, `inf`, `-inf`, `0` for a zero
of either sign, and otherwise the shortest decimal that reads back. `Binary64.read?` reads it,
with a sign and with the special values in any case.
-/

namespace FlowTypes

attribute [local instance] corePow

namespace Decimal

/-- `places` digits of a fraction, less the zeros it ends in. -/
def fractionDigits (places fraction : Nat) : List Char :=
  let ds := Nat.toDigits 10 fraction
  (List.replicate (places - ds.length) '0' ++ ds).reverse.dropWhile (· = '0') |>.reverse

/-- A decimal in positional notation. -/
def write (d : Decimal) : List Char :=
  let unit := 10 ^ (-d.exponent).toNat
  let number := d.digits * 10 ^ d.exponent.toNat
  let whole := Nat.toDigits 10 (number / unit)
  let fraction := number % unit
  if fraction = 0 then whole else whole ++ '.' :: fractionDigits (-d.exponent).toNat fraction

/-- An exponent with its mark, or nothing. -/
def readExponent? : List Char → Option Int
  | [] => some 0
  | mark :: cs =>
    if mark = 'e' || mark = 'E' then
      match cs with
      | '-' :: ds => (magnitude? ds).map (- ·)
      | '+' :: ds => magnitude? ds
      | ds => magnitude? ds
    else none
where
  /-- One digit or more, and nothing else. -/
  magnitude? (ds : List Char) : Option Int :=
    if ds ≠ [] ∧ ds.all Char.isDigit then some (Nat.ofDigitChars 10 ds 0) else none

/-- Digits with an optional point among or around them, and an optional exponent. -/
def read? (cs : List Char) : Option Decimal :=
  let whole := cs.takeWhile Char.isDigit
  let (fraction, rest) :=
    match cs.dropWhile Char.isDigit with
    | '.' :: more => (more.takeWhile Char.isDigit, more.dropWhile Char.isDigit)
    | more => ([], more)
  if whole = [] ∧ fraction = [] then none
  else
    (readExponent? rest).map fun e =>
      ⟨Nat.ofDigitChars 10 (whole ++ fraction) 0, e - fraction.length⟩

end Decimal

namespace Binary64

/-- The text of a double: shortest, positional, and without a sign for zero. -/
def text : Binary64 → String
  | nan => "NaN"
  | infinity s => if s then "-inf" else "inf"
  | finite s m _ =>
    if m = 0 then "0"
    else String.ofList ((if s then ['-'] else []) ++ (Decimal.shortest m).write)

/-- A double without a sign: `inf`, `infinity` and `nan` in any case, or the nearest to a
decimal. -/
def readUnsigned? (negative : Bool) (cs : List Char) : Option Binary64 :=
  let word := String.ofList (cs.map Char.toLower)
  if word = "inf" || word = "infinity" then some (infinity negative)
  else if word = "nan" then some nan
  else (Decimal.read? cs).map (·.toBinary64 negative)

/-- A double with an optional sign. -/
def read? (s : String) : Option Binary64 :=
  match s.toList with
  | '-' :: cs => readUnsigned? true cs
  | '+' :: cs => readUnsigned? false cs
  | cs => readUnsigned? false cs

end Binary64

end FlowTypes
