import FlowTypes.Decimal.Basic

/-!
# Shortest decimals

The decimal with the fewest digits that reads back as a given magnitude. Grids of one, two, up to
seventeen digits are tried in turn. On each, the two neighbours of the exact value are tested by
reading them; if both read back the nearer is taken, and of two equally near ones the greater.
Were no grid to have a hit, the exact value in full would be the answer, so what is returned
reads back on every path.
-/

namespace FlowTypes.Decimal

attribute [local instance] corePow

/-- Does the decimal read back as this positive magnitude? -/
def readsBack (magnitude : Nat) (d : Decimal) : Bool :=
  match d.toBinary64 false with
  | .finite _ m _ => m = magnitude
  | _ => false

/-- The least power of ten above a positive magnitude: the binary logarithm gives an estimate at
most two too small. -/
def leadingExponent (magnitude : Nat) : Int :=
  let estimate := (((magnitude.log2 : Int) - 1074) * 30103).fdiv 100000
  if below estimate then estimate
  else if below (estimate + 1) then estimate + 1
  else estimate + 2
where
  /-- Is the magnitude below this power of ten? -/
  below (k : Int) : Bool :=
    decide (magnitude * 10 ^ (-k).toNat < 10 ^ k.toNat * Binary64.unitsPerOne)

/-- The one of two neighbours that passes a test; of both, the nearer. -/
def choose (test : Decimal → Bool) (lower upper : Decimal) (lowerIsNearer : Bool) :
    Option Decimal :=
  match test lower, test upper with
  | true, true => some (if lowerIsNearer then lower else upper)
  | true, false => some lower
  | false, true => some upper
  | false, false => none

/-- The choice on the grid of `10 ^ exponent`, if a neighbour of the magnitude reads back. -/
def onGrid (magnitude : Nat) (exponent : Int) : Option Decimal :=
  let num := magnitude * 10 ^ (-exponent).toNat
  let den := 10 ^ exponent.toNat * Binary64.unitsPerOne
  choose (readsBack magnitude) ⟨num / den, exponent⟩ ⟨num / den + 1, exponent⟩
    (2 * num < (2 * (num / den) + 1) * den)

/-- A magnitude as a decimal, in full. -/
def exactly (magnitude : Nat) : Decimal := ⟨magnitude * 5 ^ (1074 : Nat), -1074⟩

/-- The shortest decimal that reads back as a positive magnitude. -/
def shortest (magnitude : Nat) : Decimal :=
  let top := leadingExponent magnitude
  ((List.range 17).findSome? fun (n : Nat) => onGrid magnitude (top - (n + 1))).getD
    (exactly magnitude)

end FlowTypes.Decimal
