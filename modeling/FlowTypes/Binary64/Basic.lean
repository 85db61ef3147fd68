/-!
# Doubles

A double is NaN, an infinity, or a sign with a magnitude. Magnitudes are naturals, counted in
units of `2^-1074`, the least positive double, so that every finite double is an integer number
of units and comparing two of them is comparing integers. There is one NaN; the two zeros are
told apart by their sign.

`Representable` says which magnitudes a double can hold: at most 53 significant bits, and no more
than the greatest finite double. `position` places all doubles but NaN on the integer line, and
the IEEE order is read off it (`le_iff`, `lt_iff`).
-/

namespace FlowTypes

/-- The powers of the core library. Other libraries bring powers of their own, and the definitions
of this one are to mean the same beside them. -/
abbrev corePow : Pow Nat Nat := instPowNat

attribute [local instance] corePow

/-- The greatest finite magnitude, `(2^53 - 1) * 2^971`, in units of `2^-1074`. -/
def maxMagnitude : Nat := (2 ^ (53 : Nat) - 1) * 2 ^ (2045 : Nat)

/-- Magnitudes that a double can hold: at most 53 significant bits, and not too great. -/
def Representable (magnitude : Nat) : Prop :=
  magnitude % 2 ^ (magnitude.log2 - 52) = 0 ∧ magnitude ≤ maxMagnitude

instance : DecidablePred Representable := fun _ => inferInstanceAs (Decidable (_ ∧ _))

/-- A double: NaN, an infinity, or a signed magnitude in units of `2^-1074`. -/
inductive Binary64
  | nan
  | infinity (negative : Bool)
  | finite (negative : Bool) (magnitude : Nat) (representable : Representable magnitude)
  deriving DecidableEq

namespace Binary64

/-- Units in the number one. -/
def unitsPerOne : Nat := 2 ^ (1074 : Nat)

/-- Positive zero. -/
def zero : Binary64 := .finite false 0 ⟨rfl, Nat.zero_le _⟩

/-- One half. -/
def half : Binary64 := .finite false (2 ^ (1073 : Nat)) (by decide +kernel)

/-- One. -/
def one : Binary64 := .finite false (2 ^ (1074 : Nat)) (by decide +kernel)

/-- Positive infinity. -/
def posInf : Binary64 := .infinity false

/-- Negative infinity. -/
def negInf : Binary64 := .infinity true

instance : Inhabited Binary64 := ⟨zero⟩

/-- Is this NaN? -/
def isNaN : Binary64 → Bool
  | nan => true
  | _ => false

/-- Is this a finite number? -/
def isFinite : Binary64 → Bool
  | finite .. => true
  | _ => false

/-- The sign, also of zeros and infinities. NaN carries none. -/
def isNegative : Binary64 → Bool
  | nan => false
  | infinity s => s
  | finite s _ _ => s

/-- A change of sign, also of zeros and infinities. -/
def neg : Binary64 → Binary64
  | nan => nan
  | infinity s => infinity !s
  | finite s m h => finite (!s) m h

instance : Neg Binary64 := ⟨neg⟩

@[simp] theorem neg_nan : -nan = nan := rfl
@[simp] theorem neg_infinity (s : Bool) : -infinity s = infinity !s := rfl
@[simp] theorem neg_finite (s : Bool) (m : Nat) (h : Representable m) :
    -finite s m h = finite (!s) m h := rfl

@[simp] theorem neg_neg (v : Binary64) : - -v = v := by
  cases v <;> simp

/-! ## The line -/

/-- The position of the infinities, beyond every finite magnitude. -/
def infinityPosition : Nat := 2 ^ (2098 : Nat)

/-- Where a double lies on the line, in units. NaN lies nowhere: its position is read by no
comparison. -/
def position : Binary64 → Int
  | nan => 0
  | infinity s => if s then -infinityPosition else infinityPosition
  | finite s m _ => if s then -m else m

/-- The IEEE comparison `≤`: false as soon as one side is NaN. -/
def le (a b : Binary64) : Bool :=
  !a.isNaN && !b.isNaN && decide (a.position ≤ b.position)

/-- The IEEE comparison `<`: false as soon as one side is NaN. -/
def lt (a b : Binary64) : Bool :=
  !a.isNaN && !b.isNaN && decide (a.position < b.position)

instance : LE Binary64 := ⟨fun a b => a.le b = true⟩
instance : LT Binary64 := ⟨fun a b => a.lt b = true⟩
instance (a b : Binary64) : Decidable (a ≤ b) := inferInstanceAs (Decidable (_ = true))
instance (a b : Binary64) : Decidable (a < b) := inferInstanceAs (Decidable (_ = true))

theorem le_iff {a b : Binary64} :
    a ≤ b ↔ a.isNaN = false ∧ b.isNaN = false ∧ a.position ≤ b.position := by
  show a.le b = true ↔ _
  simp [le, and_assoc]

theorem lt_iff {a b : Binary64} :
    a < b ↔ a.isNaN = false ∧ b.isNaN = false ∧ a.position < b.position := by
  show a.lt b = true ↔ _
  simp [lt, and_assoc]

@[simp] theorem position_neg (v : Binary64) : (-v).position = -v.position := by
  cases v with
  | nan => rfl
  | infinity s => cases s <;> simp only [neg_infinity, position, Bool.not_true, Bool.not_false,
      if_true, Bool.false_eq_true, if_false, Int.neg_neg]
  | finite s m _ => cases s <;> simp only [neg_finite, position, Bool.not_true, Bool.not_false,
      if_true, Bool.false_eq_true, if_false, Int.neg_neg]

@[simp] theorem isNaN_neg (v : Binary64) : (-v).isNaN = v.isNaN := by
  cases v <;> rfl

/-- Sign changes reverse the order. -/
theorem neg_le_neg_iff {a b : Binary64} : -a ≤ -b ↔ b ≤ a := by
  simp only [le_iff, isNaN_neg, position_neg, Int.neg_le_neg_iff]
  exact ⟨fun ⟨ha, hb, h⟩ => ⟨hb, ha, h⟩, fun ⟨hb, ha, h⟩ => ⟨ha, hb, h⟩⟩

/-! ## Identity -/

/-- The same number with a zero made positive. Zeros of either sign are one number. -/
def unsignedZero : Binary64 → Binary64
  | finite s m h => if m = 0 then zero else finite s m h
  | v => v

/-- Do two doubles stand for one number? Zeros of either sign do, and so do NaN and NaN. -/
def same (a b : Binary64) : Bool := a.unsignedZero = b.unsignedZero

@[simp] theorem same_iff {a b : Binary64} : a.same b = true ↔ a.unsignedZero = b.unsignedZero := by
  simp [same]

@[simp] theorem isNaN_unsignedZero (v : Binary64) : v.unsignedZero.isNaN = v.isNaN := by
  cases v with
  | finite s m h => simp only [unsignedZero]; split <;> rfl
  | _ => rfl

@[simp] theorem position_unsignedZero (v : Binary64) : v.unsignedZero.position = v.position := by
  cases v with
  | finite s m h =>
    simp only [unsignedZero]
    split
    · next h0 => subst h0; cases s <;> rfl
    · rfl
  | _ => rfl

@[simp] theorem unsignedZero_unsignedZero (v : Binary64) :
    v.unsignedZero.unsignedZero = v.unsignedZero := by
  cases v with
  | finite s m h => by_cases h0 : m = 0 <;> simp [unsignedZero, zero, h0]
  | _ => rfl

end Binary64

end FlowTypes
