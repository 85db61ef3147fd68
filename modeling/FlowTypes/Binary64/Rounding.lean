import FlowTypes.Binary64.Basic

/-!
# Rounding

One function, `ofRatio`, takes an exact ratio of naturals, in units of `2^-1074`, to the nearest
double, ties to even. Sums, products, quotients and decimals are all exact values rounded once by
it, so no operation has a rounding rule of its own. `representable_mul_pow` is why its result is a
double: a significand of at most 53 bits, scaled by a power of two.
-/

namespace FlowTypes

attribute [local instance] corePow

/-- The natural nearest `num / den`; a tie goes to the even one. -/
def roundDiv (num den : Nat) : Nat :=
  let quotient := num / den
  let rest := 2 * (num % den)
  if rest < den then quotient
  else if den < rest then quotient + 1
  else if quotient % 2 = 0 then quotient
  else quotient + 1

theorem roundDiv_le (num den : Nat) : roundDiv num den ≤ num / den + 1 := by
  simp only [roundDiv]
  split
  · omega
  · split
    · omega
    · split <;> omega

theorem le_roundDiv (num den : Nat) : num / den ≤ roundDiv num den := by
  simp only [roundDiv]
  split
  · omega
  · split
    · omega
    · split <;> omega

/-- A significand of at most 53 bits, scaled by a power of two, is a magnitude of a double. -/
theorem representable_mul_pow {significand scale : Nat} (hs : significand ≤ 2 ^ (53 : Nat))
    (hm : significand * 2 ^ scale ≤ maxMagnitude) : Representable (significand * 2 ^ scale) := by
  refine ⟨?_, hm⟩
  rcases Nat.eq_zero_or_pos significand with h0 | h0
  · simp [h0]
  rcases Nat.lt_or_eq_of_le hs with hlt | heq
  · have hlog : (significand * 2 ^ scale).log2 < 53 + scale := by
      rw [Nat.log2_lt (Nat.pos_iff_ne_zero.1 (Nat.mul_pos h0 (Nat.two_pow_pos _))), Nat.pow_add]
      exact Nat.mul_lt_mul_of_pos_right hlt (Nat.two_pow_pos _)
    apply Nat.mod_eq_zero_of_dvd
    exact Nat.dvd_trans (Nat.pow_dvd_pow 2 (by omega)) (Nat.dvd_mul_left _ _)
  · rw [heq, ← Nat.pow_add, Nat.log2_two_pow]
    exact Nat.mod_eq_zero_of_dvd (Nat.pow_dvd_pow 2 (by omega))

namespace Binary64

/-- How far the significand of `num / den` reaches beyond 53 bits. -/
def excessBits (num den : Nat) : Nat := (num / den).log2 - 52

theorem roundDiv_excessBits_le (num den : Nat) :
    roundDiv num (den * 2 ^ excessBits num den) ≤ 2 ^ (53 : Nat) := by
  refine Nat.le_trans (roundDiv_le _ _) ?_
  rw [← Nat.div_div_eq_div_mul]
  have hq : num / den < 2 ^ ((num / den).log2 + 1) := Nat.lt_log2_self
  have hp : 2 ^ ((num / den).log2 + 1) ≤ 2 ^ (53 + excessBits num den) :=
    Nat.pow_le_pow_right (by decide) (by unfold excessBits; omega)
  have hlt : num / den / 2 ^ excessBits num den < 2 ^ 53 := by
    rw [Nat.div_lt_iff_lt_mul (Nat.two_pow_pos _), ← Nat.pow_add]
    exact Nat.lt_of_lt_of_le hq hp
  omega

/-- The double nearest `num / den` units, ties to even; infinite where that is out of range. -/
def ofRatio (negative : Bool) (num den : Nat) : Binary64 :=
  let scale := excessBits num den
  let significand := roundDiv num (den * 2 ^ scale)
  if h : significand * 2 ^ scale ≤ maxMagnitude then
    .finite negative (significand * 2 ^ scale)
      (representable_mul_pow (roundDiv_excessBits_le num den) h)
  else
    .infinity negative

/-- The double nearest a natural number. -/
def ofNat (n : Nat) : Binary64 := ofRatio false (n * unitsPerOne) 1

end Binary64

end FlowTypes
