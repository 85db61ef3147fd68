import FlowTypes.Proofs.MonotoneRounding
import Mathlib.Algebra.Order.Round

/-!
# Rounding to the nearest integer is exact

`Binary64.roundHalfUp` computes with doubles, and both of its steps may be rounded themselves : the
difference of a number to its floor, and the step by one from there. Neither error shows in the
result, which is the rational of the number rounded to an integer (`Binary64.value_roundHalfUp`).

A difference of less than a half is a double (`Binary64.representable_sub_floor`). From a half on
doubles are multiples of `2^-53`, and so are their differences to integers; a number nearer to zero
is its own difference to its floor, or lies more than a half above it. A greater difference may be
rounded, but not below a half. So the comparison tells what it would tell of the exact difference
(`Binary64.half_le_sub_floor_iff`).

The step by one is taken only from a floor below the number, and then it reaches the ceiling, which
is a double (`Binary64.value_floor_add_one`).
-/

namespace FlowTypes.Binary64

open ExtendedRat

variable {v : Binary64} {q : ℚ}

/-! ## Floor and ceiling -/

theorem value_floor (hv : v.isFinite = true) (hq : v.value = rat q) :
    v.floor.value = int ⌊q⌋ := by
  obtain ⟨-, k, hk⟩ := isInteger_iff_value.1 (isInteger_floor hv)
  have hle : ∀ z : ℤ, z ≤ k ↔ z ≤ ⌊q⌋ := fun z => by
    rw [← int_le_int, ← hk, int_le_value_floor, hq, WithBotTop.coe_le_coe, Int.le_floor]
  rw [hk, eq_of_forall_le_iff hle]

theorem value_ceil (hv : v.isFinite = true) (hq : v.value = rat q) :
    v.ceil.value = int ⌈q⌉ := by
  obtain ⟨-, k, hk⟩ := isInteger_iff_value.1 (isInteger_ceil hv)
  have hle : ∀ z : ℤ, k ≤ z ↔ ⌈q⌉ ≤ z := fun z => by
    rw [← int_le_int, ← hk, value_ceil_le_int, hq, WithBotTop.coe_le_coe, Int.ceil_le]
  rw [hk, eq_of_forall_ge_iff hle]

/-! ## Differences of less than a half -/

/-- The distance between neighbouring doubles from a half up to one, `2^-53`. -/
def spacing : ℕ := 2 ^ (half.position.natAbs.log2 - 52)

theorem position_half : half.position = 2 ^ 52 * spacing := by
  decide +kernel

theorem two_mul_position_half : 2 * half.position = unitsPerOne := by
  decide +kernel

theorem spacing_dvd_unitsPerOne : (spacing : ℤ) ∣ unitsPerOne := by
  rw [← two_mul_position_half, position_half]
  exact (Int.dvd_mul_left _ _).mul_left 2

/-- From a half on, doubles are multiples of the spacing there. -/
theorem spacing_dvd_position (h : half.position.natAbs ≤ v.position.natAbs) :
    (spacing : ℤ) ∣ v.position :=
  Int.natCast_dvd.2 ((short_natAbs_position v).dvd (log2_le_log2 h))

/-- Up to a half, multiples of the spacing are doubles. -/
theorem representable_of_spacing_dvd {d : ℕ} (hdvd : spacing ∣ d) (hle : (d : ℤ) ≤ half.position) :
    Representable d := by
  obtain ⟨j, hj⟩ := hdvd
  have hj53 : j ≤ 2 ^ 53 := by
    have hpos : 0 < spacing := by decide +kernel
    have hmul : j * spacing ≤ 2 ^ 52 * spacing := by
      rw [position_half, hj, Nat.mul_comm] at hle
      exact_mod_cast hle
    exact (Nat.le_of_mul_le_mul_right hmul hpos).trans (by decide)
  rw [hj, Nat.mul_comm]
  refine representable_mul_pow hj53 ((Nat.mul_le_mul_right _ hj53).trans ?_)
  decide +kernel

theorem representable_natAbs_position (hv : v.isFinite = true) :
    Representable v.position.natAbs := by
  cases v with
  | finite s m hm =>
    cases s <;> simpa only [position, if_true, Bool.false_eq_true, if_false, Int.natAbs_neg,
      Int.natAbs_natCast] using hm
  | _ => cases hv

/-- A difference to the floor of less than a half is a double. -/
theorem representable_sub_floor (hv : v.isFinite = true)
    (h : v.position - v.floor.position < half.position) :
    Representable (v.position - v.floor.position).natAbs := by
  obtain ⟨-, k, hk, hle, hlt⟩ := floor_spec hv
  have hunit := two_mul_position_half
  have hpos : 0 < half.position := by decide +kernel
  rw [hk] at h ⊢
  rcases le_or_gt half.position.natAbs v.position.natAbs with hlarge | hsmall
  · have hdvd : (spacing : ℤ) ∣ v.position - k * unitsPerOne :=
      Int.dvd_sub (spacing_dvd_position hlarge) (spacing_dvd_unitsPerOne.mul_left k)
    exact representable_of_spacing_dvd (Int.natCast_dvd.1 hdvd) (by omega)
  · have hk1 : k < 1 := lt_of_mul_lt_mul_right (a := (unitsPerOne : ℤ)) (by omega) (by omega)
    have hk2 : -1 < k + 1 := lt_of_mul_lt_mul_right (a := (unitsPerOne : ℤ)) (by omega) (by omega)
    obtain rfl | rfl : k = 0 ∨ k = -1 := by omega
    · rw [Int.zero_mul, Int.sub_zero]
      exact representable_natAbs_position hv
    · -- Above its floor, a small negative number has more than a half.
      omega

/-! ## The two steps -/

@[simp] theorem isFinite_neg (v : Binary64) : (-v).isFinite = v.isFinite := by
  cases v <;> rfl

/-- The rounded difference to the floor is at least a half exactly if the difference is. -/
theorem half_le_sub_floor_iff_position (hv : v.isFinite = true) :
    half ≤ v - v.floor ↔ half.position ≤ v.position - v.floor.position := by
  have hneg : (-v.floor).isFinite = true :=
    (isFinite_neg _).trans (isFinite_of_isInteger (isInteger_floor hv))
  have hpos : (v - v.floor).position = roundPosition (v.position - v.floor.position) := by
    rw [sub_eq_add_neg, position_add hv hneg, position_neg, ← Int.sub_eq_add_neg]
  rw [le_iff, hpos]
  constructor
  · rintro ⟨-, -, hle⟩
    by_contra hlt
    rw [not_le] at hlt
    rw [roundPosition_of_representable (representable_sub_floor hv hlt)] at hle
    exact absurd hle (not_le.2 hlt)
  · exact fun hle => ⟨rfl, isNaN_add hv hneg, le_roundPosition hle⟩

/-- The comparison tells of a number how far it is above its floor. -/
theorem half_le_sub_floor_iff (hv : v.isFinite = true) (hq : v.value = rat q) :
    half ≤ v - v.floor ↔ 1 ≤ 2 * Int.fract q := by
  have hunit : (0 : ℚ) < unitsPerOne := by exact_mod_cast unitsPerOne_pos
  have hposition : (v.position : ℚ) = q * unitsPerOne := by
    rw [value_finite hv] at hq
    rw [← WithBotTop.coe_injective hq, div_mul_cancel₀ _ hunit.ne']
  have hfloor : v.floor.position = ⌊q⌋ * unitsPerOne :=
    (value_eq_int (isFinite_of_isInteger (isInteger_floor hv)) _).1 (value_floor hv hq)
  calc half ≤ v - v.floor
      ↔ half.position ≤ v.position - v.floor.position := half_le_sub_floor_iff_position hv
    _ ↔ (unitsPerOne : ℤ) ≤ 2 * (v.position - v.floor.position) := by
      rw [← two_mul_position_half]
      omega
    _ ↔ (unitsPerOne : ℚ) ≤ 2 * (q * unitsPerOne - ⌊q⌋ * unitsPerOne) := by
      rw [hfloor, ← hposition]
      exact_mod_cast Iff.rfl
    _ ↔ (1 : ℚ) * unitsPerOne ≤ 2 * Int.fract q * unitsPerOne := by
      rw [one_mul, mul_assoc, Int.fract, sub_mul]
    _ ↔ 1 ≤ 2 * Int.fract q := mul_le_mul_iff_of_pos_right hunit

/-- From the floor of a number that is no integer, a step by one reaches the ceiling. -/
theorem value_floor_add_one (hv : v.isFinite = true) (hq : v.value = rat q)
    (h : Int.fract q ≠ 0) : (v.floor + one).value = v.ceil.value := by
  have hf := isFinite_of_isInteger (isInteger_floor hv)
  have hc := isFinite_of_isInteger (isInteger_ceil hv)
  have hceil : ⌈q⌉ = ⌊q⌋ + 1 :=
    (Int.ceil_eq_floor_add_one_iff_notMem q).2 fun hint => h (Int.fract_eq_zero_iff.2 hint)
  have hsum : v.floor.position + one.position = v.ceil.position := by
    rw [(value_eq_int hf _).1 (value_floor hv hq), (value_eq_int hc _).1 (value_ceil hv hq), hceil,
      position_one]
    ring
  -- The sum is the position of a double, which rounding does not pass from either side.
  have hround : roundPosition v.ceil.position = v.ceil.position :=
    le_antisymm (roundPosition_le le_rfl) (le_roundPosition le_rfl)
  rw [value_eq_value (isNaN_add hf rfl) (isNaN_of_isFinite hc), position_add hf rfl, hsum, hround]

/-! ## The nearest integer -/

/-- The result is the nearest integer, and of two that are as near the greater. -/
theorem value_roundHalfUp (hv : v.isFinite = true) (hq : v.value = rat q) :
    v.roundHalfUp.value = int (round q) := by
  unfold roundHalfUp round
  by_cases h : 1 ≤ 2 * Int.fract q
  · have hfract : Int.fract q ≠ 0 := fun h0 => by norm_num [h0] at h
    rw [if_pos ((half_le_sub_floor_iff hv hq).2 h), if_neg (not_lt.2 h),
      value_floor_add_one hv hq hfract, value_ceil hv hq]
  · rw [if_neg (mt (half_le_sub_floor_iff hv hq).1 h), if_pos (not_le.1 h), value_floor hv hq]

/-- Ties go up, also below zero. -/
example : (-(ofNat 2 + half)).roundHalfUp = -ofNat 2 := by
  decide +kernel

/-- Integers are left as they are, the sign of zero included. -/
theorem roundHalfUp_of_isInteger (hv : v.isInteger = true) : v.roundHalfUp = v := by
  obtain ⟨hf, k, hk⟩ := isInteger_iff_value.1 hv
  have hless : ¬half ≤ v - v.floor := by
    rw [half_le_sub_floor_iff hf hk, Int.fract_intCast]
    norm_num
  rw [roundHalfUp, if_neg hless, floor_of_isWhole (isWhole_of_isInteger hv)]

/-- A finite double is rounded to the integer that is the floor of its rational plus a half, no
error of a rounded step left. Rounding keeps the order, and it is the identity on integers. -/
theorem roundHalfUp_exact (hv : v.isFinite = true) :
    ∃ q : ℚ, v.exact = some (rat q) ∧ v.roundHalfUp.exact = some (int ⌊q + 1 / 2⌋) ∧
      (∀ w, v ≤ w → v.roundHalfUp ≤ w.roundHalfUp) ∧
      (v.isInteger = true → v.roundHalfUp = v) := by
  have hn := isNaN_of_isFinite hv
  refine ⟨_, exact_eq_some.2 ⟨hn, value_finite hv⟩,
    exact_eq_some.2 ⟨isNaN_of_isWhole (isWhole_roundHalfUp hn), ?_⟩,
    fun _ => roundHalfUp_le_roundHalfUp, roundHalfUp_of_isInteger⟩
  rw [value_roundHalfUp hv (value_finite hv), round_eq]

/-- The greatest double below a half : the rounded sum with a half is one, and yet the floor of the
exact sum is zero, to which it is rounded. -/
theorem roundHalfUp_exact_below_half :
    let v := finite false ((2 ^ 53 - 1) * 2 ^ 1020) (by decide +kernel)
    v.isFinite = true ∧ v < half ∧ v + half = one ∧ v.roundHalfUp = zero ∧
      ∃ q : ℚ, v.exact = some (rat q) ∧ ⌊q + 1 / 2⌋ = 0 := by
  intro v
  obtain ⟨q, hq, hround, -⟩ := roundHalfUp_exact (v := v) rfl
  have hzero : v.roundHalfUp = zero := by decide +kernel
  refine ⟨rfl, by decide +kernel, by decide +kernel, hzero, q, hq, ?_⟩
  have hexact : zero.exact = some (int 0) :=
    exact_eq_some.2 ⟨rfl, (value_eq_int rfl 0).2 (Int.zero_mul _).symm⟩
  rw [hzero, hexact] at hround
  exact (int_injective (Option.some.inj hround)).symm

end FlowTypes.Binary64
