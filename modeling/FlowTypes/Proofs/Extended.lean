import FlowTypes.Binary64.Order
import FlowTypes.Proofs.Whole
import Mathlib.Order.WithBotTop
import Mathlib.Tactic.Order
import Mathlib.Tactic.Positivity

/-!
# Doubles as extended rationals

`Binary64.value` is the extended rational that a double stands for, and `Binary64.exact` adds NaN
as a point apart. Positions and values are ordered alike (`value_le_value`), so comparisons of
doubles are comparisons of values (`le_iff_value`, `lt_iff_value`), and two doubles are one number
exactly if they stand for one point (`same_iff_exact`).

Integers among the doubles are integers among the values (`isInteger_iff_value`). `SoundStep` says
of an integer and a double that a rounded step by one from the double does not pass the integer.
-/

namespace FlowTypes

/-! ## Extended rationals -/

/-- The rationals with both infinities. -/
abbrev ExtendedRat := WithBotTop ℚ

namespace ExtendedRat

/-- A rational among the extended ones. -/
abbrev rat (q : ℚ) : ExtendedRat := WithBotTop.coe q

/-- An integer among the extended rationals. -/
abbrev int (z : ℤ) : ExtendedRat := rat z

theorem bot_lt_rat (q : ℚ) : (⊥ : ExtendedRat) < rat q :=
  bot_lt_iff_ne_bot.2 (WithBotTop.coe_ne_bot q)

theorem rat_lt_top (q : ℚ) : rat q < (⊤ : ExtendedRat) :=
  lt_top_iff_ne_top.2 (WithBotTop.coe_ne_top q)

theorem int_le_int {a b : ℤ} : int a ≤ int b ↔ a ≤ b := by
  rw [WithBotTop.coe_le_coe, Int.cast_le]

theorem int_lt_int {a b : ℤ} : int a < int b ↔ a < b := by
  rw [WithBotTop.coe_lt_coe, Int.cast_lt]

theorem int_injective {a b : ℤ} (h : int a = int b) : a = b := by
  exact_mod_cast WithBotTop.coe_injective h

end ExtendedRat

open ExtendedRat

namespace Binary64

/-! ## Values -/

/-- The extended rational that a double stands for. NaN stands for none : its value is read by no
statement. -/
def value : Binary64 → ExtendedRat
  | nan => rat 0
  | infinity true => ⊥
  | infinity false => ⊤
  | v@(finite ..) => rat (v.position / unitsPerOne)

/-- The point that a double stands for : an extended rational, or the one NaN. -/
def exact (v : Binary64) : Option ExtendedRat :=
  if v.isNaN then none else some v.value

theorem value_finite {v : Binary64} (hf : v.isFinite = true) :
    v.value = rat (v.position / unitsPerOne) := by
  cases v with
  | finite s m hm => rfl
  | _ => simp [isFinite] at hf

theorem position_lt_infinityPosition {v : Binary64} (hf : v.isFinite = true) :
    -(infinityPosition : ℤ) < v.position ∧ v.position < infinityPosition := by
  cases v with
  | finite s m hm =>
    have := hm.2
    have := maxMagnitude_lt_infinityPosition
    cases s <;> simp only [position, if_true, if_false, Bool.false_eq_true] <;> omega
  | _ => simp [isFinite] at hf

theorem infinityPosition_pos : 0 < infinityPosition := by
  decide +kernel

/-- Values are ordered as positions are. -/
theorem value_lt_value {a b : Binary64} (ha : a.isNaN = false) (hb : b.isNaN = false) :
    a.value < b.value ↔ a.position < b.position := by
  have hunit : (0 : ℚ) < unitsPerOne := by exact_mod_cast unitsPerOne_pos
  have hpos := infinityPosition_pos
  cases a with
  | nan => simp [isNaN] at ha
  | infinity s =>
    cases b with
    | nan => simp [isNaN] at hb
    | infinity t =>
      cases s <;> cases t <;>
        simp only [value, position, lt_self_iff_false, if_true, if_false, Bool.false_eq_true,
          not_top_lt, bot_lt_top, false_iff, true_iff] <;> omega
    | finite t n hn =>
      have hlt := position_lt_infinityPosition (v := finite t n hn) rfl
      rw [value_finite (v := finite t n hn) rfl]
      cases s
      · simp only [value, not_top_lt, false_iff]
        simp only [position, Bool.false_eq_true, if_false] at hlt ⊢
        omega
      · simp only [value, bot_lt_rat, true_iff]
        simp only [position, if_true] at hlt ⊢
        omega
  | finite s m hm =>
    have hlt := position_lt_infinityPosition (v := finite s m hm) rfl
    rw [value_finite (v := finite s m hm) rfl]
    cases b with
    | nan => simp [isNaN] at hb
    | infinity t =>
      cases t
      · simp only [value, rat_lt_top, true_iff]
        simp only [position, Bool.false_eq_true, if_false] at hlt ⊢
        omega
      · simp only [value, not_lt_bot, false_iff]
        simp only [position, if_true] at hlt ⊢
        omega
    | finite t n hn =>
      rw [value_finite (v := finite t n hn) rfl, WithBotTop.coe_lt_coe,
        div_lt_div_iff_of_pos_right hunit, Int.cast_lt]

theorem value_le_value {a b : Binary64} (ha : a.isNaN = false) (hb : b.isNaN = false) :
    a.value ≤ b.value ↔ a.position ≤ b.position := by
  rw [← not_lt, value_lt_value hb ha, not_lt]

theorem value_eq_value {a b : Binary64} (ha : a.isNaN = false) (hb : b.isNaN = false) :
    a.value = b.value ↔ a.position = b.position := by
  rw [le_antisymm_iff, value_le_value ha hb, value_le_value hb ha, ← le_antisymm_iff]

theorem le_iff_value {a b : Binary64} :
    a ≤ b ↔ a.isNaN = false ∧ b.isNaN = false ∧ a.value ≤ b.value := by
  rw [le_iff]
  refine and_congr_right fun ha => and_congr_right fun hb => ?_
  rw [value_le_value ha hb]

theorem lt_iff_value {a b : Binary64} :
    a < b ↔ a.isNaN = false ∧ b.isNaN = false ∧ a.value < b.value := by
  rw [lt_iff]
  refine and_congr_right fun ha => and_congr_right fun hb => ?_
  rw [value_lt_value ha hb]

/-! ## One number, two signs of zero -/

/-- A double without the sign of zero is known by its position. -/
theorem unsignedZero_eq_iff {a b : Binary64} :
    a.unsignedZero = b.unsignedZero ↔ a.isNaN = b.isNaN ∧ a.position = b.position := by
  constructor
  · intro h
    rw [← isNaN_unsignedZero a, ← position_unsignedZero a, h, isNaN_unsignedZero,
      position_unsignedZero]
    exact ⟨rfl, rfl⟩
  · rintro ⟨hn, hp⟩
    have hpos := infinityPosition_pos
    cases a with
    | nan => cases b <;> simp_all [isNaN]
    | infinity s =>
      cases b with
      | nan => simp [isNaN] at hn
      | infinity t =>
        cases s <;> cases t <;> simp only [position, if_true, if_false, Bool.false_eq_true] at hp <;>
          first | rfl | omega
      | finite t n hn' =>
        have := position_lt_infinityPosition (v := finite t n hn') rfl
        rw [← hp] at this
        cases s <;> simp only [position, if_true, if_false, Bool.false_eq_true] at this <;> omega
    | finite s m hm =>
      cases b with
      | nan => simp [isNaN] at hn
      | infinity t =>
        have := position_lt_infinityPosition (v := finite s m hm) rfl
        rw [hp] at this
        cases t <;> simp only [position, if_true, if_false, Bool.false_eq_true] at this <;> omega
      | finite t n hn' =>
        rcases Nat.eq_zero_or_pos m with h0 | h0
        · have h0' : n = 0 := by
            cases s <;> cases t <;>
              simp only [position, if_true, if_false, Bool.false_eq_true] at hp <;> omega
          simp only [unsignedZero, h0, h0', if_true]
        · obtain ⟨rfl, rfl⟩ : s = t ∧ m = n := by
            cases s <;> cases t <;>
              simp only [position, if_true, if_false, Bool.false_eq_true] at hp <;>
              simp only [true_and, Bool.false_eq_true, Bool.true_eq_false, false_and] <;> omega
          rfl

theorem exact_eq_some {v : Binary64} {q : ExtendedRat} :
    v.exact = some q ↔ v.isNaN = false ∧ v.value = q := by
  unfold exact
  cases v.isNaN <;> simp

theorem exact_eq_none {v : Binary64} : v.exact = none ↔ v.isNaN = true := by
  unfold exact
  cases v.isNaN <;> simp

/-- Two doubles are one number exactly if they stand for one point. -/
theorem same_iff_exact {a b : Binary64} : a.same b = true ↔ a.exact = b.exact := by
  rw [same_iff, unsignedZero_eq_iff]
  cases ha : a.isNaN with
  | true =>
    rw [exact_eq_none.2 ha, eq_comm (a := none), exact_eq_none]
    refine ⟨fun h => h.1.symm, fun hb => ⟨hb.symm, ?_⟩⟩
    cases a <;> cases b <;> simp_all [isNaN]
  | false =>
    rw [exact_eq_some.2 ⟨ha, rfl⟩, eq_comm (a := some _), exact_eq_some]
    constructor
    · rintro ⟨hb, hp⟩
      exact ⟨hb.symm, ((value_eq_value ha hb.symm).2 hp).symm⟩
    · rintro ⟨hb, hv⟩
      exact ⟨hb.symm, (value_eq_value ha hb).1 hv.symm⟩

@[simp] theorem value_unsignedZero (v : Binary64) : v.unsignedZero.value = v.value := by
  cases hv : v.isNaN with
  | true => cases v <;> simp_all [isNaN, unsignedZero]
  | false => exact (value_eq_value (by simpa using hv) hv).2 (position_unsignedZero v)

/-! ## Integers -/

theorem int_le_value {v : Binary64} (hf : v.isFinite = true) (z : ℤ) :
    int z ≤ v.value ↔ z * unitsPerOne ≤ v.position := by
  have hunit : (0 : ℚ) < unitsPerOne := by exact_mod_cast unitsPerOne_pos
  rw [value_finite hf, WithBotTop.coe_le_coe]
  generalize unitsPerOne = u at hunit ⊢
  rw [le_div_iff₀ hunit]
  norm_cast

theorem value_le_int {v : Binary64} (hf : v.isFinite = true) (z : ℤ) :
    v.value ≤ int z ↔ v.position ≤ z * unitsPerOne := by
  have hunit : (0 : ℚ) < unitsPerOne := by exact_mod_cast unitsPerOne_pos
  rw [value_finite hf, WithBotTop.coe_le_coe]
  generalize unitsPerOne = u at hunit ⊢
  rw [div_le_iff₀ hunit]
  norm_cast

theorem value_eq_int {v : Binary64} (hf : v.isFinite = true) (z : ℤ) :
    v.value = int z ↔ v.position = z * unitsPerOne := by
  rw [le_antisymm_iff, value_le_int hf, int_le_value hf, ← le_antisymm_iff]

/-- The integers among the doubles are the doubles among the integers. -/
theorem isInteger_iff_value {v : Binary64} :
    v.isInteger = true ↔ v.isFinite = true ∧ ∃ z, v.value = int z := by
  constructor
  · intro h
    obtain ⟨z, hz⟩ := position_of_isInteger h
    exact ⟨isFinite_of_isInteger h, z, (value_eq_int (isFinite_of_isInteger h) z).2 hz⟩
  · rintro ⟨hf, z, hz⟩
    exact (isInteger_iff_dvd hf).2 ⟨z, by rw [(value_eq_int hf z).1 hz, Int.mul_comm]⟩

theorem isFinite_of_value_eq_int {v : Binary64} {z : ℤ} (hn : v.isNaN = false)
    (h : v.value = int z) : v.isFinite = true := by
  cases v with
  | nan => simp [isNaN] at hn
  | infinity s =>
    cases s with
    | false => exact absurd h.symm (WithBotTop.coe_ne_top _)
    | true => exact absurd h.symm (WithBotTop.coe_ne_bot _)
  | finite s m hm => rfl

theorem int_le_value_floor (v : Binary64) (z : ℤ) : int z ≤ v.floor.value ↔ int z ≤ v.value := by
  cases v with
  | finite s m hm =>
    rw [int_le_value (floor_spec rfl).1, int_le_value rfl, le_position_floor_iff]
  | _ => rfl

theorem value_ceil_le_int (v : Binary64) (z : ℤ) : v.ceil.value ≤ int z ↔ v.value ≤ int z := by
  cases v with
  | finite s m hm =>
    have hf : (ceil (finite s m hm)).isFinite = true := by
      have := (floor_spec (v := -finite s m hm) rfl).1
      rw [ceil]
      revert this
      cases floor (-finite s m hm) <;> simp [isFinite]
    rw [value_le_int hf, value_le_int rfl, position_ceil_le_iff]
  | infinity s => cases s <;> rfl
  | nan => rfl

theorem le_value_add_one {v : Binary64} (hv : v.isWhole = true) : v.value ≤ (v + one).value := by
  have hn := isNaN_of_isWhole hv
  rw [value_le_value hn (isNaN_of_isWhole (isWhole_add_one hv))]
  cases v with
  | nan => simp [isWhole] at hv
  | infinity s => rfl
  | finite s m hm =>
    rw [position_add rfl rfl, position_one]
    exact le_roundPosition (by omega)

theorem value_sub_one_le {v : Binary64} (hv : v.isWhole = true) : (v - one).value ≤ v.value := by
  have hn := isNaN_of_isWhole hv
  rw [value_le_value (isNaN_of_isWhole (isWhole_sub_one hv)) hn]
  cases v with
  | nan => simp [isWhole] at hv
  | infinity s => rfl
  | finite s m hm =>
    rw [sub_eq_add_neg, position_add rfl rfl, position_neg, position_one]
    exact roundPosition_le (by omega)

/-- The steps by one from a double, up and down, do not pass an integer. -/
structure SoundStep (z : ℤ) (v : Binary64) : Prop where
  up : v.value < int z → (v + one).value ≤ int z
  down : int z < v.value → int z ≤ (v - one).value

/-- Whole doubles do not step past an integer that is a double itself. -/
theorem soundStep_of_exact {x v : Binary64} {z : ℤ} (hx : x.exact = some (int z))
    (hv : v.isWhole = true) : SoundStep z v := by
  obtain ⟨hxn, hxz⟩ := exact_eq_some.1 hx
  have hxf := isFinite_of_value_eq_int hxn hxz
  have hxi : x.isInteger = true := isInteger_iff_value.2 ⟨hxf, z, hxz⟩
  have hvn := isNaN_of_isWhole hv
  constructor
  · intro h
    rw [← hxz] at h ⊢
    rw [value_le_value (isNaN_of_isWhole (isWhole_add_one hv)) hxn]
    exact position_add_one_le hv hxi ((value_lt_value hvn hxn).1 h)
  · intro h
    rw [← hxz] at h ⊢
    rw [value_le_value hxn (isNaN_of_isWhole (isWhole_sub_one hv))]
    exact le_position_sub_one hv hxi ((value_lt_value hxn hvn).1 h)

end Binary64

end FlowTypes
