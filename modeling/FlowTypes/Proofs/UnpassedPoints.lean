import FlowTypes.Proofs.ExactSteps
import FlowTypes.Proofs.Ranges

/-!
# Points that no step passes

Beyond `2^53` an integer need not be a double, and a rounded step by one may pass it. `Unpassed`
says of a point that no step up does. The doubles are unpassed, and so are the points that are no
integers. Between a double and the next one up there is an unpassed integer, unless the step from
the one reaches the other (`Binary64.exists_unpassed_above`). So a range of integers is known by
the unpassed ones (`Range.Whole.le_of_unpassed`).
-/

namespace FlowTypes

open ExtendedRat Binary64

/-- No step up by one from a whole double passes the point. -/
def Unpassed (p : Option ExtendedRat) : Prop :=
  ∀ z, p = some (int z) → ∀ v : Binary64, v.isWhole = true → v.value < int z →
    (v + one).value ≤ int z

theorem unpassed_int {z : ℤ} :
    Unpassed (some (int z)) ↔
      ∀ v : Binary64, v.isWhole = true → v.value < int z → (v + one).value ≤ int z := by
  refine ⟨fun h => h z rfl, fun h k hk => ?_⟩
  rwa [← int_injective (Option.some.inj hk)]

theorem unpassed_exact (x : Binary64) : Unpassed x.exact :=
  fun _ hz _ hv => (soundStep_of_exact hz hv).up

theorem unpassed_rat {q : ℚ} (hq : ∀ z : ℤ, rat q ≠ int z) : Unpassed (some (rat q)) :=
  fun z hz => absurd (Option.some.inj hz) (hq z)

/-! ## Steps from finite doubles -/

namespace Binary64

/-- The greatest finite double. -/
def maxFinite : Binary64 := .finite false maxMagnitude (by decide +kernel)

theorem position_le_maxFinite {v : Binary64} (hf : v.isFinite = true) :
    v.position ≤ maxFinite.position := by
  cases v with
  | finite s m hm =>
    have := hm.2
    cases s <;> simp only [position, maxFinite, if_true, Bool.false_eq_true, if_false] <;> omega
  | _ => simp [isFinite] at hf

/-- A step up from a finite double does not overflow. -/
theorem isFinite_add_one {v : Binary64} (hv : v.isWhole = true) (hf : v.isFinite = true) :
    (v + one).isFinite = true := by
  have hw := isWhole_add_one hv
  have hle : (v + one).value ≤ maxFinite.value := by
    rw [value_le_value (isNaN_of_isWhole hw) rfl]
    rcases (position_le_maxFinite hf).lt_or_eq with hlt | heq
    · exact position_add_one_le hv (by decide +kernel) hlt
    · have hstay : maxFinite + one = maxFinite := by decide +kernel
      rw [position_add hf rfl, heq, ← position_add rfl rfl, hstay]
  rcases value_of_isWhole hw with he | he | ⟨hf', -⟩
  · have hge := le_value_add_one hv
    rw [he, value_finite hf] at hge
    exact absurd hge (not_le.2 (bot_lt_rat _))
  · rw [he] at hle
    exact absurd hle (not_le.2 (rat_lt_top _))
  · exact hf'

/-- Steps from doubles at the same position lead to the same position. -/
theorem value_add_one_congr {v w : Binary64} (hv : v.isWhole = true) (hw : w.isWhole = true)
    (h : v.value = w.value) : (v + one).value = (w + one).value := by
  have hvn := isNaN_of_isWhole hv
  have hwn := isNaN_of_isWhole hw
  rcases value_of_isWhole hv with rfl | rfl | ⟨hf, -⟩
  · rw [(Range.value_eq_bot hwn).1 h.symm]
  · rw [(Range.value_eq_top hwn).1 h.symm]
  · rcases value_of_isWhole hw with rfl | rfl | ⟨hf', -⟩
    · rw [(Range.value_eq_bot hvn).1 h]
    · rw [(Range.value_eq_top hvn).1 h]
    · have hpos := (value_eq_value hvn hwn).1 h
      rw [value_eq_value (isNaN_add hf rfl) (isNaN_add hf' rfl), position_add hf rfl,
        position_add hf' rfl, hpos]

section Stay

variable {v : Binary64} (hv : v.isWhole = true) {k : ℤ} (hk : v.value = int k)
  (hstay : v.value = (v + one).value)
include hv hk hstay

/-- Where a step up stays, the next integer is before every greater double. -/
theorem int_lt_of_step_stays {w : Binary64} (hw : w.isWhole = true) (h : v.value < w.value) :
    int (k + 1) < w.value := by
  rcases value_of_isWhole hw with rfl | rfl | ⟨hwf, i, hi⟩
  · exact absurd h not_lt_bot
  · exact rat_lt_top _
  · rw [hk, hi, int_lt_int] at h
    rw [hi, int_lt_int]
    by_contra hle
    obtain rfl : i = k + 1 := by omega
    have hf := isFinite_of_value_eq_int (isNaN_of_isWhole hv) hk
    -- A double here would be reached by the step, which rounds to the nearest.
    have hpos : w.position ≤ v.position + one.position := by
      rw [(value_eq_int hwf _).1 hi, (value_eq_int hf _).1 hk, position_one, add_mul, one_mul]
    have hreach := (value_le_value (isNaN_of_isWhole hw) (isNaN_of_isWhole (isWhole_add_one hv))).2
      ((le_roundPosition hpos).trans_eq (position_add hf rfl).symm)
    rw [hi, ← hstay, hk, int_le_int] at hreach
    omega

/-- Where a step up stays, the next integer is no double, and nothing steps over it. -/
theorem unpassed_of_step_stays : Unpassed (some (int (k + 1))) := by
  refine unpassed_int.2 fun w hw h => ?_
  rcases value_of_isWhole hw with rfl | rfl | ⟨hwf, i, hi⟩
  · exact bot_le
  · exact absurd h (not_lt.2 le_top)
  · rw [hi, int_lt_int, Int.lt_add_one_iff] at h
    have hle : (w + one).value ≤ int k := by
      rcases h.lt_or_eq with hik | rfl
      · have hexact := exact_eq_some.2 ⟨isNaN_of_isWhole hv, hk⟩
        exact (soundStep_of_exact hexact hw).up (by rw [hi, int_lt_int]; exact hik)
      · rw [value_add_one_congr hw hv (hi.trans hk.symm), ← hstay, hk]
    exact hle.trans (int_le_int.2 (by omega))

end Stay

/-- Between a finite double and the next one there is an unpassed integer, or the next double is
one. It is before every double that the step up does not reach. -/
theorem exists_unpassed_above {v : Binary64} (hv : v.isWhole = true) (hf : v.isFinite = true) :
    ∃ z : ℤ, Unpassed (some (int z)) ∧ v.value < int z ∧ ∀ w : Binary64, w.isWhole = true →
      (v.value < w.value → int z ≤ w.value) ∧ ((v + one).value < w.value → int z < w.value) := by
  have hwhole := isWhole_add_one hv
  obtain ⟨-, k, hk⟩ := isInteger_iff_value.1 (isInteger_of_isWhole hv hf)
  obtain ⟨-, j, hj⟩ := isInteger_iff_value.1
    (isInteger_of_isWhole hwhole (isFinite_add_one hv hf))
  rcases (le_value_add_one hv).lt_or_eq with hlt | hstay
  · -- The step goes to the next double.
    have hexact := exact_eq_some.2 ⟨isNaN_of_isWhole hwhole, hj⟩
    refine ⟨j, hexact ▸ unpassed_exact _, hj ▸ hlt, fun w hw => ⟨fun h => ?_, fun h => hj ▸ h⟩⟩
    rcases value_of_isWhole hw with rfl | rfl | ⟨-, i, hi⟩
    · exact absurd h not_lt_bot
    · exact le_top
    · rw [hi, ← hj]
      exact (soundStep_of_exact (exact_eq_some.2 ⟨isNaN_of_isWhole hw, hi⟩) hv).up (hi ▸ h)
  · have hnext := @int_lt_of_step_stays v hv k hk hstay
    refine ⟨k + 1, unpassed_of_step_stays hv hk hstay, by rw [hk, int_lt_int]; omega,
      fun w hw => ⟨fun h => (hnext hw h).le, fun h => hnext hw (hstay ▸ h)⟩⟩

/-- Below all finite doubles there is an unpassed integer. -/
theorem exists_unpassed_below :
    ∃ z : ℤ, Unpassed (some (int z)) ∧ ∀ v : Binary64, v.isFinite = true → int z < v.value := by
  have hbelow : ∀ v : Binary64, v.isFinite = true → int (-2 ^ 1024) < v.value := by
    intro v hf
    have hpos : (-2 ^ 1024 : ℤ) * unitsPerOne = -infinityPosition := by decide +kernel
    have hlt := (position_lt_infinityPosition hf).1
    rw [← not_le, value_le_int hf, hpos]
    omega
  refine ⟨-2 ^ 1024, unpassed_int.2 fun v hv h => ?_, hbelow⟩
  rcases value_of_isWhole hv with rfl | rfl | ⟨hf, -⟩
  · exact bot_le
  · exact absurd h (not_lt.2 le_top)
  · exact absurd h (not_lt.2 (hbelow v hf).le)

end Binary64

/-! ## Ranges of integers -/

namespace Range

/-- A range of integers holds an unpassed one. -/
theorem Whole.exists_unpassed {r : Range} (hr : r.Whole) :
    ∃ z : ℤ, Unpassed (some (int z)) ∧ r.Contains (int z) := by
  obtain ⟨x, hx, hrx⟩ := hr.exists_integer
  obtain ⟨hf, z, hz⟩ := isInteger_iff_value.1 hx
  have hexact := exact_eq_some.2 ⟨isNaN_of_isFinite hf, hz⟩
  exact ⟨z, hexact ▸ unpassed_exact x, hz ▸ hrx⟩

section Unpassed

variable {r s : Range} (hr : r.Whole) (hs : s.Whole)
  (h : ∀ z : ℤ, Unpassed (some (int z)) → r.Contains (int z) → s.Contains (int z))
include h

theorem contains_value_of_unpassed {x : Binary64} (hx : x.isWhole = true) (hf : x.isFinite = true)
    (hrx : r.Contains x.value) : s.Contains x.value := by
  obtain ⟨-, z, hz⟩ := isInteger_iff_value.1 (isInteger_of_isWhole hx hf)
  have hexact := exact_eq_some.2 ⟨isNaN_of_isFinite hf, hz⟩
  rw [hz] at hrx ⊢
  exact h z (hexact ▸ unpassed_exact x) hrx

include hr hs

theorem Whole.lo_le_of_unpassed : s.lo.value ≤ r.lo.value := by
  rcases value_of_isWhole hr.lo_whole with he | he | ⟨hf, -⟩
  · -- Below all finite doubles only a range without lower bound has integers.
    obtain ⟨z, hz, hbelow⟩ := exists_unpassed_below
    have hzr : r.Contains (int z) := by
      refine ⟨by rw [he]; exact bot_le, ?_⟩
      rcases value_of_isWhole hr.hi_whole with he' | he' | ⟨hf, -⟩
      · exact absurd (by rw [he']; rfl) hr.hi_ne_bot
      · rw [he']
        exact le_top
      · exact (hbelow _ hf).le
    have hle := (h z hz hzr).1
    rcases value_of_isWhole hs.lo_whole with he' | he' | ⟨hf, -⟩
    · rw [he']
      exact bot_le
    · exact absurd (by rw [he']; rfl) hs.lo_ne_top
    · exact absurd hle (not_le.2 (hbelow _ hf))
  · exact absurd (by rw [he]; rfl) hr.lo_ne_top
  · exact (contains_value_of_unpassed h hr.lo_whole hf ⟨le_refl _, hr.lo_le_hi⟩).1

theorem Whole.hi_le_of_unpassed : r.hi.value ≤ s.hi.value := by
  rcases value_of_isWhole hr.hi_whole with he | he | ⟨hf, -⟩
  · exact absurd (by rw [he]; rfl) hr.hi_ne_bot
  · -- Above every finite double there is an unpassed integer.
    rcases value_of_isWhole hs.hi_whole with he' | he' | ⟨hf, -⟩
    · exact absurd (by rw [he']; rfl) hs.hi_ne_bot
    · rw [he']
      exact le_top
    · obtain ⟨k, hk, hrk⟩ := hr.exists_unpassed
      obtain ⟨z, hz, hlt, -⟩ := exists_unpassed_above hs.hi_whole hf
      have hlo := (hrk.1.trans (h k hk hrk).2).trans hlt.le
      exact absurd (h z hz ⟨hlo, by rw [he]; exact le_top⟩).2 (not_le.2 hlt)
  · exact (contains_value_of_unpassed h hr.hi_whole hf ⟨hr.lo_le_hi, le_refl _⟩).2

/-- A range that holds the unpassed integers of another holds it. -/
theorem Whole.le_of_unpassed : s.lo.value ≤ r.lo.value ∧ r.hi.value ≤ s.hi.value :=
  ⟨hr.lo_le_of_unpassed hs h, hr.hi_le_of_unpassed hs h⟩

end Unpassed

end Range

end FlowTypes
