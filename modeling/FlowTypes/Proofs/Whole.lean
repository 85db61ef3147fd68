import FlowTypes.Proofs.Rounding

/-!
# Whole numbers among the doubles

A double is whole if it is an integer or an infinity. Whole numbers are multiples of
`unitsPerOne` on the line, or lie at its ends (`position_of_isInteger`). `floor` and `ceil` reach
the nearest ones (`le_position_floor_iff`, `position_ceil_le_iff`).

A step by one may be rounded, and then lands on or beyond a neighbour. It never passes another
integer among the doubles (`position_add_one_le`, `le_position_sub_one`), and it is exact up to
`2^53` (`position_add_one`, `position_sub_one`).
-/

namespace FlowTypes.Binary64

/-- Is this an integer or an infinity? -/
def isWhole : Binary64 → Bool
  | nan => false
  | infinity _ => true
  | finite _ m _ => m % unitsPerOne = 0

/-! ## Integers as positions -/

theorem isNaN_finite (s : Bool) (m : ℕ) (h : Representable m) : (finite s m h).isNaN = false :=
  rfl

theorem isFinite_of_isInteger {v : Binary64} (h : v.isInteger = true) : v.isFinite = true := by
  cases v <;> simp_all [isInteger, isFinite]

theorem isNaN_of_isFinite {v : Binary64} (h : v.isFinite = true) : v.isNaN = false := by
  cases v <;> simp_all [isFinite, isNaN]

theorem isNaN_of_isWhole {v : Binary64} (h : v.isWhole = true) : v.isNaN = false := by
  cases v <;> simp_all [isWhole, isNaN]

theorem isInteger_of_isWhole {v : Binary64} (h : v.isWhole = true) (hf : v.isFinite = true) :
    v.isInteger = true := by
  cases v <;> simp_all [isWhole, isInteger, isFinite]

theorem isWhole_of_isInteger {v : Binary64} (h : v.isInteger = true) : v.isWhole = true := by
  cases v <;> simp_all [isWhole, isInteger]

theorem isInteger_iff_dvd {v : Binary64} (hf : v.isFinite = true) :
    v.isInteger = true ↔ (unitsPerOne : ℤ) ∣ v.position := by
  cases v with
  | finite s m hm =>
    cases s <;> simp only [isInteger, position, if_true, Bool.false_eq_true, if_false, Int.dvd_neg,
      Int.natCast_dvd_natCast, Nat.dvd_iff_mod_eq_zero, decide_eq_true_eq]
  | _ => simp [isFinite] at hf

/-- The integer that a double is. -/
theorem position_of_isInteger {v : Binary64} (h : v.isInteger = true) :
    ∃ k : ℤ, v.position = k * unitsPerOne := by
  obtain ⟨k, hk⟩ := (isInteger_iff_dvd (isFinite_of_isInteger h)).1 h
  exact ⟨k, by rw [hk, Int.mul_comm]⟩

/-! ## Floor and ceiling -/

/-- A magnitude with a fraction has few whole units. -/
theorem whole_lt_of_mod_ne_zero {m : ℕ} (hm : Short m) (h : m % unitsPerOne ≠ 0) :
    m / unitsPerOne < 2 ^ 53 := by
  have hlog : m.log2 - 52 < 1074 := by
    by_contra hge
    refine h (Nat.mod_eq_zero_of_dvd (dvd_trans ?_ (Nat.dvd_of_mod_eq_zero hm)))
    exact Nat.pow_dvd_pow 2 (by omega)
  rw [Nat.div_lt_iff_lt_mul unitsPerOne_pos, unitsPerOne, ← Nat.pow_add]
  exact Nat.lt_log2_self.trans_le (Nat.pow_le_pow_right (by decide) (by omega))

/-- Up to `2^53` every number of whole units is representable. -/
theorem representable_mul_unitsPerOne {n : ℕ} (h : n ≤ 2 ^ 53) :
    Representable (n * unitsPerOne) := by
  refine representable_mul_pow h ((Nat.mul_le_mul_right _ h).trans ?_)
  decide +kernel

theorem representable_floor {m : ℕ} (hm : Representable m) :
    Representable (m / unitsPerOne * unitsPerOne) := by
  by_cases h : m % unitsPerOne = 0
  · rwa [Nat.div_mul_cancel (Nat.dvd_of_mod_eq_zero h)]
  · exact representable_mul_unitsPerOne (whole_lt_of_mod_ne_zero hm.1 h).le

/-- Towards zero for a positive double or an integer, and away from it for other negative ones. -/
theorem floor_finite (s : Bool) {m : ℕ} (hm : Representable m) :
    ∃ n h, floor (finite s m hm) = finite s (n * unitsPerOne) h ∧
      n = m / unitsPerOne + if s = true ∧ m % unitsPerOne ≠ 0 then 1 else 0 := by
  by_cases haway : s = true ∧ m % unitsPerOne ≠ 0
  · have hrep : Representable ((m / unitsPerOne + 1) * unitsPerOne) :=
      representable_mul_unitsPerOne (whole_lt_of_mod_ne_zero hm.1 haway.2)
    have hb : (s && m % unitsPerOne != 0) = true := by simpa using haway
    refine ⟨_, hrep, ?_, by rw [if_pos haway]⟩
    simp only [floor, hb, if_true, ofRatio_of_representable _ hrep]
  · have hb : (s && m % unitsPerOne != 0) = false := by simpa using haway
    refine ⟨_, representable_floor hm, ?_, by rw [if_neg haway, Nat.add_zero]⟩
    simp only [floor, hb, if_false, Bool.false_eq_true,
      ofRatio_of_representable _ (representable_floor hm)]

/-- The floor of a finite double : whole units, and less than one unit below it. -/
theorem floor_spec {v : Binary64} (hf : v.isFinite = true) :
    v.floor.isFinite = true ∧ ∃ k : ℤ, v.floor.position = k * unitsPerOne ∧
      k * unitsPerOne ≤ v.position ∧ v.position < (k + 1) * unitsPerOne := by
  cases v with
  | finite s m hm =>
    obtain ⟨n, hn, he, hval⟩ := floor_finite s hm
    have hdiv := Nat.div_add_mod' m unitsPerOne
    have hlt := Nat.mod_lt m unitsPerOne_pos
    rw [he]
    generalize unitsPerOne = u at *
    generalize m / u = q at *
    generalize m % u = r at *
    have hm' : (m : ℤ) = q * u + r := by exact_mod_cast hdiv.symm
    have hr : (r : ℤ) < u := by exact_mod_cast hlt
    have hr0 : 0 ≤ (r : ℤ) := Int.natCast_nonneg r
    refine ⟨rfl, if s then -(n : ℤ) else n, ?_⟩
    cases s with
    | false =>
      simp only [position, Bool.false_eq_true, false_and, if_false, Nat.add_zero, Nat.cast_mul]
        at hval ⊢
      rw [hval, hm']
      exact ⟨trivial, by linarith, by linarith⟩
    | true =>
      simp only [position, true_and, if_true, Nat.cast_mul] at hval ⊢
      rw [hm', neg_mul]
      by_cases h0 : r = 0
      · rw [if_neg (not_not.2 h0), Nat.add_zero] at hval
        rw [hval, h0]
        exact ⟨rfl, by simp, by linarith⟩
      · rw [if_pos h0] at hval
        have : 0 < (r : ℤ) := by omega
        rw [hval]
        push_cast
        exact ⟨rfl, by linarith, by linarith⟩
  | _ => simp [isFinite] at hf

theorem isWhole_floor {v : Binary64} (hv : v.isNaN = false) : v.floor.isWhole = true := by
  cases v with
  | nan => simp [isNaN] at hv
  | infinity s => rfl
  | finite s m hm =>
    obtain ⟨hf, k, hk, -, -⟩ := floor_spec (v := finite s m hm) rfl
    exact isWhole_of_isInteger ((isInteger_iff_dvd hf).2 ⟨k, by rw [hk, Int.mul_comm]⟩)

/-- The integers up to a double are those up to its floor. -/
theorem le_position_floor_iff (v : Binary64) (k : ℤ) :
    k * unitsPerOne ≤ v.floor.position ↔ k * unitsPerOne ≤ v.position := by
  cases v with
  | finite s m hm =>
    obtain ⟨-, j, hj, hle, hlt⟩ := floor_spec (v := finite s m hm) rfl
    have hunit : (0 : ℤ) < unitsPerOne := by exact_mod_cast unitsPerOne_pos
    rw [hj]
    refine ⟨fun h => h.trans hle, fun h => ?_⟩
    have : k < j + 1 := lt_of_mul_lt_mul_right (h.trans_lt hlt) hunit.le
    exact mul_le_mul_of_nonneg_right (by omega) hunit.le
  | _ => rfl

@[simp] theorem isNaN_floor (v : Binary64) : v.floor.isNaN = v.isNaN := by
  cases v with
  | finite s m hm =>
    obtain ⟨n, h, he, -⟩ := floor_finite s hm
    rw [he, isNaN_finite, isNaN_finite]
  | _ => rfl

@[simp] theorem isNaN_ceil (v : Binary64) : v.ceil.isNaN = v.isNaN := by
  rw [ceil, isNaN_neg, isNaN_floor, isNaN_neg]

theorem isWhole_neg (v : Binary64) : (-v).isWhole = v.isWhole := by
  cases v <;> rfl

theorem isWhole_ceil {v : Binary64} (hv : v.isNaN = false) : v.ceil.isWhole = true := by
  rw [ceil, isWhole_neg]
  exact isWhole_floor (by rwa [isNaN_neg])

/-- Integers and infinities are their own floors. -/
theorem floor_of_isWhole {v : Binary64} (hv : v.isWhole = true) : v.floor = v := by
  cases v with
  | nan => cases hv
  | infinity s => rfl
  | finite s m hm =>
    have hmod : m % unitsPerOne = 0 := of_decide_eq_true hv
    obtain ⟨n, h, he, hn⟩ := floor_finite s hm
    have hmul : n * unitsPerOne = m := by
      rw [hn, if_neg fun haway => haway.2 hmod, Nat.add_zero,
        Nat.div_mul_cancel (Nat.dvd_of_mod_eq_zero hmod)]
    simp only [he, hmul]

theorem ceil_of_isWhole {v : Binary64} (hv : v.isWhole = true) : v.ceil = v := by
  rw [ceil, floor_of_isWhole (by rwa [isWhole_neg]), neg_neg]

/-- The integers from a double on are those from its ceiling on. -/
theorem position_ceil_le_iff (v : Binary64) (k : ℤ) :
    v.ceil.position ≤ k * unitsPerOne ↔ v.position ≤ k * unitsPerOne := by
  have h := le_position_floor_iff (-v) (-k)
  rw [position_neg] at h
  rw [ceil, position_neg]
  constructor <;> intro h' <;> [have := h.1 (by linarith); have := h.2 (by linarith)] <;> linarith

/-! ## Sums of integers -/

/-- A rounded integer is whole : where bits are dropped, what is left is a multiple of a higher
power of two. -/
theorem isWhole_ofRatio (s : Bool) {n : ℕ} (h : unitsPerOne ∣ n) :
    (ofRatio s n 1).isWhole = true := by
  rcases ofRatio_eq s n 1 with ⟨hrep, -, he⟩ | ⟨-, he⟩
  · rw [he, isWhole, decide_eq_true_iff]
    refine Nat.mod_eq_zero_of_dvd ?_
    rw [rounded, Nat.one_mul]
    rcases Nat.le_total 1074 (excessBits n 1) with hle | hle
    · exact Dvd.dvd.mul_left (Nat.pow_dvd_pow 2 hle) _
    · have hgrid : 0 < 2 ^ excessBits n 1 := Nat.two_pow_pos _
      obtain ⟨q, hq⟩ : 2 ^ excessBits n 1 ∣ n := dvd_trans (Nat.pow_dvd_pow 2 hle) h
      generalize 2 ^ excessBits n 1 = grid at hq hgrid ⊢
      have hround : roundDiv n grid = q := by
        rw [hq, Nat.mul_comm]
        exact roundDiv_mul_left hgrid
      rwa [hround, Nat.mul_comm, ← hq]
  · rw [he]
    rfl

theorem isWhole_add {a b : Binary64} (ha : a.isInteger = true) (hb : b.isInteger = true) :
    (a + b).isWhole = true := by
  have hdvd : (unitsPerOne : ℤ) ∣ a.position + b.position :=
    Int.dvd_add ((isInteger_iff_dvd (isFinite_of_isInteger ha)).1 ha)
      ((isInteger_iff_dvd (isFinite_of_isInteger hb)).1 hb)
  cases a with
  | finite s m hm =>
    cases b with
    | finite t n hn =>
      change (add _ _).isWhole = true
      simp only [add]
      split
      · exact isWhole_ofRatio _ (Nat.dvd_zero _)
      · exact isWhole_ofRatio _ (Int.natCast_dvd.1 hdvd)
    | _ => simp [isInteger] at hb
  | _ => simp [isInteger] at ha

/-! ## Steps by one -/

theorem isInteger_one : one.isInteger = true := by
  decide +kernel

theorem isInteger_neg (v : Binary64) : (-v).isInteger = v.isInteger := by
  cases v <;> rfl

theorem position_one : one.position = unitsPerOne := rfl

theorem sub_eq_add_neg (a b : Binary64) : a - b = a + -b := rfl

theorem infinity_add_one (s : Bool) : infinity s + one = infinity s := rfl

theorem infinity_sub_one (s : Bool) : infinity s - one = infinity s := rfl

theorem isWhole_add_one {v : Binary64} (hv : v.isWhole = true) : (v + one).isWhole = true := by
  cases v with
  | nan => simp [isWhole] at hv
  | infinity s => rfl
  | finite s m hm => exact isWhole_add (isInteger_of_isWhole hv rfl) isInteger_one

theorem isWhole_sub_one {v : Binary64} (hv : v.isWhole = true) : (v - one).isWhole = true := by
  cases v with
  | nan => simp [isWhole] at hv
  | infinity s => rfl
  | finite s m hm =>
    exact isWhole_add (isInteger_of_isWhole hv rfl) ((isInteger_neg one).trans isInteger_one)

/-- A step up from a whole number does not pass a greater integer. -/
theorem position_add_one_le {v x : Binary64} (hv : v.isWhole = true) (hx : x.isInteger = true)
    (h : v.position < x.position) : (v + one).position ≤ x.position := by
  cases v with
  | nan => simp [isWhole] at hv
  | infinity s => rw [infinity_add_one]; exact h.le
  | finite s m hm =>
    obtain ⟨j, hj⟩ := position_of_isInteger (isInteger_of_isWhole hv rfl)
    obtain ⟨k, hk⟩ := position_of_isInteger hx
    have hunit : (0 : ℤ) < unitsPerOne := by exact_mod_cast unitsPerOne_pos
    rw [position_add rfl rfl]
    refine roundPosition_le ?_
    rw [hj, hk] at h ⊢
    have hjk : j < k := lt_of_mul_lt_mul_right h hunit.le
    calc j * (unitsPerOne : ℤ) + one.position = (j + 1) * unitsPerOne := by rw [position_one]; ring
      _ ≤ k * unitsPerOne := mul_le_mul_of_nonneg_right hjk hunit.le

/-- A step down from a whole number does not pass a lesser integer. -/
theorem le_position_sub_one {v x : Binary64} (hv : v.isWhole = true) (hx : x.isInteger = true)
    (h : x.position < v.position) : x.position ≤ (v - one).position := by
  cases v with
  | nan => simp [isWhole] at hv
  | infinity s => rw [infinity_sub_one]; exact h.le
  | finite s m hm =>
    obtain ⟨j, hj⟩ := position_of_isInteger (isInteger_of_isWhole hv rfl)
    obtain ⟨k, hk⟩ := position_of_isInteger hx
    have hunit : (0 : ℤ) < unitsPerOne := by exact_mod_cast unitsPerOne_pos
    rw [sub_eq_add_neg, position_add rfl rfl]
    refine le_roundPosition ?_
    rw [hj, hk] at h
    rw [hj, hk]
    have hjk : k < j := lt_of_mul_lt_mul_right h hunit.le
    calc k * (unitsPerOne : ℤ) ≤ (j - 1) * unitsPerOne :=
          mul_le_mul_of_nonneg_right (by omega) hunit.le
      _ = j * unitsPerOne + (-one).position := by rw [position_neg, position_one]; ring

/-- Rounding keeps integers up to `2^53`. -/
theorem roundPosition_of_natAbs_le {k : ℤ} (h : k.natAbs ≤ 2 ^ 53) :
    roundPosition (k * unitsPerOne) = k * unitsPerOne := by
  refine roundPosition_of_representable ?_
  rw [Int.natAbs_mul, Int.natAbs_natCast]
  exact representable_mul_unitsPerOne h

/-- A step up is exact below `2^53`. -/
theorem position_add_one {v : Binary64} (hf : v.isFinite = true) {k : ℤ}
    (hk : v.position = k * unitsPerOne) (h : (k + 1).natAbs ≤ 2 ^ 53) :
    (v + one).position = (k + 1) * unitsPerOne := by
  have hsum : k * (unitsPerOne : ℤ) + one.position = (k + 1) * unitsPerOne := by
    rw [position_one]
    ring
  rw [position_add hf rfl, hk, hsum, roundPosition_of_natAbs_le h]

/-- A step down is exact above `-2^53`. -/
theorem position_sub_one {v : Binary64} (hf : v.isFinite = true) {k : ℤ}
    (hk : v.position = k * unitsPerOne) (h : (k - 1).natAbs ≤ 2 ^ 53) :
    (v - one).position = (k - 1) * unitsPerOne := by
  have hsum : k * (unitsPerOne : ℤ) + (-one).position = (k - 1) * unitsPerOne := by
    rw [position_neg, position_one]
    ring
  rw [sub_eq_add_neg, position_add hf rfl, hk, hsum, roundPosition_of_natAbs_le h]

end FlowTypes.Binary64
