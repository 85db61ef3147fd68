import FlowTypes.Proofs.Extended

/-!
# Exact steps by one

Doubles step by one without rounding as long as they are integers of at most 53 bits.
`Binary64.within bound` says of a double that it is at most `bound` in magnitude, or not finite.
Within `2^53 - 1` a step up is at most an integer exactly if the double is less than it
(`value_add_one_le_int`), and likewise downwards (`int_le_value_sub_one`). So a step neither
passes an integer (`soundStep_of_within`) nor stays where it is.
-/

namespace FlowTypes

open ExtendedRat

namespace Binary64

/-- At most `bound` in magnitude, or not finite. -/
def within (bound : ℕ) (v : Binary64) : Bool :=
  !v.isFinite || v.position.natAbs ≤ bound * unitsPerOne

theorem within_iff {bound : ℕ} {v : Binary64} :
    v.within bound = true ↔
      (v.isFinite = true → int (-bound) ≤ v.value ∧ v.value ≤ int bound) := by
  cases hf : v.isFinite with
  | false => simp [within, hf]
  | true =>
    rw [int_le_value hf, value_le_int hf]
    simp only [within, hf, Bool.not_true, Bool.false_or, decide_eq_true_eq, true_imp_iff, neg_mul]
    generalize unitsPerOne = u
    zify
    exact abs_le

theorem within_mono {bound bound' : ℕ} (h : bound ≤ bound') {v : Binary64}
    (hv : v.within bound = true) : v.within bound' = true := by
  rw [within_iff] at hv ⊢
  intro hf
  obtain ⟨h1, h2⟩ := hv hf
  have hcast : (bound : ℤ) ≤ bound' := by exact_mod_cast h
  exact ⟨(int_le_int.2 (by omega)).trans h1, h2.trans (int_le_int.2 hcast)⟩

theorem isFinite_unsignedZero (v : Binary64) : v.unsignedZero.isFinite = v.isFinite := by
  cases v with
  | finite s m hm =>
    rw [unsignedZero]
    split <;> rfl
  | _ => rfl

theorem within_unsignedZero (bound : ℕ) (v : Binary64) :
    v.unsignedZero.within bound = v.within bound := by
  simp only [within, isFinite_unsignedZero, position_unsignedZero]

theorem isInteger_unsignedZero (v : Binary64) : v.unsignedZero.isInteger = v.isInteger := by
  rw [Bool.eq_iff_iff, isInteger_iff_value, isInteger_iff_value, isFinite_unsignedZero,
    value_unsignedZero]

/-! ## Whole doubles as integers -/

/-- The integers of at most 53 bits are doubles. -/
theorem exists_value_eq_int {k : ℤ} (hk : k.natAbs ≤ 2 ^ 53) :
    ∃ x : Binary64, x.isInteger = true ∧ x.value = int k := by
  refine ⟨finite (decide (k < 0)) _ (representable_mul_unitsPerOne hk), ?_, ?_⟩
  · simp only [isInteger, Nat.mul_mod_left, decide_true]
  · rw [value_eq_int rfl, position]
    push_cast
    split
    · next h =>
      rw [abs_of_neg (by simpa using h)]
      ring
    · next h => rw [abs_of_nonneg (by simpa using h)]

/-- A whole double is an infinity or an integer. -/
theorem value_of_isWhole {v : Binary64} (hv : v.isWhole = true) :
    v = .negInf ∨ v = .posInf ∨ v.isFinite = true ∧ ∃ k, v.value = int k := by
  cases v with
  | nan => simp [isWhole] at hv
  | infinity s => cases s <;> simp [negInf, posInf]
  | finite s m hm =>
    exact Or.inr (Or.inr (isInteger_iff_value.1 (isInteger_of_isWhole hv rfl)))

theorem natAbs_le_of_within {bound : ℕ} {v : Binary64} (hv : v.within bound = true) {k : ℤ}
    (hf : v.isFinite = true) (hk : v.value = int k) : k.natAbs ≤ bound := by
  obtain ⟨h1, h2⟩ := within_iff.1 hv hf
  rw [hk] at h1 h2
  have := int_le_int.1 h1
  have := int_le_int.1 h2
  omega

theorem within_of_value {bound : ℕ} {v : Binary64} {k : ℤ} (hk : v.value = int k)
    (h : k.natAbs ≤ bound) : v.within bound = true := by
  rw [within_iff, hk]
  exact fun _ => ⟨int_le_int.2 (by omega), int_le_int.2 (by omega)⟩

/-! ## Steps -/

/-- A step up from an integer below `2^53` is the next integer. -/
theorem value_add_one {v : Binary64} (hf : v.isFinite = true) {k : ℤ} (hk : v.value = int k)
    (h : (k + 1).natAbs ≤ 2 ^ 53) : (v + one).value = int (k + 1) := by
  obtain ⟨x, hx, hxk⟩ := exists_value_eq_int h
  have hxf := isFinite_of_isInteger hx
  rw [← hxk, value_eq_value (isNaN_add hf rfl) (isNaN_of_isFinite hxf),
    (value_eq_int hxf _).1 hxk, position_add_one hf ((value_eq_int hf k).1 hk) h]

/-- A step down from an integer above `-2^53` is the integer before. -/
theorem value_sub_one {v : Binary64} (hf : v.isFinite = true) {k : ℤ} (hk : v.value = int k)
    (h : (k - 1).natAbs ≤ 2 ^ 53) : (v - one).value = int (k - 1) := by
  obtain ⟨x, hx, hxk⟩ := exists_value_eq_int h
  have hxf := isFinite_of_isInteger hx
  have hn : (v - one).isNaN = false := isNaN_add (b := -one) hf rfl
  rw [← hxk, value_eq_value hn (isNaN_of_isFinite hxf),
    (value_eq_int hxf _).1 hxk, position_sub_one hf ((value_eq_int hf k).1 hk) h]

theorem value_add_one_le_int {v : Binary64} (hv : v.isWhole = true)
    (hb : v.within (2 ^ 53 - 1) = true) (z : ℤ) :
    (v + one).value ≤ int z ↔ v.value < int z := by
  rcases value_of_isWhole hv with rfl | rfl | ⟨hf, k, hk⟩
  · exact iff_of_true bot_le (bot_lt_rat _)
  · exact iff_of_false (not_le.2 (rat_lt_top _)) not_top_lt
  · have := natAbs_le_of_within hb hf hk
    rw [value_add_one hf hk (by omega), hk, int_le_int, int_lt_int, Int.add_one_le_iff]

theorem int_le_value_sub_one {v : Binary64} (hv : v.isWhole = true)
    (hb : v.within (2 ^ 53 - 1) = true) (z : ℤ) :
    int z ≤ (v - one).value ↔ int z < v.value := by
  rcases value_of_isWhole hv with rfl | rfl | ⟨hf, k, hk⟩
  · exact iff_of_false (not_le.2 (bot_lt_rat _)) not_lt_bot
  · exact iff_of_true le_top (rat_lt_top _)
  · have := natAbs_le_of_within hb hf hk
    rw [value_sub_one hf hk (by omega), hk, int_le_int, int_lt_int, Int.le_sub_one_iff]

theorem soundStep_of_within {v : Binary64} (hv : v.isWhole = true)
    (hb : v.within (2 ^ 53 - 1) = true) (z : ℤ) : SoundStep z v :=
  ⟨(value_add_one_le_int hv hb z).2, (int_le_value_sub_one hv hb z).2⟩

/-- A step up makes the bound greater by one. -/
theorem within_add_one {bound : ℕ} {v : Binary64} (hv : v.isWhole = true)
    (hb : v.within bound = true) (h : bound < 2 ^ 53) : (v + one).within (bound + 1) = true := by
  rcases value_of_isWhole hv with rfl | rfl | ⟨hf, k, hk⟩
  · rfl
  · rfl
  · have := natAbs_le_of_within hb hf hk
    exact within_of_value (value_add_one hf hk (by omega)) (by omega)

/-- A step down makes the bound greater by one. -/
theorem within_sub_one {bound : ℕ} {v : Binary64} (hv : v.isWhole = true)
    (hb : v.within bound = true) (h : bound < 2 ^ 53) : (v - one).within (bound + 1) = true := by
  rcases value_of_isWhole hv with rfl | rfl | ⟨hf, k, hk⟩
  · rfl
  · rfl
  · have := natAbs_le_of_within hb hf hk
    exact within_of_value (value_sub_one hf hk (by omega)) (by omega)

/-- Within 53 bits a step up leads up. -/
theorem lt_add_one_of_within {v : Binary64} (hv : v.isInteger = true)
    (hb : v.within (2 ^ 53 - 1) = true) : v < v + one := by
  have hf := isFinite_of_isInteger hv
  obtain ⟨-, k, hk⟩ := isInteger_iff_value.1 hv
  have := natAbs_le_of_within hb hf hk
  refine lt_iff_value.2 ⟨isNaN_of_isFinite hf, isNaN_add hf rfl, ?_⟩
  rw [value_add_one hf hk (by omega), hk, int_lt_int]
  omega

/-- Within 53 bits a step down leads down. -/
theorem sub_one_lt_of_within {v : Binary64} (hv : v.isInteger = true)
    (hb : v.within (2 ^ 53 - 1) = true) : v - one < v := by
  have hf := isFinite_of_isInteger hv
  obtain ⟨-, k, hk⟩ := isInteger_iff_value.1 hv
  have := natAbs_le_of_within hb hf hk
  refine lt_iff_value.2 ⟨isNaN_add (b := -one) hf rfl, isNaN_of_isFinite hf, ?_⟩
  rw [value_sub_one hf hk (by omega), hk, int_lt_int]
  omega

/-! ## Rounding to integers -/

theorem within_neg (bound : ℕ) (v : Binary64) : (-v).within bound = v.within bound := by
  have hf : (-v).isFinite = v.isFinite := by cases v <;> rfl
  rw [within, within, hf, position_neg, Int.natAbs_neg]

theorem isInteger_floor {v : Binary64} (hv : v.isFinite = true) : v.floor.isInteger = true := by
  obtain ⟨hf, k, hk, -⟩ := floor_spec hv
  exact isInteger_iff_value.2 ⟨hf, k, (value_eq_int hf k).2 hk⟩

theorem isInteger_ceil {v : Binary64} (hv : v.isFinite = true) : v.ceil.isInteger = true := by
  have hneg : ∀ w : Binary64, (-w).isInteger = w.isInteger := fun w => by cases w <;> rfl
  rw [ceil, hneg]
  exact isInteger_floor (by cases v <;> exact hv)

theorem value_floor_le (v : Binary64) : v.floor.value ≤ v.value := by
  cases v with
  | finite s m hm =>
    obtain ⟨hf, k, hk, hle, -⟩ := floor_spec (v := finite s m hm) rfl
    rw [value_le_value (isNaN_of_isFinite hf) rfl, hk]
    exact hle
  | _ => exact le_refl _

theorem within_floor {bound : ℕ} {v : Binary64} (hb : v.within bound = true) :
    v.floor.within bound = true := by
  cases v with
  | finite s m hm =>
    obtain ⟨h1, h2⟩ := within_iff.1 hb rfl
    rw [within_iff]
    exact fun _ => ⟨(int_le_value_floor _ _).2 h1, (value_floor_le _).trans h2⟩
  | _ => exact hb

theorem within_ceil {bound : ℕ} {v : Binary64} (hb : v.within bound = true) :
    v.ceil.within bound = true := by
  rw [ceil, within_neg]
  exact within_floor (by rwa [within_neg])

/-! ## The sign of zero -/

/-- A sum lands on no negative zero if a number other than zero is added. -/
theorem unsignedZero_add {v w : Binary64} (hw : w.position ≠ 0) :
    (v + w).unsignedZero = v + w := by
  cases v with
  | nan => rfl
  | infinity s =>
    cases w with
    | infinity t => cases s <;> cases t <;> rfl
    | _ => rfl
  | finite s m hm =>
    cases w with
    | finite t n hn =>
      change (add _ _).unsignedZero = add _ _
      have hpos : ∀ (t : Bool) {n : ℕ}, 0 < n → (ofRatio t n 1).unsignedZero = ofRatio t n 1 := by
        intro t n hn
        rcases ofRatio_eq t n 1 with ⟨h, -, he⟩ | ⟨-, he⟩
        · have hne : rounded n 1 ≠ 0 := by
            have hone : 1 ≤ rounded n 1 := le_rounded Nat.one_pos (m := 1) rfl (by omega)
            omega
          rw [he, unsignedZero, if_neg hne]
        · rw [he]
          rfl
      simp only [add]
      split
      · next h =>
        -- The sum is zero, so the signs differ.
        have hsign : (s && t) = false := by
          cases s <;> cases t <;>
            simp only [position, if_true, Bool.false_eq_true, if_false] at h hw <;>
            first | rfl | omega
        rw [hsign, ofRatio_of_representable false (⟨rfl, Nat.zero_le _⟩ : Representable 0)]
        rfl
      · next h => exact hpos _ (Int.natAbs_pos.2 h)
    | _ => rfl

/-- A step up lands on no negative zero. -/
theorem unsignedZero_add_one (v : Binary64) : (v + one).unsignedZero = v + one := by
  refine unsignedZero_add ?_
  have := unitsPerOne_pos
  rw [position_one]
  omega

/-- A step down lands on no negative zero. -/
theorem unsignedZero_sub_one (v : Binary64) : (v - one).unsignedZero = v - one := by
  refine unsignedZero_add ?_
  have := unitsPerOne_pos
  rw [position_neg, position_one]
  omega

theorem unsignedZero_of_not_isInteger {v : Binary64} (h : v.isInteger = false) :
    v.unsignedZero = v := by
  cases v with
  | finite s m hm =>
    have hm0 : m ≠ 0 := by
      rintro rfl
      simp [isInteger] at h
    rw [unsignedZero, if_neg hm0]
  | _ => rfl

/-- Without a sign on zero, doubles that stand for one point are equal. -/
theorem eq_of_exact_eq {v w : Binary64} (hv : v.unsignedZero = v) (hw : w.unsignedZero = w)
    (h : v.exact = w.exact) : v = w := by
  rw [← hv, ← hw]
  exact same_iff.1 (same_iff_exact.2 h)

theorem eq_of_value_eq {v w : Binary64} (hv : v.unsignedZero = v) (hw : w.unsignedZero = w)
    (hvn : v.isNaN = false) (hwn : w.isNaN = false) (h : v.value = w.value) : v = w :=
  eq_of_exact_eq hv hw (by rw [exact_eq_some.2 ⟨hvn, h⟩, exact_eq_some.2 ⟨hwn, rfl⟩])

end Binary64

end FlowTypes
