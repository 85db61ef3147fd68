import FlowTypes.Proofs.Ranges

/-!
# Arithmetic keeps the order

The operations on doubles round an exact result once, and rounding is monotone. So sums ascend in
both operands (`Binary64.add_le_add`), the product of two factors between bounds lies between
products of the bounds (`mul_between_corners`), and reciprocals descend on either side of zero
(`one_div_le_one_div`). Sums and products of integers are integers or infinite (`isWhole_add`,
`isWhole_mul`).

Signs of zeros show in quotients only : operands that are one number have one sum and one product
(`same_add`, `same_mul`).
-/

namespace FlowTypes.Binary64

/-! ## Order -/

protected theorem le_refl {v : Binary64} (hv : v.isNaN = false) : v ≤ v :=
  le_iff.2 ⟨hv, hv, le_refl _⟩

protected theorem le_trans {a b c : Binary64} (hab : a ≤ b) (hbc : b ≤ c) : a ≤ c :=
  le_iff.2 ⟨(le_iff.1 hab).1, (le_iff.1 hbc).2.1, (le_iff.1 hab).2.2.trans (le_iff.1 hbc).2.2⟩

protected theorem le_of_lt {v w : Binary64} (h : v < w) : v ≤ w :=
  le_iff.2 ⟨(lt_iff.1 h).1, (lt_iff.1 h).2.1, (lt_iff.1 h).2.2.le⟩

protected theorem le_of_not_lt {v w : Binary64} (hv : v.isNaN = false) (hw : w.isNaN = false)
    (h : ¬w < v) : v ≤ w :=
  le_iff.2 ⟨hv, hw, Int.not_lt.1 fun hlt => h (lt_iff.2 ⟨hw, hv, hlt⟩)⟩

protected theorem lt_of_le_of_lt {a b c : Binary64} (hab : a ≤ b) (hbc : b < c) : a < c :=
  lt_iff.2 ⟨(le_iff.1 hab).1, (lt_iff.1 hbc).2.1, (le_iff.1 hab).2.2.trans_lt (lt_iff.1 hbc).2.2⟩

protected theorem lt_of_lt_of_le {a b c : Binary64} (hab : a < b) (hbc : b ≤ c) : a < c :=
  lt_iff.2 ⟨(lt_iff.1 hab).1, (le_iff.1 hbc).2.1, (lt_iff.1 hab).2.2.trans_le (le_iff.1 hbc).2.2⟩

theorem negInf_le {v : Binary64} (hv : v.isNaN = false) : negInf ≤ v :=
  le_iff_value.2 ⟨rfl, hv, bot_le⟩

theorem le_posInf {v : Binary64} (hv : v.isNaN = false) : v ≤ posInf :=
  le_iff_value.2 ⟨hv, rfl, le_top⟩

theorem eq_negInf_of_le {v : Binary64} (h : v ≤ negInf) : v = negInf := by
  obtain ⟨hv, -, hle⟩ := le_iff_value.1 h
  exact (Range.value_eq_bot hv).1 (le_bot_iff.1 hle)

theorem eq_posInf_of_le {v : Binary64} (h : posInf ≤ v) : v = posInf := by
  obtain ⟨-, hv, hle⟩ := le_iff_value.1 h
  exact (Range.value_eq_top hv).1 (top_le_iff.1 hle)

/-- Between bounds of which none is the infinity on its side, there are only finite numbers. -/
theorem isFinite_of_between {a v b : Binary64} (ha : a ≤ v) (hb : v ≤ b) (hlo : a ≠ negInf)
    (hhi : b ≠ posInf) : v.isFinite = true := by
  cases v with
  | nan => cases (le_iff.1 hb).1
  | finite s m hm => rfl
  | infinity s =>
    cases s with
    | true => exact absurd (eq_negInf_of_le ha) hlo
    | false => exact absurd (eq_posInf_of_le hb) hhi

theorem eq_nan_of_isNaN {v : Binary64} (h : v.isNaN = true) : v = nan := by
  cases v with
  | nan => rfl
  | _ => cases h

theorem ne_infinity_of_isFinite {v : Binary64} (hv : v.isFinite = true) (s : Bool) :
    v ≠ infinity s := by
  rintro rfl
  cases hv

/-! ## One number, two zeros -/

theorem same_refl (v : Binary64) : v.same v = true :=
  same_iff.2 rfl

theorem same_trans {a b c : Binary64} (hab : a.same b = true) (hbc : b.same c = true) :
    a.same c = true :=
  same_iff.2 ((same_iff.1 hab).trans (same_iff.1 hbc))

theorem same_neg {v w : Binary64} (h : v.same w = true) : (-v).same (-w) = true := by
  obtain ⟨hn, hp⟩ := unsignedZero_eq_iff.1 (same_iff.1 h)
  refine same_iff.2 (unsignedZero_eq_iff.2 ⟨?_, ?_⟩)
  · rw [isNaN_neg, isNaN_neg, hn]
  · rw [position_neg, position_neg, hp]

theorem unsignedZero_cases (v : Binary64) : v.unsignedZero = v ∨ ∃ s h, v = finite s 0 h := by
  cases v with
  | finite s m hm =>
    rcases Nat.eq_zero_or_pos m with rfl | hpos
    · exact Or.inr ⟨s, hm, rfl⟩
    · exact Or.inl (if_neg hpos.ne')
  | _ => exact Or.inl rfl

/-- Two doubles that are one number are equal, or both are zeros. -/
theorem same_cases {v w : Binary64} (h : v.same w = true) :
    v = w ∨ (∃ s hs, v = finite s 0 hs) ∧ ∃ t ht, w = finite t 0 ht := by
  rw [same_iff] at h
  rcases unsignedZero_cases v with hv | ⟨s, hs, rfl⟩ <;>
    rcases unsignedZero_cases w with hw | ⟨t, ht, rfl⟩
  · exact Or.inl (by rw [← hv, h, hw])
  · exact Or.inr ⟨⟨false, _, hv.symm.trans h⟩, t, ht, rfl⟩
  · exact Or.inr ⟨⟨s, hs, rfl⟩, false, _, hw.symm.trans h.symm⟩
  · exact Or.inr ⟨⟨s, hs, rfl⟩, t, ht, rfl⟩

theorem le_of_same {v x : Binary64} (hv : v.isNaN = false) (h : v.same x = true) :
    v ≤ x ∧ x ≤ v := by
  obtain ⟨hn, hp⟩ := unsignedZero_eq_iff.1 (same_iff.1 h)
  exact ⟨le_iff.2 ⟨hv, hn ▸ hv, hp.le⟩, le_iff.2 ⟨hn ▸ hv, hv, hp.ge⟩⟩

theorem eq_of_same {v x : Binary64} (hv : v.isFinite = false) (h : v.same x = true) : v = x := by
  rcases same_cases h with heq | ⟨⟨s, hs, rfl⟩, -⟩
  · exact heq
  · simp [isFinite] at hv

theorem isFinite_of_same {v x : Binary64} (hv : v.isFinite = true) (h : v.same x = true) :
    x.isFinite = true := by
  rcases same_cases h with rfl | ⟨-, t, ht, rfl⟩
  · exact hv
  · rfl

theorem isInteger_of_same {v x : Binary64} (hv : v.isInteger = true) (h : v.same x = true) :
    x.isInteger = true := by
  rcases same_cases h with rfl | ⟨-, t, ht, rfl⟩
  · exact hv
  · simp [isInteger]

/-- Finite doubles at one position are one number. -/
theorem same_of_position {v w : Binary64} (hv : v.isNaN = false) (hw : w.isNaN = false)
    (h : v.position = w.position) : v.same w = true :=
  same_iff.2 (unsignedZero_eq_iff.2 ⟨hv.trans hw.symm, h⟩)

theorem position_zero (s : Bool) (h : Representable 0) : (finite s 0 h).position = 0 := by
  cases s <;> rfl

/-! ## Sums -/

/-- The position that a ratio with a sign is rounded to. -/
def roundQuotient (k : ℤ) (den : ℕ) : ℤ :=
  if k < 0 then -(ofRatio false k.natAbs den).position else (ofRatio false k.natAbs den).position

theorem roundQuotient_mono {den : ℕ} (hden : 0 < den) {k k' : ℤ} (h : k ≤ k') :
    roundQuotient k den ≤ roundQuotient k' den := by
  have hmono : ∀ {m n : ℕ}, m ≤ n →
      (ofRatio false m den).position ≤ (ofRatio false n den).position := fun hmn =>
    position_ofRatio_mono hden hden (Nat.mul_le_mul_right _ hmn)
  have hk := position_ofRatio_nonneg k.natAbs den
  have hk' := position_ofRatio_nonneg k'.natAbs den
  unfold roundQuotient
  split <;> split
  · have := @hmono k'.natAbs k.natAbs (by omega)
    omega
  · omega
  · omega
  · exact hmono (by omega)

theorem roundQuotient_zero (den : ℕ) : roundQuotient 0 den = 0 :=
  position_ofRatio_zero false den

/-- A sum with an infinity is that infinity, or none. -/
theorem infinity_add (s : Bool) {v : Binary64} (h : (infinity s + v).isNaN = false) :
    infinity s + v = infinity s := by
  cases v with
  | nan => cases h
  | infinity t =>
    change (if s = t then infinity s else nan).isNaN = false at h
    change (if s = t then infinity s else nan) = infinity s
    split at h
    · next hst => rw [if_pos hst]
    · cases h
  | finite t m hm => rfl

theorem add_infinity (s : Bool) {v : Binary64} (h : (v + infinity s).isNaN = false) :
    v + infinity s = infinity s := by
  rw [add_comm] at h ⊢
  exact infinity_add s h

/-- Sums ascend with both operands. -/
protected theorem add_le_add {a b c d : Binary64} (hac : a ≤ c) (hbd : b ≤ d)
    (h : (a + b).isNaN = false) (h' : (c + d).isNaN = false) : a + b ≤ c + d := by
  have hlow : a = negInf ∨ b = negInf → a + b ≤ c + d := by
    rintro (rfl | rfl)
    · rw [negInf, infinity_add true h]
      exact negInf_le h'
    · rw [negInf, add_infinity true h]
      exact negInf_le h'
  have hhigh : c = posInf ∨ d = posInf → a + b ≤ c + d := by
    rintro (rfl | rfl)
    · rw [posInf, infinity_add false h']
      exact le_posInf h
    · rw [posInf, add_infinity false h']
      exact le_posInf h
  by_cases hlo : a = negInf ∨ b = negInf
  · exact hlow hlo
  by_cases hhi : c = posInf ∨ d = posInf
  · exact hhigh hhi
  rw [not_or] at hlo hhi
  obtain ⟨han, hcn, hle⟩ := le_iff.1 hac
  obtain ⟨hbn, hdn, hle'⟩ := le_iff.1 hbd
  have ha := isFinite_of_between (Binary64.le_refl han) hac hlo.1 hhi.1
  have hb := isFinite_of_between (Binary64.le_refl hbn) hbd hlo.2 hhi.2
  have hc := isFinite_of_between hac (Binary64.le_refl hcn) hlo.1 hhi.1
  have hd := isFinite_of_between hbd (Binary64.le_refl hdn) hlo.2 hhi.2
  refine le_iff.2 ⟨h, h', ?_⟩
  rw [position_add ha hb, position_add hc hd]
  exact roundQuotient_mono Nat.one_pos (by omega)

/-- Two numbers without a sum are opposite infinities. -/
theorem opposite_of_isNaN_add {x y : Binary64} (hx : x.isNaN = false) (hy : y.isNaN = false)
    (h : (x + y).isNaN = true) : ∃ s, x = infinity s ∧ y = infinity !s := by
  cases x with
  | nan => cases hx
  | infinity s =>
    cases y with
    | nan => cases hy
    | infinity t =>
      change (if s = t then infinity s else nan).isNaN = true at h
      split at h
      · cases h
      · next hst => exact ⟨s, rfl, by rw [Bool.eq_not_of_ne (Ne.symm hst)]⟩
    | finite t n hn => cases h
  | finite s m hm =>
    cases y with
    | nan => cases hy
    | infinity t => cases h
    | finite t n hn => simp [isNaN_add (a := finite s m hm) (b := finite t n hn) rfl rfl] at h

/-- Two numbers have a sum if one infinity is neither of them. -/
theorem isNaN_add_of_ne {x y : Binary64} (hx : x.isNaN = false) (hy : y.isNaN = false) (s : Bool)
    (hxs : x ≠ infinity s) (hys : y ≠ infinity s) : (x + y).isNaN = false := by
  by_contra hnan
  obtain ⟨t, hxt, hyt⟩ := opposite_of_isNaN_add hx hy (Bool.of_not_eq_false hnan)
  rcases Bool.eq_or_eq_not t s with rfl | rfl
  · exact hxs hxt
  · exact hys (by rw [hyt, Bool.not_not])

theorem isNaN_add_of_isFinite {x y : Binary64} (hx : x.isFinite = true) (hy : y.isNaN = false) :
    (x + y).isNaN = false := by
  by_contra hnan
  obtain ⟨s, rfl, -⟩ :=
    opposite_of_isNaN_add (isNaN_of_isFinite hx) hy (Bool.of_not_eq_false hnan)
  cases hx

theorem same_add_left {v w : Binary64} (h : v.same w = true) (y : Binary64) :
    (v + y).same (w + y) = true := by
  rcases same_cases h with rfl | ⟨⟨s, hs, rfl⟩, t, ht, rfl⟩
  · exact same_refl _
  · cases y with
    | nan => exact same_refl nan
    | infinity u => exact same_refl (infinity u)
    | finite u n hn =>
      refine same_of_position (isNaN_add rfl rfl) (isNaN_add rfl rfl) ?_
      rw [position_add rfl rfl, position_add rfl rfl, position_zero, position_zero]

/-- Operands that are one number have one sum. -/
theorem same_add {v w x y : Binary64} (hx : v.same x = true) (hy : w.same y = true) :
    (v + w).same (x + y) = true := by
  refine same_trans (same_add_left hx w) ?_
  rw [add_comm x, add_comm x]
  exact same_add_left hy x

/-! ## Products -/

theorem nan_mul (v : Binary64) : nan * v = nan := by
  cases v <;> rfl

theorem position_mul {a b : Binary64} (ha : a.isFinite = true) (hb : b.isFinite = true) :
    (a * b).position = roundQuotient (a.position * b.position) unitsPerOne := by
  cases a with
  | finite s m hm =>
    cases b with
    | finite t n hn =>
      change (ofRatio (s != t) (m * n) unitsPerOne).position = _
      have hpos : (finite s m hm).position * (finite t n hn).position =
          if (s != t) = true then -((m * n : ℕ) : ℤ) else ((m * n : ℕ) : ℤ) := by
        cases s <;> cases t <;> simp [position]
      rw [hpos, roundQuotient]
      cases (s != t) with
      | true =>
        rcases Nat.eq_zero_or_pos (m * n) with h0 | h0
        · simp [h0, position_ofRatio_zero]
        · rw [if_pos rfl, if_pos (by omega), position_ofRatio_true, Int.natAbs_neg,
            Int.natAbs_natCast]
      | false =>
        rw [if_neg Bool.false_ne_true, if_neg (by omega), Int.natAbs_natCast]
    | _ => simp [isFinite] at hb
  | _ => simp [isFinite] at ha

theorem isNaN_mul {a b : Binary64} (ha : a.isFinite = true) (hb : b.isFinite = true) :
    (a * b).isNaN = false := by
  cases a with
  | finite s m hm =>
    cases b with
    | finite t n hn => exact isNaN_ofRatio _ _ _
    | _ => simp [isFinite] at hb
  | _ => simp [isFinite] at ha

theorem same_mul_left {v w : Binary64} (h : v.same w = true) (y : Binary64) :
    (v * y).same (w * y) = true := by
  rcases same_cases h with rfl | ⟨⟨s, hs, rfl⟩, t, ht, rfl⟩
  · exact same_refl _
  · cases y with
    | nan => exact same_refl nan
    | infinity u => exact same_refl nan
    | finite u n hn =>
      refine same_of_position (isNaN_mul rfl rfl) (isNaN_mul rfl rfl) ?_
      rw [position_mul rfl rfl, position_mul rfl rfl, position_zero, position_zero]

/-- Operands that are one number have one product. -/
theorem same_mul {v w x y : Binary64} (hx : v.same x = true) (hy : w.same y = true) :
    (v * w).same (x * y) = true := by
  refine same_trans (same_mul_left hx w) ?_
  rw [mul_comm x, mul_comm x]
  exact same_mul_left hy x

/-- Products by one finite factor keep or reverse the order, by its sign. -/
theorem mul_between_ends {lo hi x y : Binary64} (hlo : lo.isFinite = true)
    (hhi : hi.isFinite = true) (hy : y.isFinite = true) (h1 : lo ≤ x) (h2 : x ≤ hi) :
    (lo * y ≤ x * y ∧ x * y ≤ hi * y) ∨ hi * y ≤ x * y ∧ x * y ≤ lo * y := by
  have hx : x.isFinite = true :=
    isFinite_of_between h1 h2 (ne_infinity_of_isFinite hlo true)
      (ne_infinity_of_isFinite hhi false)
  have hle : ∀ {v w : Binary64}, v.isFinite = true → w.isFinite = true →
      v.position * y.position ≤ w.position * y.position → v * y ≤ w * y := by
    intro v w hv hw h
    refine le_iff.2 ⟨isNaN_mul hv hy, isNaN_mul hw hy, ?_⟩
    rw [position_mul hv hy, position_mul hw hy]
    exact roundQuotient_mono unitsPerOne_pos h
  have h1 := (le_iff.1 h1).2.2
  have h2 := (le_iff.1 h2).2.2
  rcases le_total 0 y.position with h | h
  · exact Or.inl ⟨hle hlo hx (mul_le_mul_of_nonneg_right h1 h),
      hle hx hhi (mul_le_mul_of_nonneg_right h2 h)⟩
  · exact Or.inr ⟨hle hhi hx (mul_le_mul_of_nonpos_right h2 h),
      hle hx hlo (mul_le_mul_of_nonpos_right h1 h)⟩

/-- A product lies between products of the bounds of its factors. -/
theorem mul_between_corners {lo hi lo' hi' x y : Binary64} (hlo : lo.isFinite = true)
    (hhi : hi.isFinite = true) (hlo' : lo'.isFinite = true) (hhi' : hi'.isFinite = true)
    (h1 : lo ≤ x) (h2 : x ≤ hi) (h1' : lo' ≤ y) (h2' : y ≤ hi') :
    (∃ c ∈ [lo * lo', lo * hi', hi * lo', hi * hi'], c ≤ x * y) ∧
      ∃ c ∈ [lo * lo', lo * hi', hi * lo', hi * hi'], x * y ≤ c := by
  have hy : y.isFinite = true :=
    isFinite_of_between h1' h2' (ne_infinity_of_isFinite hlo' true)
      (ne_infinity_of_isFinite hhi' false)
  have hend : ∀ {e : Binary64}, e.isFinite = true →
      (e * lo' ≤ e * y ∧ e * y ≤ e * hi') ∨ e * hi' ≤ e * y ∧ e * y ≤ e * lo' := by
    intro e he
    simpa only [mul_comm e] using mul_between_ends hlo' hhi' he h1' h2'
  rcases mul_between_ends hlo hhi hy h1 h2 with ⟨hbelow, habove⟩ | ⟨hbelow, habove⟩ <;>
    rcases hend hlo with ⟨h, h'⟩ | ⟨h, h'⟩ <;> rcases hend hhi with ⟨k, k'⟩ | ⟨k, k'⟩ <;>
    simp only [List.mem_cons, List.not_mem_nil, or_false, exists_eq_or_imp, exists_eq_left] <;>
    constructor <;> grind [Binary64.le_trans]

theorem isWhole_mul {a b : Binary64} (ha : a.isInteger = true) (hb : b.isInteger = true) :
    (a * b).isWhole = true := by
  cases a with
  | finite s m hm =>
    cases b with
    | finite t n hn =>
      simp only [isInteger, decide_eq_true_eq] at ha hb
      obtain ⟨k, hk⟩ : unitsPerOne ∣ m := Nat.dvd_of_mod_eq_zero ha
      have heq : ofRatio (s != t) (m * n) unitsPerOne = ofRatio (s != t) (k * n) 1 :=
        ofRatio_congr _ unitsPerOne_pos Nat.one_pos (by rw [hk]; ring)
      change (ofRatio (s != t) (m * n) unitsPerOne).isWhole = true
      rw [heq]
      exact isWhole_ofRatio _ (Dvd.dvd.mul_left (Nat.dvd_of_mod_eq_zero hb) k)
    | _ => cases hb
  | _ => cases ha

/-- No integer but zero is nearer to zero than one. -/
theorem position_one_le_natAbs {v : Binary64} (hv : v.isInteger = true) (h : v.position ≠ 0) :
    one.position ≤ v.position.natAbs := by
  have hdvd := (isInteger_iff_dvd (isFinite_of_isInteger hv)).1 hv
  rw [position_one]
  exact Int.ofNat_le.2 (Nat.le_of_dvd (Int.natAbs_pos.2 h) (Int.natCast_dvd.1 hdvd))

/-! ## Reciprocals -/

theorem exists_one_eq : ∃ h, one = finite false unitsPerOne h :=
  ⟨_, rfl⟩

theorem one_div_infinity (s : Bool) : one / infinity s = ofRatio s 0 1 := by
  obtain ⟨h, he⟩ := exists_one_eq
  change div one _ = _
  rw [he, div, Bool.false_bne]

theorem one_div_finite (s : Bool) {n : ℕ} (hn : Representable n) :
    one / finite s n hn =
      if n = 0 then infinity s else ofRatio s (unitsPerOne * unitsPerOne) n := by
  obtain ⟨h, he⟩ := exists_one_eq
  change div one _ = _
  rw [he, div, if_neg unitsPerOne_pos.ne', Bool.false_bne]

theorem one_div_neg (v : Binary64) : one / -v = -(one / v) := by
  cases v with
  | nan => rfl
  | infinity s => rw [neg_infinity, one_div_infinity, one_div_infinity, neg_ofRatio]
  | finite s n hn =>
    rw [neg_finite, one_div_finite, one_div_finite]
    split
    · rw [neg_infinity]
    · rw [neg_ofRatio]

theorem isNaN_one_div {v : Binary64} (hv : v.isNaN = false) : (one / v).isNaN = false := by
  cases v with
  | nan => cases hv
  | infinity s => rw [one_div_infinity, isNaN_ofRatio]
  | finite s n hn =>
    rw [one_div_finite]
    split
    · rfl
    · rw [isNaN_ofRatio]

theorem zero_le_one_div {v : Binary64} (hv : v.isNaN = false) (hs : v.isNegative = false) :
    0 ≤ (one / v).position := by
  cases v with
  | nan => cases hv
  | infinity s =>
    obtain rfl : s = false := hs
    rw [one_div_infinity]
    exact position_ofRatio_nonneg 0 1
  | finite s n hn =>
    obtain rfl : s = false := hs
    rw [one_div_finite]
    split
    · exact Int.natCast_nonneg _
    · exact position_ofRatio_nonneg _ n

/-- Reciprocals of positive numbers descend. A positive zero has positive infinity. -/
theorem one_div_le_of_positive {v w : Binary64} (hv : v.isNegative = false)
    (hw : w.isNegative = false) (h : v ≤ w) : one / w ≤ one / v := by
  obtain ⟨hvn, hwn, hle⟩ := le_iff.1 h
  have hwr := isNaN_one_div hwn
  cases v with
  | nan => cases hvn
  | infinity s =>
    obtain rfl : s = false := hv
    obtain rfl : w = infinity false :=
      (Range.value_eq_top hwn).1 (top_le_iff.1 (le_iff_value.1 h).2.2)
    exact Binary64.le_refl hwr
  | finite s m hm =>
    obtain rfl : s = false := hv
    rcases Nat.eq_zero_or_pos m with rfl | hm0
    · rw [one_div_finite, if_pos rfl]
      exact le_posInf hwr
    cases w with
    | nan => cases hwn
    | infinity t =>
      refine le_iff.2 ⟨hwr, isNaN_one_div hvn, ?_⟩
      rw [one_div_infinity, position_ofRatio_zero]
      exact zero_le_one_div (isNaN_finite _ _ _) rfl
    | finite t n hn =>
      obtain rfl : t = false := hw
      simp only [position, Bool.false_eq_true, if_false, Int.ofNat_le] at hle
      refine le_iff.2 ⟨hwr, isNaN_one_div hvn, ?_⟩
      rw [one_div_finite, one_div_finite, if_neg hm0.ne', if_neg (hm0.trans_le hle).ne']
      exact position_ofRatio_mono (hm0.trans_le hle) hm0 (Nat.mul_le_mul_left _ hle)

theorem exists_one_div_eq_infinity {v : Binary64} (hv : v.isNaN = false) (h : v.position = 0) :
    ∃ s, one / v = infinity s := by
  have hpos := infinityPosition_pos
  cases v with
  | nan => cases hv
  | infinity s =>
    cases s <;> simp only [position, if_true, Bool.false_eq_true, if_false] at h <;> omega
  | finite s m hm =>
    have hm0 : m = 0 := by
      cases s <;> simp only [position, if_true, Bool.false_eq_true, if_false] at h <;> omega
    exact ⟨s, by rw [one_div_finite, if_pos hm0]⟩

theorem isNegative_neg {v : Binary64} (hv : v.isNaN = false) : (-v).isNegative = !v.isNegative := by
  cases v with
  | nan => cases hv
  | _ => rfl

/-- Reciprocals descend on either side of zero. -/
theorem one_div_le_one_div {v w : Binary64} (hs : v.isNegative = w.isNegative) (h : v ≤ w) :
    one / w ≤ one / v := by
  cases hv : v.isNegative with
  | false => exact one_div_le_of_positive hv (hs ▸ hv) h
  | true =>
    obtain ⟨hvn, hwn, -⟩ := le_iff.1 h
    have hneg := one_div_le_of_positive
      (by rw [isNegative_neg hwn, ← hs, hv, Bool.not_true] : (-w).isNegative = false)
      (by rw [isNegative_neg hvn, hv, Bool.not_true] : (-v).isNegative = false)
      (neg_le_neg_iff.2 h)
    rw [one_div_neg, one_div_neg] at hneg
    exact neg_le_neg_iff.1 hneg

theorem isNegative_of_lt_zero {v : Binary64} (h : v < zero) : v.isNegative = true := by
  obtain ⟨hv, -, hlt⟩ := lt_iff.1 h
  cases v with
  | nan => cases hv
  | infinity s | finite s =>
    cases s with
    | true => rfl
    | false => exact absurd hlt (Int.not_lt.2 (Int.natCast_nonneg _))

theorem isNegative_of_zero_lt {v : Binary64} (h : zero < v) : v.isNegative = false := by
  obtain ⟨-, hv, hlt⟩ := lt_iff.1 h
  have hlt' : -v < zero :=
    lt_iff.2 ⟨by rwa [isNaN_neg], rfl, by rw [position_neg]; exact Int.neg_neg_of_pos hlt⟩
  have hneg := isNegative_of_lt_zero hlt'
  rwa [isNegative_neg hv, Bool.not_eq_true'] at hneg

end FlowTypes.Binary64
