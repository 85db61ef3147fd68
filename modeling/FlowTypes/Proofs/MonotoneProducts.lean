import FlowTypes.Proofs.MonotoneHulls
import FlowTypes.Proofs.UnionBound

/-!
# Products and reciprocals grow with their operands

The product of two sets is a range from the least to the greatest product of their ends. These are
products of numbers of any wider operands, so between the ends of the product of those
(`corners_between`, `denotesSome_multiplyOne_of_subset`).

The reciprocal of a set is made of the reciprocals of its numbers below zero and above, and both
parts grow with it : a set of integers stays further from zero than the wider one, or as far
(`Narrows`, `denotesSome_reciprocalOne_of_subset`). In unions of reciprocals no step by one passes
an integer : ranges of integers among them lie between minus one and one
(`between_of_integers_mem_reciprocalOne`), and so do the cuts.
-/

namespace FlowTypes.NumberSet

open ExtendedRat Binary64

variable {a b a' b' n n' : NumberSet} {p : Option ExtendedRat}
  {lo hi lo' hi' l u l' u' v x y : Binary64}

/-! ## Products -/

/-- A bound below some numbers is below the least of them. -/
theorem le_least {c : Binary64} (hc : c.isNaN = false) {vs : List Binary64}
    (h : ∀ v ∈ vs, c ≤ v) : c ≤ least vs := by
  refine List.foldlRecOn vs _ (le_posInf hc) fun m hm v hv => ?_
  split
  exacts [h v hv, hm]

/-- A bound above some numbers is above the greatest of them. -/
theorem greatest_le {c : Binary64} (hc : c.isNaN = false) {vs : List Binary64}
    (h : ∀ v ∈ vs, v ≤ c) : greatest vs ≤ c := by
  refine List.foldlRecOn (motive := fun m => m ≤ c) vs _ (negInf_le hc) fun m hm v hv => ?_
  split
  exacts [h v hv, hm]

/-- The products of the ends of two sets. -/
def corners (lo hi lo' hi' : Binary64) : List Binary64 :=
  [lo * lo', lo * hi', hi * lo', hi * hi']

theorem multiplyEnds_eq (a b : NumberSet) (lo hi lo' hi' : Binary64) :
    multiplyEnds a b lo hi lo' hi' = (hull (a.isIntegral && b.isIntegral)
      (least (corners lo hi lo' hi')) (greatest (corners lo hi lo' hi'))).toList := by
  unfold multiplyEnds hull
  split <;> simp [*, corners]

/-- Has the set finite ends? -/
structure HasFiniteEnds (n : NumberSet) (lo hi : Binary64) : Prop where
  ends : n.ends? = some (lo, hi)
  lo_finite : lo.isFinite = true
  hi_finite : hi.isFinite = true

theorem HasFiniteEnds.hasEnds (h : n.HasFiniteEnds lo hi) : n.HasEnds lo hi :=
  ⟨h.ends, isNaN_of_isFinite h.lo_finite, isNaN_of_isFinite h.hi_finite,
    ne_infinity_of_isFinite h.lo_finite false, ne_infinity_of_isFinite h.hi_finite true⟩

theorem HasFiniteEnds.has_lo (h : n.HasFiniteEnds lo hi) (hn : n.wellFormed = true) :
    n.has lo = true := by
  have hle := h.hasEnds.lo_le_hi hn
  have hrefl := Binary64.le_refl (isNaN_of_isFinite h.lo_finite)
  have he := h.ends
  cases n with
  | all => cases he
  | literal v => cases he; exact same_refl _
  | interval l u => cases he; exact has_interval.2 ⟨hrefl, hle⟩
  | integers l u =>
    cases he
    have hw := (whole_of_wellFormed_integers hn).1
    exact has_integers.2 ⟨isInteger_of_isWhole hw h.lo_finite, hrefl, hle⟩

/-- The products of two sets that are no pair of literals. -/
theorem multiplyOne_eq_ends (h : a.literal? = none ∨ b.literal? = none)
    (ha : a.HasFiniteEnds lo hi) (hb : b.HasFiniteEnds lo' hi') :
    multiplyOne a b =
      if a.isZero || b.isZero then [literal .zero] else multiplyEnds a b lo hi lo' hi' := by
  have hnan : ∀ {n : NumberSet} {l u : Binary64}, n.HasFiniteEnds l u → n ≠ literal .nan := by
    rintro n l u ⟨he, hl, -⟩ rfl
    cases he
    cases hl
  simp [multiplyOne_eq h, hnan ha, hnan hb, ha.ends, hb.ends, ha.lo_finite, ha.hi_finite,
    hb.lo_finite, hb.hi_finite]

theorem multiplyOne_eq_all (h : a.literal? = none ∨ b.literal? = none) (ha : a ≠ literal .nan)
    (hb : b ≠ literal .nan)
    (hends : ¬((∃ lo hi, a.HasFiniteEnds lo hi) ∧ ∃ lo hi, b.HasFiniteEnds lo hi)) :
    multiplyOne a b = [all] := by
  rw [multiplyOne_eq h, if_neg (by simp [ha, hb])]
  split
  · next lo hi lo' hi' hae hbe =>
    refine if_neg fun hfinite => hends ?_
    simp only [List.all_cons, List.all_nil, Bool.and_true, Bool.and_eq_true] at hfinite
    obtain ⟨hlo, hhi, hlo', hhi'⟩ := hfinite
    exact ⟨⟨lo, hi, hae, hlo, hhi⟩, lo', hi', hbe, hlo', hhi'⟩
  · rfl

/-- The products of ends lie between the least and the greatest product of ends further out. -/
theorem corners_between (ha : a.HasFiniteEnds l u) (hb : b.HasFiniteEnds l' u')
    (hlo : l ≤ lo) (hle : lo ≤ hi) (hhi : hi ≤ u) (hlo' : l' ≤ lo') (hle' : lo' ≤ hi')
    (hhi' : hi' ≤ u') : ∀ v ∈ corners lo hi lo' hi',
      least (corners l u l' u') ≤ v ∧ v ≤ greatest (corners l u l' u') := by
  have hnumber : ∀ v ∈ corners l u l' u', v.isNaN = false := by
    simp [corners, isNaN_mul, ha.lo_finite, ha.hi_finite, hb.lo_finite, hb.hi_finite]
  have hbetween : ∀ {x y : Binary64}, l ≤ x → x ≤ u → l' ≤ y → y ≤ u' →
      least (corners l u l' u') ≤ x * y ∧ x * y ≤ greatest (corners l u l' u') := by
    intro x y h1 h2 h1' h2'
    obtain ⟨⟨c, hc, hle⟩, d, hd, hle'⟩ := mul_between_corners ha.lo_finite ha.hi_finite
      hb.lo_finite hb.hi_finite h1 h2 h1' h2'
    exact ⟨Binary64.le_trans (least_le hnumber hc) hle,
      Binary64.le_trans hle' (le_greatest hnumber hd)⟩
  have hlou := Binary64.le_trans hle hhi
  have hlhi := Binary64.le_trans hlo hle
  have hlou' := Binary64.le_trans hle' hhi'
  have hlhi' := Binary64.le_trans hlo' hle'
  intro v hv
  simp only [corners, List.mem_cons, List.not_mem_nil, or_false] at hv
  rcases hv with rfl | rfl | rfl | rfl
  · exact hbetween hlo hlou hlo' hlou'
  · exact hbetween hlo hlou hlhi' hhi'
  · exact hbetween hlhi hhi hlo' hlou'
  · exact hbetween hlhi hhi hlhi' hhi'

/-- A part of zero is zero. -/
theorem isZero_of_subset (hsub : n.subset n' = true) (h : n'.isZero = true) : n.isZero = true := by
  cases n' with
  | literal w =>
    cases n with
    | literal v =>
      simp only [isZero, same, identity, decide_eq_true_eq, literal.injEq] at h ⊢
      rw [← h]
      exact (same_iff.1 hsub).symm
    | _ => simp [subset] at hsub
  | _ => simp [isZero, same, identity] at h

theorem ne_nan_of_subset (hsub : n.subset n' = true) (h : n ≠ literal .nan) :
    n' ≠ literal .nan := by
  rintro rfl
  cases n with
  | literal v => exact h (congrArg literal (eq_of_same rfl hsub).symm)
  | _ => simp [subset] at hsub

/-- A part of a set with finite ends has finite ends. -/
theorem exists_hasFiniteEnds_of_subset (hn : n.wellFormed = true) (hsub : n.subset n' = true)
    (h : n'.HasFiniteEnds lo' hi') : ∃ lo hi, n.HasFiniteEnds lo hi := by
  have hall : n ≠ all := by
    rintro rfl
    cases eq_all_of_subset hsub
    cases h.ends
  have hfinite : n.IsFiniteOrRange := by
    rintro v rfl
    have hv : n'.has v = true := by cases n' <;> exact hsub
    exact isFinite_of_ends h.ends h.lo_finite h.hi_finite hv
  obtain ⟨lo, hi, he⟩ := exists_hasEnds hn hall hfinite
  obtain ⟨h1, h2⟩ := he.of_subset h.hasEnds hsub
  have hle := he.lo_le_hi hn
  have hlo := ne_infinity_of_isFinite h.lo_finite true
  have hhi := ne_infinity_of_isFinite h.hi_finite false
  exact ⟨lo, hi, he.ends, isFinite_of_between h1 (Binary64.le_trans hle h2) hlo hhi,
    isFinite_of_between (Binary64.le_trans h1 hle) h2 hlo hhi⟩

section Wider

variable (ha : a.wellFormed = true) (hb : b.wellFormed = true) (ha' : a'.wellFormed = true)
  (hb' : b'.wellFormed = true) (hab : a.subset a' = true) (hbb : b.subset b' = true)
include ha hb ha' hb' hab hbb

/-- Wider sets have the products of the numbers of narrower ones. -/
theorem denotesSome_multiplyOne_of_has (hx : a.has x = true) (hy : b.has y = true)
    (h : ¬Overflows x y (x * y)) : DenotesSome (multiplyOne a' b') (x * y).exact := by
  rw [← hasSome_iff_denotesSome (allWellFormed_multiplyOne a' b')]
  exact hasSome_multiplyOne (has_of_subset ha ha' hab hx) (has_of_subset hb hb' hbb hy) h

/-- Wider ranges with finite ends have the products of narrower ones. -/
theorem denotesSome_multiplyOne_of_hasFiniteEnds (hliteral : a.literal? = none ∨ b.literal? = none)
    (hae : a'.HasFiniteEnds l u) (hbe : b'.HasFiniteEnds l' u')
    (h : DenotesSome (multiplyOne a b) p) : DenotesSome (multiplyOne a' b') p := by
  obtain ⟨lo, hi, hae₀⟩ := exists_hasFiniteEnds_of_subset ha hab hae
  obtain ⟨lo', hi', hbe₀⟩ := exists_hasFiniteEnds_of_subset hb hbb hbe
  rw [multiplyOne_eq_ends hliteral hae₀ hbe₀] at h
  split at h
  · next hzero =>
    have hsame :=
      zero_same_mul hae₀.lo_finite hbe₀.lo_finite (hae₀.has_lo ha) (hbe₀.has_lo hb) hzero
    rw [← denotesSome_singleton.1 h, same_iff_exact.1 hsame]
    refine denotesSome_multiplyOne_of_has ha hb ha' hb' hab hbb (hae₀.has_lo ha) (hbe₀.has_lo hb) ?_
    rintro ⟨-, -, hinf⟩
    have hfinite := isFinite_of_same rfl hsame
    rcases hinf with he | he <;> rw [he] at hfinite <;> cases hfinite
  · next hzero =>
    have hzero' : ¬(a'.isZero || b'.isZero) = true := by
      rw [Bool.or_eq_true] at hzero ⊢
      exact mt (Or.imp (isZero_of_subset hab) (isZero_of_subset hbb)) hzero
    have hparts := hliteral.imp (literal?_of_subset hab) (literal?_of_subset hbb)
    rw [multiplyOne_eq_ends hparts hae hbe, if_neg hzero', multiplyEnds_eq]
    rw [multiplyEnds_eq] at h
    obtain ⟨hlo, hhi⟩ := hae₀.hasEnds.of_subset hae.hasEnds hab
    obtain ⟨hlo', hhi'⟩ := hbe₀.hasEnds.of_subset hbe.hasEnds hbb
    have hbetween := corners_between hae hbe hlo (hae₀.hasEnds.lo_le_hi ha) hhi hlo'
      (hbe₀.hasEnds.lo_le_hi hb) hhi'
    have hfirst := hbetween (lo * lo') List.mem_cons_self
    refine denotesSome_hull_mono (fun hint => ?_) ?_ ?_ h
    · rw [Bool.and_eq_true] at hint ⊢
      exact ⟨isIntegral_of_subset hab hint.1, isIntegral_of_subset hbb hint.2⟩
    · exact le_least (le_iff.1 hfirst.1).1 fun v hv => (hbetween v hv).1
    · exact greatest_le (le_iff.1 hfirst.2).2.1 fun v hv => (hbetween v hv).2

/-- Wider sets have the products of narrower ones, unless two narrower literals overflow. -/
theorem denotesSome_multiplyOne_of_subset
    (hover : ∀ v w, a = literal v → b = literal w → ¬Overflows v w (v * w))
    (h : DenotesSome (multiplyOne a b) p) : DenotesSome (multiplyOne a' b') p := by
  by_cases hliteral : a.literal? = none ∨ b.literal? = none
  · by_cases hnan : a = literal .nan ∨ b = literal .nan
    · rw [multiplyOne_eq hliteral, if_pos (by simpa using hnan)] at h
      obtain ⟨x, hx⟩ := exists_has ha
      obtain ⟨y, hy⟩ := exists_has hb
      have hprod : x * y = nan := by
        rcases hnan with rfl | rfl
        · rw [← eq_of_same rfl hx, nan_mul]
        · rw [← eq_of_same rfl hy, Binary64.mul_comm, nan_mul]
      rw [← denotesSome_singleton.1 h, ← hprod]
      refine denotesSome_multiplyOne_of_has ha hb ha' hb' hab hbb hx hy ?_
      rintro ⟨-, -, hinf⟩
      rw [hprod] at hinf
      rcases hinf with he | he <;> cases he
    · rw [not_or] at hnan
      by_cases hends : (∃ lo hi, a'.HasFiniteEnds lo hi) ∧ ∃ lo hi, b'.HasFiniteEnds lo hi
      · obtain ⟨⟨l, u, hae⟩, l', u', hbe⟩ := hends
        exact denotesSome_multiplyOne_of_hasFiniteEnds ha hb ha' hb' hab hbb hliteral hae hbe h
      · rw [multiplyOne_eq_all (hliteral.imp (literal?_of_subset hab) (literal?_of_subset hbb))
          (ne_nan_of_subset hab hnan.1) (ne_nan_of_subset hbb hnan.2) hends]
        exact denotesSome_singleton.2 trivial
  · obtain ⟨⟨v, rfl⟩, w, rfl⟩ := exists_literals_of_not hliteral
    obtain rfl := denotesSome_singleton.1 h
    exact denotesSome_multiplyOne_of_has ha hb ha' hb' hab hbb (same_refl v) (same_refl w)
      (hover v w rfl rfl)

end Wider

/-! ## Reciprocals -/

/-- The ends of the numbers below zero. -/
def upperBelow (hi gap : Binary64) : Binary64 := if hi < .zero then hi else -gap

/-- The lower end of the numbers above zero. -/
def lowerAbove (lo gap : Binary64) : Binary64 := if .zero < lo then lo else gap

/-- The reciprocals of zero, of the numbers below and of the numbers above. -/
def reciprocalParts (lo hi gap : Binary64) : List NumberSet :=
  (if lo ≤ Binary64.zero && Binary64.zero ≤ hi then [literal .negInf, literal .posInf] else [])
    ++ (if lo < .zero then (interval? (.one / upperBelow hi gap) (.one / lo)).toList else [])
    ++ (if .zero < hi then (interval? (.one / hi) (.one / lowerAbove lo gap)).toList else [])

theorem integral?_of_mem_interval? (hn : n ∈ (interval? lo hi).toList) : n.integral? = none := by
  unfold interval? at hn
  split_ifs at hn <;> simp at hn <;> subst hn <;> rfl

/-- Reciprocals are no ranges of integers. -/
theorem integral?_of_mem_reciprocalParts {gap : Binary64} (hn : n ∈ reciprocalParts lo hi gap) :
    n.integral? = none := by
  simp only [reciprocalParts, List.mem_append] at hn
  rcases hn with (hn | hn) | hn <;> split at hn
  · simp only [List.mem_cons, List.not_mem_nil, or_false] at hn
    rcases hn with rfl | rfl <;> rfl
  · cases hn
  · exact integral?_of_mem_interval? hn
  · cases hn
  · exact integral?_of_mem_interval? hn
  · cases hn

theorem denotesSome_reciprocalBetween {gap : Binary64} (hp : Unpassed p) :
    DenotesSome (reciprocalBetween lo hi gap) p ↔ DenotesSome (reciprocalParts lo hi gap) p := by
  have hwf : AllWellFormed (reciprocalParts lo hi gap) := by simp [reciprocalParts]
  exact sameUnpassed_canonical hwf
    (cutsStop_of_no_integers fun _ => integral?_of_mem_reciprocalParts) p hp

/-- Bounds with a gap around zero, within wider bounds with a gap that is no wider. -/
structure Narrows (lo hi gap l u gap' : Binary64) : Prop where
  lo_le : l ≤ lo
  hi_le : hi ≤ u
  positive : gap.isNaN = false ∧ gap.isNegative = false
  positive' : gap'.isNaN = false ∧ gap'.isNegative = false
  below : hi < .zero → hi ≤ -gap'
  above : .zero < lo → gap' ≤ lo
  gap_le : lo < hi → gap' ≤ gap

section Narrows

variable {gap gap' : Binary64} (h : Narrows lo hi gap l u gap')
include h

theorem Narrows.upperBelow_le (hlt : lo < .zero) :
    upperBelow hi gap ≤ upperBelow u gap' ∧ (upperBelow hi gap).isNegative = true ∧
      (upperBelow u gap').isNegative = true := by
  obtain ⟨hgap, hgap'⟩ := And.intro h.positive h.positive'
  have hnegative : (-gap).isNegative = true := by rw [isNegative_neg hgap.1, hgap.2, Bool.not_false]
  have hnegative' : (-gap').isNegative = true := by
    rw [isNegative_neg hgap'.1, hgap'.2, Bool.not_false]
  unfold upperBelow
  split
  · next hhi =>
    split
    · next hu => exact ⟨h.hi_le, isNegative_of_lt_zero hhi, isNegative_of_lt_zero hu⟩
    · exact ⟨h.below hhi, isNegative_of_lt_zero hhi, hnegative'⟩
  · next hhi =>
    have hzero : Binary64.zero ≤ hi := Binary64.le_of_not_lt rfl (le_iff.1 h.hi_le).1 hhi
    rw [if_neg fun hu => hhi (Binary64.lt_of_le_of_lt h.hi_le hu)]
    exact ⟨neg_le_neg_iff.2 (h.gap_le (Binary64.lt_of_lt_of_le hlt hzero)), hnegative, hnegative'⟩

theorem Narrows.lowerAbove_le (hlt : .zero < hi) :
    lowerAbove l gap' ≤ lowerAbove lo gap ∧ (lowerAbove lo gap).isNegative = false ∧
      (lowerAbove l gap').isNegative = false := by
  obtain ⟨hgap, hgap'⟩ := And.intro h.positive.2 h.positive'.2
  unfold lowerAbove
  split
  · next hl =>
    have hlo : .zero < lo := Binary64.lt_of_lt_of_le hl h.lo_le
    rw [if_pos hlo]
    exact ⟨h.lo_le, isNegative_of_zero_lt hlo, isNegative_of_zero_lt hl⟩
  · split
    · next hlo => exact ⟨h.above hlo, isNegative_of_zero_lt hlo, hgap'⟩
    · next hlo =>
      have hzero : lo ≤ .zero := Binary64.le_of_not_lt (le_iff.1 h.lo_le).2.1 rfl hlo
      exact ⟨h.gap_le (Binary64.lt_of_le_of_lt hzero hlt), hgap, hgap'⟩

/-- Wider bounds have the reciprocals of narrower ones. -/
theorem Narrows.denotesSome (hp : DenotesSome (reciprocalParts lo hi gap) p) :
    DenotesSome (reciprocalParts l u gap') p := by
  simp only [reciprocalParts, denotesSome_append] at hp ⊢
  refine hp.imp (Or.imp (fun hp => ?_) fun hp => ?_) fun hp => ?_ <;> split at hp
  · next hzero =>
    simp only [Bool.and_eq_true, decide_eq_true_eq] at hzero
    have hzero' : (decide (l ≤ .zero) && decide (.zero ≤ u)) = true := by
      simp [Binary64.le_trans h.lo_le hzero.1, Binary64.le_trans hzero.2 h.hi_le]
    rwa [if_pos hzero']
  · obtain ⟨n, hn, -⟩ := hp
    cases hn
  · next hlo =>
    have hl := Binary64.lt_of_le_of_lt h.lo_le hlo
    obtain ⟨hle, hneg, hneg'⟩ := h.upperBelow_le hlo
    rw [if_pos hl]
    refine denotesSome_interval?_mono ?_ ?_ hp
    · exact one_div_le_one_div (hneg.trans hneg'.symm) hle
    · exact one_div_le_one_div ((isNegative_of_lt_zero hl).trans (isNegative_of_lt_zero hlo).symm)
        h.lo_le
  · obtain ⟨n, hn, -⟩ := hp
    cases hn
  · next hhi =>
    have hu := Binary64.lt_of_lt_of_le hhi h.hi_le
    obtain ⟨hle, hneg, hneg'⟩ := h.lowerAbove_le hhi
    rw [if_pos hu]
    refine denotesSome_interval?_mono ?_ ?_ hp
    · exact one_div_le_one_div ((isNegative_of_zero_lt hhi).trans (isNegative_of_zero_lt hu).symm)
        h.hi_le
    · exact one_div_le_one_div (hneg'.trans hneg.symm) hle
  · obtain ⟨n, hn, -⟩ := hp
    cases hn

end Narrows

/-- No integer lies strictly between zero and one. -/
theorem one_le_of_isInteger (hv : v.isInteger = true) (h : .zero < v) : Binary64.one ≤ v := by
  obtain ⟨-, hvn, hlt⟩ := lt_iff.1 h
  have hzero : Binary64.zero.position = 0 := rfl
  have := position_one_le_natAbs hv (by omega)
  exact le_iff.2 ⟨rfl, hvn, by omega⟩

theorem le_neg_one_of_isInteger (hv : v.isInteger = true) (h : v < .zero) :
    v ≤ -Binary64.one := by
  obtain ⟨hvn, -, hlt⟩ := lt_iff.1 h
  have hzero : Binary64.zero.position = 0 := rfl
  have := position_one_le_natAbs hv (by omega)
  exact le_iff.2 ⟨hvn, rfl, by rw [position_neg]; omega⟩

/-- Bounds and the gap around zero that a set has for its reciprocals. -/
def gap : NumberSet → Binary64
  | integers _ _ => .one
  | _ => .zero

theorem reciprocalOne_eq (he : n.ends? = some (lo, hi)) (hlo : lo.isNaN = false) :
    reciprocalOne n = reciprocalBetween lo hi n.gap := by
  cases n with
  | all => cases he
  | literal v =>
    cases he
    rw [reciprocalOne, if_neg (by simp [hlo])]
    rfl
  | _ => cases he; rfl

theorem isInteger_of_ends (hn : n.wellFormed = true) (h : n.isIntegral = true)
    (he : n.ends? = some (lo, hi)) :
    (.zero < lo → lo.isInteger = true) ∧ (hi < .zero → hi.isInteger = true) := by
  cases n with
  | all => cases h
  | literal v => cases he; exact ⟨fun _ => h, fun _ => h⟩
  | interval l u => cases h
  | integers l u =>
    cases he
    obtain ⟨hl, hu, hlt⟩ := whole_of_wellFormed_integers hn
    refine ⟨fun hpos => isInteger_of_isWhole hl ?_, fun hneg => isInteger_of_isWhole hu ?_⟩
    · refine isFinite_of_between (Binary64.le_of_lt hpos)
        (Binary64.le_refl (isNaN_of_isWhole hl)) nofun ?_
      rintro rfl
      exact not_top_lt hlt
    · refine isFinite_of_between (Binary64.le_refl (isNaN_of_isWhole hu))
        (Binary64.le_of_lt hneg) ?_ nofun
      rintro rfl
      exact not_lt_bot hlt

theorem narrows_of_subset (hn : n.wellFormed = true) (he : n.ends? = some (lo, hi))
    (he' : n'.ends? = some (l, u)) (hl : l.isNaN = false) (hsub : n.subset n' = true) :
    Narrows lo hi n.gap l u n'.gap := by
  obtain ⟨hlo_le, hhi_le⟩ := ends_of_subset he he' hl hsub
  have hgap : ∀ n : NumberSet, n.gap.isNaN = false ∧ n.gap.isNegative = false := by
    intro n
    cases n <;> exact ⟨rfl, rfl⟩
  refine ⟨hlo_le, hhi_le, hgap n, hgap n', fun hneg => ?_, fun hpos => ?_, fun hlt => ?_⟩
  · cases n' with
    | integers l' u' =>
      have hint := isIntegral_of_subset hsub rfl
      exact le_neg_one_of_isInteger ((isInteger_of_ends hn hint he).2 hneg) hneg
    | _ => exact Binary64.le_of_lt hneg
  · cases n' with
    | integers l' u' =>
      have hint := isIntegral_of_subset hsub rfl
      exact one_le_of_isInteger ((isInteger_of_ends hn hint he).1 hpos) hpos
    | _ => exact Binary64.le_of_lt hpos
  · cases n' with
    | integers l' u' =>
      cases n with
      | integers lo' hi' => exact Binary64.le_refl rfl
      | literal v =>
        cases he
        exact absurd (lt_iff.1 hlt).2.2 (lt_irrefl _)
      | _ => simp [subset] at hsub
    | _ => exact le_iff.2 ⟨rfl, (hgap n).1, by cases n <;> exact Int.natCast_nonneg _⟩

theorem exists_ends (hn : n.wellFormed = true) (hall : n ≠ all) (hnan : n ≠ literal .nan) :
    ∃ lo hi, n.ends? = some (lo, hi) ∧ lo.isNaN = false := by
  cases n with
  | all => exact absurd rfl hall
  | literal v => exact ⟨v, v, rfl, by cases v <;> first | rfl | exact absurd rfl hnan⟩
  | interval lo hi => exact ⟨lo, hi, rfl, (lt_of_wellFormed_interval hn).1⟩
  | integers lo hi => exact ⟨lo, hi, rfl, isNaN_of_isWhole (whole_of_wellFormed_integers hn).1⟩

/-- A wider set has the reciprocals of a narrower one. -/
theorem denotesSome_reciprocalOne_of_subset (hn : n.wellFormed = true) (hn' : n'.wellFormed = true)
    (hsub : n.subset n' = true) (hp : Unpassed p) (h : DenotesSome (reciprocalOne n) p) :
    DenotesSome (reciprocalOne n') p := by
  by_cases hall : n' = all
  · subst hall
    exact denotesSome_singleton.2 trivial
  have hall' : n ≠ all := by
    rintro rfl
    exact hall (eq_all_of_subset hsub)
  by_cases hnan : n = literal .nan
  · subst hnan
    have hx : n'.has .nan = true := by cases n' <;> exact hsub
    have hmem := hasSome_reciprocalOne hx
    rw [hasSome_iff_denotesSome (allWellFormed_reciprocalOne n')] at hmem
    rwa [← denotesSome_singleton.1 h]
  obtain ⟨lo, hi, he, hlo⟩ := exists_ends hn hall' hnan
  obtain ⟨l, u, he', hl⟩ := exists_ends hn' hall (ne_nan_of_subset hsub hnan)
  rw [reciprocalOne_eq he hlo, denotesSome_reciprocalBetween hp] at h
  rw [reciprocalOne_eq he' hl, denotesSome_reciprocalBetween hp]
  exact (narrows_of_subset hn he he' hl hsub).denotesSome h

/-! ## Runs of integers among reciprocals -/

/-- Without ranges of integers, the integers of a canonical form run from one literal to another. -/
theorem exists_literals_of_integers_mem_canonical {ns : List NumberSet}
    (hns : ∀ n ∈ ns, n.integral? = none) (h : integers lo hi ∈ canonical ns) :
    ∃ v w, literal v ∈ ns ∧ literal w ∈ ns ∧ v.isInteger = true ∧ w.isInteger = true ∧
      lo = v.unsignedZero ∧ hi = w.unsignedZero := by
  have hnil := List.filterMap_eq_nil_iff.2 hns
  have hpiece : ∀ r ∈ pieces (realRanges ns) (ns.filterMap integral?) (ns.filterMap literal?),
      ∃ v, literal v ∈ ns ∧ v.isInteger = true ∧ r = ⟨v.unsignedZero, v.unsignedZero⟩ := by
    intro r hr
    rcases mem_pieces.1 hr with ⟨s, hs, -⟩ | ⟨v, hv, hvi, rfl⟩
    · rw [hnil] at hs
      cases hs
    · exact ⟨v, mem_filterMap_literal?.1 (List.mem_of_mem_filter hv), hvi, rfl⟩
  match ns, h with
  | [n], h => cases List.mem_singleton.1 h ▸ hns n (List.mem_singleton_self n)
  | a :: b :: rest, h =>
    rw [canonical_eq_joined (by simp), joined] at h
    split at h
    · cases List.mem_singleton.1 h
    rcases cases_of_mem_assemble h with ⟨r, hr, he⟩ | ⟨r, -, he⟩ | ⟨v, -, -, he⟩
    · obtain ⟨⟨s, hs, hlo⟩, t, ht, hhi⟩ := Range.bounds_of_mem_merge r hr
      obtain ⟨v, hv, hvi, rfl⟩ := hpiece s hs
      obtain ⟨w, hw, hwi, rfl⟩ := hpiece t ht
      unfold ofRun at he
      split at he
      · cases he
      · obtain ⟨rfl, rfl⟩ := integers.inj he
        exact ⟨v, w, hv, hw, hvi, hwi, by rw [hlo, unsignedZero_unsignedZero],
          by rw [hhi, unsignedZero_unsignedZero]⟩
    · cases he
    · cases he

theorem literal_mem_interval? (h : literal v ∈ (interval? lo hi).toList) :
    v = lo ∧ lo ≤ hi ∧ hi ≤ lo := by
  unfold interval? at h
  split_ifs at h with hle hle'
  · cases List.mem_singleton.1 h
    exact ⟨rfl, hle, hle'⟩
  · cases List.mem_singleton.1 h
  · cases h

/-- The integers among the reciprocals are those next to the gap, or of one number only. -/
theorem cases_of_literal_mem_reciprocalParts {gap : Binary64}
    (h : literal v ∈ reciprocalParts lo hi gap) (hv : v.isInteger = true) :
    (lo < .zero ∧ v = .one / upperBelow hi gap) ∨
      (.zero < hi ∧ v = .one / hi ∧ v ≤ .one / lowerAbove lo gap ∧
        .one / lowerAbove lo gap ≤ v) := by
  simp only [reciprocalParts, List.mem_append] at h
  rcases h with (h | h) | h <;> split at h
  · simp only [List.mem_cons, literal.injEq, List.not_mem_nil, or_false] at h
    rcases h with rfl | rfl <;> cases hv
  · cases h
  · next hlo => exact Or.inl ⟨hlo, (literal_mem_interval? h).1⟩
  · cases h
  · next hhi =>
    obtain ⟨rfl, hle, hle'⟩ := literal_mem_interval? h
    exact Or.inr ⟨hhi, rfl, hle, hle'⟩
  · cases h

/-- Between numbers of both signs, the integers among the reciprocals are one and minus one. -/
theorem within_of_literal_mem_reciprocalParts (hlo : lo < .zero) (hhi : .zero < hi)
    (h : literal v ∈ reciprocalParts lo hi n.gap) (hv : v.isInteger = true) :
    v.within 1 = true := by
  have hupper : upperBelow hi n.gap = -n.gap := if_neg fun h => by
    exact absurd (lt_iff.1 (Binary64.lt_of_lt_of_le h (Binary64.le_of_lt hhi))).2.2 (lt_irrefl _)
  have hlower : lowerAbove lo n.gap = n.gap := if_neg fun h => by
    exact absurd (lt_iff.1 (Binary64.lt_of_lt_of_le h (Binary64.le_of_lt hlo))).2.2 (lt_irrefl _)
  have hgap : n.gap = .zero ∨ n.gap = .one := by cases n <;> simp [gap]
  have hcases := cases_of_literal_mem_reciprocalParts h hv
  rw [hupper, hlower] at hcases
  rcases hgap with he | he <;> rw [he] at hcases
  · rcases hcases with ⟨-, hv'⟩ | ⟨-, -, -, hle⟩
    · have hnot : (Binary64.one / -Binary64.zero).isInteger = false := by decide +kernel
      rw [hv', hnot] at hv
      cases hv
    · have hinf : Binary64.one / Binary64.zero = posInf := by decide +kernel
      rw [hinf] at hle
      obtain rfl := eq_posInf_of_le hle
      cases hv
  · rcases hcases with ⟨-, hv'⟩ | ⟨-, -, hle, hle'⟩
    · have hwithin : (Binary64.one / -Binary64.one).within 1 = true := by decide +kernel
      rw [hv', hwithin]
    · have hone : Binary64.one / Binary64.one = .one := by decide +kernel
      rw [hone] at hle hle'
      have hvalue := le_antisymm (le_iff_value.1 hle).2.2 (le_iff_value.1 hle').2.2
      have hwithin : Binary64.one.within 1 = true := by decide +kernel
      exact within_iff.2 fun _ => hvalue ▸ within_iff.1 hwithin rfl

/-- Among reciprocals, a range of integers is that from minus one to one. -/
theorem between_of_integers_mem_reciprocalOne (hn : n.wellFormed = true)
    (h : integers l u ∈ reciprocalOne n) : int (-1) ≤ l.value ∧ u.value ≤ int 1 := by
  by_cases hall : n = all
  · subst hall
    cases List.mem_singleton.1 h
  by_cases hnan : n = literal .nan
  · subst hnan
    cases List.mem_singleton.1 h
  obtain ⟨lo, hi, he, hlo⟩ := exists_ends hn hall hnan
  have hlt := (whole_of_wellFormed_integers (allWellFormed_reciprocalOne n _ h)).2.2
  rw [reciprocalOne_eq he hlo] at h
  have hparts : ∀ m ∈ reciprocalParts lo hi n.gap, m.integral? = none :=
    fun _ => integral?_of_mem_reciprocalParts
  obtain ⟨v, w, hv, hw, hvi, hwi, rfl, rfl⟩ := exists_literals_of_integers_mem_canonical hparts h
  -- Two literals are of both signs, since the numbers of one sign have an interval.
  have hsigns : lo < .zero ∧ .zero < hi := by
    rcases cases_of_literal_mem_reciprocalParts hv hvi with ⟨hlo, rfl⟩ | ⟨hhi, rfl, -⟩ <;>
      rcases cases_of_literal_mem_reciprocalParts hw hwi with ⟨hlo', rfl⟩ | ⟨hhi', rfl, -⟩
    · exact absurd hlt (lt_irrefl _)
    · exact ⟨hlo, hhi'⟩
    · exact ⟨hlo', hhi⟩
    · exact absurd hlt (lt_irrefl _)
  have hwithin := within_of_literal_mem_reciprocalParts hsigns.1 hsigns.2 hv hvi
  have hwithin' := within_of_literal_mem_reciprocalParts hsigns.1 hsigns.2 hw hwi
  rw [value_unsignedZero, value_unsignedZero]
  exact ⟨(within_iff.1 hwithin (isFinite_of_isInteger hvi)).1,
    (within_iff.1 hwithin' (isFinite_of_isInteger hwi)).2⟩

/-- The steps to cuts in the reciprocals pass nothing, since there are no cuts beyond one. -/
theorem cutsStop_flatMap_reciprocalOne {ns : List NumberSet} (hns : AllWellFormed ns) :
    CutsStop (ns.flatMap reciprocalOne) := by
  have hwf : AllWellFormed (ns.flatMap reciprocalOne) :=
    allWellFormed_flatMap fun n _ => allWellFormed_reciprocalOne n
  intro z hz s hs r hr _ hlt hle hzr
  obtain ⟨n, hn, hs⟩ := List.mem_flatMap.1 (mem_filterMap_integral?.1 hs)
  obtain ⟨hl, hu⟩ := between_of_integers_mem_reciprocalOne (hns n hn) hs
  have hwhole := ((parts_of_wellFormed hwf).reals_ordered r hr).isWhole_first
  have hwithin : r.first.within 1 = true :=
    within_iff.2 fun _ => ⟨(hl.trans_lt hlt).le, hle.trans hu⟩
  exact int_le_value_sub_one_of_stepsBack hwhole
    (Binary64.stepsBack_of_within hwhole (within_mono (by norm_num) hwithin)) hz hzr

end FlowTypes.NumberSet
