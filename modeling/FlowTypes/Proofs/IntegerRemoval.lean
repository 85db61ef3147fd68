import FlowTypes.Proofs.Difference
import FlowTypes.Proofs.ExactSteps

/-!
# What the removal of integers leaves

A range of integers less another set of numbers loses the integers between two ends
(`NumberSet.covered`), and the rest is cut off by a step of one from either end. Where a step is
lost to rounding, the end stays behind (`Range.stallsAt`), and no other double of both sets does
(`NumberSet.has_without_of_both`). So the removal is exact but for the ends that stall
(`Ty.has_integers_without`), which are all greater than 53 bits in magnitude
(`Range.not_stallsAt_of_within`).
-/

namespace FlowTypes

open ExtendedRat Binary64

variable {x : Binary64} {z : ℤ}

/-! ## Ends -/

namespace Range

/-- Is the double an end of the range from which the step by one out of the range leads nowhere? -/
def stallsAt (r : Range) (x : Binary64) : Bool :=
  (r.lo.same x && decide (r.lo ≤ r.lo - .one)) || (r.hi.same x && decide (r.hi + .one ≤ r.hi))

variable {first last : Binary64}

theorem le_sub_one_iff (hfirst : first.isWhole = true) (hx : x.exact = some (int z))
    (h : first.value ≤ int z) :
    int z ≤ (first - one).value ↔ first.same x = true ∧ first ≤ first - one := by
  have hn := isNaN_of_isWhole hfirst
  have hn' := isNaN_of_isWhole (isWhole_sub_one hfirst)
  rw [same_iff_exact, hx, exact_eq_some, le_iff_value]
  constructor
  · intro hle
    have heq := h.antisymm (hle.trans (value_sub_one_le hfirst))
    exact ⟨⟨hn, heq⟩, hn, hn', heq ▸ hle⟩
  · rintro ⟨⟨-, heq⟩, -, -, hle⟩
    exact heq ▸ hle

theorem add_one_le_iff (hlast : last.isWhole = true) (hx : x.exact = some (int z))
    (h : int z ≤ last.value) :
    (last + one).value ≤ int z ↔ last.same x = true ∧ last + one ≤ last := by
  have hn := isNaN_of_isWhole hlast
  have hn' := isNaN_of_isWhole (isWhole_add_one hlast)
  rw [same_iff_exact, hx, exact_eq_some, le_iff_value]
  constructor
  · intro hle
    have heq := ((le_value_add_one hlast).trans hle).antisymm h
    exact ⟨⟨hn, heq⟩, hn', hn, heq ▸ hle⟩
  · rintro ⟨⟨-, heq⟩, -, -, hle⟩
    exact heq ▸ hle

/-- Within 53 bits no step stalls. -/
theorem not_stallsAt_of_within {r : Range} (hz : x.exact = some (int z))
    (hb : x.within (2 ^ 53 - 1) = true) : r.stallsAt x = false := by
  obtain ⟨hxn, hxz⟩ := exact_eq_some.1 hz
  have hle := natAbs_le_of_within hb (isFinite_of_value_eq_int hxn hxz) hxz
  have hend : ∀ {v : Binary64}, v.same x = true →
      v.isInteger = true ∧ v.within (2 ^ 53 - 1) = true := by
    intro v hv
    obtain ⟨hn, hk⟩ := exact_eq_some.1 ((same_iff_exact.1 hv).trans hz)
    exact ⟨isInteger_iff_value.2 ⟨isFinite_of_value_eq_int hn hk, z, hk⟩, within_of_value hk hle⟩
  have hlo : r.lo.same x = true → ¬r.lo ≤ r.lo - one := fun h hstep =>
    absurd (le_iff_value.1 hstep).2.2
      (not_le.2 (lt_iff_value.1 (sub_one_lt_of_within (hend h).1 (hend h).2)).2.2)
  have hhi : r.hi.same x = true → ¬r.hi + one ≤ r.hi := fun h hstep =>
    absurd (le_iff_value.1 hstep).2.2
      (not_le.2 (lt_iff_value.1 (lt_add_one_of_within (hend h).1 (hend h).2)).2.2)
  simp only [stallsAt, Bool.or_eq_false_iff, Bool.and_eq_false_imp, decide_eq_false_iff_not]
  exact ⟨hlo, hhi⟩

end Range

namespace NumberSet

/-! ## The integers of a range -/

variable {lo hi : Binary64} {b : NumberSet}

theorem has_integers?_int (hlo : lo.isNaN = false) (hhi : hi.isNaN = false)
    (hz : x.exact = some (int z)) :
    (∃ n ∈ integers? lo hi, n.has x = true) ↔ lo.value ≤ int z ∧ int z ≤ hi.value := by
  rw [has_integers? hlo hhi, hz]
  constructor
  · rintro ⟨k, hk, h⟩
    rwa [Option.some.inj hk]
  · exact fun h => ⟨z, rfl, h⟩

/-- An integer among those to be removed stays where a step stalls. -/
theorem has_withoutIntegers_of_between {r : Range} (hlo : lo.isWhole = true)
    (hhi : hi.isWhole = true) (hfirst : r.lo.isWhole = true) (hlast : r.hi.isWhole = true)
    (hz : x.exact = some (int z)) (hlox : lo.value ≤ int z) (hxhi : int z ≤ hi.value)
    (hfirstx : r.lo.value ≤ int z) (hxlast : int z ≤ r.hi.value) :
    (∃ n ∈ withoutIntegers lo hi r.lo r.hi, n.has x = true) ↔ r.stallsAt x = true := by
  have hlon := isNaN_of_isWhole hlo
  have hhin := isNaN_of_isWhole hhi
  have hbefore := isNaN_of_isWhole (isWhole_sub_one hfirst)
  have hafter := isNaN_of_isWhole (isWhole_add_one hlast)
  have hmeet : ¬(r.hi < r.lo || r.hi < lo || hi < r.lo) = true := by
    simp only [Bool.or_eq_true, decide_eq_true_eq, not_or, lt_iff_value, not_and, not_lt]
    exact ⟨⟨fun _ _ => hfirstx.trans hxlast, fun _ _ => hlox.trans hxlast⟩,
      fun _ _ => hfirstx.trans hxhi⟩
  have hpieces : ∀ n ∈ (integers? lo (r.lo - one)).toList ++ (integers? (r.hi + one) hi).toList,
      n.wellFormed = true := by
    intro n hn
    rcases List.mem_append.1 hn with hn | hn
    exacts [wellFormed_integers? hlon hbefore (Option.mem_toList.1 hn),
      wellFormed_integers? hafter hhin (Option.mem_toList.1 hn)]
  rw [withoutIntegers, if_neg hmeet, has_canonical hpieces, exists_has_append,
    has_integers?_int hlon hbefore hz, has_integers?_int hafter hhin hz,
    Range.le_sub_one_iff hfirst hz hfirstx, Range.add_one_le_iff hlast hz hxlast]
  simp only [hlox, hxhi, true_and, and_true, Range.stallsAt, Bool.or_eq_true, Bool.and_eq_true,
    decide_eq_true_eq]

/-- The integers of a set of numbers are those between these ends. -/
def covered : NumberSet → Range
  | all => ⟨.negInf, .posInf⟩
  | literal v => ⟨v, v⟩
  | interval lo hi => ⟨lo.ceil, hi.floor⟩
  | integers lo hi => ⟨lo, hi⟩

/-- The ends are whole, and an integer of the set is between them. -/
theorem covered_of_has (hb : b.wellFormed = true) (hz : x.exact = some (int z))
    (hx : b.has x = true) :
    b.covered.lo.isWhole = true ∧ b.covered.hi.isWhole = true ∧
      b.covered.lo.value ≤ int z ∧ int z ≤ b.covered.hi.value := by
  rw [has_iff_denotes hb, hz] at hx
  cases b with
  | all => exact ⟨rfl, rfl, bot_le, le_top⟩
  | literal v =>
    obtain ⟨hn, hv⟩ := exact_eq_some.1 hx
    have hwhole : v.isWhole = true := isWhole_of_isInteger
      (isInteger_iff_value.2 ⟨isFinite_of_value_eq_int hn hv, z, hv⟩)
    exact ⟨hwhole, hwhole, hv.le, hv.ge⟩
  | interval lo' hi' =>
    obtain ⟨hlo', hhi', -⟩ := lt_of_wellFormed_interval hb
    exact ⟨isWhole_ceil hlo', isWhole_floor hhi',
      (Range.contains_int_iff ⟨lo', hi'⟩ z).1 (denotes_interval_some.1 hx)⟩
  | integers lo' hi' =>
    obtain ⟨hlo', hhi', -⟩ := whole_of_wellFormed_integers hb
    exact ⟨hlo', hhi', denotes_integers_int.1 hx⟩

/-- Another set that has a double of a range is removed from it by its ends. -/
theorem integers_without (ha : (integers lo hi).wellFormed = true)
    (hx : (integers lo hi).has x = true) (hbx : b.has x = true)
    (hsub : (integers lo hi).subset b = false) :
    (integers lo hi).without b = withoutIntegers lo hi b.covered.lo b.covered.hi := by
  unfold without
  rw [if_neg (Bool.eq_false_iff.1 hsub)]
  cases b with
  | all => cases hsub
  | literal v =>
    have hv : (integers lo hi).has v = true := by
      rwa [has_iff_denotes ha, same_iff_exact.1 hbx, ← has_iff_denotes ha]
    exact if_pos hv
  | _ => rfl

/-- Of the doubles of both sets, the difference has those at which a step stalls. -/
theorem has_without_of_both (ha : (integers lo hi).wellFormed = true) (hb : b.wellFormed = true)
    (hx : (integers lo hi).has x = true) (hbx : b.has x = true) :
    (∃ n ∈ (integers lo hi).without b, n.has x = true) ↔
      (integers lo hi).subset b = false ∧ b.covered.stallsAt x = true := by
  cases hsub : (integers lo hi).subset b with
  | true => simp [without, hsub]
  | false =>
    obtain ⟨hlo, hhi, -⟩ := whole_of_wellFormed_integers ha
    obtain ⟨z, hz, h1, h2⟩ := (has_iff_denotes ha x).1 hx
    obtain ⟨hfirst, hlast, h3, h4⟩ := covered_of_has hb hz hbx
    rw [integers_without ha hx hbx hsub,
      has_withoutIntegers_of_between hlo hhi hfirst hlast hz h1 h2 h3 h4, eq_self, true_and]

end NumberSet

/-! ## Types -/

namespace Ty

theorem has_without_ofShape_number {a b : NumberSet} :
    ((ofShape (.number a)).without (ofShape (.number b))).has (.number x) = true ↔
      ∃ n ∈ a.without b, n.has x = true := by
  simp [without, withoutShape, ofShape, Shape.without, has_oneOf, Shape.has]

variable {lo hi : Binary64} {b : NumberSet}

/-- The difference has the doubles of the range that the other set lacks, and those at which a
step stalls. Within 53 bits it is exact. -/
theorem has_integers_without (ha : (NumberSet.integers lo hi).wellFormed = true)
    (hb : b.wellFormed = true) (x : Binary64) :
    let a := NumberSet.integers lo hi
    let rest := (ofShape (.number a)).without (ofShape (.number b))
    (rest.has (.number x) = true ↔ a.has x = true ∧
      (b.has x = true → a.subset b = false ∧ b.covered.stallsAt x = true)) ∧
    (x.within (2 ^ 53 - 1) = true →
      (rest.has (.number x) = true ↔ a.has x = true ∧ b.has x = false)) := by
  intro a rest
  have hall : rest.has (.number x) = true ↔ a.has x = true ∧
      (b.has x = true → a.subset b = false ∧ b.covered.stallsAt x = true) := by
    obtain ⟨-, hkeeps, hwithin⟩ := NumberSet.brackets_without ha hb
    rw [has_without_ofShape_number]
    constructor
    · intro h
      have hx := hwithin x h
      exact ⟨hx, fun hbx => (NumberSet.has_without_of_both ha hb hx hbx).1 h⟩
    · rintro ⟨hx, hstall⟩
      cases hbx : b.has x with
      | true => exact (NumberSet.has_without_of_both ha hb hx hbx).2 (hstall hbx)
      | false => exact hkeeps x hx hbx
  refine ⟨hall, fun hbits => hall.trans (and_congr_right fun hx => ?_)⟩
  obtain ⟨z, hz, -⟩ := (NumberSet.has_iff_denotes ha x).1 hx
  simp [Range.not_stallsAt_of_within hz hbits]

/-- Without the numbers from a half to `2^53 + 4`, all integers keep the upper end, since the step
up from it is rounded back. They lose the lower end, which is one. -/
theorem has_integers_without_half :
    let a := NumberSet.integers .negInf .posInf
    let b := NumberSet.interval .half (.ofNat (2 ^ 53 + 4))
    let rest := (ofShape (.number a)).without (ofShape (.number b))
    rest.has (.number (.ofNat (2 ^ 53 + 4))) = true ∧ rest.has (.number .one) = false ∧
      rest.has (.number .zero) = true := by
  intro a b rest
  have ha : a.wellFormed = true := by decide +kernel
  have hb : b.wellFormed = true := by decide +kernel
  have hresult := has_integers_without ha hb
  refine ⟨(hresult _).1.2 ⟨by decide +kernel, fun _ => by decide +kernel⟩,
    Bool.eq_false_iff.2 fun h => ?_, ((hresult _).2 (by decide +kernel)).2 (by decide +kernel)⟩
  exact absurd (((hresult _).2 (by decide +kernel)).1 h).2 (by decide +kernel)

/-- A range of integers without `2^53` has `2^53` still : the step up from it leads back to it. -/
theorem not_integers_without_exact :
    ¬∀ (lo hi : Binary64) (b : NumberSet), (NumberSet.integers lo hi).wellFormed = true →
      b.wellFormed = true → b ≠ .all → ∀ x : Binary64,
        (((ofShape (.number (.integers lo hi))).without (ofShape (.number b))).has
          (.number x) = true ↔ (NumberSet.integers lo hi).has x = true ∧ b.has x = false) := by
  intro h
  let x := Binary64.ofNat (2 ^ 53)
  have hiff := h .zero (.ofNat (2 ^ 53 + 8)) (.literal x) (by decide +kernel) rfl nofun x
  have hstays : ((ofShape (.number (.integers .zero (.ofNat (2 ^ 53 + 8))))).without
      (ofShape (.number (.literal x)))).has (.number x) = true := by decide +kernel
  exact absurd (hiff.1 hstays).2 (by decide +kernel)

end Ty

end FlowTypes
