import FlowTypes.Proofs.Difference
import FlowTypes.Proofs.SteadyNumbers

/-!
# What a difference of numbers takes away

A difference may hold points that are removed : the ends of what is cut out of an interval stay,
and a single number or the integers are not cut out of it at all. So it takes more than points to
see that nothing is left. A set holds a point firmly (`NumberSet.Firm`) if it is a literal or a set
of integers, or if the point is NaN or a fraction at which nothing is cut. Every set holds a point
firmly (`exists_firm`), and a difference does so only with points of the left side that the right
side lacks.

`NumberSet.Leaves` puts this together with the other half, that the points of the left side which
the right side lacks are still there. It holds of the difference of steady sets from which sets
with bounds of at most 52 bits are removed (`leaves_without`).
-/

namespace FlowTypes

open ExtendedRat Binary64

namespace NumberSet

/-! ## Firm points -/

/-- The points at which a set begins and ends. -/
def ends : NumberSet → List (Option ExtendedRat)
  | all => []
  | literal v => [v.exact]
  | interval lo hi | integers lo hi => [lo.exact, hi.exact]

/-- Does the set hold single numbers, as far as its kind shows? -/
def isDiscrete : NumberSet → Bool
  | literal _ | integers .. => true
  | _ => false

/-- NaN, or a fraction other than the given points. -/
def OffCuts (cuts : List (Option ExtendedRat)) (p : Option ExtendedRat) : Prop :=
  p = none ∨ ∃ q : ℚ, p = some (rat q) ∧ (∀ z : ℤ, rat q ≠ int z) ∧ p ∉ cuts

/-- The set holds the point, and no cut at the given points leaves it behind. -/
def Firm (cuts : List (Option ExtendedRat)) (n : NumberSet) (p : Option ExtendedRat) : Prop :=
  n.Denotes p ∧ (n.isDiscrete = true ∨ OffCuts cuts p)

variable {cuts : List (Option ExtendedRat)} {a b : NumberSet} {items : List NumberSet}

theorem OffCuts.ne_int {p : Option ExtendedRat} (h : OffCuts cuts p) (z : ℤ) :
    p ≠ some (int z) := by
  rcases h with rfl | ⟨q, rfl, hq, -⟩
  · exact nofun
  · exact fun he => hq z (Option.some.inj he)

theorem OffCuts.ne_end {p : Option ExtendedRat} (h : OffCuts cuts p) {q : ExtendedRat}
    (hq : some q ∈ cuts) : p ≠ some q := by
  rcases h with rfl | ⟨r, rfl, -, hr⟩
  · exact nofun
  · exact fun he => hr (he ▸ hq)

/-- Every set holds a point firmly. -/
theorem exists_firm (cuts : List (Option ExtendedRat)) {n : NumberSet}
    (hn : n.wellFormed = true) : ∃ p, n.Firm cuts p := by
  cases n with
  | all => exact ⟨none, trivial, Or.inr (Or.inl rfl)⟩
  | literal v => exact ⟨v.exact, rfl, Or.inl rfl⟩
  | integers lo hi =>
    obtain ⟨x, hx⟩ := exists_has hn
    exact ⟨x.exact, (has_iff_denotes hn x).1 hx, Or.inl rfl⟩
  | interval lo hi =>
    obtain ⟨q, hlo, hhi, hq, hcuts⟩ :=
      exists_fraction_between (lt_of_wellFormed_interval hn).2.2 cuts.finite_toSet
    exact ⟨some (rat q), ⟨rat q, rfl, hlo.le, hhi.le⟩, Or.inr (Or.inr ⟨q, rfl, hq, hcuts⟩)⟩

/-- The literals and integers of a canonical form come from literals and integers. -/
theorem exists_discrete_of_mem_canonical (hitems : ∀ n ∈ items, n.wellFormed = true)
    (hsteady : ∀ n ∈ items, n.isSteady = true) {n : NumberSet} (hn : n ∈ canonical items)
    (hd : n.isDiscrete = true) {p : Option ExtendedRat} (hp : n.Denotes p) :
    ∃ m ∈ items, m.isDiscrete = true ∧ m.Denotes p := by
  match items with
  | [] => cases hn
  | [m] => exact ⟨n, hn, hd, hp⟩
  | k :: l :: rest =>
    rw [canonical_eq_joined (by simp)] at hn
    unfold joined at hn
    split at hn
    · rw [List.mem_singleton.1 hn] at hd
      cases hd
    have hparts := parts_of_wellFormed hitems
    rcases cases_of_mem_assemble hn with ⟨r, hr, rfl⟩ | ⟨r, -, rfl⟩ | ⟨v, hv, -, rfl⟩
    · obtain ⟨z, rfl, hz⟩ := (denotes_ofRun (hparts.whole_of_mem_runs r hr) p).1 hp
      have hpass := passable_of_resolved
        (resolved_of_isSteady hitems hsteady (some (int z))) rfl
      obtain ⟨s, hs, hsz⟩ := (contains_runs hparts hpass.up_pieces).1 ⟨r, hr, hz⟩
      rcases mem_pieces.1 hs with ⟨t, ht, hs⟩ | ⟨v, hv, hvi, rfl⟩
      · have hbounds := Range.bounds_of_mem_outside (hparts.hi_whole t ht)
          (hparts.lo_whole t ht) hparts.reals_ordered s hs
        exact ⟨_, mem_filterMap_integral?.1 ht, rfl, z, rfl, hbounds.1.trans hsz.1,
          hsz.2.trans hbounds.2⟩
      · refine ⟨_, mem_filterMap_literal?.1 (List.mem_filter.1 hv).1, rfl, ?_⟩
        simp only [Range.Contains, value_unsignedZero] at hsz
        exact exact_eq_some.2
          ⟨isNaN_of_isFinite (isFinite_of_isInteger hvi), le_antisymm hsz.1 hsz.2⟩
    · cases hd
    · exact ⟨_, mem_filterMap_literal?.1 (List.mem_filter.1 hv).1, rfl, hp⟩

/-- What a canonical form holds firmly, one of its sets held firmly before. -/
theorem exists_firm_of_canonical (hitems : ∀ n ∈ items, n.wellFormed = true)
    (hsteady : ∀ n ∈ items, n.isSteady = true) {p : Option ExtendedRat}
    (h : ∃ n ∈ canonical items, n.Firm cuts p) : ∃ m ∈ items, m.Firm cuts p := by
  obtain ⟨n, hn, hp, hd | hoff⟩ := h
  · obtain ⟨m, hm, hmd, hmp⟩ := exists_discrete_of_mem_canonical hitems hsteady hn hd hp
    exact ⟨m, hm, hmp, Or.inl hmd⟩
  · obtain ⟨m, hm, hmp⟩ := (denotes_canonical_of_isSteady hitems hsteady p).1 ⟨n, hn, hp⟩
    exact ⟨m, hm, hmp, Or.inr hoff⟩

/-! ## What is left of a set -/

/-- What a difference of sets of numbers has to be: steady sets that have every point of the left
side that the right side lacks, and hold no others firmly. -/
structure Leaves (cuts : List (Option ExtendedRat)) (rest : List NumberSet) (a b : NumberSet) :
    Prop where
  wellFormed : ∀ n ∈ rest, n.wellFormed = true
  steady : ∀ n ∈ rest, n.isSteady = true
  keeps : ∀ p, a.Denotes p → ¬b.Denotes p → ∃ n ∈ rest, n.Denotes p
  firm : ∀ p, (∃ n ∈ rest, n.Firm cuts p) → a.Firm cuts p ∧ ¬b.Denotes p

theorem leaves_self (ha : a.wellFormed = true) (hsteady : a.isSteady = true)
    (h : ∀ p, a.Firm cuts p → ¬b.Denotes p) : Leaves cuts [a] a b where
  wellFormed := by simpa using ha
  steady := by simpa using hsteady
  keeps p hp _ := ⟨a, List.mem_singleton_self a, hp⟩
  firm p := by
    rintro ⟨n, hn, hp⟩
    rw [List.mem_singleton.1 hn] at hp
    exact ⟨hp, h p hp⟩

theorem leaves_nil (hb : b.wellFormed = true) (h : a.subset b = true) : Leaves cuts [] a b where
  wellFormed := by simp
  steady := by simp
  keeps _ hp hnot := absurd (Denotes.of_subset hb h hp) hnot
  firm := by simp

/-- The pieces may be brought into canonical form. -/
theorem Leaves.canonical {rest : List NumberSet} (h : Leaves cuts rest a b) :
    Leaves cuts (canonical rest) a b where
  wellFormed _ hn := wellFormed_of_mem_canonical h.wellFormed hn
  steady := isSteady_canonical h.wellFormed h.steady
  keeps p hp hnot :=
    (denotes_canonical_of_isSteady h.wellFormed h.steady p).2 (h.keeps p hp hnot)
  firm p hp := h.firm p (exists_firm_of_canonical h.wellFormed h.steady hp)

theorem exists_denotes_append (o o' : Option NumberSet) (p : Option ExtendedRat) :
    (∃ n ∈ o.toList ++ o'.toList, n.Denotes p) ↔
      (∃ n ∈ o, n.Denotes p) ∨ ∃ n ∈ o', n.Denotes p := by
  simp only [List.mem_append, or_and_right, exists_or, Option.mem_toList, Option.mem_def]

/-! ## Integers less integers -/

section Integers

variable {lo hi first last : Binary64} (ha : (integers lo hi).wellFormed = true)
  (hsteady : (integers lo hi).isSteady = true)

include ha hsteady

omit ha hsteady in
/-- The integers before `first` and after `last` : the steps by one are exact, so the two parts end
where the removed integers begin. -/
theorem exists_denotes_parts (hlo : lo.isNaN = false) (hhi : hi.isNaN = false)
    (hfirst : first.isWhole = true) (hlast : last.isWhole = true)
    (hfirst' : first.within (2 ^ 53 - 1) = true) (hlast' : last.within (2 ^ 53 - 1) = true)
    (p : Option ExtendedRat) :
    (∃ n ∈ (integers? lo (first - one)).toList ++ (integers? (last + one) hi).toList,
      n.Denotes p) ↔
      ∃ z, p = some (int z) ∧ (lo.value ≤ int z ∧ int z < first.value ∨
        last.value < int z ∧ int z ≤ hi.value) := by
  rw [exists_denotes_append, denotes_integers? hlo (isNaN_of_isWhole (isWhole_sub_one hfirst)),
    denotes_integers? (isNaN_of_isWhole (isWhole_add_one hlast)) hhi]
  simp only [int_le_value_sub_one hfirst hfirst', value_add_one_le_int hlast hlast', ← exists_or,
    ← and_or_left]

/-- A range of integers without those from `first` to `last`, which have to be those that the
right side removes. -/
theorem leaves_withoutIntegers (hfirst : first.isWhole = true) (hlast : last.isWhole = true)
    (hfirst' : first.within (2 ^ 52) = true) (hlast' : last.within (2 ^ 52) = true)
    (hb : ∀ z : ℤ, b.Denotes (some (int z)) ↔ first.value ≤ int z ∧ int z ≤ last.value) :
    Leaves cuts (withoutIntegers lo hi first last) (integers lo hi) b := by
  obtain ⟨hlo, hhi, -⟩ := whole_of_wellFormed_integers ha
  have hlon := isNaN_of_isWhole hlo
  have hhin := isNaN_of_isWhole hhi
  have hbounds := Bool.and_eq_true_iff.1 hsteady
  have hmono : ∀ {v : Binary64}, v.within (2 ^ 52) = true → v.within (2 ^ 53 - 1) = true :=
    within_mono (by norm_num)
  unfold withoutIntegers
  split
  · next hskip =>
    refine leaves_self ha hsteady fun p hp hbp => ?_
    obtain ⟨z, rfl, h1, h2⟩ := hp.1
    obtain ⟨h3, h4⟩ := (hb z).1 hbp
    simp only [Bool.or_eq_true, decide_eq_true_eq, lt_iff_value] at hskip
    rcases hskip with (h | h) | h
    · exact absurd (h3.trans h4) (not_le.2 h.2.2)
    · exact absurd (h1.trans h4) (not_le.2 h.2.2)
    · exact absurd (h3.trans h2) (not_le.2 h.2.2)
  · next hcut =>
    obtain ⟨-, hloLast, hfirstHi⟩ := Range.bounds_of_not_skipped hlo hhi hfirst hlast hcut
    have hparts := exists_denotes_parts hlon hhin hfirst hlast (hmono hfirst') (hmono hlast')
    refine Leaves.canonical ⟨fun n hn => ?_, fun n hn => ?_, fun p hp hnot => ?_, fun p hp => ?_⟩
    · rcases List.mem_append.1 hn with hn | hn
      · exact wellFormed_of_mem_integers? (Option.mem_toList.1 hn)
      · exact wellFormed_of_mem_integers? (Option.mem_toList.1 hn)
    · rcases List.mem_append.1 hn with hn | hn
      · exact isSteady_integers? hbounds.1
          (within_mono (by norm_num) (within_sub_one hfirst hfirst' (by norm_num)))
          (Option.mem_toList.1 hn)
      · exact isSteady_integers?
          (within_mono (by norm_num) (within_add_one hlast hlast' (by norm_num))) hbounds.2
          (Option.mem_toList.1 hn)
    · obtain ⟨z, rfl, h1, h2⟩ := hp
      refine (hparts _).2 ⟨z, rfl, ?_⟩
      rw [hb z, not_and_or, not_le, not_le] at hnot
      exact hnot.imp (fun h => ⟨h1, h⟩) fun h => ⟨h, h2⟩
    · obtain ⟨n, hn, hp, -⟩ := hp
      obtain ⟨z, rfl, h⟩ := (hparts p).1 ⟨n, hn, hp⟩
      rw [hb z]
      rcases h with ⟨h1, h2⟩ | ⟨h1, h2⟩
      · exact ⟨⟨⟨z, rfl, h1, h2.le.trans hfirstHi⟩, Or.inl rfl⟩, fun h => not_le.2 h2 h.1⟩
      · exact ⟨⟨⟨z, rfl, hloLast.trans h1.le, h2⟩, Or.inl rfl⟩, fun h => not_le.2 h1 h.2⟩

/-- A range of integers without one of them. -/
theorem leaves_integers_literal {v : Binary64} (hv : (integers lo hi).has v = true)
    (hsmall : (literal v).isSmall = true) :
    Leaves cuts (withoutIntegers lo hi v v) (integers lo hi) (literal v) := by
  obtain ⟨z, hz, -⟩ := (has_iff_denotes ha v).1 hv
  obtain ⟨hvn, hvz⟩ := exact_eq_some.1 hz
  have hwhole : v.isWhole = true := isWhole_of_isInteger
    (isInteger_iff_value.2 ⟨isFinite_of_value_eq_int hvn hvz, z, hvz⟩)
  refine leaves_withoutIntegers ha hsteady hwhole hwhole hsmall hsmall fun k => ?_
  rw [denotes_literal, exact_eq_some, and_iff_right hvn]
  exact le_antisymm_iff

/-- A range of integers without those of a real interval. -/
theorem leaves_integers_interval {lo' hi' : Binary64} (hb : (interval lo' hi').wellFormed = true)
    (hsmall : (interval lo' hi').isSmall = true) :
    Leaves cuts (withoutIntegers lo hi lo'.ceil hi'.floor) (integers lo hi)
      (interval lo' hi') := by
  obtain ⟨hlo', hhi', -⟩ := lt_of_wellFormed_interval hb
  have hbounds := Bool.and_eq_true_iff.1 hsmall
  refine leaves_withoutIntegers ha hsteady (isWhole_ceil hlo') (isWhole_floor hhi')
    (within_ceil hbounds.1) (within_floor hbounds.2) fun z => ?_
  exact denotes_interval_some.trans (Range.contains_int_iff ⟨lo', hi'⟩ z)

/-- A range of integers without those of another. -/
theorem leaves_integers_integers {lo' hi' : Binary64} (hb : (integers lo' hi').wellFormed = true)
    (hsmall : (integers lo' hi').isSmall = true) :
    Leaves cuts (withoutIntegers lo hi lo' hi') (integers lo hi) (integers lo' hi') := by
  obtain ⟨hlo', hhi', -⟩ := whole_of_wellFormed_integers hb
  have hbounds := Bool.and_eq_true_iff.1 hsmall
  exact leaves_withoutIntegers ha hsteady hlo' hhi' hbounds.1 hbounds.2 fun _ =>
    denotes_integers_int

end Integers

/-! ## Intervals less intervals -/

/-- What is left on the sides of a cut is no single number. -/
theorem isDiscrete_of_mem_sides {lo hi lo' hi' : Binary64} {n : NumberSet}
    (hn : n ∈ sides lo hi lo' hi') : n.isDiscrete = false := by
  have hpart : ∀ {x y : Binary64}, n ∈ (if x < y then (interval? x y).toList else []) →
      n.isDiscrete = false := by
    intro x y h
    split at h
    · next hlt =>
      have hnot : ¬y ≤ x := fun hle => absurd (le_iff_value.1 hle).2.2
        (not_le.2 (lt_iff_value.1 hlt).2.2)
      simp only [interval?, hnot, if_false, Option.mem_toList] at h
      split at h <;> cases h
      rfl
    · cases h
  rcases List.mem_append.1 hn with h | h
  · exact hpart h
  · exact hpart h

theorem denotes_sides {lo hi lo' hi' : Binary64} (hlo : lo.isNaN = false) (hhi : hi.isNaN = false)
    (hlo' : lo'.isNaN = false) (hhi' : hi'.isNaN = false) (p : Option ExtendedRat) :
    (∃ n ∈ sides lo hi lo' hi', n.Denotes p) ↔
      ∃ q, p = some q ∧ (lo.value < lo'.value ∧ lo.value ≤ q ∧ q ≤ lo'.value ∨
        hi'.value < hi.value ∧ hi'.value ≤ q ∧ q ≤ hi.value) := by
  have hparts : (∃ n ∈ sides lo hi lo' hi', n.Denotes p) ↔
      (lo < lo' ∧ ∃ n ∈ interval? lo lo', n.Denotes p) ∨
        hi' < hi ∧ ∃ n ∈ interval? hi' hi, n.Denotes p := by
    simp only [sides, List.mem_append, or_and_right, exists_or]
    refine or_congr ?_ ?_ <;> split <;> simp [*]
  have hlt : ∀ {x y : Binary64}, x.isNaN = false → y.isNaN = false →
      (x < y ↔ x.value < y.value) := fun hx hy =>
    lt_iff_value.trans ((and_iff_right hx).trans (and_iff_right hy))
  rw [hparts, denotes_interval? hlo hlo', denotes_interval? hhi' hhi, hlt hlo hlo', hlt hhi' hhi]
  constructor
  · rintro (⟨h, q, rfl, hq⟩ | ⟨h, q, rfl, hq⟩)
    · exact ⟨q, rfl, Or.inl ⟨h, hq⟩⟩
    · exact ⟨q, rfl, Or.inr ⟨h, hq⟩⟩
  · rintro ⟨q, rfl, ⟨h, hq⟩ | ⟨h, hq⟩⟩
    · exact Or.inl ⟨h, q, rfl, hq⟩
    · exact Or.inr ⟨h, q, rfl, hq⟩

theorem isSteady_of_mem_sides {lo hi lo' hi' : Binary64} (ha : (interval lo hi).isSteady = true)
    (hb : (interval lo' hi').isSmall = true) {n : NumberSet} (hn : n ∈ sides lo hi lo' hi') :
    n.isSteady = true := by
  have ha := Bool.and_eq_true_iff.1 ha
  have hb := Bool.and_eq_true_iff.1 hb
  have hmono : ∀ {v : Binary64}, v.within (2 ^ 52) = true → v.within (2 ^ 53 - 2) = true :=
    within_mono (by norm_num)
  rcases List.mem_append.1 hn with h | h
  · split at h
    · exact isSteady_interval? ha.1 (hmono hb.1) (Option.mem_toList.1 h)
    · cases h
  · split at h
    · exact isSteady_interval? (hmono hb.2) ha.2 (Option.mem_toList.1 h)
    · cases h

section Intervals

variable {lo hi lo' hi' : Binary64} (hb : (interval lo' hi').wellFormed = true)
  (hcuts : ∀ e ∈ (interval lo' hi').ends, e ∈ cuts)

include hb hcuts

/-- The cuts lie outside what is held firmly on the sides. -/
theorem not_denotes_of_firm_sides (hlo : lo.isNaN = false) (hhi : hi.isNaN = false)
    {p : Option ExtendedRat} (hp : ∃ n ∈ sides lo hi lo' hi', n.Firm cuts p) :
    OffCuts cuts p ∧ ¬(interval lo' hi').Denotes p ∧
      ∃ q, p = some q ∧ (lo.value ≤ q ∧ q ≤ lo'.value ∨ hi'.value ≤ q ∧ q ≤ hi.value) := by
  obtain ⟨hlo', hhi', -⟩ := lt_of_wellFormed_interval hb
  have hcutLo : some lo'.value ∈ cuts := hcuts _ (by simp [ends, exact, hlo'])
  have hcutHi : some hi'.value ∈ cuts := hcuts _ (by simp [ends, exact, hhi'])
  obtain ⟨n, hn, hp, hd | hoff⟩ := hp
  · rw [isDiscrete_of_mem_sides hn] at hd
    cases hd
  obtain ⟨q, rfl, h⟩ := (denotes_sides hlo hhi hlo' hhi' p).1 ⟨n, hn, hp⟩
  have hneLo : q ≠ lo'.value := fun he => hoff.ne_end hcutLo (he ▸ rfl)
  have hneHi : q ≠ hi'.value := fun he => hoff.ne_end hcutHi (he ▸ rfl)
  refine ⟨hoff, ?_, q, rfl, h.imp And.right And.right⟩
  rintro ⟨r, he, h1, h2⟩
  obtain rfl := Option.some.inj he
  rcases h with ⟨-, -, h⟩ | ⟨-, h, -⟩
  · exact hneLo (le_antisymm h h1)
  · exact hneHi (le_antisymm h2 h)

variable (hsmall : (interval lo' hi').isSmall = true)

include hsmall

/-- The sides of an interval that meets another. -/
theorem leaves_sides (ha : (interval lo hi).wellFormed = true)
    (hsteady : (interval lo hi).isSteady = true) (hbelow : ¬hi' < lo) (habove : ¬hi < lo') :
    Leaves cuts (sides lo hi lo' hi') (interval lo hi) (interval lo' hi') where
  wellFormed _ hn := wellFormed_of_mem_sides hn
  steady _ hn := isSteady_of_mem_sides hsteady hsmall hn
  keeps p := by
    obtain ⟨hlo, hhi, -⟩ := lt_of_wellFormed_interval ha
    obtain ⟨hlo', hhi', -⟩ := lt_of_wellFormed_interval hb
    rintro ⟨q, rfl, h1, h2⟩ hnot
    rw [denotes_sides hlo hhi hlo' hhi']
    rcases lt_or_ge q lo'.value with h | h
    · exact ⟨q, rfl, Or.inl ⟨h1.trans_lt h, h1, h.le⟩⟩
    · have hgt : hi'.value < q := not_le.1 fun hle => hnot ⟨q, rfl, h, hle⟩
      exact ⟨q, rfl, Or.inr ⟨hgt.trans_le h2, hgt.le, h2⟩⟩
  firm p hp := by
    obtain ⟨hlo, hhi, -⟩ := lt_of_wellFormed_interval ha
    obtain ⟨hlo', hhi', -⟩ := lt_of_wellFormed_interval hb
    have hbelow : lo.value ≤ hi'.value := not_lt.1 fun h => hbelow (lt_iff_value.2 ⟨hhi', hlo, h⟩)
    have habove : lo'.value ≤ hi.value := not_lt.1 fun h => habove (lt_iff_value.2 ⟨hhi, hlo', h⟩)
    obtain ⟨hoff, hnot, q, rfl, h⟩ := not_denotes_of_firm_sides hb hcuts hlo hhi hp
    refine ⟨⟨⟨q, rfl, ?_⟩, Or.inr hoff⟩, hnot⟩
    rcases h with ⟨h1, h2⟩ | ⟨h1, h2⟩
    · exact ⟨h1, h2.trans habove⟩
    · exact ⟨hbelow.trans h1, h2⟩

/-- All numbers but those of an interval: NaN and the two sides. -/
theorem leaves_all_interval :
    Leaves cuts (literal .nan :: sides .negInf .posInf lo' hi') all (interval lo' hi') where
  wellFormed n hn := by
    rcases List.mem_cons.1 hn with rfl | hn
    · rfl
    · exact wellFormed_of_mem_sides hn
  steady n hn := by
    rcases List.mem_cons.1 hn with rfl | hn
    · rfl
    · exact isSteady_of_mem_sides (by decide) hsmall hn
  keeps p _ hnot := by
    obtain ⟨hlo', hhi', -⟩ := lt_of_wellFormed_interval hb
    cases p with
    | none => exact ⟨literal .nan, List.mem_cons_self, rfl⟩
    | some q =>
      have hsides : ∃ n ∈ sides .negInf .posInf lo' hi', n.Denotes (some q) := by
        rw [denotes_sides rfl rfl hlo' hhi']
        rcases lt_or_ge q lo'.value with h | h
        · exact ⟨q, rfl, Or.inl ⟨bot_le.trans_lt h, bot_le, h.le⟩⟩
        · have hgt : hi'.value < q := not_le.1 fun hle => hnot ⟨q, rfl, h, hle⟩
          exact ⟨q, rfl, Or.inr ⟨hgt.trans_le le_top, hgt.le, le_top⟩⟩
      obtain ⟨n, hn, hq⟩ := hsides
      exact ⟨n, List.mem_cons_of_mem _ hn, hq⟩
  firm p := by
    rintro ⟨n, hn, hp⟩
    rcases List.mem_cons.1 hn with rfl | hn
    · obtain rfl : p = none := hp.1.symm
      exact ⟨⟨trivial, Or.inr (Or.inl rfl)⟩, by rintro ⟨q, he, -⟩; cases he⟩
    · have hsides : ∃ n ∈ sides .negInf .posInf lo' hi', n.Firm cuts p := ⟨n, hn, hp⟩
      obtain ⟨hoff, hnot, -⟩ := not_denotes_of_firm_sides hb hcuts rfl rfl hsides
      exact ⟨⟨trivial, Or.inr hoff⟩, hnot⟩

end Intervals

/-- All numbers but NaN. -/
theorem leaves_all_nan {v : Binary64} (hv : v.isNaN = true) :
    Leaves cuts [interval .negInf .posInf] all (literal v) where
  wellFormed := by decide +kernel
  steady := by decide
  keeps p _ hnot := by
    cases p with
    | none => exact absurd (exact_eq_none.2 hv) hnot
    | some q => exact ⟨_, List.mem_singleton_self _, q, rfl, bot_le, le_top⟩
  firm p := by
    rintro ⟨n, hn, hp⟩
    obtain rfl := List.mem_singleton.1 hn
    obtain ⟨⟨q, rfl, -⟩, hd | hoff⟩ := hp
    · cases hd
    · refine ⟨⟨trivial, Or.inr hoff⟩, ?_⟩
      rw [denotes_literal, exact_eq_none.2 hv]
      exact nofun

/-! ## Differences -/

/-- Single numbers are not cut out of a set of another kind, but no such number is held firmly. -/
theorem not_denotes_of_firm {p : Option ExtendedRat} (hcuts : ∀ e ∈ b.ends, e ∈ cuts)
    (ha : a.isDiscrete = false) (hb : b.isDiscrete = true)
    (hnan : a.Denotes none → ¬b.Denotes none) (hp : a.Firm cuts p) : ¬b.Denotes p := by
  have hoff : OffCuts cuts p := hp.2.resolve_left (by simp [ha])
  cases b with
  | literal v =>
    rintro rfl
    have hmem : v.exact ∈ cuts := hcuts _ List.mem_cons_self
    cases hv : v.exact with
    | none => exact hnan (hv ▸ hp.1) hv
    | some q => exact hoff.ne_end (hv ▸ hmem) hv
  | integers lo hi =>
    rintro ⟨z, rfl, -⟩
    exact hoff.ne_int z rfl
  | all => cases hb
  | interval lo hi => cases hb

/-- Of two intervals that do not meet, the one stays. -/
theorem leaves_apart {lo hi lo' hi' : Binary64} (ha : (interval lo hi).wellFormed = true)
    (hsteady : (interval lo hi).isSteady = true) (h : hi' < lo ∨ hi < lo') :
    Leaves cuts [interval lo hi] (interval lo hi) (interval lo' hi') := by
  refine leaves_self ha hsteady fun p hp => ?_
  rintro ⟨q, rfl, h1, h2⟩
  obtain ⟨⟨r, he, h3, h4⟩, -⟩ := hp
  obtain rfl := Option.some.inj he
  rcases h with h | h
  · exact absurd (h3.trans h2) (not_le.2 (lt_iff_value.1 h).2.2)
  · exact absurd (h1.trans h4) (not_le.2 (lt_iff_value.1 h).2.2)

/-- A literal stays that is no number of the other side. -/
theorem leaves_literal {v : Binary64} (hsteady : (literal v).isSteady = true)
    (hb : b.wellFormed = true) (h : ¬(literal v).subset b = true) :
    Leaves cuts [literal v] (literal v) b := by
  refine leaves_self rfl hsteady fun p hp hbp => ?_
  obtain rfl : v.exact = p := hp.1
  have hv := (has_iff_denotes hb v).2 hbp
  cases b with
  | all => exact h rfl
  | _ => exact h hv

/-- The difference of a steady set and one with bounds of at most 52 bits. -/
theorem leaves_without (ha : a.wellFormed = true) (hsteady : a.isSteady = true)
    (hb : b.wellFormed = true) (hsmall : b.isSmall = true) (hcuts : ∀ e ∈ b.ends, e ∈ cuts) :
    Leaves cuts (a.without b) a b := by
  have hself : (∀ p, a.Firm cuts p → ¬b.Denotes p) → Leaves cuts [a] a b := leaves_self ha hsteady
  unfold without
  split
  · next hsub => exact leaves_nil hb hsub
  next hsub =>
  split
  · next v =>
    split
    · next hv => exact leaves_all_nan hv
    · next hv =>
      exact hself fun p => not_denotes_of_firm hcuts rfl rfl fun _ he => hv (exact_eq_none.1 he)
  · exact (leaves_all_interval hb hcuts hsmall).canonical
  · next lo hi v =>
    split
    · next hv => exact leaves_integers_literal ha hsteady hv hsmall
    · next hv => exact hself fun p hp hbp => hv ((has_iff_denotes ha v).2 (hbp ▸ hp.1))
  · exact leaves_integers_interval ha hsteady hb hsmall
  · exact leaves_integers_integers ha hsteady hb hsmall
  · next lo hi lo' hi' =>
    split
    · next hapart =>
      simp only [Bool.or_eq_true, decide_eq_true_eq] at hapart
      exact leaves_apart ha hsteady hapart
    · next hmeet =>
      simp only [Bool.or_eq_true, decide_eq_true_eq, not_or] at hmeet
      exact (leaves_sides hb hcuts hsmall ha hsteady hmeet.1 hmeet.2).canonical
  · next hcase₁ hcase₂ hcase₃ hcase₄ hcase₅ hcase₆ =>
    -- From a set that is no literal, single numbers would have to be cut out.
    cases a with
    | literal v => exact leaves_literal hsteady hb hsub
    | all =>
      cases b with
      | all => exact absurd rfl hsub
      | literal w => exact (hcase₁ w rfl rfl).elim
      | interval lo hi => exact (hcase₂ lo hi rfl rfl).elim
      | integers lo hi =>
        exact hself fun p => not_denotes_of_firm hcuts rfl rfl fun _ ⟨_, he, _⟩ => nomatch he
    | integers lo hi =>
      cases b with
      | all => exact absurd rfl hsub
      | literal w => exact (hcase₃ lo hi w rfl rfl).elim
      | interval lo' hi' => exact (hcase₄ lo hi lo' hi' rfl rfl).elim
      | integers lo' hi' => exact (hcase₅ lo hi lo' hi' rfl rfl).elim
    | interval lo hi =>
      have hnan : ¬(interval lo hi).Denotes none := fun ⟨_, he, _⟩ => nomatch he
      cases b with
      | all => exact absurd rfl hsub
      | literal w => exact hself fun p => not_denotes_of_firm hcuts rfl rfl fun h => absurd h hnan
      | integers lo' hi' =>
        exact hself fun p => not_denotes_of_firm hcuts rfl rfl fun h => absurd h hnan
      | interval lo' hi' => exact (hcase₆ lo hi lo' hi' rfl rfl).elim

end NumberSet

end FlowTypes
