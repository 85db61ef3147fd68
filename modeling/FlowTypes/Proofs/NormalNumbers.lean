import FlowTypes.Proofs.SeparateNumbers

/-!
# Canonical unions of numbers are normal

The canonical form of a union of sets of numbers is normal, provided that the steps by one from its
cuts lead out of the real intervals (`NumberSet.CutsLeave`, `normal_canonical_of_cutsLeave`). The
ranges of reals and the runs of integers are those that merging leaves apart, and no unpassed
integer of a run lies in a range of reals (`not_contains_of_run`) : it is in a piece, and a cut
has removed it from there. Steps lead out where bounds leave room for exact ones
(`NumberSet.isSteady`, `normal_canonical`).
-/

namespace FlowTypes

open ExtendedRat Binary64

namespace NumberSet

/-- Do steps by one from the bounds, and from the bounds that cuts leave, need no rounding? A cut
moves the bound of an interval of integers by one beyond the bound of a real one. -/
def isSteady : NumberSet → Bool
  | all => true
  | literal v => v.within (2 ^ 53 - 1)
  | interval lo hi => lo.within (2 ^ 53 - 2) && hi.within (2 ^ 53 - 2)
  | integers lo hi => lo.within (2 ^ 53 - 1) && hi.within (2 ^ 53 - 1)

/-! ## Runs as sets -/

/-- The set of the integers of a run. -/
def ofRun (run : Range) : NumberSet :=
  if run.lo ≤ run.hi && run.hi ≤ run.lo then literal run.lo
  else integers run.lo.unsignedZero run.hi.unsignedZero

theorem eq_ofRun_of_mem {runs : List Range} {n : NumberSet}
    (h : n ∈ runs.filterMap ofRun? ∨ ∃ v ∈ runs.filterMap ofSingleRun?, n = literal v) :
    ∃ r ∈ runs, n = ofRun r := by
  rcases h with h | ⟨v, h, rfl⟩ <;> obtain ⟨r, hr, h⟩ := List.mem_filterMap.1 h <;>
    refine ⟨r, hr, ?_⟩
  · unfold ofRun? at h
    unfold ofRun
    split at h
    · cases h
    · next hne =>
      cases h
      rw [if_neg hne]
  · unfold ofSingleRun? at h
    unfold ofRun
    split at h
    · next heq =>
      cases h
      rw [if_pos heq]
    · cases h

theorem denotes_ofRun {run : Range} (hrun : run.Whole) (p : Option ExtendedRat) :
    (ofRun run).Denotes p ↔ ∃ z, p = some (int z) ∧ run.Contains (int z) := by
  rw [← denotes_run hrun p]
  unfold ofRun ofRun? ofSingleRun?
  split <;> simp [denotes_literal]

theorem upper_of_mem_ofRun? {run : Range} {n : NumberSet} (h : n ∈ ofRun? run) :
    n.upper = run.hi.unsignedZero := by
  unfold ofRun? at h
  split at h <;> cases h
  rfl

theorem isReal_ofRun (run : Range) : (ofRun run).isReal = false := by
  unfold ofRun
  split <;> rfl

theorem ofRun_ne_all (run : Range) : ofRun run ≠ all := by
  unfold ofRun
  split <;> exact nofun

theorem identity_ofRun {run : Range} (hlo : run.lo.unsignedZero = run.lo) :
    (ofRun run).identity = ofRun run := by
  unfold ofRun
  split
  · rw [identity, hlo]
  · rfl

theorem toRange_ofRun (run : Range) : (ofRun run).toRange.lo.value = run.lo.value ∧
    (ofRun run).toRange.hi.value = run.hi.value := by
  unfold ofRun
  split
  · next heq =>
    simp only [Bool.and_eq_true, decide_eq_true_eq, le_iff_value] at heq
    exact ⟨rfl, le_antisymm heq.1.2.2 heq.2.2.2⟩
  · exact ⟨value_unsignedZero _, value_unsignedZero _⟩

section Assemble

variable {reals integral : List Range} {literals : List Binary64}

/-- The sets of an assembled union are those of its runs, its real ranges and its literals that
are no integers. -/
theorem cases_of_mem_assemble {n : NumberSet} (h : n ∈ assemble reals integral literals) :
    (∃ r ∈ runs reals integral literals, n = ofRun r) ∨
      (∃ r ∈ reals, n = interval r.lo.unsignedZero r.hi.unsignedZero) ∨
        ∃ v ∈ loose reals literals, v.isInteger = false ∧ n = literal v := by
  rcases mem_assemble.1 h with h | h | h
  · exact Or.inl (eq_ofRun_of_mem (Or.inl h))
  · exact Or.inr (Or.inl h)
  · obtain ⟨v, hv, rfl⟩ := List.mem_map.1 h
    have hv := StableSort.mem_sort.1 ((StableSort.dropRepeats_sublist _).mem hv)
    rcases List.mem_append.1 hv with hv | hv
    · obtain ⟨hv, hvi⟩ := List.mem_filter.1 hv
      exact Or.inr (Or.inr ⟨v, hv, by simpa using hvi, rfl⟩)
    · exact Or.inl (eq_ofRun_of_mem (Or.inr ⟨v, hv, rfl⟩))

theorem interval_mem_assemble {r : Range} (hr : r ∈ reals) :
    interval r.lo.unsignedZero r.hi.unsignedZero ∈ assemble reals integral literals :=
  mem_assemble.2 (Or.inr (Or.inl ⟨r, hr, rfl⟩))

/-! ## No sign on zero -/

theorem unsigned_lo_of_mem_outside {hi : Binary64} : ∀ {lo : Binary64} {reals : List Range},
    lo.unsignedZero = lo → ∀ r ∈ Range.outside lo hi reals, r.lo.unsignedZero = r.lo
  | lo, [], hlo, r, hr => by
    obtain ⟨rfl, -⟩ := Range.mem_ofIntegers.1 hr
    exact hlo
  | lo, real :: rest, hlo, r, hr => by
    rw [Range.outside_cons] at hr
    split at hr
    · exact unsigned_lo_of_mem_outside hlo r hr
    · rcases List.mem_append.1 hr with hr | hr <;> split at hr
      · obtain ⟨rfl, -⟩ := Range.mem_ofIntegers.1 hr
        exact hlo
      · simp at hr
      · simp at hr
      · exact unsigned_lo_of_mem_outside (unsignedZero_add_one _) r hr

theorem unsigned_hi_of_mem_outside {lo hi : Binary64} {reals : List Range}
    (hhi : hi.unsignedZero = hi) : ∀ r ∈ Range.outside lo hi reals, r.hi.unsignedZero = r.hi := by
  intro r hr
  rcases Range.hi_of_mem_outside r hr with he | ⟨s, -, he⟩ <;> rw [he]
  exacts [hhi, unsignedZero_sub_one _]

theorem unsigned_lo_of_mem_runs (hint : ∀ r ∈ integral, r.lo.unsignedZero = r.lo) :
    ∀ r ∈ runs reals integral literals, r.lo.unsignedZero = r.lo := by
  refine Range.forall_mem_merge (fun a b ha _ => by rwa [Range.extend_lo]) fun r hr => ?_
  rcases mem_pieces.1 hr with ⟨s, hs, hr⟩ | ⟨v, -, -, rfl⟩
  · exact unsigned_lo_of_mem_outside (hint s hs) r hr
  · exact unsignedZero_unsignedZero v

/-! ## Runs beside the reals -/

/-- No integer of a piece is in a real range. -/
theorem not_contains_of_piece (h : Parts reals integral)
    (hapart : reals.Pairwise fun a b => a.hi.value < b.lo.value) {z : ℤ}
    (hcut : ∀ s ∈ integral, Range.CutsLeave z s.lo s.hi reals) {p : Range}
    (hp : p ∈ pieces reals integral literals) (hz : p.Contains (int z)) :
    ∀ r ∈ reals, ¬r.Contains (int z) := by
  rcases mem_pieces.1 hp with ⟨s, hs, hp⟩ | ⟨v, hv, hvi, rfl⟩
  · exact Range.not_contains_of_outside (h.hi_whole s hs) (h.lo_whole s hs) h.reals_ordered
      hapart (hcut s hs) p hp hz
  · intro r hr hrz
    have hvz : v.value = int z := by
      simpa only [Range.Contains, value_unsignedZero, ← le_antisymm_iff] using hz
    exact ((mem_loose h.reals_ordered).1 hv).2 ⟨r, hr, int z,
      exact_eq_some.2 ⟨isNaN_of_isFinite (isFinite_of_isInteger hvi), hvz⟩, hrz⟩

/-- No unpassed integer of a run is in a real range : merging adds none to the pieces. -/
theorem not_contains_of_run (h : Parts reals integral)
    (hapart : reals.Pairwise fun a b => a.hi.value < b.lo.value) {z : ℤ}
    (hz : Unpassed (some (int z))) (hcut : ∀ s ∈ integral, Range.CutsLeave z s.lo s.hi reals)
    {r : Range} (hr : r ∈ runs reals integral literals) (hrz : r.Contains (int z)) :
    ∀ s ∈ reals, ¬s.Contains (int z) := by
  obtain ⟨p, hp, hpz⟩ := (contains_runs h fun p hp =>
    unpassed_int.1 hz _ (h.whole_of_mem_pieces p hp).hi_whole).1 ⟨r, hr, hrz⟩
  exact not_contains_of_piece h hapart hcut hp hpz

/-! ## Without repetitions -/

/-- Doubles that are one number are equal, or both zero. -/
theorem eq_or_zero_of_same {v w : Binary64} (h : v.same w = true) :
    v = w ∨ (-1 ≤ v.rank ∧ v.rank ≤ 0) ∧ -1 ≤ w.rank ∧ w.rank ≤ 0 := by
  have hzero : ∀ {x : Binary64}, x.unsignedZero = .zero → -1 ≤ x.rank ∧ x.rank ≤ 0 := by
    intro x hx
    cases x with
    | finite s m hm =>
      obtain rfl : m = 0 := by
        by_contra hm0
        rw [unsignedZero, if_neg hm0] at hx
        exact hm0 (finite.inj hx).2
      cases s <;> simp [rank]
    | _ => cases hx
  have hkeep : ∀ x : Binary64, x.unsignedZero = x ∨ x.unsignedZero = .zero := by
    intro x
    cases x with
    | finite s m hm =>
      rw [unsignedZero]
      split
      exacts [Or.inr rfl, Or.inl rfl]
    | _ => exact Or.inl rfl
  have heq := same_iff.1 h
  rcases hkeep v with hv | hv
  · rcases hkeep w with hw | hw
    · exact Or.inl (hv.symm.trans (heq.trans hw))
    · exact Or.inr ⟨hzero (heq.trans hw), hzero hw⟩
  · exact Or.inr ⟨hzero hv, hzero (heq.symm.trans hv)⟩

theorem same_of_rank_zero {v w : Binary64} (hv : -1 ≤ v.rank ∧ v.rank ≤ 0)
    (hw : -1 ≤ w.rank ∧ w.rank ≤ 0) : v.same w = true := by
  have hzero : ∀ {x : Binary64}, -1 ≤ x.rank ∧ x.rank ≤ 0 → x.unsignedZero = .zero := by
    intro x hx
    have : x = .zero ∨ x = -.zero := by
      rcases (by omega : x.rank = 0 ∨ x.rank = -1) with h | h
      · exact Or.inl (rank_injective (h.trans (by decide)))
      · exact Or.inr (rank_injective (h.trans (by decide)))
    rcases this with rfl | rfl <;> rfl
  exact same_iff.2 ((hzero hv).trans (hzero hw).symm)

/-- Each number is listed once. -/
theorem nodup_points (vs : List Binary64) : (points vs).Nodup := by
  have hsort := StableSort.pairwise_sort Binary64.compare_total Binary64.compare_trans vs
  refine List.Pairwise.map _ (fun a b hab he => ?_)
    (StableSort.pairwise_dropRepeats (fun a b c hab hbc hca => ?_) hsort)
  · rw [literal.inj he, same_iff.2 rfl] at hab
    cases hab
  · rw [Binary64.compare_ne_gt_iff] at hab hbc
    rcases eq_or_zero_of_same hca with rfl | ⟨hc, ha⟩
    · rw [rank_injective (le_antisymm hbc hab)]
      exact hca
    · exact same_of_rank_zero ⟨ha.1.trans hab, hbc.trans hc.2⟩ ha

/-! ## Separate parts -/

theorem pairwise_runs (h : Parts reals integral) :
    (runs reals integral literals).Pairwise fun a b => (a.hi + one).value < b.lo.value := by
  have hpieces := @Parts.whole_of_mem_pieces reals integral literals h
  have hruns := @Parts.whole_of_mem_runs reals integral literals h
  refine (Range.pairwise_merge Range.integersTouch_mono
    fun r hr => (hpieces r hr).ordered).imp_of_mem fun ha hb hab => ?_
  rw [← Bool.not_eq_true, Range.integersTouch_iff, not_and, not_and] at hab
  exact not_le.1 (hab (isNaN_of_isWhole (hruns _ hb).lo_whole)
    (isNaN_of_isWhole (isWhole_add_one (hruns _ ha).hi_whole)))

theorem lt_of_pairwise_runs {a b : Range} (ha : a.Whole) (h : (a.hi + one).value < b.lo.value) :
    a.hi.value < b.lo.value :=
  (le_value_add_one ha.hi_whole).trans_lt h

theorem sorted_assemble :
    (assemble reals integral literals).Pairwise fun a b => (a.compare b != .gt) = true :=
  StableSort.pairwise_sort compare_total compare_trans _

/-- The sets of an assembled union differ. -/
theorem nodup_assemble (h : Parts reals integral)
    (hapart : reals.Pairwise fun a b => a.hi.value < b.lo.value)
    (hlt : ∀ r ∈ reals, r.lo.value < r.hi.value) : (assemble reals integral literals).Nodup := by
  have hwhole := @Parts.whole_of_mem_runs reals integral literals h
  have hruns : ((runs reals integral literals).filterMap ofRun?).Nodup := by
    have hlt : (runs reals integral literals).Pairwise fun a b => a.hi.value < b.hi.value :=
      (pairwise_runs h).imp_of_mem fun ha hb hab =>
        (lt_of_pairwise_runs (hwhole _ ha) hab).trans_le (hwhole _ hb).lo_le_hi
    refine hlt.filterMap _ fun a b hab m hm n hn he => hab.ne ?_
    rw [← value_unsignedZero, ← upper_of_mem_ofRun? hm, he, upper_of_mem_ofRun? hn,
      value_unsignedZero]
  have hreals : (reals.map fun r => interval r.lo.unsignedZero r.hi.unsignedZero).Nodup := by
    have hlt : reals.Pairwise fun a b => a.hi.value < b.hi.value :=
      hapart.imp_of_mem fun _ hb hab => hab.trans (hlt _ hb)
    refine hlt.map _ fun a b hab he => hab.ne ?_
    rw [← value_unsignedZero, (interval.inj he).2, value_unsignedZero]
  have hpoints := nodup_points ((loose reals literals).filter (!·.isInteger) ++
    (runs reals integral literals).filterMap ofSingleRun?)
  refine (StableSort.perm_sort _ _).nodup_iff.2 (List.nodup_append.2
    ⟨List.nodup_append.2 ⟨hruns, hreals, ?_⟩, hpoints, ?_⟩)
  · rintro m hm n hn rfl
    obtain ⟨r, -, hr⟩ := List.mem_filterMap.1 hm
    obtain ⟨s, -, rfl⟩ := List.mem_map.1 hn
    exact absurd hr (by simp [ofRun?])
  · rintro m hm n hn rfl
    obtain ⟨v, -, rfl⟩ := List.mem_map.1 hn
    rcases List.mem_append.1 hm with hm | hm
    · obtain ⟨r, -, hr⟩ := List.mem_filterMap.1 hm
      exact absurd hr (by simp [ofRun?])
    · obtain ⟨s, -, hs⟩ := List.mem_map.1 hm
      cases hs

/-- A set of an assembled union that is no real interval is that of a run, or a loose literal. -/
theorem cases_of_not_real {n : NumberSet} (hn : n ∈ assemble reals integral literals)
    (hreal : n.isReal = false) : (∃ r ∈ runs reals integral literals, n = ofRun r) ∨
      ∃ v ∈ loose reals literals, v.isInteger = false ∧ n = literal v := by
  rcases cases_of_mem_assemble hn with hrun | ⟨r, -, rfl⟩ | hloose
  · exact Or.inl hrun
  · cases hreal
  · exact Or.inr hloose

theorem exists_run_of_isIntegral {n : NumberSet} (hn : n ∈ assemble reals integral literals)
    (hi : n.isIntegral = true) : ∃ r ∈ runs reals integral literals, n = ofRun r := by
  rcases cases_of_mem_assemble hn with hrun | ⟨r, -, rfl⟩ | ⟨v, -, hvi, rfl⟩
  · exact hrun
  · cases hi
  · exact absurd hi (Bool.eq_false_iff.1 hvi)

theorem identity_of_mem_assemble (hint : ∀ r ∈ integral, r.lo.unsignedZero = r.lo) {n : NumberSet}
    (hn : n ∈ assemble reals integral literals) : n.identity = n := by
  rcases cases_of_mem_assemble hn with ⟨r, hr, rfl⟩ | ⟨s, -, rfl⟩ | ⟨v, -, hvi, rfl⟩
  · exact identity_ofRun (unsigned_lo_of_mem_runs hint r hr)
  · rfl
  · rw [identity, unsignedZero_of_not_isInteger hvi]

theorem all_notMem_assemble : all ∉ assemble reals integral literals := by
  intro hall
  rcases cases_of_mem_assemble hall with ⟨r, -, hr⟩ | ⟨r, -, hr⟩ | ⟨v, -, -, hr⟩
  · exact ofRun_ne_all r hr.symm
  · cases hr
  · cases hr

/-- The real intervals that are assembled are the joined ranges. -/
theorem exists_range_of_interval_mem_assemble {lo hi : Binary64}
    (h : interval lo hi ∈ assemble reals integral literals) :
    ∃ r ∈ reals, interval lo hi = interval r.lo.unsignedZero r.hi.unsignedZero := by
  rcases cases_of_mem_assemble h with ⟨r, -, he⟩ | hr | ⟨v, -, -, he⟩
  · exact Bool.noConfusion ((congrArg isReal he).trans (isReal_ofRun r))
  · exact hr
  · cases he

/-- The real intervals of an assembled union share no point. -/
theorem realsApart_assemble (hapart : reals.Pairwise fun a b => a.hi.value < b.lo.value) :
    RealsApart (assemble reals integral literals) := by
  intro lo hi lo' hi' h h' q hq hq'
  obtain ⟨r, hr, he⟩ := exists_range_of_interval_mem_assemble h
  obtain ⟨s, hs, he'⟩ := exists_range_of_interval_mem_assemble h'
  obtain ⟨rfl, rfl⟩ := interval.inj he
  obtain ⟨rfl, rfl⟩ := interval.inj he'
  simp only [Range.Contains, value_unsignedZero] at hq hq'
  rcases StableSort.eq_or_of_pairwise hapart hr hs with rfl | hrs | hsr
  · rfl
  · exact absurd (hq.2.trans_lt hrs) (not_lt.2 hq'.1)
  · exact absurd (hq'.2.trans_lt hsr) (not_lt.2 hq.1)

/-- No unpassed point of a run or of a loose literal is in a real interval. -/
theorem avoidsReals_assemble (h : Parts reals integral)
    (hapart : reals.Pairwise fun a b => a.hi.value < b.lo.value)
    (hcut : ∀ z, Unpassed (some (int z)) → ∀ s ∈ integral, Range.CutsLeave z s.lo s.hi reals)
    {n : NumberSet} (hn : n ∈ assemble reals integral literals) (hreal : n.isReal = false)
    {lo hi : Binary64} (hmem : interval lo hi ∈ assemble reals integral literals)
    {p : Option ExtendedRat} (hp : Unpassed p) (hnp : n.Denotes p) :
    ¬(interval lo hi).Denotes p := by
  obtain ⟨s, hs, he⟩ := exists_range_of_interval_mem_assemble hmem
  rw [he]
  rintro ⟨q, rfl, hq⟩
  simp only [value_unsignedZero] at hq
  rcases cases_of_not_real hn hreal with ⟨r, hr, rfl⟩ | ⟨v, hv, -, rfl⟩
  · obtain ⟨z, hz, hrz⟩ := (denotes_ofRun (h.whole_of_mem_runs r hr) _).1 hnp
    rw [hz] at hp
    obtain rfl := Option.some.inj hz
    exact not_contains_of_run h hapart hp (hcut z hp) hr hrz s hs hq
  · exact ((mem_loose h.reals_ordered).1 hv).2 ⟨s, hs, q, denotes_literal.1 hnp, hq⟩

/-- The sets of integers of an assembled union are more than a step apart. -/
theorem stepsApart_assemble (h : Parts reals integral)
    (hwf : ∀ n ∈ assemble reals integral literals, n.wellFormed = true) {m n : NumberSet}
    (hm : m ∈ assemble reals integral literals) (hn : n ∈ assemble reals integral literals)
    (hmi : m.isIntegral = true) (hni : n.isIntegral = true) :
    m = n ∨ (m.toRange.hi + one).value < n.toRange.lo.value ∨
      (n.toRange.hi + one).value < m.toRange.lo.value := by
  obtain ⟨r, hr, rfl⟩ := exists_run_of_isIntegral hm hmi
  obtain ⟨s, hs, rfl⟩ := exists_run_of_isIntegral hn hni
  have hstep : ∀ {a b : Range}, a ∈ runs reals integral literals → (ofRun a).toRange.Whole →
      (a.hi + one).value < b.lo.value →
        ((ofRun a).toRange.hi + one).value < (ofRun b).toRange.lo.value := by
    intro a b ha hof hlt
    rwa [value_add_one_congr hof.hi_whole (h.whole_of_mem_runs a ha).hi_whole (toRange_ofRun a).2,
      (toRange_ofRun b).1]
  rcases StableSort.eq_or_of_pairwise (pairwise_runs h) hr hs with rfl | hrs | hsr
  · exact Or.inl rfl
  · exact Or.inr (Or.inl (hstep hr (whole_toRange (hwf _ hm) hmi) hrs))
  · exact Or.inr (Or.inr (hstep hs (whole_toRange (hwf _ hn) hni) hsr))

end Assemble

/-! ## Normal canonical forms -/

variable {items : List NumberSet}

theorem pairwise_realRanges (hitems : ∀ n ∈ items, n.wellFormed = true) :
    (realRanges items).Pairwise fun a b => a.hi.value < b.lo.value := by
  have hord := @Range.ordered_merge Range.realsTouch _ (ordered_of_mem_reals hitems)
  refine (Range.pairwise_merge Range.realsTouch_mono (ordered_of_mem_reals hitems)).imp_of_mem
    fun ha hb hab => ?_
  rw [← Bool.not_eq_true, Range.realsTouch_iff, not_and, not_and] at hab
  exact not_le.1 (hab (hord _ hb).lo_number (hord _ ha).hi_number)

/-- Every real and NaN are not assembled, since together they are everything. -/
theorem isEverything_of_mem_assemble (hitems : ∀ n ∈ items, n.wellFormed = true)
    (hreal : interval .negInf .posInf ∈
      assemble (realRanges items) (items.filterMap integral?) (items.filterMap literal?))
    (hnan : literal .nan ∈
      assemble (realRanges items) (items.filterMap integral?) (items.filterMap literal?)) :
    isEverything items = true := by
  have h := parts_of_wellFormed hitems
  simp only [isEverything, Bool.or_eq_true, Bool.and_eq_true, List.any_eq_true, decide_eq_true_eq]
  refine Or.inr ⟨?_, ?_⟩
  · rcases cases_of_mem_assemble hreal with ⟨r, -, hr⟩ | ⟨r, hr, he⟩ | ⟨v, -, -, hr⟩
    · exact Bool.noConfusion ((congrArg isReal hr).trans (isReal_ofRun r))
    · refine ⟨r, hr, ?_, ?_⟩
      · rw [← Range.value_eq_bot (h.reals_ordered r hr).lo_number, ← value_unsignedZero,
          ← (interval.inj he).1]
        rfl
      · rw [← Range.value_eq_top (h.reals_ordered r hr).hi_number, ← value_unsignedZero,
          ← (interval.inj he).2]
        rfl
    · cases hr
  · rcases cases_of_mem_assemble hnan with ⟨r, hr, he⟩ | ⟨r, -, hr⟩ | ⟨v, hv, -, he⟩
    · have hnone : (literal .nan).Denotes none := rfl
      rw [he, denotes_ofRun (h.whole_of_mem_runs r hr)] at hnone
      obtain ⟨z, hz, -⟩ := hnone
      cases hz
    · cases hr
    · exact ⟨v, List.mem_of_mem_filter hv, by rw [← literal.inj he]; rfl⟩

/-- Do the steps by one from the cuts lead out of the real intervals? -/
def CutsLeave (items : List NumberSet) : Prop :=
  ∀ z, Unpassed (some (int z)) → ∀ s ∈ items.filterMap integral?,
    Range.CutsLeave z s.lo s.hi (realRanges items)

theorem unsigned_lo_of_mem_integral (hitems : ∀ n ∈ items, n.wellFormed = true) {r : Range}
    (hr : r ∈ items.filterMap integral?) : r.lo.unsignedZero = r.lo := by
  have hwf := hitems _ (mem_filterMap_integral?.1 hr)
  simp only [wellFormed, Bool.and_eq_true, properBounds_iff] at hwf
  exact hwf.2.2.1

theorem unsigned_hi_of_mem_integral (hitems : ∀ n ∈ items, n.wellFormed = true) {r : Range}
    (hr : r ∈ items.filterMap integral?) : r.hi.unsignedZero = r.hi := by
  have hwf := hitems _ (mem_filterMap_integral?.1 hr)
  simp only [wellFormed, Bool.and_eq_true, properBounds_iff] at hwf
  exact hwf.2.2.2

theorem separate_joined (hitems : ∀ n ∈ items, n.wellFormed = true)
    (hevery : isEverything items = false) (hcut : CutsLeave items) : Separate (joined items) := by
  have h := parts_of_wellFormed hitems
  have hapart := pairwise_realRanges hitems
  have hwf := fun n (hn : n ∈ joined items) => wellFormed_of_mem_joined hitems hn
  rw [joined, if_neg (Bool.eq_false_iff.1 hevery)] at hwf ⊢
  exact {
    sorted := sorted_assemble
    nodup := nodup_assemble h hapart fun r hr => (lt_of_mem_realRanges hitems r hr).2
    wellFormed := hwf
    unsigned := fun n hn =>
      identity_of_mem_assemble (fun r hr => unsigned_lo_of_mem_integral hitems hr) hn
    all_notMem := all_notMem_assemble
    proper := fun hreal hnan =>
      Bool.eq_false_iff.1 hevery (isEverything_of_mem_assemble hitems hreal hnan)
    realsApart := realsApart_assemble hapart
    avoidsReals := fun n hn hreal _ _ hmem p hp =>
      avoidsReals_assemble h hapart hcut hn hreal hmem hp
    stepsApart := fun m hm n hn => stepsApart_assemble h hwf hm hn }

theorem wellFormed_identity (n : NumberSet) : n.identity.wellFormed = n.wellFormed := by
  cases n <;> rfl

theorem normal_nil : Normal [] :=
  Or.inr ⟨List.Pairwise.nil, List.nodup_nil, by simp, by simp, by simp, by simp,
    by simp [RealsApart], by simp, by simp⟩

theorem normal_singleton {n : NumberSet} (hn : n.wellFormed = true) : Normal [n.identity] := by
  by_cases hall : n.identity = all
  · exact Or.inl (congrArg (fun m => [m]) hall)
  · refine Or.inr ⟨List.pairwise_singleton _ _, List.nodup_singleton _, ?_, ?_, ?_, ?_, ?_, ?_, ?_⟩
      <;> simp only [RealsApart, List.mem_singleton]
    · rintro m rfl
      rwa [wellFormed_identity]
    · rintro m rfl
      exact identity_identity n
    · exact Ne.symm hall
    · rintro h1 h2
      cases h1.trans h2.symm
    · rintro lo hi lo' hi' h h' - - -
      exact h.trans h'.symm
    · rintro _ rfl hreal lo hi h
      rw [← h] at hreal
      cases hreal
    · rintro _ rfl _ rfl _ _
      exact Or.inl rfl

/-- Canonical forms are normal if the steps from their cuts lead out of the real intervals. The
sign of zero aside, which only a list of a single literal keeps. -/
theorem normal_canonical_of_cutsLeave (hitems : ∀ n ∈ items, n.wellFormed = true)
    (hcut : CutsLeave items) : Normal ((canonical items).map identity) := by
  match items with
  | [] => exact normal_nil
  | [n] => exact normal_singleton (hitems n (List.mem_singleton_self n))
  | a :: b :: rest =>
    rw [canonical_eq_joined (by simp)]
    cases hevery : isEverything (a :: b :: rest) with
    | true =>
      rw [joined, if_pos hevery]
      exact Or.inl rfl
    | false =>
      have h := separate_joined hitems hevery hcut
      rw [List.map_congr_left h.unsigned, List.map_id']
      exact Or.inr h

/-! ## Steady unions -/

/-- Exact steps lead out of the real intervals. -/
theorem cutsLeave_of_within (hitems : ∀ n ∈ items, n.wellFormed = true)
    (hwithin : ∀ r ∈ realRanges items,
      r.lo.within (2 ^ 53 - 1) = true ∧ r.hi.within (2 ^ 53 - 1) = true) : CutsLeave items := by
  have hord := (parts_of_wellFormed hitems).reals_ordered
  intro z _ s _
  constructor
  · intro r hr _ _ _
    have hfirst := within_ceil (hwithin r hr).1
    exact (int_le_value_sub_one (hord r hr).isWhole_first hfirst z).1
  · intro r hr _ _ _
    have hlast := within_floor (hwithin r hr).2
    exact (value_add_one_le_int (hord r hr).isWhole_last hlast z).1

/-- Canonical forms are normal if their bounds leave room for steps by one. -/
theorem normal_canonical (hitems : ∀ n ∈ items, n.wellFormed = true)
    (hsteady : ∀ n ∈ canonical items, n.isSteady = true) :
    Normal ((canonical items).map identity) := by
  match items with
  | [] => exact normal_nil
  | [n] => exact normal_singleton (hitems n (List.mem_singleton_self n))
  | a :: b :: rest =>
    cases hevery : isEverything (a :: b :: rest) with
    | true =>
      rw [canonical_eq_joined (by simp), joined, if_pos hevery]
      exact Or.inl rfl
    | false =>
      refine normal_canonical_of_cutsLeave hitems (cutsLeave_of_within hitems fun r hr => ?_)
      rw [canonical_eq_joined (by simp), joined, if_neg (Bool.eq_false_iff.1 hevery)] at hsteady
      have hbound : 2 ^ 53 - 2 ≤ 2 ^ 53 - 1 := by norm_num
      have hsteady := hsteady _ (interval_mem_assemble hr)
      simp only [isSteady, within_unsignedZero, Bool.and_eq_true] at hsteady
      exact ⟨within_mono hbound hsteady.1, within_mono hbound hsteady.2⟩

end NumberSet

end FlowTypes
