import FlowTypes.Proofs.NumberMembership

/-!
# Canonical unions of numbers keep their points

`NumberSet.canonical` cuts and joins ranges with rounded steps by one. The points at which it
steps are listed by `stepPoints`, and `Resolved p items` says that none of those steps passes the
point `p`. Every double is such a point (`resolved_exact`), whatever the size of the bounds.

`denotes_canonical` : a resolved point is in the canonical form exactly if it is in one of the
given sets. `has_canonical` is the same for doubles, with no condition. A canonical form is
well-formed (`wellFormed_of_mem_canonical`).
-/

namespace FlowTypes

open ExtendedRat Binary64

/-- A partial inverse of `g` selects the elements that are values of `g`. -/
theorem mem_filterMap_of_inverse {α β : Type} {f : α → Option β} (g : β → α) {b : β}
    (h : ∀ a, f a = some b ↔ a = g b) {items : List α} : b ∈ items.filterMap f ↔ g b ∈ items := by
  simp [List.mem_filterMap, h]

namespace NumberSet

/-! ## Points and runs -/

/-- The literals of `points` are the given numbers, each of them once. -/
theorem denotes_points (vs : List Binary64) (p : Option ExtendedRat) :
    (∃ n ∈ points vs, n.Denotes p) ↔ ∃ v ∈ vs, v.exact = p := by
  simp only [points, List.mem_map, exists_exists_and_eq_and, denotes_literal]
  constructor
  · rintro ⟨v, hv, rfl⟩
    exact ⟨v, StableSort.mem_sort.1 ((StableSort.dropRepeats_sublist _).mem hv), rfl⟩
  · rintro ⟨v, hv, rfl⟩
    obtain ⟨w, hw, hsame⟩ := StableSort.exists_same_dropRepeats
      (fun a : Binary64 => same_iff.2 (rfl : a.unsignedZero = _)) (StableSort.mem_sort.2 hv)
    exact ⟨w, hw, (same_iff_exact.1 hsame).symm⟩

/-- A run of one integer becomes a literal, a longer one an interval. -/
theorem denotes_run {run : Range} (hrun : run.Whole) (p : Option ExtendedRat) :
    (∃ n ∈ ofRun? run, n.Denotes p) ∨ (∃ v ∈ ofSingleRun? run, v.exact = p) ↔
      ∃ z, p = some (int z) ∧ run.Contains (int z) := by
  have hlo := isNaN_of_isWhole hrun.lo_whole
  have hhi := isNaN_of_isWhole hrun.hi_whole
  unfold ofRun? ofSingleRun?
  split
  · next h =>
    simp only [Bool.and_eq_true, decide_eq_true_eq, le_iff_value] at h
    have heq : run.lo.value = run.hi.value := le_antisymm h.1.2.2 h.2.2.2
    have hf : run.lo.isFinite = true := by
      cases hv : run.lo with
      | nan => rw [hv] at hlo; simp [isNaN] at hlo
      | infinity s =>
        cases s
        · exact absurd (by rw [hv]; rfl) hrun.lo_ne_top
        · exact absurd (by rw [← heq, hv]; rfl) hrun.hi_ne_bot
      | finite s m hm => rfl
    obtain ⟨k, hk⟩ := (isInteger_iff_value.1 (isInteger_of_isWhole hrun.lo_whole hf)).2
    simp only [Option.not_mem_none, false_and, exists_false, false_or, Option.mem_some_iff,
      exists_eq_left', exact_eq_some.2 ⟨hlo, rfl⟩, Range.Contains, ← heq, hk]
    constructor
    · rintro rfl
      exact ⟨k, rfl, le_refl _, le_refl _⟩
    · rintro ⟨z, rfl, h1, h2⟩
      rw [le_antisymm h1 h2]
  · simp only [Option.not_mem_none, false_and, exists_false, or_false, Option.mem_some_iff,
      exists_eq_left', Denotes, value_unsignedZero, Range.Contains]

theorem denotes_runs {runs : List Range} (hruns : ∀ r ∈ runs, r.Whole) (p : Option ExtendedRat) :
    (∃ n ∈ runs.filterMap ofRun?, n.Denotes p) ∨ (∃ v ∈ runs.filterMap ofSingleRun?, v.exact = p) ↔
      ∃ z, p = some (int z) ∧ ∃ r ∈ runs, r.Contains (int z) := by
  constructor
  · rintro (⟨n, hn, hp⟩ | ⟨v, hv, hp⟩)
    · obtain ⟨r, hr, hnr⟩ := List.mem_filterMap.1 hn
      obtain ⟨z, hz, hrz⟩ := (denotes_run (hruns r hr) p).1 (Or.inl ⟨n, hnr, hp⟩)
      exact ⟨z, hz, r, hr, hrz⟩
    · obtain ⟨r, hr, hvr⟩ := List.mem_filterMap.1 hv
      obtain ⟨z, hz, hrz⟩ := (denotes_run (hruns r hr) p).1 (Or.inr ⟨v, hvr, hp⟩)
      exact ⟨z, hz, r, hr, hrz⟩
  · rintro ⟨z, hz, r, hr, hrz⟩
    rcases (denotes_run (hruns r hr) p).2 ⟨z, hz, hrz⟩ with ⟨n, hn, hp⟩ | ⟨v, hv, hp⟩
    · exact Or.inl ⟨n, List.mem_filterMap.2 ⟨r, hr, hn⟩, hp⟩
    · exact Or.inr ⟨v, List.mem_filterMap.2 ⟨r, hr, hv⟩, hp⟩

/-! ## Pieces of integers -/

/-- The literals outside the reals. -/
def loose (reals : List Range) (literals : List Binary64) : List Binary64 :=
  literals.filter fun v => !reals.any (·.has v)

/-- The ranges of integers that `assemble` joins into runs : what the reals leave of the
intervals, and the integers among the literals outside the reals. -/
def pieces (reals integral : List Range) (literals : List Binary64) : List Range :=
  integral.flatMap (fun r => Range.outside r.lo r.hi reals) ++
    (((loose reals literals).filter Binary64.isInteger).map Binary64.unsignedZero).map
      fun v => ⟨v, v⟩

/-- The runs of integers outside the reals. -/
def runs (reals integral : List Range) (literals : List Binary64) : List Range :=
  Range.merge Range.integersTouch (pieces reals integral literals)

theorem mem_assemble {reals integral : List Range} {literals : List Binary64} {n : NumberSet} :
    n ∈ assemble reals integral literals ↔
      n ∈ (runs reals integral literals).filterMap ofRun? ∨
      (∃ r ∈ reals, n = interval r.lo.unsignedZero r.hi.unsignedZero) ∨
      n ∈ points ((loose reals literals).filter (!·.isInteger) ++
        (runs reals integral literals).filterMap ofSingleRun?) := by
  change n ∈ StableSort.sort _ (_ ++ _ ++ _) ↔ _
  rw [StableSort.mem_sort, List.mem_append, List.mem_append, or_assoc]
  simp only [List.mem_map, eq_comm (a := n)]
  rfl

theorem mem_pieces {reals integral : List Range} {literals : List Binary64} {r : Range} :
    r ∈ pieces reals integral literals ↔
      (∃ s ∈ integral, r ∈ Range.outside s.lo s.hi reals) ∨
      ∃ v ∈ loose reals literals, v.isInteger = true ∧ r = ⟨v.unsignedZero, v.unsignedZero⟩ := by
  rw [pieces, List.map_map, List.mem_append, List.mem_flatMap, List.mem_map]
  simp only [List.mem_filter, and_assoc, Function.comp_apply, eq_comm (a := r)]

theorem mem_loose {reals : List Range} {literals : List Binary64}
    (hreals : ∀ r ∈ reals, r.Ordered) {v : Binary64} :
    v ∈ loose reals literals ↔
      v ∈ literals ∧ ¬∃ r ∈ reals, ∃ q, v.exact = some q ∧ r.Contains q := by
  simp only [loose, List.mem_filter, Bool.not_eq_true', List.any_eq_false, Bool.not_eq_true,
    not_exists, not_and]
  refine and_congr_right fun _ => forall₂_congr fun r hr => ?_
  have hord := hreals r hr
  rw [← Bool.not_eq_true, Range.has, Bool.and_eq_true, decide_eq_true_eq, decide_eq_true_eq,
    le_iff_value, le_iff_value]
  simp only [hord.lo_number, hord.hi_number, true_and, exact_eq_some, Range.Contains]
  constructor
  · rintro h q ⟨hv, rfl⟩ ⟨h1, h2⟩
    exact h ⟨⟨hv, h1⟩, hv, h2⟩
  · rintro h ⟨⟨hv, h1⟩, -, h2⟩
    exact h _ ⟨hv, rfl⟩ ⟨h1, h2⟩

/-- The range of one integer. -/
theorem whole_singleton {v : Binary64} (hv : v.isInteger = true) :
    Range.Whole ⟨v.unsignedZero, v.unsignedZero⟩ := by
  obtain ⟨hf, z, hz⟩ := isInteger_iff_value.1 hv
  have hw : v.unsignedZero.isWhole = true := by
    rw [isWhole_unsignedZero]
    exact isWhole_of_isInteger hv
  refine ⟨hw, hw, le_refl _, ?_, ?_⟩
  · simp only [value_unsignedZero, hz]
    exact WithBotTop.coe_ne_top _
  · simp only [value_unsignedZero, hz]
    exact WithBotTop.coe_ne_bot _

theorem whole_of_mem_pieces {reals integral : List Range} {literals : List Binary64}
    (hreals : ∀ r ∈ reals, r.Ordered)
    (hint : ∀ r ∈ integral, r.lo.isWhole = true ∧ r.hi.isWhole = true) :
    ∀ r ∈ pieces reals integral literals, r.Whole := by
  intro r hr
  rcases mem_pieces.1 hr with ⟨s, hs, hr⟩ | ⟨v, -, hv, rfl⟩
  · exact Range.whole_of_mem_outside (hint s hs).2 (hint s hs).1 hreals r hr
  · exact whole_singleton hv

theorem whole_of_mem_runs {reals integral : List Range} {literals : List Binary64}
    (hreals : ∀ r ∈ reals, r.Ordered)
    (hint : ∀ r ∈ integral, r.lo.isWhole = true ∧ r.hi.isWhole = true) :
    ∀ r ∈ runs reals integral literals, r.Whole := by
  refine Range.forall_mem_merge ?_ (whole_of_mem_pieces hreals hint)
  intro a b ha hb
  have hord := ha.ordered.extend hb.ordered
  have hlo := Range.extend_lo a b
  have hle := (Range.hi_le_extend ha.ordered hb.ordered).1
  refine ⟨by rw [hlo]; exact ha.lo_whole, ?_, hord.lo_le_hi, by rw [hlo]; exact ha.lo_ne_top, ?_⟩
  · rcases Range.extend_hi a b with h | h <;> rw [h]
    exacts [ha.hi_whole, hb.hi_whole]
  · rcases Range.extend_hi a b with h | h <;> rw [h]
    exacts [ha.hi_ne_bot, hb.hi_ne_bot]

/-! ## Steps -/

/-- The doubles from which the canonical form steps by one on behalf of a set. -/
def stepPoints : NumberSet → List Binary64
  | all => []
  | literal v => if v.isInteger then [v.unsignedZero] else []
  | interval lo hi => [lo.ceil, lo.ceil - .one, hi.floor]
  | integers _ hi => [hi]

/-- No step by one that the canonical form of `items` takes passes the point. -/
def Resolved (p : Option ExtendedRat) (items : List NumberSet) : Prop :=
  ∀ z, p = some (int z) → ∀ n ∈ items, ∀ v ∈ n.stepPoints, SoundStep z v

theorem isWhole_of_mem_stepPoints {n : NumberSet} (hn : n.wellFormed = true) {v : Binary64}
    (hv : v ∈ n.stepPoints) : v.isWhole = true := by
  cases n with
  | all => simp [stepPoints] at hv
  | literal w =>
    simp only [stepPoints] at hv
    split at hv
    · next hw =>
      rw [List.mem_singleton.1 hv, isWhole_unsignedZero]
      exact isWhole_of_isInteger hw
    · simp at hv
  | interval lo hi =>
    obtain ⟨hlo, hhi, -⟩ := lt_of_wellFormed_interval hn
    simp only [stepPoints, List.mem_cons, List.not_mem_nil, or_false] at hv
    rcases hv with rfl | rfl | rfl
    · exact isWhole_ceil hlo
    · exact isWhole_sub_one (isWhole_ceil hlo)
    · exact isWhole_floor hhi
  | integers lo hi =>
    rw [List.mem_singleton.1 hv]
    exact (whole_of_wellFormed_integers hn).2.1

/-- No step passes a double, however large the bounds are. -/
theorem resolved_exact (x : Binary64) {items : List NumberSet}
    (hitems : ∀ n ∈ items, n.wellFormed = true) : Resolved x.exact items :=
  fun _ hz n hn _ hv => soundStep_of_exact hz (isWhole_of_mem_stepPoints (hitems n hn) hv)

/-! ## Joining and cutting -/

section Assemble

variable {reals integral : List Range} {literals : List Binary64}

/-- The parts that `assemble` is given are ranges of their kinds. -/
structure Parts (reals integral : List Range) : Prop where
  reals_ordered : ∀ r ∈ reals, r.Ordered
  lo_whole : ∀ r ∈ integral, r.lo.isWhole = true
  hi_whole : ∀ r ∈ integral, r.hi.isWhole = true

theorem Parts.whole_of_mem_pieces (h : Parts reals integral) :
    ∀ r ∈ pieces reals integral literals, r.Whole :=
  NumberSet.whole_of_mem_pieces h.reals_ordered fun r hr => ⟨h.lo_whole r hr, h.hi_whole r hr⟩

theorem Parts.whole_of_mem_runs (h : Parts reals integral) :
    ∀ r ∈ runs reals integral literals, r.Whole :=
  NumberSet.whole_of_mem_runs h.reals_ordered fun r hr => ⟨h.lo_whole r hr, h.hi_whole r hr⟩

/-- No step of `assemble` passes the integer. -/
structure Passable (z : ℤ) (reals integral : List Range) (literals : List Binary64) : Prop where
  first : ∀ r ∈ reals, SoundStep z r.first
  before : ∀ r ∈ reals, SoundStep z (r.first - one)
  last : ∀ r ∈ reals, SoundStep z r.last
  hi : ∀ r ∈ integral, SoundStep z r.hi
  literal : ∀ v ∈ literals, v.isInteger = true → SoundStep z v.unsignedZero

/-- No step up from a piece passes a passable integer. -/
theorem Passable.up_pieces {z : ℤ} (hz : Passable z reals integral literals) :
    ∀ r ∈ pieces reals integral literals, r.hi.value < int z → (r.hi + one).value ≤ int z := by
  intro r hr
  rcases mem_pieces.1 hr with ⟨s, hs, hr⟩ | ⟨v, hv, hvi, rfl⟩
  · rcases Range.hi_of_mem_outside r hr with he | ⟨t, ht, he⟩ <;> rw [he]
    exacts [(hz.hi s hs).up, (hz.before t ht).up]
  · exact (hz.literal v (List.mem_of_mem_filter hv) hvi).up

theorem contains_runs (h : Parts reals integral) {z : ℤ}
    (hz : ∀ r ∈ pieces reals integral literals, r.hi.value < int z → (r.hi + one).value ≤ int z) :
    (∃ r ∈ runs reals integral literals, r.Contains (int z)) ↔
      ∃ r ∈ pieces reals integral literals, r.Contains (int z) :=
  Range.contains_merge_integers (fun r hr => (h.whole_of_mem_pieces r hr).ordered) hz

/-- An integer of a piece is in a range of integers, or a literal. -/
theorem contains_of_pieces (h : Parts reals integral) {z : ℤ}
    (hz : ∃ r ∈ pieces reals integral literals, r.Contains (int z)) :
    (∃ r ∈ integral, r.Contains (int z)) ∨
      ∃ v ∈ loose reals literals, v.isInteger = true ∧ v.value = int z := by
  obtain ⟨r, hr, hrz⟩ := hz
  rcases mem_pieces.1 hr with ⟨s, hs, hr⟩ | ⟨v, hv, hvi, rfl⟩
  · obtain ⟨h1, h2⟩ := Range.bounds_of_mem_outside (h.hi_whole s hs) (h.lo_whole s hs)
      h.reals_ordered r hr
    exact Or.inl ⟨s, hs, h1.trans hrz.1, hrz.2.trans h2⟩
  · refine Or.inr ⟨v, hv, hvi, ?_⟩
    simpa only [Range.Contains, value_unsignedZero, ← le_antisymm_iff] using hrz

/-- An integer is in a piece or in a real range if it is in a range of integers, in a real range or
a literal. -/
theorem contains_pieces (h : Parts reals integral) {z : ℤ}
    (hz : ∀ s ∈ integral, Range.CutsStop z s.lo s.hi reals) :
    (∃ r ∈ pieces reals integral literals, r.Contains (int z)) ∨
        (∃ r ∈ reals, r.Contains (int z)) ↔
      (∃ r ∈ integral, r.Contains (int z)) ∨ (∃ r ∈ reals, r.Contains (int z)) ∨
        ∃ v ∈ loose reals literals, v.isInteger = true ∧ v.value = int z := by
  constructor
  · rintro (hpiece | hreal)
    · exact (contains_of_pieces h hpiece).imp_right Or.inr
    · exact Or.inr (Or.inl hreal)
  · rintro (⟨s, hs, hsz⟩ | hreal | ⟨v, hv, hvi, hvz⟩)
    · refine (Range.contains_outside (h.hi_whole s hs) hsz.2 (h.lo_whole s hs) h.reals_ordered
        (hz s hs) hsz.1).imp_left ?_
      rintro ⟨r, hr, hrz⟩
      exact ⟨r, mem_pieces.2 (Or.inl ⟨s, hs, hr⟩), hrz⟩
    · exact Or.inr hreal
    · refine Or.inl ⟨_, mem_pieces.2 (Or.inr ⟨v, hv, hvi, rfl⟩), ?_⟩
      rw [Range.Contains, value_unsignedZero, hvz]
      exact ⟨le_refl _, le_refl _⟩

/-- The integer is in a run or in a real range exactly if it is in a range of integers, in a real
range or a literal. -/
def KeepsInteger (z : ℤ) (reals integral : List Range) (literals : List Binary64) : Prop :=
  (∃ r ∈ runs reals integral literals, r.Contains (int z)) ∨ (∃ r ∈ reals, r.Contains (int z)) ↔
    (∃ r ∈ integral, r.Contains (int z)) ∨ (∃ r ∈ reals, r.Contains (int z)) ∨
      ∃ v ∈ loose reals literals, v.isInteger = true ∧ v.value = int z

theorem keepsInteger_of_steps (h : Parts reals integral) {z : ℤ}
    (hcut : ∀ s ∈ integral, Range.CutsStop z s.lo s.hi reals)
    (hmerge : ∀ r ∈ pieces reals integral literals,
      r.hi.value < int z → (r.hi + one).value ≤ int z) :
    KeepsInteger z reals integral literals := by
  rw [KeepsInteger, contains_runs h hmerge, contains_pieces h hcut]

theorem Passable.keepsInteger (h : Parts reals integral) {z : ℤ}
    (hz : Passable z reals integral literals) : KeepsInteger z reals integral literals := by
  refine keepsInteger_of_steps h (fun s _ => ⟨fun r hr _ _ _ => ?_, fun r hr => ?_⟩) hz.up_pieces
  · exact (hz.first r hr).down
  · exact (hz.last r hr).up

/-- What is assembled holds the points of the runs, the real ranges and the loose literals. -/
theorem denotes_assemble_runs (h : Parts reals integral) (p : Option ExtendedRat) :
    (∃ n ∈ assemble reals integral literals, n.Denotes p) ↔
      (∃ z, p = some (int z) ∧ ∃ r ∈ runs reals integral literals, r.Contains (int z)) ∨
        (∃ r ∈ reals, ∃ q, p = some q ∧ r.Contains q) ∨
          ∃ v ∈ loose reals literals, v.isInteger = false ∧ v.exact = p := by
  rw [← denotes_runs h.whole_of_mem_runs p]
  simp only [mem_assemble, or_and_right, exists_or, denotes_points, List.mem_append,
    List.mem_filter, Bool.not_eq_true', and_assoc]
  have hreals : (∃ n, (∃ r ∈ reals, n = interval r.lo.unsignedZero r.hi.unsignedZero) ∧
      n.Denotes p) ↔ ∃ r ∈ reals, ∃ q, p = some q ∧ r.Contains q := by
    constructor
    · rintro ⟨n, ⟨r, hr, rfl⟩, hp⟩
      refine ⟨r, hr, ?_⟩
      simpa only [denotes_interval, Range.Contains, value_unsignedZero] using hp
    · rintro ⟨r, hr, hp⟩
      refine ⟨_, ⟨r, hr, rfl⟩, ?_⟩
      simpa only [denotes_interval, Range.Contains, value_unsignedZero] using hp
  rw [hreals, or_assoc]
  refine or_congr_right ?_
  rw [← or_assoc, or_comm]

/-- What is assembled holds points of its parts only, where the runs hold such integers only. -/
theorem denotes_of_assemble (h : Parts reals integral) {p : Option ExtendedRat}
    (hp : ∀ z, p = some (int z) → (∃ r ∈ runs reals integral literals, r.Contains (int z)) →
      (∃ r ∈ integral, r.Contains (int z)) ∨ (∃ r ∈ reals, r.Contains (int z)) ∨
        ∃ v ∈ loose reals literals, v.isInteger = true ∧ v.value = int z)
    (hmem : ∃ n ∈ assemble reals integral literals, n.Denotes p) :
    (∃ r ∈ integral, ∃ z, p = some (int z) ∧ r.Contains (int z)) ∨
      (∃ r ∈ reals, ∃ q, p = some q ∧ r.Contains q) ∨ ∃ v ∈ literals, v.exact = p := by
  rcases (denotes_assemble_runs h p).1 hmem with ⟨z, rfl, hrun⟩ | hreal | ⟨v, hv, -, hvp⟩
  · rcases hp z rfl hrun with ⟨r, hr, hrz⟩ | ⟨r, hr, hrz⟩ | ⟨v, hv, hvi, hvz⟩
    · exact Or.inl ⟨r, hr, z, rfl, hrz⟩
    · exact Or.inr (Or.inl ⟨r, hr, _, rfl, hrz⟩)
    · refine Or.inr (Or.inr ⟨v, List.mem_of_mem_filter hv, exact_eq_some.2 ⟨?_, hvz⟩⟩)
      exact isNaN_of_isFinite (isFinite_of_isInteger hvi)
  · exact Or.inr (Or.inl hreal)
  · exact Or.inr (Or.inr ⟨v, List.mem_of_mem_filter hv, hvp⟩)

/-- What is assembled holds the points of its parts. -/
theorem denotes_assemble (h : Parts reals integral) {p : Option ExtendedRat}
    (hp : ∀ z, p = some (int z) → KeepsInteger z reals integral literals) :
    (∃ n ∈ assemble reals integral literals, n.Denotes p) ↔
      (∃ r ∈ integral, ∃ z, p = some (int z) ∧ r.Contains (int z)) ∨
        (∃ r ∈ reals, ∃ q, p = some q ∧ r.Contains q) ∨ ∃ v ∈ literals, v.exact = p := by
  refine ⟨denotes_of_assemble h fun z hz hrun => (hp z hz).1 (Or.inl hrun), ?_⟩
  rw [denotes_assemble_runs h]
  -- An integer point of a part is in a real range or in a run.
  have ofInteger : ∀ {z}, p = some (int z) →
      (∃ r ∈ integral, r.Contains (int z)) ∨ (∃ r ∈ reals, r.Contains (int z)) ∨
        (∃ v ∈ loose reals literals, v.isInteger = true ∧ v.value = int z) →
      (∃ z, p = some (int z) ∧ ∃ r ∈ runs reals integral literals, r.Contains (int z)) ∨
        (∃ r ∈ reals, ∃ q, p = some q ∧ r.Contains q) ∨
          ∃ v ∈ loose reals literals, v.isInteger = false ∧ v.exact = p := by
    intro z hpz hz
    rcases (hp z hpz).2 hz with hrun | ⟨r, hr, hrz⟩
    · exact Or.inl ⟨z, hpz, hrun⟩
    · exact Or.inr (Or.inl ⟨r, hr, _, hpz, hrz⟩)
  rintro (⟨r, hr, z, rfl, hrz⟩ | hreal | ⟨v, hv, hvp⟩)
  · exact ofInteger rfl (Or.inl ⟨r, hr, hrz⟩)
  · exact Or.inr (Or.inl hreal)
  · by_cases hloose : v ∈ loose reals literals
    · cases hvi : v.isInteger with
      | false => exact Or.inr (Or.inr ⟨v, hloose, hvi, hvp⟩)
      | true =>
        obtain ⟨-, z, hz⟩ := isInteger_iff_value.1 hvi
        have hvz : p = some (int z) := by
          rw [← hvp, exact_eq_some.2 ⟨isNaN_of_isFinite (isFinite_of_isInteger hvi), hz⟩]
        exact ofInteger hvz (Or.inr (Or.inr ⟨v, hloose, hvi, hz⟩))
    · rw [mem_loose h.reals_ordered, not_and_not_right] at hloose
      obtain ⟨r, hr, q, hq, hrq⟩ := hloose hv
      exact Or.inr (Or.inl ⟨r, hr, q, hvp ▸ hq, hrq⟩)

end Assemble

/-! ## Canonical forms -/

/-- The real ranges of a union, joined. -/
def realRanges (items : List NumberSet) : List Range :=
  Range.merge Range.realsTouch (items.filterMap reals?)

/-- Does a union hold `all`, or every real and NaN? -/
def isEverything (items : List NumberSet) : Bool :=
  items.any (· = all) ||
    (realRanges items).any (fun r => r.lo = .negInf && r.hi = .posInf) &&
      (items.filterMap literal?).any (·.isNaN)

/-- The canonical form of a union of two sets or more. -/
def joined (items : List NumberSet) : List NumberSet :=
  if isEverything items then [all]
  else assemble (realRanges items) (items.filterMap integral?) (items.filterMap literal?)

theorem canonical_eq_joined {items : List NumberSet} (h : 2 ≤ items.length) :
    canonical items = joined items := by
  match items, h with
  | a :: b :: rest, _ =>
    simp only [canonical, joined, isEverything, realRanges, Bool.or_eq_true, Bool.and_eq_true]
    split
    · next h => simp only [h, true_or, if_true]
    · next h => simp only [h, Bool.false_eq_true, false_or]

theorem mem_filterMap_reals? {items : List NumberSet} {r : Range} :
    r ∈ items.filterMap reals? ↔ interval r.lo r.hi ∈ items :=
  mem_filterMap_of_inverse (fun r : Range => interval r.lo r.hi) fun n => by
    cases n <;> cases r <;> simp [reals?]

theorem mem_filterMap_integral? {items : List NumberSet} {r : Range} :
    r ∈ items.filterMap integral? ↔ integers r.lo r.hi ∈ items :=
  mem_filterMap_of_inverse (fun r : Range => integers r.lo r.hi) fun n => by
    cases n <;> cases r <;> simp [integral?]

theorem mem_filterMap_literal? {items : List NumberSet} {v : Binary64} :
    v ∈ items.filterMap literal? ↔ literal v ∈ items :=
  mem_filterMap_of_inverse literal fun n => by cases n <;> simp [literal?]

variable {items : List NumberSet}

theorem ordered_of_mem_reals (hitems : ∀ n ∈ items, n.wellFormed = true) :
    ∀ r ∈ items.filterMap reals?, r.Ordered := by
  intro r hr
  obtain ⟨hlo, hhi, hlt⟩ := lt_of_wellFormed_interval (hitems _ (mem_filterMap_reals?.1 hr))
  exact ⟨hlo, hhi, hlt.le⟩

theorem parts_of_wellFormed (hitems : ∀ n ∈ items, n.wellFormed = true) :
    Parts (realRanges items) (items.filterMap integral?) where
  reals_ordered := Range.ordered_merge (ordered_of_mem_reals hitems)
  lo_whole _ hr := (whole_of_wellFormed_integers (hitems _ (mem_filterMap_integral?.1 hr))).1
  hi_whole _ hr := (whole_of_wellFormed_integers (hitems _ (mem_filterMap_integral?.1 hr))).2.1

theorem contains_realRanges (hitems : ∀ n ∈ items, n.wellFormed = true) (q : ExtendedRat) :
    (∃ r ∈ realRanges items, r.Contains q) ↔
      ∃ lo hi, interval lo hi ∈ items ∧ Range.Contains ⟨lo, hi⟩ q := by
  rw [realRanges, Range.contains_merge_reals (ordered_of_mem_reals hitems)]
  constructor
  · rintro ⟨r, hr, hq⟩
    exact ⟨r.lo, r.hi, mem_filterMap_reals?.1 hr, hq⟩
  · rintro ⟨lo, hi, h, hq⟩
    exact ⟨⟨lo, hi⟩, mem_filterMap_reals?.2 h, hq⟩

/-- The steps of `assemble` start from the step points of the sets. -/
theorem passable_of_resolved {p : Option ExtendedRat} (hp : Resolved p items) {z : ℤ}
    (hz : p = some (int z)) :
    Passable z (realRanges items) (items.filterMap integral?) (items.filterMap literal?) := by
  have hlo : ∀ r ∈ realRanges items, ∃ lo hi, interval lo hi ∈ items ∧ r.lo = lo := by
    intro r hr
    obtain ⟨⟨s, hs, he⟩, -⟩ := Range.bounds_of_mem_merge r hr
    exact ⟨s.lo, s.hi, mem_filterMap_reals?.1 hs, he⟩
  constructor
  · intro r hr
    obtain ⟨lo, hi, hn, he⟩ := hlo r hr
    rw [Range.first, he]
    exact hp z hz _ hn _ (by simp [stepPoints])
  · intro r hr
    obtain ⟨lo, hi, hn, he⟩ := hlo r hr
    rw [Range.first, he]
    exact hp z hz _ hn _ (by simp [stepPoints])
  · intro r hr
    obtain ⟨-, s, hs, he⟩ := Range.bounds_of_mem_merge r hr
    rw [Range.last, he]
    exact hp z hz _ (mem_filterMap_reals?.1 hs) _ (by simp [stepPoints])
  · intro r hr
    exact hp z hz _ (mem_filterMap_integral?.1 hr) _ (by simp [stepPoints])
  · intro v hv hvi
    exact hp z hz _ (mem_filterMap_literal?.1 hv) _ (by simp [stepPoints, hvi])

/-- A union of everything has every point. -/
theorem denotes_of_isEverything (hitems : ∀ n ∈ items, n.wellFormed = true)
    (h : isEverything items = true) (p : Option ExtendedRat) : ∃ n ∈ items, n.Denotes p := by
  simp only [isEverything, Bool.or_eq_true, Bool.and_eq_true, List.any_eq_true,
    decide_eq_true_eq] at h
  rcases h with ⟨n, hn, rfl⟩ | ⟨⟨r, hr, hlo, hhi⟩, v, hv, hnan⟩
  · exact ⟨_, hn, trivial⟩
  · cases p with
    | none => exact ⟨_, mem_filterMap_literal?.1 hv, exact_eq_none.2 hnan⟩
    | some q =>
      have hq : r.Contains q := by
        rw [Range.Contains, hlo, hhi]
        exact ⟨bot_le, le_top⟩
      obtain ⟨lo, hi, hn, hq⟩ := (contains_realRanges hitems q).1 ⟨r, hr, hq⟩
      exact ⟨_, hn, q, rfl, hq⟩

/-- Without `all`, the points of a union are those of its ranges and literals. -/
theorem denotes_parts (hitems : ∀ n ∈ items, n.wellFormed = true) (hall : all ∉ items)
    (p : Option ExtendedRat) :
    ((∃ r ∈ items.filterMap integral?, ∃ z, p = some (int z) ∧ r.Contains (int z)) ∨
        (∃ r ∈ realRanges items, ∃ q, p = some q ∧ r.Contains q) ∨
          ∃ v ∈ items.filterMap literal?, v.exact = p) ↔
      ∃ n ∈ items, n.Denotes p := by
  constructor
  · rintro (⟨r, hr, hz⟩ | ⟨r, hr, q, rfl, hq⟩ | ⟨v, hv, hp⟩)
    · exact ⟨_, mem_filterMap_integral?.1 hr, hz⟩
    · obtain ⟨lo, hi, hn, hq⟩ := (contains_realRanges hitems q).1 ⟨r, hr, hq⟩
      exact ⟨_, hn, q, rfl, hq⟩
    · exact ⟨_, mem_filterMap_literal?.1 hv, hp⟩
  · rintro ⟨n, hn, hp⟩
    cases n with
    | all => exact absurd hn hall
    | literal v => exact Or.inr (Or.inr ⟨v, mem_filterMap_literal?.2 hn, hp⟩)
    | interval lo hi =>
      obtain ⟨q, rfl, hq⟩ := hp
      obtain ⟨r, hr, hrq⟩ := (contains_realRanges hitems q).2 ⟨lo, hi, hn, hq⟩
      exact Or.inr (Or.inl ⟨r, hr, q, rfl, hrq⟩)
    | integers lo hi => exact Or.inl ⟨⟨lo, hi⟩, mem_filterMap_integral?.2 hn, hp⟩

theorem all_notMem_of_not_isEverything (h : ¬isEverything items = true) : all ∉ items := by
  intro hmem
  refine h ?_
  simp only [isEverything, Bool.or_eq_true, List.any_eq_true, decide_eq_true_eq]
  exact Or.inl ⟨all, hmem, rfl⟩

theorem denotes_joined (hitems : ∀ n ∈ items, n.wellFormed = true) {p : Option ExtendedRat}
    (hp : ∀ z, p = some (int z) →
      KeepsInteger z (realRanges items) (items.filterMap integral?) (items.filterMap literal?)) :
    (∃ n ∈ joined items, n.Denotes p) ↔ ∃ n ∈ items, n.Denotes p := by
  unfold joined
  split
  · next h =>
    simp only [denotes_of_isEverything hitems h p, iff_true]
    exact ⟨all, by simp, trivial⟩
  · next h =>
    rw [denotes_assemble (parts_of_wellFormed hitems) hp,
      denotes_parts hitems (all_notMem_of_not_isEverything h)]

/-- The canonical form has the points of the union, but for integers that are not kept. -/
theorem denotes_canonical_of_keeps (hitems : ∀ n ∈ items, n.wellFormed = true)
    {p : Option ExtendedRat} (hp : ∀ z, p = some (int z) →
      KeepsInteger z (realRanges items) (items.filterMap integral?) (items.filterMap literal?)) :
    (∃ n ∈ canonical items, n.Denotes p) ↔ ∃ n ∈ items, n.Denotes p := by
  match items with
  | [] => rfl
  | [_] => rfl
  | _ :: _ :: _ =>
    rw [canonical_eq_joined (by simp)]
    exact denotes_joined hitems hp

/-- The canonical form adds no point to the union, where the joined runs add no integer. -/
theorem denotes_of_canonical (hitems : ∀ n ∈ items, n.wellFormed = true) {p : Option ExtendedRat}
    (hp : ∀ z, p = some (int z) → ∀ r ∈ pieces (realRanges items) (items.filterMap integral?)
      (items.filterMap literal?), r.hi.value < int z → (r.hi + one).value ≤ int z)
    (hmem : ∃ n ∈ canonical items, n.Denotes p) : ∃ n ∈ items, n.Denotes p := by
  rcases items with _ | ⟨a, _ | ⟨b, rest⟩⟩
  · exact hmem
  · exact hmem
  · have hparts := parts_of_wellFormed hitems
    rw [canonical_eq_joined (by simp), joined] at hmem
    split at hmem
    · next h => exact denotes_of_isEverything hitems h p
    · next h =>
      refine (denotes_parts hitems (all_notMem_of_not_isEverything h) p).1 ?_
      refine denotes_of_assemble hparts (fun z hz hrun => ?_) hmem
      exact (contains_of_pieces hparts ((contains_runs hparts (hp z hz)).1 hrun)).imp_right Or.inr

/-- The canonical form has the points of the union, as far as no step passes them. -/
theorem denotes_canonical (hitems : ∀ n ∈ items, n.wellFormed = true) {p : Option ExtendedRat}
    (hp : Resolved p items) :
    (∃ n ∈ canonical items, n.Denotes p) ↔ ∃ n ∈ items, n.Denotes p :=
  denotes_canonical_of_keeps hitems fun _ hz =>
    (passable_of_resolved hp hz).keepsInteger (parts_of_wellFormed hitems)

/-! ## Well-formed canonical forms -/

theorem wellFormed_of_mem_points {vs : List Binary64} {n : NumberSet} (h : n ∈ points vs) :
    n.wellFormed = true := by
  obtain ⟨v, -, rfl⟩ := List.mem_map.1 h
  rfl

theorem wellFormed_ofRun? {run : Range} (hrun : run.Whole) {n : NumberSet} (h : n ∈ ofRun? run) :
    n.wellFormed = true := by
  have hlo := isNaN_of_isWhole hrun.lo_whole
  have hhi := isNaN_of_isWhole hrun.hi_whole
  unfold ofRun? at h
  split at h <;> cases h
  next hne =>
  simp only [Bool.and_eq_true, decide_eq_true_eq, le_iff_value, hlo, hhi, hrun.lo_le_hi,
    true_and] at hne
  simp only [wellFormed, isWhole_unsignedZero, hrun.lo_whole, hrun.hi_whole, Bool.true_and]
  exact properBounds_unsignedZero hlo hhi (not_le.1 hne)

/-- Real ranges that are joined stay longer than a point. -/
theorem lt_of_mem_realRanges (hitems : ∀ n ∈ items, n.wellFormed = true) :
    ∀ r ∈ realRanges items, r.Ordered ∧ r.lo.value < r.hi.value := by
  refine Range.forall_mem_merge ?_ fun r hr => ⟨ordered_of_mem_reals hitems r hr, ?_⟩
  · rintro a b ⟨ha, halt⟩ ⟨hb, -⟩
    refine ⟨ha.extend hb, ?_⟩
    rw [Range.extend_lo]
    exact halt.trans_le (Range.hi_le_extend ha hb).1
  · exact (lt_of_wellFormed_interval (hitems _ (mem_filterMap_reals?.1 hr))).2.2

theorem wellFormed_of_mem_joined (hitems : ∀ n ∈ items, n.wellFormed = true) {n : NumberSet}
    (hn : n ∈ joined items) : n.wellFormed = true := by
  have hparts := parts_of_wellFormed hitems
  unfold joined at hn
  split at hn
  · rw [List.mem_singleton.1 hn]
    rfl
  · rcases mem_assemble.1 hn with hn | ⟨r, hr, rfl⟩ | hn
    · obtain ⟨run, hrun, hn⟩ := List.mem_filterMap.1 hn
      exact wellFormed_ofRun? (hparts.whole_of_mem_runs run hrun) hn
    · obtain ⟨hord, hlt⟩ := lt_of_mem_realRanges hitems r hr
      exact properBounds_unsignedZero hord.lo_number hord.hi_number hlt
    · exact wellFormed_of_mem_points hn

/-- Canonical forms of well-formed sets are well-formed. -/
theorem wellFormed_of_mem_canonical (hitems : ∀ n ∈ items, n.wellFormed = true) {n : NumberSet}
    (hn : n ∈ canonical items) : n.wellFormed = true := by
  match items with
  | [] => simp [canonical] at hn
  | [_] => exact hitems n hn
  | _ :: _ :: _ =>
    rw [canonical_eq_joined (by simp)] at hn
    exact wellFormed_of_mem_joined hitems hn

/-- The canonical form of a union has its doubles, whatever the bounds. -/
theorem has_canonical (hitems : ∀ n ∈ items, n.wellFormed = true) (x : Binary64) :
    (∃ n ∈ canonical items, n.has x = true) ↔ ∃ n ∈ items, n.has x = true := by
  have h := denotes_canonical hitems (resolved_exact x hitems)
  constructor
  · rintro ⟨n, hn, hx⟩
    obtain ⟨m, hm, hmx⟩ :=
      h.1 ⟨n, hn, (has_iff_denotes (wellFormed_of_mem_canonical hitems hn) x).1 hx⟩
    exact ⟨m, hm, (has_iff_denotes (hitems m hm) x).2 hmx⟩
  · rintro ⟨n, hn, hx⟩
    obtain ⟨m, hm, hmx⟩ := h.2 ⟨n, hn, (has_iff_denotes (hitems n hn) x).1 hx⟩
    exact ⟨m, hm, (has_iff_denotes (wellFormed_of_mem_canonical hitems hm) x).2 hmx⟩

/-! ## Meets with a set -/

theorem wellFormed_of_mem_meets {n : NumberSet} (hn : n.wellFormed = true)
    (hitems : ∀ m ∈ items, m.wellFormed = true) :
    ∀ k ∈ items.filterMap (meet .left · n), k.wellFormed = true := by
  intro k hk
  obtain ⟨m, hm, hk⟩ := List.mem_filterMap.1 hk
  exact wellFormed_meet .left (hitems m hm) hn hk

/-- The parts of a set in several others hold the points that it shares with them. -/
theorem denotes_meets {n : NumberSet} (hn : n.wellFormed = true)
    (hitems : ∀ m ∈ items, m.wellFormed = true) (p : Option ExtendedRat) :
    (∃ k ∈ items.filterMap (meet .left · n), k.Denotes p) ↔
      (∃ m ∈ items, m.Denotes p) ∧ n.Denotes p := by
  constructor
  · rintro ⟨k, hk, hp⟩
    obtain ⟨m, hm, hk⟩ := List.mem_filterMap.1 hk
    obtain ⟨hmp, hnp⟩ := (denotes_meet .left (hitems m hm) hn p).1 ⟨k, hk, hp⟩
    exact ⟨⟨m, hm, hmp⟩, hnp⟩
  · rintro ⟨⟨m, hm, hmp⟩, hnp⟩
    obtain ⟨k, hk, hp⟩ := (denotes_meet .left (hitems m hm) hn p).2 ⟨hmp, hnp⟩
    exact ⟨k, List.mem_filterMap.2 ⟨m, hm, hk⟩, hp⟩

end NumberSet

end FlowTypes
