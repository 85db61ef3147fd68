import FlowTypes.NumberSet.Range
import FlowTypes.Proofs.Extended
import FlowTypes.Proofs.Sorting

/-!
# Merged and cut ranges

`Range.Contains` is membership of an extended rational in a range. `merge` keeps the points that
no touching pair of ranges jumps over (`contains_merge`) and leaves ranges that do not touch
(`pairwise_merge`). `outside` cuts real ranges out of a range of integers : every integer of the
range is in a piece or in a real range (`contains_outside`), and no integer is in both where the
steps from the cuts are strict (`not_contains_of_outside`).
-/

namespace FlowTypes

open ExtendedRat Binary64

namespace Range

/-- The points between the bounds. -/
def Contains (r : Range) (q : ExtendedRat) : Prop :=
  r.lo.value ≤ q ∧ q ≤ r.hi.value

/-- Bounds that are numbers, in ascending order. -/
structure Ordered (r : Range) : Prop where
  lo_number : r.lo.isNaN = false
  hi_number : r.hi.isNaN = false
  lo_le_hi : r.lo.value ≤ r.hi.value

/-! ## Ascending order -/

theorem startsFirst_total (a b : Range) : a.startsFirst b = true ∨ b.startsFirst a = true := by
  simp only [startsFirst, Bool.or_eq_true, Bool.and_eq_true, decide_eq_true_eq]
  omega

theorem startsFirst_trans (a b c : Range) (hab : a.startsFirst b = true)
    (hbc : b.startsFirst c = true) : a.startsFirst c = true := by
  simp only [startsFirst, Bool.or_eq_true, Bool.and_eq_true, decide_eq_true_eq] at *
  omega

theorem lo_le_lo_of_startsFirst {a b : Range} (ha : a.Ordered) (hb : b.Ordered)
    (h : a.startsFirst b = true) : a.lo.value ≤ b.lo.value := by
  rw [value_le_value ha.lo_number hb.lo_number]
  simp only [startsFirst, Bool.or_eq_true, Bool.and_eq_true, decide_eq_true_eq] at h
  omega

theorem pairwise_lo_sort {ranges : List Range} (h : ∀ r ∈ ranges, r.Ordered) :
    (StableSort.sort startsFirst ranges).Pairwise fun a b => a.lo.value ≤ b.lo.value := by
  refine (StableSort.pairwise_sort startsFirst_total startsFirst_trans ranges).imp_of_mem ?_
  intro a b ha hb hab
  exact lo_le_lo_of_startsFirst (h a (StableSort.mem_sort.1 ha))
    (h b (StableSort.mem_sort.1 hb)) hab

/-! ## Merging -/

variable {touches : Binary64 → Binary64 → Bool}

/-- The range that a merge goes on with when `next` touches `current`. -/
def extend (current next : Range) : Range :=
  if current.hi < next.hi then { current with hi := next.hi } else current

theorem mergeFrom_cons (current next : Range) (rest : List Range) :
    mergeFrom touches current (next :: rest) =
      if touches current.hi next.lo then mergeFrom touches (current.extend next) rest
      else current :: mergeFrom touches next rest := rfl

theorem extend_lo (current next : Range) : (current.extend next).lo = current.lo := by
  unfold extend
  split <;> rfl

theorem extend_hi (current next : Range) :
    (current.extend next).hi = current.hi ∨ (current.extend next).hi = next.hi := by
  unfold extend
  split
  · exact Or.inr rfl
  · exact Or.inl rfl

theorem hi_le_extend {current next : Range} (hc : current.Ordered) (hn : next.Ordered) :
    current.hi.value ≤ (current.extend next).hi.value ∧
      next.hi.value ≤ (current.extend next).hi.value := by
  unfold extend
  split
  · next h => exact ⟨(lt_iff_value.1 h).2.2.le, le_refl _⟩
  · next h =>
    rw [lt_iff_value] at h
    exact ⟨le_refl _, not_lt.1 fun hlt => h ⟨hc.hi_number, hn.hi_number, hlt⟩⟩

theorem Ordered.extend {current next : Range} (hc : current.Ordered) (hn : next.Ordered) :
    (current.extend next).Ordered := by
  refine ⟨by rw [extend_lo]; exact hc.lo_number, ?_, ?_⟩
  · rcases extend_hi current next with h | h <;> rw [h]
    exacts [hc.hi_number, hn.hi_number]
  · rw [extend_lo]
    exact hc.lo_le_hi.trans (hi_le_extend hc hn).1

theorem contains_extend {current next : Range} {q : ExtendedRat} (hc : current.Ordered)
    (hn : next.Ordered) (hlo : current.lo.value ≤ next.lo.value)
    (htouch : current.hi.value < q → next.lo.value ≤ q) :
    (current.extend next).Contains q ↔ current.Contains q ∨ next.Contains q := by
  obtain ⟨h1, h2⟩ := hi_le_extend hc hn
  simp only [Contains, extend_lo]
  constructor
  · rintro ⟨hl, hh⟩
    rcases le_or_gt q current.hi.value with hq | hq
    · exact Or.inl ⟨hl, hq⟩
    · refine Or.inr ⟨htouch hq, ?_⟩
      rcases extend_hi current next with he | he
      · rw [he] at hh
        exact absurd hq (not_lt.2 hh)
      · rwa [he] at hh
  · rintro (⟨hl, hh⟩ | ⟨hl, hh⟩)
    · exact ⟨hl, hh.trans h1⟩
    · exact ⟨hlo.trans hl, hh.trans h2⟩

/-- Merging neither adds nor drops a point that no touching pair jumps over. -/
theorem contains_mergeFrom {q : ExtendedRat} :
    ∀ (current : Range) (rest : List Range), (∀ r ∈ current :: rest, r.Ordered) →
      (current :: rest).Pairwise (fun a b => a.lo.value ≤ b.lo.value) →
      (∀ r ∈ current :: rest, ∀ s ∈ current :: rest, touches r.hi s.lo = true →
        r.hi.value < q → s.lo.value ≤ q) →
      ((∃ r ∈ mergeFrom touches current rest, r.Contains q) ↔
        ∃ r ∈ current :: rest, r.Contains q)
  | current, [], _, _, _ => Iff.rfl
  | current, next :: rest, hord, hsort, htouch => by
    have hc := hord current (by simp)
    have hn := hord next (by simp)
    obtain ⟨hlo, hsort'⟩ := List.pairwise_cons.1 hsort
    rw [mergeFrom_cons]
    split
    · next ht =>
      rw [contains_mergeFrom (current.extend next) rest ?_ ?_ ?_]
      · simp only [List.exists_mem_cons_iff, ← or_assoc]
        rw [contains_extend hc hn (hlo next (by simp))
          (htouch current (by simp) next (by simp) ht)]
      · intro r hr
        rcases List.mem_cons.1 hr with rfl | hr
        · exact hc.extend hn
        · exact hord r (by simp [hr])
      · refine List.pairwise_cons.2 ⟨fun r hr => ?_, hsort'.of_cons⟩
        rw [extend_lo]
        exact hlo r (by simp [hr])
      · -- Both bounds of the extended range are bounds of the two that it replaces.
        intro r hr s hs hrs
        obtain ⟨a, ha, hae⟩ : ∃ a ∈ current :: next :: rest, r.hi = a.hi := by
          rcases List.mem_cons.1 hr with rfl | hr
          · rcases extend_hi current next with he | he
            exacts [⟨current, by simp, he⟩, ⟨next, by simp, he⟩]
          · exact ⟨r, by simp [hr], rfl⟩
        obtain ⟨b, hb, hbe⟩ : ∃ b ∈ current :: next :: rest, s.lo = b.lo := by
          rcases List.mem_cons.1 hs with rfl | hs
          · exact ⟨current, by simp, extend_lo _ _⟩
          · exact ⟨s, by simp [hs], rfl⟩
        rw [hae, hbe] at hrs ⊢
        exact htouch a ha b hb hrs
    · have ih := contains_mergeFrom next rest (fun r hr => hord r (List.mem_cons_of_mem _ hr))
        hsort' fun r hr s hs =>
          htouch r (List.mem_cons_of_mem _ hr) s (List.mem_cons_of_mem _ hs)
      rw [List.exists_mem_cons_iff, ih]
      exact (List.exists_mem_cons_iff (fun r => r.Contains q) current (next :: rest)).symm

/-- What holds of all ranges, and of an extended one if it holds of its two parts, holds of all
merged ranges. -/
theorem forall_mem_mergeFrom {p : Range → Prop}
    (hextend : ∀ a b, p a → p b → p (a.extend b)) :
    ∀ (current : Range) (rest : List Range), (∀ r ∈ current :: rest, p r) →
      ∀ r ∈ mergeFrom touches current rest, p r
  | current, [], h => h
  | current, next :: rest, h => by
    rw [mergeFrom_cons]
    split
    · refine forall_mem_mergeFrom hextend (current.extend next) rest fun r hr => ?_
      rcases List.mem_cons.1 hr with rfl | hr
      · exact hextend _ _ (h current (by simp)) (h next (by simp))
      · exact h r (by simp [hr])
    · intro r hr
      rcases List.mem_cons.1 hr with rfl | hr
      · exact h r (by simp)
      · exact forall_mem_mergeFrom hextend next rest
          (fun r hr => h r (List.mem_cons_of_mem _ hr)) r hr

/-- Merged ranges do not touch: in ascending order, no range touches a later one. -/
theorem pairwise_mergeFrom
    (hmono : ∀ f s t : Binary64, s.isNaN = false → s.value ≤ t.value →
      touches f t = true → touches f s = true) :
    ∀ (current : Range) (rest : List Range), (∀ r ∈ current :: rest, r.Ordered) →
      (current :: rest).Pairwise (fun a b => a.lo.value ≤ b.lo.value) →
      (mergeFrom touches current rest).Pairwise fun a b => touches a.hi b.lo = false
  | current, [], _, _ => List.pairwise_singleton _ _
  | current, next :: rest, hord, hsort => by
    have hc := hord current (by simp)
    have hn := hord next (by simp)
    obtain ⟨hlo, hsort'⟩ := List.pairwise_cons.1 hsort
    rw [mergeFrom_cons]
    split
    · refine pairwise_mergeFrom hmono (current.extend next) rest (fun r hr => ?_) ?_
      · rcases List.mem_cons.1 hr with rfl | hr
        · exact hc.extend hn
        · exact hord r (by simp [hr])
      · refine List.pairwise_cons.2 ⟨fun r hr => ?_, hsort'.of_cons⟩
        rw [extend_lo]
        exact hlo r (by simp [hr])
    · next ht =>
      have hord' := fun r hr => hord r (List.mem_cons_of_mem _ hr)
      refine List.pairwise_cons.2 ⟨fun r hr => ?_, pairwise_mergeFrom hmono next rest hord' hsort'⟩
      -- Every later range begins where one of the given ones does, so not before `next`.
      have hge : next.lo.value ≤ r.lo.value := by
        refine forall_mem_mergeFrom (p := fun r => next.lo.value ≤ r.lo.value) ?_ next rest ?_ r hr
        · intro a b ha _
          rwa [extend_lo]
        · intro r hr
          rcases List.mem_cons.1 hr with rfl | hr
          · exact le_refl _
          · exact (List.pairwise_cons.1 hsort').1 r hr
      exact Bool.eq_false_iff.2 fun h => ht (hmono _ _ _ hn.lo_number hge h)

/-- Merging keeps the points of ordered ranges that no touching pair jumps over. -/
theorem contains_merge {ranges : List Range} {q : ExtendedRat} (hord : ∀ r ∈ ranges, r.Ordered)
    (htouch : ∀ r ∈ ranges, ∀ s ∈ ranges, touches r.hi s.lo = true →
      r.hi.value < q → s.lo.value ≤ q) :
    (∃ r ∈ merge touches ranges, r.Contains q) ↔ ∃ r ∈ ranges, r.Contains q := by
  have hmem : ∀ r, r ∈ StableSort.sort startsFirst ranges ↔ r ∈ ranges :=
    fun r => StableSort.mem_sort
  have hsort := pairwise_lo_sort hord
  unfold merge
  cases he : StableSort.sort startsFirst ranges with
  | nil => simp only [← hmem, he]
  | cons first rest =>
    rw [he] at hmem hsort
    simp only [← hmem]
    exact contains_mergeFrom first rest (fun r hr => hord r ((hmem r).1 hr)) hsort
      fun r hr s hs => htouch r ((hmem r).1 hr) s ((hmem s).1 hs)

theorem forall_mem_merge {p : Range → Prop} (hextend : ∀ a b, p a → p b → p (a.extend b))
    {ranges : List Range} (h : ∀ r ∈ ranges, p r) : ∀ r ∈ merge touches ranges, p r := by
  have hmem : ∀ r ∈ StableSort.sort startsFirst ranges, p r :=
    fun r hr => h r (StableSort.mem_sort.1 hr)
  unfold merge
  cases he : StableSort.sort startsFirst ranges with
  | nil => simp
  | cons first rest =>
    rw [he] at hmem
    exact forall_mem_mergeFrom hextend first rest hmem

/-- Both bounds of a merged range are bounds of given ones. -/
theorem bounds_of_mem_merge {ranges : List Range} :
    ∀ r ∈ merge touches ranges, (∃ s ∈ ranges, r.lo = s.lo) ∧ ∃ s ∈ ranges, r.hi = s.hi := by
  refine forall_mem_merge ?_ fun r hr => ⟨⟨r, hr, rfl⟩, r, hr, rfl⟩
  rintro a b ⟨halo, hahi⟩ ⟨-, hbhi⟩
  rw [extend_lo]
  refine ⟨halo, ?_⟩
  rcases extend_hi a b with h | h <;> rw [h]
  exacts [hahi, hbhi]

theorem ordered_merge {ranges : List Range} (h : ∀ r ∈ ranges, r.Ordered) :
    ∀ r ∈ merge touches ranges, r.Ordered :=
  forall_mem_merge (fun _ _ ha hb => ha.extend hb) h

/-- Merged ranges do not touch. -/
theorem pairwise_merge
    (hmono : ∀ f s t : Binary64, s.isNaN = false → s.value ≤ t.value →
      touches f t = true → touches f s = true)
    {ranges : List Range} (hord : ∀ r ∈ ranges, r.Ordered) :
    (merge touches ranges).Pairwise fun a b => touches a.hi b.lo = false := by
  have hsort := pairwise_lo_sort hord
  have hmem : ∀ r ∈ StableSort.sort startsFirst ranges, r.Ordered :=
    fun r hr => hord r (StableSort.mem_sort.1 hr)
  unfold merge
  cases he : StableSort.sort startsFirst ranges with
  | nil => exact List.Pairwise.nil
  | cons first rest =>
    rw [he] at hmem hsort
    exact pairwise_mergeFrom hmono first rest hmem hsort

/-! ## What touches -/

theorem realsTouch_iff {f s : Binary64} :
    realsTouch f s = true ↔ s.isNaN = false ∧ f.isNaN = false ∧ s.value ≤ f.value := by
  rw [realsTouch, decide_eq_true_eq, le_iff_value]

theorem integersTouch_iff {f s : Binary64} :
    integersTouch f s = true ↔
      s.isNaN = false ∧ (f + one).isNaN = false ∧ s.value ≤ (f + one).value := by
  rw [integersTouch, decide_eq_true_eq, le_iff_value]

theorem realsTouch_mono (f s t : Binary64) (hs : s.isNaN = false) (hst : s.value ≤ t.value)
    (h : realsTouch f t = true) : realsTouch f s = true := by
  rw [realsTouch_iff] at *
  exact ⟨hs, h.2.1, hst.trans h.2.2⟩

theorem integersTouch_mono (f s t : Binary64) (hs : s.isNaN = false) (hst : s.value ≤ t.value)
    (h : integersTouch f t = true) : integersTouch f s = true := by
  rw [integersTouch_iff] at *
  exact ⟨hs, h.2.1, hst.trans h.2.2⟩

/-- Merging real ranges keeps all points. -/
theorem contains_merge_reals {ranges : List Range} {q : ExtendedRat}
    (hord : ∀ r ∈ ranges, r.Ordered) :
    (∃ r ∈ merge realsTouch ranges, r.Contains q) ↔ ∃ r ∈ ranges, r.Contains q :=
  contains_merge hord fun _ _ _ _ ht hq => ((realsTouch_iff.1 ht).2.2.trans_lt hq).le

/-- Merging ranges of integers keeps the integers that no step from an upper bound passes. -/
theorem contains_merge_integers {ranges : List Range} {z : ℤ} (hord : ∀ r ∈ ranges, r.Ordered)
    (hstep : ∀ r ∈ ranges, r.hi.value < int z → (r.hi + one).value ≤ int z) :
    (∃ r ∈ merge integersTouch ranges, r.Contains (int z)) ↔ ∃ r ∈ ranges, r.Contains (int z) :=
  contains_merge hord fun r hr _ _ ht hz =>
    (integersTouch_iff.1 ht).2.2.trans (hstep r hr hz)

/-! ## Cutting -/

theorem mem_ofIntegers {lo hi : Binary64} {r : Range} :
    r ∈ ofIntegers lo hi ↔ r = ⟨lo, hi⟩ ∧ lo ≤ hi ∧ lo ≠ .posInf ∧ hi ≠ .negInf := by
  unfold ofIntegers
  split
  · next h =>
    simp only [Bool.and_eq_true, decide_eq_true_eq, bne_iff_ne] at h
    simp only [List.mem_singleton, h.1.1, h.1.2, h.2, ne_eq, not_false_iff, and_true]
  · next h =>
    simp only [Bool.and_eq_true, decide_eq_true_eq, bne_iff_ne, and_assoc] at h
    simp only [List.not_mem_nil, false_iff]
    exact fun h' => h h'.2

/-- A range of integers : whole bounds in ascending order, with an integer between them. -/
structure Whole (r : Range) : Prop where
  lo_whole : r.lo.isWhole = true
  hi_whole : r.hi.isWhole = true
  lo_le_hi : r.lo.value ≤ r.hi.value
  lo_ne_top : r.lo.value ≠ ⊤
  hi_ne_bot : r.hi.value ≠ ⊥

theorem Whole.ordered {r : Range} (h : r.Whole) : r.Ordered :=
  ⟨isNaN_of_isWhole h.lo_whole, isNaN_of_isWhole h.hi_whole, h.lo_le_hi⟩

theorem value_eq_top {v : Binary64} (hv : v.isNaN = false) : v.value = ⊤ ↔ v = .posInf := by
  cases v with
  | nan => simp [isNaN] at hv
  | infinity s => cases s <;> simp [value, posInf]
  | finite s m hm =>
    rw [value_finite rfl]
    exact ⟨fun h => absurd h (WithBotTop.coe_ne_top _), fun h => by cases h⟩

theorem value_eq_bot {v : Binary64} (hv : v.isNaN = false) : v.value = ⊥ ↔ v = .negInf := by
  cases v with
  | nan => simp [isNaN] at hv
  | infinity s => cases s <;> simp [value, negInf]
  | finite s m hm =>
    rw [value_finite rfl]
    exact ⟨fun h => absurd h (WithBotTop.coe_ne_bot _), fun h => by cases h⟩

/-- A range of integers holds one that is a double : one of the bounds, or zero between two
infinite ones. -/
theorem Whole.exists_integer {r : Range} (h : r.Whole) :
    ∃ x : Binary64, x.isInteger = true ∧ r.Contains x.value := by
  have hinfinite : ∀ v : Binary64, v.isWhole = true → v.isFinite = false →
      v.value = ⊥ ∨ v.value = ⊤ := by
    intro v hv hf
    cases v with
    | nan => simp [isWhole] at hv
    | finite s m hm => simp [isFinite] at hf
    | infinity s => cases s <;> simp [value]
  cases hlo : r.lo.isFinite with
  | true => exact ⟨r.lo, isInteger_of_isWhole h.lo_whole hlo, le_refl _, h.lo_le_hi⟩
  | false =>
    cases hhi : r.hi.isFinite with
    | true => exact ⟨r.hi, isInteger_of_isWhole h.hi_whole hhi, h.lo_le_hi, le_refl _⟩
    | false =>
      have hbot := (hinfinite r.lo h.lo_whole hlo).resolve_right h.lo_ne_top
      have htop := (hinfinite r.hi h.hi_whole hhi).resolve_left h.hi_ne_bot
      refine ⟨.zero, by decide +kernel, ?_⟩
      rw [Contains, hbot, htop]
      exact ⟨bot_le, le_top⟩

theorem whole_of_mem_ofIntegers {lo hi : Binary64} (hlo : lo.isWhole = true)
    (hhi : hi.isWhole = true) {r : Range} (h : r ∈ ofIntegers lo hi) : r.Whole := by
  obtain ⟨rfl, hle, htop, hbot⟩ := mem_ofIntegers.1 h
  exact ⟨hlo, hhi, (le_iff_value.1 hle).2.2, mt (value_eq_top (isNaN_of_isWhole hlo)).1 htop,
    mt (value_eq_bot (isNaN_of_isWhole hhi)).1 hbot⟩

/-- A range of integers that holds one is not left out. -/
theorem exists_mem_ofIntegers {lo hi : Binary64} {z : ℤ} (hlo : lo.isNaN = false)
    (hhi : hi.isNaN = false) (h1 : lo.value ≤ int z) (h2 : int z ≤ hi.value) :
    ∃ r ∈ ofIntegers lo hi, r.Contains (int z) := by
  refine ⟨⟨lo, hi⟩, mem_ofIntegers.2 ⟨rfl, le_iff_value.2 ⟨hlo, hhi, h1.trans h2⟩, ?_, ?_⟩, h1, h2⟩
  · rintro rfl
    exact absurd (rat_lt_top _) (not_lt.2 h1)
  · rintro rfl
    exact absurd (bot_lt_rat _) (not_lt.2 h2)

/-- The first integer of a real range. -/
def first (r : Range) : Binary64 := r.lo.ceil

/-- The last integer of a real range. -/
def last (r : Range) : Binary64 := r.hi.floor

theorem outside_cons (lo hi : Binary64) (real : Range) (rest : List Range) :
    outside lo hi (real :: rest) =
      if real.last < real.first || real.last < lo || hi < real.first then outside lo hi rest
      else (if lo < real.first then ofIntegers lo (real.first - .one) else []) ++
        if hi < real.last + .one then [] else outside (real.last + .one) hi rest := rfl

/-- Integers from `first` to `last` that are not skipped meet those from `lo` to `hi`. -/
theorem bounds_of_not_skipped {lo hi first last : Binary64} (hlo : lo.isWhole = true)
    (hhi : hi.isWhole = true) (hfirst : first.isWhole = true) (hlast : last.isWhole = true)
    (h : ¬(last < first || last < lo || hi < first) = true) :
    first.value ≤ last.value ∧ lo.value ≤ last.value ∧ first.value ≤ hi.value := by
  simpa only [Bool.or_eq_true, decide_eq_true_eq, not_or, lt_iff_value, not_and, not_lt,
    isNaN_of_isWhole hlo, isNaN_of_isWhole hhi, isNaN_of_isWhole hfirst,
    isNaN_of_isWhole hlast, true_imp_iff, and_assoc] using h

theorem Ordered.isWhole_first {r : Range} (h : r.Ordered) : r.first.isWhole = true :=
  isWhole_ceil h.lo_number

theorem Ordered.isWhole_last {r : Range} (h : r.Ordered) : r.last.isWhole = true :=
  isWhole_floor h.hi_number

/-- The integers of a real range are those from its first to its last. -/
theorem contains_int_iff (r : Range) (z : ℤ) :
    r.Contains (int z) ↔ r.first.value ≤ int z ∧ int z ≤ r.last.value := by
  rw [Contains, first, last, value_ceil_le_int, int_le_value_floor]

/-- The pieces are ranges of integers. -/
theorem whole_of_mem_outside {hi : Binary64} (hhi : hi.isWhole = true) :
    ∀ {lo : Binary64} {reals : List Range}, lo.isWhole = true → (∀ r ∈ reals, r.Ordered) →
      ∀ r ∈ outside lo hi reals, r.Whole
  | lo, [], hlo, _, r, hr => whole_of_mem_ofIntegers hlo hhi hr
  | lo, real :: rest, hlo, hreals, r, hr => by
    have hreal := hreals real (by simp)
    have hrest := fun r hr => hreals r (List.mem_cons_of_mem _ hr)
    rw [outside_cons] at hr
    split at hr
    · exact whole_of_mem_outside hhi hlo hrest r hr
    · rcases List.mem_append.1 hr with hr | hr <;> split at hr
      · exact whole_of_mem_ofIntegers hlo (isWhole_sub_one hreal.isWhole_first) hr
      · simp at hr
      · simp at hr
      · exact whole_of_mem_outside hhi (isWhole_add_one hreal.isWhole_last) hrest r hr

/-- A piece ends where the range does, or just before a real range. -/
theorem hi_of_mem_outside {hi : Binary64} :
    ∀ {lo : Binary64} {reals : List Range}, ∀ r ∈ outside lo hi reals,
      r.hi = hi ∨ ∃ s ∈ reals, r.hi = s.first - .one
  | lo, [], r, hr => by
    obtain ⟨rfl, -⟩ := mem_ofIntegers.1 hr
    exact Or.inl rfl
  | lo, real :: rest, r, hr => by
    have later : ∀ {lo'}, r ∈ outside lo' hi rest →
        r.hi = hi ∨ ∃ s ∈ real :: rest, r.hi = s.first - .one := by
      intro lo' h
      refine (hi_of_mem_outside r h).imp_right ?_
      rintro ⟨s, hs, he⟩
      exact ⟨s, List.mem_cons_of_mem _ hs, he⟩
    rw [outside_cons] at hr
    split at hr
    · exact later hr
    · rcases List.mem_append.1 hr with hr | hr <;> split at hr
      · obtain ⟨rfl, -⟩ := mem_ofIntegers.1 hr
        exact Or.inr ⟨real, by simp, rfl⟩
      · simp at hr
      · simp at hr
      · exact later hr

/-- The pieces lie in the range that is cut. -/
theorem bounds_of_mem_outside {hi : Binary64} (hhi : hi.isWhole = true) :
    ∀ {lo : Binary64} {reals : List Range}, lo.isWhole = true → (∀ r ∈ reals, r.Ordered) →
      ∀ r ∈ outside lo hi reals, lo.value ≤ r.lo.value ∧ r.hi.value ≤ hi.value
  | lo, [], hlo, _, r, hr => by
    obtain ⟨rfl, -⟩ := mem_ofIntegers.1 hr
    exact ⟨le_refl _, le_refl _⟩
  | lo, real :: rest, hlo, hreals, r, hr => by
    have hreal := hreals real (by simp)
    have hrest := fun r hr => hreals r (List.mem_cons_of_mem _ hr)
    have hfirst := hreal.isWhole_first
    have hlast := hreal.isWhole_last
    rw [outside_cons] at hr
    split at hr
    · exact bounds_of_mem_outside hhi hlo hrest r hr
    · next hcut =>
      obtain ⟨-, hlo', hhi'⟩ :=
        bounds_of_not_skipped hlo hhi hfirst hlast hcut
      rcases List.mem_append.1 hr with hr | hr <;> split at hr
      · obtain ⟨rfl, -⟩ := mem_ofIntegers.1 hr
        exact ⟨le_refl _, (value_sub_one_le hfirst).trans hhi'⟩
      · simp at hr
      · simp at hr
      · obtain ⟨h1, h2⟩ := bounds_of_mem_outside hhi (isWhole_add_one hlast) hrest r hr
        exact ⟨(hlo'.trans (le_value_add_one hlast)).trans h1, h2⟩

/-- The steps by one that cut real ranges out of the integers from `lo` to `hi` do not pass the
integer. A step down is taken only from a real range with integers that begins among them. -/
structure CutsStop (z : ℤ) (lo hi : Binary64) (reals : List Range) : Prop where
  down : ∀ r ∈ reals, r.first.value ≤ r.last.value → lo.value < r.first.value →
    r.first.value ≤ hi.value → int z < r.first.value → int z ≤ (r.first - one).value
  up : ∀ r ∈ reals, r.last.value < int z → (r.last + one).value ≤ int z

theorem CutsStop.tail {z : ℤ} {lo lo' hi : Binary64} {real : Range} {rest : List Range}
    (h : CutsStop z lo hi (real :: rest)) (hlo : lo.value ≤ lo'.value) :
    CutsStop z lo' hi rest where
  down r hr hle hlt := h.down r (List.mem_cons_of_mem _ hr) hle (hlo.trans_lt hlt)
  up r hr := h.up r (List.mem_cons_of_mem _ hr)

/-- Every integer of the range is in a piece or in a real range. -/
theorem contains_outside {hi : Binary64} (hhi : hi.isWhole = true) {z : ℤ}
    (hz : int z ≤ hi.value) :
    ∀ {lo : Binary64} {reals : List Range}, lo.isWhole = true → (∀ r ∈ reals, r.Ordered) →
      CutsStop z lo hi reals → lo.value ≤ int z →
      (∃ r ∈ outside lo hi reals, r.Contains (int z)) ∨ ∃ r ∈ reals, r.Contains (int z)
  | lo, [], hlo, _, _, h =>
    Or.inl (exists_mem_ofIntegers (isNaN_of_isWhole hlo) (isNaN_of_isWhole hhi) h hz)
  | lo, real :: rest, hlo, hreals, hstep, h => by
    have hreal := hreals real (by simp)
    have hrest := fun r hr => hreals r (List.mem_cons_of_mem _ hr)
    have hfirst := hreal.isWhole_first
    have hlast := hreal.isWhole_last
    have later : ∀ {lo'}, lo'.isWhole = true → lo.value ≤ lo'.value → lo'.value ≤ int z →
        (∃ r ∈ outside lo' hi rest, r.Contains (int z)) ∨
          ∃ r ∈ real :: rest, r.Contains (int z) := by
      intro lo' hlo' hle h'
      refine (contains_outside hhi hz hlo' hrest (hstep.tail hle) h').imp_right ?_
      rintro ⟨r, hr, hrz⟩
      exact ⟨r, List.mem_cons_of_mem _ hr, hrz⟩
    rw [outside_cons]
    split
    · exact later hlo (le_refl _) h
    · next hcut =>
      obtain ⟨hle, hlo', hhi'⟩ :=
        bounds_of_not_skipped hlo hhi hfirst hlast hcut
      simp only [List.mem_append, or_and_right, exists_or]
      rcases lt_or_ge (int z) real.first.value with hbefore | hfrom
      · have hlt : lo.value < real.first.value := h.trans_lt hbefore
        rw [if_pos (lt_iff_value.2 ⟨isNaN_of_isWhole hlo, isNaN_of_isWhole hfirst, hlt⟩)]
        have hstop := hstep.down real (by simp) hle hlt hhi' hbefore
        exact Or.inl (Or.inl (exists_mem_ofIntegers (isNaN_of_isWhole hlo)
          (isNaN_of_isWhole (isWhole_sub_one hfirst)) h hstop))
      · rcases le_or_gt (int z) real.last.value with hin | hafter
        · exact Or.inr ⟨real, by simp, (contains_int_iff real z).2 ⟨hfrom, hin⟩⟩
        · have hnext := hstep.up real (by simp) hafter
          have hge : ¬ hi < real.last + one := fun hlt =>
            absurd (lt_iff_value.1 hlt).2.2 (not_lt.2 (hnext.trans hz))
          rw [if_neg hge]
          rcases later (isWhole_add_one hlast) (hlo'.trans (le_value_add_one hlast)) hnext with
            h' | h'
          · exact Or.inl (Or.inr h')
          · exact Or.inr h'

/-- The steps by one that cut real ranges out of the integers from `lo` to `hi` leave those
ranges, as far as the integer shows. -/
structure CutsLeave (z : ℤ) (lo hi : Binary64) (reals : List Range) : Prop where
  before : ∀ r ∈ reals, r.first.value ≤ r.last.value → lo.value < r.first.value →
    r.first.value ≤ hi.value → int z ≤ (r.first - one).value → int z < r.first.value
  after : ∀ r ∈ reals, r.first.value ≤ r.last.value → lo.value ≤ r.last.value →
    (r.last + one).value ≤ hi.value → (r.last + one).value ≤ int z → r.last.value < int z

theorem CutsLeave.tail {z : ℤ} {lo lo' hi : Binary64} {real : Range} {rest : List Range}
    (h : CutsLeave z lo hi (real :: rest)) (hlo : lo.value ≤ lo'.value) :
    CutsLeave z lo' hi rest where
  before r hr hne hlt := h.before r (List.mem_cons_of_mem _ hr) hne (hlo.trans_lt hlt)
  after r hr hne hle := h.after r (List.mem_cons_of_mem _ hr) hne (hlo.trans hle)

/-- No integer of a piece is in a real range, where the steps from the cuts are strict. -/
theorem not_contains_of_outside {hi : Binary64} (hhi : hi.isWhole = true) {z : ℤ} :
    ∀ {lo : Binary64} {reals : List Range}, lo.isWhole = true → (∀ r ∈ reals, r.Ordered) →
      reals.Pairwise (fun a b => a.hi.value < b.lo.value) → CutsLeave z lo hi reals →
      ∀ p ∈ outside lo hi reals, p.Contains (int z) → ∀ r ∈ reals, ¬r.Contains (int z)
  | lo, [], _, _, _, _, _, _, _ => by simp
  | lo, real :: rest, hlo, hreals, hsort, hcut, p, hp, hpz => by
    have hreal := hreals real (by simp)
    have hrest := fun r hr => hreals r (List.mem_cons_of_mem _ hr)
    obtain ⟨hafter, hsort'⟩ := List.pairwise_cons.1 hsort
    have hfirst := hreal.isWhole_first
    have hlast := hreal.isWhole_last
    rw [outside_cons] at hp
    rw [List.forall_mem_cons]
    split at hp
    · next hskip =>
      refine ⟨fun hz => ?_,
        not_contains_of_outside hhi hlo hrest hsort' (hcut.tail (le_refl _)) p hp hpz⟩
      obtain ⟨h1, h2⟩ := (contains_int_iff real z).1 hz
      obtain ⟨hplo, hphi⟩ := bounds_of_mem_outside hhi hlo hrest p hp
      simp only [Bool.or_eq_true, decide_eq_true_eq, lt_iff_value] at hskip
      rcases hskip with (⟨-, -, h⟩ | ⟨-, -, h⟩) | ⟨-, -, h⟩
      · exact absurd h (not_lt.2 (h1.trans h2))
      · exact absurd h (not_lt.2 ((hplo.trans hpz.1).trans h2))
      · exact absurd h (not_lt.2 ((h1.trans hpz.2).trans hphi))
    · next hmeet =>
      obtain ⟨hle, hlo', hhi'⟩ :=
        bounds_of_not_skipped hlo hhi hfirst hlast hmeet
      rcases List.mem_append.1 hp with hp | hp <;> split at hp
      · -- A piece before the real range is before all later ones.
        next hlt =>
        obtain ⟨rfl, -⟩ := mem_ofIntegers.1 hp
        have hleft := hcut.before real (by simp) hle (lt_iff_value.1 hlt).2.2 hhi' hpz.2
        have hz : int z < real.lo.value := not_le.1 fun h =>
          absurd hleft (not_lt.2 ((value_ceil_le_int _ _).2 h))
        refine ⟨fun h => absurd h.1 (not_le.2 hz), fun r hr h => ?_⟩
        exact absurd h.1 (not_le.2 ((hz.trans_le hreal.lo_le_hi).trans (hafter r hr)))
      · simp at hp
      · simp at hp
      · next hmore =>
        have hnext := isWhole_add_one hlast
        obtain ⟨hplo, -⟩ := bounds_of_mem_outside hhi hnext hrest p hp
        simp only [lt_iff_value, isNaN_of_isWhole hhi, isNaN_of_isWhole hnext, true_and,
          not_lt] at hmore
        refine ⟨fun h => ?_, not_contains_of_outside hhi hnext hrest hsort'
          (hcut.tail (hlo'.trans (le_value_add_one hlast))) p hp hpz⟩
        exact absurd (hcut.after real (by simp) hle hlo' hmore (hplo.trans hpz.1))
          (not_lt.2 ((contains_int_iff real z).1 h).2)

end Range

end FlowTypes
