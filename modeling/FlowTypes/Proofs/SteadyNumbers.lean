import FlowTypes.Proofs.NormalNumbers

/-!
# Steady sets of numbers stay steady

Among sets of numbers whose bounds leave room for exact steps by one, no step passes a point
(`resolved_of_isSteady`), so a canonical form has exactly the points of its union
(`denotes_canonical_of_isSteady`). The operations keep sets steady : canonical forms take their
bounds from the union, or one step from a real bound (`isSteady_canonical`), and a meet takes one
of the two bounds (`isSteady_meet`). Bounds of at most 52 bits are steady (`isSteady_of_isSmall`).
-/

namespace FlowTypes

open ExtendedRat Binary64

/-! ## Cuts -/

/-- A piece begins where the range does, or just after a real range. -/
theorem Range.lo_of_mem_outside {hi : Binary64} :
    ∀ {lo : Binary64} {reals : List Range}, ∀ r ∈ Range.outside lo hi reals,
      r.lo = lo ∨ ∃ s ∈ reals, r.lo = s.last + .one
  | lo, [], r, hr => by
    obtain ⟨rfl, -⟩ := mem_ofIntegers.1 hr
    exact Or.inl rfl
  | lo, real :: rest, r, hr => by
    have later : ∀ {lo' : Binary64}, (∃ s ∈ rest, r.lo = s.last + .one) →
        r.lo = lo' ∨ ∃ s ∈ real :: rest, r.lo = s.last + .one := by
      rintro lo' ⟨s, hs, he⟩
      exact Or.inr ⟨s, List.mem_cons_of_mem _ hs, he⟩
    rw [outside_cons] at hr
    split at hr
    · exact (lo_of_mem_outside r hr).elim Or.inl later
    · rcases List.mem_append.1 hr with hr | hr <;> split at hr
      · obtain ⟨rfl, -⟩ := mem_ofIntegers.1 hr
        exact Or.inl rfl
      · simp at hr
      · simp at hr
      · rcases lo_of_mem_outside r hr with he | h
        exacts [Or.inr ⟨real, List.mem_cons_self, he⟩, later h]

namespace NumberSet

/-- Are all finite bounds and literals at most `2^52` in magnitude? -/
def isSmall : NumberSet → Bool
  | all => true
  | literal v => v.within (2 ^ 52)
  | interval lo hi | integers lo hi => lo.within (2 ^ 52) && hi.within (2 ^ 52)

theorem isSteady_of_isSmall {n : NumberSet} (h : n.isSmall = true) : n.isSteady = true := by
  cases n with
  | all => rfl
  | literal v => exact within_mono (by norm_num) h
  | interval lo hi =>
    simp only [isSmall, isSteady, Bool.and_eq_true] at h ⊢
    exact ⟨within_mono (by norm_num) h.1, within_mono (by norm_num) h.2⟩
  | integers lo hi =>
    simp only [isSmall, isSteady, Bool.and_eq_true] at h ⊢
    exact ⟨within_mono (by norm_num) h.1, within_mono (by norm_num) h.2⟩

/-! ## Steps -/

/-- No step from a steady set passes a point. -/
theorem resolved_of_isSteady {items : List NumberSet} (hitems : ∀ n ∈ items, n.wellFormed = true)
    (hsteady : ∀ n ∈ items, n.isSteady = true) (p : Option ExtendedRat) : Resolved p items := by
  intro z _ n hn v hv
  refine soundStep_of_within (isWhole_of_mem_stepPoints (hitems n hn) hv) ?_ z
  have h := hsteady n hn
  have hwf := hitems n hn
  cases n with
  | all => simp [stepPoints] at hv
  | literal w =>
    simp only [stepPoints] at hv
    split at hv
    · rw [List.mem_singleton.1 hv, within_unsignedZero]
      exact h
    · simp at hv
  | interval lo hi =>
    simp only [isSteady, Bool.and_eq_true] at h
    have hceil := isWhole_ceil (lt_of_wellFormed_interval hwf).1
    simp only [stepPoints, List.mem_cons, List.not_mem_nil, or_false] at hv
    rcases hv with rfl | rfl | rfl
    · exact within_mono (by norm_num) (within_ceil h.1)
    · exact within_sub_one hceil (within_ceil h.1) (by norm_num)
    · exact within_mono (by norm_num) (within_floor h.2)
  | integers lo hi =>
    simp only [isSteady, Bool.and_eq_true] at h
    rw [List.mem_singleton.1 hv]
    exact h.2

variable {items : List NumberSet}

/-- The canonical form of steady sets has the points of the union. -/
theorem denotes_canonical_of_isSteady (hitems : ∀ n ∈ items, n.wellFormed = true)
    (hsteady : ∀ n ∈ items, n.isSteady = true) (p : Option ExtendedRat) :
    (∃ n ∈ canonical items, n.Denotes p) ↔ ∃ n ∈ items, n.Denotes p :=
  denotes_canonical hitems (resolved_of_isSteady hitems hsteady p)

/-! ## Canonical forms -/

/-- Are real bounds at most `bound` in magnitude, and integers and literals at most one more? -/
def isSteadyTo (bound : ℕ) : NumberSet → Bool
  | all => true
  | literal v => v.within (bound + 1)
  | interval lo hi => lo.within bound && hi.within bound
  | integers lo hi => lo.within (bound + 1) && hi.within (bound + 1)

theorem isSteadyTo_steady (n : NumberSet) : n.isSteadyTo (2 ^ 53 - 2) = n.isSteady := by
  cases n <;> rfl

variable {bound bound' : ℕ}

theorem isSteadyTo_mono (h : bound ≤ bound') {n : NumberSet} (hn : n.isSteadyTo bound = true) :
    n.isSteadyTo bound' = true := by
  cases n with
  | all => rfl
  | literal v => exact within_mono (Nat.succ_le_succ h) hn
  | interval lo hi =>
    simp only [isSteadyTo, Bool.and_eq_true] at hn ⊢
    exact ⟨within_mono h hn.1, within_mono h hn.2⟩
  | integers lo hi =>
    simp only [isSteadyTo, Bool.and_eq_true] at hn ⊢
    exact ⟨within_mono (Nat.succ_le_succ h) hn.1, within_mono (Nat.succ_le_succ h) hn.2⟩

theorem isSteady_of_isSteadyTo (hbound : bound + 2 ≤ 2 ^ 53) {n : NumberSet}
    (hn : n.isSteadyTo bound = true) : n.isSteady = true := by
  rw [← isSteadyTo_steady]
  exact isSteadyTo_mono (by omega) hn

theorem within_of_mem_realRanges (hsteady : ∀ n ∈ items, n.isSteadyTo bound = true) {r : Range}
    (hr : r ∈ realRanges items) : r.lo.within bound = true ∧ r.hi.within bound = true := by
  have hbounds : ∀ s ∈ items.filterMap reals?,
      s.lo.within bound = true ∧ s.hi.within bound = true := by
    intro s hs
    have h := hsteady _ (mem_filterMap_reals?.1 hs)
    simpa only [isSteadyTo, Bool.and_eq_true] using h
  obtain ⟨⟨s, hs, hlo⟩, t, ht, hhi⟩ := Range.bounds_of_mem_merge r hr
  rw [hlo, hhi]
  exact ⟨(hbounds s hs).1, (hbounds t ht).2⟩

/-- The pieces of steady sets begin and end at most one beyond their real bounds. -/
theorem within_of_mem_pieces (hbound : bound < 2 ^ 53)
    (hitems : ∀ n ∈ items, n.wellFormed = true)
    (hsteady : ∀ n ∈ items, n.isSteadyTo bound = true) {r : Range}
    (hr : r ∈ pieces (realRanges items) (items.filterMap integral?) (items.filterMap literal?)) :
    r.lo.within (bound + 1) = true ∧ r.hi.within (bound + 1) = true := by
  have hparts := parts_of_wellFormed hitems
  rcases mem_pieces.1 hr with ⟨s, hs, hr⟩ | ⟨v, hv, -, rfl⟩
  · have hbounds := hsteady _ (mem_filterMap_integral?.1 hs)
    simp only [isSteadyTo, Bool.and_eq_true] at hbounds
    constructor
    · rcases Range.lo_of_mem_outside r hr with he | ⟨t, ht, he⟩ <;> rw [he]
      · exact hbounds.1
      · have hlast := within_floor (within_of_mem_realRanges hsteady ht).2
        exact within_add_one (hparts.reals_ordered t ht).isWhole_last hlast hbound
    · rcases Range.hi_of_mem_outside r hr with he | ⟨t, ht, he⟩ <;> rw [he]
      · exact hbounds.2
      · have hfirst := within_ceil (within_of_mem_realRanges hsteady ht).1
        exact within_sub_one (hparts.reals_ordered t ht).isWhole_first hfirst hbound
  · have h := hsteady _ (mem_filterMap_literal?.1 (List.mem_of_mem_filter hv))
    rw [within_unsignedZero]
    exact ⟨h, h⟩

/-- The canonical form of steady sets is steady. -/
theorem isSteadyTo_canonical (hbound : bound < 2 ^ 53)
    (hitems : ∀ n ∈ items, n.wellFormed = true)
    (hsteady : ∀ n ∈ items, n.isSteadyTo bound = true) :
    ∀ n ∈ canonical items, n.isSteadyTo bound = true := by
  intro n hn
  match items with
  | [] => cases hn
  | [_] => exact hsteady n hn
  | a :: b :: rest =>
    rw [canonical_eq_joined (by simp), joined] at hn
    split at hn
    · rw [List.mem_singleton.1 hn]
      rfl
    · rcases cases_of_mem_assemble hn with ⟨r, hr, rfl⟩ | ⟨r, hr, rfl⟩ | ⟨v, hv, -, rfl⟩
      · obtain ⟨⟨s, hs, hlo⟩, t, ht, hhi⟩ := Range.bounds_of_mem_merge r hr
        have hlo' := hlo ▸ (within_of_mem_pieces hbound hitems hsteady hs).1
        have hhi' := hhi ▸ (within_of_mem_pieces hbound hitems hsteady ht).2
        unfold ofRun
        split
        · exact hlo'
        · simp only [isSteadyTo, within_unsignedZero, hlo', hhi', Bool.and_self]
      · obtain ⟨hlo, hhi⟩ := within_of_mem_realRanges hsteady hr
        simp only [isSteadyTo, within_unsignedZero, hlo, hhi, Bool.and_self]
      · exact hsteady _ (mem_filterMap_literal?.1 (List.mem_of_mem_filter hv))

theorem isSteady_canonical (hitems : ∀ n ∈ items, n.wellFormed = true)
    (hsteady : ∀ n ∈ items, n.isSteady = true) : ∀ n ∈ canonical items, n.isSteady = true := by
  simp only [← isSteadyTo_steady] at hsteady ⊢
  exact isSteadyTo_canonical (by norm_num) hitems hsteady

/-! ## Meets -/

theorem within_maxNumber {bound : ℕ} {a b : Binary64} (ha : a.within bound = true)
    (hb : b.within bound = true) : (a.maxNumber b).within bound = true := by
  unfold maxNumber
  split_ifs
  exacts [rfl, ha, hb, hb, ha]

theorem within_minNumber {bound : ℕ} {a b : Binary64} (ha : a.within bound = true)
    (hb : b.within bound = true) : (a.minNumber b).within bound = true := by
  unfold minNumber
  split_ifs
  exacts [rfl, ha, hb, ha, hb]

theorem isSteadyTo_interval? {lo hi : Binary64} (hlo : lo.within bound = true)
    (hhi : hi.within bound = true) {n : NumberSet} (hn : n ∈ interval? lo hi) :
    n.isSteadyTo bound = true := by
  unfold interval? at hn
  split at hn
  · split at hn <;> cases hn
    · exact within_mono (Nat.le_succ bound) hlo
    · simp only [isSteadyTo, within_unsignedZero, hlo, hhi, Bool.and_self]
  · cases hn

theorem isSteadyTo_integers? {lo hi : Binary64} (hlo : lo.within (bound + 1) = true)
    (hhi : hi.within (bound + 1) = true) {n : NumberSet} (hn : n ∈ integers? lo hi) :
    n.isSteadyTo bound = true := by
  have hlo' := within_ceil hlo
  have hhi' := within_floor hhi
  unfold integers? at hn
  simp only at hn
  split at hn
  · split at hn
    · split at hn <;> cases hn
      simp only [isSteadyTo, within_unsignedZero, hlo']
    · cases hn
      simp only [isSteadyTo, within_unsignedZero, hlo', hhi', Bool.and_self]
  · cases hn

theorem isSteady_interval? {lo hi : Binary64} (hlo : lo.within (2 ^ 53 - 2) = true)
    (hhi : hi.within (2 ^ 53 - 2) = true) {n : NumberSet} (hn : n ∈ interval? lo hi) :
    n.isSteady = true := by
  rw [← isSteadyTo_steady]
  exact isSteadyTo_interval? hlo hhi hn

theorem isSteady_integers? {lo hi : Binary64} (hlo : lo.within (2 ^ 53 - 1) = true)
    (hhi : hi.within (2 ^ 53 - 1) = true) {n : NumberSet} (hn : n ∈ integers? lo hi) :
    n.isSteady = true := by
  rw [← isSteadyTo_steady]
  exact isSteadyTo_integers? hlo hhi hn

theorem within_of_bounds? {n : NumberSet} (hn : n.isSteady = true) {lo hi : Binary64}
    (h : n.bounds? = some (lo, hi)) :
    lo.within (2 ^ 53 - 1) = true ∧ hi.within (2 ^ 53 - 1) = true := by
  cases n with
  | all => cases h
  | literal v => cases h
  | interval lo hi =>
    cases h
    have hends := Bool.and_eq_true_iff.1 hn
    exact hends.imp (within_mono (by norm_num)) (within_mono (by norm_num))
  | integers lo hi =>
    cases h
    exact Bool.and_eq_true_iff.1 hn

/-- The meet of steady sets is steady. -/
theorem isSteady_meet (lead : Side) {a b : NumberSet} (has : a.isSteady = true)
    (hbs : b.isSteady = true) {n : NumberSet} (hn : n ∈ a.meet lead b) : n.isSteady = true := by
  obtain rfl | rfl | ⟨lo, hi, lo', hi', rfl, rfl, hn⟩ | ⟨lo, hi, lo', hi', hbounds, hbounds', hn⟩ :=
    cases_of_mem_meet hn
  · exact has
  · exact hbs
  · obtain ⟨hlo, hhi⟩ := Bool.and_eq_true_iff.1 has
    obtain ⟨hlo', hhi'⟩ := Bool.and_eq_true_iff.1 hbs
    exact isSteady_interval? (within_maxNumber hlo hlo') (within_minNumber hhi hhi') hn
  · obtain ⟨hlo, hhi⟩ := within_of_bounds? has hbounds
    obtain ⟨hlo', hhi'⟩ := within_of_bounds? hbs hbounds'
    exact isSteady_integers? (within_maxNumber hlo hlo') (within_minNumber hhi hhi') hn

end NumberSet

end FlowTypes
