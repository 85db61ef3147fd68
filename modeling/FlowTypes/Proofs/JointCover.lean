import FlowTypes.Proofs.NormalNumbers

/-!
# Cover of sets of numbers, whatever their bounds

A set of numbers is covered by the sets of a canonical form, by one of them or jointly, exactly if
they hold its unpassed points (`covered_iff_unpassed`). Its bounds may be of any size.
-/

namespace FlowTypes

open ExtendedRat Binary64

namespace NumberSet

variable {items : List NumberSet}

/-! ## The points of canonical forms -/

/-- Do the steps by one to the cuts pass no unpassed integer? -/
def CutsStop (items : List NumberSet) : Prop :=
  ∀ z, Unpassed (some (int z)) → ∀ s ∈ items.filterMap integral?, ∀ r ∈ realRanges items,
    r.first.value ≤ r.last.value → s.lo.value < r.first.value → r.first.value ≤ s.hi.value →
      int z < r.first.value → int z ≤ (r.first - one).value

/-- A canonical form has the unpassed points of the union if the steps to its cuts pass none. -/
theorem sameUnpassed_canonical (hitems : ∀ n ∈ items, n.wellFormed = true)
    (hstop : CutsStop items) : SameUnpassed (canonical items) items := by
  have hparts := parts_of_wellFormed hitems
  intro p hp
  refine denotes_canonical_of_keeps hitems fun z hz => ?_
  rw [hz] at hp
  have hup := unpassed_int.1 hp
  refine keepsInteger_of_steps hparts
    (fun s hs => ⟨fun r hr => hstop z hp s hs r hr, fun r hr => ?_⟩) fun r hr => ?_
  · exact hup _ (hparts.reals_ordered r hr).isWhole_last
  · exact hup _ (hparts.whole_of_mem_pieces r hr).hi_whole

/-- A canonical form has no other unpassed points than the union. -/
theorem denotes_of_canonical_of_unpassed (hitems : ∀ n ∈ items, n.wellFormed = true)
    {p : Option ExtendedRat} (hp : Unpassed p) (hmem : ∃ n ∈ canonical items, n.Denotes p) :
    ∃ n ∈ items, n.Denotes p := by
  have hparts := parts_of_wellFormed hitems
  refine denotes_of_canonical hitems (fun z hz r hr => ?_) hmem
  exact unpassed_int.1 (hz ▸ hp) _ (hparts.whole_of_mem_pieces r hr).hi_whole

theorem cutsStop_of_no_integers (h : ∀ n ∈ items, n.integral? = none) : CutsStop items := by
  intro z _ s hs
  rw [List.filterMap_eq_nil_iff.2 h] at hs
  cases hs

theorem cutsStop_of_no_intervals (h : ∀ n ∈ items, n.reals? = none) : CutsStop items := by
  intro z _ s _ r hr
  rw [realRanges, List.filterMap_eq_nil_iff.2 h] at hr
  cases hr

/-! ## One range of integers -/

/-- Among sets of integers there are no real intervals to cut out. -/
theorem realRanges_eq_nil (hitems : ∀ m ∈ items, m.wellFormed = true)
    (hint : ∀ m ∈ items, ∀ p, m.Denotes p → ∃ z : ℤ, p = some (int z)) : realRanges items = [] := by
  have hnone : items.filterMap reals? = [] := List.filterMap_eq_nil_iff.2 fun m hm => by
    cases m with
    | interval l u =>
      obtain ⟨-, -, hlt⟩ := lt_of_wellFormed_interval (hitems _ hm)
      obtain ⟨q, hlq, hqu, hq, -⟩ := exists_fraction_between hlt Set.finite_empty
      obtain ⟨z, hz⟩ := hint _ hm (some (rat q)) ⟨rat q, rfl, hlq.le, hqu.le⟩
      exact absurd (Option.some.inj hz) (hq z)
    | _ => rfl
  rw [realRanges, hnone]
  rfl

/-- Do the sets lie in a range of integers, and hold all its unpassed integers? -/
structure Fills (items : List NumberSet) (lo hi : Binary64) : Prop where
  range : (integers lo hi).wellFormed = true
  wellFormed : ∀ m ∈ items, m.wellFormed = true
  within : ∀ m ∈ items, ∀ p, m.Denotes p → (integers lo hi).Denotes p
  cover : ∀ z : ℤ, Unpassed (some (int z)) → Range.Contains ⟨lo, hi⟩ (int z) →
    ∃ m ∈ items, m.Denotes (some (int z))

namespace Fills

variable {lo hi : Binary64}

theorem sameUnpassed (h : Fills items lo hi) : SameUnpassed items [integers lo hi] := by
  intro p hp
  constructor
  · rintro ⟨m, hm, hmp⟩
    exact ⟨_, List.mem_singleton_self _, h.within m hm p hmp⟩
  · rintro ⟨m, hm, hmp⟩
    rw [List.mem_singleton.1 hm] at hmp
    obtain ⟨z, rfl, hz⟩ := hmp
    exact h.cover z hp hz

/-- The canonical form of sets that fill a range is the range, since both are normal and have the
same unpassed points. -/
theorem canonical_eq (h : Fills items lo hi) : canonical items = [integers lo hi] := by
  have hreals := realRanges_eq_nil h.wellFormed fun m hm p hp =>
    (h.within m hm p hp).imp fun _ hz => hz.1
  have hstop : CutsStop items := by simp [CutsStop, hreals]
  have hleave : CutsLeave items := fun z _ s _ => ⟨by simp [hreals], by simp [hreals]⟩
  have hnormal := normal_canonical_of_cutsLeave h.wellFormed hleave
  have heq : (canonical items).map identity = [integers lo hi] :=
    hnormal.eq_of_unpassed (normal_singleton h.range) fun p hp => by
      rw [← h.sameUnpassed p hp, ← sameUnpassed_canonical h.wellFormed hstop p hp]
      simp only [List.mem_map, exists_exists_and_eq_and, denotes_identity]
  obtain ⟨m, hm, he⟩ := List.map_eq_singleton_iff.1 heq
  rw [hm]
  cases m <;> cases he
  rfl

end Fills

/-! ## Cover -/

/-- Canonical forms are fitted, whatever the bounds. -/
theorem fitted_canonical (hitems : ∀ n ∈ items, n.wellFormed = true) :
    Fitted (canonical items) := by
  have hwf := fun n (hn : n ∈ canonical items) => wellFormed_of_mem_canonical hitems hn
  match items with
  | [] => exact ⟨hwf, by simp [RealsApart, canonical], by simp [canonical]⟩
  | [n] =>
    refine ⟨hwf, fun _ _ _ _ h h' _ _ _ => ?_, fun h h' => ?_⟩
    · exact (List.mem_singleton.1 h).trans (List.mem_singleton.1 h').symm
    · cases (List.mem_singleton.1 h).trans (List.mem_singleton.1 h').symm
  | a :: b :: rest =>
    rw [canonical_eq_joined (by simp), joined] at hwf ⊢
    split at hwf
    · next hevery =>
      rw [if_pos hevery]
      exact ⟨hwf, by simp [RealsApart], by simp⟩
    · next hevery =>
      rw [if_neg hevery]
      exact ⟨hwf, realsApart_assemble (pairwise_realRanges hitems),
        fun h h' => absurd (isEverything_of_mem_assemble hitems h h') hevery⟩

/-- A real interval of a canonical form holds points of the union only. -/
theorem denotes_of_interval_mem_canonical (hitems : ∀ n ∈ items, n.wellFormed = true)
    {lo hi : Binary64} (h : interval lo hi ∈ canonical items) {p : Option ExtendedRat}
    (hp : (interval lo hi).Denotes p) : ∃ n ∈ items, n.Denotes p := by
  match items, h with
  | [n], h => exact ⟨n, List.mem_singleton_self n, List.mem_singleton.1 h ▸ hp⟩
  | a :: b :: rest, h =>
    rw [canonical_eq_joined (by simp), joined] at h
    split at h
    · cases List.mem_singleton.1 h
    · obtain ⟨r, hr, he⟩ := exists_range_of_interval_mem_assemble h
      obtain ⟨rfl, rfl⟩ := interval.inj he
      obtain ⟨q, rfl, hq⟩ := hp
      simp only [value_unsignedZero] at hq
      obtain ⟨l, u, hmem, hin⟩ := (contains_realRanges hitems q).1 ⟨r, hr, hq⟩
      exact ⟨_, hmem, q, rfl, hin⟩

/-- Joint cover is sound for unpassed points. -/
theorem denotes_of_joint_of_unpassed {n : NumberSet} (hn : n.wellFormed = true)
    (hitems : ∀ m ∈ items, m.wellFormed = true) (h : n.joint items = true)
    {p : Option ExtendedRat} (hp : Unpassed p) (hnp : n.Denotes p) : ∃ m ∈ items, m.Denotes p := by
  have hmeets := wellFormed_of_mem_meets hn hitems
  simp only [joint, Bool.and_eq_true, decide_eq_true_eq] at h
  obtain ⟨hbounds, hcanonical⟩ := h
  refine ((denotes_meets hn hitems p).1 ?_).1
  cases n with
  | all => cases hbounds
  | literal v => cases hbounds
  | interval lo hi => exact denotes_of_interval_mem_canonical hmeets (by simp [hcanonical]) hnp
  | integers lo hi =>
    -- The parts hold integers only, so nothing is cut.
    have hreals := realRanges_eq_nil hmeets fun m hm k hk =>
      ((denotes_meets hn hitems k).1 ⟨m, hm, hk⟩).2.imp fun _ hz => hz.1
    have hstop : CutsStop (items.filterMap (meet .left · (integers lo hi))) := by
      simp [CutsStop, hreals]
    exact (sameUnpassed_canonical hmeets hstop p hp).1 ⟨_, by simp [hcanonical], hnp⟩

/-- A range of integers is covered jointly by sets that hold its unpassed integers. -/
theorem joint_integers {lo hi : Binary64} (hn : (integers lo hi).wellFormed = true)
    (hitems : ∀ m ∈ items, m.wellFormed = true)
    (h : ∀ p, Unpassed p → (integers lo hi).Denotes p → ∃ m ∈ items, m.Denotes p) :
    (integers lo hi).joint items = true := by
  have hmeets := denotes_meets hn hitems
  refine Bool.and_eq_true_iff.2 ⟨rfl, decide_eq_true (Fills.canonical_eq ?_)⟩
  exact {
    range := hn
    wellFormed := wellFormed_of_mem_meets hn hitems
    within := fun k hk p hp => ((hmeets p).1 ⟨k, hk, hp⟩).2
    cover := fun z hz hin => (hmeets _).2 ⟨h _ hz ⟨z, rfl, hin⟩, z, rfl, hin⟩ }

/-- A set of numbers that is no range of integers lies in one set of a canonical form that holds its
unpassed points. -/
theorem exists_subset_of_unpassed {n : NumberSet} (hn : n.wellFormed = true)
    (hitems : Fitted items) (hint : n.integral? = none)
    (h : ∀ p, Unpassed p → n.Denotes p → ∃ m ∈ items, m.Denotes p) :
    ∃ m ∈ items, n.subset m = true := by
  by_cases hall : all ∈ items
  · exact ⟨all, hall, by cases n <;> rfl⟩
  cases n with
  | all => exact absurd (hitems.all_mem fun p hp => h p hp trivial) hall
  | literal v =>
    obtain ⟨m, hm, hmv⟩ := h v.exact (unpassed_exact v) rfl
    have hhas : m.has v = true := (has_iff_denotes (hitems.wellFormed m hm) v).2 hmv
    exact ⟨m, hm, by cases m <;> exact hhas⟩
  | interval lo hi =>
    obtain ⟨hlo, hhi, hlt⟩ := lt_of_wellFormed_interval hn
    obtain ⟨lo', hi', hmem, hle, hle'⟩ := hitems.exists_interval hall hlt
      fun q h1 h2 hq => h _ hq ⟨rat q, rfl, h1, h2⟩
    obtain ⟨hlo', hhi', -⟩ := lt_of_wellFormed_interval (hitems.wellFormed _ hmem)
    refine ⟨_, hmem, ?_⟩
    simp only [subset, Bool.and_eq_true, decide_eq_true_eq, Binary64.le_iff_value]
    exact ⟨⟨hlo', hlo, hle⟩, hhi, hhi', hle'⟩
  | integers lo hi => cases hint

/-- A set of numbers is covered by the sets of a canonical form exactly if they hold its unpassed
points. -/
theorem covered_iff_unpassed {n : NumberSet} (hn : n.wellFormed = true) (hitems : Fitted items) :
    (∃ m ∈ items, n.subset m = true) ∨ n.joint items = true ↔
      ∀ p, Unpassed p → n.Denotes p → ∃ m ∈ items, m.Denotes p := by
  constructor
  · rintro (⟨m, hm, hsub⟩ | hjoint) p hp hnp
    · exact ⟨m, hm, hnp.of_subset (hitems.wellFormed m hm) hsub⟩
    · exact denotes_of_joint_of_unpassed hn hitems.wellFormed hjoint hp hnp
  · intro h
    cases hint : n.integral? with
    | none => exact Or.inl (exists_subset_of_unpassed hn hitems hint h)
    | some r =>
      cases n with
      | integers lo hi => exact Or.inr (joint_integers hn hitems.wellFormed h)
      | _ => cases hint

end NumberSet

end FlowTypes
