import FlowTypes.Proofs.SteadyNumbers
import FlowTypes.Proofs.UnionMembership
import Mathlib.Data.String.Basic

/-!
# Canonical forms of numbers and texts are unique

Two unions of sets of numbers and sets of texts have one canonical form exactly if they have the
same points and the same texts (`Shape.canonical_unique`). For numbers, canonical forms are normal
(`NumberSet.normal_canonical`), and normal unions are known by their points. For texts, a canonical
form is `all` or an ascending list without repetitions (`TextSet.canonical_eq_of_has`), and no
finite list has all texts.
-/

namespace FlowTypes

/-! ## Texts -/

namespace TextSet

variable {items : List TextSet}

/-- The literals of a union in ascending order, each of them once. -/
def ascending (items : List TextSet) : List String :=
  StableSort.dropRepeats (fun a b => decide (a = b))
    (StableSort.sort (fun a b => decide (a ≤ b)) (items.filterMap literal?))

theorem canonical_of_mem (h : all ∈ items) : canonical items = [all] := by
  have hany : items.any (· = all) = true := List.any_eq_true.2 ⟨all, h, decide_eq_true rfl⟩
  rw [canonical, if_pos hany]

theorem canonical_of_notMem (h : all ∉ items) :
    canonical items = (ascending items).map literal := by
  have hany : ¬items.any (· = all) = true := by
    rintro hany
    obtain ⟨t, ht, he⟩ := List.any_eq_true.1 hany
    exact h (of_decide_eq_true he ▸ ht)
  rw [canonical, if_neg hany]
  rfl

theorem sorted_literals (items : List TextSet) :
    (StableSort.sort (fun a b => decide (a ≤ b)) (items.filterMap literal?)).Pairwise
      fun a b => decide (a ≤ b) = true := by
  refine StableSort.pairwise_sort (fun a b => ?_) (fun a b c => ?_) _
  · simpa only [decide_eq_true_eq] using le_total a b
  · simpa only [decide_eq_true_eq] using le_trans

theorem pairwise_ascending (items : List TextSet) : (ascending items).Pairwise (· ≤ ·) :=
  ((sorted_literals items).sublist (StableSort.dropRepeats_sublist _)).imp of_decide_eq_true

theorem nodup_ascending (items : List TextSet) : (ascending items).Nodup := by
  have hconvex : ∀ a b c : String, decide (a ≤ b) = true → decide (b ≤ c) = true →
      decide (c = a) = true → decide (b = a) = true := by
    simp only [decide_eq_true_eq]
    rintro a b c hab hbc rfl
    exact le_antisymm hbc hab
  refine (StableSort.pairwise_dropRepeats hconvex (sorted_literals items)).imp ?_
  intro a b hba hab
  exact of_decide_eq_false hba hab.symm

/-- Where no set is `all`, the texts of a union are its canonical literals. -/
theorem mem_ascending (hall : all ∉ items) {s : String} :
    s ∈ ascending items ↔ ∃ t ∈ items, t.has s = true := by
  rw [← has_canonical, canonical_of_notMem hall]
  simp [has]

/-- Finitely many literals leave a text out. -/
theorem exists_not_has (hall : all ∉ items) : ∃ s, ¬∃ t ∈ items, t.has s = true := by
  obtain ⟨s, hs⟩ := Infinite.exists_notMem_finset (ascending items).toFinset
  exact ⟨s, fun h => hs (List.mem_toFinset.2 ((mem_ascending hall).2 h))⟩

/-- The canonical form is known by the texts of the union. -/
theorem canonical_eq_of_has {xs ys : List TextSet}
    (h : ∀ s, (∃ t ∈ xs, t.has s = true) ↔ ∃ t ∈ ys, t.has s = true) :
    canonical xs = canonical ys := by
  have hall : all ∈ xs ↔ all ∈ ys := by
    constructor <;> intro hmem <;> by_contra hnot <;> obtain ⟨s, hs⟩ := exists_not_has hnot
    · exact hs ((h s).1 ⟨all, hmem, rfl⟩)
    · exact hs ((h s).2 ⟨all, hmem, rfl⟩)
  by_cases hxs : all ∈ xs
  · rw [canonical_of_mem hxs, canonical_of_mem (hall.1 hxs)]
  · have hys := mt hall.2 hxs
    have hperm : (ascending xs).Perm (ascending ys) :=
      (List.perm_ext_iff_of_nodup (nodup_ascending xs) (nodup_ascending ys)).2 fun s => by
        rw [mem_ascending hxs, mem_ascending hys, h s]
    rw [canonical_of_notMem hxs, canonical_of_notMem hys, hperm.eq_of_pairwise
      (fun _ _ _ _ => le_antisymm) (pairwise_ascending xs) (pairwise_ascending ys)]

end TextSet

/-! ## Numbers -/

namespace NumberSet

/-- The canonical form of small sets is known by the points of the union. -/
theorem canonical_eq_of_denotes {xs ys : List NumberSet} (hxs : ∀ n ∈ xs, n.wellFormed = true)
    (hys : ∀ n ∈ ys, n.wellFormed = true) (hxs' : ∀ n ∈ xs, n.isSteady = true)
    (hys' : ∀ n ∈ ys, n.isSteady = true)
    (h : ∀ p, (∃ n ∈ xs, n.Denotes p) ↔ ∃ n ∈ ys, n.Denotes p) :
    (canonical xs).map identity = (canonical ys).map identity := by
  refine (normal_canonical hxs (isSteady_canonical hxs hxs')).eq_of_unpassed
    (normal_canonical hys (isSteady_canonical hys hys')) fun p _ => ?_
  simp only [List.mem_map, exists_exists_and_eq_and, denotes_identity]
  rw [denotes_canonical_of_isSteady hxs hxs', denotes_canonical_of_isSteady hys hys', h p]

end NumberSet

namespace Shape

/-! ## The parts of a canonical form -/

theorem identities_eq_map : ∀ ss : List Shape, identities ss = ss.map identity
  | [] => rfl
  | s :: ss => by rw [identities, identities_eq_map ss, List.map_cons]

theorem number_mem_canonical {items : List Shape} {n : NumberSet} :
    number n ∈ canonical items ↔ n ∈ NumberSet.canonical (items.filterMap number?) := by
  rw [mem_canonical]
  constructor
  · rintro (⟨m, hm, he⟩ | ⟨t, -, he⟩ | h)
    · rwa [number.inj he]
    · cases he
    · exact nomatch (List.mem_filter.1 (mem_of_mem_canonicalRecords h)).2
  · exact fun h => Or.inl ⟨n, h, rfl⟩

theorem text_mem_canonical {items : List Shape} {t : TextSet} :
    text t ∈ canonical items ↔ t ∈ TextSet.canonical (items.filterMap text?) := by
  rw [mem_canonical]
  constructor
  · rintro (⟨n, -, he⟩ | ⟨u, hu, he⟩ | h)
    · cases he
    · rwa [text.inj he]
    · exact nomatch (List.mem_filter.1 (mem_of_mem_canonicalRecords h)).2
  · exact fun h => Or.inr (Or.inl ⟨t, h, rfl⟩)

theorem number_mem_identities {ss : List Shape} {n : NumberSet} :
    number n ∈ identities ss ↔ ∃ m, number m ∈ ss ∧ n = m.identity := by
  rw [identities_eq_map, List.mem_map]
  constructor
  · rintro ⟨s, hs, he⟩
    cases s with
    | number m =>
      have he : m.identity = n := number.inj (by simpa only [identity] using he)
      exact ⟨m, hs, he.symm⟩
    | text t => simp [identity] at he
    | record name fields => simp [identity] at he
  · rintro ⟨m, hm, rfl⟩
    exact ⟨_, hm, by simp only [identity]⟩

theorem text_mem_identities {ss : List Shape} {t : TextSet} :
    text t ∈ identities ss ↔ text t ∈ ss := by
  rw [identities_eq_map, List.mem_map]
  constructor
  · rintro ⟨s, hs, he⟩
    cases s with
    | number m => simp [identity] at he
    | text u =>
      have he : u = t := text.inj (by simpa only [identity] using he)
      exact he ▸ hs
    | record name fields => simp [identity] at he
  · intro h
    exact ⟨_, h, by simp only [identity]⟩

/-- The points of a canonical form, read off its identity. -/
theorem denotes_identities_canonical {items : List Shape} (hwf : ∀ s ∈ items, s.wellFormed = true)
    (hsteady : ∀ n, number n ∈ items → n.isSteady = true) (p : Option ExtendedRat) :
    (∃ n, number n ∈ identities (canonical items) ∧ n.Denotes p) ↔
      ∃ n, number n ∈ items ∧ n.Denotes p := by
  have hsteady' : ∀ n ∈ items.filterMap number?, n.isSteady = true :=
    fun n hn => hsteady n (mem_filterMap_number?.1 hn)
  have h := NumberSet.denotes_canonical_of_isSteady (wellFormed_of_mem_numbers hwf) hsteady' p
  simp only [mem_filterMap_number?] at h
  rw [← h]
  constructor
  · rintro ⟨n, hn, hp⟩
    obtain ⟨m, hm, rfl⟩ := number_mem_identities.1 hn
    exact ⟨m, number_mem_canonical.1 hm, (NumberSet.denotes_identity m p).1 hp⟩
  · rintro ⟨n, hn, hp⟩
    exact ⟨_, number_mem_identities.2 ⟨n, number_mem_canonical.2 hn, rfl⟩,
      (NumberSet.denotes_identity n p).2 hp⟩

theorem has_identities_canonical {items : List Shape} (s : String) :
    (∃ t, text t ∈ identities (canonical items) ∧ t.has s = true) ↔
      ∃ t, text t ∈ items ∧ t.has s = true := by
  have h := TextSet.has_canonical (items.filterMap text?) s
  simp only [mem_filterMap_text?] at h
  simp only [text_mem_identities, text_mem_canonical, h]

/-- The identity of a canonical form, part by part. -/
theorem identities_canonical (items : List Shape) :
    identities (canonical items) =
      ((NumberSet.canonical (items.filterMap number?)).map NumberSet.identity).map number ++
        (TextSet.canonical (items.filterMap text?)).map text ++
          (canonicalRecords (items.filter isRecord)).map identity := by
  simp only [canonical, identities_eq_map, List.map_append, List.map_map]
  rfl

theorem identities_canonical_of_no_record {items : List Shape}
    (h : ∀ s ∈ items, s.isRecord = false) :
    identities (canonical items) =
      ((NumberSet.canonical (items.filterMap number?)).map NumberSet.identity).map number ++
        (TextSet.canonical (items.filterMap text?)).map text := by
  have hnone : items.filter isRecord = [] :=
    List.filter_eq_nil_iff.2 fun s hs => Bool.eq_false_iff.1 (h s hs)
  rw [identities_canonical, hnone, canonicalRecords, List.map_nil, List.append_nil]

/-- Two unions of sets of numbers and texts, with bounds and literals of at most 52 bits, have
equal canonical forms exactly if they have the same points and the same texts. -/
theorem canonical_unique {xs ys : List Shape}
    (hxs : ∀ s ∈ xs, s.isRecord = false ∧ s.wellFormed = true)
    (hys : ∀ s ∈ ys, s.isRecord = false ∧ s.wellFormed = true)
    (hxsmall : ∀ n, number n ∈ xs → n.isSmall = true)
    (hysmall : ∀ n, number n ∈ ys → n.isSmall = true) :
    identities (canonical xs) = identities (canonical ys) ↔
      (∀ p : Option ExtendedRat,
        (∃ n, number n ∈ xs ∧ n.Denotes p) ↔ ∃ n, number n ∈ ys ∧ n.Denotes p) ∧
      ∀ s : String, (∃ t, text t ∈ xs ∧ t.has s = true) ↔ ∃ t, text t ∈ ys ∧ t.has s = true := by
  have hxwf := fun s hs => (hxs s hs).2
  have hywf := fun s hs => (hys s hs).2
  have hxsteady := fun n hn => NumberSet.isSteady_of_isSmall (hxsmall n hn)
  have hysteady := fun n hn => NumberSet.isSteady_of_isSmall (hysmall n hn)
  constructor
  · intro he
    refine ⟨fun p => ?_, fun s => ?_⟩
    · rw [← denotes_identities_canonical hxwf hxsteady, he,
        denotes_identities_canonical hywf hysteady]
    · rw [← has_identities_canonical, he, has_identities_canonical]
  · rintro ⟨hnumbers, htexts⟩
    rw [identities_canonical_of_no_record fun s hs => (hxs s hs).1,
      identities_canonical_of_no_record fun s hs => (hys s hs).1]
    congr 2
    · refine NumberSet.canonical_eq_of_denotes (wellFormed_of_mem_numbers hxwf)
        (wellFormed_of_mem_numbers hywf) (fun n hn => hxsteady n (mem_filterMap_number?.1 hn))
        (fun n hn => hysteady n (mem_filterMap_number?.1 hn)) fun p => ?_
      simpa only [mem_filterMap_number?] using hnumbers p
    · refine TextSet.canonical_eq_of_has fun s => ?_
      simpa only [mem_filterMap_text?] using htexts s

/-- Two halves and a text have the points of the whole interval, and the text. -/
theorem canonical_unique_halves :
    let xs := [number (.interval .zero .half), text (.literal "a"), number (.interval .half .one)]
    let ys := [number (.interval .zero .one), text (.literal "a")]
    identities (canonical xs) = identities (canonical ys) ∧
      (∀ p : Option ExtendedRat,
        (∃ n, number n ∈ xs ∧ n.Denotes p) ↔ ∃ n, number n ∈ ys ∧ n.Denotes p) ∧
      ∀ s : String, (∃ t, text t ∈ xs ∧ t.has s = true) ↔ ∃ t, text t ∈ ys ∧ t.has s = true := by
  intro xs ys
  have he : identities (canonical xs) = identities (canonical ys) := by decide +kernel
  have hxs : ∀ s ∈ xs, s.number?.all NumberSet.isSmall = true := by decide +kernel
  have hys : ∀ s ∈ ys, s.number?.all NumberSet.isSmall = true := by decide +kernel
  exact ⟨he, (canonical_unique (by decide +kernel) (by decide +kernel) (fun _ hn => hxs _ hn)
    fun _ hn => hys _ hn).1 he⟩

end Shape

end FlowTypes
