import FlowTypes.StableSort
import Mathlib.Data.List.Pairwise

/-!
# Sorted lists without repetitions

`sort` by a total and transitive comparison gives an ascending list (`pairwise_sort`), whatever the
order of the elements given (`sort_eq_of_perm`). Where only equal elements compare equal, it is the
one ascending arrangement (`sort_eq_iff`). `dropRepeats` keeps a sublist
(`dropRepeats_sublist`) in which every element still has one that it repeats
(`exists_same_dropRepeats`). Where the repetitions of an ascending list stand next to each other,
none is left (`pairwise_dropRepeats`).
-/

namespace FlowTypes.StableSort

variable {α : Type} {le same : α → α → Bool}

theorem mem_insert {x y : α} {ys : List α} : x ∈ insert le y ys ↔ x = y ∨ x ∈ ys := by
  rw [(perm_insert le y ys).mem_iff, List.mem_cons]

theorem pairwise_insert (htotal : ∀ a b, le a b = true ∨ le b a = true)
    (htrans : ∀ a b c, le a b = true → le b c = true → le a c = true) (x : α) {ys : List α}
    (h : ys.Pairwise fun a b => le a b = true) :
    (insert le x ys).Pairwise fun a b => le a b = true := by
  induction ys with
  | nil => exact List.pairwise_singleton _ _
  | cons y ys ih =>
    obtain ⟨hy, hys⟩ := List.pairwise_cons.1 h
    simp only [insert]
    split
    · next hxy =>
      refine List.pairwise_cons.2 ⟨fun z hz => ?_, h⟩
      rcases List.mem_cons.1 hz with rfl | hz
      · exact hxy
      · exact htrans _ _ _ hxy (hy z hz)
    · next hxy =>
      refine List.pairwise_cons.2 ⟨fun z hz => ?_, ih hys⟩
      rcases mem_insert.1 hz with rfl | hz
      · exact (htotal y z).resolve_right hxy
      · exact hy z hz

/-- A sorted list ascends. -/
theorem pairwise_sort (htotal : ∀ a b, le a b = true ∨ le b a = true)
    (htrans : ∀ a b c, le a b = true → le b c = true → le a c = true) (xs : List α) :
    (sort le xs).Pairwise fun a b => le a b = true := by
  induction xs with
  | nil => exact List.Pairwise.nil
  | cons x xs ih => exact pairwise_insert htotal htrans x ih

/-- Sorting forgets the order of elements, of which no two different ones come before each other. -/
theorem sort_eq_of_perm (htotal : ∀ a b, le a b = true ∨ le b a = true)
    (htrans : ∀ a b c, le a b = true → le b c = true → le a c = true) {xs ys : List α}
    (hanti : ∀ a ∈ xs, ∀ b ∈ xs, le a b = true → le b a = true → a = b) (h : xs.Perm ys) :
    sort le xs = sort le ys := by
  have hperm : (sort le xs).Perm (sort le ys) :=
    (perm_sort le xs).trans (h.trans (perm_sort le ys).symm)
  refine hperm.eq_of_pairwise (fun a b ha hb => ?_) (pairwise_sort htotal htrans xs)
    (pairwise_sort htotal htrans ys)
  exact hanti a (mem_sort.1 ha) b (h.mem_iff.2 (mem_sort.1 hb))

theorem bne_gt_eq_isLE (o : Ordering) : (o != .gt) = o.isLE := by
  cases o <;> rfl

/-- By a comparison without ties a list has one ascending arrangement, and sorting finds it. -/
theorem sort_eq_iff {cmp : α → α → Ordering} [Std.TransCmp cmp] [Std.LawfulEqCmp cmp]
    {xs ys : List α} :
    sort (fun a b => cmp a b != .gt) xs = ys ↔
      ys.Perm xs ∧ ys.Pairwise fun a b => (cmp a b).isLE = true := by
  have htotal : ∀ a b, (cmp a b).isLE = true ∨ (cmp b a).isLE = true := fun a b => by
    have hswap : cmp b a = (cmp a b).swap := Std.OrientedCmp.eq_swap
    rw [hswap]
    cases cmp a b <;> simp
  have hsorted := pairwise_sort htotal (fun _ _ _ => Std.TransCmp.isLE_trans) xs
  simp only [bne_gt_eq_isLE]
  constructor
  · rintro rfl
    exact ⟨perm_sort _ xs, hsorted⟩
  · rintro ⟨hperm, hascending⟩
    refine ((perm_sort _ xs).trans hperm.symm).eq_of_pairwise (fun a b _ _ hab hba => ?_) hsorted
      hascending
    exact Std.LawfulEqCmp.eq_of_compare (Std.OrientedCmp.isLE_antisymm hab hba)

/-- Of two elements of a list that is related pairwise, one is before the other. -/
theorem eq_or_of_pairwise {r : α → α → Prop} {xs : List α} (h : xs.Pairwise r) {a b : α}
    (ha : a ∈ xs) (hb : b ∈ xs) : a = b ∨ r a b ∨ r b a := by
  have : Std.Symm fun a b => r a b ∨ r b a := ⟨fun _ _ => Or.symm⟩
  have heither : xs.Pairwise fun a b => r a b ∨ r b a := h.imp Or.inl
  by_cases heq : a = b
  · exact Or.inl heq
  · exact Or.inr (heither.forall ha hb heq)

/-! ## Repetitions -/

theorem go_sublist : ∀ (kept : α) (xs : List α), (dropRepeats.go same kept xs).Sublist xs
  | _, [] => List.Sublist.slnil
  | kept, y :: ys => by
    simp only [dropRepeats.go]
    split
    · exact (go_sublist kept ys).cons y
    · exact (go_sublist y ys).cons_cons y

theorem dropRepeats_sublist : ∀ xs : List α, (dropRepeats same xs).Sublist xs
  | [] => List.Sublist.slnil
  | x :: xs => (go_sublist x xs).cons_cons x

theorem exists_same_go (hrefl : ∀ a, same a a = true) :
    ∀ (kept : α) {xs : List α} {x : α}, x ∈ kept :: xs →
      ∃ y ∈ kept :: dropRepeats.go same kept xs, same x y = true
  | kept, [], x, hx => ⟨x, hx, hrefl x⟩
  | kept, y :: ys, x, hx => by
    simp only [dropRepeats.go]
    rcases List.mem_cons.1 hx with rfl | hx
    · exact ⟨x, List.mem_cons_self, hrefl x⟩
    split
    · next hsame =>
      rcases List.mem_cons.1 hx with rfl | hx
      · exact ⟨kept, List.mem_cons_self, hsame⟩
      · exact exists_same_go hrefl kept (List.mem_cons_of_mem _ hx)
    · obtain ⟨z, hz, hxz⟩ := exists_same_go hrefl y hx
      exact ⟨z, List.mem_cons_of_mem _ hz, hxz⟩

/-- Every element repeats one that is kept. -/
theorem exists_same_dropRepeats (hrefl : ∀ a, same a a = true) {xs : List α} {x : α}
    (hx : x ∈ xs) : ∃ y ∈ dropRepeats same xs, same x y = true := by
  cases xs with
  | nil => simp at hx
  | cons y ys => exact exists_same_go hrefl y hx

theorem pairwise_go
    (hconvex : ∀ a b c, le a b = true → le b c = true → same c a = true → same b a = true) :
    ∀ (kept : α) {xs : List α}, (kept :: xs).Pairwise (fun a b => le a b = true) →
      (kept :: dropRepeats.go same kept xs).Pairwise fun a b => same b a = false
  | kept, [], _ => List.pairwise_singleton _ _
  | kept, y :: ys, h => by
    obtain ⟨hkept, hys⟩ := List.pairwise_cons.1 h
    simp only [dropRepeats.go]
    split
    · exact pairwise_go hconvex kept
        (List.pairwise_cons.2 ⟨fun z hz => hkept z (List.mem_cons_of_mem _ hz), hys.of_cons⟩)
    · next hsame =>
      refine List.pairwise_cons.2 ⟨fun z hz => ?_, pairwise_go hconvex y hys⟩
      rcases List.mem_cons.1 hz with rfl | hz
      · exact Bool.eq_false_iff.2 hsame
      · refine Bool.eq_false_iff.2 fun hzk => hsame ?_
        exact hconvex kept y z (hkept y List.mem_cons_self)
          ((List.pairwise_cons.1 hys).1 z ((go_sublist y ys).mem hz)) hzk

/-- No two elements that are kept repeat each other. -/
theorem pairwise_dropRepeats
    (hconvex : ∀ a b c, le a b = true → le b c = true → same c a = true → same b a = true)
    {xs : List α} (h : xs.Pairwise fun a b => le a b = true) :
    (dropRepeats same xs).Pairwise fun a b => same b a = false := by
  cases xs with
  | nil => exact List.Pairwise.nil
  | cons x xs => exact pairwise_go hconvex x h

end FlowTypes.StableSort
