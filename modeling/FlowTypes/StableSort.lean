/-!
# Stable sorting

Insertion sort by a Boolean comparison, and the removal of neighbours that repeat each other.
Elements that compare equal keep their order (`sort` inserts from the right, each element before
those it is equal to). Both are structural, so closed instances evaluate.
-/

namespace FlowTypes.StableSort

variable {α : Type}

/-- Puts an element before the first one it is at most as great as. -/
def insert (le : α → α → Bool) (x : α) : List α → List α
  | [] => [x]
  | y :: ys => if le x y then x :: y :: ys else y :: insert le x ys

/-- The elements in ascending order; equal ones in the order given. -/
def sort (le : α → α → Bool) (xs : List α) : List α := xs.foldr (insert le) []

/-- Drops every element that repeats the last one kept. -/
def dropRepeats (same : α → α → Bool) : List α → List α
  | [] => []
  | x :: xs => x :: go x xs
where
  /-- Goes on after `kept`, the last element that was kept. -/
  go (kept : α) : List α → List α
    | [] => []
    | y :: ys => if same y kept then go kept ys else y :: go y ys

theorem perm_insert (le : α → α → Bool) (x : α) (xs : List α) :
    (insert le x xs).Perm (x :: xs) := by
  induction xs with
  | nil => exact .refl _
  | cons y ys ih =>
    simp only [insert]
    split
    · exact .refl _
    · exact (ih.cons y).trans (.swap x y ys)

/-- Sorting only reorders. -/
theorem perm_sort (le : α → α → Bool) (xs : List α) : (sort le xs).Perm xs := by
  induction xs with
  | nil => exact .refl _
  | cons x xs ih => exact (perm_insert le x _).trans (ih.cons x)

@[simp] theorem mem_sort {le : α → α → Bool} {x : α} {xs : List α} : x ∈ sort le xs ↔ x ∈ xs :=
  (perm_sort le xs).mem_iff

end FlowTypes.StableSort
