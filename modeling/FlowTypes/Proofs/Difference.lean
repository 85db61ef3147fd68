import FlowTypes.Proofs.UnionMembership
import FlowTypes.Ty.Difference

/-!
# Differences are bracketed

The difference of two types need not be exact : where an interval is cut the cut points stay, and
texts and records are removed only as wholes. It holds every value of the left side that the right
side lacks, and none that the left side lacks (`Ty.without_bracketed`).

For sets of numbers this is `NumberSet.Brackets`. An interval of integers is cut by steps of one
from the bounds of what is removed (`NumberSet.brackets_withoutIntegers`). A step may be rounded,
but passes no double, so no integer among the doubles is lost.
-/

namespace FlowTypes

open ExtendedRat Binary64

namespace NumberSet

/-! ## Numbers -/

/-- A union lies between a difference and its left side. -/
structure Brackets (rest : List NumberSet) (a b : NumberSet) : Prop where
  wellFormed : ∀ n ∈ rest, n.wellFormed = true
  keeps : ∀ x, a.has x = true → b.has x = false → ∃ n ∈ rest, n.has x = true
  within : ∀ x, (∃ n ∈ rest, n.has x = true) → a.has x = true

variable {a b : NumberSet}

theorem brackets_self (ha : a.wellFormed = true) : Brackets [a] a b where
  wellFormed := by simpa using ha
  keeps x hx _ := ⟨a, List.mem_singleton_self a, hx⟩
  within x hx := by simpa using hx

theorem brackets_nil (h : ∀ x, a.has x = true → b.has x = true) : Brackets [] a b where
  wellFormed := by simp
  keeps x hx hbx := by simp [h x hx] at hbx
  within x hx := by simp at hx

/-- A canonical form brackets a difference if the union it is made of does. -/
theorem Brackets.canonical {rest : List NumberSet} (h : Brackets rest a b) :
    Brackets (canonical rest) a b where
  wellFormed _ hn := wellFormed_of_mem_canonical h.wellFormed hn
  keeps x hx hbx := (has_canonical h.wellFormed x).2 (h.keeps x hx hbx)
  within x hx := h.within x ((has_canonical h.wellFormed x).1 hx)

theorem has_interval? {lo hi : Binary64} (hlo : lo.isNaN = false) (hhi : hi.isNaN = false)
    (x : Binary64) : (∃ n ∈ interval? lo hi, n.has x = true) ↔ lo ≤ x ∧ x ≤ hi := by
  have h := denotes_interval? hlo hhi x.exact
  have hpoint : (∃ n ∈ interval? lo hi, n.has x = true) ↔
      ∃ n ∈ interval? lo hi, n.Denotes x.exact :=
    exists_congr fun n => and_congr_right fun hn => has_iff_denotes (wellFormed_interval? hn) x
  rw [hpoint, h, le_iff_value, le_iff_value]
  simp only [hlo, hhi, true_and, exact_eq_some]
  constructor
  · rintro ⟨q, ⟨hx, rfl⟩, h1, h2⟩
    exact ⟨⟨hx, h1⟩, hx, h2⟩
  · rintro ⟨⟨hx, h1⟩, -, h2⟩
    exact ⟨_, ⟨hx, rfl⟩, h1, h2⟩

theorem has_integers? {lo hi : Binary64} (hlo : lo.isNaN = false) (hhi : hi.isNaN = false)
    (x : Binary64) :
    (∃ n ∈ integers? lo hi, n.has x = true) ↔
      ∃ z, x.exact = some (int z) ∧ lo.value ≤ int z ∧ int z ≤ hi.value := by
  rw [← denotes_integers? hlo hhi]
  exact exists_congr fun n => and_congr_right fun hn =>
    has_iff_denotes (wellFormed_integers? hlo hhi hn) x

/-- The doubles of two ranges, where there are such. -/
theorem exists_has_append (o o' : Option NumberSet) (x : Binary64) :
    (∃ n ∈ o.toList ++ o'.toList, n.has x = true) ↔
      (∃ n ∈ o, n.has x = true) ∨ ∃ n ∈ o', n.has x = true := by
  simp only [List.mem_append, or_and_right, exists_or, Option.mem_toList, Option.mem_def]

/-- The integers of a range outside those from `first` to `last`, all of which the other set has. -/
theorem brackets_withoutIntegers {lo hi first last : Binary64}
    (ha : (integers lo hi).wellFormed = true) (hb : b.wellFormed = true)
    (hfirst : first.isWhole = true) (hlast : last.isWhole = true)
    (hin : ∀ z : ℤ, first.value ≤ int z → int z ≤ last.value → b.Denotes (some (int z))) :
    Brackets (withoutIntegers lo hi first last) (integers lo hi) b := by
  obtain ⟨hlo, hhi, -⟩ := whole_of_wellFormed_integers ha
  have hlon := isNaN_of_isWhole hlo
  have hhin := isNaN_of_isWhole hhi
  have hbefore := isNaN_of_isWhole (isWhole_sub_one hfirst)
  have hafter := isNaN_of_isWhole (isWhole_add_one hlast)
  unfold withoutIntegers
  split
  · exact brackets_self ha
  · next hcut =>
    obtain ⟨-, hloLast, hfirstHi⟩ := Range.bounds_of_not_skipped hlo hhi hfirst hlast hcut
    refine Brackets.canonical ⟨fun n hn => ?_, fun x hx hbx => ?_, fun x hx => ?_⟩
    · rcases List.mem_append.1 hn with hn | hn
      · exact wellFormed_integers? hlon hbefore (Option.mem_toList.1 hn)
      · exact wellFormed_integers? hafter hhin (Option.mem_toList.1 hn)
    · rw [exists_has_append, has_integers? hlon hbefore, has_integers? hafter hhin]
      obtain ⟨z, hz, h1, h2⟩ := (has_iff_denotes ha x).1 hx
      -- The steps by one from both ends stop at `x`.
      rcases lt_or_ge (int z) first.value with hlt | hge
      · exact Or.inl ⟨z, hz, h1, (soundStep_of_exact hz hfirst).down hlt⟩
      · have hlt : last.value < int z := not_le.1 fun hle => Bool.eq_false_iff.1 hbx
          ((has_iff_denotes hb x).2 (hz ▸ hin z hge hle))
        exact Or.inr ⟨z, hz, (soundStep_of_exact hz hlast).up hlt, h2⟩
    · rw [exists_has_append, has_integers? hlon hbefore, has_integers? hafter hhin] at hx
      rw [has_iff_denotes ha]
      rcases hx with ⟨z, hz, h1, h2⟩ | ⟨z, hz, h1, h2⟩
      · exact ⟨z, hz, h1, (h2.trans (value_sub_one_le hfirst)).trans hfirstHi⟩
      · exact ⟨z, hz, (hloLast.trans (le_value_add_one hlast)).trans h1, h2⟩

/-- The parts of an interval on the two sides of another, cut points included. -/
def sides (lo hi lo' hi' : Binary64) : List NumberSet :=
  (if lo < lo' then (interval? lo lo').toList else [])
    ++ (if hi' < hi then (interval? hi' hi).toList else [])

theorem wellFormed_of_mem_sides {lo hi lo' hi' : Binary64} {n : NumberSet}
    (hn : n ∈ sides lo hi lo' hi') : n.wellFormed = true := by
  rcases List.mem_append.1 hn with hn | hn <;> split at hn
  · exact wellFormed_interval? (Option.mem_toList.1 hn)
  · simp at hn
  · exact wellFormed_interval? (Option.mem_toList.1 hn)
  · simp at hn

theorem has_sides {lo hi lo' hi' : Binary64} (hlo : lo.isNaN = false) (hhi : hi.isNaN = false)
    (hlo' : lo'.isNaN = false) (hhi' : hi'.isNaN = false) (x : Binary64) :
    (∃ n ∈ sides lo hi lo' hi', n.has x = true) ↔
      (lo < lo' ∧ lo ≤ x ∧ x ≤ lo') ∨ (hi' < hi ∧ hi' ≤ x ∧ x ≤ hi) := by
  rw [← has_interval? hlo hlo', ← has_interval? hhi' hhi]
  simp only [sides, List.mem_append, or_and_right, exists_or]
  refine or_congr ?_ ?_ <;> split <;> simp [*]

/-- A number between two bounds and not between two others is on one side of those. -/
theorem has_sides_of_not_has {lo hi lo' hi' x : Binary64} (hlo' : lo'.isNaN = false)
    (hhi' : hi'.isNaN = false) (h : lo ≤ x ∧ x ≤ hi) (hx : ¬(lo' ≤ x ∧ x ≤ hi')) :
    ∃ n ∈ sides lo hi lo' hi', n.has x = true := by
  obtain ⟨hlo, hxn, h1⟩ := le_iff_value.1 h.1
  obtain ⟨-, hhi, h2⟩ := le_iff_value.1 h.2
  rw [has_sides hlo hhi hlo' hhi']
  simp only [le_iff_value, lt_iff_value, hlo, hhi, hlo', hhi', hxn, true_and] at hx ⊢
  rcases lt_or_ge x.value lo'.value with hlt | hge
  · exact Or.inl ⟨h1.trans_lt hlt, h1, hlt.le⟩
  · have hlt := not_le.1 fun hle => hx ⟨hge, hle⟩
    exact Or.inr ⟨hlt.trans_le h2, hlt.le, h2⟩

/-- All numbers but those of an interval. -/
theorem brackets_all_interval {lo hi : Binary64} (hb : (interval lo hi).wellFormed = true) :
    Brackets (literal .nan :: sides .negInf .posInf lo hi) all (interval lo hi) where
  wellFormed n hn := by
    rcases List.mem_cons.1 hn with rfl | hn
    exacts [rfl, wellFormed_of_mem_sides hn]
  keeps x _ hbx := by
    obtain ⟨hlo, hhi, -⟩ := lt_of_wellFormed_interval hb
    cases hx : x.isNaN with
    | true =>
      refine ⟨_, List.mem_cons_self, same_iff_exact.2 ?_⟩
      rw [exact_eq_none.2 hx]
      rfl
    | false =>
      have hbetween : Binary64.negInf ≤ x ∧ x ≤ Binary64.posInf :=
        ⟨le_iff_value.2 ⟨rfl, hx, bot_le⟩, le_iff_value.2 ⟨hx, rfl, le_top⟩⟩
      obtain ⟨n, hn, hnx⟩ := has_sides_of_not_has hlo hhi hbetween (by simpa [has] using hbx)
      exact ⟨n, List.mem_cons_of_mem _ hn, hnx⟩
  within _ _ := rfl

/-- The numbers of one interval but those of another that meets it. -/
theorem brackets_sides {lo hi lo' hi' : Binary64} (ha : (interval lo hi).wellFormed = true)
    (hb : (interval lo' hi').wellFormed = true) (hbelow : ¬hi' < lo) (habove : ¬hi < lo') :
    Brackets (sides lo hi lo' hi') (interval lo hi) (interval lo' hi') where
  wellFormed _ hn := wellFormed_of_mem_sides hn
  keeps x hx hbx := by
    obtain ⟨hlo', hhi', -⟩ := lt_of_wellFormed_interval hb
    exact has_sides_of_not_has hlo' hhi' (by simpa [has] using hx) (by simpa [has] using hbx)
  within x hx := by
    obtain ⟨hlo, hhi, -⟩ := lt_of_wellFormed_interval ha
    obtain ⟨hlo', hhi', -⟩ := lt_of_wellFormed_interval hb
    rw [has_sides hlo hhi hlo' hhi'] at hx
    simp only [lt_iff_value, hlo, hhi, hlo', hhi', true_and, not_lt] at hbelow habove
    simp only [has, Bool.and_eq_true, decide_eq_true_eq]
    simp only [le_iff_value, hlo, hhi, hlo', hhi', true_and] at hx ⊢
    rcases hx with ⟨-, ⟨hxn, h1⟩, -, h2⟩ | ⟨-, ⟨hxn, h1⟩, -, h2⟩
    · exact ⟨⟨hxn, h1⟩, hxn, h2.trans habove⟩
    · exact ⟨⟨hxn, hbelow.trans h1⟩, hxn, h2⟩

/-- All numbers but NaN. -/
theorem brackets_all_nan {v : Binary64} (hv : v.isNaN = true) :
    Brackets [interval .negInf .posInf] all (literal v) where
  wellFormed := by decide +kernel
  keeps x _ hx := by
    have hxn : x.isNaN = false := by
      rw [has, ← Bool.not_eq_true, same_iff_exact, exact_eq_none.2 hv, eq_comm, exact_eq_none] at hx
      exact Bool.eq_false_iff.2 hx
    refine ⟨_, List.mem_singleton_self _, ?_⟩
    simp only [has, Bool.and_eq_true, decide_eq_true_eq, le_iff_value]
    exact ⟨⟨rfl, hxn, bot_le⟩, hxn, rfl, le_top⟩
  within _ _ := rfl

section Integers

variable {lo hi : Binary64} (ha : (integers lo hi).wellFormed = true)
include ha

/-- The integers of a range but one. -/
theorem brackets_integers_literal {v : Binary64} (hv : (integers lo hi).has v = true) :
    Brackets (withoutIntegers lo hi v v) (integers lo hi) (literal v) := by
  obtain ⟨z, hz, -⟩ := (has_iff_denotes ha v).1 hv
  obtain ⟨hvn, hvz⟩ := exact_eq_some.1 hz
  have hwhole : v.isWhole = true := isWhole_of_isInteger
    (isInteger_iff_value.2 ⟨isFinite_of_value_eq_int hvn hvz, z, hvz⟩)
  exact brackets_withoutIntegers ha rfl hwhole hwhole fun k h1 h2 =>
    exact_eq_some.2 ⟨hvn, le_antisymm h1 h2⟩

/-- The integers of a range but those of a real interval. -/
theorem brackets_integers_interval {lo' hi' : Binary64}
    (hb : (interval lo' hi').wellFormed = true) :
    Brackets (withoutIntegers lo hi lo'.ceil hi'.floor) (integers lo hi) (interval lo' hi') := by
  obtain ⟨hlo', hhi', -⟩ := lt_of_wellFormed_interval hb
  exact brackets_withoutIntegers ha hb (isWhole_ceil hlo') (isWhole_floor hhi') fun z h1 h2 =>
    ⟨_, rfl, (Range.contains_int_iff ⟨lo', hi'⟩ z).2 ⟨h1, h2⟩⟩

/-- The integers of a range but those of another. -/
theorem brackets_integers_integers {lo' hi' : Binary64}
    (hb : (integers lo' hi').wellFormed = true) :
    Brackets (withoutIntegers lo hi lo' hi') (integers lo hi) (integers lo' hi') := by
  obtain ⟨hlo', hhi', -⟩ := whole_of_wellFormed_integers hb
  exact brackets_withoutIntegers ha hb hlo' hhi' fun z h1 h2 => ⟨z, rfl, h1, h2⟩

end Integers

/-- The difference of two sets of numbers keeps what it must, and nothing from elsewhere. -/
theorem brackets_without (ha : a.wellFormed = true) (hb : b.wellFormed = true) :
    Brackets (a.without b) a b := by
  unfold without
  split
  · next hsub => exact brackets_nil fun x => has_of_subset ha hb hsub
  · split
    · split
      · next hv => exact brackets_all_nan hv
      · exact brackets_self ha
    · exact (brackets_all_interval hb).canonical
    · split
      · next hv => exact brackets_integers_literal ha hv
      · exact brackets_self ha
    · exact brackets_integers_interval ha hb
    · exact brackets_integers_integers ha hb
    · split
      · exact brackets_self ha
      · next hmeet =>
        simp only [Bool.or_eq_true, decide_eq_true_eq, not_or] at hmeet
        exact (brackets_sides ha hb hmeet.1 hmeet.2).canonical
    · exact brackets_self ha

end NumberSet

/-! ## Shapes -/

namespace Shape

variable {a b : Shape}

theorem wellFormed_of_mem_without (ha : a.wellFormed = true) (hb : b.wellFormed = true) {s : Shape}
    (hs : s ∈ a.without b) : s.wellFormed = true := by
  unfold without at hs
  split at hs
  · next m n =>
    simp only [wellFormed] at ha hb
    obtain ⟨k, hk, rfl⟩ := List.mem_map.1 hs
    simpa only [wellFormed] using (NumberSet.brackets_without ha hb).wellFormed k hk
  · split at hs
    · cases hs
    · rwa [List.mem_singleton.1 hs]

/-- The difference of two shapes has the values that only the left one has. -/
theorem exists_mem_without (ha : a.wellFormed = true) (hb : b.wellFormed = true) {v : Value}
    (hv : a.has v = true) (hbv : b.has v = false) : ∃ s ∈ a.without b, s.has v = true := by
  unfold without
  split
  · next m n =>
    simp only [wellFormed] at ha hb
    obtain ⟨x, rfl, hx⟩ := has_number.1 hv
    obtain ⟨k, hk, hkx⟩ := (NumberSet.brackets_without ha hb).keeps x hx
      (by simpa only [has] using hbv)
    exact ⟨number k, List.mem_map_of_mem hk, has_number.2 ⟨x, rfl, hkx⟩⟩
  · split
    · next hsub =>
      rw [has_of_subset a b ha hb hsub v hv] at hbv
      cases hbv
    · exact ⟨a, List.mem_singleton_self a, hv⟩

/-- The difference of two shapes has values of the left one only. -/
theorem has_of_mem_without (ha : a.wellFormed = true) (hb : b.wellFormed = true) {s : Shape}
    (hs : s ∈ a.without b) {v : Value} (hv : s.has v = true) : a.has v = true := by
  unfold without at hs
  split at hs
  · next m n =>
    simp only [wellFormed] at ha hb
    obtain ⟨k, hk, rfl⟩ := List.mem_map.1 hs
    obtain ⟨x, rfl, hx⟩ := has_number.1 hv
    exact has_number.2 ⟨x, rfl, (NumberSet.brackets_without ha hb).within x ⟨k, hk, hx⟩⟩
  · split at hs
    · cases hs
    · rwa [← List.mem_singleton.1 hs]

end Shape

/-! ## Types -/

namespace Ty

/-- What a shape leaves of the shapes of a union is brought into canonical form, but for a single
shape. -/
theorem withoutShape_oneOf (xs : List Shape) (b : Shape) :
    (oneOf xs).withoutShape b = oneOf (xs.flatMap (·.without b)) ∨
      (oneOf xs).withoutShape b = oneOf (Shape.canonical (xs.flatMap (·.without b))) := by
  match xs with
  | [] => exact Or.inr rfl
  | [x] => exact Or.inl (by simp [withoutShape])
  | _ :: _ :: _ => exact Or.inr rfl

section WithoutShape

variable {xs : List Shape} {b : Shape}

theorem wellFormed_of_mem_flatMap_without (hxs : ∀ x ∈ xs, x.wellFormed = true)
    (hb : b.wellFormed = true) : ∀ s ∈ xs.flatMap (·.without b), s.wellFormed = true := by
  intro s hs
  obtain ⟨x, hx, hs⟩ := List.mem_flatMap.1 hs
  exact Shape.wellFormed_of_mem_without (hxs x hx) hb hs

theorem wellFormed_withoutShape {t : Ty} (ht : t.wellFormed = true) (hb : b.wellFormed = true) :
    (t.withoutShape b).wellFormed = true := by
  cases t with
  | any => exact ht
  | oneOf xs =>
    have hrest := wellFormed_of_mem_flatMap_without (wellFormed_oneOf.1 ht) hb
    rcases withoutShape_oneOf xs b with he | he <;> rw [he, wellFormed_oneOf]
    exacts [hrest, fun s hs => Shape.wellFormed_of_mem_canonical hrest hs]

theorem has_withoutShape_oneOf (hxs : ∀ x ∈ xs, x.wellFormed = true) (hb : b.wellFormed = true)
    (v : Value) :
    ((oneOf xs).withoutShape b).has v = true ↔ ∃ x ∈ xs, ∃ s ∈ x.without b, s.has v = true := by
  have hrest : (∃ s ∈ xs.flatMap (·.without b), s.has v = true) ↔
      ∃ x ∈ xs, ∃ s ∈ x.without b, s.has v = true := by
    constructor
    · rintro ⟨s, hs, hv⟩
      obtain ⟨x, hx, hs⟩ := List.mem_flatMap.1 hs
      exact ⟨x, hx, s, hs, hv⟩
    · rintro ⟨x, hx, s, hs, hv⟩
      exact ⟨s, List.mem_flatMap.2 ⟨x, hx, hs⟩, hv⟩
  rw [← hrest]
  rcases withoutShape_oneOf xs b with he | he <;> rw [he, has_oneOf]
  exact Shape.has_canonical (wellFormed_of_mem_flatMap_without hxs hb)

/-- A type keeps the values that a shape lacks. -/
theorem has_withoutShape {t : Ty} (ht : t.wellFormed = true) (hb : b.wellFormed = true) {v : Value}
    (hv : t.has v = true) (hbv : b.has v = false) : (t.withoutShape b).has v = true := by
  cases t with
  | any => exact has_any v
  | oneOf xs =>
    have hxs := wellFormed_oneOf.1 ht
    obtain ⟨x, hx, hxv⟩ := has_oneOf.1 hv
    exact (has_withoutShape_oneOf hxs hb v).2
      ⟨x, hx, Shape.exists_mem_without (hxs x hx) hb hxv hbv⟩

theorem has_of_has_withoutShape {t : Ty} (ht : t.wellFormed = true) (hb : b.wellFormed = true)
    {v : Value} (hv : (t.withoutShape b).has v = true) : t.has v = true := by
  cases t with
  | any => exact has_any v
  | oneOf xs =>
    have hxs := wellFormed_oneOf.1 ht
    obtain ⟨x, hx, s, hs, hsv⟩ := (has_withoutShape_oneOf hxs hb v).1 hv
    exact has_oneOf.2 ⟨x, hx, Shape.has_of_mem_without (hxs x hx) hb hs hsv⟩

end WithoutShape

/-- The bracket holds for the removal of one shape after the other. -/
theorem bracketed_foldl_withoutShape : ∀ (ys : List Shape) (t : Ty), t.wellFormed = true →
    (∀ y ∈ ys, y.wellFormed = true) → ∀ v : Value,
      (t.has v = true → (∀ y ∈ ys, y.has v = false) → (ys.foldl withoutShape t).has v = true) ∧
        ((ys.foldl withoutShape t).has v = true → t.has v = true)
  | [], _, _, _, _ => ⟨fun hv _ => hv, id⟩
  | y :: ys, t, ht, hys, v => by
    have hy := hys y List.mem_cons_self
    obtain ⟨hkeeps, hwithin⟩ := bracketed_foldl_withoutShape ys (t.withoutShape y)
      (wellFormed_withoutShape ht hy) (fun z hz => hys z (List.mem_cons_of_mem _ hz)) v
    refine ⟨fun hv hnot => ?_, fun hv => has_of_has_withoutShape ht hy (hwithin hv)⟩
    exact hkeeps (has_withoutShape ht hy hv (hnot y List.mem_cons_self))
      fun z hz => hnot z (List.mem_cons_of_mem _ hz)

/-- Difference is bracketed : it loses no value that the right side does not cover, and has none
that the left side lacks. -/
theorem without_bracketed {a b : Ty} (ha : a.wellFormed = true) (hb : b.wellFormed = true)
    (v : Value) :
    (a.has v = true ∧ b.has v = false → (a.without b).has v = true) ∧
      ((a.without b).has v = true → a.has v = true) := by
  cases b with
  | any =>
    refine ⟨fun h => ?_, fun h => ?_⟩
    · rw [has_any] at h
      cases h.2
    · obtain ⟨s, hs, -⟩ := has_oneOf.1 h
      cases hs
  | oneOf ys =>
    obtain ⟨hkeeps, hwithin⟩ := bracketed_foldl_withoutShape ys a ha (wellFormed_oneOf.1 hb) v
    refine ⟨fun h => hkeeps h.1 fun y hy => Bool.eq_false_iff.2 fun hyv => ?_, hwithin⟩
    rw [has_oneOf.2 ⟨y, hy, hyv⟩] at h
    cases h.2

/-- From the numbers and the points, those from zero to a half are removed with all points. -/
theorem without_bracketed_point :
    let point := ofShape (.record "point" [("x", int)])
    let a := union [number, point]
    let b := union [interval .zero .half, point]
    ∀ v : Value, (a.has v = true ∧ b.has v = false → (a.without b).has v = true) ∧
      ((a.without b).has v = true → a.has v = true) :=
  without_bracketed (by decide +kernel) (by decide +kernel)

end Ty

end FlowTypes
