import FlowTypes.Proofs.Difference
import FlowTypes.Proofs.InclusionOrder

/-!
# A union contains its operands

The inclusion test accepts a type in its union with others (`Ty.subset_union`), for all types that
the constructors and the operations of sets build (`Ty.Composed`), with one condition. A union cuts
real intervals out of ranges of integers. The last integer before a cut is found by a rounded step
down, and beyond `2^53` that step may pass integers, which the union then lacks
(`Ty.not_subset_union_of_step`). The condition is that from the beginnings of such real intervals a
step down and one up lead back (`NumberSet.stepsBack`), as they do within `2^53`
(`NumberSet.stepsBack_of_within`).
-/

namespace FlowTypes

open ExtendedRat Binary64

/-! ## Steps back -/

namespace Binary64

variable {v : Binary64}

/-- Do a step down and one up lead back to the double, or above? -/
def stepsBack (v : Binary64) : Bool := v ≤ v - one + one

/-- A step down that leads back passes no unpassed integer : the step up would pass it too. -/
theorem int_le_value_sub_one_of_stepsBack (hv : v.isWhole = true) (hback : v.stepsBack = true)
    {z : ℤ} (hz : Unpassed (some (int z))) (h : int z < v.value) : int z ≤ (v - one).value := by
  by_contra hlt
  have hup := unpassed_int.1 hz (v - one) (isWhole_sub_one hv) (not_le.1 hlt)
  exact absurd ((le_iff_value.1 (of_decide_eq_true hback)).2.2.trans hup) (not_le.2 h)

theorem stepsBack_of_within (hv : v.isWhole = true) (hb : v.within (2 ^ 53 - 1) = true) :
    v.stepsBack = true := by
  have hinfinity : ∀ s : Bool, (infinity s).stepsBack = true := by
    intro s
    rw [stepsBack, infinity_sub_one, infinity_add_one]
    exact decide_eq_true (le_iff_value.2 ⟨rfl, rfl, le_refl _⟩)
  rcases value_of_isWhole hv with rfl | rfl | ⟨hf, k, hk⟩
  · exact hinfinity _
  · exact hinfinity _
  · have hle := natAbs_le_of_within hb hf hk
    have hsub := value_sub_one hf hk (by omega)
    have hnan := isNaN_of_isWhole (isWhole_sub_one hv)
    have hadd := value_add_one (isFinite_of_value_eq_int hnan hsub) hsub (by omega)
    refine decide_eq_true (le_iff_value.2 ⟨isNaN_of_isWhole hv,
      isNaN_of_isWhole (isWhole_add_one (isWhole_sub_one hv)), ?_⟩)
    rw [hadd, hk, int_le_int]
    omega

end Binary64

namespace NumberSet

variable {items : List NumberSet}

/-- Does every real interval that begins among the integers of a range begin where steps lead
back? -/
def stepsBack (items : List NumberSet) : Bool :=
  items.all fun m => items.all fun n =>
    match m, n with
    | integers l h, interval lo _ => !(l < lo.ceil && lo.ceil ≤ h) || lo.ceil.stepsBack
    | _, _ => true

theorem stepsBack_of_mem (h : stepsBack items = true) {l u lo hi : Binary64}
    (hm : integers l u ∈ items) (hn : interval lo hi ∈ items) (hlt : l < lo.ceil)
    (hle : lo.ceil ≤ u) : lo.ceil.stepsBack = true := by
  have h := List.all_eq_true.1 (List.all_eq_true.1 h _ hm) _ hn
  simpa [hlt, hle] using h

/-- Within 53 bits the steps lead back. -/
theorem stepsBack_of_within (hitems : ∀ n ∈ items, n.wellFormed = true)
    (h : ∀ lo hi, interval lo hi ∈ items → lo.within (2 ^ 53 - 1) = true) :
    stepsBack items = true := by
  simp only [stepsBack, List.all_eq_true]
  intro m _ n hn
  split
  · next lo hi _ =>
    have hwhole := isWhole_ceil (lt_of_wellFormed_interval (hitems _ hn)).1
    rw [Binary64.stepsBack_of_within hwhole (within_ceil (h lo hi hn)), Bool.or_true]
  · rfl

/-- Steps that lead back pass no unpassed integer. -/
theorem cutsStop_of_stepsBack (hitems : ∀ n ∈ items, n.wellFormed = true)
    (hback : stepsBack items = true) : CutsStop items := by
  intro z hz s hs r hr _ hlt hle hzr
  obtain ⟨⟨t, ht, he⟩, -⟩ := Range.bounds_of_mem_merge r hr
  have hinterval := mem_filterMap_reals?.1 ht
  have hintegers := mem_filterMap_integral?.1 hs
  obtain ⟨hlon, -⟩ := lt_of_wellFormed_interval (hitems _ hinterval)
  obtain ⟨hln, hun, -⟩ := whole_of_wellFormed_integers (hitems _ hintegers)
  have hwhole := isWhole_ceil hlon
  have hceil := isNaN_of_isWhole hwhole
  rw [Range.first, he] at hlt hle hzr ⊢
  exact int_le_value_sub_one_of_stepsBack hwhole (stepsBack_of_mem hback hintegers hinterval
    (lt_iff_value.2 ⟨isNaN_of_isWhole hln, hceil, hlt⟩)
    (le_iff_value.2 ⟨hceil, isNaN_of_isWhole hun, hle⟩)) hz hzr

/-- The canonical form of a union covers each of its sets of numbers. -/
theorem covered_canonical (hitems : ∀ n ∈ items, n.wellFormed = true)
    (hback : stepsBack items = true) {n : NumberSet} (hn : n ∈ items) :
    (∃ m ∈ canonical items, n.subset m = true) ∨ n.joint (canonical items) = true :=
  (covered_iff_unpassed (hitems n hn) (fitted_canonical hitems)).2 fun p hp hnp =>
    (sameUnpassed_canonical hitems (cutsStop_of_stepsBack hitems hback) p hp).2 ⟨n, hn, hnp⟩

end NumberSet

/-! ## Shapes and types -/

section Union

variable {p : NumberSet → Bool}

/-- The canonical form of a union covers each of its shapes. -/
theorem Shape.covered_canonical {items : List Shape} (hitems : ∀ s ∈ items, s.Regular p)
    (hback : NumberSet.stepsBack (items.filterMap number?) = true) {x : Shape} (hx : x ∈ items) :
    x.Covered (canonical items) := by
  cases x with
  | number n =>
    rw [covered_number, filterMap_number?_canonical]
    exact NumberSet.covered_canonical
      (wellFormed_of_mem_numbers fun s hs => (hitems s hs).wellFormed) hback
      (mem_filterMap_number?.2 hx)
  | text t =>
    rw [covered_text, filterMap_text?_canonical]
    exact TextSet.exists_subset_of_has fun s hs =>
      (TextSet.has_canonical _ s).2 ⟨t, mem_filterMap_text?.2 hx, hs⟩
  | record name fields =>
    -- What covers the record is handed on to the records that are kept.
    have hrecords : ∀ s ∈ items.filter isRecord, s.Regular p ∧ s.isRecord = true := fun s hs =>
      ⟨hitems s (List.mem_of_mem_filter hs), (List.mem_filter.1 hs).2⟩
    have hself := subset_of_identity _ _ (hitems _ hx).wellFormed rfl
    obtain ⟨k, hk, hsub⟩ := (exists_mem_canonicalRecords
      (fun s t hs ht hst h => subset_trans_of_record (hitems _ hx) hs.1 ht.1 rfl h hst)
      (fun s t hs ht he h => subset_trans_of_record (hitems _ hx) hs.1 ht.1 rfl h
        (subset_of_identity s t hs.1.wellFormed
          (identity_of_describe hs.1.wellFormed ht.1.wellFormed he)))
      hrecords).2 ⟨_, List.mem_filter.2 ⟨hx, rfl⟩, hself⟩
    exact Or.inl ⟨k, mem_canonical.2 (Or.inr (Or.inr hk)), hsub⟩

namespace Ty

/-- A union of regular types contains each of them. -/
theorem subset_union {ts : List Ty} (hts : ∀ t ∈ ts, t.Regular p)
    (hback : NumberSet.stepsBack ((ts.flatMap shapes).filterMap Shape.number?) = true) {t : Ty}
    (ht : t ∈ ts) : t.subset (union ts) = true := by
  unfold union
  split
  · cases t <;> simp only [subset, isAny]
  · next hany =>
    cases t with
    | any => exact absurd (List.any_eq_true.2 ⟨_, ht, rfl⟩) hany
    | oneOf xs =>
      rw [subset, Shape.allCovered_iff]
      have hshapes : ∀ s ∈ ts.flatMap shapes, s.Regular p := fun s hs => by
        obtain ⟨t, ht, hs⟩ := List.mem_flatMap.1 hs
        exact (hts t ht).of_mem_shapes hs
      exact fun x hx => Shape.covered_canonical hshapes hback (List.mem_flatMap.2 ⟨_, ht, hx⟩)

end Ty

end Union

/-! ## Types that operations build -/

section Composed

variable {p : NumberSet → Bool}

/-- The difference of two sets of numbers is in canonical form. -/
theorem NumberSet.exists_canonical_without {a b : NumberSet} (ha : a.wellFormed = true)
    (hb : b.wellFormed = true) :
    ∃ items, (∀ n ∈ items, n.wellFormed = true) ∧ a.without b = canonical items := by
  have hself : ∃ items, (∀ n ∈ items, n.wellFormed = true) ∧ [a] = canonical items :=
    ⟨[a], by simpa using ha, rfl⟩
  have hintegers : ∀ {lo hi first last : Binary64}, (integers lo hi).wellFormed = true →
      ∃ items, (∀ n ∈ items, n.wellFormed = true) ∧
        withoutIntegers lo hi first last = canonical items := by
    intro lo hi first last hwf
    unfold withoutIntegers
    split
    · exact ⟨[integers lo hi], by simpa using hwf, rfl⟩
    · refine ⟨_, fun n hn => ?_, rfl⟩
      rcases List.mem_append.1 hn with hn | hn <;>
        exact NumberSet.wellFormed_of_mem_integers? (Option.mem_toList.1 hn)
  unfold without
  split
  · exact ⟨[], by simp, rfl⟩
  · split
    · split
      · next hv => exact ⟨_, (brackets_all_nan hv).wellFormed, rfl⟩
      · exact hself
    · exact ⟨_, (brackets_all_interval hb).wellFormed, rfl⟩
    · split
      · exact hintegers ha
      · exact hself
    · exact hintegers ha
    · exact hintegers ha
    · split
      · exact hself
      · exact ⟨_, fun n hn => wellFormed_of_mem_sides hn, rfl⟩
    · exact hself

/-- The canonical form of sets of numbers is one of shapes. -/
theorem Shape.canonical_map_number (items : List NumberSet) :
    canonical (items.map number) = (NumberSet.canonical items).map number := by
  have hnumber : number? ∘ number = some := rfl
  have htext : text? ∘ number = fun _ => none := rfl
  have hrecord : (items.map number).filter isRecord = [] := List.filter_eq_nil_iff.2 fun s hs => by
    obtain ⟨n, -, rfl⟩ := List.mem_map.1 hs
    simp [isRecord]
  rw [canonical, List.filterMap_map, List.filterMap_map, hnumber, htext, hrecord,
    List.filterMap_some, List.filterMap_none]
  exact (List.append_nil _).trans (List.append_nil _)

theorem Shape.regular_of_mem_without {a b : Shape} (ha : a.Regular fun _ => true)
    (hb : b.wellFormed = true) : ∀ s ∈ a.without b, s.Regular fun _ => true := by
  intro s hs
  have hwf := Shape.wellFormed_of_mem_without ha.wellFormed hb hs
  unfold without at hs
  split at hs
  · obtain ⟨n, -, rfl⟩ := List.mem_map.1 hs
    exact regular_number.2 ⟨by simpa only [wellFormed] using hwf, rfl⟩
  · split at hs
    · cases hs
    · rwa [List.mem_singleton.1 hs]

/-- The difference of two shapes is in canonical form. -/
theorem Shape.exists_canonical_without {a b : Shape} (ha : a.wellFormed = true)
    (hb : b.wellFormed = true) :
    ∃ items, (∀ s ∈ items, s.wellFormed = true) ∧ a.without b = canonical items := by
  unfold without
  split
  · next m n =>
    simp only [wellFormed] at ha hb
    obtain ⟨items, hitems, he⟩ := NumberSet.exists_canonical_without ha hb
    refine ⟨items.map number, fun s hs => ?_, by rw [canonical_map_number, he]⟩
    obtain ⟨k, hk, rfl⟩ := List.mem_map.1 hs
    simpa only [wellFormed] using hitems k hk
  · split
    · exact ⟨[], by simp, rfl⟩
    · exact ⟨[a], by simpa using ha, (canonical_singleton a).symm⟩

namespace Ty

theorem regular_withoutShape {t : Ty} {b : Shape} (ht : t.Regular fun _ => true)
    (hb : b.wellFormed = true) : (t.withoutShape b).Regular fun _ => true := by
  have hrest : ∀ {xs : List Shape}, (∀ x ∈ xs, x.Regular fun _ => true) →
      ∀ s ∈ xs.flatMap (·.without b), s.Regular fun _ => true := fun hxs s hs => by
    obtain ⟨x, hx, hs⟩ := List.mem_flatMap.1 hs
    exact Shape.regular_of_mem_without (hxs x hx) hb s hs
  match t with
  | any => exact regular_any
  | oneOf [] => exact Shape.regular_oneOf_canonical NumberSet.kept_true (by simp)
  | oneOf [x] =>
    have hx := (regular_oneOf.1 ht).2 x List.mem_cons_self
    exact regular_oneOf.2 ⟨Shape.exists_canonical_without hx.wellFormed hb,
      Shape.regular_of_mem_without hx hb⟩
  | oneOf (x :: y :: rest) =>
    exact Shape.regular_oneOf_canonical NumberSet.kept_true (hrest (regular_oneOf.1 ht).2)

theorem regular_without {a b : Ty} (ha : a.Regular fun _ => true) (hb : b.wellFormed = true) :
    (a.without b).Regular fun _ => true := by
  cases b with
  | any => exact regular_never
  | oneOf ys =>
    exact List.foldlRecOn ys withoutShape ha fun t ht y hy =>
      regular_withoutShape ht (wellFormed_oneOf.1 hb y hy)

/-- What the constructors and the operations of sets build, with identifiers for names. -/
inductive Composed : Ty → Prop
  | built (t : Ty) (ht : t.Built) : Composed t
  | record (name : String) (fields : List (String × Ty)) (hname : isIdentifier name = true)
      (hnames : ∀ f ∈ fields, isIdentifier f.1 = true) (hfields : ∀ f ∈ fields, Composed f.2) :
      Composed (record name fields)
  | union (ts : List Ty) (hts : ∀ t ∈ ts, Composed t) : Composed (union ts)
  | intersect (a b : Ty) (ha : Composed a) (hb : Composed b) : Composed (a.intersect b)
  | without (a b : Ty) (ha : Composed a) (hb : Composed b) : Composed (a.without b)

/-- What operations build is regular. -/
theorem Composed.regular {t : Ty} (h : t.Composed) : t.Regular fun _ => true := by
  induction h with
  | built t ht => exact ht.regular
  | record name fields hname hnames _ ih => exact regular_record hname hnames ih
  | union ts _ ih => exact regular_union NumberSet.kept_true ih
  | intersect a b _ _ iha ihb => exact regular_meet NumberSet.kept_true .left a b iha ihb
  | without a b _ _ iha ihb => exact regular_without iha ihb.wellFormed

/-- A union contains its operands, if steps back from the cuts in the ranges of integers lead back.
No other bound is limited, and the fields of records may have any types. -/
theorem union_contains {a b : Ty} (ha : a.Composed) (hb : b.Composed)
    (hback : NumberSet.stepsBack ((a.shapes ++ b.shapes).filterMap Shape.number?) = true) :
    a.subset (union [a, b]) = true ∧ b.subset (union [a, b]) = true := by
  have hts : ∀ t ∈ [a, b], t.Regular fun _ => true := by simpa using ⟨ha.regular, hb.regular⟩
  have hback' : NumberSet.stepsBack (([a, b].flatMap shapes).filterMap Shape.number?) = true := by
    simpa using hback
  exact ⟨subset_union hts hback' (by simp), subset_union hts hback' (by simp)⟩

/-- All integers and points, with the numbers from a half to one cut out of the integers. -/
theorem union_contains_point :
    let a := union [int, record "point" [("x", int)]]
    let b := (interval .zero .one).intersect (union [interval .half .posInf, string])
    a.subset (union [a, b]) = true ∧ b.subset (union [a, b]) = true := by
  intro a b
  have hpoint : (record "point" [("x", int)]).Composed :=
    .record _ _ (by decide +kernel) (by decide +kernel)
      (List.forall_mem_singleton.2 (.built _ .int))
  have ha : a.Composed :=
    .union _ (List.forall_mem_cons.2 ⟨.built _ .int, List.forall_mem_singleton.2 hpoint⟩)
  have hb : b.Composed := .intersect _ _ (.built _ (.interval _ _))
    (.union _ (List.forall_mem_cons.2 ⟨.built _ (.interval _ _),
      List.forall_mem_singleton.2 (.built _ .string)⟩))
  exact union_contains ha hb (by decide +kernel)

/-- From `2^53 + 2` the step down leads to `2^53`, so a union loses the integer between them, which
is no double. The test finds it missing, although the union has every value of its operands. -/
theorem not_subset_union_of_step :
    let a := integers .zero (.ofNat (2 ^ 53 + 2))
    let b := interval (.ofNat (2 ^ 53 + 2)) (.ofNat (2 ^ 53 + 4))
    a.Composed ∧ b.Composed ∧ (∀ v : Value, a.has v = true → (union [a, b]).has v = true) ∧
      a.subset (union [a, b]) = false := by
  intro a b
  refine ⟨.built _ (.integers _ _), .built _ (.interval _ _), fun v hv => ?_, by decide +kernel⟩
  have hts : ∀ t ∈ [a, b], t.wellFormed = true := by decide +kernel
  exact (has_union hts).2 ⟨a, List.mem_cons_self, hv⟩

end Ty

end Composed

end FlowTypes
