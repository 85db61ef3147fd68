import FlowTypes.Proofs.TypeUniqueness
import FlowTypes.Proofs.UnionBound
import FlowTypes.Proofs.WellFormedArithmetic
import FlowTypes.Registry.Builtins

/-!
# Normal types

A type is normal if every union in it lists sets of numbers, sets of texts and records in this
order, each of the three strictly ascending and no record covered by another (`Shape.Listed`), if
its sets of numbers are well-formed, and if no record has a field that is `never` (`Ty.Normal`).
Nothing is asked of names, nor of the size of bounds.

Whatever is brought into canonical form is normal (`Shape.normal_oneOf_canonical`), and so are
unions, intersections and differences of normal types (`Ty.normal_union`, `Ty.normal_meet`,
`Ty.normal_without`), and what the built-in functions return for them, which is in canonical form
(`Ty.flat_builtins`, `Ty.normal_builtins`).
-/

namespace FlowTypes

/-! ## Canonical lists -/

namespace NumberSet

theorem eq_of_compare_eq {a b : NumberSet} (h : a.compare b = .eq) : a = b := by
  simp only [compare, Binary64.compare, Ordering.then_eq_eq, compare_eq_iff_eq] at h
  refine eq_of_compare (compare_ne_gt_iff.2 ?_) (compare_ne_gt_iff.2 ?_) <;> omega

theorem compare_eq_lt {a b : NumberSet} (h : (a.compare b != .gt) = true) (hne : a ≠ b) :
    a.compare b = .lt := by
  cases hab : a.compare b with
  | lt => rfl
  | eq => exact absurd (eq_of_compare_eq hab) hne
  | gt => simp [hab] at h

/-- The canonical form of well-formed sets is strictly ascending. -/
theorem ascending_canonical {items : List NumberSet} (hitems : AllWellFormed items) :
    (canonical items).Pairwise fun a b => a.compare b = .lt := by
  match items with
  | [] => exact List.Pairwise.nil
  | [n] => exact List.pairwise_singleton _ _
  | a :: b :: rest =>
    rw [canonical_eq_joined (by simp), joined]
    split
    · exact List.pairwise_singleton _ _
    · refine (sorted_assemble.and (nodup_assemble (parts_of_wellFormed hitems)
        (pairwise_realRanges hitems) fun r hr => ?_)).imp fun h => compare_eq_lt h.1 h.2
      exact (lt_of_mem_realRanges hitems r hr).2

end NumberSet

namespace TextSet

/-- Are both texts literals, the first one before the second? -/
def Before : TextSet → TextSet → Prop
  | literal s, literal t => s < t
  | _, _ => False

/-- The canonical form of sets of texts is strictly ascending. -/
theorem before_canonical (items : List TextSet) : (canonical items).Pairwise Before := by
  by_cases hall : all ∈ items
  · rw [canonical_of_mem hall]
    exact List.pairwise_singleton _ _
  · rw [canonical_of_notMem hall]
    refine List.pairwise_map.2 (((pairwise_ascending items).and (nodup_ascending items)).imp ?_)
    exact fun h => lt_of_le_of_ne h.1 h.2

end TextSet

/-! ## Normal types -/

/-- Are the shapes listed as in a union : numbers, texts and records, each strictly ascending, and
no record covered by another? -/
structure Shape.Listed (ss : List Shape) : Prop where
  kinds : ss = (ss.filterMap number?).map number ++ (ss.filterMap text?).map text ++
    ss.filter isRecord
  numbers : (ss.filterMap number?).Pairwise fun a b => a.compare b = .lt
  texts : (ss.filterMap text?).Pairwise TextSet.Before
  records : SeparateRecords (ss.filter isRecord)

mutual

/-- Are the shapes of every union in the type listed in order and normal? -/
def Ty.Normal : Ty → Prop
  | .any => True
  | .oneOf ss => Shape.Listed ss ∧ Shape.AllNormal ss

/-- Is the set of numbers well-formed, or are the fields normal? -/
def Shape.Normal : Shape → Prop
  | .number n => n.wellFormed = true
  | .text _ => True
  | .record _ fields => Ty.FieldsNormal fields

/-- Are the shapes normal? -/
def Shape.AllNormal : List Shape → Prop
  | [] => True
  | s :: ss => s.Normal ∧ Shape.AllNormal ss

/-- Are the types of the fields normal, and none of them `never`? -/
def Ty.FieldsNormal : List (String × Ty) → Prop
  | [] => True
  | (_, t) :: fields => t.isNever = false ∧ t.Normal ∧ Ty.FieldsNormal fields

end

theorem Shape.allNormal_iff {ss : List Shape} : Shape.AllNormal ss ↔ ∀ s ∈ ss, s.Normal := by
  induction ss with
  | nil => simp [Shape.AllNormal]
  | cons s ss ih => rw [Shape.AllNormal, ih, List.forall_mem_cons]

theorem Ty.fieldsNormal_iff {fields : List (String × Ty)} :
    Ty.FieldsNormal fields ↔ ∀ f ∈ fields, f.2.isNever = false ∧ f.2.Normal := by
  induction fields with
  | nil => simp [Ty.FieldsNormal]
  | cons f fields ih => rw [Ty.FieldsNormal, ih, List.forall_mem_cons, and_assoc]

theorem Ty.normal_any : Ty.any.Normal := by
  simp only [Ty.Normal]

theorem Ty.normal_oneOf {ss : List Shape} :
    (Ty.oneOf ss).Normal ↔ Shape.Listed ss ∧ ∀ s ∈ ss, s.Normal := by
  rw [Ty.Normal, Shape.allNormal_iff]

theorem Shape.normal_number {n : NumberSet} : (Shape.number n).Normal ↔ n.wellFormed = true := by
  rw [Shape.Normal]

theorem Shape.normal_text (t : TextSet) : (Shape.text t).Normal := by
  simp only [Shape.Normal]

theorem Shape.normal_record {name : String} {fields : List (String × Ty)} :
    (Shape.record name fields).Normal ↔ ∀ f ∈ fields, f.2.isNever = false ∧ f.2.Normal := by
  rw [Shape.Normal, Ty.fieldsNormal_iff]

/-! ## Unions -/

namespace Shape

variable {items : List Shape}

theorem allWellFormed_numbers (hitems : ∀ s ∈ items, s.Normal) :
    NumberSet.AllWellFormed (items.filterMap number?) :=
  fun _ hn => normal_number.1 (hitems _ (mem_filterMap_number?.1 hn))

/-- A canonical form lists its shapes in order. -/
theorem listed_canonical (hitems : ∀ s ∈ items, s.Normal) : Listed (canonical items) where
  kinds := by
    rw [filterMap_number?_canonical, filterMap_text?_canonical, filter_isRecord_canonical]
    rfl
  numbers := by
    rw [filterMap_number?_canonical]
    exact NumberSet.ascending_canonical (allWellFormed_numbers hitems)
  texts := by
    rw [filterMap_text?_canonical]
    exact TextSet.before_canonical _
  records := by
    rw [filter_isRecord_canonical]
    exact separate_canonicalRecords _

theorem normal_of_mem_canonical (hitems : ∀ s ∈ items, s.Normal) :
    ∀ s ∈ canonical items, s.Normal := by
  intro s hs
  rcases mem_canonical.1 hs with ⟨n, hn, rfl⟩ | ⟨t, -, rfl⟩ | hs
  · exact normal_number.2 (NumberSet.wellFormed_of_mem_canonical (allWellFormed_numbers hitems) hn)
  · exact normal_text t
  · exact hitems s (List.mem_of_mem_filter (mem_of_mem_canonicalRecords hs))

theorem normal_oneOf_canonical (hitems : ∀ s ∈ items, s.Normal) :
    (Ty.oneOf (canonical items)).Normal :=
  Ty.normal_oneOf.2 ⟨listed_canonical hitems, normal_of_mem_canonical hitems⟩

theorem Normal.ofShape {s : Shape} (h : s.Normal) : (Ty.ofShape s).Normal := by
  rw [Ty.ofShape, ← canonical_singleton s]
  exact normal_oneOf_canonical (List.forall_mem_singleton.2 h)

theorem canonical_map_text (ts : List TextSet) :
    canonical (ts.map text) = (TextSet.canonical ts).map text := by
  have hnumber : number? ∘ text = fun _ => none := rfl
  have htext : text? ∘ text = some := rfl
  have hrecord : (ts.map text).filter isRecord = [] := List.filter_eq_nil_iff.2 fun s hs => by
    obtain ⟨t, -, rfl⟩ := List.mem_map.1 hs
    simp [isRecord]
  rw [canonical, List.filterMap_map, List.filterMap_map, hnumber, htext, hrecord,
    List.filterMap_some, List.filterMap_none]
  exact List.append_nil _

end Shape

namespace Ty

theorem normal_never : never.Normal :=
  Shape.normal_oneOf_canonical (List.forall_mem_nil Shape.Normal)

theorem Normal.of_mem_shapes {t : Ty} (ht : t.Normal) {s : Shape} (hs : s ∈ t.shapes) :
    s.Normal := by
  cases t with
  | any => cases hs
  | oneOf ss => exact (normal_oneOf.1 ht).2 s hs

theorem normal_union {ts : List Ty} (hts : ∀ t ∈ ts, t.Normal) : (union ts).Normal := by
  unfold union
  split
  · exact normal_any
  · refine Shape.normal_oneOf_canonical fun s hs => ?_
    obtain ⟨t, ht, hs⟩ := List.mem_flatMap.1 hs
    exact (hts t ht).of_mem_shapes hs

theorem normal_ofNumbers {ns : List NumberSet} (hns : NumberSet.AllWellFormed ns) :
    (ofNumbers (NumberSet.canonical ns)).Normal := by
  rw [ofNumbers, ← Shape.canonical_map_number]
  refine Shape.normal_oneOf_canonical fun s hs => ?_
  obtain ⟨n, hn, rfl⟩ := List.mem_map.1 hs
  exact Shape.normal_number.2 (hns n hn)

theorem normal_ofTexts (ts : List TextSet) : (ofTexts (TextSet.canonical ts)).Normal := by
  rw [ofTexts, ← Shape.canonical_map_text]
  refine Shape.normal_oneOf_canonical fun s hs => ?_
  obtain ⟨t, -, rfl⟩ := List.mem_map.1 hs
  exact Shape.normal_text t

/-- A set of numbers, or none. -/
theorem normal_ofNumbers_toList {o : Option NumberSet} (ho : NumberSet.AllWellFormed o.toList) :
    (ofNumbers o.toList).Normal := by
  cases o with
  | none => exact normal_never
  | some n => exact (Shape.normal_number.2 (ho n (List.mem_singleton_self n))).ofShape

theorem normal_interval (lo hi : Binary64) : (interval lo hi).Normal :=
  normal_ofNumbers_toList (NumberSet.allWellFormed_interval? lo hi)

theorem normal_integers (lo hi : Binary64) : (integers lo hi).Normal :=
  normal_ofNumbers_toList (NumberSet.allWellFormed_integers? lo hi)

theorem normal_literal (v : Binary64) : (literal v).Normal :=
  (Shape.normal_number.2 rfl).ofShape

theorem normal_textLiteral (s : String) : (textLiteral s).Normal :=
  (Shape.normal_text _).ofShape

theorem normal_number : number.Normal :=
  (Shape.normal_number.2 rfl).ofShape

theorem normal_int : int.Normal :=
  (Shape.normal_number.2 NumberSet.wellFormed_everyInteger).ofShape

theorem normal_string : string.Normal :=
  (Shape.normal_text _).ofShape

/-- A record with a field that is `never` is `never` itself. -/
theorem normal_record {name : String} {fields : List (String × Ty)}
    (hfields : ∀ f ∈ fields, f.2.Normal) : (record name fields).Normal := by
  unfold record
  split
  · exact normal_never
  · next hnever =>
    refine (Shape.normal_record.2 fun f hf => ⟨?_, hfields f hf⟩).ofShape
    simp only [List.any_eq_true, not_exists, not_and, Bool.not_eq_true] at hnever
    exact hnever f hf

end Ty

/-! ## Intersections -/

theorem Ty.keptByMeets_normal : KeptByMeets Ty.Normal Shape.Normal where
  shapes ha := (normal_oneOf.1 ha).2
  canonical := Shape.normal_oneOf_canonical
  number {lead _ _ _} ha hb hk := Shape.normal_number.2
    (NumberSet.wellFormed_meet lead (Shape.normal_number.1 ha) (Shape.normal_number.1 hb) hk)
  text := Shape.normal_text
  fields ha f hf := (Shape.normal_record.1 ha f hf).2
  record _ hfields := Shape.normal_record.2 fun f hf => (hfields f hf).2

theorem Ty.normal_meet (lead : Side) (a b : Ty) (ha : a.Normal) (hb : b.Normal) :
    (a.meet lead b).Normal :=
  keptByMeets_normal.meet lead a b ha hb

namespace Ty

theorem normal_intersectAll {ts : List Ty} (hts : ∀ t ∈ ts, t.Normal) :
    (intersectAll ts).Normal :=
  List.foldlRecOn ts intersect normal_any fun t ht a ha => normal_meet .left t a ht (hts a ha)

/-! ## Differences -/

/-- A difference of two shapes is in canonical form, and normal. -/
theorem normal_oneOf_without {x y : Shape} (hx : x.Normal) (hy : y.Normal) :
    (oneOf (x.without y)).Normal := by
  unfold Shape.without
  split
  · next m n =>
    obtain ⟨items, hitems, he⟩ :=
      NumberSet.exists_canonical_without (Shape.normal_number.1 hx) (Shape.normal_number.1 hy)
    rw [he]
    exact normal_ofNumbers hitems
  · split
    · exact normal_never
    · exact hx.ofShape

theorem normal_withoutShape {t : Ty} {y : Shape} (ht : t.Normal) (hy : y.Normal) :
    (t.withoutShape y).Normal := by
  cases t with
  | any => exact ht
  | oneOf xs =>
    have hxs := (normal_oneOf.1 ht).2
    have hrest : ∀ s ∈ xs.flatMap (·.without y), s.Normal := by
      intro s hs
      obtain ⟨x, hx, hs⟩ := List.mem_flatMap.1 hs
      exact (normal_oneOf.1 (normal_oneOf_without (hxs x hx) hy)).2 s hs
    match xs, hxs, hrest with
    | [], _, hrest => exact Shape.normal_oneOf_canonical hrest
    | [x], hxs, _ => exact normal_oneOf_without (hxs x List.mem_cons_self) hy
    | _ :: _ :: _, _, hrest => exact Shape.normal_oneOf_canonical hrest

theorem normal_without {a b : Ty} (ha : a.Normal) (hb : b.Normal) : (a.without b).Normal := by
  cases b with
  | any => exact normal_never
  | oneOf ys =>
    have hys := (normal_oneOf.1 hb).2
    exact List.foldlRecOn ys withoutShape ha fun t ht y hy => normal_withoutShape ht (hys y hy)

/-! ## Built-in functions -/

theorem Normal.allWellFormed_numbers {t : Ty} (ht : t.Normal) :
    NumberSet.AllWellFormed t.numbers := by
  cases t with
  | any => exact NumberSet.allWellFormed_cons.2 ⟨rfl, NumberSet.allWellFormed_nil⟩
  | oneOf ss => exact Shape.allWellFormed_numbers (normal_oneOf.1 ht).2

/-- The canonical form of well-formed sets of numbers, or of sets of texts. -/
inductive Flat : Ty → Prop
  | numbers {ns : List NumberSet} (hns : NumberSet.AllWellFormed ns) :
      Flat (ofNumbers (NumberSet.canonical ns))
  | texts (ts : List TextSet) : Flat (ofTexts (TextSet.canonical ts))

theorem Flat.normal {t : Ty} : t.Flat → t.Normal
  | .numbers hns => normal_ofNumbers hns
  | .texts ts => normal_ofTexts ts

theorem flat_never : never.Flat := .texts []

/-- An operation on every one of some sets of numbers. -/
theorem flat_image {ns : List NumberSet} {f : NumberSet → List NumberSet}
    (hf : ∀ n ∈ ns, NumberSet.AllWellFormed (f n)) : (ofNumbers (NumberSet.image f ns)).Flat :=
  .numbers (NumberSet.allWellFormed_flatMap hf)

/-- An operation on every pair of some sets of numbers. -/
theorem flat_image₂ {ns ms : List NumberSet} {f : NumberSet → NumberSet → List NumberSet}
    (hf : ∀ n ∈ ns, ∀ m ∈ ms, NumberSet.AllWellFormed (f n m)) :
    (ofNumbers (NumberSet.image₂ f ns ms)).Flat :=
  .numbers (NumberSet.allWellFormed_flatMap fun n hn =>
    NumberSet.allWellFormed_flatMap (hf n hn))

section Builtins

variable {a b : Ty}

theorem flat_negate (a : Ty) : a.negate.Flat :=
  flat_image fun n _ => NumberSet.allWellFormed_negateOne n

theorem flat_round (ha : NumberSet.AllWellFormed a.numbers) : a.round.Flat :=
  flat_image fun n hn => NumberSet.allWellFormed_roundOne (ha n hn)

theorem flat_reciprocal (a : Ty) : a.reciprocal.Flat :=
  flat_image fun n _ => NumberSet.allWellFormed_reciprocalOne n

theorem flat_add (a b : Ty) : (a.add b).Flat :=
  flat_image₂ fun n _ m _ => NumberSet.allWellFormed_addOne n m

theorem flat_subtract (a b : Ty) : (a.subtract b).Flat :=
  flat_image₂ fun n _ m _ => NumberSet.allWellFormed_addOne n m

theorem flat_multiply (a b : Ty) : (a.multiply b).Flat :=
  flat_image₂ fun n _ m _ => NumberSet.allWellFormed_multiplyOne n m

theorem flat_minimum (ha : NumberSet.AllWellFormed a.numbers)
    (hb : NumberSet.AllWellFormed b.numbers) : (a.minimum b).Flat :=
  flat_image₂ fun n hn m hm => NumberSet.allWellFormed_minimumOne (ha n hn) (hb m hm)

theorem flat_maximum (a b : Ty) : (a.maximum b).Flat :=
  flat_image fun n _ => NumberSet.allWellFormed_negateOne n

theorem flat_concatenate (a b : Ty) : (a.concatenate b).Flat := .texts _

end Builtins

section Arguments

variable {P : Ty → Prop} {name : String} {param : Ty} {args : List Ty}

theorem flat_unary {f : Ty → Ty} (hargs : ∀ t ∈ args, P t) (hf : ∀ {a : Ty}, P a → (f a).Flat) :
    ((Function.unary name param f).apply args).Flat := by
  match args, hargs with
  | [], _ => exact flat_never
  | [a], hargs => exact hf (hargs a List.mem_cons_self)
  | _ :: _ :: _, _ => exact flat_never

theorem flat_binary {f : Ty → Ty → Ty} (hargs : ∀ t ∈ args, P t)
    (hf : ∀ {a b : Ty}, P a → P b → (f a b).Flat) :
    ((Function.binary name param f).apply args).Flat := by
  match args, hargs with
  | [], _ => exact flat_never
  | [_], _ => exact flat_never
  | [a, b], hargs =>
    exact hf (hargs a List.mem_cons_self) (hargs b (List.mem_cons_of_mem _ List.mem_cons_self))
  | _ :: _ :: _ :: _, _ => exact flat_never

end Arguments

/-- Every built-in function takes types with well-formed sets of numbers to a canonical form. -/
theorem flat_builtins {f : Function} (hf : f ∈ Function.builtins) {args : List Ty}
    (hargs : ∀ t ∈ args, NumberSet.AllWellFormed t.numbers) : (f.apply args).Flat := by
  simp only [Function.builtins, List.mem_cons, List.not_mem_nil, or_false] at hf
  rcases hf with rfl | rfl | rfl | rfl | rfl | rfl | rfl | rfl | rfl
  · exact flat_binary hargs fun _ _ => flat_add _ _
  · exact flat_binary hargs fun _ _ => flat_subtract _ _
  · exact flat_binary hargs flat_minimum
  · exact flat_binary hargs fun _ _ => flat_maximum _ _
  · exact flat_binary hargs fun _ _ => flat_multiply _ _
  · exact flat_unary hargs fun _ => flat_negate _
  · exact flat_unary hargs flat_round
  · exact flat_unary hargs fun _ => flat_reciprocal _
  · exact flat_binary hargs fun _ _ => flat_concatenate _ _

/-- Every built-in function takes normal types to a normal type. -/
theorem normal_builtins {f : Function} (hf : f ∈ Function.builtins) {args : List Ty}
    (hargs : ∀ t ∈ args, t.Normal) : (f.apply args).Normal :=
  (flat_builtins hf fun t ht => (hargs t ht).allWellFormed_numbers).normal

end Ty

end FlowTypes
