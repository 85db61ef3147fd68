import FlowTypes.Proofs.Inclusion
import FlowTypes.Proofs.TypeText
import FlowTypes.Ty.Canonical

/-!
# Canonical unions have the values of their parts

`Shape.canonical` treats numbers, texts and records apart, and keeps what each admits : numbers as
far as their canonical form is exact (`Ty.ExactFor`), texts by `TextSet.has_canonical`. Among
records, one is dropped for another of the same text, which admits the same samples since texts
identify shapes, or for one that covers it, which admits its samples since the inclusion test is
sound (`Shape.exists_mem_canonicalRecords`).

`Ty.ExactFor.admits_canonical` puts the three together, and `Ty.ExactFor.admits_union` adds
`Ty.union`. Values are the case of doubles (`Shape.has_canonical`, `Ty.union_values`). Canonical
forms stay well-formed (`Shape.wellFormed_of_mem_canonical`), and so do types without empty fields
(`Shape.noNeverField_of_mem_canonical`).
-/

namespace FlowTypes

/-! ## Texts -/

/-- The canonical form of a union of sets of texts has their texts. -/
theorem TextSet.has_canonical (items : List TextSet) (s : String) :
    (∃ t ∈ TextSet.canonical items, t.has s = true) ↔ ∃ t ∈ items, t.has s = true := by
  have hliteral : ∀ {t : String}, t ∈ items.filterMap TextSet.literal? ↔ .literal t ∈ items :=
    mem_filterMap_of_inverse TextSet.literal fun u => by cases u <;> simp [TextSet.literal?]
  unfold TextSet.canonical
  split
  · next hall =>
    simp only [List.any_eq_true, decide_eq_true_eq, exists_eq_right] at hall
    simp only [List.mem_singleton, exists_eq_left, TextSet.has, true_iff]
    exact ⟨.all, hall, rfl⟩
  · next hall =>
    simp only [List.any_eq_true, decide_eq_true_eq, exists_eq_right] at hall
    simp only [List.mem_map, exists_exists_and_eq_and, TextSet.has, decide_eq_true_eq]
    constructor
    · rintro ⟨t, ht, rfl⟩
      refine ⟨.literal t, hliteral.1 ?_, by simp⟩
      exact StableSort.mem_sort.1 ((StableSort.dropRepeats_sublist _).mem ht)
    · rintro ⟨u, hu, hs⟩
      cases u with
      | all => exact absurd hu hall
      | literal t =>
        obtain ⟨r, hr, heq⟩ := @StableSort.exists_same_dropRepeats String
          (fun a b => decide (a = b)) (by simp) _ t (StableSort.mem_sort.2 (hliteral.2 hu))
        simp only [decide_eq_true_eq] at hs heq
        exact ⟨r, hr, heq ▸ hs⟩

namespace Shape

/-! ## Records -/

variable {kept items : List Shape}

theorem mem_addRecord {item k : Shape} (h : k ∈ addRecord kept item) : k ∈ kept ∨ k = item := by
  unfold addRecord at h
  split at h
  · exact Or.inl h
  · rcases List.mem_append.1 h with h | h
    · exact Or.inl (List.mem_of_mem_filter h)
    · exact Or.inr (List.mem_singleton.1 h)

theorem mem_foldl_addRecord : ∀ (items kept : List Shape) {k : Shape},
    k ∈ items.foldl addRecord kept → k ∈ kept ∨ k ∈ items
  | [], _, _, h => Or.inl h
  | item :: items, kept, k, h => by
    rcases mem_foldl_addRecord items _ h with h | h
    · rcases mem_addRecord h with h | rfl
      exacts [Or.inl h, Or.inr List.mem_cons_self]
    · exact Or.inr (List.mem_cons_of_mem _ h)

/-- The records of a union in ascending order of their texts, each text once. -/
def distinctRecords (items : List Shape) : List Shape :=
  (StableSort.dropRepeats (fun a b : String × Shape => decide (a.1 = b.1))
    (StableSort.sort (fun a b => decide (a.1 ≤ b.1)) (items.map fun s => (s.describe, s)))).map (·.2)

theorem canonicalRecords_eq {a b : Shape} {rest : List Shape} :
    canonicalRecords (a :: b :: rest) = (distinctRecords (a :: b :: rest)).foldl addRecord [] := rfl

theorem mem_keyed_of_mem_dropRepeats {entry : String × Shape}
    (h : entry ∈ StableSort.dropRepeats (fun a b : String × Shape => decide (a.1 = b.1))
      (StableSort.sort (fun a b => decide (a.1 ≤ b.1)) (items.map fun s => (s.describe, s)))) :
    entry.1 = entry.2.describe ∧ entry.2 ∈ items := by
  have hmem := StableSort.mem_sort.1 ((StableSort.dropRepeats_sublist _).mem h)
  obtain ⟨s, hs, rfl⟩ := List.mem_map.1 hmem
  exact ⟨rfl, hs⟩

theorem mem_of_mem_distinctRecords {s : Shape} (h : s ∈ distinctRecords items) : s ∈ items := by
  obtain ⟨entry, hentry, rfl⟩ := List.mem_map.1 h
  exact (mem_keyed_of_mem_dropRepeats hentry).2

theorem mem_of_mem_canonicalRecords {s : Shape} (h : s ∈ canonicalRecords items) : s ∈ items := by
  match items with
  | [] => cases h
  | [_] => exact h
  | _ :: _ :: _ =>
    rw [canonicalRecords_eq] at h
    rcases mem_foldl_addRecord _ _ h with h | h
    · cases h
    · exact mem_of_mem_distinctRecords h

section Kept

/- A property that inclusion hands on, among shapes that satisfy `q`, and that texts do not tell
apart. Membership of a value is one. -/
variable {p q : Shape → Prop}

/-- A record that is dropped is covered by one that stays. -/
theorem exists_mem_addRecord
    (hsubset : ∀ s t, q s → q t → s.subset t = true → p s → p t) (hkept : ∀ k ∈ kept, q k)
    {item : Shape} (hitem : q item) :
    (∃ k ∈ addRecord kept item, p k) ↔ (∃ k ∈ kept, p k) ∨ p item := by
  constructor
  · rintro ⟨k, hk, hv⟩
    rcases mem_addRecord hk with hk | rfl
    exacts [Or.inl ⟨k, hk, hv⟩, Or.inr hv]
  · unfold addRecord
    split
    · next hcover =>
      rintro (h | hv)
      · exact h
      · obtain ⟨k, hk, hsub⟩ := List.any_eq_true.1 hcover
        exact ⟨k, hk, hsubset item k hitem (hkept k hk) hsub hv⟩
    · rintro (⟨k, hk, hv⟩ | hv)
      · cases hsub : k.subset item with
        | true => exact ⟨item, by simp, hsubset k item (hkept k hk) hitem hsub hv⟩
        | false => exact ⟨k, by simp [hk, hsub], hv⟩
      · exact ⟨item, by simp, hv⟩

theorem exists_mem_foldl_addRecord
    (hsubset : ∀ s t, q s → q t → s.subset t = true → p s → p t) :
    ∀ items kept : List Shape, (∀ k ∈ kept, q k) → (∀ s ∈ items, q s) →
      ((∃ k ∈ items.foldl addRecord kept, p k) ↔ (∃ k ∈ kept, p k) ∨ ∃ s ∈ items, p s)
  | [], kept, _, _ => by simp
  | item :: items, kept, hkept, hitems => by
    have hitem := hitems item List.mem_cons_self
    have hadded : ∀ k ∈ addRecord kept item, q k := by
      intro k hk
      rcases mem_addRecord hk with hk | rfl
      exacts [hkept k hk, hitem]
    rw [List.foldl_cons, exists_mem_foldl_addRecord hsubset items _ hadded
      fun s hs => hitems s (List.mem_cons_of_mem _ hs),
      exists_mem_addRecord hsubset hkept hitem, List.exists_mem_cons_iff, or_assoc]

/-- Of the records with one text, one will do. -/
theorem exists_mem_distinctRecords
    (htext : ∀ s t, q s → q t → s.describe = t.describe → p s → p t) (hitems : ∀ s ∈ items, q s) :
    (∃ s ∈ distinctRecords items, p s) ↔ ∃ s ∈ items, p s := by
  constructor
  · rintro ⟨s, hs, hv⟩
    exact ⟨s, mem_of_mem_distinctRecords hs, hv⟩
  · rintro ⟨s, hs, hv⟩
    have hkeyed : (s.describe, s) ∈ items.map fun s => (s.describe, s) :=
      List.mem_map.2 ⟨s, hs, rfl⟩
    obtain ⟨entry, hentry, hsame⟩ := @StableSort.exists_same_dropRepeats (String × Shape)
      (fun a b => decide (a.1 = b.1)) (by simp) _ _ (StableSort.mem_sort.2 hkeyed)
    obtain ⟨hentrytext, hmem⟩ := mem_keyed_of_mem_dropRepeats hentry
    have heq : s.describe = entry.2.describe := (of_decide_eq_true hsame).trans hentrytext
    exact ⟨entry.2, List.mem_map.2 ⟨entry, hentry, rfl⟩,
      htext s entry.2 (hitems s hs) (hitems _ hmem) heq hv⟩

theorem exists_mem_canonicalRecords
    (hsubset : ∀ s t, q s → q t → s.subset t = true → p s → p t)
    (htext : ∀ s t, q s → q t → s.describe = t.describe → p s → p t) (hitems : ∀ s ∈ items, q s) :
    (∃ s ∈ canonicalRecords items, p s) ↔ ∃ s ∈ items, p s := by
  match items with
  | [] => rfl
  | [_] => rfl
  | a :: b :: rest =>
    rw [canonicalRecords_eq, exists_mem_foldl_addRecord hsubset _ _ (by simp)
      fun s hs => hitems s (mem_of_mem_distinctRecords hs), exists_mem_distinctRecords htext hitems]
    simp

end Kept

/-! ## Unions of shapes -/

theorem mem_canonical {s : Shape} :
    s ∈ canonical items ↔
      (∃ n ∈ NumberSet.canonical (items.filterMap number?), s = number n) ∨
        (∃ t ∈ TextSet.canonical (items.filterMap text?), s = text t) ∨
          s ∈ canonicalRecords (items.filter isRecord) := by
  simp only [canonical, List.mem_append, List.mem_map, or_assoc, eq_comm (b := s)]

theorem mem_filterMap_text? {t : TextSet} : t ∈ items.filterMap text? ↔ text t ∈ items :=
  mem_filterMap_of_inverse text fun s => by cases s <;> simp [text?]

/-- A sample of a union is a point, a text or a record of it. -/
theorem exists_admits_iff {v : Sample} :
    (∃ s ∈ items, s.Admits v) ↔
      (∃ n ∈ items.filterMap number?, (number n).Admits v) ∨
        (∃ t ∈ items.filterMap text?, (text t).Admits v) ∨
          ∃ s ∈ items.filter isRecord, s.Admits v := by
  constructor
  · rintro ⟨s, hs, hv⟩
    cases s with
    | number n => exact Or.inl ⟨n, mem_filterMap_number?.2 hs, hv⟩
    | text t => exact Or.inr (Or.inl ⟨t, mem_filterMap_text?.2 hs, hv⟩)
    | record name fields => exact Or.inr (Or.inr ⟨_, List.mem_filter.2 ⟨hs, rfl⟩, hv⟩)
  · rintro (⟨n, hn, hv⟩ | ⟨t, ht, hv⟩ | ⟨s, hs, hv⟩)
    · exact ⟨_, mem_filterMap_number?.1 hn, hv⟩
    · exact ⟨_, mem_filterMap_text?.1 ht, hv⟩
    · exact ⟨s, List.mem_of_mem_filter hs, hv⟩

/-- Canonical forms of well-formed shapes are well-formed. -/
theorem wellFormed_of_mem_canonical (hitems : ∀ s ∈ items, s.wellFormed = true) {s : Shape}
    (hs : s ∈ canonical items) : s.wellFormed = true := by
  rcases mem_canonical.1 hs with ⟨n, hn, rfl⟩ | ⟨t, -, rfl⟩ | hs
  · simpa only [wellFormed] using NumberSet.wellFormed_of_mem_canonical
      (fun n hn => wellFormed_of_mem_numbers hitems n hn) hn
  · simp only [wellFormed]
  · exact hitems s (List.mem_of_mem_filter (mem_of_mem_canonicalRecords hs))

/-- Canonical forms bring in no empty fields. -/
theorem noNeverField_of_mem_canonical (hitems : ∀ s ∈ items, s.noNeverField = true) {s : Shape}
    (hs : s ∈ canonical items) : s.noNeverField = true := by
  rcases mem_canonical.1 hs with ⟨n, -, rfl⟩ | ⟨t, -, rfl⟩ | hs
  · simp only [noNeverField]
  · simp only [noNeverField]
  · exact hitems s (List.mem_of_mem_filter (mem_of_mem_canonicalRecords hs))

end Shape

/-! ## Unions of types -/

namespace Ty

theorem admits_iff_shapes {t : Ty} {v : Sample} :
    t.Admits v ↔ t.isAny = true ∨ ∃ s ∈ t.shapes, s.Admits v := by
  cases t with
  | any => simp [admits_any, isAny]
  | oneOf ss => simp [admits_oneOf, isAny, shapes]

theorem Hereditary.of_mem_shapes {P : Ty → Prop} {Q : Shape → Prop} (h : Hereditary P Q) {t : Ty}
    (ht : P t) {s : Shape} (hs : s ∈ t.shapes) : Q s := by
  cases t with
  | any => cases hs
  | oneOf ss => exact h.shapes ht s hs

namespace ExactFor

variable {K : Option ExtendedRat → Prop} {P : Ty → Prop} {Q : Shape → Prop} {items : List Shape}

/-- The canonical form of a union of records admits their samples. -/
theorem admits_canonicalRecords (h : ExactFor K P Q) (hitems : ∀ s ∈ items, Q s) {v : Sample}
    (hv : v.Within K) :
    (∃ s ∈ Shape.canonicalRecords items, s.Admits v) ↔ ∃ s ∈ items, s.Admits v := by
  refine Shape.exists_mem_canonicalRecords
    (fun s t hs ht hsub => h.shape_admits_of_subset s t hs ht hsub v hv) ?_ hitems
  intro s t hs ht he hsv
  rwa [← Shape.admits_identity,
    ← Shape.identity_of_describe (h.wellFormed hs) (h.wellFormed ht) he, Shape.admits_identity]

/-- The canonical form of a union admits the samples of its shapes. -/
theorem admits_canonical (h : ExactFor K P Q) (hitems : ∀ s ∈ items, Q s) {v : Sample}
    (hv : v.Within K) : (∃ s ∈ Shape.canonical items, s.Admits v) ↔ ∃ s ∈ items, s.Admits v := by
  rw [@Shape.exists_admits_iff items v]
  simp only [Shape.mem_canonical, or_and_right, exists_or]
  refine or_congr ?_ (or_congr ?_ ?_)
  · cases hv with
    | number hp =>
      simpa [Shape.Admits] using
        h.canonical (fun n hn => hitems _ (mem_filterMap_number?.1 hn)) hp
    | _ => simp [Shape.Admits]
  · cases v with
    | text s => simpa [Shape.Admits] using TextSet.has_canonical (items.filterMap Shape.text?) s
    | _ => simp [Shape.Admits]
  · exact h.admits_canonicalRecords (fun s hs => hitems s (List.mem_of_mem_filter hs)) hv

/-- A union admits the samples of its types. -/
theorem admits_union (h : ExactFor K P Q) {ts : List Ty} (hts : ∀ t ∈ ts, P t) {v : Sample}
    (hv : v.Within K) : (union ts).Admits v ↔ ∃ t ∈ ts, t.Admits v := by
  have hshapes : ∀ s ∈ ts.flatMap shapes, Q s := by
    intro s hs
    obtain ⟨t, ht, hs⟩ := List.mem_flatMap.1 hs
    exact h.of_mem_shapes (hts t ht) hs
  unfold union
  split
  · next hany =>
    obtain ⟨t, ht, h⟩ := List.any_eq_true.1 hany
    exact ⟨fun _ => ⟨t, ht, admits_iff_shapes.2 (Or.inl h)⟩, fun _ => admits_any v⟩
  · next hany =>
    rw [admits_oneOf, h.admits_canonical hshapes hv]
    constructor
    · rintro ⟨s, hs, hv⟩
      obtain ⟨t, ht, hs⟩ := List.mem_flatMap.1 hs
      exact ⟨t, ht, admits_iff_shapes.2 (Or.inr ⟨s, hs, hv⟩)⟩
    · rintro ⟨t, ht, hv⟩
      rcases admits_iff_shapes.1 hv with h | ⟨s, hs, hv⟩
      · exact absurd (List.any_eq_true.2 ⟨t, ht, h⟩) hany
      · exact ⟨s, List.mem_flatMap.2 ⟨t, ht, hs⟩, hv⟩

end ExactFor

end Ty

/-! ## Values -/

/-- The canonical form of a union has the values of its shapes. -/
theorem Shape.has_canonical {items : List Shape} (hitems : ∀ s ∈ items, s.wellFormed = true)
    {v : Value} : (∃ s ∈ canonical items, s.has v = true) ↔ ∃ s ∈ items, s.has v = true := by
  rw [← exists_admits_sample hitems,
    ← exists_admits_sample fun _ hs => wellFormed_of_mem_canonical hitems hs]
  exact Ty.exactFor_wellFormed.admits_canonical hitems v.within_sample

namespace Ty

theorem wellFormed_of_mem_shapes {t : Ty} (ht : t.wellFormed = true) {s : Shape}
    (hs : s ∈ t.shapes) : s.wellFormed = true :=
  hereditary_wellFormed.of_mem_shapes ht hs

theorem wellFormed_union {ts : List Ty} (hts : ∀ t ∈ ts, t.wellFormed = true) :
    (union ts).wellFormed = true := by
  unfold union
  split
  · rfl
  · refine wellFormed_oneOf.2 fun s hs => Shape.wellFormed_of_mem_canonical (fun s hs => ?_) hs
    obtain ⟨t, ht, hs⟩ := List.mem_flatMap.1 hs
    exact wellFormed_of_mem_shapes (hts t ht) hs

/-- A union has the values of its types. -/
theorem has_union {ts : List Ty} (hts : ∀ t ∈ ts, t.wellFormed = true) {v : Value} :
    (union ts).has v = true ↔ ∃ t ∈ ts, t.has v = true := by
  rw [← admits_sample _ (wellFormed_union hts),
    exactFor_wellFormed.admits_union hts v.within_sample]
  exact exists_congr fun t => and_congr_right fun ht => t.admits_sample (hts t ht) v

/-- The canonical form of a list of shapes has the values of the list, and a union of types those
of the types, whatever the bounds of their numbers. -/
theorem union_values :
    (∀ items : List Shape, (∀ s ∈ items, s.wellFormed = true) → ∀ v : Value,
      (∃ s ∈ Shape.canonical items, s.has v = true) ↔ ∃ s ∈ items, s.has v = true) ∧
      ∀ ts : List Ty, (∀ t ∈ ts, t.wellFormed = true) → ∀ v : Value,
        (union ts).has v = true ↔ ∃ t ∈ ts, t.has v = true :=
  ⟨fun _ hitems _ => Shape.has_canonical hitems, fun _ hts _ => has_union hts⟩

/-- All integers, with a real interval that cuts them and with a record. -/
theorem union_values_int :
    (∀ v : Value, (∃ s ∈ Shape.canonical [.number (.interval .zero .half), .number .everyInteger],
      s.has v = true) ↔
        ∃ s ∈ [Shape.number (.interval .zero .half), .number .everyInteger], s.has v = true) ∧
      ∀ v : Value, (union [int, ofShape (.record "point" [("x", int)])]).has v = true ↔
        ∃ t ∈ [int, ofShape (.record "point" [("x", int)])], t.has v = true :=
  ⟨union_values.1 _ (by decide +kernel), union_values.2 _ (by decide +kernel)⟩

end Ty

end FlowTypes
