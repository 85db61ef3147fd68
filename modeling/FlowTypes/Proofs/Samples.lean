import FlowTypes.Proofs.TypeMembership

/-!
# Samples of a type

The values of a type do not tell it from all others : records whose fields are unions have the
values of a union of records, and yet inclusion compares records one by one. A sample of a record
is finitely many samples for each field, at least one, and a type admits it if its fields admit
them all (`Ty.Admits`). A union admits the samples of its shapes, so a sample of a record is
admitted by one shape as a whole.

For finitely many records there is a sample that tells a record from all those that do not admit
its samples (`Ty.exists_fieldsAdmit_not`), since samples of one record can be joined
(`Ty.exists_joined_sample`). So a record that a union covers is covered by one of its records
(`Shape.exists_record_cover`).

A value is a sample too, with one sample for each field, and a well-formed type has the values that
it admits (`Ty.admits_sample`). The points of such a sample are doubles (`Value.within_sample`). So
what is proved of the samples whose points are in a set (`Sample.Within`) is proved of values.
-/

namespace FlowTypes

/-- A point, a text, or a record with samples for its fields. `other` is admitted by `any` only. -/
inductive Sample
  | number (point : Option ExtendedRat)
  | text (value : String)
  | record (name : String) (fields : List (String × List Sample))
  | other

mutual

/-- Does the type admit the sample? -/
def Ty.Admits : Ty → Sample → Prop
  | .any, _ => True
  | .oneOf ss, v => Shape.AnyAdmits ss v

/-- Does the shape admit the sample? -/
def Shape.Admits : Shape → Sample → Prop
  | .number n, .number p => n.Denotes p
  | .text t, .text s => t.has s = true
  | .record a fields, .record b samples => a = b ∧ Ty.FieldsAdmit fields samples
  | _, _ => False

/-- Does any of the shapes admit the sample? -/
def Shape.AnyAdmits : List Shape → Sample → Prop
  | [], _ => False
  | s :: ss, v => s.Admits v ∨ Shape.AnyAdmits ss v

/-- Do the fields admit these samples, at least one for each, name by name and in the same
order? -/
def Ty.FieldsAdmit : List (String × Ty) → List (String × List Sample) → Prop
  | [], [] => True
  | (m, t) :: fields, (n, vs) :: rest =>
    m = n ∧ vs ≠ [] ∧ (∀ v ∈ vs, t.Admits v) ∧ Ty.FieldsAdmit fields rest
  | _, _ => False

end

theorem Shape.anyAdmits_iff {v : Sample} :
    ∀ {ss : List Shape}, Shape.AnyAdmits ss v ↔ ∃ s ∈ ss, s.Admits v
  | [] => by simp [Shape.AnyAdmits]
  | s :: ss => by rw [Shape.AnyAdmits, anyAdmits_iff, List.exists_mem_cons_iff]

theorem Ty.admits_any (v : Sample) : Ty.any.Admits v := by
  simp only [Ty.Admits]

/-- A union admits the samples of its shapes. -/
theorem Ty.admits_oneOf {ss : List Shape} {v : Sample} :
    (Ty.oneOf ss).Admits v ↔ ∃ s ∈ ss, s.Admits v := by
  rw [Ty.Admits, Shape.anyAdmits_iff]

theorem Ty.admits_other {t : Ty} : t.Admits .other ↔ t = .any := by
  cases t with
  | any => simp only [Ty.Admits]
  | oneOf ss =>
    rw [Ty.admits_oneOf]
    refine iff_of_false ?_ fun h => Ty.noConfusion h
    rintro ⟨s, -, hs⟩
    cases s <;> simp [Shape.Admits] at hs

theorem Shape.admits_number {n : NumberSet} {v : Sample} :
    (Shape.number n).Admits v ↔ ∃ p, v = .number p ∧ n.Denotes p := by
  cases v <;> simp [Shape.Admits]

theorem Shape.admits_text {t : TextSet} {v : Sample} :
    (Shape.text t).Admits v ↔ ∃ s, v = .text s ∧ t.has s = true := by
  cases v <;> simp [Shape.Admits]

theorem Shape.admits_record {name : String} {fields : List (String × Ty)} {v : Sample} :
    (Shape.record name fields).Admits v ↔
      ∃ samples, v = .record name samples ∧ Ty.FieldsAdmit fields samples := by
  cases v with
  | record name' samples =>
    simp only [Shape.Admits, Sample.record.injEq]
    constructor
    · rintro ⟨rfl, h⟩
      exact ⟨samples, ⟨rfl, rfl⟩, h⟩
    · rintro ⟨_, ⟨rfl, rfl⟩, h⟩
      exact ⟨rfl, h⟩
  | _ => simp [Shape.Admits]

/-- A sample of a record is admitted by records of its name only. -/
theorem Shape.exists_record_of_admits {s : Shape} {name : String}
    {samples : List (String × List Sample)} (h : s.Admits (.record name samples)) :
    ∃ fields, s = .record name fields ∧ Ty.FieldsAdmit fields samples := by
  cases s with
  | record name' fields =>
    simp only [Shape.Admits] at h
    exact ⟨fields, by rw [h.1], h.2⟩
  | _ => simp [Shape.Admits] at h

namespace Ty

theorem fieldsAdmit_nil {samples : List (String × List Sample)} :
    FieldsAdmit [] samples ↔ samples = [] := by
  cases samples <;> simp [FieldsAdmit]

theorem fieldsAdmit_cons {name : String} {t : Ty} {fields : List (String × Ty)}
    {samples : List (String × List Sample)} :
    FieldsAdmit ((name, t) :: fields) samples ↔
      ∃ vs rest, samples = (name, vs) :: rest ∧ vs ≠ [] ∧ (∀ v ∈ vs, t.Admits v) ∧
        FieldsAdmit fields rest := by
  cases samples with
  | nil => simp [FieldsAdmit]
  | cons sample rest =>
    obtain ⟨n, vs⟩ := sample
    simp only [FieldsAdmit, List.cons.injEq, Prod.mk.injEq]
    constructor
    · rintro ⟨rfl, h⟩
      exact ⟨vs, rest, ⟨⟨rfl, rfl⟩, rfl⟩, h⟩
    · rintro ⟨_, _, ⟨⟨rfl, rfl⟩, rfl⟩, h⟩
      exact ⟨rfl, h⟩

/-! ## Samples that are joined -/

/-- Two samples of a record can be joined into one that no record admits unless it admits both. -/
theorem exists_joined_sample : ∀ {fields : List (String × Ty)}
    {samples samples' : List (String × List Sample)}, FieldsAdmit fields samples →
      FieldsAdmit fields samples' → ∃ joined, FieldsAdmit fields joined ∧
        ∀ others, FieldsAdmit others joined → FieldsAdmit others samples ∧ FieldsAdmit others samples'
  | [], samples, samples', h, h' => by
    obtain rfl := fieldsAdmit_nil.1 h
    obtain rfl := fieldsAdmit_nil.1 h'
    exact ⟨[], h, fun _ ho => ⟨ho, ho⟩⟩
  | (name, t) :: fields, samples, samples', h, h' => by
    obtain ⟨vs, rest, rfl, hne, hvs, hrest⟩ := fieldsAdmit_cons.1 h
    obtain ⟨vs', rest', rfl, hne', hvs', hrest'⟩ := fieldsAdmit_cons.1 h'
    obtain ⟨joined, hjoined, hothers⟩ := exists_joined_sample hrest hrest'
    refine ⟨(name, vs ++ vs') :: joined, fieldsAdmit_cons.2 ⟨_, _, rfl, ?_, ?_, hjoined⟩, ?_⟩
    · exact List.append_ne_nil_of_left_ne_nil hne _
    · exact List.forall_mem_append.2 ⟨hvs, hvs'⟩
    · intro others ho
      match others, ho with
      | (m, u) :: others, ho =>
        obtain ⟨ws, rest, he, -, hws, hrest⟩ := fieldsAdmit_cons.1 ho
        cases he
        obtain ⟨hr, hr'⟩ := hothers others hrest
        obtain ⟨hu, hu'⟩ := List.forall_mem_append.1 hws
        exact ⟨fieldsAdmit_cons.2 ⟨vs, _, rfl, hne, hu, hr⟩,
          fieldsAdmit_cons.2 ⟨vs', _, rfl, hne', hu', hr'⟩⟩

/-- One sample tells a record from finitely many others, if each of them lacks some sample. -/
theorem exists_fieldsAdmit_not {fields : List (String × Ty)} (hfields : ∃ s, FieldsAdmit fields s) :
    ∀ {others : List (List (String × Ty))},
      (∀ o ∈ others, ∃ s, FieldsAdmit fields s ∧ ¬FieldsAdmit o s) →
        ∃ s, FieldsAdmit fields s ∧ ∀ o ∈ others, ¬FieldsAdmit o s
  | [], _ => by
    obtain ⟨s, hs⟩ := hfields
    exact ⟨s, hs, by simp⟩
  | o :: others, h => by
    obtain ⟨s, hs, hos⟩ := h o List.mem_cons_self
    obtain ⟨s', hs', hothers⟩ := exists_fieldsAdmit_not hfields
      fun o ho => h o (List.mem_cons_of_mem _ ho)
    obtain ⟨joined, hjoined, hboth⟩ := exists_joined_sample hs hs'
    refine ⟨joined, hjoined, fun o' ho' htaken => ?_⟩
    rcases List.mem_cons.1 ho' with rfl | ho'
    · exact hos (hboth _ htaken).1
    · exact hothers _ ho' (hboth _ htaken).2

/-- Fields whose samples are all admitted by others have the same names, and their types admit
no sample that the others do not. -/
theorem cons_of_fieldsAdmit_le {name : String} {t : Ty} {fields others : List (String × Ty)}
    (hfields : ∃ s, FieldsAdmit ((name, t) :: fields) s)
    (h : ∀ s, FieldsAdmit ((name, t) :: fields) s → FieldsAdmit others s) :
    ∃ u rest, others = (name, u) :: rest ∧ (∀ v, t.Admits v → u.Admits v) ∧
      ∀ s, FieldsAdmit fields s → FieldsAdmit rest s := by
  obtain ⟨s, hs⟩ := hfields
  obtain ⟨vs, tail, rfl, hne, hvs, htail⟩ := fieldsAdmit_cons.1 hs
  have hmixed : ∀ ws tail', ws ≠ [] → (∀ v ∈ ws, t.Admits v) → FieldsAdmit fields tail' →
      FieldsAdmit others ((name, ws) :: tail') := fun ws tail' hne' hws htail' =>
    h _ (fieldsAdmit_cons.2 ⟨ws, tail', rfl, hne', hws, htail'⟩)
  match others, hmixed with
  | [], hmixed => exact absurd (hmixed vs tail hne hvs htail) (by simp [FieldsAdmit])
  | (m, u) :: rest, hmixed =>
    have hcons : ∀ ws tail', ws ≠ [] → (∀ v ∈ ws, t.Admits v) → FieldsAdmit fields tail' →
        m = name ∧ (∀ v ∈ ws, u.Admits v) ∧ FieldsAdmit rest tail' := by
      intro ws tail' hne' hws htail'
      have htaken := hmixed ws tail' hne' hws htail'
      rw [FieldsAdmit] at htaken
      exact ⟨htaken.1, htaken.2.2⟩
    obtain ⟨rfl, -⟩ := hcons vs tail hne hvs htail
    refine ⟨u, rest, rfl, fun v hv => ?_, fun tail' htail' => (hcons vs tail' hne hvs htail').2.2⟩
    exact (hcons [v] tail (by simp) (by simpa using hv) htail).2.1 v (by simp)

end Ty

/-- The fields of a record of the given name. -/
def Shape.fieldsOf? (name : String) : Shape → Option (List (String × Ty))
  | .record m fields => if m = name then some fields else none
  | _ => none

theorem Shape.mem_filterMap_fieldsOf? {name : String} {fields : List (String × Ty)}
    {ys : List Shape} :
    fields ∈ ys.filterMap (Shape.fieldsOf? name) ↔ Shape.record name fields ∈ ys := by
  rw [List.mem_filterMap]
  constructor
  · rintro ⟨y, hy, he⟩
    cases y with
    | record m others =>
      simp only [Shape.fieldsOf?, Option.ite_none_right_eq_some, Option.some.injEq] at he
      obtain ⟨rfl, rfl⟩ := he
      exact hy
    | _ => cases he
  · intro hy
    exact ⟨_, hy, by simp [Shape.fieldsOf?]⟩

/-- A record whose samples are all admitted by a union is covered by one of its records. -/
theorem Shape.exists_record_cover {name : String} {fields : List (String × Ty)} {ys : List Shape}
    (hfields : ∃ s, Ty.FieldsAdmit fields s)
    (h : ∀ v, (Shape.record name fields).Admits v → ∃ y ∈ ys, y.Admits v) :
    ∃ others, Shape.record name others ∈ ys ∧
      ∀ s, Ty.FieldsAdmit fields s → Ty.FieldsAdmit others s := by
  by_contra hnone
  -- Were no record a cover, one sample would escape from all of them.
  have hescape : ∀ others ∈ ys.filterMap (Shape.fieldsOf? name),
      ∃ s, Ty.FieldsAdmit fields s ∧ ¬Ty.FieldsAdmit others s := by
    intro others hothers
    by_contra hcover
    refine hnone ⟨others, Shape.mem_filterMap_fieldsOf?.1 hothers, fun s hs => ?_⟩
    by_contra hnot
    exact hcover ⟨s, hs, hnot⟩
  obtain ⟨s, hs, hall⟩ := Ty.exists_fieldsAdmit_not hfields hescape
  obtain ⟨y, hy, hyv⟩ := h _ (Shape.admits_record.2 ⟨s, rfl, hs⟩)
  obtain ⟨others, rfl, htaken⟩ := Shape.exists_record_of_admits hyv
  exact hall others (Shape.mem_filterMap_fieldsOf?.2 hy) htaken

/-! ## Equal types admit the same samples -/

mutual

/-- The sign of a literal zero is not seen by samples. -/
theorem Ty.admits_identity : ∀ (t : Ty) (v : Sample), t.identity.Admits v ↔ t.Admits v
  | .any, _ => Iff.rfl
  | .oneOf ss, v => by
    simp only [Ty.identity, Ty.Admits]
    exact Shape.anyAdmits_identities ss v

theorem Shape.admits_identity : ∀ (s : Shape) (v : Sample), s.identity.Admits v ↔ s.Admits v
  | .number n, v => by
    simp only [Shape.identity, Shape.admits_number, NumberSet.denotes_identity]
  | .text _, _ => by simp only [Shape.identity]
  | .record name fields, v => by
    simp only [Shape.identity, Shape.admits_record, Ty.fieldsAdmit_identities fields]

theorem Shape.anyAdmits_identities : ∀ (ss : List Shape) (v : Sample),
    Shape.AnyAdmits (Shape.identities ss) v ↔ Shape.AnyAdmits ss v
  | [], _ => Iff.rfl
  | s :: ss, v => by
    simp only [Shape.identities, Shape.AnyAdmits]
    rw [Shape.admits_identity s v, Shape.anyAdmits_identities ss v]

theorem Ty.fieldsAdmit_identities : ∀ (fields : List (String × Ty))
    (samples : List (String × List Sample)),
      Ty.FieldsAdmit (Ty.fieldIdentities fields) samples ↔ Ty.FieldsAdmit fields samples
  | [], _ => Iff.rfl
  | (name, t) :: fields, samples => by
    simp only [Ty.fieldIdentities, Ty.fieldsAdmit_cons, Ty.admits_identity t,
      Ty.fieldsAdmit_identities fields]

end

/-! ## Values as samples -/

mutual

/-- A value as a sample, with the point of each double and one sample for each field. -/
def Value.sample : Value → Sample
  | .number x => .number x.exact
  | .text s => .text s
  | .record name values => .record name (Value.samples values)

/-- The values of fields as samples, one for each. -/
def Value.samples : List (String × Value) → List (String × List Sample)
  | [] => []
  | (name, v) :: values => (name, [v.sample]) :: Value.samples values

end

mutual

/-- A well-formed type admits the values it has. -/
theorem Ty.admits_sample : ∀ (t : Ty), t.wellFormed = true → ∀ v : Value,
    t.Admits v.sample ↔ t.has v = true
  | .any, _, v => iff_of_true (Ty.admits_any _) (Ty.has_any v)
  | .oneOf ss, ht, v => by
    simp only [Ty.wellFormed] at ht
    simp only [Ty.Admits, Ty.has]
    exact Shape.anyAdmits_sample ss ht v

theorem Shape.admits_sample : ∀ (s : Shape), s.wellFormed = true → ∀ v : Value,
    s.Admits v.sample ↔ s.has v = true
  | .number n, hn, v => by
    simp only [Shape.wellFormed] at hn
    cases v with
    | number x => simp only [Value.sample, Shape.Admits, Shape.has, NumberSet.has_iff_denotes hn]
    | _ => simp [Value.sample, Shape.Admits, Shape.has]
  | .text t, _, v => by cases v <;> simp [Value.sample, Shape.Admits, Shape.has]
  | .record name fields, hs, v => by
    have hfields := Ty.fieldsAdmit_samples fields (Shape.wellFormed_record.1 hs).2
    cases v with
    | record name' values =>
      simp only [Value.sample, Shape.Admits, Shape.has, Bool.and_eq_true, decide_eq_true_eq,
        hfields]
    | _ => simp [Value.sample, Shape.Admits, Shape.has]

theorem Shape.anyAdmits_sample : ∀ (ss : List Shape), Shape.allWellFormed ss = true →
    ∀ v : Value, Shape.AnyAdmits ss v.sample ↔ Shape.anyHas ss v = true
  | [], _, _ => by simp [Shape.AnyAdmits, Shape.anyHas]
  | s :: ss, hss, v => by
    simp only [Shape.allWellFormed, Bool.and_eq_true] at hss
    rw [Shape.AnyAdmits, Shape.anyHas, Bool.or_eq_true, Shape.admits_sample s hss.1 v,
      Shape.anyAdmits_sample ss hss.2 v]

theorem Ty.fieldsAdmit_samples : ∀ (fields : List (String × Ty)),
    Ty.fieldsWellFormed fields = true → ∀ values : List (String × Value),
      Ty.FieldsAdmit fields (Value.samples values) ↔ Ty.fieldsHave fields values = true
  | [], _, values => by cases values <;> simp [Value.samples, Ty.FieldsAdmit, Ty.fieldsHave]
  | (_, _) :: _, _, [] => by simp [Value.samples, Ty.FieldsAdmit, Ty.fieldsHave]
  | (m, t) :: fields, hfields, (n, v) :: values => by
    obtain ⟨-, ht, hfields⟩ := Ty.fieldsWellFormed_cons.1 hfields
    simp only [Value.samples, Ty.FieldsAdmit, Ty.fieldsHave, Bool.and_eq_true, decide_eq_true_eq,
      List.forall_mem_singleton, Ty.admits_sample t ht v, Ty.fieldsAdmit_samples fields hfields,
      ne_eq, List.cons_ne_self, not_false_eq_true, true_and, and_assoc]

end

theorem Shape.exists_admits_sample {ss : List Shape} (hss : ∀ s ∈ ss, s.wellFormed = true)
    {v : Value} : (∃ s ∈ ss, s.Admits v.sample) ↔ ∃ s ∈ ss, s.has v = true :=
  exists_congr fun s => and_congr_right fun hs => s.admits_sample (hss s hs) v

/-- Fields that have values admit samples. -/
theorem Ty.exists_fieldsAdmit (fields : List (String × Ty)) (hw : fieldsWellFormed fields = true)
    (hf : fieldsNoNever fields = true) : ∃ samples, FieldsAdmit fields samples :=
  have ⟨values, hvalues⟩ := exists_fieldsHave fields hw hf
  ⟨Value.samples values, (fieldsAdmit_samples fields hw values).2 hvalues⟩

/-! ## The points of a sample -/

/-- Are all points of the sample in the set? -/
inductive Sample.Within (K : Option ExtendedRat → Prop) : Sample → Prop
  | number {p : Option ExtendedRat} (hp : K p) : Within K (.number p)
  | text (s : String) : Within K (.text s)
  | record {name : String} {fields : List (String × List Sample)}
    (hfields : ∀ f ∈ fields, ∀ v ∈ f.2, Within K v) : Within K (.record name fields)
  | other : Within K .other

mutual

theorem Sample.within_true : ∀ v : Sample, v.Within fun _ => True
  | .number _ => .number trivial
  | .text s => .text s
  | .record _ fields => .record (Sample.fields_within_true fields)
  | .other => .other

theorem Sample.fields_within_true : ∀ (fields : List (String × List Sample)), ∀ f ∈ fields,
    ∀ v ∈ f.2, v.Within fun _ => True
  | [] => List.forall_mem_nil _
  | (_, vs) :: fields =>
    List.forall_mem_cons.2 ⟨Sample.all_within_true vs, Sample.fields_within_true fields⟩

theorem Sample.all_within_true : ∀ (vs : List Sample), ∀ v ∈ vs, v.Within fun _ => True
  | [] => List.forall_mem_nil _
  | v :: vs => List.forall_mem_cons.2 ⟨Sample.within_true v, Sample.all_within_true vs⟩

end

/-- Is the point a double, or that of NaN? -/
def Binary64.IsPoint (p : Option ExtendedRat) : Prop := ∃ x : Binary64, x.exact = p

mutual

theorem Value.within_sample : ∀ v : Value, v.sample.Within Binary64.IsPoint
  | .number x => by
    rw [Value.sample]
    exact .number ⟨x, rfl⟩
  | .text s => by
    rw [Value.sample]
    exact .text s
  | .record name values => by
    rw [Value.sample]
    exact .record (Value.within_samples values)

theorem Value.within_samples : ∀ (values : List (String × Value)), ∀ f ∈ Value.samples values,
    ∀ v ∈ f.2, v.Within Binary64.IsPoint
  | [] => by
    rw [Value.samples]
    exact List.forall_mem_nil _
  | (_, v) :: values => by
    rw [Value.samples]
    exact List.forall_mem_cons.2
      ⟨List.forall_mem_singleton.2 (Value.within_sample v), Value.within_samples values⟩

end

end FlowTypes
