import FlowTypes.Proofs.IntersectionMembership
import FlowTypes.Proofs.SteadyNumbers

/-!
# Regular types

A type is regular if its unions are canonical forms of well-formed shapes, at any depth, and its
sets of numbers satisfy a property (`Ty.Regular`). What the constructors and `Ty.union` build is
regular (`Ty.Built.regular`), and regular with steady sets of numbers if its bounds have at most
52 bits (`Ty.Regular.of_isSmall`).

Unions and meets of regular types are regular if canonical forms and meets keep the property of
their sets of numbers (`Ty.regular_union`, `Ty.regular_meet`), as they do for steadiness
(`NumberSet.kept_isSteady`).

A point need not be a double, so for samples the steps of canonical forms have to be exact, as they
are for steady sets (`Ty.exactFor_regular`). Then inclusion is sound for samples
(`Ty.admits_of_subset`), a union admits the samples of its types (`Ty.admits_union`), and a meet
those of both sides (`Ty.admits_meet`).
-/

namespace FlowTypes

/-- Do canonical forms and meets of sets of numbers keep the property? -/
structure NumberSet.Kept (p : NumberSet → Bool) : Prop where
  canonical : ∀ items : List NumberSet, (∀ n ∈ items, n.wellFormed = true) →
    (∀ n ∈ items, p n = true) → ∀ n ∈ NumberSet.canonical items, p n = true
  meet : ∀ (lead : Side) (a b : NumberSet), a.wellFormed = true → b.wellFormed = true →
    p a = true → p b = true → ∀ n ∈ a.meet lead b, p n = true

theorem NumberSet.kept_isSteady : Kept isSteady :=
  ⟨fun _ => isSteady_canonical, fun lead _ _ _ _ has hbs _ => isSteady_meet lead has hbs⟩

theorem NumberSet.kept_true : Kept fun _ => true :=
  ⟨fun _ _ _ _ _ => rfl, fun _ _ _ _ _ _ _ _ _ => rfl⟩

/-! ## Regularity -/

mutual

/-- Is every union in the type a canonical form, and does every set of numbers satisfy `p`? -/
def Ty.Regular (p : NumberSet → Bool) : Ty → Prop
  | .any => True
  | .oneOf ss =>
    (∃ items, (∀ s ∈ items, s.wellFormed = true) ∧ ss = Shape.canonical items) ∧
      Shape.AllRegular p ss

/-- Is the set of numbers well-formed and in `p`, or are the names and the fields regular? -/
def Shape.Regular (p : NumberSet → Bool) : Shape → Prop
  | .number n => n.wellFormed = true ∧ p n = true
  | .text _ => True
  | .record name fields => isIdentifier name = true ∧ Ty.FieldsRegular p fields

/-- Are the shapes regular? -/
def Shape.AllRegular (p : NumberSet → Bool) : List Shape → Prop
  | [] => True
  | s :: ss => s.Regular p ∧ Shape.AllRegular p ss

/-- Are the fields regular, and none of them `never`? -/
def Ty.FieldsRegular (p : NumberSet → Bool) : List (String × Ty) → Prop
  | [] => True
  | (name, t) :: fields =>
    isIdentifier name = true ∧ t.isNever = false ∧ t.Regular p ∧ Ty.FieldsRegular p fields

end

variable {p : NumberSet → Bool}

theorem Shape.allRegular_iff :
    ∀ {ss : List Shape}, Shape.AllRegular p ss ↔ ∀ s ∈ ss, s.Regular p
  | [] => by simp [Shape.AllRegular]
  | s :: ss => by rw [Shape.AllRegular, allRegular_iff, List.forall_mem_cons]

theorem Ty.regular_oneOf {ss : List Shape} :
    (Ty.oneOf ss).Regular p ↔
      (∃ items, (∀ s ∈ items, s.wellFormed = true) ∧ ss = Shape.canonical items) ∧
        ∀ s ∈ ss, s.Regular p := by
  rw [Ty.Regular, Shape.allRegular_iff]

theorem Ty.regular_any : Ty.any.Regular p := by
  simp only [Ty.Regular]

theorem Shape.regular_number {n : NumberSet} :
    (Shape.number n).Regular p ↔ n.wellFormed = true ∧ p n = true := by
  rw [Shape.Regular]

theorem Shape.regular_text (t : TextSet) : (Shape.text t).Regular p := by
  simp only [Shape.Regular]

theorem Shape.regular_record {name : String} {fields : List (String × Ty)} :
    (Shape.record name fields).Regular p ↔
      isIdentifier name = true ∧ Ty.FieldsRegular p fields := by
  rw [Shape.Regular]

theorem Ty.fieldsRegular_cons {name : String} {t : Ty} {fields : List (String × Ty)} :
    Ty.FieldsRegular p ((name, t) :: fields) ↔
      isIdentifier name = true ∧ t.isNever = false ∧ t.Regular p ∧ Ty.FieldsRegular p fields := by
  rw [Ty.FieldsRegular]

theorem Ty.fieldsRegular_iff {fields : List (String × Ty)} :
    Ty.FieldsRegular p fields ↔
      ∀ f ∈ fields, isIdentifier f.1 = true ∧ f.2.isNever = false ∧ f.2.Regular p := by
  induction fields with
  | nil => simp [Ty.FieldsRegular]
  | cons field fields ih =>
    rw [Ty.fieldsRegular_cons, ih, List.forall_mem_cons, and_assoc, and_assoc]

mutual

/-- Regular types are well-formed, and no record has a field that is `never`. -/
theorem Ty.Regular.sound : ∀ {t : Ty}, t.Regular p → t.wellFormed = true ∧ t.noNeverField = true
  | .any, _ => ⟨by simp only [Ty.wellFormed], by simp only [Ty.noNeverField]⟩
  | .oneOf ss, h => by
    rw [Ty.Regular] at h
    simpa only [Ty.wellFormed, Ty.noNeverField] using Shape.AllRegular.sound h.2

theorem Shape.Regular.sound : ∀ {s : Shape}, s.Regular p →
    s.wellFormed = true ∧ s.noNeverField = true
  | .number n, h => by
    simpa only [Shape.wellFormed, Shape.noNeverField, and_true] using (Shape.regular_number.1 h).1
  | .text _, _ => ⟨by simp only [Shape.wellFormed], by simp only [Shape.noNeverField]⟩
  | .record name fields, h => by
    obtain ⟨hname, hfields⟩ := Shape.regular_record.1 h
    obtain ⟨hwf, hnever⟩ := Ty.FieldsRegular.sound hfields
    exact ⟨Shape.wellFormed_record.2 ⟨hname, hwf⟩, by simpa only [Shape.noNeverField] using hnever⟩

theorem Shape.AllRegular.sound : ∀ {ss : List Shape}, Shape.AllRegular p ss →
    Shape.allWellFormed ss = true ∧ Shape.allNoNeverField ss = true
  | [], _ => ⟨rfl, rfl⟩
  | s :: ss, h => by
    rw [Shape.AllRegular] at h
    obtain ⟨hs, hs'⟩ := Shape.Regular.sound h.1
    obtain ⟨hss, hss'⟩ := Shape.AllRegular.sound h.2
    simp only [Shape.allWellFormed, Shape.allNoNeverField, hs, hs', hss, hss', Bool.and_self,
      and_self]

theorem Ty.FieldsRegular.sound : ∀ {fields : List (String × Ty)}, Ty.FieldsRegular p fields →
    Ty.fieldsWellFormed fields = true ∧ Ty.fieldsNoNever fields = true
  | [], _ => ⟨rfl, rfl⟩
  | (name, t) :: fields, h => by
    obtain ⟨hname, hne, ht, hfields⟩ := Ty.fieldsRegular_cons.1 h
    obtain ⟨hwf, hnever⟩ := Ty.Regular.sound ht
    obtain ⟨hwf', hnever'⟩ := Ty.FieldsRegular.sound hfields
    exact ⟨Ty.fieldsWellFormed_cons.2 ⟨hname, hwf, hwf'⟩,
      Ty.fieldsNoNever_cons.2 ⟨hne, hnever, hnever'⟩⟩

end

theorem Ty.Regular.wellFormed {t : Ty} (h : t.Regular p) : t.wellFormed = true :=
  h.sound.1

theorem Ty.Regular.noNeverField {t : Ty} (h : t.Regular p) : t.noNeverField = true :=
  h.sound.2

theorem Shape.Regular.wellFormed {s : Shape} (h : s.Regular p) : s.wellFormed = true :=
  h.sound.1

/-! ## Unions -/

namespace Shape

variable {items : List Shape}

/-- Canonical forms of regular shapes are regular. -/
theorem regular_of_mem_canonical (hp : NumberSet.Kept p) (hitems : ∀ s ∈ items, s.Regular p)
    {s : Shape} (hs : s ∈ canonical items) : s.Regular p := by
  rcases mem_canonical.1 hs with ⟨n, hn, rfl⟩ | ⟨t, -, rfl⟩ | hs
  · have hnumbers : ∀ m ∈ items.filterMap number?, m.wellFormed = true ∧ p m = true :=
      fun m hm => regular_number.1 (hitems _ (mem_filterMap_number?.1 hm))
    have hwf := fun m hm => (hnumbers m hm).1
    exact regular_number.2 ⟨NumberSet.wellFormed_of_mem_canonical hwf hn,
      hp.canonical _ hwf (fun m hm => (hnumbers m hm).2) n hn⟩
  · exact regular_text t
  · exact hitems s (List.mem_of_mem_filter (mem_of_mem_canonicalRecords hs))

theorem regular_oneOf_canonical (hp : NumberSet.Kept p) (hitems : ∀ s ∈ items, s.Regular p) :
    (Ty.oneOf (canonical items)).Regular p :=
  Ty.regular_oneOf.2 ⟨⟨items, fun s hs => (hitems s hs).wellFormed, rfl⟩,
    fun _ hs => regular_of_mem_canonical hp hitems hs⟩

/-- One shape is its own canonical form. -/
theorem canonical_singleton (s : Shape) : canonical [s] = [s] := by
  cases s with
  | number n => rfl
  | text t => cases t <;> rfl
  | record name fields => rfl

theorem Regular.ofShape {s : Shape} (h : s.Regular p) : (Ty.ofShape s).Regular p :=
  Ty.regular_oneOf.2 ⟨⟨[s], by simpa using h.wellFormed, (canonical_singleton s).symm⟩,
    by simpa using h⟩

end Shape

namespace Ty

theorem regular_never : never.Regular p :=
  regular_oneOf.2 ⟨⟨[], by simp, rfl⟩, by simp⟩

theorem Regular.of_mem_shapes {t : Ty} (ht : t.Regular p) {s : Shape} (hs : s ∈ t.shapes) :
    s.Regular p := by
  cases t with
  | any => cases hs
  | oneOf ss => exact (regular_oneOf.1 ht).2 s hs

theorem regular_union (hp : NumberSet.Kept p) {ts : List Ty} (hts : ∀ t ∈ ts, t.Regular p) :
    (union ts).Regular p := by
  unfold union
  split
  · exact regular_any
  · refine Shape.regular_oneOf_canonical hp fun s hs => ?_
    obtain ⟨t, ht, hs⟩ := List.mem_flatMap.1 hs
    exact (hts t ht).of_mem_shapes hs

end Ty

/-! ## Meets -/

namespace Ty

theorem keptByMeets_regular (hp : NumberSet.Kept p) :
    KeptByMeets (Regular p) (Shape.Regular p) where
  shapes ha := (regular_oneOf.1 ha).2
  canonical hitems := Shape.regular_oneOf_canonical hp hitems
  number {lead m n k} ha hb hk := by
    obtain ⟨ham, hap⟩ := Shape.regular_number.1 ha
    obtain ⟨hbn, hbp⟩ := Shape.regular_number.1 hb
    exact Shape.regular_number.2
      ⟨NumberSet.wellFormed_meet lead ham hbn hk, hp.meet lead m n ham hbn hap hbp k hk⟩
  text := Shape.regular_text
  fields ha f hf := (fieldsRegular_iff.1 (Shape.regular_record.1 ha).2 f hf).2.2
  record {name xs fields} ha hfields := by
    obtain ⟨hname, hxs⟩ := Shape.regular_record.1 ha
    refine Shape.regular_record.2 ⟨hname, fieldsRegular_iff.2 fun f hf => ?_⟩
    obtain ⟨⟨g, hg, he⟩, hne, ht⟩ := hfields f hf
    exact ⟨he ▸ (fieldsRegular_iff.1 hxs g hg).1, hne, ht⟩

theorem regular_meet (hp : NumberSet.Kept p) (lead : Side) (a b : Ty) (ha : a.Regular p)
    (hb : b.Regular p) : (a.meet lead b).Regular p :=
  (keptByMeets_regular hp).meet lead a b ha hb

end Ty

/-! ## Samples -/

theorem Shape.regular_of_mem_numbers {ss : List Shape} (hss : ∀ s ∈ ss, s.Regular p) :
    ∀ n ∈ ss.filterMap Shape.number?, n.wellFormed = true ∧ p n = true :=
  fun _ hn => Shape.regular_number.1 (hss _ (mem_filterMap_number?.1 hn))

section Steady

open NumberSet (isSteady)

/-- Canonical forms of steady sets of numbers are exact for all points. -/
theorem Ty.exactFor_regular :
    ExactFor (fun _ => True) (Regular isSteady) (Shape.Regular isSteady) where
  toHereditary := (keptByMeets_regular NumberSet.kept_isSteady).toHereditary
  wellFormed := Shape.Regular.wellFormed
  canonical hitems p _ := NumberSet.denotes_canonical_of_isSteady
    (fun n hn => (Shape.regular_number.1 (hitems n hn)).1)
    (fun n hn => (Shape.regular_number.1 (hitems n hn)).2) p

/-- Inclusion is sound for samples. -/
theorem Ty.admits_of_subset (a b : Ty) (ha : a.Regular isSteady) (hb : b.Regular isSteady)
    (h : a.subset b = true) (v : Sample) (hv : a.Admits v) : b.Admits v :=
  exactFor_regular.admits_of_subset a b ha hb h v v.within_true hv

theorem Shape.admits_of_subset (a b : Shape) (ha : a.Regular isSteady) (hb : b.Regular isSteady)
    (h : a.subset b = true) (v : Sample) (hv : a.Admits v) : b.Admits v :=
  Ty.exactFor_regular.shape_admits_of_subset a b ha hb h v v.within_true hv

/-- The canonical form of a union admits the samples of its shapes. -/
theorem Shape.admits_canonical {items : List Shape} (hitems : ∀ s ∈ items, s.Regular isSteady)
    (v : Sample) : (∃ s ∈ canonical items, s.Admits v) ↔ ∃ s ∈ items, s.Admits v :=
  Ty.exactFor_regular.admits_canonical hitems v.within_true

/-- A union admits the samples of its types. -/
theorem Ty.admits_union {ts : List Ty} (hts : ∀ t ∈ ts, t.Regular isSteady) (v : Sample) :
    (union ts).Admits v ↔ ∃ t ∈ ts, t.Admits v :=
  exactFor_regular.admits_union hts v.within_true

/-- A meet admits the samples of both types. -/
theorem Ty.admits_meet (lead : Side) (a b : Ty) (ha : a.Regular isSteady)
    (hb : b.Regular isSteady) (v : Sample) :
    (a.meet lead b).Admits v ↔ a.Admits v ∧ b.Admits v :=
  exactFor_regular.admits_meet (keptByMeets_regular NumberSet.kept_isSteady) lead a b ha hb v
    v.within_true

end Steady

/-! ## Types that are built -/

namespace Ty

/-- What the constructors and `union` build, with identifiers for names. -/
inductive Built : Ty → Prop
  | never : Built never
  | any : Built any
  | number : Built number
  | string : Built string
  | int : Built int
  | literal (v : Binary64) : Built (literal v)
  | textLiteral (s : String) : Built (textLiteral s)
  | interval (lo hi : Binary64) : Built (interval lo hi)
  | integers (lo hi : Binary64) : Built (integers lo hi)
  | record (name : String) (fields : List (String × Ty)) (hname : isIdentifier name = true)
      (hnames : ∀ f ∈ fields, isIdentifier f.1 = true) (hfields : ∀ f ∈ fields, Built f.2) :
      Built (record name fields)
  | union (ts : List Ty) (hts : ∀ t ∈ ts, Built t) : Built (union ts)

theorem regular_ofNumbers {o : Option NumberSet} (h : ∀ n ∈ o, n.wellFormed = true ∧ p n = true) :
    (ofNumbers o.toList).Regular p := by
  cases o with
  | none => exact regular_never
  | some n => exact (Shape.regular_number.2 (h n rfl)).ofShape

theorem regular_record {name : String} {fields : List (String × Ty)}
    (hname : isIdentifier name = true) (hnames : ∀ f ∈ fields, isIdentifier f.1 = true)
    (hfields : ∀ f ∈ fields, f.2.Regular p) : (record name fields).Regular p := by
  unfold record
  split
  · exact regular_never
  · next hnever =>
    refine (Shape.regular_record.2 ⟨hname, fieldsRegular_iff.2 fun f hf => ?_⟩).ofShape
    refine ⟨hnames f hf, Bool.eq_false_iff.2 fun hne => hnever ?_, hfields f hf⟩
    exact List.any_eq_true.2 ⟨f, hf, hne⟩

/-- What is built is regular. -/
theorem Built.regular {t : Ty} (h : t.Built) : t.Regular fun _ => true := by
  induction h with
  | never => exact regular_never
  | any => exact regular_any
  | number => exact (Shape.regular_number.2 ⟨rfl, rfl⟩).ofShape
  | string => exact (Shape.regular_text _).ofShape
  | int => exact (Shape.regular_number.2 ⟨by decide +kernel, rfl⟩).ofShape
  | literal v => exact (Shape.regular_number.2 ⟨rfl, rfl⟩).ofShape
  | textLiteral s => exact (Shape.regular_text _).ofShape
  | interval lo hi =>
    exact regular_ofNumbers fun n hn => ⟨NumberSet.wellFormed_interval? hn, rfl⟩
  | integers lo hi =>
    exact regular_ofNumbers fun n hn => ⟨NumberSet.wellFormed_of_mem_integers? hn, rfl⟩
  | record name fields hname hnames _ ih => exact regular_record hname hnames ih
  | union ts _ ih => exact regular_union NumberSet.kept_true ih

end Ty

/-! ## Small types -/

mutual

/-- Are all finite bounds and literals in the type at most `2^52` in magnitude? -/
def Ty.isSmall : Ty → Bool
  | .any => true
  | .oneOf ss => Shape.allSmall ss

/-- Are all finite bounds and literals in the shape at most `2^52` in magnitude? -/
def Shape.isSmall : Shape → Bool
  | .number n => n.isSmall
  | .text _ => true
  | .record _ fields => Ty.fieldsSmall fields

/-- Are the shapes small? -/
def Shape.allSmall : List Shape → Bool
  | [] => true
  | s :: ss => s.isSmall && Shape.allSmall ss

/-- Are the types of the fields small? -/
def Ty.fieldsSmall : List (String × Ty) → Bool
  | [] => true
  | (_, t) :: fields => t.isSmall && Ty.fieldsSmall fields

end

mutual

/-- The sets of numbers of a small type are steady. -/
theorem Ty.Regular.of_isSmall : ∀ {t : Ty}, t.Regular p → t.isSmall = true →
    t.Regular NumberSet.isSteady
  | .any, _, _ => Ty.regular_any
  | .oneOf ss, h, hsmall => by
    rw [Ty.Regular] at h ⊢
    exact ⟨h.1, Shape.AllRegular.of_allSmall h.2 (by simpa only [Ty.isSmall] using hsmall)⟩

theorem Shape.Regular.of_isSmall : ∀ {s : Shape}, s.Regular p → s.isSmall = true →
    s.Regular NumberSet.isSteady
  | .number n, h, hsmall => Shape.regular_number.2 ⟨(Shape.regular_number.1 h).1,
      NumberSet.isSteady_of_isSmall (by simpa only [Shape.isSmall] using hsmall)⟩
  | .text t, _, _ => Shape.regular_text t
  | .record name fields, h, hsmall => by
    rw [Shape.regular_record] at h ⊢
    exact ⟨h.1, Ty.FieldsRegular.of_fieldsSmall h.2 (by simpa only [Shape.isSmall] using hsmall)⟩

theorem Shape.AllRegular.of_allSmall : ∀ {ss : List Shape}, Shape.AllRegular p ss →
    Shape.allSmall ss = true → Shape.AllRegular NumberSet.isSteady ss
  | [], _, _ => by simp only [Shape.AllRegular]
  | s :: ss, h, hsmall => by
    simp only [Shape.AllRegular, Shape.allSmall, Bool.and_eq_true] at h hsmall ⊢
    exact ⟨Shape.Regular.of_isSmall h.1 hsmall.1, Shape.AllRegular.of_allSmall h.2 hsmall.2⟩

theorem Ty.FieldsRegular.of_fieldsSmall : ∀ {fields : List (String × Ty)},
    Ty.FieldsRegular p fields → Ty.fieldsSmall fields = true →
      Ty.FieldsRegular NumberSet.isSteady fields
  | [], _, _ => by simp only [Ty.FieldsRegular]
  | (name, t) :: fields, h, hsmall => by
    simp only [Ty.fieldsRegular_cons, Ty.fieldsSmall, Bool.and_eq_true] at h hsmall ⊢
    exact ⟨h.1, h.2.1, Ty.Regular.of_isSmall h.2.2.1 hsmall.1,
      Ty.FieldsRegular.of_fieldsSmall h.2.2.2 hsmall.2⟩

end

end FlowTypes
