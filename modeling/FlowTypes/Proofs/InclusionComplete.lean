import FlowTypes.Proofs.CanonicalUniqueness
import FlowTypes.Proofs.JointCover
import FlowTypes.Proofs.RegularTypes

/-!
# The inclusion test is complete for samples

Among regular types the test accepts every inclusion of samples, whatever the bounds of their
numbers (`Ty.subset_of_admits`). If the sets of numbers are steady, it decides it
(`Ty.subset_iff_admits`).

A set of numbers is covered as soon as its points are in the union, and a range of integers jointly
(`NumberSet.covered_iff_unpassed`). A record is covered by one record (`Shape.exists_record_cover`).
-/

namespace FlowTypes

open NumberSet (isSteady)
open ExtendedRat Binary64

/-! ## The parts of a regular union -/

namespace Shape

variable {items : List Shape}

theorem filterMap_number?_canonical (items : List Shape) :
    (canonical items).filterMap number? = NumberSet.canonical (items.filterMap number?) := by
  have hrecords : (canonicalRecords (items.filter isRecord)).filterMap number? = [] :=
    List.filterMap_eq_nil_iff.2 fun s hs => by
      have hrecord := (List.mem_filter.1 (mem_of_mem_canonicalRecords hs)).2
      cases s <;> simp_all [isRecord, number?]
  simp only [canonical, List.filterMap_append, List.filterMap_map, hrecords, List.append_nil]
  have hnumber : number? ∘ number = some := rfl
  have htext : number? ∘ text = fun _ => none := rfl
  rw [hnumber, htext, List.filterMap_some, List.filterMap_none, List.append_nil]

theorem filterMap_text?_canonical (items : List Shape) :
    (canonical items).filterMap text? = TextSet.canonical (items.filterMap text?) := by
  have hrecords : (canonicalRecords (items.filter isRecord)).filterMap text? = [] :=
    List.filterMap_eq_nil_iff.2 fun s hs => by
      have hrecord := (List.mem_filter.1 (mem_of_mem_canonicalRecords hs)).2
      cases s <;> simp_all [isRecord, text?]
  simp only [canonical, List.filterMap_append, List.filterMap_map, hrecords, List.append_nil]
  have hnumber : text? ∘ number = fun _ => none := rfl
  have htext : text? ∘ text = some := rfl
  rw [hnumber, htext, List.filterMap_some, List.filterMap_none, List.nil_append]

theorem filter_isRecord_canonical (items : List Shape) :
    (canonical items).filter isRecord = canonicalRecords (items.filter isRecord) := by
  have hnumbers : ∀ ns : List NumberSet, (ns.map number).filter isRecord = [] :=
    fun ns => List.filter_eq_nil_iff.2 fun s hs => by
      obtain ⟨n, -, rfl⟩ := List.mem_map.1 hs
      simp [isRecord]
  have htexts : ∀ ts : List TextSet, (ts.map text).filter isRecord = [] :=
    fun ts => List.filter_eq_nil_iff.2 fun s hs => by
      obtain ⟨n, -, rfl⟩ := List.mem_map.1 hs
      simp [isRecord]
  simp only [canonical, List.filter_append, hnumbers, htexts, List.nil_append]
  exact List.filter_eq_self.2 fun s hs => (List.mem_filter.1 (mem_of_mem_canonicalRecords hs)).2

end Shape

/-- The sets of numbers of a regular union are those of a canonical form. -/
theorem Ty.Regular.fitted_numbers {p : NumberSet → Bool} {ss : List Shape}
    (h : (Ty.oneOf ss).Regular p) : NumberSet.Fitted (ss.filterMap Shape.number?) := by
  obtain ⟨⟨items, hitems, rfl⟩, -⟩ := Ty.regular_oneOf.1 h
  rw [Shape.filterMap_number?_canonical]
  exact NumberSet.fitted_canonical (wellFormed_of_mem_numbers hitems)

/-- The sets of numbers of a regular union with steady sets are normal. -/
theorem Ty.Regular.normal_numbers {ss : List Shape} (h : (Ty.oneOf ss).Regular isSteady) :
    NumberSet.Normal ((ss.filterMap Shape.number?).map NumberSet.identity) := by
  obtain ⟨⟨items, hitems, rfl⟩, hss⟩ := Ty.regular_oneOf.1 h
  have hsteady := fun n hn => (Shape.regular_of_mem_numbers hss n hn).2
  rw [Shape.filterMap_number?_canonical] at hsteady ⊢
  exact NumberSet.normal_canonical (wellFormed_of_mem_numbers hitems) hsteady

/-- A set of texts that are all in a union is covered by one of its sets. -/
theorem TextSet.exists_subset_of_has {t : TextSet} {items : List TextSet}
    (h : ∀ s, t.has s = true → ∃ u ∈ items, u.has s = true) :
    ∃ u ∈ items, t.subset u = true := by
  cases t with
  | all =>
    have hall : all ∈ items := by
      by_contra hall
      obtain ⟨s, hs⟩ := exists_not_has hall
      exact hs (h s rfl)
    exact ⟨all, hall, rfl⟩
  | literal s =>
    obtain ⟨u, hu, hus⟩ := h s (by simp [has])
    refine ⟨u, hu, ?_⟩
    cases u with
    | all => rfl
    | literal r =>
      simp only [has, decide_eq_true_eq] at hus
      simp only [subset, hus, decide_true]

/-! ## Induction over the left type -/

variable {p : NumberSet → Bool}

theorem Ty.FieldsRegular.exists_fieldsAdmit {fields : List (String × Ty)}
    (h : Ty.FieldsRegular p fields) : ∃ samples, Ty.FieldsAdmit fields samples :=
  Ty.exists_fieldsAdmit fields h.sound.1 h.sound.2

mutual

/-- The test accepts every inclusion of samples. -/
theorem Ty.subset_of_admits : ∀ (a b : Ty), a.Regular p → b.Regular p →
    (∀ v : Sample, a.Admits v → b.Admits v) → a.subset b = true
  | .any, b, _, _, h => by
    rw [Ty.admits_other.1 (h .other (Ty.admits_any _))]
    simp only [Ty.subset, Ty.isAny]
  | .oneOf _, .any, _, _, _ => by simp only [Ty.subset]
  | .oneOf xs, .oneOf ys, ha, hb, h => by
    rw [Ty.Regular] at ha
    rw [Ty.subset]
    refine Shape.allCovered_of_admits xs ys ha.2 hb fun v hv => ?_
    exact Ty.admits_oneOf.1 (h v (by simpa only [Ty.Admits] using hv))

theorem Shape.covered_of_admits : ∀ (x : Shape) (ys : List Shape), x.Regular p →
    (Ty.oneOf ys).Regular p → (∀ v : Sample, x.Admits v → ∃ y ∈ ys, y.Admits v) →
      (∃ y ∈ ys, x.subset y = true) ∨ x.jointlyCovered ys = true
  | .number n, ys, hx, hys, h => by
    have hn := (Shape.regular_number.1 hx).1
    have hcovered := (NumberSet.covered_iff_unpassed hn hys.fitted_numbers).2 fun q _ hq => by
        obtain ⟨y, hy, hyp⟩ := h (.number q) (Shape.admits_number.2 ⟨q, rfl, hq⟩)
        cases y with
        | number m => exact ⟨m, mem_filterMap_number?.2 hy, by simpa only [Shape.Admits] using hyp⟩
        | _ => simp [Shape.Admits] at hyp
    refine hcovered.imp ?_ id
    rintro ⟨m, hm, hsub⟩
    exact ⟨.number m, mem_filterMap_number?.1 hm, by simpa only [Shape.subset] using hsub⟩
  | .text t, ys, _, _, h => by
    obtain ⟨u, hu, hsub⟩ := @TextSet.exists_subset_of_has t (ys.filterMap Shape.text?)
      fun s hs => by
      obtain ⟨y, hy, hys⟩ := h (.text s) (Shape.admits_text.2 ⟨s, rfl, hs⟩)
      cases y with
      | text u =>
        exact ⟨u, Shape.mem_filterMap_text?.2 hy, by simpa only [Shape.Admits] using hys⟩
      | _ => simp [Shape.Admits] at hys
    exact Or.inl ⟨.text u, Shape.mem_filterMap_text?.1 hu, by simpa only [Shape.subset] using hsub⟩
  | .record name fields, ys, hx, hys, h => by
    obtain ⟨-, hfields⟩ := Shape.regular_record.1 hx
    obtain ⟨others, hmem, hcover⟩ := Shape.exists_record_cover hfields.exists_fieldsAdmit h
    have hothers := (Shape.regular_record.1 ((Ty.regular_oneOf.1 hys).2 _ hmem)).2
    refine Or.inl ⟨_, hmem, ?_⟩
    simp only [Shape.subset, decide_true, Bool.true_and]
    exact Ty.fieldsSubset_of_admits fields others hfields hothers hcover

theorem Shape.allCovered_of_admits : ∀ (xs ys : List Shape), Shape.AllRegular p xs →
    (Ty.oneOf ys).Regular p →
      (∀ v : Sample, Shape.AnyAdmits xs v → ∃ y ∈ ys, y.Admits v) →
        Shape.allCovered xs ys = true
  | [], _, _, _, _ => by simp only [Shape.allCovered]
  | x :: xs, ys, hxs, hys, h => by
    simp only [Shape.AllRegular, Shape.AnyAdmits] at hxs h
    simp only [Shape.allCovered, Bool.and_eq_true, Bool.or_eq_true, List.any_eq_true]
    exact ⟨Shape.covered_of_admits x ys hxs.1 hys fun v hv => h v (Or.inl hv),
      Shape.allCovered_of_admits xs ys hxs.2 hys fun v hv => h v (Or.inr hv)⟩

theorem Ty.fieldsSubset_of_admits : ∀ (xs ys : List (String × Ty)),
    Ty.FieldsRegular p xs → Ty.FieldsRegular p ys →
      (∀ samples, Ty.FieldsAdmit xs samples → Ty.FieldsAdmit ys samples) →
        Ty.fieldsSubset xs ys = true
  | [], ys, _, _, h => by
    have hys := h [] (Ty.fieldsAdmit_nil.2 rfl)
    match ys, hys with
    | [], _ => simp only [Ty.fieldsSubset]
    | _ :: _, hys => simp [Ty.FieldsAdmit] at hys
  | (name, x) :: xs, ys, hxs, hys, h => by
    obtain ⟨y, rest, rfl, hxy, hrest⟩ := Ty.cons_of_fieldsAdmit_le hxs.exists_fieldsAdmit h
    obtain ⟨-, -, hx, hxs⟩ := Ty.fieldsRegular_cons.1 hxs
    obtain ⟨-, -, hy, hys⟩ := Ty.fieldsRegular_cons.1 hys
    simp only [Ty.fieldsSubset, Ty.subset_of_admits x y hx hy hxy,
      Ty.fieldsSubset_of_admits xs rest hxs hys hrest, decide_true, Bool.and_self]

end

/-- Among regular types with steady sets of numbers, the test decides inclusion of samples. -/
theorem Ty.subset_iff_admits {a b : Ty} (ha : a.Regular isSteady) (hb : b.Regular isSteady) :
    a.subset b = true ↔ ∀ v : Sample, a.Admits v → b.Admits v :=
  ⟨Ty.admits_of_subset a b ha hb, Ty.subset_of_admits a b ha hb⟩

/-- Inclusion in a type of numbers and texts is accepted by the test, whatever the bounds : a number
is a point, and only `any` has records besides. -/
theorem Ty.subset_complete {a b : Ty} (ha : a.Built) (hb : b.Built)
    (hrecords : ∀ s ∈ b.shapes, s.isRecord = false)
    (h : ∀ v : Sample, v ≠ .other → a.Admits v → b.Admits v) : a.subset b = true := by
  refine Ty.subset_of_admits a b ha.regular hb.regular fun v hv => ?_
  by_cases hother : v = .other
  · subst hother
    obtain rfl := Ty.admits_other.1 hv
    -- A record is among the samples of `any`, and no union of numbers and texts admits it.
    have hrecord := h (.record "" []) (by simp) (Ty.admits_any _)
    cases b with
    | any => exact Ty.admits_any _
    | oneOf ys =>
      obtain ⟨y, hy, hyv⟩ := Ty.admits_oneOf.1 hrecord
      obtain ⟨fields, rfl, -⟩ := Shape.exists_record_of_admits hyv
      cases hrecords _ hy
  · exact h v hother hv

/-- Between whole bounds a range of integers admits what lies between them. -/
theorem Shape.admits_integers {lo hi : Binary64} {k l : ℤ} (hlo : lo.value = int k)
    (hhi : hi.value = int l) {v : Sample} :
    (Shape.number (.integers lo hi)).Admits v ↔
      ∃ z : ℤ, v = .number (some (int z)) ∧ k ≤ z ∧ z ≤ l := by
  simp only [admits_number, NumberSet.Denotes, hlo, hhi, int_le_int]
  constructor
  · rintro ⟨p, rfl, z, rfl, hz⟩
    exact ⟨z, rfl, hz⟩
  · rintro ⟨z, rfl, hz⟩
    exact ⟨_, rfl, z, rfl, hz⟩

/-- Zero and one are the integers on the left : the one is in the real interval on the right, the
other is the literal. -/
theorem Ty.subset_complete_spread :
    (∀ v : Sample, v ≠ .other → (integers .zero .one).Admits v →
      (union [interval .zero .half, literal .one]).Admits v) ∧
    (integers .zero .one).subset (union [interval .zero .half, literal .one]) = true := by
  have hzero : Binary64.zero.value = ExtendedRat.int 0 :=
    (value_eq_int rfl _).2 (by decide +kernel)
  have hone : Binary64.one.value = ExtendedRat.int 1 := (value_eq_int rfl _).2 (by decide +kernel)
  -- The types are kept as variables, since their samples would be computed otherwise.
  have hspread : ∀ a b : Ty, a = oneOf [.number (.integers .zero .one)] →
      b = oneOf [.number (.interval .zero .half), .number (.literal .one)] →
        a.Built → b.Built →
          (∀ v : Sample, v ≠ .other → a.Admits v → b.Admits v) ∧ a.subset b = true := by
    intro a b ha hb hbuilt hbuilt'
    have h : ∀ v : Sample, v ≠ .other → a.Admits v → b.Admits v := by
      intro v _ hv
      simp only [ha, hb, Ty.admits_oneOf, List.mem_cons, List.not_mem_nil, or_false,
        exists_eq_left, exists_eq_or_imp, Shape.admits_integers hzero hone] at hv ⊢
      obtain ⟨z, rfl, h0, h1⟩ := hv
      rcases (by omega : z = 0 ∨ z = 1) with rfl | rfl
      · exact Or.inl (Shape.admits_number.2 ⟨_, rfl, _, rfl, hzero.le,
          (int_le_value rfl _).2 (by decide +kernel)⟩)
      · exact Or.inr (Shape.admits_number.2 ⟨_, rfl, exact_eq_some.2 ⟨rfl, hone⟩⟩)
    exact ⟨h, Ty.subset_complete hbuilt hbuilt' (by rw [hb]; decide +kernel) h⟩
  refine hspread _ _ (by decide +kernel) (by decide +kernel) (.integers _ _) (.union _ ?_)
  exact List.forall_mem_cons.2 ⟨.interval _ _, List.forall_mem_singleton.2 (.literal _)⟩

end FlowTypes
