import FlowTypes.Proofs.NumberUnion
import FlowTypes.Proofs.Samples
import FlowTypes.Ty.Subset

/-!
# The inclusion test is sound

Where `Ty.subset` answers that one type is included in another, every value of the first is a
value of the second (`inclusion_sound`).

The argument is one for values and for samples. It needs types whose sets of numbers have canonical
forms that are exact for the points at hand (`Ty.ExactFor`), as those of well-formed types are for
doubles (`Ty.exactFor_wellFormed`). Each left shape is covered by one shape on the right
(`Ty.ExactFor.shape_admits_of_subset`), or it is a range of numbers that several cover together
(`Ty.ExactFor.admits_of_jointlyCovered`). The two meet in an induction over the left type, since
the fields of a record are types again.
-/

namespace FlowTypes

/-- Inclusion of sets of numbers is sound for doubles. -/
theorem NumberSet.has_of_subset {a b : NumberSet} (ha : a.wellFormed = true)
    (hb : b.wellFormed = true) (h : a.subset b = true) {x : Binary64} (hx : a.has x = true) :
    b.has x = true :=
  (has_iff_denotes hb x).2 (((has_iff_denotes ha x).1 hx).of_subset hb h)

theorem TextSet.has_of_subset {a b : TextSet} (h : a.subset b = true) {s : String}
    (hs : a.has s = true) : b.has s = true := by
  cases b with
  | all => rfl
  | literal t =>
    cases a with
    | all => simp [TextSet.subset] at h
    | literal r =>
      simp only [TextSet.subset, decide_eq_true_eq] at h
      subst h
      exact hs

theorem mem_filterMap_number? {ss : List Shape} {n : NumberSet} :
    n ∈ ss.filterMap Shape.number? ↔ Shape.number n ∈ ss :=
  mem_filterMap_of_inverse Shape.number fun s => by cases s <;> simp [Shape.number?]

/-- The sets of numbers among well-formed shapes are well-formed. -/
theorem wellFormed_of_mem_numbers {ss : List Shape} (hss : ∀ s ∈ ss, s.wellFormed = true) :
    ∀ n ∈ ss.filterMap Shape.number?, n.wellFormed = true := by
  intro n hn
  simpa only [Shape.wellFormed] using hss _ (mem_filterMap_number?.1 hn)

/-! ## Exactness -/

/-- Predicates of types and of shapes that go down from a union to its shapes, and from a record to
its fields. Meets of sets of numbers keep them. -/
structure Ty.Hereditary (P : Ty → Prop) (Q : Shape → Prop) : Prop where
  shapes : ∀ {ss : List Shape}, P (.oneOf ss) → ∀ s ∈ ss, Q s
  number : ∀ {lead : Side} {m n k : NumberSet}, Q (.number m) → Q (.number n) →
    k ∈ m.meet lead n → Q (.number k)
  fields : ∀ {name : String} {xs : List (String × Ty)}, Q (.record name xs) → ∀ f ∈ xs, P f.2

/-- The shapes are well-formed, and canonical forms of their sets of numbers have the same points
of `K` as the sets. -/
structure Ty.ExactFor (K : Option ExtendedRat → Prop) (P : Ty → Prop) (Q : Shape → Prop) : Prop
    extends Ty.Hereditary P Q where
  wellFormed : ∀ {s : Shape}, Q s → s.wellFormed = true
  canonical : ∀ {items : List NumberSet}, (∀ n ∈ items, Q (.number n)) → ∀ {p}, K p →
    ((∃ n ∈ NumberSet.canonical items, n.Denotes p) ↔ ∃ n ∈ items, n.Denotes p)

namespace Ty.ExactFor

variable {K : Option ExtendedRat → Prop} {P : Ty → Prop} {Q : Shape → Prop}

theorem wellFormed_number (h : ExactFor K P Q) {n : NumberSet} (hn : Q (.number n)) :
    n.wellFormed = true := by
  simpa only [Shape.wellFormed] using h.wellFormed hn

/-- A range that several sets cover together lies in their union. -/
theorem denotes_of_joint (h : ExactFor K P Q) {n : NumberSet} {items : List NumberSet}
    (hn : Q (.number n)) (hitems : ∀ m ∈ items, Q (.number m)) (hjoint : n.joint items = true)
    {p : Option ExtendedRat} (hp : K p) (hnp : n.Denotes p) : ∃ m ∈ items, m.Denotes p := by
  simp only [NumberSet.joint, Bool.and_eq_true, decide_eq_true_eq] at hjoint
  have hmeets : ∀ k ∈ items.filterMap (NumberSet.meet .left · n), Q (.number k) := by
    intro k hk
    obtain ⟨m, hm, hk⟩ := List.mem_filterMap.1 hk
    exact h.number (hitems m hm) hn hk
  obtain ⟨k, hk, hkp⟩ := (h.canonical hmeets hp).1 ⟨n, by simp [hjoint.2], hnp⟩
  exact ((NumberSet.denotes_meets (h.wellFormed_number hn)
    (fun m hm => h.wellFormed_number (hitems m hm)) p).1 ⟨k, hk, hkp⟩).1

/-- A range that several shapes cover together has no sample that they do not admit. -/
theorem admits_of_jointlyCovered (h : ExactFor K P Q) {s : Shape} {ys : List Shape} (hs : Q s)
    (hys : ∀ y ∈ ys, Q y) (hjoint : s.jointlyCovered ys = true) {v : Sample} (hv : v.Within K)
    (hsv : s.Admits v) : ∃ y ∈ ys, y.Admits v := by
  cases s with
  | number n =>
    obtain ⟨p, rfl, hp⟩ := Shape.admits_number.1 hsv
    cases hv with
    | number hK =>
      obtain ⟨m, hm, hmp⟩ := h.denotes_of_joint hs
        (fun m hm => hys _ (mem_filterMap_number?.1 hm)) hjoint hK hp
      exact ⟨.number m, mem_filterMap_number?.1 hm, Shape.admits_number.2 ⟨p, rfl, hmp⟩⟩
  | text t => simp [Shape.jointlyCovered] at hjoint
  | record name fields => simp [Shape.jointlyCovered] at hjoint

/-! ## Induction over the left type -/

mutual

theorem admits_of_subset (h : ExactFor K P Q) : ∀ (a b : Ty), P a → P b → a.subset b = true →
    ∀ v : Sample, v.Within K → a.Admits v → b.Admits v
  | .any, .any, _, _, _, _, _, hav => hav
  | .any, .oneOf _, _, _, hsub, _, _, _ => by simp [Ty.subset, Ty.isAny] at hsub
  | .oneOf _, .any, _, _, _, v, _, _ => Ty.admits_any v
  | .oneOf xs, .oneOf ys, ha, hb, hsub, v, hv, hav => by
    rw [Ty.Admits] at hav
    rw [Ty.admits_oneOf]
    exact exists_admits_of_allCovered h xs ys (h.shapes ha) (h.shapes hb)
      (by simpa only [Ty.subset] using hsub) v hv hav

theorem shape_admits_of_subset (h : ExactFor K P Q) : ∀ (a b : Shape), Q a → Q b →
    a.subset b = true → ∀ v : Sample, v.Within K → a.Admits v → b.Admits v
  | .number m, .number n, _, hb, hsub, v, _, hav => by
    obtain ⟨p, rfl, hp⟩ := Shape.admits_number.1 hav
    simp only [Shape.subset] at hsub
    exact Shape.admits_number.2 ⟨p, rfl, hp.of_subset (h.wellFormed_number hb) hsub⟩
  | .text s, .text t, _, _, hsub, v, _, hav => by
    obtain ⟨x, rfl, hx⟩ := Shape.admits_text.1 hav
    simp only [Shape.subset] at hsub
    exact Shape.admits_text.2 ⟨x, rfl, TextSet.has_of_subset hsub hx⟩
  | .record a xs, .record b ys, ha, hb, hsub, v, hv, hav => by
    obtain ⟨samples, rfl, hx⟩ := Shape.admits_record.1 hav
    simp only [Shape.subset, Bool.and_eq_true, decide_eq_true_eq] at hsub
    obtain ⟨rfl, hsub⟩ := hsub
    cases hv with
    | record hv =>
      exact Shape.admits_record.2 ⟨samples, rfl, fieldsAdmit_of_subset h xs ys (h.fields ha)
        (h.fields hb) hsub samples hv hx⟩
  | .number _, .text _, _, _, hsub, _, _, _ => by simp [Shape.subset] at hsub
  | .number _, .record .., _, _, hsub, _, _, _ => by simp [Shape.subset] at hsub
  | .text _, .number _, _, _, hsub, _, _, _ => by simp [Shape.subset] at hsub
  | .text _, .record .., _, _, hsub, _, _, _ => by simp [Shape.subset] at hsub
  | .record .., .number _, _, _, hsub, _, _, _ => by simp [Shape.subset] at hsub
  | .record .., .text _, _, _, hsub, _, _, _ => by simp [Shape.subset] at hsub

theorem exists_admits_of_allCovered (h : ExactFor K P Q) : ∀ (xs ys : List Shape),
    (∀ x ∈ xs, Q x) → (∀ y ∈ ys, Q y) → Shape.allCovered xs ys = true →
      ∀ v : Sample, v.Within K → Shape.AnyAdmits xs v → ∃ y ∈ ys, y.Admits v
  | [], _, _, _, _, _, _, hxv => by simp [Shape.AnyAdmits] at hxv
  | x :: xs, ys, hxs, hys, hsub, v, hv, hxv => by
    obtain ⟨hx, hxs⟩ := List.forall_mem_cons.1 hxs
    simp only [Shape.allCovered, Shape.AnyAdmits, Bool.and_eq_true, Bool.or_eq_true,
      List.any_eq_true] at hsub hxv
    obtain ⟨hcover, hsub⟩ := hsub
    rcases hxv with hxv | hxv
    · rcases hcover with ⟨y, hy, hxy⟩ | hjoint
      · exact ⟨y, hy, shape_admits_of_subset h x y hx (hys y hy) hxy v hv hxv⟩
      · exact h.admits_of_jointlyCovered hx hys hjoint hv hxv
    · exact exists_admits_of_allCovered h xs ys hxs hys hsub v hv hxv

theorem fieldsAdmit_of_subset (h : ExactFor K P Q) : ∀ (xs ys : List (String × Ty)),
    (∀ f ∈ xs, P f.2) → (∀ f ∈ ys, P f.2) → Ty.fieldsSubset xs ys = true →
      ∀ samples : List (String × List Sample), (∀ f ∈ samples, ∀ v ∈ f.2, v.Within K) →
        Ty.FieldsAdmit xs samples → Ty.FieldsAdmit ys samples
  | [], [], _, _, _, _, _, hx => hx
  | [], _ :: _, _, _, hsub, _, _, _ => by simp [Ty.fieldsSubset] at hsub
  | _ :: _, [], _, _, hsub, _, _, _ => by simp [Ty.fieldsSubset] at hsub
  | (m, x) :: xs, (n, y) :: ys, hxs, hys, hsub, samples, hv, hx => by
    obtain ⟨hPx, hxs'⟩ := List.forall_mem_cons.1 hxs
    obtain ⟨hPy, hys'⟩ := List.forall_mem_cons.1 hys
    simp only [Ty.fieldsSubset, Bool.and_eq_true, decide_eq_true_eq] at hsub
    obtain ⟨⟨rfl, hxy⟩, hsub⟩ := hsub
    obtain ⟨vs, rest, rfl, hne, hvs, hrest⟩ := Ty.fieldsAdmit_cons.1 hx
    obtain ⟨hvw, hv⟩ := List.forall_mem_cons.1 hv
    exact Ty.fieldsAdmit_cons.2 ⟨vs, rest, rfl, hne,
      fun v hv => admits_of_subset h x y hPx hPy hxy v (hvw v hv) (hvs v hv),
      fieldsAdmit_of_subset h xs ys hxs' hys' hsub rest hv hrest⟩

end

end Ty.ExactFor

/-! ## Values -/

theorem Ty.hereditary_wellFormed :
    Ty.Hereditary (fun t => t.wellFormed = true) (fun s => s.wellFormed = true) where
  shapes := Ty.wellFormed_oneOf.1
  number hm hn hk := by
    simp only [Shape.wellFormed] at hm hn ⊢
    exact NumberSet.wellFormed_meet _ hm hn hk
  fields h f hf := (Ty.fieldsWellFormed_iff.1 (Shape.wellFormed_record.1 h).2 f hf).2

/-- Canonical forms of well-formed sets of numbers are exact for doubles. -/
theorem Ty.exactFor_wellFormed :
    Ty.ExactFor Binary64.IsPoint (fun t => t.wellFormed = true) (fun s => s.wellFormed = true) where
  toHereditary := hereditary_wellFormed
  wellFormed := id
  canonical {items} hitems p hp := by
    obtain ⟨x, rfl⟩ := hp
    have hwf : ∀ n ∈ items, n.wellFormed = true := fun n hn => by
      simpa only [Shape.wellFormed] using hitems n hn
    exact NumberSet.denotes_canonical hwf (NumberSet.resolved_exact x hwf)

theorem Ty.has_of_subset (a b : Ty) (ha : a.wellFormed = true) (hb : b.wellFormed = true)
    (h : a.subset b = true) (v : Value) (hv : a.has v = true) : b.has v = true :=
  (b.admits_sample hb v).1 (exactFor_wellFormed.admits_of_subset a b ha hb h v.sample
    v.within_sample ((a.admits_sample ha v).2 hv))

theorem Shape.has_of_subset (a b : Shape) (ha : a.wellFormed = true) (hb : b.wellFormed = true)
    (h : a.subset b = true) (v : Value) (hv : a.has v = true) : b.has v = true :=
  (b.admits_sample hb v).1 (Ty.exactFor_wellFormed.shape_admits_of_subset a b ha hb h v.sample
    v.within_sample ((a.admits_sample ha v).2 hv))

/-- An inclusion that the test accepts holds of all values. -/
theorem Ty.inclusion_sound {a b : Ty} (ha : a.wellFormed = true) (hb : b.wellFormed = true)
    (h : a.subset b = true) : ∀ v : Value, a.has v = true → b.has v = true :=
  Ty.has_of_subset a b ha hb h

/-- The interval from zero to one is spread over its two halves. -/
theorem Ty.inclusion_sound_spread :
    let whole := Ty.oneOf [.number (.interval .zero .one)]
    let halves := Ty.oneOf [.number (.interval .zero .half), .number (.interval .half .one)]
    whole.subset halves = true ∧ ∀ v : Value, whole.has v = true → halves.has v = true := by
  intro whole halves
  have h : whole.subset halves = true := by decide +kernel
  exact ⟨h, Ty.inclusion_sound (by decide +kernel) (by decide +kernel) h⟩

end FlowTypes
