import FlowTypes.Proofs.InclusionComplete

/-!
# Inclusion is an order on regular types

The inclusion test is reflexive up to the sign of zeros (`Ty.subset_of_identity`), and transitive
on regular types, whatever the bounds of their numbers (`Ty.subset_trans`).

A set of numbers may be covered jointly, and then its cover be covered jointly again. So in the
case of numbers the test is read as inclusion of unpassed points
(`NumberSet.covered_iff_unpassed`), which is transitive. The other shapes are covered by one shape.
-/

namespace FlowTypes

/-! ## Covered shapes -/

namespace Shape

/-- Is the shape covered by one of the shapes, or by several of them jointly? -/
def Covered (x : Shape) (ys : List Shape) : Prop :=
  (∃ y ∈ ys, x.subset y = true) ∨ x.jointlyCovered ys = true

variable {xs ys zs : List Shape}

theorem allCovered_iff : ∀ {xs : List Shape}, allCovered xs ys = true ↔ ∀ x ∈ xs, x.Covered ys
  | [] => by simp [allCovered]
  | x :: xs => by
    rw [allCovered, Bool.and_eq_true, allCovered_iff, List.forall_mem_cons, Bool.or_eq_true,
      List.any_eq_true, Covered]

theorem covered_number {n : NumberSet} :
    (number n).Covered ys ↔ (∃ m ∈ ys.filterMap number?, n.subset m = true) ∨
      n.joint (ys.filterMap number?) = true := by
  refine or_congr ⟨?_, ?_⟩ Iff.rfl
  · rintro ⟨y, hy, hsub⟩
    cases y with
    | number m => exact ⟨m, mem_filterMap_number?.2 hy, by simpa only [subset] using hsub⟩
    | _ => simp [subset] at hsub
  · rintro ⟨m, hm, hsub⟩
    exact ⟨_, mem_filterMap_number?.1 hm, by simpa only [subset] using hsub⟩

theorem covered_text {t : TextSet} :
    (text t).Covered ys ↔ ∃ u ∈ ys.filterMap text?, t.subset u = true := by
  constructor
  · rintro (⟨y, hy, hsub⟩ | hjoint)
    · cases y with
      | text u => exact ⟨u, mem_filterMap_text?.2 hy, by simpa only [subset] using hsub⟩
      | _ => simp [subset] at hsub
    · simp [jointlyCovered] at hjoint
  · rintro ⟨u, hu, hsub⟩
    exact Or.inl ⟨_, mem_filterMap_text?.1 hu, by simpa only [subset] using hsub⟩

theorem covered_record {name : String} {fields : List (String × Ty)} :
    (record name fields).Covered ys ↔
      ∃ others, record name others ∈ ys ∧ Ty.fieldsSubset fields others = true := by
  constructor
  · rintro (⟨y, hy, hsub⟩ | hjoint)
    · cases y with
      | record m others =>
        simp only [subset, Bool.and_eq_true, decide_eq_true_eq] at hsub
        obtain ⟨rfl, hsub⟩ := hsub
        exact ⟨others, hy, hsub⟩
      | _ => simp [subset] at hsub
    · simp [jointlyCovered] at hjoint
  · rintro ⟨others, hmem, hsub⟩
    exact Or.inl ⟨_, hmem, by simpa only [subset, decide_true, Bool.true_and] using hsub⟩

/-- A record is covered by records of its name, field by field. -/
theorem subset_record {name : String} {fields : List (String × Ty)} {y : Shape} :
    (record name fields).subset y = true ↔
      ∃ others, y = record name others ∧ Ty.fieldsSubset fields others = true := by
  cases y with
  | record m others =>
    simp only [subset, Bool.and_eq_true, decide_eq_true_eq, record.injEq]
    constructor
    · rintro ⟨rfl, hsub⟩
      exact ⟨others, ⟨rfl, rfl⟩, hsub⟩
    · rintro ⟨_, ⟨rfl, rfl⟩, hsub⟩
      exact ⟨rfl, hsub⟩
  | _ => simp [subset]

end Shape

/-! ## Reflexivity -/

/-- A well-formed set of numbers covers itself, with either sign of a zero. -/
theorem NumberSet.subset_of_identity {m n : NumberSet} (hm : m.wellFormed = true)
    (h : m.identity = n.identity) : m.subset n = true := by
  cases m with
  | all => cases n <;> first | rfl | cases h
  | literal v =>
    have hv : n.has v = true := by
      rw [← has_identity, ← h, has_identity, has_iff_denotes hm]
      rfl
    cases n <;> first | rfl | exact hv
  | interval lo hi =>
    obtain ⟨hlo, hhi, -⟩ := lt_of_wellFormed_interval hm
    cases n <;> cases h
    simp only [subset, Bool.and_eq_true, decide_eq_true_eq, Binary64.le_iff_value]
    exact ⟨⟨hlo, hlo, le_refl _⟩, hhi, hhi, le_refl _⟩
  | integers lo hi =>
    have hwhole := whole_of_integers hm
    have hlo := Binary64.isNaN_of_isWhole hwhole.lo_whole
    have hhi := Binary64.isNaN_of_isWhole hwhole.hi_whole
    cases n <;> cases h
    simp only [subset, Bool.and_eq_true, decide_eq_true_eq, Binary64.le_iff_value]
    exact ⟨⟨hlo, hlo, le_refl _⟩, hhi, hhi, le_refl _⟩

theorem TextSet.subset_refl (t : TextSet) : t.subset t = true := by
  cases t <;> simp [subset]

theorem TextSet.subset_trans {s t u : TextSet} (h : s.subset t = true) (h' : t.subset u = true) :
    s.subset u = true := by
  cases u with
  | all => rfl
  | literal _ =>
    cases t with
    | all => cases h'
    | literal _ =>
      simp only [subset, decide_eq_true_eq] at h'
      rwa [← h']

mutual

/-- Equal types are included in each other. -/
theorem Ty.subset_of_identity : ∀ (a b : Ty), a.wellFormed = true → a.identity = b.identity →
    a.subset b = true
  | .any, .any, _, _ => by simp only [Ty.subset, Ty.isAny]
  | .any, .oneOf _, _, h => by simp [Ty.identity] at h
  | .oneOf _, .any, _, h => by simp [Ty.identity] at h
  | .oneOf xs, .oneOf ys, hxs, h => by
    rw [Ty.wellFormed] at hxs
    simp only [Ty.identity, Ty.oneOf.injEq, Shape.identities_eq_map] at h
    rw [Ty.subset]
    refine Shape.allCovered_of_identity xs ys hxs fun x hx => ?_
    have hmem : x.identity ∈ ys.map Shape.identity := h ▸ List.mem_map_of_mem hx
    obtain ⟨y, hy, he⟩ := List.mem_map.1 hmem
    exact ⟨y, hy, he.symm⟩

theorem Shape.subset_of_identity : ∀ (x y : Shape), x.wellFormed = true →
    x.identity = y.identity → x.subset y = true
  | .number m, .number n, hm, h => by
    simp only [Shape.wellFormed, Shape.identity, Shape.number.injEq] at hm h
    simpa only [Shape.subset] using NumberSet.subset_of_identity hm h
  | .text s, .text t, _, h => by
    simp only [Shape.identity, Shape.text.injEq] at h
    simpa only [Shape.subset, h] using TextSet.subset_refl t
  | .record m xs, .record n ys, hx, h => by
    simp only [Shape.identity, Shape.record.injEq] at h
    obtain ⟨rfl, h⟩ := h
    exact Shape.subset_record.2
      ⟨ys, rfl, Ty.fieldsSubset_of_identity xs ys (Shape.wellFormed_record.1 hx).2 h⟩
  | .number _, .text _, _, h => by simp [Shape.identity] at h
  | .number _, .record .., _, h => by simp [Shape.identity] at h
  | .text _, .number _, _, h => by simp [Shape.identity] at h
  | .text _, .record .., _, h => by simp [Shape.identity] at h
  | .record .., .number _, _, h => by simp [Shape.identity] at h
  | .record .., .text _, _, h => by simp [Shape.identity] at h

theorem Shape.allCovered_of_identity : ∀ (xs ys : List Shape), Shape.allWellFormed xs = true →
    (∀ x ∈ xs, ∃ y ∈ ys, x.identity = y.identity) → Shape.allCovered xs ys = true
  | [], _, _, _ => by simp only [Shape.allCovered]
  | x :: xs, ys, hxs, h => by
    simp only [Shape.allWellFormed, Bool.and_eq_true] at hxs
    obtain ⟨y, hy, he⟩ := h x List.mem_cons_self
    have hrest := Shape.allCovered_of_identity xs ys hxs.2
      fun x hx => h x (List.mem_cons_of_mem _ hx)
    rw [Shape.allCovered_iff] at hrest ⊢
    exact List.forall_mem_cons.2
      ⟨Or.inl ⟨y, hy, Shape.subset_of_identity x y hxs.1 he⟩, hrest⟩

theorem Ty.fieldsSubset_of_identity : ∀ (xs ys : List (String × Ty)),
    Ty.fieldsWellFormed xs = true → Ty.fieldIdentities xs = Ty.fieldIdentities ys →
      Ty.fieldsSubset xs ys = true
  | [], [], _, _ => by simp only [Ty.fieldsSubset]
  | [], (_, _) :: _, _, h => by simp [Ty.fieldIdentities] at h
  | (_, _) :: _, [], _, h => by simp [Ty.fieldIdentities] at h
  | (m, x) :: xs, (n, y) :: ys, hxs, h => by
    obtain ⟨-, hx, hxs⟩ := Ty.fieldsWellFormed_cons.1 hxs
    simp only [Ty.fieldIdentities, List.cons.injEq, Prod.mk.injEq] at h
    obtain ⟨⟨rfl, hxy⟩, h⟩ := h
    simp only [Ty.fieldsSubset, Ty.subset_of_identity x y hx hxy,
      Ty.fieldsSubset_of_identity xs ys hxs h, decide_true, Bool.and_self]

end

/-! ## Transitivity -/

variable {p : NumberSet → Bool}

mutual

/-- The test is transitive on regular types. -/
theorem Ty.subset_trans : ∀ (a b c : Ty), a.Regular p → b.Regular p → c.Regular p →
    a.subset b = true → b.subset c = true → a.subset c = true
  | .any, .any, _, _, _, _, _, h' => h'
  | .any, .oneOf _, _, _, _, _, h, _ => by simp [Ty.subset, Ty.isAny] at h
  | .oneOf _, _, .any, _, _, _, _, _ => by simp only [Ty.subset]
  | .oneOf _, .any, .oneOf _, _, _, _, _, h' => by simp [Ty.subset, Ty.isAny] at h'
  | .oneOf xs, .oneOf ys, .oneOf zs, ha, hb, hc, h, h' => by
    rw [Ty.Regular] at ha
    rw [Ty.subset] at h h' ⊢
    exact Shape.allCovered_trans xs ys zs ha.2 hb hc h h'

theorem Shape.allCovered_trans : ∀ (xs ys zs : List Shape), Shape.AllRegular p xs →
    (Ty.oneOf ys).Regular p → (Ty.oneOf zs).Regular p → Shape.allCovered xs ys = true →
      Shape.allCovered ys zs = true → Shape.allCovered xs zs = true
  | [], _, _, _, _, _, _, _ => by simp only [Shape.allCovered]
  | x :: xs, ys, zs, hxs, hys, hzs, h, h' => by
    rw [Shape.AllRegular] at hxs
    rw [Shape.allCovered_iff, List.forall_mem_cons] at h
    have hrest := Shape.allCovered_trans xs ys zs hxs.2 hys hzs (Shape.allCovered_iff.2 h.2) h'
    rw [Shape.allCovered_iff] at h' hrest ⊢
    exact List.forall_mem_cons.2 ⟨Shape.covered_trans x ys zs hxs.1 hys hzs h.1 h', hrest⟩

theorem Shape.covered_trans : ∀ (x : Shape) (ys zs : List Shape), x.Regular p →
    (Ty.oneOf ys).Regular p → (Ty.oneOf zs).Regular p → x.Covered ys →
      (∀ y ∈ ys, y.Covered zs) → x.Covered zs
  | .number n, ys, zs, hx, hys, hzs, h, h' => by
    have hn := (Shape.regular_number.1 hx).1
    rw [Shape.covered_number, NumberSet.covered_iff_unpassed hn hys.fitted_numbers] at h
    rw [Shape.covered_number, NumberSet.covered_iff_unpassed hn hzs.fitted_numbers]
    intro q hq hnq
    obtain ⟨m, hm, hmq⟩ := h q hq hnq
    have hcovered := Shape.covered_number.1 (h' _ (mem_filterMap_number?.1 hm))
    exact (NumberSet.covered_iff_unpassed (hys.fitted_numbers.wellFormed m hm)
      hzs.fitted_numbers).1 hcovered q hq hmq
  | .text t, ys, zs, _, _, _, h, h' => by
    obtain ⟨u, hu, htu⟩ := Shape.covered_text.1 h
    obtain ⟨w, hw, huw⟩ := Shape.covered_text.1 (h' _ (Shape.mem_filterMap_text?.1 hu))
    exact Shape.covered_text.2 ⟨w, hw, TextSet.subset_trans htu huw⟩
  | .record name fields, ys, zs, hx, hys, hzs, h, h' => by
    obtain ⟨others, hmem, hsub⟩ := Shape.covered_record.1 h
    obtain ⟨others', hmem', hsub'⟩ := Shape.covered_record.1 (h' _ hmem)
    have hfields := (Shape.regular_record.1 hx).2
    have hothers := (Shape.regular_record.1 ((Ty.regular_oneOf.1 hys).2 _ hmem)).2
    have hothers' := (Shape.regular_record.1 ((Ty.regular_oneOf.1 hzs).2 _ hmem')).2
    exact Shape.covered_record.2 ⟨others', hmem',
      Ty.fieldsSubset_trans fields others others' hfields hothers hothers' hsub hsub'⟩

theorem Ty.fieldsSubset_trans : ∀ (xs ys zs : List (String × Ty)), Ty.FieldsRegular p xs →
    Ty.FieldsRegular p ys → Ty.FieldsRegular p zs → Ty.fieldsSubset xs ys = true →
      Ty.fieldsSubset ys zs = true → Ty.fieldsSubset xs zs = true
  | [], [], _, _, _, _, _, h' => h'
  | [], _ :: _, _, _, _, _, h, _ => by simp [Ty.fieldsSubset] at h
  | _ :: _, [], _, _, _, _, h, _ => by simp [Ty.fieldsSubset] at h
  | _ :: _, _ :: _, [], _, _, _, _, h' => by simp [Ty.fieldsSubset] at h'
  | (k, x) :: xs, (m, y) :: ys, (n, z) :: zs, hxs, hys, hzs, h, h' => by
    obtain ⟨-, -, hx, hxs⟩ := Ty.fieldsRegular_cons.1 hxs
    obtain ⟨-, -, hy, hys⟩ := Ty.fieldsRegular_cons.1 hys
    obtain ⟨-, -, hz, hzs⟩ := Ty.fieldsRegular_cons.1 hzs
    simp only [Ty.fieldsSubset, Bool.and_eq_true, decide_eq_true_eq] at h h' ⊢
    exact ⟨⟨h.1.1.trans h'.1.1, Ty.subset_trans x y z hx hy hz h.1.2 h'.1.2⟩,
      Ty.fieldsSubset_trans xs ys zs hxs hys hzs h.2 h'.2⟩

end

/-- A record that covers a record covers what that one covers. -/
theorem Shape.subset_trans_of_record {x y z : Shape} (hx : x.Regular p) (hy : y.Regular p)
    (hz : z.Regular p) (hrecord : x.isRecord = true) (h : x.subset y = true)
    (h' : y.subset z = true) : x.subset z = true := by
  cases x with
  | number n => cases hrecord
  | text t => cases hrecord
  | record name fields =>
    obtain ⟨others, rfl, hsub⟩ := Shape.subset_record.1 h
    obtain ⟨others', rfl, hsub'⟩ := Shape.subset_record.1 h'
    rw [Shape.regular_record] at hx hy hz
    exact Shape.subset_record.2
      ⟨others', rfl, Ty.fieldsSubset_trans _ _ _ hx.2 hy.2 hz.2 hsub hsub'⟩

end FlowTypes
