import FlowTypes.Proofs.InclusionComplete

/-!
# Regular types are known by their samples

Two regular types with steady sets of numbers that admit the same samples are equal
(`Ty.identity_eq_of_admits`). Their numbers and texts are equal since canonical forms of these are
unique. Their records ascend by their texts, which do not show the sign of a zero
(`Shape.describe_identity`), and none of them covers another (`Shape.separate_canonicalRecords`).
So each record of the one type is covered by one of the other, and that one by no record but the
first : both have the same samples, and by induction they are equal.
-/

namespace FlowTypes

open NumberSet (isSteady)

/-! ## Canonical unions of records -/

namespace Shape

/-- Records in ascending order of their texts, none of them covering another. -/
structure SeparateRecords (records : List Shape) : Prop where
  ascending : records.Pairwise fun a b => a.describe < b.describe
  antichain : records.Pairwise fun a b => a.subset b = false ∧ b.subset a = false

variable {items : List Shape}

theorem ascending_distinctRecords (items : List Shape) :
    (distinctRecords items).Pairwise fun a b => a.describe < b.describe := by
  have hsort : (StableSort.sort (fun a b : String × Shape => decide (a.1 ≤ b.1))
      (items.map fun s => (s.describe, s))).Pairwise fun a b => decide (a.1 ≤ b.1) = true := by
    refine StableSort.pairwise_sort (fun a b => ?_) (fun a b c => ?_) _
    · simpa only [decide_eq_true_eq] using le_total a.1 b.1
    · simpa only [decide_eq_true_eq] using le_trans
  have hconvex : ∀ a b c : String × Shape, decide (a.1 ≤ b.1) = true → decide (b.1 ≤ c.1) = true →
      decide (c.1 = a.1) = true → decide (b.1 = a.1) = true := by
    simp only [decide_eq_true_eq]
    exact fun a b c hab hbc hca => le_antisymm (hbc.trans hca.le) hab
  have hdistinct := StableSort.pairwise_dropRepeats hconvex hsort
  refine List.pairwise_map.2 ((hdistinct.and
    (hsort.sublist (StableSort.dropRepeats_sublist _))).imp_of_mem fun ha hb hab => ?_)
  rw [← (mem_keyed_of_mem_dropRepeats ha).1, ← (mem_keyed_of_mem_dropRepeats hb).1]
  exact lt_of_le_of_ne (of_decide_eq_true hab.2) (Ne.symm (of_decide_eq_false hab.1))

/-- Adding records in ascending order keeps those that are kept separate. -/
theorem separate_foldl_addRecord : ∀ (items kept : List Shape), SeparateRecords kept →
    items.Pairwise (fun a b => a.describe < b.describe) →
      (∀ k ∈ kept, ∀ s ∈ items, k.describe < s.describe) →
        SeparateRecords (items.foldl addRecord kept)
  | [], kept, hkept, _, _ => hkept
  | item :: items, kept, hkept, hitems, hbefore => by
    obtain ⟨hitem, hitems'⟩ := List.pairwise_cons.1 hitems
    refine separate_foldl_addRecord items _ ?_ hitems' fun k hk s hs => ?_
    · unfold addRecord
      split
      · exact hkept
      · next hcover =>
        simp only [List.any_eq_true, not_exists, not_and, Bool.not_eq_true] at hcover
        have hsublist := List.filter_sublist (p := fun k => !k.subset item) (l := kept)
        refine ⟨List.pairwise_append.2 ⟨hkept.ascending.sublist hsublist,
          List.pairwise_singleton _ _, fun k hk s hs => ?_⟩,
          List.pairwise_append.2 ⟨hkept.antichain.sublist hsublist,
          List.pairwise_singleton _ _, fun k hk s hs => ?_⟩⟩ <;>
          obtain rfl := List.mem_singleton.1 hs <;> obtain ⟨hk, hks⟩ := List.mem_filter.1 hk
        · exact hbefore k hk s List.mem_cons_self
        · exact ⟨by simpa using hks, hcover k hk⟩
    · rcases mem_addRecord hk with hk | rfl
      · exact hbefore k hk s (List.mem_cons_of_mem _ hs)
      · exact hitem s hs

theorem separate_canonicalRecords (items : List Shape) :
    SeparateRecords (canonicalRecords items) := by
  match items with
  | [] => exact ⟨List.Pairwise.nil, List.Pairwise.nil⟩
  | [s] => exact ⟨List.pairwise_singleton _ _, List.pairwise_singleton _ _⟩
  | a :: b :: rest =>
    rw [canonicalRecords_eq]
    exact separate_foldl_addRecord _ [] ⟨List.Pairwise.nil, List.Pairwise.nil⟩
      (ascending_distinctRecords _) (by simp)

variable {records others : List Shape}

/-- With a union of records that do not cover each other, any other with the same samples shares
each of them. -/
theorem exists_record_same (hrecords : ∀ s ∈ records, s.Regular isSteady)
    (hothers : ∀ s ∈ others, s.Regular isSteady) (hrecord : ∀ s ∈ records, s.isRecord = true)
    (hseparate : SeparateRecords records)
    (h : ∀ v, (∃ s ∈ records, s.Admits v) ↔ ∃ s ∈ others, s.Admits v) {s : Shape}
    (hs : s ∈ records) : ∃ t ∈ others, ∀ v, s.Admits v ↔ t.Admits v := by
  cases s with
  | number n => cases hrecord _ hs
  | text t => cases hrecord _ hs
  | record name fields =>
    have hfields := (regular_record.1 (hrecords _ hs)).2
    obtain ⟨fields', hmem', hle'⟩ := exists_record_cover hfields.exists_fieldsAdmit
      fun v hv => (h v).1 ⟨_, hs, hv⟩
    have hfields' := (regular_record.1 (hothers _ hmem')).2
    obtain ⟨fields'', hmem'', hle''⟩ := exists_record_cover hfields'.exists_fieldsAdmit
      fun v hv => (h v).2 ⟨_, hmem', hv⟩
    -- The record lies in the last one, so they are the same.
    have hfields'' := (regular_record.1 (hrecords _ hmem'')).2
    have hsubset : (record name fields).subset (record name fields'') = true := by
      simp only [subset, decide_true, Bool.true_and]
      exact Ty.fieldsSubset_of_admits _ _ hfields hfields'' fun v hv => hle'' v (hle' v hv)
    have heq : record name fields = record name fields'' := by
      rcases StableSort.eq_or_of_pairwise hseparate.antichain hs hmem'' with heq | hno | hno
      · exact heq
      · exact absurd hsubset (Bool.eq_false_iff.1 hno.1)
      · exact absurd hsubset (Bool.eq_false_iff.1 hno.2)
    obtain ⟨-, rfl⟩ := record.inj heq
    refine ⟨_, hmem', fun v => ?_⟩
    simp only [admits_record]
    exact exists_congr fun samples => and_congr_right fun _ => ⟨hle' samples, hle'' samples⟩

theorem ascending_map_identity (h : records.Pairwise fun a b => a.describe < b.describe) :
    (records.map identity).Pairwise fun a b => a.describe < b.describe := by
  simpa only [List.pairwise_map, describe_identity] using h

/-- Two unions of separate records with the same samples are equal if their single records are. -/
theorem map_identity_eq_of_admits (hrecords : ∀ s ∈ records, s.Regular isSteady)
    (hothers : ∀ s ∈ others, s.Regular isSteady) (hrecord : ∀ s ∈ records, s.isRecord = true)
    (hrecord' : ∀ s ∈ others, s.isRecord = true) (hseparate : SeparateRecords records)
    (hseparate' : SeparateRecords others)
    (h : ∀ v, (∃ s ∈ records, s.Admits v) ↔ ∃ s ∈ others, s.Admits v)
    (hsame : ∀ s ∈ records, ∀ t ∈ others, (∀ v, s.Admits v ↔ t.Admits v) →
      s.identity = t.identity) : records.map identity = others.map identity := by
  have hasc := ascending_map_identity hseparate.ascending
  have hasc' := ascending_map_identity hseparate'.ascending
  have hnodup : ∀ {l : List Shape}, l.Pairwise (fun a b => a.describe < b.describe) → l.Nodup :=
    fun hl => hl.imp fun hlt he => (he ▸ hlt).ne rfl
  have hperm : (records.map identity).Perm (others.map identity) := by
    refine (List.perm_ext_iff_of_nodup (hnodup hasc) (hnodup hasc')).2 fun k => ?_
    simp only [List.mem_map]
    constructor
    · rintro ⟨s, hs, rfl⟩
      obtain ⟨t, ht, hst⟩ := exists_record_same hrecords hothers hrecord hseparate h hs
      exact ⟨t, ht, (hsame s hs t ht hst).symm⟩
    · rintro ⟨t, ht, rfl⟩
      obtain ⟨s, hs, hts⟩ := exists_record_same hothers hrecords hrecord' hseparate'
        (fun v => (h v).symm) ht
      exact ⟨s, hs, hsame s hs t ht fun v => (hts v).symm⟩
  exact hperm.eq_of_pairwise (fun a b _ _ hab hba => absurd (hab.trans hba) (lt_irrefl _))
    hasc hasc'

end Shape

/-! ## Induction over the left type -/

/-- A sample of one part of a union is admitted by that part. -/
theorem Ty.admits_parts {xs ys : List Shape}
    (h : ∀ v : Sample, (Ty.oneOf xs).Admits v ↔ (Ty.oneOf ys).Admits v) :
    (∀ p, (∃ n ∈ xs.filterMap Shape.number?, n.Denotes p) ↔
        ∃ n ∈ ys.filterMap Shape.number?, n.Denotes p) ∧
      (∀ s, (∃ t ∈ xs.filterMap Shape.text?, t.has s = true) ↔
        ∃ t ∈ ys.filterMap Shape.text?, t.has s = true) ∧
      ∀ v, (∃ s ∈ xs.filter Shape.isRecord, s.Admits v) ↔
        ∃ s ∈ ys.filter Shape.isRecord, s.Admits v := by
  have h := fun v => Shape.exists_admits_iff.symm.trans
    ((Ty.admits_oneOf.symm.trans ((h v).trans Ty.admits_oneOf)).trans Shape.exists_admits_iff)
  have hrecord : ∀ {ss : List Shape} {v : Sample}, (∀ name samples, v ≠ .record name samples) →
      ¬∃ s ∈ ss.filter Shape.isRecord, s.Admits v := by
    rintro ss v hv ⟨s, hs, hsv⟩
    have hs := (List.mem_filter.1 hs).2
    cases s with
    | record name fields =>
      obtain ⟨samples, rfl, -⟩ := Shape.admits_record.1 hsv
      exact hv name samples rfl
    | _ => cases hs
  refine ⟨fun p => ?_, fun s => ?_, fun v => ?_⟩
  · have hnone := fun ss => @hrecord ss (.number p) (by simp)
    simpa only [Shape.Admits, and_false, exists_false, false_or, or_false, hnone] using
      h (.number p)
  · have hnone := fun ss => @hrecord ss (.text s) (by simp)
    simpa only [Shape.Admits, and_false, exists_false, false_or, or_false, hnone] using h (.text s)
  · cases v with
    | record name samples =>
      simpa only [Shape.Admits, and_false, exists_false, false_or] using h (.record name samples)
    | _ => exact iff_of_false (hrecord (by simp)) (hrecord (by simp))

namespace Ty.Regular

variable {p : NumberSet → Bool} {ss : List Shape}

/-- The identity of a regular union, part by part. -/
theorem identities_eq (h : (Ty.oneOf ss).Regular p) :
    Shape.identities ss = ((ss.filterMap Shape.number?).map NumberSet.identity).map Shape.number ++
      (ss.filterMap Shape.text?).map Shape.text ++ (ss.filter Shape.isRecord).map Shape.identity := by
  obtain ⟨⟨items, -, rfl⟩, -⟩ := Ty.regular_oneOf.1 h
  rw [Shape.identities_canonical, Shape.filterMap_number?_canonical,
    Shape.filterMap_text?_canonical, Shape.filter_isRecord_canonical]

theorem canonical_texts (h : (Ty.oneOf ss).Regular p) :
    TextSet.canonical (ss.filterMap Shape.text?) = ss.filterMap Shape.text? := by
  obtain ⟨⟨items, -, rfl⟩, -⟩ := Ty.regular_oneOf.1 h
  rw [Shape.filterMap_text?_canonical]
  exact TextSet.canonical_eq_of_has (TextSet.has_canonical _)

theorem separate_records (h : (Ty.oneOf ss).Regular p) :
    Shape.SeparateRecords (ss.filter Shape.isRecord) := by
  obtain ⟨⟨items, -, rfl⟩, -⟩ := Ty.regular_oneOf.1 h
  rw [Shape.filter_isRecord_canonical]
  exact Shape.separate_canonicalRecords _

end Ty.Regular

mutual

/-- Regular types that admit the same samples are equal. -/
theorem Ty.identity_eq_of_admits : ∀ (a b : Ty), a.Regular isSteady → b.Regular isSteady →
    (∀ v : Sample, a.Admits v ↔ b.Admits v) → a.identity = b.identity
  | .any, b, _, _, h => by rw [Ty.admits_other.1 ((h .other).1 (Ty.admits_any _))]
  | .oneOf xs, .any, _, _, h => by
    cases Ty.admits_other.1 ((h .other).2 (Ty.admits_any _))
  | .oneOf xs, .oneOf ys, ha, hb, h => by
    obtain ⟨hnumbers, htexts, hrecords⟩ := Ty.admits_parts h
    have hxs := (Ty.regular_oneOf.1 ha).2
    have hys := (Ty.regular_oneOf.1 hb).2
    have hnumbers' := ha.normal_numbers.eq_of_unpassed hb.normal_numbers fun p _ => by
      simpa only [List.mem_map, exists_exists_and_eq_and, NumberSet.denotes_identity] using
        hnumbers p
    have htexts' := TextSet.canonical_eq_of_has htexts
    rw [ha.canonical_texts, hb.canonical_texts] at htexts'
    have hrecords' := Shape.map_identity_eq_of_admits
      (fun s hs => hxs s (List.mem_of_mem_filter hs))
      (fun s hs => hys s (List.mem_of_mem_filter hs))
      (fun s hs => (List.mem_filter.1 hs).2) (fun s hs => (List.mem_filter.1 hs).2)
      ha.separate_records hb.separate_records hrecords fun s hs t ht hst => by
        obtain ⟨hs, hrecord⟩ := List.mem_filter.1 hs
        exact Shape.identity_eq_of_mem xs (Shape.allRegular_iff.2 hxs) s hs t
          (hys t (List.mem_of_mem_filter ht)) hst hrecord
    rw [Ty.identity, Ty.identity, ha.identities_eq, hb.identities_eq, hnumbers', htexts', hrecords']

theorem Shape.identity_eq_of_mem : ∀ xs : List Shape, Shape.AllRegular isSteady xs →
    ∀ x ∈ xs, ∀ y : Shape, y.Regular isSteady → (∀ v : Sample, x.Admits v ↔ y.Admits v) →
      x.isRecord = true → x.identity = y.identity
  | x :: xs, hxs, z, hz, y, hy, h, hrecord => by
    rw [Shape.AllRegular] at hxs
    rcases List.mem_cons.1 hz with he | hz
    · rw [he] at h hrecord ⊢
      exact Shape.identity_eq_of_admits x y hxs.1 hy h hrecord
    · exact Shape.identity_eq_of_mem xs hxs.2 z hz y hy h hrecord

theorem Shape.identity_eq_of_admits : ∀ x y : Shape, x.Regular isSteady → y.Regular isSteady →
    (∀ v : Sample, x.Admits v ↔ y.Admits v) → x.isRecord = true → x.identity = y.identity
  | .record name fields, y, hx, hy, h, _ => by
    obtain ⟨-, hfields⟩ := Shape.regular_record.1 hx
    obtain ⟨samples, hs⟩ := hfields.exists_fieldsAdmit
    obtain ⟨others, rfl, -⟩ := Shape.exists_record_of_admits
      ((h _).1 (Shape.admits_record.2 ⟨samples, rfl, hs⟩))
    have hothers := (Shape.regular_record.1 hy).2
    rw [Shape.identity, Shape.identity,
      Ty.fieldIdentities_eq_of_admits fields others hfields hothers fun s => ?_]
    simpa [Shape.Admits] using h (.record name s)
  | .number _, _, _, _, _, hrecord => by cases hrecord
  | .text _, _, _, _, _, hrecord => by cases hrecord

theorem Ty.fieldIdentities_eq_of_admits : ∀ xs ys : List (String × Ty),
    Ty.FieldsRegular isSteady xs → Ty.FieldsRegular isSteady ys →
      (∀ samples, Ty.FieldsAdmit xs samples ↔ Ty.FieldsAdmit ys samples) →
        Ty.fieldIdentities xs = Ty.fieldIdentities ys
  | [], ys, _, _, h => by
    have hys := (h []).1 (Ty.fieldsAdmit_nil.2 rfl)
    match ys, hys with
    | [], _ => rfl
    | _ :: _, hys => simp [Ty.FieldsAdmit] at hys
  | (name, x) :: xs, ys, hxs, hys, h => by
    obtain ⟨y, rest, rfl, hxy, hrest⟩ :=
      Ty.cons_of_fieldsAdmit_le hxs.exists_fieldsAdmit fun s => (h s).1
    obtain ⟨x', rest', he, hyx, hrest'⟩ :=
      Ty.cons_of_fieldsAdmit_le hys.exists_fieldsAdmit fun s => (h s).2
    obtain ⟨rfl, rfl⟩ : x' = x ∧ rest' = xs := by simp_all
    obtain ⟨-, -, hx, hxs⟩ := Ty.fieldsRegular_cons.1 hxs
    obtain ⟨-, -, hy, hys⟩ := Ty.fieldsRegular_cons.1 hys
    rw [Ty.fieldIdentities, Ty.fieldIdentities,
      Ty.identity_eq_of_admits _ y hx hy fun v => ⟨hxy v, hyx v⟩,
      Ty.fieldIdentities_eq_of_admits _ rest hxs hys fun s => ⟨hrest s, hrest' s⟩]

end

end FlowTypes
