import FlowTypes.Proofs.UnionMembership
import FlowTypes.Ty.Intersection

/-!
# Intersection is exact

A value is in the intersection of two types exactly if it is in both (`Ty.has_meet`), and so for
samples as far as canonical forms of sets of numbers are exact (`Ty.ExactFor.admits_meet`). Shapes
meet pairwise, in a table whose canonical union does not depend on which side is outer
(`Shape.exists_mem_unionOfTable`), and the fields of records meet one by one : one empty field
empties the record, which then shares no sample (`Ty.ExactFor.fieldsAdmit_meetFields`).

A property that canonical forms keep, and the meets of sets of numbers, is kept by the meets of
types (`Ty.KeptByMeets`). So the meet of well-formed types is well-formed, and it has no field that
is `never` where they have none. Disjointness, which asks whether the meet is `never`, is then
disjointness of values (`Ty.intersection_exact`).
-/

namespace FlowTypes

/-! ## Tables -/

namespace Shape

/-- The columns of a table of `n` columns. -/
def columns {α : Type} (n : ℕ) (rows : List (List α)) : List (List α) :=
  rows.foldr (List.zipWith (· :: ·)) (List.replicate n [])

theorem exists_mem_zipWith_cons {α : Type} {x : α} : ∀ (row : List α) (groups : List (List α)),
    row.length = groups.length →
      ((∃ g ∈ List.zipWith (· :: ·) row groups, x ∈ g) ↔ x ∈ row ∨ ∃ g ∈ groups, x ∈ g)
  | [], [], _ => by simp
  | y :: row, g :: groups, h => by
    have ih := exists_mem_zipWith_cons (x := x) row groups (by simpa using h)
    rw [List.zipWith_cons_cons, List.exists_mem_cons_iff, List.exists_mem_cons_iff, ih,
      List.mem_cons, List.mem_cons, or_or_or_comm]

theorem length_columns {α : Type} {n : ℕ} : ∀ {rows : List (List α)},
    (∀ row ∈ rows, row.length = n) → (columns n rows).length = n
  | [], _ => List.length_replicate
  | row :: rows, h => by
    have ih := length_columns fun r hr => h r (List.mem_cons_of_mem _ hr)
    have hrow := h row List.mem_cons_self
    rw [columns, List.foldr_cons, List.length_zipWith]
    rw [columns] at ih
    omega

/-- Columns have the entries of the rows. -/
theorem exists_mem_columns {α : Type} {n : ℕ} {x : α} : ∀ {rows : List (List α)},
    (∀ row ∈ rows, row.length = n) → ((∃ g ∈ columns n rows, x ∈ g) ↔ ∃ row ∈ rows, x ∈ row)
  | [], _ => by simp [columns]
  | row :: rows, h => by
    have hrows := fun r hr => h r (List.mem_cons_of_mem _ hr)
    have hlength := (h row List.mem_cons_self).trans (length_columns hrows).symm
    rw [columns, List.foldr_cons]
    rw [columns] at hlength
    rw [exists_mem_zipWith_cons _ _ hlength, List.exists_mem_cons_iff]
    exact or_congr_right (exists_mem_columns hrows)

/-- The groups of a table that are united first. -/
def groups {α : Type} (outer : Side) (n : ℕ) (rows : List (List α)) : List (List α) :=
  match outer with
  | .left => rows
  | .right => columns n rows

theorem exists_mem_groups {α : Type} {n : ℕ} {x : α} (outer : Side) {rows : List (List α)}
    (h : ∀ row ∈ rows, row.length = n) :
    (∃ g ∈ groups outer n rows, x ∈ g) ↔ ∃ row ∈ rows, x ∈ row := by
  cases outer with
  | left => exact Iff.rfl
  | right => exact exists_mem_columns h

theorem unionOfTable_eq (outer : Side) (n : ℕ) (rows : List (List (Option Shape))) :
    unionOfTable outer n rows =
      canonical ((groups outer n rows).flatMap fun g => canonical (g.filterMap id)) := by
  cases outer <;> rfl

variable {outer : Side} {n : ℕ} {rows : List (List (Option Shape))}

/-- What canonical forms do not change, among shapes that satisfy `q`, is the same of the union of
a table and of its entries, whichever side is outer. -/
theorem exists_mem_unionOfTable {p q : Shape → Prop}
    (hkeep : ∀ items : List Shape, (∀ s ∈ items, q s) → ∀ s ∈ canonical items, q s)
    (hcanonical : ∀ items : List Shape, (∀ s ∈ items, q s) →
      ((∃ s ∈ canonical items, p s) ↔ ∃ s ∈ items, p s))
    (hrows : ∀ row ∈ rows, row.length = n) (h : ∀ row ∈ rows, ∀ s, some s ∈ row → q s) :
    (∃ s ∈ unionOfTable outer n rows, p s) ↔ ∃ row ∈ rows, ∃ s, some s ∈ row ∧ p s := by
  have hentry : ∀ g ∈ groups outer n rows, ∀ s ∈ g.filterMap id, q s := by
    intro g hg s hs
    obtain ⟨o, ho, rfl⟩ := List.mem_filterMap.1 hs
    obtain ⟨row, hrow, hmem⟩ := (exists_mem_groups outer hrows).1 ⟨g, hg, ho⟩
    exact h row hrow s hmem
  have hgroups : ∀ s ∈ (groups outer n rows).flatMap (fun g => canonical (g.filterMap id)),
      q s := by
    intro s hs
    obtain ⟨g, hg, hs⟩ := List.mem_flatMap.1 hs
    exact hkeep _ (hentry g hg) s hs
  rw [unionOfTable_eq, hcanonical _ hgroups]
  constructor
  · rintro ⟨s, hs, hv⟩
    obtain ⟨g, hg, hs⟩ := List.mem_flatMap.1 hs
    obtain ⟨t, ht, hv⟩ := (hcanonical _ (hentry g hg)).1 ⟨s, hs, hv⟩
    obtain ⟨o, ho, rfl⟩ := List.mem_filterMap.1 ht
    obtain ⟨row, hrow, hmem⟩ := (exists_mem_groups outer hrows).1 ⟨g, hg, ho⟩
    exact ⟨row, hrow, t, hmem, hv⟩
  · rintro ⟨row, hrow, s, hs, hv⟩
    obtain ⟨g, hg, hmem⟩ := (exists_mem_groups outer hrows).2 ⟨row, hrow, hs⟩
    obtain ⟨t, ht, hv⟩ := (hcanonical _ (hentry g hg)).2
      ⟨s, List.mem_filterMap.2 ⟨_, hmem, rfl⟩, hv⟩
    exact ⟨t, List.mem_flatMap.2 ⟨g, hg, ht⟩, hv⟩

theorem meetTable_eq (lead : Side) (ys : List Shape) : ∀ xs : List Shape,
    meetTable lead xs ys = xs.map fun x => ys.map (meet lead x)
  | [] => by rw [meetTable, List.map_nil]
  | x :: xs => by rw [meetTable, meetTable_eq lead ys xs, List.map_cons]

theorem length_of_mem_meetTable {lead : Side} {xs ys : List Shape} :
    ∀ row ∈ meetTable lead xs ys, row.length = ys.length := by
  rw [meetTable_eq]
  intro row hrow
  obtain ⟨x, -, rfl⟩ := List.mem_map.1 hrow
  exact List.length_map _

end Shape

/-! ## What meets keep -/

/-- Hereditary properties that meets keep. Canonical forms have them if their shapes do. A record
has them for its fields, none of which a meet leaves empty, and perhaps for its names, which a meet
takes over. -/
structure Ty.KeptByMeets (P : Ty → Prop) (Q : Shape → Prop) : Prop extends Ty.Hereditary P Q where
  canonical : ∀ {items : List Shape}, (∀ s ∈ items, Q s) → P (.oneOf (Shape.canonical items))
  text : ∀ t : TextSet, Q (.text t)
  record : ∀ {name : String} {xs fields : List (String × Ty)}, Q (.record name xs) →
    (∀ f ∈ fields, (∃ g ∈ xs, g.1 = f.1) ∧ f.2.isNever = false ∧ P f.2) → Q (.record name fields)

namespace Ty.KeptByMeets

variable {P : Ty → Prop} {Q : Shape → Prop}

/-- The canonical union of a table has the property if all entries have it. -/
theorem unionOfTable (h : KeptByMeets P Q) {outer : Side} {n : ℕ}
    {rows : List (List (Option Shape))} (hrows : ∀ row ∈ rows, row.length = n)
    (hentries : ∀ row ∈ rows, ∀ s, some s ∈ row → Q s) :
    P (.oneOf (Shape.unionOfTable outer n rows)) := by
  rw [Shape.unionOfTable_eq]
  refine h.canonical fun s hs => ?_
  obtain ⟨g, hg, hs⟩ := List.mem_flatMap.1 hs
  refine h.shapes (h.canonical fun t ht => ?_) s hs
  obtain ⟨o, ho, rfl⟩ := List.mem_filterMap.1 ht
  obtain ⟨row, hrow, hmem⟩ := (Shape.exists_mem_groups outer hrows).1 ⟨g, hg, ho⟩
  exact hentries row hrow t hmem

mutual

theorem meet (h : KeptByMeets P Q) : ∀ (lead : Side) (a b : Ty), P a → P b → P (a.meet lead b)
  | _, .any, b, _, hb => by simpa only [Ty.meet] using hb
  | _, .oneOf xs, .any, ha, _ => by simpa only [Ty.meet] using ha
  | lead, .oneOf xs, .oneOf ys, ha, hb => by
    rw [Ty.meet]
    exact h.unionOfTable Shape.length_of_mem_meetTable
      (meetTable h _ xs ys (h.shapes ha) (h.shapes hb))

theorem meetShapes (h : KeptByMeets P Q) : ∀ (lead : Side) (a b : Shape), Q a → Q b →
    ∀ s ∈ Shape.meet lead a b, Q s
  | lead, .number m, .number n, ha, hb, s, hs => by
    simp only [Shape.meet] at hs
    obtain ⟨k, hk, rfl⟩ := Option.map_eq_some_iff.1 hs
    exact h.number ha hb hk
  | _, .text _, .text _, _, _, s, hs => by
    simp only [Shape.meet] at hs
    obtain ⟨k, -, rfl⟩ := Option.map_eq_some_iff.1 hs
    exact h.text k
  | lead, .record m xs, .record n ys, ha, hb, s, hs => by
    simp only [Shape.meet] at hs
    split at hs
    · obtain ⟨fields, hfields, rfl⟩ := Option.map_eq_some_iff.1 hs
      exact h.record ha (meetFields h lead xs ys (h.fields ha) (h.fields hb) fields hfields)
    · cases hs
  | _, .number _, .text _, _, _, _, hs => by simp [Shape.meet] at hs
  | _, .number _, .record .., _, _, _, hs => by simp [Shape.meet] at hs
  | _, .text _, .number _, _, _, _, hs => by simp [Shape.meet] at hs
  | _, .text _, .record .., _, _, _, hs => by simp [Shape.meet] at hs
  | _, .record .., .number _, _, _, _, hs => by simp [Shape.meet] at hs
  | _, .record .., .text _, _, _, _, hs => by simp [Shape.meet] at hs

theorem meetTable (h : KeptByMeets P Q) : ∀ (lead : Side) (xs ys : List Shape),
    (∀ x ∈ xs, Q x) → (∀ y ∈ ys, Q y) →
      ∀ row ∈ Shape.meetTable lead xs ys, ∀ s, some s ∈ row → Q s
  | _, [], _, _, _, _, hrow, _, _ => by simp [Shape.meetTable] at hrow
  | lead, x :: xs, ys, hxs, hys, row, hrow, s, hs => by
    obtain ⟨hx, hxs⟩ := List.forall_mem_cons.1 hxs
    rw [Shape.meetTable] at hrow
    rcases List.mem_cons.1 hrow with rfl | hrow
    · obtain ⟨y, hy, he⟩ := List.mem_map.1 hs
      exact meetShapes h lead x y hx (hys y hy) s he
    · exact meetTable h lead xs ys hxs hys row hrow s hs

theorem meetFields (h : KeptByMeets P Q) : ∀ (lead : Side) (xs ys : List (String × Ty)),
    (∀ f ∈ xs, P f.2) → (∀ f ∈ ys, P f.2) → ∀ fields ∈ Ty.meetFields lead xs ys,
      ∀ f ∈ fields, (∃ g ∈ xs, g.1 = f.1) ∧ f.2.isNever = false ∧ P f.2
  | _, [], [], _, _, fields, hfields => by
    simp only [Ty.meetFields, Option.mem_some_iff] at hfields
    simp [← hfields]
  | _, [], _ :: _, _, _, _, hfields => by simp [Ty.meetFields] at hfields
  | _, _ :: _, [], _, _, _, hfields => by simp [Ty.meetFields] at hfields
  | lead, (m, x) :: xs, (n, y) :: ys, hxs, hys, fields, hfields => by
    obtain ⟨hx, hxs⟩ := List.forall_mem_cons.1 hxs
    obtain ⟨hy, hys⟩ := List.forall_mem_cons.1 hys
    simp only [Ty.meetFields] at hfields
    split at hfields
    · next hmeet =>
      simp only [Bool.and_eq_true, Bool.not_eq_true'] at hmeet
      obtain ⟨rest, hrest, rfl⟩ := Option.map_eq_some_iff.1 hfields
      refine List.forall_mem_cons.2
        ⟨⟨⟨_, List.mem_cons_self, rfl⟩, hmeet.2, meet h lead x y hx hy⟩, fun f hf => ?_⟩
      obtain ⟨⟨g, hg, hname⟩, hrest⟩ := meetFields h lead xs ys hxs hys rest hrest f hf
      exact ⟨⟨g, List.mem_cons_of_mem _ hg, hname⟩, hrest⟩
    · cases hfields

end

end Ty.KeptByMeets

theorem Ty.keptByMeets_wellFormed :
    Ty.KeptByMeets (fun t => t.wellFormed = true) (fun s => s.wellFormed = true) where
  toHereditary := hereditary_wellFormed
  canonical hitems := Ty.wellFormed_oneOf.2 fun _ hs => Shape.wellFormed_of_mem_canonical hitems hs
  text _ := by simp only [Shape.wellFormed]
  record h hfields := by
    obtain ⟨hname, hxs⟩ := Shape.wellFormed_record.1 h
    refine Shape.wellFormed_record.2 ⟨hname, Ty.fieldsWellFormed_iff.2 fun f hf => ?_⟩
    obtain ⟨⟨g, hg, hfield⟩, -, ht⟩ := hfields f hf
    exact ⟨hfield ▸ (Ty.fieldsWellFormed_iff.1 hxs g hg).1, ht⟩

theorem Ty.wellFormed_meet (lead : Side) (a b : Ty) (ha : a.wellFormed = true)
    (hb : b.wellFormed = true) : (a.meet lead b).wellFormed = true :=
  keptByMeets_wellFormed.meet lead a b ha hb

/-- Meets bring in no empty fields. -/
theorem Ty.keptByMeets_noNeverField :
    Ty.KeptByMeets (fun t => t.noNeverField = true) (fun s => s.noNeverField = true) where
  shapes := Ty.noNeverField_oneOf.1
  canonical hitems :=
    Ty.noNeverField_oneOf.2 fun _ hs => Shape.noNeverField_of_mem_canonical hitems hs
  number _ _ _ := by simp only [Shape.noNeverField]
  text _ := by simp only [Shape.noNeverField]
  fields h f hf := by
    rw [Shape.noNeverField] at h
    exact (Ty.fieldsNoNever_iff.1 h f hf).2
  record _ hfields := by
    rw [Shape.noNeverField]
    exact Ty.fieldsNoNever_iff.2 fun f hf => (hfields f hf).2

theorem Ty.noNeverField_meet (lead : Side) (a b : Ty) (ha : a.noNeverField = true)
    (hb : b.noNeverField = true) : (a.meet lead b).noNeverField = true :=
  keptByMeets_noNeverField.meet lead a b ha hb

/-! ## Meets admit the common samples -/

theorem TextSet.has_meet (a b : TextSet) (s : String) :
    (∃ t ∈ a.meet b, t.has s = true) ↔ a.has s = true ∧ b.has s = true := by
  cases a with
  | all => simp [TextSet.meet, TextSet.has]
  | literal t =>
    cases b with
    | all => simp [TextSet.meet, TextSet.has]
    | literal u =>
      simp only [TextSet.meet, TextSet.has, decide_eq_true_eq]
      split
      · next h =>
        subst h
        simp
      · next h =>
        simp only [Option.not_mem_none, false_and, exists_false, false_iff, not_and]
        rintro rfl rfl
        exact h rfl

theorem Ty.not_admits_of_isNever {t : Ty} (h : t.isNever = true) (v : Sample) : ¬t.Admits v := by
  cases t with
  | any => cases h
  | oneOf ss =>
    cases ss with
    | nil => simp [Ty.admits_oneOf]
    | cons s ss => cases h

theorem exists_mem_map {α β : Type} {f : α → β} {o : Option α} {p : β → Prop} :
    (∃ b ∈ o.map f, p b) ↔ ∃ a ∈ o, p (f a) := by
  cases o <;> simp

namespace Ty.ExactFor

variable {K : Option ExtendedRat → Prop} {P : Ty → Prop} {Q : Shape → Prop}

mutual

/-- A meet admits the samples of both types. -/
theorem admits_meet (h : ExactFor K P Q) (hk : KeptByMeets P Q) : ∀ (lead : Side) (a b : Ty),
    P a → P b → ∀ v : Sample, v.Within K → ((a.meet lead b).Admits v ↔ a.Admits v ∧ b.Admits v)
  | _, .any, b, _, _, v, _ => by simp only [Ty.meet, Ty.admits_any, true_and]
  | _, .oneOf xs, .any, _, _, v, _ => by simp only [Ty.meet, Ty.admits_any, and_true]
  | lead, .oneOf xs, .oneOf ys, ha, hb, v, hv => by
    have hxs := h.shapes ha
    have hys := h.shapes hb
    rw [Ty.meet, Ty.admits_oneOf, Shape.exists_mem_unionOfTable
      (fun _ hitems => hk.shapes (hk.canonical hitems))
      (fun _ hitems => h.admits_canonical hitems hv) Shape.length_of_mem_meetTable
      (hk.meetTable _ xs ys hxs hys), @Ty.admits_oneOf ys, Ty.Admits]
    exact exists_admits_meetTable h hk _ xs ys hxs hys v hv

theorem shape_admits_meet (h : ExactFor K P Q) (hk : KeptByMeets P Q) :
    ∀ (lead : Side) (a b : Shape), Q a → Q b → ∀ v : Sample, v.Within K →
      ((∃ s ∈ Shape.meet lead a b, s.Admits v) ↔ a.Admits v ∧ b.Admits v)
  | lead, .number m, .number n, ha, hb, v, _ => by
    rw [Shape.meet, exists_mem_map]
    cases v with
    | number p =>
      simpa only [Shape.Admits] using
        NumberSet.denotes_meet lead (h.wellFormed_number ha) (h.wellFormed_number hb) p
    | _ => simp [Shape.Admits]
  | _, .text t, .text u, _, _, v, _ => by
    rw [Shape.meet, exists_mem_map]
    cases v with
    | text s => simpa only [Shape.Admits] using TextSet.has_meet t u s
    | _ => simp [Shape.Admits]
  | lead, .record m xs, .record n ys, ha, hb, v, hv => by
    have hfields := fieldsAdmit_meetFields h hk lead xs ys (h.fields ha) (h.fields hb)
    rw [Shape.meet]
    split
    · next heq =>
      subst heq
      rw [exists_mem_map]
      cases hv with
      | @record name samples hv =>
        simp only [Shape.Admits]
        rw [and_and_and_comm, and_self, ← hfields samples hv]
        constructor
        · rintro ⟨fields, h, rfl, hv⟩
          exact ⟨rfl, fields, h, hv⟩
        · rintro ⟨rfl, fields, h, hv⟩
          exact ⟨fields, h, rfl, hv⟩
      | _ => simp [Shape.Admits]
    · next hne =>
      simp only [Option.not_mem_none, false_and, exists_false, false_iff, not_and]
      intro hm hn
      obtain ⟨samples, rfl, -⟩ := Shape.admits_record.1 hm
      obtain ⟨samples', he, -⟩ := Shape.admits_record.1 hn
      exact hne (Sample.record.inj he).1
  | _, .number _, .text _, _, _, v, _ => by cases v <;> simp [Shape.meet, Shape.Admits]
  | _, .number _, .record .., _, _, v, _ => by cases v <;> simp [Shape.meet, Shape.Admits]
  | _, .text _, .number _, _, _, v, _ => by cases v <;> simp [Shape.meet, Shape.Admits]
  | _, .text _, .record .., _, _, v, _ => by cases v <;> simp [Shape.meet, Shape.Admits]
  | _, .record .., .number _, _, _, v, _ => by cases v <;> simp [Shape.meet, Shape.Admits]
  | _, .record .., .text _, _, _, v, _ => by cases v <;> simp [Shape.meet, Shape.Admits]

theorem exists_admits_meetTable (h : ExactFor K P Q) (hk : KeptByMeets P Q) :
    ∀ (lead : Side) (xs ys : List Shape), (∀ x ∈ xs, Q x) → (∀ y ∈ ys, Q y) →
      ∀ v : Sample, v.Within K →
        ((∃ row ∈ Shape.meetTable lead xs ys, ∃ s, some s ∈ row ∧ s.Admits v) ↔
          Shape.AnyAdmits xs v ∧ ∃ y ∈ ys, y.Admits v)
  | _, [], _, _, _, v, _ => by simp [Shape.meetTable, Shape.AnyAdmits]
  | lead, x :: xs, ys, hxs, hys, v, hv => by
    obtain ⟨hx, hxs⟩ := List.forall_mem_cons.1 hxs
    have hrow : (∃ s, some s ∈ ys.map (Shape.meet lead x) ∧ s.Admits v) ↔
        x.Admits v ∧ ∃ y ∈ ys, y.Admits v := by
      constructor
      · rintro ⟨s, hs, hsv⟩
        obtain ⟨y, hy, he⟩ := List.mem_map.1 hs
        obtain ⟨hxv, hyv⟩ := (shape_admits_meet h hk lead x y hx (hys y hy) v hv).1 ⟨s, he, hsv⟩
        exact ⟨hxv, y, hy, hyv⟩
      · rintro ⟨hxv, y, hy, hyv⟩
        obtain ⟨s, he, hsv⟩ := (shape_admits_meet h hk lead x y hx (hys y hy) v hv).2 ⟨hxv, hyv⟩
        exact ⟨s, List.mem_map.2 ⟨y, hy, he⟩, hsv⟩
    rw [Shape.meetTable, List.exists_mem_cons_iff, hrow,
      exists_admits_meetTable h hk lead xs ys hxs hys v hv, Shape.AnyAdmits, or_and_right]

theorem fieldsAdmit_meetFields (h : ExactFor K P Q) (hk : KeptByMeets P Q) :
    ∀ (lead : Side) (xs ys : List (String × Ty)), (∀ f ∈ xs, P f.2) → (∀ f ∈ ys, P f.2) →
      ∀ samples : List (String × List Sample), (∀ f ∈ samples, ∀ v ∈ f.2, v.Within K) →
        ((∃ fields ∈ Ty.meetFields lead xs ys, Ty.FieldsAdmit fields samples) ↔
          Ty.FieldsAdmit xs samples ∧ Ty.FieldsAdmit ys samples)
  | _, [], [], _, _, samples, _ => by simp [Ty.meetFields]
  | _, [], (_, _) :: _, _, _, samples, _ => by
    cases samples <;> simp [Ty.meetFields, Ty.FieldsAdmit]
  | _, (_, _) :: _, [], _, _, samples, _ => by
    cases samples <;> simp [Ty.meetFields, Ty.FieldsAdmit]
  | _, (_, _) :: _, (_, _) :: _, _, _, [], _ => by
    rw [Ty.meetFields]
    split <;> simp [Ty.FieldsAdmit]
  | lead, (m, x) :: xs, (n, y) :: ys, hxs, hys, (l, vs) :: rest, hv => by
    obtain ⟨hx, hxs⟩ := List.forall_mem_cons.1 hxs
    obtain ⟨hy, hys⟩ := List.forall_mem_cons.1 hys
    obtain ⟨hvs, hv⟩ := List.forall_mem_cons.1 hv
    have hmeet := fun v hv => admits_meet h hk lead x y hx hy v (hvs v hv)
    have hrest := fieldsAdmit_meetFields h hk lead xs ys hxs hys rest hv
    rw [Ty.meetFields]
    split
    · next heq =>
      simp only [Bool.and_eq_true, decide_eq_true_eq] at heq
      obtain ⟨rfl, -⟩ := heq
      simp only [exists_mem_map, Ty.FieldsAdmit]
      constructor
      · rintro ⟨fields, hf, hl, hne, hall, hr⟩
        obtain ⟨hrx, hry⟩ := hrest.1 ⟨fields, hf, hr⟩
        exact ⟨⟨hl, hne, fun v hv => ((hmeet v hv).1 (hall v hv)).1, hrx⟩,
          hl, hne, fun v hv => ((hmeet v hv).1 (hall v hv)).2, hry⟩
      · rintro ⟨⟨hl, hne, hvx, hrx⟩, -, -, hvy, hry⟩
        obtain ⟨fields, hf, hr⟩ := hrest.2 ⟨hrx, hry⟩
        exact ⟨fields, hf, hl, hne, fun v hv => (hmeet v hv).2 ⟨hvx v hv, hvy v hv⟩, hr⟩
    · next hnever =>
      simp only [Option.not_mem_none, false_and, exists_false, false_iff, not_and, Ty.FieldsAdmit]
      rintro ⟨rfl, hne, hvx, -⟩ rfl - hvy -
      -- A sample of both fields would be one of their meet, which is `never`.
      obtain ⟨v, hv⟩ := List.exists_mem_of_ne_nil vs hne
      simp only [decide_true, Bool.true_and, Bool.not_eq_true', Bool.not_eq_false] at hnever
      exact Ty.not_admits_of_isNever hnever v ((hmeet v hv).2 ⟨hvx v hv, hvy v hv⟩)

end

end Ty.ExactFor

/-! ## Values -/

theorem Ty.has_of_isNever {t : Ty} (h : t.isNever = true) (v : Value) : t.has v = false := by
  cases t with
  | any => cases h
  | oneOf ss =>
    cases ss with
    | nil => exact Ty.has_never v
    | cons s ss => cases h

/-- The values of both types. -/
theorem Ty.has_meet (lead : Side) (a b : Ty) (ha : a.wellFormed = true) (hb : b.wellFormed = true)
    (v : Value) : (a.meet lead b).has v = true ↔ a.has v = true ∧ b.has v = true := by
  rw [← admits_sample a ha, ← admits_sample b hb,
    ← admits_sample _ (wellFormed_meet lead a b ha hb)]
  exact exactFor_wellFormed.admits_meet keptByMeets_wellFormed lead a b ha hb _ v.within_sample

namespace Ty

/-- Types without empty fields are disjoint exactly if they have no common value : their meet
has none, and is `never` then. -/
theorem isDisjoint_iff {a b : Ty} (ha : a.wellFormed = true) (hb : b.wellFormed = true)
    (hfa : a.noNeverField = true) (hfb : b.noNeverField = true) :
    a.isDisjoint b = true ↔ ∀ v : Value, ¬(a.has v = true ∧ b.has v = true) := by
  have hmeet : ∀ v : Value, (a.intersect b).has v = true ↔ a.has v = true ∧ b.has v = true :=
    has_meet .left a b ha hb
  constructor
  · intro h v hv
    have hnone := has_of_isNever h v
    rw [(hmeet v).2 hv] at hnone
    cases hnone
  · intro h
    by_contra hne
    obtain ⟨v, hv⟩ := exists_has (a.intersect b) (wellFormed_meet .left a b ha hb)
      (noNeverField_meet .left a b hfa hfb) (Bool.eq_false_iff.2 hne)
    exact h v ((hmeet v).1 hv)

/-- Intersection has the common values of two types. So two types without empty fields are
disjoint exactly if they have no common value, since every such type has one or is `never`. -/
theorem intersection_exact {a b : Ty} (ha : a.wellFormed = true) (hb : b.wellFormed = true) :
    (∀ v : Value, (a.intersect b).has v = true ↔ a.has v = true ∧ b.has v = true) ∧
      (a.noNeverField = true → b.noNeverField = true →
        (a.isDisjoint b = true ↔ ∀ v : Value, ¬(a.has v = true ∧ b.has v = true))) ∧
      (a.noNeverField = true → a.isNever = false → ∃ v : Value, a.has v = true) := by
  exact ⟨has_meet .left a b ha hb, isDisjoint_iff ha hb, exists_has a ha⟩

/-- Points with a coordinate between zero and one, and points with an integer coordinate. -/
theorem intersection_exact_points :
    let a := ofShape (.record "point" [("x", ofNumbers [.interval .zero .one])])
    let b := ofShape (.record "point" [("x", int)])
    (∀ v : Value, (a.intersect b).has v = true ↔ a.has v = true ∧ b.has v = true) ∧
      (a.isDisjoint b = true ↔ ∀ v : Value, ¬(a.has v = true ∧ b.has v = true)) ∧
      ∃ v : Value, a.has v = true := by
  intro a b
  have ha : a.wellFormed = true := by decide +kernel
  have hb : b.wellFormed = true := by decide +kernel
  obtain ⟨hmeet, hdisjoint, hvalue⟩ := intersection_exact ha hb
  exact ⟨hmeet, hdisjoint (by decide +kernel) (by decide +kernel),
    hvalue (by decide +kernel) (by decide +kernel)⟩

end Ty

end FlowTypes
