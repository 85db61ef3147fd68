import FlowTypes.Proofs.IntersectionMembership
import FlowTypes.Proofs.ReadDefinitions
import FlowTypes.Proofs.Selection

/-!
# Instances and fields mean what they say

An instance of a struct has those values of the declared type in which every field that is given
has a value of its type. A field access has the values that the field has in the values of the
record. Both are shown for registries that are read (`Registry.Read`), with any bindings in scope
(`Expr.instances_and_accesses_exact`).

The value of a struct's name is a record with the declared field names, or `never`
(`Registry.cases_of_valueOf_struct`). An instance intersects the types of the fields that are given
with the declared ones (`Expr.narrowedField`), and intersections are exact
(`Expr.fieldsHave_narrowed`). An access is a union over the shapes of the record, where every value
of the field extends to a value of the record, since no other field is empty
(`Ty.exists_fieldsHave_lookup`).
-/

namespace FlowTypes

open Eval (Gives)

/-! ## Values of fields -/

/-- What stands first under a name. -/
def lookup {α : Type} (name : String) (fields : List (String × α)) : Option α :=
  (fields.find? fun f => f.1 = name).map (·.2)

/-- The value of a field, if this is a record with that field. -/
def Value.field? (field : String) : Value → Option Value
  | .record _ values => lookup field values
  | _ => none

/-- Is this a record with that field? -/
def Shape.HasField (field : String) (s : Shape) : Prop :=
  ∃ name fields t, s = .record name fields ∧ (field, t) ∈ fields

section Lookup

variable {α : Type} {name other : String} {a : α} {fields : List (String × α)}

theorem lookup_cons_self : lookup name ((name, a) :: fields) = some a := by
  simp [lookup]

theorem lookup_cons_of_ne (h : other ≠ name) :
    lookup name ((other, a) :: fields) = lookup name fields := by
  simp [lookup, h]

theorem mem_of_lookup (h : lookup name fields = some a) : (name, a) ∈ fields := by
  obtain ⟨f, hf, rfl⟩ := Option.map_eq_some_iff.1 h
  have hname : f.1 = name := by simpa using List.find?_some hf
  rw [← hname]
  exact List.mem_of_find?_eq_some hf

theorem lookup_eq_none_iff : lookup name fields = none ↔ ∀ a, (name, a) ∉ fields := by
  rw [lookup, Option.map_eq_none_iff, List.find?_eq_none]
  constructor
  · intro h a hmem
    exact h _ hmem (by simp)
  · rintro h ⟨other, a⟩ hmem he
    obtain rfl : other = name := by simpa using he
    exact h a hmem

/-- Under distinct names, every one is found. -/
theorem lookup_of_mem (hnodup : (fields.map (·.1)).Nodup) (h : (name, a) ∈ fields) :
    lookup name fields = some a := by
  induction fields with
  | nil => cases h
  | cons field fields ih =>
    obtain ⟨hfirst, hnodup⟩ := List.nodup_cons.1 hnodup
    rcases List.mem_cons.1 h with rfl | h
    · exact lookup_cons_self
    · have hne : field.1 ≠ name := fun he => hfirst (List.mem_map.2 ⟨_, h, he.symm⟩)
      exact (lookup_cons_of_ne hne).trans (ih hnodup h)

end Lookup

/-! ## Field accesses -/

namespace Ty

variable {x : Value} {field : String} {fields : List (String × Ty)}

/-- The values of a field in the values of a record are those of its type : the other fields have
values too. -/
theorem exists_fieldsHave_lookup : ∀ {fields : List (String × Ty)},
    (∀ f ∈ fields, isIdentifier f.1 = true ∧ f.2.isNever = false ∧ f.2.Proper) →
      ((∃ values, fieldsHave fields values = true ∧ lookup field values = some x) ↔
        ∃ t, lookup field fields = some t ∧ t.has x = true)
  | [], _ => by
    refine iff_of_false ?_ nofun
    rintro ⟨values, hvalues, hx⟩
    cases values with
    | nil => cases hx
    | cons => cases hvalues
  | (name, t) :: fields, hfields => by
    obtain ⟨⟨-, hne, ht⟩, hfields⟩ := List.forall_mem_cons.1 hfields
    have ih := @exists_fieldsHave_lookup fields hfields
    obtain ⟨hwf, hnever⟩ := fieldsProper_iff.2 hfields
    obtain ⟨v, hv⟩ := t.exists_has ht.wellFormed ht.noNeverField hne
    obtain ⟨rest, hrest⟩ := exists_fieldsHave fields hwf hnever
    simp only [fieldsHave_cons]
    by_cases hname : name = field
    · subst hname
      rw [lookup_cons_self]
      constructor
      · rintro ⟨_, ⟨y, rest, rfl, hy, -⟩, hx⟩
        rw [lookup_cons_self] at hx
        exact ⟨t, rfl, Option.some.inj hx ▸ hy⟩
      · rintro ⟨_, ⟨⟩, hx⟩
        exact ⟨_, ⟨x, rest, rfl, hx, hrest⟩, lookup_cons_self⟩
    · rw [lookup_cons_of_ne hname, ← ih]
      constructor
      · rintro ⟨_, ⟨y, rest, rfl, -, hrest⟩, hx⟩
        exact ⟨rest, hrest, (lookup_cons_of_ne hname).symm.trans hx⟩
      · rintro ⟨rest, hrest, hx⟩
        exact ⟨_, ⟨v, rest, rfl, hv, hrest⟩, (lookup_cons_of_ne hname).trans hx⟩

theorem fieldOf?_eq_none_iff {s : Shape} : fieldOf? field s = none ↔ ¬s.HasField field := by
  cases s with
  | record name fields =>
    have hlookup : fieldOf? field (.record name fields) = lookup field fields := rfl
    rw [hlookup, lookup_eq_none_iff]
    simp [Shape.HasField]
  | _ => simp [fieldOf?, Shape.HasField]

/-- The values of a field in the values of a shape are those of its type. -/
theorem exists_shape_has_field {s : Shape} (hs : s.wellFormed = true ∧ s.noNeverField = true) :
    (∃ v, s.has v = true ∧ v.field? field = some x) ↔
      ∃ t, fieldOf? field s = some t ∧ t.has x = true := by
  cases s with
  | record name fields =>
    rw [Shape.wellFormed_record, Shape.noNeverField] at hs
    rw [show fieldOf? field (.record name fields) = lookup field fields from rfl,
      ← exists_fieldsHave_lookup (fieldsProper_iff.1 ⟨hs.1.2, hs.2⟩)]
    constructor
    · rintro ⟨v, hv, hx⟩
      obtain ⟨values, rfl, hvalues⟩ := Shape.has_record.1 hv
      exact ⟨values, hvalues, hx⟩
    · rintro ⟨values, hvalues, hx⟩
      exact ⟨.record name values, Shape.has_record.2 ⟨values, rfl, hvalues⟩, hx⟩
  | number n =>
    constructor
    · rintro ⟨v, hv, hx⟩
      obtain ⟨y, rfl, -⟩ := Shape.has_number.1 hv
      cases hx
    · rintro ⟨t, ht, -⟩
      cases ht
  | text t =>
    constructor
    · rintro ⟨v, hv, hx⟩
      obtain ⟨y, rfl, -⟩ := Shape.has_text.1 hv
      cases hx
    · rintro ⟨t, ht, -⟩
      cases ht

/-- An access fails exactly on `any` and where a shape lacks the field. -/
theorem access_eq_error_iff {u : Ty} {e : EvalError} :
    u.access field = .error e ↔
      e = .noField u field ∧ (u = .any ∨ ∃ s ∈ u.shapes, ¬s.HasField field) := by
  cases u with
  | any => simp [access, eq_comm]
  | oneOf ss =>
    simp only [← fieldOf?_eq_none_iff, shapes, reduceCtorEq, false_or, ← mapM_eq_none_iff]
    rw [access]
    cases ss.mapM (fieldOf? field) with
    | none => simp [eq_comm]
    | some ts => simp

/-- An access has the values that the field has in the values of the record. -/
theorem has_access {u t : Ty} (hu : u.Proper) (h : u.access field = .ok t) (x : Value) :
    t.has x = true ↔ ∃ v, u.has v = true ∧ v.field? field = some x := by
  unfold access at h
  split at h
  · cases h
  · next ss =>
    split at h <;> cases h
    next ts hts =>
    have hmem := mem_of_mapM_eq_some hts
    have hwf : ∀ t ∈ ts, t.wellFormed = true := by
      intro t ht
      obtain ⟨s, hs, hfield⟩ := (hmem t).1 ht
      exact (lasting_proper.fieldOf hu hs hfield).wellFormed
    have hshapes : ∀ s ∈ ss, (∃ v, s.has v = true ∧ v.field? field = some x) ↔
        ∃ t, fieldOf? field s = some t ∧ t.has x = true :=
      fun s hs => exists_shape_has_field (hu.of_mem_shapes hs)
    rw [has_union hwf]
    simp only [has_oneOf]
    constructor
    · rintro ⟨t, ht, hx⟩
      obtain ⟨s, hs, hfield⟩ := (hmem t).1 ht
      obtain ⟨v, hv, hfield⟩ := (hshapes s hs).2 ⟨t, hfield, hx⟩
      exact ⟨v, ⟨s, hs, hv⟩, hfield⟩
    · rintro ⟨v, ⟨s, hs, hv⟩, hfield⟩
      obtain ⟨t, hfield, hx⟩ := (hshapes s hs).1 ⟨v, hv, hfield⟩
      exact ⟨t, (hmem t).2 ⟨s, hs, hfield⟩, hx⟩

end Ty

/-! ## Instances -/

section Instances

variable {r : Registry} {b : Bindings}

/-- The fields that are given are declared, and each is given once. -/
theorem Meaning.exists_gives_checkGiven (s : Struct) : ∀ seen names : List String,
    ∃ answer, Gives (checkGiven s seen names) answer ∧ (answer = .ok () →
      names.Nodup ∧ ∀ name ∈ names, name ∈ s.fields.map (·.1) ∧ name ∉ seen)
  | _, [] => ⟨.ok (), .done (), fun _ => ⟨List.nodup_nil, List.forall_mem_nil _⟩⟩
  | seen, name :: names => by
    rw [checkGiven]
    split
    · exact ⟨_, .fail _, nofun⟩
    · next hdeclared =>
      split
      · exact ⟨_, .fail _, nofun⟩
      · next hseen =>
        obtain ⟨answer, hgives, hnames⟩ := exists_gives_checkGiven s (name :: seen) names
        refine ⟨answer, hgives, fun hanswer => ?_⟩
        obtain ⟨hnodup, hnames⟩ := hnames hanswer
        have hfirst : name ∉ names := fun hmem => (hnames name hmem).2 List.mem_cons_self
        exact ⟨List.nodup_cons.2 ⟨hfirst, hnodup⟩, List.forall_mem_cons.2
          ⟨⟨not_not.1 hdeclared, hseen⟩, fun other hother =>
            ⟨(hnames other hother).1, fun h => (hnames other hother).2 (List.mem_cons_of_mem _ h)⟩⟩⟩

namespace Expr

variable {given : List (String × Expr)}

/-- The type of a declared field, narrowed if the field is given. -/
def narrowedType (r : Registry) (b : Bindings) (given : List (String × Expr))
    (declared : String × Ty) : Except EvalError Ty :=
  match lookup declared.1 given with
  | some e => (·.intersect declared.2) <$> e.evaluate r b
  | none => pure declared.2

/-- A declared field with its type narrowed. -/
def narrowedField (r : Registry) (b : Bindings) (given : List (String × Expr))
    (declared : String × Ty) : Except EvalError (String × Ty) :=
  (declared.1, ·) <$> narrowedType r b given declared

theorem gives_narrow : ∀ declared : List (String × Ty),
    Gives (Meaning.narrow (fieldMeanings r (r.resolve []) given) b declared)
      (declared.mapM (narrowedField r b given))
  | [] => .done []
  | (name, t) :: declared => by
    have hfind : (fieldMeanings r (r.resolve []) given).find? (fun g => g.1 = name)
        = (given.find? fun g => g.1 = name).map fun g => (g.1, g.2.meaning r (r.resolve [])) := by
      rw [fieldMeanings_eq_map, List.find?_map]
      rfl
    have hrest : ∀ t : Ty, Gives (do
        return (name, t) ::
          (← Meaning.narrow (fieldMeanings r (r.resolve []) given) b declared)) (do
        return (name, t) :: (← declared.mapM (narrowedField r b given))) :=
      fun t => (gives_narrow declared).bind fun rest => .done _
    rw [Meaning.narrow, hfind, List.mapM_cons, narrowedField, bind_map_left, narrowedType, lookup]
    cases given.find? fun g => decide (g.1 = name) with
    | none => exact (Gives.done t).bind hrest
    | some g => exact ((g.2.gives_evaluate r b).map _).bind hrest

/-- An instance has the declared fields with their types narrowed, or no value if the declared
struct has none. -/
theorem cases_of_evaluate_instantiate {name : String} {t : Ty}
    (h : (Expr.instantiate name given).evaluate r b = .ok t) :
    ∃ s declared, r.struct? name = some s ∧ r.valueOf [] name = .ok declared ∧
      ((given.map (·.1)).Nodup ∧ ∀ g ∈ given, g.1 ∈ s.fields.map (·.1)) ∧
      ((t = .never ∧ ∀ other fields, declared ≠ .ofShape (.record other fields)) ∨
        ∃ other fields narrowed, declared = .ofShape (.record other fields) ∧
          fields.mapM (narrowedField r b given) = .ok narrowed ∧ t = .record name narrowed) := by
  have hgives := (Expr.instantiate name given).gives_evaluate r b
  rw [h, meaning, Meaning.instantiate] at hgives
  cases hs : r.struct? name with
  | none =>
    rw [hs] at hgives
    dsimp only at hgives
    split at hgives <;> cases congrArg Prod.fst hgives
  | some s =>
    obtain ⟨-, rfl⟩ := Registry.struct?_eq_some hs
    have hgiven : (fieldMeanings r (r.resolve []) given).map (·.1) = given.map (·.1) := by
      rw [fieldMeanings_eq_map, List.map_map]
      rfl
    rw [hs, hgiven] at hgives
    obtain ⟨answer, hcheck, hnames⟩ := Meaning.exists_gives_checkGiven s [] (given.map (·.1))
    obtain ⟨_, hanswer, hgives⟩ := hcheck.ok_of_bind hgives
    obtain ⟨hnodup, hnames⟩ := hnames hanswer
    obtain ⟨declared, hvalue, hgives⟩ :=
      Gives.ok_of_bind (r.run_resolve_off [] s.name) hgives
    refine ⟨s, declared, rfl, hvalue,
      ⟨hnodup, fun g hg => (hnames g.1 (List.mem_map_of_mem hg)).1⟩, ?_⟩
    split at hgives
    · next other fields =>
      obtain ⟨narrowed, hnarrowed, hgives⟩ := (gives_narrow fields).ok_of_bind hgives
      cases congrArg Prod.fst hgives
      exact .inr ⟨other, fields, narrowed, rfl, hnarrowed, rfl⟩
    · next hne =>
      cases congrArg Prod.fst hgives
      exact .inl ⟨rfl, fun other fields he => hne other fields he⟩

/-! ### The values of instances -/

theorem narrowedField_eq_ok {declared narrowed : String × Ty}
    (h : narrowedField r b given declared = .ok narrowed) :
    narrowed.1 = declared.1 ∧ narrowedType r b given declared = .ok narrowed.2 := by
  rw [narrowedField] at h
  cases ht : narrowedType r b given declared with
  | error e => rw [ht] at h; cases h
  | ok t => rw [ht] at h; cases h; exact ⟨rfl, rfl⟩

/-- A field that is given is evaluated, and its values are those of both types. -/
theorem has_narrowedType {declared : String × Ty} {t : Ty}
    (hwf : declared.2.wellFormed = true ∧ ∀ e, lookup declared.1 given = some e →
      ∀ u, e.evaluate r b = .ok u → u.wellFormed = true)
    (h : narrowedType r b given declared = .ok t) :
    (∀ e, lookup declared.1 given = some e → ∃ u, e.evaluate r b = .ok u) ∧
      ∀ x, t.has x = true ↔ declared.2.has x = true ∧
        ∀ e, lookup declared.1 given = some e → ∀ u, e.evaluate r b = .ok u → u.has x = true := by
  rw [narrowedType] at h
  cases hlookup : lookup declared.1 given with
  | none =>
    rw [hlookup] at h
    cases h
    exact ⟨nofun, fun x => ⟨fun hx => ⟨hx, nofun⟩, And.left⟩⟩
  | some e =>
    rw [hlookup] at h
    cases he : e.evaluate r b with
    | error err =>
      simp only [he] at h
      cases h
    | ok u =>
      simp only [he] at h
      cases h
      refine ⟨fun e' he' => ⟨u, Option.some.inj he' ▸ he⟩, fun x => ?_⟩
      refine (Ty.has_meet .left u declared.2 (hwf.2 e hlookup u he) hwf.1 x).trans ?_
      rw [and_comm]
      refine and_congr_right fun _ => ⟨?_, fun hx => hx e rfl u he⟩
      rintro hx e' ⟨⟩ u' hu'
      rwa [← Except.ok.inj (he.symm.trans hu')]

/-- The values of the narrowed fields are those of the declared fields in which the values of each
given field are of its type. -/
theorem fieldsHave_narrowed {declared narrowed : List (String × Ty)}
    (hnodup : (declared.map (·.1)).Nodup)
    (hwf : ∀ d ∈ declared, d.2.wellFormed = true ∧ ∀ e, lookup d.1 given = some e →
      ∀ u, e.evaluate r b = .ok u → u.wellFormed = true)
    (h : List.Forall₂ (fun d n => narrowedField r b given d = .ok n) declared narrowed) :
    ∀ values, Ty.fieldsHave narrowed values = true ↔ Ty.fieldsHave declared values = true ∧
      ∀ d ∈ declared, ∀ e, lookup d.1 given = some e → ∀ u, e.evaluate r b = .ok u →
        ∃ x, lookup d.1 values = some x ∧ u.has x = true := by
  induction h with
  | nil => exact fun values => ⟨fun h => ⟨h, List.forall_mem_nil _⟩, And.left⟩
  | @cons d n declared narrowed hfirst _ ih =>
    obtain ⟨name, t⟩ := d
    obtain ⟨other, t'⟩ := n
    obtain ⟨hother, ht⟩ := narrowedField_eq_ok hfirst
    obtain rfl : other = name := hother
    obtain ⟨hname, hnodup⟩ := List.nodup_cons.1 hnodup
    obtain ⟨hd, hwf⟩ := List.forall_mem_cons.1 hwf
    have hhas := (has_narrowedType hd ht).2
    have hrest : ∀ {x : Value} {rest : List (String × Value)}, ∀ d ∈ declared,
        lookup d.1 ((other, x) :: rest) = lookup d.1 rest := fun d hmem =>
      lookup_cons_of_ne fun he => hname (List.mem_map.2 ⟨d, hmem, he.symm⟩)
    intro values
    rw [Ty.fieldsHave_cons, Ty.fieldsHave_cons, List.forall_mem_cons]
    constructor
    · rintro ⟨x, rest, rfl, hx, hvalues⟩
      obtain ⟨hx, hgiven⟩ := (hhas x).1 hx
      obtain ⟨hvalues, hgivens⟩ := (ih hnodup hwf rest).1 hvalues
      refine ⟨⟨x, rest, rfl, hx, hvalues⟩,
        fun e he u hu => ⟨x, lookup_cons_self, hgiven e he u hu⟩, fun d hmem => ?_⟩
      rw [hrest d hmem]
      exact hgivens d hmem
    · rintro ⟨⟨x, rest, rfl, hx, hvalues⟩, hgiven, hgivens⟩
      refine ⟨x, rest, rfl, (hhas x).2 ⟨hx, fun e he u hu => ?_⟩,
        (ih hnodup hwf rest).2 ⟨hvalues, fun d hmem => ?_⟩⟩
      · obtain ⟨y, hy, hux⟩ := hgiven e he u hu
        rw [lookup_cons_self] at hy
        rwa [Option.some.inj hy]
      · rw [← hrest d hmem]
        exact hgivens d hmem

end Expr

/-! ### The values of structs -/

/-- A field of a record that has a value has one itself. -/
theorem Ty.exists_has_of_fieldsHave : ∀ {fields : List (String × Ty)}
    {values : List (String × Value)}, fieldsHave fields values = true →
      ∀ f ∈ fields, ∃ x, f.2.has x = true
  | [], _, _ => List.forall_mem_nil _
  | (_, _) :: _, _, h => by
    obtain ⟨x, rest, -, hx, hrest⟩ := fieldsHave_cons.1 h
    exact List.forall_mem_cons.2 ⟨⟨x, hx⟩, exists_has_of_fieldsHave hrest⟩

theorem Ty.has_ofShape {s : Shape} {v : Value} : (ofShape s).has v = true ↔ s.has v = true := by
  rw [ofShape, has_oneOf]
  simp only [List.mem_singleton, exists_eq_left]

/-- An empty field leaves no value. -/
theorem Ty.has_record {name : String} {fields : List (String × Ty)} {v : Value} :
    (record name fields).has v = true ↔
      ∃ values, v = .record name values ∧ fieldsHave fields values = true := by
  unfold record
  split
  · next hany =>
    obtain ⟨f, hf, hnever⟩ := List.any_eq_true.1 hany
    rw [has_never]
    refine iff_of_false nofun ?_
    rintro ⟨values, -, hvalues⟩
    obtain ⟨x, hx⟩ := exists_has_of_fieldsHave hvalues f hf
    rw [has_of_isNever hnever] at hx
    cases hx
  · rw [has_ofShape, Shape.has_record]

namespace Registry

/-- As many results as there are items. -/
theorem keeps_length_mapM {α β : Type} (f : α → Eval β) : ∀ items : List α,
    Eval.Keeps (fun _ => True) (fun results => results.length = items.length) (items.mapM f)
  | [] => .pure rfl
  | a :: items => by
    rw [List.mapM_cons]
    have ha : Eval.Keeps (fun _ => True) (fun _ => True) (f a) :=
      fun _ _ => ⟨fun _ _ => trivial, fun _ _ => trivial⟩
    exact ha.bind fun _ _ => (keeps_length_mapM f items).bind fun _ hrest =>
      .pure (congrArg (· + 1) hrest)

/-- The value of a struct is a record with the declared field names, or `never`. -/
theorem cases_of_valueOf_struct {name : String} {s : Struct} {t : Ty}
    (hs : r.body? name = some (.ofStruct s)) (ht : r.valueOf [] name = .ok t) :
    t = .never ∨ ∃ fields, t = .ofShape (.record s.name fields) ∧
      fields.map (·.1) = s.fields.map (·.1) := by
  obtain ⟨-, d, hd, heval⟩ := exists_body_of_valueOf ht
  obtain rfl := Option.some.inj (hs.symm.trans hd)
  have hrun : (Body.value r (r.resolve [name]) (.ofStruct s)).run .off = (.ok t, .off) := by
    rw [Body.value_eq_run, run_query_off, heval]
  have hkeeps : Eval.Keeps (fun _ => True) (fun t => t = .never ∨ ∃ fields,
      t = .ofShape (.record s.name fields) ∧ fields.map (·.1) = s.fields.map (·.1))
      (Body.value r (r.resolve [name]) (.ofStruct s)) := by
    refine (keeps_length_mapM _ _).bind fun types htypes => .pure ?_
    rw [Expr.meanings_eq_map, List.length_map, List.length_map] at htypes
    unfold Ty.record
    split
    · exact .inl rfl
    · refine .inr ⟨_, rfl, List.map_fst_zip ?_⟩
      rw [htypes, List.length_map]
  exact (hkeeps .off Memo.holds_off).1 t (congrArg Prod.fst hrun)

theorem evaluate_named {name : String} (hname : name ∈ r.typeNames) (hb : b.find? name = none) :
    (Expr.named name).evaluate r b = r.valueOf [] name := by
  rw [Expr.evaluate, Expr.meaning, Meaning.named, hb]
  dsimp only
  rw [if_pos hname, valueOf]

end Registry

end Instances

/-! ## Evaluated instances and accesses -/

namespace Expr

variable {r : Registry} {b : Bindings}

theorem evaluate_access (e : Expr) (field : String) :
    (Expr.access e field).evaluate r b = e.evaluate r b >>= fun u => u.access field := by
  have hlift : ∀ answer : Except EvalError Ty, Gives (meaning.liftExcept answer) answer
    | .ok _ => rfl
    | .error _ => rfl
  have h : Gives ((Expr.access e field).meaning r (r.resolve []) b)
      (e.evaluate r b >>= fun u => u.access field) := by
    rw [meaning]
    exact (e.gives_evaluate r b).bind fun u => hlift _
  exact congrArg Prod.fst h

/-- The names that are given are those of declared fields. -/
theorem exists_field_of_given {fields : List (String × Ty)} {given : List (String × Expr)}
    (hnodup : (given.map (·.1)).Nodup) (hnames : ∀ f ∈ given, f.1 ∈ fields.map (·.1)) :
    ∀ f ∈ given, ∃ d ∈ fields, d.1 = f.1 ∧ lookup d.1 given = some f.2 := by
  intro f hf
  obtain ⟨d, hd, hname⟩ := List.mem_map.1 (hnames f hf)
  exact ⟨d, hd, hname, hname ▸ lookup_of_mem hnodup hf⟩

/-- A record of narrowed fields has those values of the declared record in which the values of the
given fields are of their types. -/
theorem has_record_narrowed {name : String} {fields narrowed : List (String × Ty)}
    {given : List (String × Expr)} (hnodup : (fields.map (·.1)).Nodup)
    (hgiven : ∀ f ∈ given, ∃ d ∈ fields, d.1 = f.1 ∧ lookup d.1 given = some f.2)
    (hwf : ∀ d ∈ fields, d.2.wellFormed = true ∧ ∀ e, lookup d.1 given = some e →
      ∀ u, e.evaluate r b = .ok u → u.wellFormed = true)
    (hnarrowed : fields.mapM (narrowedField r b given) = .ok narrowed) (v : Value) :
    (Ty.record name narrowed).has v = true ↔
      (Ty.ofShape (.record name fields)).has v = true ∧ ∀ f ∈ given, ∀ u,
        f.2.evaluate r b = .ok u → ∃ x, v.field? f.1 = some x ∧ u.has x = true := by
  have hvalues := fieldsHave_narrowed hnodup hwf (mapM_eq_ok_iff.1 hnarrowed)
  rw [Ty.has_record, Ty.has_ofShape, Shape.has_record]
  constructor
  · rintro ⟨values, rfl, h⟩
    obtain ⟨h, hlookups⟩ := (hvalues values).1 h
    refine ⟨⟨values, rfl, h⟩, fun f hf u hu => ?_⟩
    obtain ⟨d, hd, hname, hlookup⟩ := hgiven f hf
    exact hname ▸ hlookups d hd f.2 hlookup u hu
  · rintro ⟨⟨values, rfl, h⟩, hfields⟩
    exact ⟨values, rfl, (hvalues values).2 ⟨h, fun d _ e he u hu =>
      hfields (d.1, e) (mem_of_lookup he) u hu⟩⟩

/-- The value of a struct's name, where nothing else is bound to it, and how the values of an
instance are among its values. -/
theorem exists_declared_of_instantiate (hr : r.Read) (hb : b.Hold Ty.Proper) {name : String}
    {given : List (String × Expr)} {t : Ty} (hgiven : FieldsHold Ty.Proper given)
    (h : (Expr.instantiate name given).evaluate r b = .ok t) :
    ∃ declared, (Expr.named name).evaluate r [] = .ok declared ∧
      (b.find? name = none → (Expr.named name).evaluate r b = .ok declared) ∧
      (declared ≠ .never → (∀ f ∈ given, ∃ u, f.2.evaluate r b = .ok u) ∧
        ∀ v, t.has v = true ↔ declared.has v = true ∧ ∀ f ∈ given, ∀ u,
          f.2.evaluate r b = .ok u → ∃ x, v.field? f.1 = some x ∧ u.has x = true) := by
  obtain ⟨s, declared, hs, hvalue, ⟨hnodup, hdeclared⟩, hcases⟩ := cases_of_evaluate_instantiate h
  obtain ⟨hmem, rfl⟩ := Registry.struct?_eq_some hs
  have hbody := hr.distinct.body?_of_struct? hs
  have htaken := Registry.mem_typeNames_of_body? hbody
  have hnamed : (Expr.named s.name).evaluate r [] = .ok declared := by
    rw [Registry.evaluate_named htaken rfl, hvalue]
  refine ⟨declared, hnamed, fun hfree => by rw [Registry.evaluate_named htaken hfree, hvalue],
    fun hne => ?_⟩
  obtain ⟨fields, rfl, hnames⟩ :=
    (Registry.cases_of_valueOf_struct hbody hvalue).resolve_left hne
  obtain ⟨-, hno⟩ | ⟨other, fields', narrowed, he, hnarrowed, rfl⟩ := hcases
  · exact absurd rfl (hno _ _)
  cases he
  have hproper : ∀ d ∈ fields, d.2.wellFormed = true := by
    have hdeclared : (Ty.ofShape (.record s.name fields)).Proper := holds_of_evaluate
      Ty.lasting_proper hr.holds_proper (by rw [Holds]; trivial) (List.forall_mem_nil _) hnamed
    exact fun d hd => ((Ty.proper_ofShape_record.1 hdeclared).2 d hd).2.2.wellFormed
  have hwf : ∀ d ∈ fields, d.2.wellFormed = true ∧ ∀ e, lookup d.1 given = some e →
      ∀ u, e.evaluate r b = .ok u → u.wellFormed = true :=
    fun d hd => ⟨hproper d hd, fun e he u hu => (holds_of_evaluate Ty.lasting_proper
      hr.holds_proper (fieldsHold_iff.1 hgiven _ (mem_of_lookup he)) hb hu).wellFormed⟩
  have hfield := exists_field_of_given hnodup (hnames ▸ hdeclared)
  refine ⟨fun f hf => ?_,
    has_record_narrowed (hnames ▸ hr.distinct.fields s hmem) hfield hwf hnarrowed⟩
  obtain ⟨d, hd, -, hlookup⟩ := hfield f hf
  obtain ⟨n, hn⟩ := (mem_of_mapM hnarrowed).1 d hd
  exact (has_narrowedType (hwf d hd) (narrowedField_eq_ok hn).2).1 _ hlookup

/-- In a registry that is read, an instance of a struct that is not empty has those values of the
struct in which the values of the given fields are of their types. An access has the values of the
field in the values of the record. It fails with the record, or of its own exactly if the record is
`any` or has a shape that is no record with the field. -/
theorem instances_and_accesses_exact (hr : r.Read) (hb : b.Hold Ty.Proper) :
    (∀ (name : String) (given : List (String × Expr)) (t : Ty), FieldsHold Ty.Proper given →
      (Expr.instantiate name given).evaluate r b = .ok t →
        ∃ declared, (Expr.named name).evaluate r [] = .ok declared ∧
          (b.find? name = none → (Expr.named name).evaluate r b = .ok declared) ∧
          (declared ≠ .never → (∀ f ∈ given, ∃ u, f.2.evaluate r b = .ok u) ∧
            ∀ v, t.has v = true ↔ declared.has v = true ∧ ∀ f ∈ given, ∀ u,
              f.2.evaluate r b = .ok u → ∃ x, v.field? f.1 = some x ∧ u.has x = true)) ∧
      ∀ (e : Expr) (field : String),
        (e.Holds Ty.Proper → ∀ t, (Expr.access e field).evaluate r b = .ok t →
          ∃ u, e.evaluate r b = .ok u ∧
            ∀ x, t.has x = true ↔ ∃ v, u.has v = true ∧ v.field? field = some x) ∧
        (∀ u, e.evaluate r b = .ok u → ∀ err, (Expr.access e field).evaluate r b = .error err ↔
          err = .noField u field ∧ (u = .any ∨ ∃ s ∈ u.shapes, ¬s.HasField field)) ∧
        ∀ err, e.evaluate r b = .error err → (Expr.access e field).evaluate r b = .error err := by
  refine ⟨fun name given t hgiven h => exists_declared_of_instantiate hr hb hgiven h,
    fun e field => ⟨fun he t ht => ?_, fun u hu err => ?_, fun err herr => ?_⟩⟩
  · rw [evaluate_access] at ht
    cases hu : e.evaluate r b with
    | error err =>
      rw [hu] at ht
      cases ht
    | ok u =>
      rw [hu] at ht
      have hproper := holds_of_evaluate Ty.lasting_proper hr.holds_proper he hb hu
      exact ⟨u, rfl, Ty.has_access hproper ht⟩
  · rw [evaluate_access, hu]
    exact Ty.access_eq_error_iff
  · rw [evaluate_access, herr]
    rfl

/-- Points one of whose coordinates is narrowed to what is bound to `p` itself. -/
theorem instances_and_accesses_exact_shadowed :
    let r := (Registry.withBuiltins.parse "struct p { x: int, y: number | string }").1
    let b : Bindings := [("p", .string)]
    let e : Expr := .instantiate "p" [("y", .named "p")]
    let declared := Ty.record "p" [("x", .int), ("y", .union [.number, .string])]
    let t := Ty.record "p" [("x", .int), ("y", .string)]
    (Expr.named "p").evaluate r [] = .ok declared ∧ e.evaluate r b = .ok t ∧
      (∀ v, t.has v = true ↔
        declared.has v = true ∧ ∃ x, v.field? "y" = some x ∧ Ty.string.has x = true) ∧
      (∀ x, Ty.int.has x = true ↔ ∃ v, t.has v = true ∧ v.field? "x" = some x) ∧
      (Expr.access e "z").evaluate r b = .error (.noField t "z") := by
  intro r b e declared t
  have hdeclared : (Expr.named "p").evaluate r [] = .ok declared := by decide +kernel
  have ht : e.evaluate r b = .ok t := by decide +kernel
  have hx : (Expr.access e "x").evaluate r b = .ok .int := by decide +kernel
  have hstring : Ty.string.Proper := Ty.Built.string.proper
  have hgiven : FieldsHold Ty.Proper [("y", .named "p")] :=
    fieldsHold_iff.2 (List.forall_mem_singleton.2 (by rw [Holds]; trivial))
  obtain ⟨hinstance, haccess⟩ := instances_and_accesses_exact (r := r) (b := b)
    (.parse .withBuiltins _) (List.forall_mem_singleton.2 hstring)
  refine ⟨hdeclared, ht, fun v => ?_, ?_, ?_⟩
  · obtain ⟨declared', hdeclared', -, hvalues⟩ := hinstance "p" _ t hgiven ht
    obtain rfl := Except.ok.inj (hdeclared.symm.trans hdeclared')
    rw [(hvalues (by decide +kernel)).2 v, List.forall_mem_singleton]
    have hp : (Expr.named "p").evaluate r b = .ok .string := rfl
    refine and_congr_right fun _ => ⟨fun h => h _ hp, fun h u hu => ?_⟩
    rwa [← Except.ok.inj (hp.symm.trans hu)]
  · obtain ⟨u, hu, hvalues⟩ := (haccess e "x").1 (by rw [Holds]; exact hgiven) _ hx
    obtain rfl := Except.ok.inj (ht.symm.trans hu)
    exact hvalues
  · refine ((haccess e "z").2.1 t ht _).2 ⟨rfl, .inr ⟨_, List.mem_cons_self, ?_⟩⟩
    rw [← Ty.fieldOf?_eq_none_iff]
    decide +kernel

end Expr

end FlowTypes
