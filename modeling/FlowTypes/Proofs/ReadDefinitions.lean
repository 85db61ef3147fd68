import FlowTypes.Proofs.EvaluatedTypes

/-!
# Registries that are read

A type is proper if its sets of numbers and its names are well-formed and no record in it has an
empty field. The types that the parser makes are proper, and evaluation keeps types proper
(`Ty.lasting_proper`). The names of structs and fields that are read are identifiers
(`Syntax.written_definition`). So in a registry that is filled by reading definitions all types are
proper (`Registry.Read.holds_proper`), and with them all types that it evaluates.

No addition to a registry repeats a name : a name is either that of one alias or that of one struct,
and a struct has no two fields of one name (`Registry.Read.distinct`).
-/

namespace FlowTypes

/-! ## Proper types -/

namespace Ty

/-- Are sets of numbers and names well-formed, and is no field of a record empty? -/
structure Proper (t : Ty) : Prop where
  wellFormed : t.wellFormed = true
  noNeverField : t.noNeverField = true

theorem Regular.proper {p : NumberSet → Bool} {t : Ty} (h : t.Regular p) : t.Proper :=
  ⟨h.wellFormed, h.noNeverField⟩

theorem Built.proper {t : Ty} (h : t.Built) : t.Proper :=
  h.regular.proper

theorem proper_oneOf {ss : List Shape} :
    (oneOf ss).Proper ↔ ∀ s ∈ ss, s.wellFormed = true ∧ s.noNeverField = true := by
  constructor
  · rintro ⟨hwf, hnever⟩ s hs
    exact ⟨wellFormed_oneOf.1 hwf s hs, noNeverField_oneOf.1 hnever s hs⟩
  · intro h
    exact ⟨wellFormed_oneOf.2 fun s hs => (h s hs).1, noNeverField_oneOf.2 fun s hs => (h s hs).2⟩

theorem Proper.of_mem_shapes {t : Ty} (ht : t.Proper) {s : Shape} (hs : s ∈ t.shapes) :
    s.wellFormed = true ∧ s.noNeverField = true := by
  cases t with
  | any => cases hs
  | oneOf ss => exact proper_oneOf.1 ht s hs

theorem proper_union {ts : List Ty} (hts : ∀ t ∈ ts, t.Proper) : (union ts).Proper := by
  have hshapes : ∀ s ∈ ts.flatMap shapes, s.wellFormed = true ∧ s.noNeverField = true := by
    intro s hs
    obtain ⟨t, ht, hs⟩ := List.mem_flatMap.1 hs
    exact (hts t ht).of_mem_shapes hs
  unfold union
  split
  · exact Built.any.proper
  · exact proper_oneOf.2 fun s hs =>
      ⟨Shape.wellFormed_of_mem_canonical (fun s hs => (hshapes s hs).1) hs,
        Shape.noNeverField_of_mem_canonical (fun s hs => (hshapes s hs).2) hs⟩

theorem proper_intersect {a b : Ty} (ha : a.Proper) (hb : b.Proper) : (a.intersect b).Proper :=
  ⟨wellFormed_meet .left a b ha.wellFormed hb.wellFormed,
    noNeverField_meet .left a b ha.noNeverField hb.noNeverField⟩

/-- Well-formed fields, none of them empty. -/
theorem fieldsProper_iff {fields : List (String × Ty)} :
    fieldsWellFormed fields = true ∧ fieldsNoNever fields = true ↔
      ∀ f ∈ fields, isIdentifier f.1 = true ∧ f.2.isNever = false ∧ f.2.Proper := by
  rw [fieldsWellFormed_iff, fieldsNoNever_iff]
  constructor
  · rintro ⟨hwf, hnever⟩ f hf
    exact ⟨(hwf f hf).1, (hnever f hf).1, (hwf f hf).2, (hnever f hf).2⟩
  · intro h
    exact ⟨fun f hf => ⟨(h f hf).1, (h f hf).2.2.wellFormed⟩,
      fun f hf => ⟨(h f hf).2.1, (h f hf).2.2.noNeverField⟩⟩

theorem proper_ofShape_record {name : String} {fields : List (String × Ty)} :
    (ofShape (.record name fields)).Proper ↔ isIdentifier name = true ∧
      ∀ f ∈ fields, isIdentifier f.1 = true ∧ f.2.isNever = false ∧ f.2.Proper := by
  rw [ofShape, proper_oneOf, List.forall_mem_singleton, Shape.wellFormed_record, ← fieldsProper_iff,
    and_assoc]
  simp only [Shape.noNeverField]

/-- Evaluation keeps types proper, if structs and their fields are named by identifiers. -/
theorem lasting_proper : Lasting (isIdentifier · = true) Proper where
  primitive h := (regular_primitive h).proper
  union := proper_union
  intersect := proper_intersect
  ofShape ht hs := proper_oneOf.2 (List.forall_mem_singleton.2 (ht.of_mem_shapes hs))
  fields ht f hf :=
    have ⟨hname, _, hf⟩ := (proper_ofShape_record.1 ht).2 f hf
    ⟨hname, hf⟩
  record {name fields} hname hfields := by
    unfold Ty.record
    split
    · exact Built.never.proper
    · next hany =>
      simp only [List.any_eq_true, not_exists, not_and, Bool.not_eq_true] at hany
      exact proper_ofShape_record.2
        ⟨hname, fun f hf => ⟨(hfields f hf).1, hany f hf, (hfields f hf).2⟩⟩

theorem Proper.allWellFormed_numbers {t : Ty} (ht : t.Proper) :
    NumberSet.AllWellFormed t.numbers := by
  cases t with
  | any => exact NumberSet.allWellFormed_cons.2 ⟨rfl, NumberSet.allWellFormed_nil⟩
  | oneOf ss =>
    intro n hn
    simpa only [Shape.wellFormed] using (ht.of_mem_shapes (mem_filterMap_number?.1 hn)).1

end Ty

/-! ## Expressions and definitions -/

/-- In an expression that is read stand types that the parser builds. -/
theorem Expr.Written.holds {Q : String → Prop} {P : Ty → Prop} (hP : ∀ t : Ty, t.Built → P t)
    {e : Expr} (h : e.Written Q) : e.Holds P := by
  induction h with
  | type ht => rw [Holds]; exact hP _ ht
  | named => rw [Holds]; trivial
  | instantiate _ _ _ ih => rw [Holds]; exact fieldsHold_iff.2 ih
  | union _ _ ih => rw [Holds]; exact allHold_iff.2 ih
  | intersection _ _ ih => rw [Holds]; exact allHold_iff.2 ih
  | call _ _ ih => rw [Holds]; exact allHold_iff.2 ih
  | select _ _ _ _ hscrutinee hpatterns hresults =>
    rw [Holds]
    refine ⟨hscrutinee, armsHold_iff.2 ?_⟩
    rintro ⟨pattern, binding, result⟩ harm
    rw [Arm.Holds]
    exact ⟨hpatterns _ harm, hresults _ harm⟩
  | access _ _ ih => rw [Holds]; exact ih

namespace Syntax

open FlowTypes.Parser (Takes takes_accept takes_expect takes_name)

variable {Q : String → Prop}

/-- Are the expressions of the definition written, and is it named, with names that satisfy `Q`? -/
def Definition.Written (Q : String → Prop) : Definition → Prop
  | .ofStruct name _ fields => Q name ∧ ∀ f ∈ fields, Q f.1 ∧ f.2.Written Q
  | .ofAlias name _ value => Q name ∧ value.Written Q

theorem written_structBody :
    Takes (fun ws d => Grammar.Named Q ws → d.Written Q) structBody := by
  refine takes_name.bind fun us _ hname => (takes_accept _).bind fun _ isEmpty _ => ?_
  split
  · exact Takes.pure fun hws =>
      ⟨(Grammar.named_append.1 (by simpa using hws)).1.of_name hname, List.forall_mem_nil _⟩
  · refine (takes_fields (takes_expression _ _)).bind fun ws _ hfields =>
      Takes.pure fun hnamed => ?_
    rw [List.append_nil, Grammar.named_append, Grammar.named_append] at hnamed
    obtain ⟨vs, hvs, hfields⟩ := hnamed.2.2.enclosed hfields
    refine ⟨hnamed.1.of_name hname, hfields.forall_mem fun xs f hxs hf => ?_⟩
    exact Grammar.written_of_field (fun _ => Grammar.sound_expression _ _) .openFields
      (hvs.mono hxs) hf

theorem written_aliasBody :
    Takes (fun ws d => Grammar.Named Q ws → d.Written Q) aliasBody :=
  takes_name.bind fun _ _ hname => (takes_expect _).bind fun _ _ _ =>
    (takes_expression _ _).bind fun _ _ hvalue => (takes_expect _).bind fun _ _ _ =>
      Takes.pure fun hnamed => by
        simp only [List.append_nil, Grammar.named_append] at hnamed
        exact ⟨hnamed.1.of_name hname, Grammar.sound_expression _ _ _ _ hnamed.2.2.1 hvalue⟩

/-- A definition is written with the names that are among its tokens. -/
theorem written_definition {kind : Token.Kind} {definition : Parser Definition}
    (h : announced? kind = some definition) :
    Takes (fun ws d => Grammar.Named Q ws → d.Written Q) definition := by
  unfold announced? at h
  split at h <;> cases h
  · exact written_structBody
  · exact written_aliasBody

end Syntax

/-! ## Registries -/

namespace Registry

variable {r r' : Registry} {P : Ty → Prop}

/-- What adding a written definition keeps, adding the definitions of some tokens keeps. -/
theorem addTokens_keeps {I : Registry → Prop} {Q : String → Prop}
    (hadd : ∀ {r r' d}, I r → Syntax.Definition.Written Q d → r.add d = .ok r' → I r') {n : ℕ}
    {ts : List Token} (hts : Grammar.Named Q (ts.map Token.spelling)) (hr : I r) :
    I (r.addTokens n ts).1 := by
  fun_induction Registry.addTokens n r ts with
  | case1 | case2 | case3 | case4 => exact hr
  | case5 r t rest definition hannounced d rest' hrest hread r' hr' _ ih =>
    obtain ⟨ws, hws, hd⟩ := Syntax.written_definition hannounced _ _ _ _ hread
    have hrest := hts.tail
    rw [hws, Grammar.named_append] at hrest
    exact ih hrest.2 (hadd hr (hd hrest.1) hr')

/-- What holds at first, and is kept when definitions are added, holds of registries that are
read. -/
theorem Read.invariant {I : Registry → Prop} (hempty : I Registry.empty)
    (hbuiltins : I Registry.withBuiltins)
    (hadd : ∀ {r r' d}, I r → Syntax.Definition.Written (isIdentifier · = true) d →
      r.add d = .ok r' → I r') (hr : r.Read) : I r := by
  induction hr with
  | empty => exact hempty
  | withBuiltins => exact hbuiltins
  | parse _ source ih =>
    exact addTokens_keeps hadd (fun _ => Token.isIdentifier_of_mem_spellings) ih

theorem addAlias_eq_ok {name : String} {value : Expr} (h : r.addAlias name value = .ok r') :
    name ∉ r.typeNames ∧ r' = { r with aliases := r.aliases ++ [(name, value)] } := by
  unfold addAlias at h
  split at h <;> cases h
  next hname => exact ⟨hname, rfl⟩

theorem addStruct_eq_ok {name : String} {fields : List (String × Expr)}
    (h : r.addStruct name fields = .ok r') : name ∉ r.typeNames ∧ (fields.map (·.1)).Nodup ∧
      r' = { r with structs := r.structs ++ [⟨name, fields⟩] } := by
  unfold addStruct at h
  split at h
  · cases h
  · next hname =>
    split at h <;> cases h
    next hfields => exact ⟨hname, (firstRepeated?_eq_none_iff.1 hfields).1, rfl⟩

/-! ### Proper types -/

theorem holds_empty {named : String → Prop} : empty.Holds named P :=
  ⟨List.forall_mem_nil _, List.forall_mem_nil _, List.forall_mem_nil _⟩

theorem holds_proper_withBuiltins : withBuiltins.Holds (isIdentifier · = true) Ty.Proper where
  aliases := List.forall_mem_nil _
  structs := List.forall_mem_singleton.2 ⟨by decide +kernel, List.forall_mem_nil _⟩
  functions _ hf _ hargs :=
    (Ty.flat_builtins hf fun t ht => (hargs t ht).allWellFormed_numbers).regular.proper

theorem Holds.add {named : String → Prop} (hP : ∀ t : Ty, t.Built → P t) {d : Syntax.Definition}
    (hr : r.Holds named P) (hd : d.Written named) (h : r.add d = .ok r') : r'.Holds named P := by
  cases d with
  | ofStruct name span fields =>
    obtain ⟨-, -, rfl⟩ := addStruct_eq_ok (eq_ok_of_mapError h)
    refine ⟨hr.aliases, List.forall_mem_append.2 ⟨hr.structs, ?_⟩, hr.functions⟩
    exact List.forall_mem_singleton.2
      ⟨hd.1, fun f hf => ⟨(hd.2 f hf).1, (hd.2 f hf).2.holds hP⟩⟩
  | ofAlias name span value =>
    obtain ⟨-, rfl⟩ := addAlias_eq_ok (eq_ok_of_mapError h)
    exact ⟨List.forall_mem_append.2 ⟨hr.aliases, List.forall_mem_singleton.2 (hd.2.holds hP)⟩,
      hr.structs, hr.functions⟩

/-- The types in a registry that is read are proper, and so are the results of its functions. -/
theorem Read.holds_proper (hr : r.Read) : r.Holds (isIdentifier · = true) Ty.Proper :=
  hr.invariant holds_empty holds_proper_withBuiltins (Holds.add fun _ => Ty.Built.proper)

/-! ### Distinct names -/

/-- Is no name that of two definitions, and has no struct two fields of one name? -/
structure Distinct (r : Registry) : Prop where
  names : r.typeNames.Nodup
  fields : ∀ s ∈ r.structs, (s.fields.map (·.1)).Nodup

theorem Distinct.add {d : Syntax.Definition} (hr : r.Distinct) (h : r.add d = .ok r') :
    r'.Distinct := by
  cases d with
  | ofStruct name span fields =>
    obtain ⟨hname, hfields, rfl⟩ := addStruct_eq_ok (eq_ok_of_mapError h)
    refine ⟨?_, List.forall_mem_append.2 ⟨hr.fields, List.forall_mem_singleton.2 hfields⟩⟩
    rw [typeNames, List.map_append, ← List.append_assoc]
    exact List.nodup_append_comm.1 (List.nodup_cons.2 ⟨hname, hr.names⟩)
  | ofAlias name span value =>
    obtain ⟨hname, rfl⟩ := addAlias_eq_ok (eq_ok_of_mapError h)
    refine ⟨?_, hr.fields⟩
    rw [typeNames, List.map_append, List.append_assoc]
    exact List.nodup_middle.2 (List.nodup_cons.2 ⟨hname, hr.names⟩)

theorem Read.distinct (hr : r.Read) : r.Distinct :=
  hr.invariant ⟨List.nodup_nil, List.forall_mem_nil _⟩
    ⟨List.nodup_singleton _, List.forall_mem_singleton.2 List.nodup_nil⟩ fun hr _ => hr.add

theorem struct?_eq_some {name : String} {s : Struct} (h : r.struct? name = some s) :
    s ∈ r.structs ∧ s.name = name :=
  ⟨List.mem_of_find?_eq_some h, by simpa using List.find?_some h⟩

/-- The definition of a struct's name is the struct. -/
theorem Distinct.body?_of_struct? (hr : r.Distinct) {name : String} {s : Struct}
    (h : r.struct? name = some s) : r.body? name = some (.ofStruct s) := by
  have hnone : r.alias? name = none := by
    obtain ⟨hs, rfl⟩ := struct?_eq_some h
    rw [alias?, Option.map_eq_none_iff, List.find?_eq_none]
    rintro ⟨other, value⟩ ha he
    exact (List.nodup_append.1 hr.names).2.2 other (List.mem_map.2 ⟨_, ha, rfl⟩) s.name
      (List.mem_map.2 ⟨s, hs, rfl⟩) (of_decide_eq_true he)
  rw [body?, hnone, h]
  rfl

end Registry

end FlowTypes
