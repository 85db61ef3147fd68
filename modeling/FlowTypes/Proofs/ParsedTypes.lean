import FlowTypes.Proofs.NormalTypes
import FlowTypes.Proofs.WrittenExpressions
import FlowTypes.Syntax.Definitions

/-!
# Types that are read

An expression, a definition and a registry are normal if the types that stand in them are, and,
for a registry, if its functions take normal types to a normal type. The types that
the parser makes are built from any bounds and texts, and never an interval or a union by hand, so
every expression that is read is normal (`Expr.normal_of_parse`), and a registry stays normal when
definitions are read into it (`Registry.Normal.parse`), also up to an error.
-/

namespace FlowTypes

/-! ## Expressions -/

mutual

/-- Are the types that stand in the expression normal? -/
def Expr.Normal : Expr → Prop
  | .type t => t.Normal
  | .named _ => True
  | .instantiate _ fields => Expr.FieldsNormal fields
  | .union items => Expr.AllNormal items
  | .intersection items => Expr.AllNormal items
  | .call _ args => Expr.AllNormal args
  | .select scrutinee arms => scrutinee.Normal ∧ Expr.ArmsNormal arms
  | .access record _ => record.Normal

/-- Are the types that stand in the arm normal? -/
def Arm.Normal : Arm → Prop
  | .mk pattern _ result => pattern.Normal ∧ result.Normal

/-- Are the types that stand in the expressions normal? -/
def Expr.AllNormal : List Expr → Prop
  | [] => True
  | e :: es => e.Normal ∧ Expr.AllNormal es

/-- Are the types that stand in the fields normal? -/
def Expr.FieldsNormal : List (String × Expr) → Prop
  | [] => True
  | (_, e) :: fields => e.Normal ∧ Expr.FieldsNormal fields

/-- Are the types that stand in the arms normal? -/
def Expr.ArmsNormal : List Arm → Prop
  | [] => True
  | arm :: arms => arm.Normal ∧ Expr.ArmsNormal arms

end

namespace Expr

theorem allNormal_iff {es : List Expr} : AllNormal es ↔ ∀ e ∈ es, e.Normal := by
  induction es with
  | nil => simp [AllNormal]
  | cons e es ih => rw [AllNormal, ih, List.forall_mem_cons]

theorem fieldsNormal_iff {fields : List (String × Expr)} :
    FieldsNormal fields ↔ ∀ f ∈ fields, f.2.Normal := by
  induction fields with
  | nil => simp [FieldsNormal]
  | cons f fields ih => rw [FieldsNormal, ih, List.forall_mem_cons]

theorem armsNormal_iff {arms : List Arm} : ArmsNormal arms ↔ ∀ arm ∈ arms, arm.Normal := by
  induction arms with
  | nil => simp [ArmsNormal]
  | cons arm arms ih => rw [ArmsNormal, ih, List.forall_mem_cons]

theorem normal_type {t : Ty} : (type t).Normal ↔ t.Normal :=
  Iff.rfl

theorem normal_named (name : String) : (named name).Normal :=
  trivial

theorem normal_instantiate {name : String} {fields : List (String × Expr)} :
    (instantiate name fields).Normal ↔ ∀ f ∈ fields, f.2.Normal :=
  fieldsNormal_iff

theorem normal_union {items : List Expr} : (union items).Normal ↔ ∀ e ∈ items, e.Normal :=
  allNormal_iff

theorem normal_intersection {items : List Expr} :
    (intersection items).Normal ↔ ∀ e ∈ items, e.Normal :=
  allNormal_iff

theorem normal_call {function : String} {args : List Expr} :
    (call function args).Normal ↔ ∀ e ∈ args, e.Normal :=
  allNormal_iff

theorem normal_select {scrutinee : Expr} {arms : List Arm} :
    (select scrutinee arms).Normal ↔ scrutinee.Normal ∧ ∀ arm ∈ arms, arm.Normal :=
  and_congr_right' armsNormal_iff

theorem normal_access {record : Expr} {field : String} :
    (access record field).Normal ↔ record.Normal :=
  Iff.rfl

end Expr

theorem Arm.normal_mk {pattern result : Expr} {binding : Option String} :
    (mk pattern binding result).Normal ↔ pattern.Normal ∧ result.Normal :=
  Iff.rfl

/-! ## Types that are read -/

/-- What the constructors and `union` build is normal. -/
theorem Ty.Built.normal {t : Ty} (h : t.Built) : t.Normal := by
  induction h with
  | never => exact normal_never
  | any => exact normal_any
  | number => exact normal_number
  | string => exact normal_string
  | int => exact normal_int
  | literal v => exact normal_literal v
  | textLiteral s => exact normal_textLiteral s
  | interval lo hi => exact normal_interval lo hi
  | integers lo hi => exact normal_integers lo hi
  | record _ _ _ _ _ ih => exact normal_record ih
  | union _ _ ih => exact normal_union ih

/-- Expressions that are written as the parser makes them are normal. -/
theorem Expr.Written.normal {P : String → Prop} {e : Expr} (h : e.Written P) : e.Normal := by
  induction h with
  | type ht => exact normal_type.2 ht.normal
  | named => exact normal_named _
  | instantiate _ _ _ ih => exact normal_instantiate.2 ih
  | union _ _ ih => exact normal_union.2 ih
  | intersection _ _ ih => exact normal_intersection.2 ih
  | call _ _ ih => exact normal_call.2 ih
  | select _ _ _ _ hscrutinee hpatterns hresults =>
    refine normal_select.2 ⟨hscrutinee, ?_⟩
    rintro ⟨pattern, binding, result⟩ harm
    exact Arm.normal_mk.2 ⟨hpatterns _ harm, hresults _ harm⟩
  | access _ _ ih => exact normal_access.2 ih

/-- Every expression that is read is normal. -/
theorem Expr.normal_of_parse {source : String} {e : Expr} (h : Expr.parse source = .ok e) :
    e.Normal :=
  (written_of_parse h).normal

/-! ## Definitions that are read -/

/-- Are the types that stand in the definition normal? -/
def Syntax.Definition.Normal : Syntax.Definition → Prop
  | .ofStruct _ _ fields => ∀ f ∈ fields, f.2.Normal
  | .ofAlias _ _ value => value.Normal

namespace Syntax

open FlowTypes.Parser (Takes takes_accept takes_expect takes_name)

/-- Whatever the names are, what is read of tokens is normal. -/
theorem normal_expression {depth : ℕ} {braces : Braces} {ws : List Token.Spelling} {e : Expr}
    (h : Grammar.Expression depth braces ws e) : e.Normal :=
  (Grammar.sound_expression (P := fun _ => True) depth braces ws e (fun _ _ _ => trivial) h).normal

theorem normal_structBody : Takes (fun _ d => d.Normal) structBody := by
  refine takes_name.bind fun _ _ _ => (takes_accept _).bind fun _ isEmpty _ => ?_
  split
  · exact Takes.pure (List.forall_mem_nil _)
  · refine (takes_fields (takes_expression _ _)).bind fun _ _ hfields => Takes.pure ?_
    cases hfields with
    | intro cs ds hfields =>
      refine hfields.forall_mem fun _ f _ hf => ?_
      cases hf with
      | intro _ _ he => exact normal_expression he

theorem normal_aliasBody : Takes (fun _ d => d.Normal) aliasBody :=
  takes_name.bind fun _ _ _ => (takes_expect _).bind fun _ _ _ =>
    (takes_expression _ _).bind fun _ _ hvalue => (takes_expect _).bind fun _ _ _ =>
      Takes.pure (normal_expression hvalue)

theorem normal_of_announced {kind : Token.Kind} {definition : Parser Definition}
    (h : announced? kind = some definition) : Takes (fun _ d => d.Normal) definition := by
  unfold announced? at h
  split at h <;> cases h
  · exact normal_structBody
  · exact normal_aliasBody

end Syntax

/-! ## Registries -/

/-- Does the function take normal types to a normal type? -/
def Function.Normal (f : Function) : Prop :=
  ∀ args : List Ty, (∀ t ∈ args, t.Normal) → (f.apply args).Normal

theorem Function.normal_builtins : ∀ f ∈ Function.builtins, f.Normal :=
  fun _ hf _ hargs => Ty.normal_builtins hf hargs

/-- Are the types that stand in the definitions normal, and the results of functions? -/
structure Registry.Normal (r : Registry) : Prop where
  aliases : ∀ a ∈ r.aliases, a.2.Normal
  structs : ∀ s ∈ r.structs, ∀ f ∈ s.fields, f.2.Normal
  functions : ∀ f ∈ r.functions, f.Normal

namespace Registry

variable {r r' : Registry}

theorem normal_empty : empty.Normal :=
  ⟨List.forall_mem_nil _, List.forall_mem_nil _, List.forall_mem_nil _⟩

theorem normal_withBuiltins : withBuiltins.Normal where
  aliases := List.forall_mem_nil _
  structs := List.forall_mem_singleton.2 (List.forall_mem_nil _)
  functions := Function.normal_builtins

theorem Normal.addAlias {name : String} {value : Expr} (hr : r.Normal) (hvalue : value.Normal)
    (h : r.addAlias name value = .ok r') : r'.Normal := by
  unfold Registry.addAlias at h
  split at h <;> cases h
  exact ⟨List.forall_mem_append.2 ⟨hr.aliases, List.forall_mem_singleton.2 hvalue⟩, hr.structs,
    hr.functions⟩

theorem Normal.addStruct {name : String} {fields : List (String × Expr)} (hr : r.Normal)
    (hfields : ∀ f ∈ fields, f.2.Normal) (h : r.addStruct name fields = .ok r') : r'.Normal := by
  unfold Registry.addStruct at h
  split at h
  · cases h
  · split at h <;> cases h
    exact ⟨hr.aliases, List.forall_mem_append.2 ⟨hr.structs, List.forall_mem_singleton.2 hfields⟩,
      hr.functions⟩

theorem eq_ok_of_mapError {ε ε' α : Type} {f : ε → ε'} {result : Except ε α} {a : α}
    (h : result.mapError f = .ok a) : result = .ok a := by
  cases result with
  | error e => cases h
  | ok b => exact congrArg _ (Except.ok.inj h)

theorem Normal.add {d : Syntax.Definition} (hr : r.Normal) (hd : d.Normal)
    (h : r.add d = .ok r') : r'.Normal := by
  cases d with
  | ofStruct name span fields => exact hr.addStruct hd (eq_ok_of_mapError h)
  | ofAlias name span value => exact hr.addAlias hd (eq_ok_of_mapError h)

theorem Normal.addTokens {n : ℕ} {ts : List Token} (hr : r.Normal) :
    (r.addTokens n ts).1.Normal := by
  fun_induction Registry.addTokens n r ts with
  | case1 | case2 | case3 | case4 => exact hr
  | case5 r t rest definition hannounced d rest' hrest hread r' hadd _ ih =>
    obtain ⟨-, -, hd⟩ := Syntax.normal_of_announced hannounced _ _ _ _ hread
    exact ih (hr.add hd hadd)

/-- A registry stays normal when definitions are read into it. -/
theorem Normal.parse (hr : r.Normal) (source : String) : (r.parse source).1.Normal :=
  hr.addTokens

/-- Is the registry filled by reading definitions? -/
inductive Read : Registry → Prop
  | empty : Read empty
  | withBuiltins : Read withBuiltins
  | parse {r : Registry} (hr : Read r) (source : String) : Read (r.parse source).1

theorem Read.normal (hr : r.Read) : r.Normal := by
  induction hr with
  | empty => exact normal_empty
  | withBuiltins => exact normal_withBuiltins
  | parse _ source ih => exact ih.parse source

end Registry

end FlowTypes
