import FlowTypes.Proofs.Remembering

/-!
# What evaluation keeps of types

Evaluation builds types in few ways only : it joins and intersects them, takes them apart into
shapes and fields, puts fields together to records, and calls functions. A property that lasts
through these (`Ty.Lasting`) holds of every type that is evaluated, if it holds of the types that
stand in the expression and in the registry and of those that are bound.

A meaning keeps a property if it takes bindings with it to a computation that gives a type with it,
when all that is remembered has it, and leaves what is remembered so, also where it fails
(`Eval.Keeps`). Every combinator of meanings does, so by induction on expressions every meaning
does (`Expr.keeps_meaning`), if the values of definitions do. That these do follows by induction on
the names that are not being computed (`Registry.keeps_resolve`) : a value that is remembered has
the property because it had it when it was stored.
-/

namespace FlowTypes

/-! ## Lists -/

section Lists

variable {α β : Type} {P : β → Prop} {f : α → Option β} {items : List α}

/-- What all items of a list satisfy, one that is found in it satisfies. -/
theorem of_map_find? {p : α → Bool} {f : α → β} {b : β} (hitems : ∀ a ∈ items, P (f a))
    (h : (items.find? p).map f = some b) : P b := by
  obtain ⟨a, ha, rfl⟩ := Option.map_eq_some_iff.1 h
  exact hitems a (List.mem_of_find?_eq_some ha)

theorem mapM_cons_eq_some_iff {a : α} {bs : List β} : (a :: items).mapM f = some bs ↔
    ∃ b rest, f a = some b ∧ items.mapM f = some rest ∧ bs = b :: rest := by
  simp only [List.mapM_cons, Option.pure_def, Option.bind_eq_bind, Option.bind_eq_some_iff,
    Option.some.injEq, eq_comm (a := bs), exists_and_left]

/-- If all items have images, these are the images. -/
theorem mem_of_mapM_eq_some {bs : List β} (h : items.mapM f = some bs) (b : β) :
    b ∈ bs ↔ ∃ a ∈ items, f a = some b := by
  induction items generalizing bs with
  | nil =>
    cases h
    simp
  | cons a items ih =>
    obtain ⟨b', rest, hfirst, hrest, rfl⟩ := mapM_cons_eq_some_iff.1 h
    simp only [List.mem_cons, exists_eq_or_imp, ih hrest, hfirst, Option.some.injEq,
      eq_comm (a := b)]

theorem mapM_eq_none_iff : items.mapM f = none ↔ ∃ a ∈ items, f a = none := by
  induction items with
  | nil => simp
  | cons a items ih =>
    simp only [List.mem_cons, exists_eq_or_imp, ← ih, List.mapM_cons]
    cases hfirst : f a with
    | none => simp
    | some b => cases items.mapM f <;> simp

/-- If every item has an image, all images satisfy what each does. -/
theorem forall_mem_of_mapM {bs : List β} (hitems : ∀ a ∈ items, ∀ b, f a = some b → P b)
    (h : items.mapM f = some bs) : ∀ b ∈ bs, P b := by
  intro b hb
  obtain ⟨a, ha, hfirst⟩ := (mem_of_mapM_eq_some h b).1 hb
  exact hitems a ha b hfirst

end Lists

/-! ## Properties that last -/

/-- Is the property handed on by all that evaluation does to types but for calls of functions, when
the names of records and of their fields satisfy `named`? -/
structure Ty.Lasting (named : String → Prop) (P : Ty → Prop) : Prop where
  primitive : ∀ {name t}, primitive? name = some t → P t
  union : ∀ {ts : List Ty}, (∀ t ∈ ts, P t) → P (union ts)
  intersect : ∀ {a b : Ty}, P a → P b → P (a.intersect b)
  ofShape : ∀ {t : Ty} {s : Shape}, P t → s ∈ t.shapes → P (ofShape s)
  fields : ∀ {name : String} {fields : List (String × Ty)}, P (.ofShape (.record name fields)) →
    ∀ f ∈ fields, named f.1 ∧ P f.2
  record : ∀ {name : String} {fields : List (String × Ty)}, named name →
    (∀ f ∈ fields, named f.1 ∧ P f.2) → P (record name fields)

mutual

/-- Do the types that stand in the expression have the property? -/
def Expr.Holds (P : Ty → Prop) : Expr → Prop
  | .type t => P t
  | .named _ => True
  | .instantiate _ fields => Expr.FieldsHold P fields
  | .union items => Expr.AllHold P items
  | .intersection items => Expr.AllHold P items
  | .call _ args => Expr.AllHold P args
  | .select scrutinee arms => scrutinee.Holds P ∧ Expr.ArmsHold P arms
  | .access record _ => record.Holds P

/-- Do the types that stand in the arm have the property? -/
def Arm.Holds (P : Ty → Prop) : Arm → Prop
  | .mk pattern _ result => pattern.Holds P ∧ result.Holds P

/-- Do the types that stand in the expressions have the property? -/
def Expr.AllHold (P : Ty → Prop) : List Expr → Prop
  | [] => True
  | e :: es => e.Holds P ∧ Expr.AllHold P es

/-- Do the types that stand in the fields have the property? -/
def Expr.FieldsHold (P : Ty → Prop) : List (String × Expr) → Prop
  | [] => True
  | (_, e) :: fields => e.Holds P ∧ Expr.FieldsHold P fields

/-- Do the types that stand in the arms have the property? -/
def Expr.ArmsHold (P : Ty → Prop) : List Arm → Prop
  | [] => True
  | arm :: arms => arm.Holds P ∧ Expr.ArmsHold P arms

end

theorem Expr.allHold_iff {P : Ty → Prop} {es : List Expr} :
    Expr.AllHold P es ↔ ∀ e ∈ es, e.Holds P := by
  induction es with
  | nil => simp [Expr.AllHold]
  | cons e es ih => rw [Expr.AllHold, ih, List.forall_mem_cons]

theorem Expr.fieldsHold_iff {P : Ty → Prop} {fields : List (String × Expr)} :
    Expr.FieldsHold P fields ↔ ∀ f ∈ fields, f.2.Holds P := by
  induction fields with
  | nil => simp [Expr.FieldsHold]
  | cons field fields ih => rw [Expr.FieldsHold, ih, List.forall_mem_cons]

theorem Expr.armsHold_iff {P : Ty → Prop} {arms : List Arm} :
    Expr.ArmsHold P arms ↔ ∀ arm ∈ arms, arm.Holds P := by
  induction arms with
  | nil => simp [Expr.ArmsHold]
  | cons arm arms ih => rw [Expr.ArmsHold, ih, List.forall_mem_cons]

/-- Do the types that stand in the definitions have the property, and the results of functions, and
are structs and their fields named accordingly? -/
structure Registry.Holds (named : String → Prop) (P : Ty → Prop) (r : Registry) : Prop where
  aliases : ∀ a ∈ r.aliases, a.2.Holds P
  structs : ∀ s ∈ r.structs, named s.name ∧ ∀ f ∈ s.fields, named f.1 ∧ f.2.Holds P
  functions : ∀ f ∈ r.functions, ∀ args : List Ty, (∀ t ∈ args, P t) → P (f.apply args)

/-- Do all types that are bound have the property? -/
def Bindings.Hold (P : Ty → Prop) (b : Bindings) : Prop := ∀ entry ∈ b, P entry.2

/-- Do all values that are kept have the property? -/
def Memo.Holds (P : Ty → Prop) (memo : Memo) : Prop := ∀ entry ∈ memo.names, P entry.2

namespace Memo

variable {P : Ty → Prop}

theorem holds_off : off.Holds P := List.forall_mem_nil _

theorem holds_empty : empty.Holds P := List.forall_mem_nil _

theorem Holds.insert {memo : Memo} {name : String} {t : Ty} (hmemo : memo.Holds P) (ht : P t) :
    (memo.insert name t).Holds P := by
  unfold Memo.insert
  split
  · exact List.forall_mem_cons.2 ⟨ht, hmemo⟩
  · exact hmemo

end Memo

/-! ## Computations -/

namespace Eval

variable {α β : Type} {P : Ty → Prop} {Q : α → Prop} {R : β → Prop} {c : Eval α}

/-- From values with the property, does the computation only give results that satisfy `Q`, and
does it leave values with the property? -/
def Keeps (P : Ty → Prop) (Q : α → Prop) (c : Eval α) : Prop :=
  ∀ memo : Memo, memo.Holds P → (∀ a, (c.run memo).1 = .ok a → Q a) ∧ (c.run memo).2.Holds P

theorem Keeps.pure {a : α} (ha : Q a) : Keeps P Q (Pure.pure a : Eval α) := by
  refine fun memo hmemo => ⟨fun b hb => ?_, hmemo⟩
  cases hb
  exact ha

theorem Keeps.throw (e : EvalError) : Keeps P Q (throw e : Eval α) :=
  fun _ hmemo => ⟨nofun, hmemo⟩

theorem Keeps.bind {f : α → Eval β} (hc : Keeps P Q c) (hf : ∀ a, Q a → Keeps P R (f a)) :
    Keeps P R (c >>= f) := by
  intro memo hmemo
  have hkeeps := hc memo hmemo
  rw [runState_bind]
  generalize c.run memo = ran at hkeeps ⊢
  obtain ⟨result, found⟩ := ran
  cases result with
  | ok a => exact hf a (hkeeps.1 a rfl) found hkeeps.2
  | error e => exact ⟨nofun, hkeeps.2⟩

theorem Keeps.map {f : α → β} (hc : Keeps P Q c) (hf : ∀ a, Q a → R (f a)) :
    Keeps P R (f <$> c) := by
  rw [map_eq_pure_bind]
  exact hc.bind fun a ha => Keeps.pure (hf a ha)

theorem Keeps.mapM {f : α → Eval β} : ∀ {items : List α}, (∀ a ∈ items, Keeps P R (f a)) →
    Keeps P (fun bs => ∀ b ∈ bs, R b) (items.mapM f)
  | [], _ => Keeps.pure (List.forall_mem_nil _)
  | a :: items, h => by
    rw [List.mapM_cons]
    obtain ⟨ha, hitems⟩ := List.forall_mem_cons.1 h
    exact ha.bind fun b hb => (mapM hitems).bind fun bs hbs =>
      Keeps.pure (List.forall_mem_cons.2 ⟨hb, hbs⟩)

end Eval

open Eval (Keeps)

/-! ## Meanings -/

/-- Does the meaning give types with the property for bindings with it? -/
def Meaning.Keeps (P : Ty → Prop) (m : Meaning) : Prop :=
  ∀ b : Bindings, b.Hold P → Eval.Keeps P P (m b)

/-- Do the meanings of the pattern and of the result keep the property? -/
structure ArmMeaning.Keeps (P : Ty → Prop) (arm : ArmMeaning) : Prop where
  pattern : arm.pattern.Keeps P
  result : arm.result.Keeps P

section Meanings

variable {named : String → Prop} {P : Ty → Prop}

namespace Ty.Lasting

variable (h : Ty.Lasting named P)

include h

theorem never : P .never := h.primitive (show primitive? "never" = some .never from rfl)

theorem any : P .any := h.primitive (show primitive? "any" = some .any from rfl)

theorem intersectAll {ts : List Ty} (hts : ∀ t ∈ ts, P t) : P (Ty.intersectAll ts) :=
  List.foldlRecOn ts Ty.intersect h.any fun _ ht a ha => h.intersect ht (hts a ha)

theorem fieldOf {t : Ty} (ht : P t) {s : Shape} (hs : s ∈ t.shapes) {field : String} {t' : Ty}
    (hfield : fieldOf? field s = some t') : P t' := by
  unfold fieldOf? at hfield
  split at hfield
  · exact of_map_find? (fun f hf => (h.fields (h.ofShape ht hs) f hf).2) hfield
  · cases hfield

/-- The type of a field of a union is a union of types of fields. -/
theorem access {t t' : Ty} (ht : P t) {field : String} (haccess : t.access field = .ok t') :
    P t' := by
  unfold Ty.access at haccess
  split at haccess
  · cases haccess
  · split at haccess
    · next ts hts =>
      cases haccess
      exact h.union (forall_mem_of_mapM (fun s hs _ => h.fieldOf ht hs) hts)
    · cases haccess

theorem of_mem_members {t : Ty} (ht : P t) : ∀ member ∈ Meaning.members t, P member := by
  intro member hmember
  cases t with
  | any => exact List.mem_singleton.1 hmember ▸ ht
  | oneOf ss =>
    obtain ⟨s, hs, rfl⟩ := List.mem_map.1 hmember
    exact h.ofShape ht hs

end Ty.Lasting

namespace Meaning

variable {r : Registry} {value : String → Eval Ty} {b : Bindings}

theorem keeps_named (h : Ty.Lasting named P) (hvalue : ∀ name, Eval.Keeps P P (value name))
    (name : String) : (Meaning.named r value name).Keeps P := by
  intro b hb
  unfold Meaning.named
  split
  · next t ht => exact Keeps.pure (of_map_find? hb ht)
  · split
    · exact hvalue name
    · split
      · next t ht => exact Keeps.pure (h.primitive ht)
      · exact Keeps.throw _

theorem keeps_checkGiven (s : Struct) : ∀ seen given : List String,
    Eval.Keeps P (fun _ => True) (checkGiven s seen given)
  | _, [] => Keeps.pure trivial
  | seen, field :: given => by
    unfold checkGiven
    split_ifs
    · exact Keeps.throw _
    · exact keeps_checkGiven s (field :: seen) given
    · exact Keeps.throw _

theorem keeps_narrow (h : Ty.Lasting named P) {given : List (String × Meaning)}
    (hgiven : ∀ g ∈ given, g.2.Keeps P) (hb : b.Hold P) :
    ∀ {fields : List (String × Ty)}, (∀ f ∈ fields, named f.1 ∧ P f.2) →
      Eval.Keeps P (fun fs => ∀ f ∈ fs, named f.1 ∧ P f.2) (narrow given b fields)
  | [], _ => Keeps.pure (List.forall_mem_nil _)
  | (name, declared) :: fields, hfields => by
    obtain ⟨⟨hname, hdeclared⟩, hfields⟩ := List.forall_mem_cons.1 hfields
    have hrest : ∀ t : Ty, P t → Eval.Keeps P (fun fs => ∀ f ∈ fs, named f.1 ∧ P f.2)
        (do return (name, t) :: (← narrow given b fields) : Eval (List (String × Ty))) :=
      fun t ht => (keeps_narrow h hgiven hb hfields).bind fun fs hfs =>
        Keeps.pure (List.forall_mem_cons.2 ⟨⟨hname, ht⟩, hfs⟩)
    unfold narrow
    split
    · next m hm =>
      refine ((hgiven _ (List.mem_of_find?_eq_some hm)) b hb |>.map fun t ht => ?_).bind hrest
      exact h.intersect ht hdeclared
    · exact (Keeps.pure hdeclared).bind hrest

theorem keeps_instantiate (h : Ty.Lasting named P) (hr : r.Holds named P)
    (hvalue : ∀ name, Eval.Keeps P P (value name)) (name : String)
    {given : List (String × Meaning)} (hgiven : ∀ g ∈ given, g.2.Keeps P) :
    (instantiate r value name given).Keeps P := by
  intro b hb
  unfold instantiate
  split
  · next s hs =>
    refine (keeps_checkGiven s [] _).bind fun _ _ => (hvalue s.name).bind fun t ht => ?_
    split
    · exact (keeps_narrow h hgiven hb (h.fields ht)).bind fun fs hfs =>
        Keeps.pure (h.record (hr.structs s (List.mem_of_find?_eq_some hs)).1 hfs)
    · exact Keeps.pure h.never
  · split
    · exact Keeps.throw _
    · exact Keeps.throw _

theorem keeps_all {ms : List Meaning} (hms : ∀ m ∈ ms, m.Keeps P) (hb : b.Hold P) :
    Eval.Keeps P (fun ts => ∀ t ∈ ts, P t) (all ms b) :=
  Keeps.mapM fun m hm => hms m hm b hb

theorem keeps_arguments (f : Function) (hb : b.Hold P) : ∀ (index : Nat) {ms : List Meaning}
    (params : List Ty), (∀ m ∈ ms, m.Keeps P) →
      Eval.Keeps P (fun ts => ∀ t ∈ ts, P t) (arguments f b index ms params)
  | index, m :: ms, param :: params, hms => by
    obtain ⟨hm, hms⟩ := List.forall_mem_cons.1 hms
    unfold arguments
    refine (hm b hb).bind fun t ht => ?_
    split
    · exact (keeps_arguments f hb (index + 1) params hms).bind fun ts hts =>
        Keeps.pure (List.forall_mem_cons.2 ⟨ht, hts⟩)
    · exact Keeps.throw _
  | _, [], _, _ => Keeps.pure (List.forall_mem_nil _)
  | _, _ :: _, [], _ => Keeps.pure (List.forall_mem_nil _)

theorem keeps_call (hr : r.Holds named P) (name : String) {args : List Meaning}
    (hargs : ∀ m ∈ args, m.Keeps P) : (call r name args).Keeps P := by
  intro b hb
  unfold call
  split
  · exact Keeps.throw _
  · next f hf =>
    split
    · exact Keeps.throw _
    · exact (keeps_arguments f hb 0 f.params hargs).bind fun ts hts =>
        Keeps.pure (hr.functions f (List.mem_of_find?_eq_some hf) ts hts)

theorem keeps_selectOne {arms : List (ArmMeaning × Ty)} (harms : ∀ arm ∈ arms, arm.1.result.Keeps P)
    (hb : b.Hold P) {member : Ty} (hmember : P member) :
    Eval.Keeps P (fun o : Option Ty => ∀ t ∈ o, P t) (selectOne arms b member) := by
  have hsome : ∀ t : Ty, P t → ∀ t' ∈ some t, P t' := by
    rintro t ht _ ⟨⟩
    exact ht
  unfold selectOne
  split
  · exact Keeps.pure nofun
  · next arm _ harm =>
    have hresult := harms _ (List.mem_of_find?_eq_some harm)
    split
    · exact (hresult _ (List.forall_mem_cons.2 ⟨hmember, hb⟩)).map hsome
    · exact (hresult b hb).map hsome

theorem keeps_select (h : Ty.Lasting named P) {scrutinee : Meaning} {arms : List ArmMeaning}
    (hscrutinee : scrutinee.Keeps P) (harms : ∀ arm ∈ arms, arm.Keeps P) :
    (select scrutinee arms).Keeps P := by
  intro b hb
  have hpatterns : ∀ m ∈ arms.map (·.pattern), m.Keeps P := by
    intro m hm
    obtain ⟨arm, harm, rfl⟩ := List.mem_map.1 hm
    exact (harms arm harm).pattern
  refine (hscrutinee b hb).bind fun t ht => (keeps_all hpatterns hb).bind fun patterns _ =>
    (Keeps.mapM fun member hmember => keeps_selectOne (fun arm harm => ?_) hb
      (h.of_mem_members ht member hmember)).bind fun results hresults =>
        Keeps.pure (h.union fun t ht => ?_)
  · exact (harms arm.1 (List.of_mem_zip harm).1).result
  · obtain ⟨o, ho, rfl⟩ := List.mem_filterMap.1 ht
    exact hresults _ ho t rfl

end Meaning

/-! ## Expressions -/

section Expressions

set_option linter.unusedSectionVars false

variable {r : Registry} {value : String → Eval Ty} (h : Ty.Lasting named P) (hr : r.Holds named P)
  (hvalue : ∀ name, Eval.Keeps P P (value name))

include h hr hvalue

mutual

/-- The meaning of an expression keeps a property that lasts, if the types that stand in it have
it and the values of definitions do. -/
theorem Expr.keeps_meaning : ∀ e : Expr, e.Holds P → (e.meaning r value).Keeps P
  | .type t, he => fun _ _ => Keeps.pure (by rwa [Expr.Holds] at he)
  | .named name, _ => Meaning.keeps_named h hvalue name
  | .instantiate name fields, he => by
    rw [Expr.Holds] at he
    exact Meaning.keeps_instantiate h hr hvalue name (Expr.keeps_fieldMeanings fields he)
  | .union items, he => by
    rw [Expr.Holds] at he
    exact fun b hb => (Meaning.keeps_all (Expr.keeps_meanings items he) hb).bind
      fun ts hts => Keeps.pure (h.union hts)
  | .intersection items, he => by
    rw [Expr.Holds] at he
    exact fun b hb => (Meaning.keeps_all (Expr.keeps_meanings items he) hb).bind
      fun ts hts => Keeps.pure (h.intersectAll hts)
  | .call function args, he => by
    rw [Expr.Holds] at he
    exact Meaning.keeps_call hr function (Expr.keeps_meanings args he)
  | .select scrutinee arms, he => by
    rw [Expr.Holds] at he
    exact Meaning.keeps_select h (Expr.keeps_meaning scrutinee he.1)
      (Expr.keeps_armMeanings arms he.2)
  | .access record field, he => by
    rw [Expr.Holds] at he
    refine fun b hb => (Expr.keeps_meaning record he b hb).bind fun t ht => ?_
    cases haccess : t.access field with
    | ok t' => exact Keeps.pure (h.access ht haccess)
    | error e => exact Keeps.throw e

theorem Arm.keeps_meaning : ∀ arm : Arm, arm.Holds P → (arm.meaning r value).Keeps P
  | .mk pattern binding result, harm => by
    rw [Arm.Holds] at harm
    exact ⟨Expr.keeps_meaning pattern harm.1, Expr.keeps_meaning result harm.2⟩

theorem Expr.keeps_meanings :
    ∀ es : List Expr, Expr.AllHold P es → ∀ m ∈ Expr.meanings r value es, m.Keeps P
  | [], _ => List.forall_mem_nil _
  | e :: es, hes => by
    rw [Expr.AllHold] at hes
    exact List.forall_mem_cons.2 ⟨Expr.keeps_meaning e hes.1, Expr.keeps_meanings es hes.2⟩

theorem Expr.keeps_fieldMeanings : ∀ fields : List (String × Expr),
    Expr.FieldsHold P fields → ∀ g ∈ Expr.fieldMeanings r value fields, g.2.Keeps P
  | [], _ => List.forall_mem_nil _
  | (name, e) :: fields, hfields => by
    rw [Expr.FieldsHold] at hfields
    exact List.forall_mem_cons.2 ⟨Expr.keeps_meaning e hfields.1,
      Expr.keeps_fieldMeanings fields hfields.2⟩

theorem Expr.keeps_armMeanings :
    ∀ arms : List Arm, Expr.ArmsHold P arms → ∀ arm ∈ Expr.armMeanings r value arms, arm.Keeps P
  | [], _ => List.forall_mem_nil _
  | arm :: arms, harms => by
    rw [Expr.ArmsHold] at harms
    exact List.forall_mem_cons.2 ⟨Arm.keeps_meaning arm harms.1,
      Expr.keeps_armMeanings arms harms.2⟩

end

end Expressions

/-! ## Definitions -/

namespace Registry

variable {r : Registry}

/-- Do the types that stand in the definition have the property, and are a struct and its fields
named accordingly? -/
def Body.Holds (named : String → Prop) (P : Ty → Prop) : Body → Prop
  | .ofAlias e => e.Holds P
  | .ofStruct s => named s.name ∧ ∀ f ∈ s.fields, named f.1 ∧ f.2.Holds P

theorem Holds.of_body? (hr : r.Holds named P) {name : String} {d : Body}
    (hd : r.body? name = some d) : d.Holds named P := by
  unfold body? at hd
  split at hd
  · next e he =>
    cases hd
    exact of_map_find? (P := Expr.Holds P) hr.aliases he
  · exact of_map_find? (P := Body.Holds named P) hr.structs hd

theorem Body.keeps_value (h : Ty.Lasting named P) (hr : r.Holds named P)
    {value : String → Eval Ty} (hvalue : ∀ name, Eval.Keeps P P (value name)) {d : Body}
    (hd : d.Holds named P) : Eval.Keeps P P (d.value r value) := by
  cases d with
  | ofAlias e => exact e.keeps_meaning h hr hvalue hd [] (List.forall_mem_nil _)
  | ofStruct s =>
    obtain ⟨hname, hfields⟩ := hd
    have hall : Expr.AllHold P (s.fields.map (·.2)) :=
      Expr.allHold_iff.2 (List.forall_mem_map.2 fun f hf => (hfields f hf).2)
    refine (Meaning.keeps_all (Expr.keeps_meanings h hr hvalue _ hall)
      (List.forall_mem_nil _)).bind fun types htypes => Keeps.pure (h.record hname ?_)
    intro f hf
    obtain ⟨g, hg, hname⟩ := List.mem_map.1 (List.of_mem_zip hf).1
    exact ⟨hname ▸ (hfields g hg).1, htypes f.2 (List.of_mem_zip hf).2⟩

/-- The values of names keep a property that lasts. Computing one asks for others while one more
name is being computed, so this is by induction on the names that are not. -/
theorem keeps_resolve (h : Ty.Lasting named P) (hr : r.Holds named P) (resolving : List String) :
    ∀ name, Eval.Keeps P P (r.resolve resolving name) := by
  induction resolving using resolving_induction r with
  | h resolving ih =>
  intro name memo hmemo
  rw [run_resolve]
  cases hfind : memo.find? name with
  | some t => exact ⟨fun _ h => Except.ok.inj h ▸ of_map_find? hmemo hfind, hmemo⟩
  | none =>
    dsimp only
    split_ifs with hname
    · exact ⟨nofun, hmemo⟩
    · cases hb : r.body? name with
      | none => exact ⟨nofun, hmemo⟩
      | some d =>
        have hvalue := Body.keeps_value h hr (ih name (mem_typeNames_of_body? hb) hname)
          (hr.of_body? hb) memo hmemo
        rw [Body.value_eq_run] at hvalue
        dsimp only
        generalize ((d.query r).run (r.resolve (name :: resolving))).run memo = ran at hvalue ⊢
        obtain ⟨result, found⟩ := ran
        cases result with
        | ok t => exact ⟨hvalue.1, hvalue.2.insert (hvalue.1 t rfl)⟩
        | error e => exact ⟨nofun, hvalue.2⟩

end Registry

/-- A type that is evaluated has every property that lasts. -/
theorem Expr.holds_of_evaluate {r : Registry} (h : Ty.Lasting named P) (hr : r.Holds named P)
    {e : Expr} (he : e.Holds P) {b : Bindings} (hb : b.Hold P) {t : Ty}
    (ht : e.evaluate r b = .ok t) : P t :=
  (e.keeps_meaning h hr (Registry.keeps_resolve h hr []) he b hb .off Memo.holds_off).1 t ht

end Meanings

end FlowTypes
