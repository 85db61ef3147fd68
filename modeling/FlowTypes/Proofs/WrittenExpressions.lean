import FlowTypes.Proofs.PhraseText
import FlowTypes.Proofs.RegularTypes

/-!
# Expressions as they are read

What the parser makes of tokens has two operands or more where there are operators, and types that
are built, and written without operators and names. Whatever the names among the tokens satisfy,
the names in the expression do (`Expr.Written`). It is shown on the grammar, one rule after the
other (`Grammar.Sound`). The names of a text are identifiers (`Token.isIdentifier_of_mem_spellings`),
so those of an expression that is read are (`Expr.written_of_parse`).
-/

namespace FlowTypes

open Syntax (Braces)

/-- Can the text be read as it is quoted, if the type is a single one? -/
def Ty.isReadable : Ty → Bool
  | .oneOf [.text (.literal s)] => s.toList.all Quoted.isReadable
  | _ => true

/-- Is the expression made as the parser makes them : of types that it can build, with two operands
or more, and with names that satisfy `P`? -/
inductive Expr.Written (P : String → Prop) : Expr → Prop
  | type {t : Ty} (ht : t.Built) (hatom : t.isReadable = true → t.isAtom = true) :
      Written P (.type t)
  | named {name : String} (hname : P name) : Written P (.named name)
  | instantiate {name : String} {fields : List (String × Expr)} (hname : P name)
      (hnames : ∀ f ∈ fields, P f.1) (hfields : ∀ f ∈ fields, Written P f.2) :
      Written P (.instantiate name fields)
  | union {items : List Expr} (htwo : 2 ≤ items.length) (hitems : ∀ e ∈ items, Written P e) :
      Written P (.union items)
  | intersection {items : List Expr} (htwo : 2 ≤ items.length)
      (hitems : ∀ e ∈ items, Written P e) : Written P (.intersection items)
  | call {function : String} {args : List Expr} (hname : P function)
      (hargs : ∀ e ∈ args, Written P e) : Written P (.call function args)
  | select {scrutinee : Expr} {arms : List Arm} (hscrutinee : Written P scrutinee)
      (hpatterns : ∀ arm ∈ arms, Written P arm.pattern)
      (hbindings : ∀ arm ∈ arms, ∀ name ∈ arm.binding, P name)
      (hresults : ∀ arm ∈ arms, Written P arm.result) : Written P (.select scrutinee arms)
  | access {record : Expr} {field : String} (hrecord : Written P record) (hname : P field) :
      Written P (.access record field)

namespace Grammar

variable {P : String → Prop}

/-- Do the names among the tokens satisfy `P`? -/
def Named (P : String → Prop) (ws : List Token.Spelling) : Prop :=
  ∀ s ∈ ws, s.kind = .ident → P (String.ofList s.text)

/-- Are the expressions of a phrase written, with the names that are among its tokens? -/
def Sound (P : String → Prop) (phrase : Phrase Expr) : Prop :=
  ∀ ws e, Named P ws → phrase ws e → e.Written P

section Named

variable {ws vs : List Token.Spelling}

theorem named_append : Named P (ws ++ vs) ↔ Named P ws ∧ Named P vs :=
  List.forall_mem_append

theorem Named.tail {s : Token.Spelling} (h : Named P (s :: ws)) : Named P ws :=
  (List.forall_mem_cons.1 h).2

theorem Named.mono (h : Named P ws) (hvs : vs ⊆ ws) : Named P vs :=
  fun s hs => h s (hvs hs)

/-- What is enclosed is named if all is. -/
theorem Named.enclosed {α : Type} {opening closing : Token.Kind} {item : Phrase α} {a : α}
    (hws : Named P ws) (h : Enclosed opening closing item ws a) : ∃ vs, Named P vs ∧ item vs a := by
  cases h with
  | intro cs ds h => exact ⟨_, (named_append.1 hws.tail).1, h⟩

theorem Named.of_name {name : String} (hws : Named P ws) (h : Name ws name) : P name := by
  cases h with
  | intro cs => exact hws ⟨.ident, cs⟩ (List.mem_singleton_self _) rfl

end Named

/-! ## Types -/

theorem Atom.built {ws : List Token.Spelling} {t : Ty} (h : Atom ws t) : t.Built := by
  cases h with
  | @word kind _ _ h =>
    cases kind <;> cases h
    exacts [.any, .int, .number, .string, .never, .any]
  | literal => exact .literal _
  | interval => exact .interval _ _
  | integers => exact .integers _ _
  | text => exact .textLiteral _

/-- Of the types of the grammar, only those that quote something may not be readable. -/
theorem Atom.isAtom {ws : List Token.Spelling} {t : Ty} (h : Atom ws t)
    (hreadable : t.isReadable = true) : t.isAtom = true := by
  have hnumbers : ∀ o : Option NumberSet, (Ty.ofNumbers o.toList).isAtom = true := fun o => by
    cases o <;> rfl
  cases h with
  | @word kind _ _ h => cases kind <;> cases h <;> rfl
  | literal => rfl
  | interval => exact hnumbers _
  | integers => exact hnumbers _
  | text => exact hreadable

/-! ## The rules of the grammar -/

theorem sound_joined {join : List Expr → Expr} {separator : Token.Kind} {operand : Phrase Expr}
    (hjoin : ∀ es : List Expr, 2 ≤ es.length → (∀ e ∈ es, e.Written P) → (join es).Written P)
    (hoperand : Sound P operand) : Sound P (Joined join separator operand) := by
  intro ws e hws h
  cases h with
  | one h => exact hoperand _ _ hws h
  | several h hmore hes =>
    obtain ⟨hfirst, hrest⟩ := named_append.1 hws
    refine hjoin _ (Nat.succ_le_succ (List.length_pos_iff.2 hes)) (List.forall_mem_cons.2 ⟨?_, ?_⟩)
    · exact hoperand _ _ hfirst h
    · exact hmore.forall_mem fun us a hus ha => hoperand _ _ (hrest.mono hus) ha

section Inside

variable {inner : Braces → Phrase Expr} (hinner : ∀ braces, Sound P (inner braces)) (braces : Braces)
include hinner

theorem written_of_field {ws : List Token.Spelling} {f : String × Expr} (hws : Named P ws)
    (h : Field (inner braces) ws f) : P f.1 ∧ f.2.Written P := by
  cases h with
  | intro cs hname he =>
    obtain ⟨hus, hvs⟩ := named_append.1 hws
    exact ⟨hus.of_name hname, hinner braces _ _ hvs.tail he⟩

theorem written_of_arm {ws : List Token.Spelling} {arm : FlowTypes.Arm} (hws : Named P ws)
    (h : Arm (inner braces) ws arm) : arm.pattern.Written P ∧
      (∀ name ∈ arm.binding, P name) ∧ arm.result.Written P := by
  cases h with
  | intro cs hpattern hbinding hresult =>
    obtain ⟨hus, hvs⟩ := named_append.1 hws
    obtain ⟨hvs, hxs⟩ := named_append.1 hvs
    refine ⟨hinner braces _ _ hus hpattern, ?_, hinner braces _ _ hxs.tail hresult⟩
    cases hbinding with
    | none => exact nofun
    | some cs hname =>
      rintro _ ⟨⟩
      exact hvs.tail.of_name hname

theorem sound_primary : Sound P (Primary inner braces) := by
  intro ws e hws h
  cases h with
  | type h => exact .type h.built h.isAtom
  | named h => exact .named (hws.of_name h)
  | call hname hargs =>
    obtain ⟨hus, hvs⟩ := named_append.1 hws
    obtain ⟨xs, hxs, hargs⟩ := hvs.enclosed hargs
    refine .call (hus.of_name hname) ?_
    exact hargs.forall_mem fun ys a hys ha => hinner braces _ _ (hxs.mono hys) ha
  | @instantiate _ _ _ fields hbraces hname hfields =>
    obtain ⟨hus, hvs⟩ := named_append.1 hws
    obtain ⟨xs, hxs, hfields⟩ := hvs.enclosed hfields
    have hfield : ∀ f ∈ fields, P f.1 ∧ f.2.Written P :=
      hfields.forall_mem fun ys f hys hf => written_of_field hinner braces (hxs.mono hys) hf
    exact .instantiate (hus.of_name hname) (fun f hf => (hfield f hf).1)
      fun f hf => (hfield f hf).2
  | @select _ _ scrutinee arms cs hscrutinee harms =>
    obtain ⟨hus, hvs⟩ := named_append.1 hws.tail
    obtain ⟨xs, hxs, harms⟩ := hvs.enclosed harms
    have harm := harms.forall_mem fun ys a hys ha => written_of_arm hinner braces (hxs.mono hys) ha
    exact .select (hinner .openArms _ _ hus hscrutinee) (fun a ha => (harm a ha).1)
      (fun a ha => (harm a ha).2.1) fun a ha => (harm a ha).2.2
  | parenthesized h =>
    obtain ⟨xs, hxs, h⟩ := hws.enclosed h
    exact hinner .openFields _ _ hxs h

theorem sound_accesses : Sound P (Accesses inner braces) := by
  intro ws e hws h
  cases h with
  | @intro _ _ e names he hnames =>
    obtain ⟨hus, hvs⟩ := named_append.1 hws
    have hname : ∀ name ∈ names, P name :=
      hnames.forall_mem fun xs name hxs h => (hvs.mono hxs).of_name h
    have he := sound_primary hinner braces _ _ hus he
    exact List.foldlRecOn names _ he fun record hrecord name hmem =>
      .access hrecord (hname name hmem)

theorem sound_operators : Sound P (Operators inner braces) :=
  sound_joined (fun _ => .union) (sound_joined (fun _ => .intersection) (sound_accesses hinner braces))

end Inside

theorem sound_expression : ∀ (depth : ℕ) (braces : Braces), Sound P (Expression depth braces)
  | 0, _ => nofun
  | depth + 1, braces => sound_operators (sound_expression depth) braces

end Grammar

/-- What is read is written, with identifiers for names. -/
theorem Expr.written_of_parse {source : String} {e : Expr} (h : Expr.parse source = .ok e) :
    e.Written (isIdentifier · = true) :=
  Grammar.sound_expression _ _ _ _ (fun _ => Token.isIdentifier_of_mem_spellings)
    (Expr.parse_eq_ok_iff.1 h)

end FlowTypes
