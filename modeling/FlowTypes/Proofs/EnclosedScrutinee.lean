import FlowTypes.Proofs.JoinedTexts
import FlowTypes.Proofs.NestingDepth

/-!
# Expressions inside of a scrutinee

In the scrutinee of a selection a brace after a name opens the arms, and no fields of a record. An
expression that stands in the scrutinee between parentheses is read as it is on its own, but the
arguments of a call and the results of a selection there are not : the brace opens arms in these as
well. So they are the expression that is meant exactly if it can be read so that no brace opens
fields (`Expr.parse_enclosed`), as is the case if it has no record instance.

The two ways to read a brace are compared by the grammar. What is read where braces open arms is
read as the same expression where they open fields (`Grammar.expression_openFields`), and the other
way round if it has no record instance (`Grammar.expression_openArms`). Both are cases of
`Grammar.serves_expression`, an induction on how deep expressions nest. And as the parser is
deterministic, the tokens of an expression are known by what comes before and after them
(`Grammar.expression_append_inj`).
-/

namespace FlowTypes

open Lexeme (first)
open Syntax (Braces)

/-! ## Record instances -/

/-- One level more at a record instance. -/
def Expr.deepenInstance : Expr → ℕ → ℕ
  | .instantiate _ _, parts => parts + 1
  | _, parts => parts

/-- How deep record instances stand inside each other. -/
def Expr.instanceDepth (e : Expr) : ℕ := e.measure deepenInstance

theorem Expr.instanceDepth_le_of_mem {e p : Expr} (hp : p ∈ e.parts) :
    p.instanceDepth ≤ e.instanceDepth := by
  have hle : ∀ parts, parts ≤ deepenInstance e parts := by
    intro parts
    cases e <;> simp [deepenInstance]
  rw [instanceDepth, instanceDepth, measure_eq e]
  exact (greatestMeasure_le_iff.1 le_rfl p hp).trans (hle _)

theorem Expr.instanceDepth_instantiate (name : String) (fields : List (String × Expr)) :
    (instantiate name fields).instanceDepth ≠ 0 := by
  rw [instanceDepth, measure_eq]
  exact Nat.succ_ne_zero _

namespace Grammar

/-! ## One phrase for another -/

variable {α : Type} {item item' : Phrase α} {ws : List Token.Spelling}

theorem Enclosed.imp {opening closing : Token.Kind} {a : α} (h : Enclosed opening closing item ws a)
    (himp : ∀ vs, item vs a → item' vs a) : Enclosed opening closing item' ws a := by
  cases h with
  | intro cs ds h => exact .intro cs ds (himp _ h)

theorem AfterEach.imp {separator : Token.Kind} : ∀ {ws : List Token.Spelling} {as : List α},
    AfterEach separator item ws as → (∀ vs, ∀ a ∈ as, item vs a → item' vs a) →
      AfterEach separator item' ws as
  | _, _, .nil, _ => .nil
  | _, _, .cons cs h hmore, himp =>
    .cons cs (himp _ _ List.mem_cons_self h)
      (hmore.imp fun vs a ha => himp vs a (List.mem_cons_of_mem _ ha))

theorem Listed.imp : ∀ {ws : List Token.Spelling} {as : List α},
    Listed item ws as → (∀ vs, ∀ a ∈ as, item vs a → item' vs a) → Listed item' ws as
  | _, _, .nil, _ => .nil
  | _, _, .last h, himp => .last (himp _ _ List.mem_cons_self h)
  | _, _, .cons cs h hmore, himp =>
    .cons cs (himp _ _ List.mem_cons_self h)
      (hmore.imp fun vs a ha => himp vs a (List.mem_cons_of_mem _ ha))

/-- Is what is read as an expression with the property read so by the other phrase too? -/
def Serves (P : Expr → Prop) (phrase phrase' : Phrase Expr) : Prop :=
  ∀ ws e, P e → phrase ws e → phrase' ws e

section Serves

-- The property is one that expressions share with their parts.
variable {P : Expr → Prop} (hP : ∀ e, P e → ∀ p ∈ e.parts, P p)
include hP

theorem serves_joined {join : List Expr → Expr} {separator : Token.Kind}
    {operand operand' : Phrase Expr} (hjoin : ∀ es, (join es).parts = es)
    (hoperand : Serves P operand operand') :
    Serves P (Joined join separator operand) (Joined join separator operand') := by
  intro ws e he h
  cases h with
  | one h => exact .one (hoperand _ _ he h)
  | @several ws vs e es h hmore hes =>
    have hparts : ∀ p ∈ e :: es, P p := fun p hp => hP _ he p (by rwa [hjoin])
    refine .several (hoperand _ _ (hparts e List.mem_cons_self) h) (hmore.imp fun vs p hp => ?_) hes
    exact hoperand _ _ (hparts p (List.mem_cons_of_mem e hp))

variable {inner inner' : Braces → Phrase Expr} {braces braces' : Braces}

/-- What opens fields must do so for the other phrase as well, where there are instances. -/
theorem serves_primary (hinner : Serves P (inner braces) (inner' braces'))
    (hsame : ∀ braces, Serves P (inner braces) (inner' braces))
    (hbraces : ∀ name fields, P (.instantiate name fields) → braces = .openFields →
      braces' = .openFields) : Serves P (Primary inner braces) (Primary inner' braces') := by
  intro ws e he h
  cases h with
  | type h => exact .type h
  | named h => exact .named h
  | call hname hargs =>
    exact .call hname (hargs.imp fun vs hargs => hargs.imp fun us p hp =>
      hinner us p (hP _ he p hp))
  | instantiate hopen hname hfields =>
    refine .instantiate (hbraces _ _ he hopen) hname (hfields.imp fun vs hfields =>
      hfields.imp fun us f hf hfield => ?_)
    cases hfield with
    | intro cs hname h => exact .intro cs hname (hinner _ _ (hP _ he _ (List.mem_map_of_mem hf)) h)
  | select cs hscrutinee harms =>
    refine .select cs (hsame .openArms _ _ (hP _ he _ List.mem_cons_self) hscrutinee)
      (harms.imp fun vs harms => harms.imp fun us arm harm h => ?_)
    cases h with
    | @intro _ _ _ pattern result _ cs hpattern hbinding hresult =>
      have hmem : ∀ p ∈ [pattern, result], P p := fun p hp =>
        hP _ he p (List.mem_cons_of_mem _ (List.mem_flatMap.2 ⟨_, harm, hp⟩))
      exact .intro cs (hinner _ _ (hmem _ List.mem_cons_self) hpattern) hbinding
        (hinner _ _ (hmem _ (List.mem_cons_of_mem _ List.mem_cons_self)) hresult)
  | parenthesized h => exact .parenthesized (h.imp fun vs h => hsame .openFields _ _ he h)

theorem serves_accesses (hprimary : Serves P (Primary inner braces) (Primary inner' braces')) :
    Serves P (Accesses inner braces) (Accesses inner' braces') := by
  have hrecord : ∀ (names : List String) (e : Expr), P (names.foldl .access e) → P e := by
    intro names
    induction names with
    | nil => exact fun e he => he
    | cons name names ih => exact fun e he => hP _ (ih _ he) e (List.mem_singleton_self e)
  intro ws e he h
  cases h with
  | intro h hnames => exact .intro (hprimary _ _ (hrecord _ _ he) h) hnames

/-- Expressions may nest deeper, and braces may open what they open where there are instances. -/
theorem serves_expression : ∀ {depth depth' : ℕ}, depth ≤ depth' → ∀ {braces braces' : Braces},
    (∀ name fields, P (.instantiate name fields) → braces = .openFields → braces' = .openFields) →
      Serves P (Expression depth braces) (Expression depth' braces')
  | 0, _, _, _, _, _ => nofun
  | depth + 1, depth' + 1, hdepth, _, _, hbraces =>
    have hle : depth ≤ depth' := Nat.le_of_succ_le_succ hdepth
    serves_joined hP (fun _ => rfl) (serves_joined hP (fun _ => rfl) (serves_accesses hP
      (serves_primary hP (serves_expression hle hbraces)
        (fun _ => serves_expression hle fun _ _ _ h => h) hbraces)))

end Serves

variable {depth depth' : ℕ} {braces : Braces} {e : Expr}

theorem expression_mono (h : Expression depth braces ws e) (hdepth : depth ≤ depth') :
    Expression depth' braces ws e :=
  serves_expression (P := fun _ => True) (fun _ _ _ _ => trivial) hdepth (fun _ _ _ h => h) ws e
    trivial h

/-- What is read where braces open arms is read where they open fields. -/
theorem expression_openFields (h : Expression depth braces ws e) :
    Expression depth .openFields ws e :=
  serves_expression (P := fun _ => True) (fun _ _ _ _ => trivial) le_rfl (fun _ _ _ _ => rfl) ws e
    trivial h

/-- Without record instances it does not matter what braces open. -/
theorem expression_openArms (h : Expression depth .openFields ws e) (he : e.instanceDepth = 0) :
    Expression depth .openArms ws e :=
  serves_expression (P := fun e => e.instanceDepth = 0)
    (fun _ he _ hp => Nat.le_zero.1 ((Expr.instanceDepth_le_of_mem hp).trans_eq he)) le_rfl
    (fun name fields he => absurd he (Expr.instanceDepth_instantiate name fields)) ws e he h

/-! ## Where an expression ends -/

/-- An expression is known by the tokens, if none comes next that would belong to it. -/
theorem expression_append_inj {us vs left rest : List Token.Spelling} {e' : Expr}
    (h : Expression depth braces us e) (h' : Expression depth braces vs e')
    (htokens : us ++ left = vs ++ rest) (hleft : StopsAt (afterExpression braces) left)
    (hrest : StopsAt (afterExpression braces) rest) : left = rest := by
  let ts : List Token := (us ++ left).map fun s => ⟨s.kind, 0, s.text⟩
  have hts : ts.map Token.spelling = us ++ left := by
    rw [List.map_map]
    exact List.map_id _
  have hcovers := Syntax.covers_expression depth braces
  obtain ⟨_, _, hread, -, hmap⟩ := hcovers.reads h 0 ts left hts hleft
  obtain ⟨_, _, hread', -, hmap'⟩ := hcovers.reads h' 0 ts rest (hts.trans htokens) hrest
  rw [hread] at hread'
  cases hread'
  exact hmap.symm.trans hmap'

/-- An expression that is no operation is read without operators. -/
theorem Operators.primary {inner : Braces → Phrase Expr} (h : Operators inner braces ws e)
    (hunion : ∀ es, e ≠ .union es) (hintersection : ∀ es, e ≠ .intersection es)
    (haccesses : e.accesses = 0) : Primary inner braces ws e := by
  cases h with
  | several => exact absurd rfl (hunion _)
  | one h =>
    cases h with
    | several => exact absurd rfl (hintersection _)
    | one h =>
      cases h with
      | @intro ws vs e names h hnames =>
        rw [Expr.accesses_foldl_access] at haccesses
        obtain rfl : names = [] := List.length_eq_zero_iff.1 (by omega)
        cases hnames
        rwa [List.append_nil]

theorem expression_of_primary (h : Primary (Expression depth) braces ws e) :
    Expression (depth + 1) braces ws e :=
  .one (.one (.of_primary h))

/-! ## Selections, calls and arms -/

section Enclosures

variable {cs : List Char} (c c' : List Char)

theorem Primary.of_select {inner : Braces → Phrase Expr} {scrutinee : Expr}
    {arms : List FlowTypes.Arm}
    (h : Primary inner braces (⟨.matchWord, cs⟩ :: ws) (.select scrutinee arms)) :
    ∃ us vs, ws = us ++ vs ∧ inner .openArms us scrutinee ∧
      Enclosed .braceOpen .braceClose (Listed (Arm (inner braces))) vs arms := by
  generalize hws : ⟨.matchWord, cs⟩ :: ws = vs at h
  cases h with
  | select _ hscrutinee harms => exact ⟨_, _, (List.cons.inj hws).2, hscrutinee, harms⟩
  | parenthesized h =>
    cases h
    cases hws

theorem Primary.of_call {inner : Braces → Phrase Expr} {name : String} {args : List Expr}
    (h : Primary inner braces (⟨.ident, cs⟩ :: ws) (.call name args)) :
    Enclosed .parenOpen .parenClose (Listed (inner braces)) ws args := by
  generalize hws : ⟨.ident, cs⟩ :: ws = vs at h
  cases h with
  | call hname hargs =>
    cases hname
    rwa [(List.cons.inj hws).2]
  | parenthesized h =>
    cases h
    cases hws

theorem expression_parenthesized (h : Expression depth .openFields ws e) :
    Expression (depth + 1) braces (⟨.parenOpen, c⟩ :: (ws ++ [⟨.parenClose, c'⟩])) e :=
  expression_of_primary (.parenthesized (.intro c c' h))

/-- What is enclosed in given tokens. -/
theorem Enclosed.exists_eq {opening closing : Token.Kind} {a : α}
    (h : Enclosed opening closing item ws a) :
    ∃ cs vs ds, ws = ⟨opening, cs⟩ :: (vs ++ [⟨closing, ds⟩]) ∧ item vs a := by
  cases h with
  | intro cs ds h => exact ⟨cs, _, ds, rfl, h⟩

/-- A list of one item is the item, or the item and a comma. -/
theorem Listed.exists_eq {a : α} (h : Listed item ws [a]) :
    ∃ vs left, ws = vs ++ left ∧ item vs a ∧ (left = [] ∨ ∃ cs, left = [⟨.comma, cs⟩]) := by
  generalize has : [a] = as at h
  cases h with
  | nil => cases has
  | last h =>
    cases has
    exact ⟨_, [], (List.append_nil _).symm, h, .inl rfl⟩
  | cons cs h hmore =>
    cases has
    cases hmore
    exact ⟨_, _, rfl, h, .inr ⟨cs, rfl⟩⟩

/-- What is an expression is not one before a comma. -/
theorem eq_nil_of_comma {us left : List Token.Spelling} {e' : Expr}
    (h : Expression depth .openFields (us ++ left) e) (h' : Expression depth braces us e')
    (hleft : left = [] ∨ ∃ cs, left = [⟨.comma, cs⟩]) : left = [] := by
  refine hleft.resolve_right ?_
  rintro ⟨cs, rfl⟩
  have hcomma : Token.Kind.comma ∉ afterExpression .openFields := by decide
  have hnil := expression_append_inj h (expression_openFields h') (List.append_nil _) nofun
    (stopsAt_cons.2 hcomma)
  cases hnil

theorem expression_call_iff (h : Expression depth .openFields ws e) :
    Expression (depth + 1) braces (⟨.ident, cs⟩ :: ⟨.parenOpen, c⟩ :: (ws ++ [⟨.parenClose, c'⟩]))
      (.call (String.ofList cs) [e]) ↔ Expression depth braces ws e := by
  refine ⟨fun hcall => ?_, fun harg =>
    expression_of_primary (.call (.intro cs) (.intro c c' (.last harg)))⟩
  obtain ⟨_, vs, _, hvs, hargs⟩ := (Operators.primary hcall nofun nofun rfl).of_call.exists_eq
  obtain rfl : ws = vs := (List.append_inj' (List.cons.inj hvs).2 rfl).1
  obtain ⟨us, left, rfl, harg, hleft⟩ := hargs.exists_eq
  obtain rfl := eq_nil_of_comma h harg hleft
  rwa [List.append_nil]

/-- A selection without arms. -/
theorem expression_select_iff {us : List Token.Spelling} {m : List Char} :
    Expression (depth + 1) braces
      (⟨.matchWord, m⟩ :: (us ++ [⟨.braceOpen, c⟩, ⟨.braceClose, c'⟩])) (.select e []) ↔
        Expression depth .openArms us e := by
  have hnil : Listed (Arm (Expression depth braces)) [] [] := .nil
  refine ⟨fun hselect => ?_, fun h => expression_of_primary (.select m h (.intro c c' hnil))⟩
  obtain ⟨us', vs, hvs, hscrutinee, harms⟩ := (Operators.primary hselect nofun nofun rfl).of_select
  obtain ⟨_, ws, _, rfl, hlisted⟩ := harms.exists_eq
  generalize harms' : ([] : List FlowTypes.Arm) = arms at hlisted
  cases hlisted with
  | nil => rwa [(List.append_inj' hvs rfl).1]
  | last | cons => cases harms'

/-- The result of the only arm of a selection. -/
theorem expression_arm_iff {x m u a : List Char} (h : Expression depth .openFields ws e) :
    Expression (depth + 1) braces (⟨.matchWord, m⟩ :: ⟨.ident, x⟩ :: ⟨.braceOpen, c⟩ ::
      ⟨.underscore, u⟩ :: ⟨.fatArrow, a⟩ :: (ws ++ [⟨.braceClose, c'⟩]))
      (.select (.named (String.ofList x)) [.mk (.type .any) none e]) ↔
        Expression depth braces ws e := by
  obtain ⟨d, rfl⟩ : ∃ d, depth = d + 1 := by
    cases depth with
    | zero => cases h
    | succ d => exact ⟨d, rfl⟩
  have hname : Expression (d + 1) .openArms [⟨.ident, x⟩] (.named (String.ofList x)) :=
    expression_of_primary (.named (.intro x))
  have hpattern : Expression (d + 1) braces [⟨.underscore, u⟩] (.type .any) :=
    expression_of_primary (.type (.word u rfl))
  have hbrace : Token.Kind.braceOpen ∉ afterExpression .openArms := by decide
  have harrow : Token.Kind.fatArrow ∉ afterExpression braces := by cases braces <;> decide
  refine ⟨fun hselect => ?_, fun hresult => ?_⟩
  · obtain ⟨us, vs, hvs, hscrutinee, harms⟩ :=
      (Operators.primary hselect nofun nofun rfl).of_select
    obtain ⟨_, vs, c'', rfl, hlisted⟩ := harms.exists_eq
    have harm := expression_append_inj hname hscrutinee hvs (stopsAt_cons.2 hbrace)
      (stopsAt_cons.2 hbrace)
    have hclose : (⟨.underscore, u⟩ :: ⟨.fatArrow, a⟩ :: ws) ++ [⟨.braceClose, c'⟩] =
        vs ++ [⟨.braceClose, c''⟩] := (List.cons.inj harm).2
    obtain rfl := (List.append_inj' hclose rfl).1
    obtain ⟨vs, left, hvs, harm, hleft⟩ := hlisted.exists_eq
    cases harm with
    | @intro us vs ws' _ _ _ a' hpattern' hbinding hresult =>
      cases hbinding
      have htokens := expression_append_inj hpattern hpattern'
        (hvs.trans (List.append_assoc us _ left)) (stopsAt_cons.2 harrow) (stopsAt_cons.2 harrow)
      obtain rfl : ws = ws' ++ left := (List.cons.inj htokens).2
      obtain rfl := eq_nil_of_comma h hresult hleft
      rwa [List.append_nil]
  · have harms : Listed (Arm (Expression (d + 1) braces)) (⟨.underscore, u⟩ :: ⟨.fatArrow, a⟩ :: ws)
        [.mk (.type .any) none e] := .last (.intro a hpattern .none hresult)
    exact expression_of_primary (.select m hname (.intro c c' harms))

end Enclosures

end Grammar

/-! ## Texts -/

namespace Token

theorem spellings_match (rest : List Char) : spellings ("match ".toList ++ rest) =
    ⟨.matchWord, "match".toList⟩ :: spellings rest := by
  have hblank : Breaks (' ' :: rest) := breaks_cons rfl (by decide) rest
  have hword : spellings ("match".toList ++ ' ' :: rest) =
      ⟨.matchWord, "match".toList⟩ :: spellings (' ' :: rest) :=
    spellings_word (c := 'm') rfl rfl hblank
  exact hword.trans (congrArg (List.cons _) (spellings_blank (c := ' ') rfl rest))

theorem spellings_match_parenthesis (rest : List Char) : spellings ("match (".toList ++ rest) =
    [⟨.matchWord, "match".toList⟩, ⟨.parenOpen, ['(']⟩] ++ spellings rest := by
  have hparen := spellings_mark '(' .parenOpen (by simp [marks]) rest
  exact (spellings_match ('(' :: rest)).trans (congrArg (List.cons _) hparen)

theorem spellings_match_call (rest : List Char) : spellings ("match f(".toList ++ rest) =
    [⟨.matchWord, "match".toList⟩, ⟨.ident, ['f']⟩, ⟨.parenOpen, ['(']⟩] ++ spellings rest := by
  have hparen := spellings_mark '(' .parenOpen (by simp [marks]) rest
  have hbreaks : Breaks ('(' :: rest) := breaks_cons rfl (by decide) rest
  have hname : spellings ('f' :: '(' :: rest) = ⟨.ident, ['f']⟩ :: spellings ('(' :: rest) :=
    spellings_word (c := 'f') rfl List.all_nil hbreaks
  rw [hparen] at hname
  exact (spellings_match ('f' :: '(' :: rest)).trans (congrArg (List.cons _) hname)

theorem spellings_match_match (rest : List Char) :
    spellings ("match match x \x7b _ => ".toList ++ rest) =
      [⟨.matchWord, "match".toList⟩, ⟨.matchWord, "match".toList⟩, ⟨.ident, ['x']⟩,
        ⟨.braceOpen, ['\x7b']⟩, ⟨.underscore, ['_']⟩, ⟨.fatArrow, ['=', '>']⟩] ++
          spellings rest := by
  have harrow : spellings ("=> ".toList ++ rest) = ⟨.fatArrow, ['=', '>']⟩ :: spellings rest :=
    (spellings_arrow (' ' :: rest)).trans
      (congrArg (List.cons _) (spellings_blank (c := ' ') rfl rest))
  have hany : spellings ("_ => ".toList ++ rest) = ⟨.underscore, ['_']⟩ ::
      ⟨.fatArrow, ['=', '>']⟩ :: spellings rest := by
    have hfirst : first '_' (" => ".toList ++ rest) = (.token .underscore, 0) := rfl
    have hblank := spellings_blank (c := ' ') rfl ("=> ".toList ++ rest)
    exact (spellings_of_token hfirst).trans (congrArg (List.cons _) (hblank.trans harrow))
  have hbrace : spellings ("\x7b _ => ".toList ++ rest) = ⟨.braceOpen, ['\x7b']⟩ ::
      ⟨.underscore, ['_']⟩ :: ⟨.fatArrow, ['=', '>']⟩ :: spellings rest := by
    have hmark := spellings_mark '\x7b' .braceOpen (by simp [marks]) (" _ => ".toList ++ rest)
    have hblank := spellings_blank (c := ' ') rfl ("_ => ".toList ++ rest)
    exact hmark.trans (congrArg (List.cons _) (hblank.trans hany))
  have hname : spellings ("x \x7b _ => ".toList ++ rest) = ⟨.ident, ['x']⟩ ::
      ⟨.braceOpen, ['\x7b']⟩ :: ⟨.underscore, ['_']⟩ :: ⟨.fatArrow, ['=', '>']⟩ ::
        spellings rest := by
    have hbreaks : Breaks (" \x7b _ => ".toList ++ rest) := breaks_cons rfl (by decide) _
    have hword : spellings ('x' :: " \x7b _ => ".toList ++ rest) =
        ⟨.ident, ['x']⟩ :: spellings (" \x7b _ => ".toList ++ rest) :=
      spellings_word (c := 'x') rfl List.all_nil hbreaks
    have hblank := spellings_blank (c := ' ') rfl ("\x7b _ => ".toList ++ rest)
    exact hword.trans (congrArg (List.cons _) (hblank.trans hbrace))
  have hmatch := (spellings_match ("x \x7b _ => ".toList ++ rest)).trans
    (congrArg (List.cons _) hname)
  exact (spellings_match ("match x \x7b _ => ".toList ++ rest)).trans
    (congrArg (List.cons _) hmatch)

/-- What a text is cut into that stands between others, before a newline. -/
theorem spellings_between {opening : List Char} (closing : List Char) {us vs : List Spelling}
    {s : Spelling} {source : String}
    (hopening : ∀ rest, spellings (opening ++ rest) = us ++ spellings rest)
    (hknown : ∀ s ∈ spellings source.toList, s.kind ≠ .garbage)
    (hclosing : spellings closing = s :: vs) :
    spellings (opening ++ (source.toList ++ '\n' :: closing)) =
      us ++ (spellings source.toList ++ [s] ++ vs) := by
  rw [hopening, spellings_newline hknown, hclosing, List.append_cons]

end Token

namespace Expr

/-- An expression between parentheses in a scrutinee is read as it is on its own. As the argument of
a call there, or as the result of a selection there, it is read so exactly if braces need not open
fields in it, as when it has no record instance. -/
theorem parse_enclosed {depth : ℕ} {source : String} {e : Expr}
    (h : Grammar.Expression depth .openFields (Token.spellings source.toList) e)
    (hdepth : depth + 2 ≤ Syntax.maxDepth) :
    Expr.parse source = .ok e ∧
    Expr.parse ("match (" ++ source ++ "\n) \x7b\x7d") = .ok (.select e []) ∧
    (Expr.parse ("match f(" ++ source ++ "\n) \x7b\x7d") = .ok (.select (.call "f" [e]) []) ↔
      Grammar.Expression (Syntax.maxDepth - 2) .openArms (Token.spellings source.toList) e) ∧
    (Expr.parse ("match match x \x7b _ => " ++ source ++ "\n\x7d \x7b\x7d") =
        .ok (.select (.select (.named "x") [.mk (.type .any) none e]) []) ↔
      Grammar.Expression (Syntax.maxDepth - 2) .openArms (Token.spellings source.toList) e) ∧
    (e.instanceDepth = 0 →
      Grammar.Expression (Syntax.maxDepth - 2) .openArms (Token.spellings source.toList) e) := by
  have hknown := Grammar.clean_expression _ _ _ _ h
  obtain ⟨d, hmax⟩ : ∃ d, Syntax.maxDepth = d + 1 + 1 := ⟨254, rfl⟩
  have hinner : Grammar.Expression d .openFields (Token.spellings source.toList) e :=
    Grammar.expression_mono h (by omega)
  -- What follows the expression, after the newline.
  let closing := ") \x7b\x7d".toList
  have hparenthesis := Token.spellings_between closing Token.spellings_match_parenthesis hknown rfl
  have hcall := Token.spellings_between closing Token.spellings_match_call hknown rfl
  have hmatch := Token.spellings_between "\x7d \x7b\x7d".toList Token.spellings_match_match hknown
    rfl
  have htext : ∀ opening closing : String, (opening ++ source ++ closing).toList =
      opening.toList ++ (source.toList ++ closing.toList) := by simp
  have hclosing : "\n) \x7b\x7d".toList = '\n' :: closing := rfl
  have hclosing' : "\n\x7d \x7b\x7d".toList = '\n' :: "\x7d \x7b\x7d".toList := rfl
  simp only [parse_eq_ok_iff, htext, hclosing, hclosing', hparenthesis, hcall, hmatch]
  rw [hmax, Nat.add_sub_cancel (n := d) (m := 2)]
  refine ⟨Grammar.expression_mono hinner (Nat.le_add_right d 2), ?_, ?_, ?_, fun he =>
    Grammar.expression_openArms hinner he⟩
  · exact (Grammar.expression_select_iff _ _).2 (Grammar.expression_parenthesized _ _ hinner)
  · exact (Grammar.expression_select_iff _ _).trans (Grammar.expression_call_iff _ _ hinner)
  · exact (Grammar.expression_select_iff _ _).trans (Grammar.expression_arm_iff _ _ hinner)

/-- The parser can be asked how deep an expression nests. -/
theorem expression_of_read {depth : ℕ} {source : String} {e : Expr}
    (h : (Syntax.expression depth .openFields source.utf8ByteSize (Token.lex source)).toOption.map
      (fun read => (read.1, read.2.1)) = some (e, [])) :
    Grammar.Expression depth .openFields (Token.spellings source.toList) e := by
  generalize hread : Syntax.expression depth .openFields source.utf8ByteSize (Token.lex source) =
    result at h
  rcases result with _ | ⟨e', rest⟩
  · cases h
  · obtain ⟨rfl, hrest⟩ : e' = e ∧ rest.1 = [] := Prod.mk.inj (Option.some.inj h)
    obtain ⟨ws, hws, hphrase⟩ := Syntax.takes_expression _ _ _ _ _ _ hread
    rw [hrest, List.map_nil, List.append_nil] at hws
    rwa [Token.spellings, ← Token.lex, hws]

/-- The comment ends before the parenthesis that closes. -/
theorem parse_enclosed_record :
    let e : Expr := .instantiate "P" [("x", .type (.literal .one))]
    Grammar.Expression 2 .openFields (Token.spellings "P \x7b x: 1 \x7d // one".toList) e ∧
      2 + 2 ≤ Syntax.maxDepth ∧
      Expr.parse ("match (" ++ "P \x7b x: 1 \x7d // one" ++ "\n) \x7b\x7d") =
        .ok (.select e []) := by
  intro e
  have h : Grammar.Expression 2 .openFields (Token.spellings "P \x7b x: 1 \x7d // one".toList) e :=
    expression_of_read (by decide +kernel)
  exact ⟨h, by decide, (parse_enclosed h (by decide)).2.1⟩

/-- A record instance is no argument in a scrutinee, and no result of a selection there. -/
theorem not_parse_enclosed : ¬∀ source e,
    Grammar.Expression 199 .openFields (Token.spellings source.toList) e →
      Expr.parse ("match (" ++ source ++ "\n) \x7b\x7d") = .ok (.select e []) ∧
      Expr.parse ("match f(" ++ source ++ "\n) \x7b\x7d") = .ok (.select (.call "f" [e]) []) ∧
      Expr.parse ("match match x \x7b _ => " ++ source ++ "\n\x7d \x7b\x7d") =
        .ok (.select (.select (.named "x") [.mk (.type .any) none e]) []) := by
  intro h
  obtain ⟨-, hcall, -⟩ := h "P \x7b x: 1 \x7d" (.instantiate "P" [("x", .type (.literal .one))])
    (expression_of_read (by decide +kernel))
  have hrefused : (Expr.parse "match f(P \x7b x: 1 \x7d\n) \x7b\x7d").toOption = none := by
    decide +kernel
  rw [show "match f(P \x7b x: 1 \x7d\n) \x7b\x7d" =
    "match f(" ++ "P \x7b x: 1 \x7d" ++ "\n) \x7b\x7d" from rfl, hcall] at hrefused
  cases hrefused

end Expr

end FlowTypes
