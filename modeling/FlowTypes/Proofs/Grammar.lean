import FlowTypes.Proofs.QuotedText
import FlowTypes.Syntax.Expression

/-!
# The grammar of expressions

What stretches of tokens can be read as, told by relations that know no order of trying and no
next token : each rule of the grammar is an inductive relation, and like the parser it is built from
it takes the relation for the expressions inside as a parameter. `Grammar.Expression depth` closes
the knot, for expressions that nest at most `depth` levels.

The parser keeps to the grammar : what it takes of the tokens can be read as its result
(`Syntax.takes_expression`). `Parser.Takes` is what a parser says of the tokens it takes and of its
result. It is composed as parsers are, so there is one lemma for each combinator and one for each
rule.

Where a token stands does not matter to the grammar, so the relations speak of the kinds of tokens
and of their characters, which are the `Token.Spelling`.
-/

namespace FlowTypes

/-- What a token is, apart from its place : its kind and its characters. -/
structure Token.Spelling where
  kind : Token.Kind
  text : List Char

/-- The kind and the characters of a token. -/
def Token.spelling (t : Token) : Token.Spelling := ⟨t.kind, t.text⟩

/-- The kinds and the characters of the tokens of a text. -/
def Token.spellings (cs : List Char) : List Token.Spelling :=
  (ofLexemes 0 [] (Lexeme.split cs)).map spelling

/-- What stretches of tokens can be read as. -/
abbrev Phrase (α : Type) := List Token.Spelling → α → Prop

namespace Grammar

open Syntax (Braces)

variable {α : Type}

/-! ## Repetition -/

/-- Something between two tokens of the given kinds. -/
inductive Enclosed (opening closing : Token.Kind) (item : Phrase α) : Phrase α
  | intro {ws : List Token.Spelling} {a : α} (cs ds : List Char) (h : item ws a) :
      Enclosed opening closing item (⟨opening, cs⟩ :: (ws ++ [⟨closing, ds⟩])) a

/-- Items, each after a separator. -/
inductive AfterEach (separator : Token.Kind) (item : Phrase α) : Phrase (List α)
  | nil : AfterEach separator item [] []
  | cons {ws vs : List Token.Spelling} {a : α} {as : List α} (cs : List Char) (h : item ws a)
      (hmore : AfterEach separator item vs as) :
      AfterEach separator item (⟨separator, cs⟩ :: (ws ++ vs)) (a :: as)

theorem AfterEach.map {β : Type} {separator : Token.Kind} {item : Phrase β} (f : α → β) :
    ∀ {ws : List Token.Spelling} {as : List α},
      AfterEach separator (fun ws a => item ws (f a)) ws as → AfterEach separator item ws (as.map f)
  | _, _, .nil => .nil
  | _, _, .cons cs h hmore => .cons cs h (hmore.map f)

/-- Items between commas, of which the last may be followed by one. -/
inductive Listed (item : Phrase α) : Phrase (List α)
  | nil : Listed item [] []
  | last {ws : List Token.Spelling} {a : α} (h : item ws a) : Listed item ws [a]
  | cons {ws vs : List Token.Spelling} {a : α} {as : List α} (cs : List Char) (h : item ws a)
      (hmore : Listed item vs as) : Listed item (ws ++ ⟨.comma, cs⟩ :: vs) (a :: as)

section Members

variable {item : Phrase α} {P : α → Prop}

/-- Every item is read from some of the tokens. -/
theorem AfterEach.forall_mem {separator : Token.Kind} : ∀ {ws : List Token.Spelling} {as : List α},
    AfterEach separator item ws as → (∀ vs a, vs ⊆ ws → item vs a → P a) → ∀ a ∈ as, P a
  | _, _, .nil, _ => List.forall_mem_nil _
  | _, _, .cons _ h hmore, hitem => List.forall_mem_cons.2 ⟨hitem _ _ (by simp) h,
      hmore.forall_mem fun vs a hvs => hitem vs a (List.Subset.trans hvs (by simp))⟩

theorem Listed.forall_mem : ∀ {ws : List Token.Spelling} {as : List α},
    Listed item ws as → (∀ vs a, vs ⊆ ws → item vs a → P a) → ∀ a ∈ as, P a
  | _, _, .nil, _ => List.forall_mem_nil _
  | _, _, .last h, hitem => List.forall_mem_singleton.2 (hitem _ _ (List.Subset.refl _) h)
  | _, _, .cons _ h hmore, hitem => List.forall_mem_cons.2 ⟨hitem _ _ (by simp) h,
      hmore.forall_mem fun vs a hvs => hitem vs a (List.Subset.trans hvs (by simp))⟩

end Members

/-! ## Numbers and types -/

/-- A sign or none. -/
inductive Sign : Phrase Bool
  | none : Sign [] false
  | minus (cs : List Char) : Sign [⟨.minus, cs⟩] true

/-- A number. NaN takes no sign. -/
inductive Number : Phrase Binary64
  | digits {ws : List Token.Spelling} {negative : Bool} {cs : List Char} {d : Decimal}
      (hsign : Sign ws negative) (hread : Decimal.read? cs = some d) :
      Number (ws ++ [⟨.number, cs⟩]) (d.toBinary64 negative)
  | infinity {ws : List Token.Spelling} {negative : Bool} (cs : List Char)
      (hsign : Sign ws negative) : Number (ws ++ [⟨.inf, cs⟩]) (.infinity negative)
  | nan (cs : List Char) : Number [⟨.nan, cs⟩] .nan

/-- Is there a number between the bounds? -/
structure Bounds (lo hi : Binary64) : Prop where
  lower : lo.isNaN = false
  upper : hi.isNaN = false
  ordered : ¬hi < lo

/-- Two numbers with two points between them. -/
inductive Range : Phrase (Binary64 × Binary64)
  | intro {ws vs : List Token.Spelling} {lo hi : Binary64} (cs : List Char) (hlo : Number ws lo)
      (hhi : Number vs hi) (hbounds : Bounds lo hi) : Range (ws ++ ⟨.dotDot, cs⟩ :: vs) (lo, hi)

/-- The type that a word stands for. -/
def wordType? : Token.Kind → Option Ty
  | .int => some .int
  | .numberWord => some .number
  | .stringWord => some .string
  | .never => some .never
  | .any | .underscore => some .any
  | _ => none

/-- A type that is written without operators and names. -/
inductive Atom : Phrase Ty
  | word {kind : Token.Kind} {t : Ty} (cs : List Char) (h : wordType? kind = some t) :
      Atom [⟨kind, cs⟩] t
  | literal {ws : List Token.Spelling} {v : Binary64} (h : Number ws v) : Atom ws (.literal v)
  | interval {ws : List Token.Spelling} {lo hi : Binary64} (h : Range ws (lo, hi)) :
      Atom ws (.interval lo hi)
  | integers {ws : List Token.Spelling} {lo hi : Binary64} (cs : List Char)
      (h : Enclosed .parenOpen .parenClose Range ws (lo, hi)) :
      Atom (⟨.int, cs⟩ :: ws) (.integers lo hi)
  | text {cs ds : List Char} (h : Quoted.unescape 0 (cs.drop 1).dropLast = .ok ds) :
      Atom [⟨.string, cs⟩] (.textLiteral (String.ofList ds))

/-! ## Expressions with expressions inside -/

/-- A name. -/
inductive Name : Phrase String
  | intro (cs : List Char) : Name [⟨.ident, cs⟩] (String.ofList cs)

/-- A field of a record. -/
inductive Field (inner : Phrase Expr) : Phrase (String × Expr)
  | intro {us ws : List Token.Spelling} {name : String} {e : Expr} (cs : List Char)
      (hname : Name us name) (h : inner ws e) : Field inner (us ++ ⟨.colon, cs⟩ :: ws) (name, e)

/-- A name for what an arm covers, or none. -/
inductive Binding : Phrase (Option String)
  | none : Binding [] none
  | some {us : List Token.Spelling} {name : String} (cs : List Char) (hname : Name us name) :
      Binding (⟨.asWord, cs⟩ :: us) (some name)

/-- An arm of a selection. -/
inductive Arm (inner : Phrase Expr) : Phrase FlowTypes.Arm
  | intro {us vs ws : List Token.Spelling} {pattern result : Expr} {binding : Option String}
      (cs : List Char) (hpattern : inner us pattern) (hbinding : Binding vs binding)
      (hresult : inner ws result) :
      Arm inner (us ++ (vs ++ ⟨.fatArrow, cs⟩ :: ws)) (.mk pattern binding result)

/-- An expression without operators. -/
inductive Primary (inner : Braces → Phrase Expr) (braces : Braces) : Phrase Expr
  | type {ws : List Token.Spelling} {t : Ty} (h : Atom ws t) : Primary inner braces ws (.type t)
  | named {ws : List Token.Spelling} {name : String} (h : Name ws name) :
      Primary inner braces ws (.named name)
  | call {us ws : List Token.Spelling} {name : String} {args : List Expr} (hname : Name us name)
      (hargs : Enclosed .parenOpen .parenClose (Listed (inner braces)) ws args) :
      Primary inner braces (us ++ ws) (.call name args)
  | instantiate {us ws : List Token.Spelling} {name : String} {fields : List (String × Expr)}
      (hbraces : braces = .openFields) (hname : Name us name)
      (hfields : Enclosed .braceOpen .braceClose (Listed (Field (inner braces))) ws fields) :
      Primary inner braces (us ++ ws) (.instantiate name fields)
  | select {us ws : List Token.Spelling} {scrutinee : Expr} {arms : List FlowTypes.Arm}
      (cs : List Char) (hscrutinee : inner .openArms us scrutinee)
      (harms : Enclosed .braceOpen .braceClose (Listed (Arm (inner braces))) ws arms) :
      Primary inner braces (⟨.matchWord, cs⟩ :: (us ++ ws)) (.select scrutinee arms)
  | parenthesized {ws : List Token.Spelling} {e : Expr}
      (h : Enclosed .parenOpen .parenClose (inner .openFields) ws e) : Primary inner braces ws e

/-- An expression and the fields that are taken of it, one of the other. -/
inductive Accesses (inner : Braces → Phrase Expr) (braces : Braces) : Phrase Expr
  | intro {ws vs : List Token.Spelling} {e : Expr} {names : List String}
      (h : Primary inner braces ws e) (hnames : AfterEach .dot Name vs names) :
      Accesses inner braces (ws ++ vs) (names.foldl .access e)

/-- One operand or several. -/
inductive Joined (join : List Expr → Expr) (separator : Token.Kind) (operand : Phrase Expr) :
    Phrase Expr
  | one {ws : List Token.Spelling} {e : Expr} (h : operand ws e) : Joined join separator operand ws e
  | several {ws vs : List Token.Spelling} {e : Expr} {es : List Expr} (h : operand ws e)
      (hmore : AfterEach separator operand vs es) (hes : es ≠ []) :
      Joined join separator operand (ws ++ vs) (join (e :: es))

/-- An expression with operators. -/
def Operators (inner : Braces → Phrase Expr) (braces : Braces) : Phrase Expr :=
  Joined .union .pipe (Joined .intersection .ampersand (Accesses inner braces))

/-- An expression in which expressions nest at most `depth` levels. -/
def Expression : (depth : ℕ) → Braces → Phrase Expr
  | 0, _ => fun _ _ => False
  | depth + 1, braces => Operators (Expression depth) braces

theorem Accesses.of_primary {inner : Braces → Phrase Expr} {braces : Braces}
    {ws : List Token.Spelling} {e : Expr} (h : Primary inner braces ws e) :
    Accesses inner braces ws e := by
  simpa using Accesses.intro h .nil

end Grammar

/-! ## What parsers take -/

namespace Parser

variable {α β : Type} {R : Phrase α} {Q : Phrase β} {p : Parser α}

/-- Can what the parser takes be read as its result, whenever it succeeds? -/
def Takes (R : Phrase α) (p : Parser α) : Prop :=
  ∀ n ts a rest, p n ts = .ok (a, rest) →
    ∃ ws, ts.map Token.spelling = ws ++ rest.1.map Token.spelling ∧ R ws a

theorem Takes.mono {S : Phrase α} (hp : Takes R p) (h : ∀ ws a, R ws a → S ws a) : Takes S p := by
  intro n ts a rest ha
  obtain ⟨ws, hws, hr⟩ := hp n ts a rest ha
  exact ⟨ws, hws, h ws a hr⟩

theorem Takes.pure {a : α} (h : R [] a) : Takes R (Pure.pure a : Parser α) := by
  intro n ts b rest hb
  cases hb
  exact ⟨[], rfl, h⟩

theorem Takes.bind {f : α → Parser β} (hp : Takes R p)
    (hf : ∀ ws a, R ws a → Takes (fun vs b => Q (ws ++ vs) b) (f a)) : Takes Q (p >>= f) := by
  intro n ts b rest h
  change Parser.bind p f n ts = _ at h
  unfold Parser.bind at h
  split at h
  · cases h
  · next a left _ ha =>
    split at h
    · cases h
    · next hb =>
      cases h
      obtain ⟨ws, hws, hr⟩ := hp n ts a _ ha
      obtain ⟨vs, hvs, hq⟩ := hf ws a hr n left _ _ hb
      exact ⟨ws ++ vs, by rw [hws, hvs, List.append_assoc], hq⟩

theorem Takes.map {f : α → β} (hp : Takes R p) : Takes (fun ws b => ∃ a, R ws a ∧ f a = b) (f <$> p) :=
  hp.bind fun ws a ha => Takes.pure ⟨a, by rwa [List.append_nil], rfl⟩

/-- Whatever a parser gives that takes nothing. -/
theorem Takes.then {f : α → Parser β} (hp : Takes (fun ws _ => ws = []) p)
    (hf : ∀ a, Takes Q (f a)) : Takes Q (p >>= f) :=
  hp.bind fun ws a h => by
    subst h
    exact hf a

theorem Takes.failAt (span : Span) (problem : SyntaxError.Problem) : Takes R (failAt span problem) :=
  nofun

theorem Takes.unexpected (expected : SyntaxError.Expectation) : Takes R (unexpected expected) :=
  nofun

theorem takes_peek : Takes (fun ws _ => ws = []) peek := by
  intro n ts a rest h
  cases h
  exact ⟨[], rfl, rfl⟩

theorem takes_position : Takes (fun ws _ => ws = []) position := by
  intro n ts a rest h
  cases h
  exact ⟨[], rfl, rfl⟩

theorem takes_expect (kind : Token.Kind) :
    Takes (fun ws t => t.kind = kind ∧ ws = [⟨kind, t.text⟩]) (expect kind) := by
  intro n ts a rest h
  unfold expect at h
  split at h
  · cases h
  · split at h
    · next hkind =>
      cases h
      exact ⟨[⟨kind, _⟩], by rw [List.map_cons, Token.spelling, hkind]; rfl, hkind, rfl⟩
    · cases h

theorem takes_accept (kind : Token.Kind) :
    Takes (fun ws taken => if taken then ∃ cs, ws = [⟨kind, cs⟩] else ws = []) (accept kind) := by
  intro n ts a rest h
  unfold accept at h
  split at h
  · cases h
    exact ⟨[], rfl, rfl⟩
  · split at h
    · next t _ hkind =>
      cases h
      exact ⟨[⟨kind, t.text⟩], by rw [List.map_cons, Token.spelling, hkind]; rfl, t.text, rfl⟩
    · cases h
      exact ⟨[], rfl, rfl⟩

theorem takes_name : Takes (fun ws name => Grammar.Name ws name.1) name := by
  refine (takes_expect .ident).bind fun ws t h => Takes.pure ?_
  rw [h.2]
  exact .intro t.text

theorem Takes.afterEach {separator : Token.Kind} {item : Parser α} (hitem : Takes R item) :
    Takes (Grammar.AfterEach separator R) (afterEach separator item) := by
  intro n ts
  fun_induction Parser.afterEach separator item n ts with
  | case1 | case5 =>
    rintro as rest h
    cases h
    exact ⟨[], rfl, .nil⟩
  | case2 | case3 => exact nofun
  | case4 t ts hkind a rest _ ha _ as rest' _ has ih =>
    rintro as' left h
    cases h
    obtain ⟨ws, hws, hr⟩ := hitem n _ a _ ha
    obtain ⟨vs, hvs, hmore⟩ := ih as _ has
    refine ⟨_, ?_, .cons t.text hr hmore⟩
    rw [List.map_cons, hws, hvs, Token.spelling, hkind, List.cons_append, List.append_assoc]

theorem Takes.commaSeparated {close : Token.Kind} {item : Parser α} (hitem : Takes R item) :
    Takes (Grammar.Listed R) (commaSeparated close item) := by
  intro n ts
  fun_induction Parser.commaSeparated close item n ts with
  | case1 =>
    rintro as rest h
    cases h
    exact ⟨[], rfl, .nil⟩
  | case2 | case4 => exact nofun
  | case3 ts _ a _ ha =>
    rintro as rest h
    cases h
    obtain ⟨ws, hws, hr⟩ := hitem n ts a _ ha
    exact ⟨ws, hws, .last hr⟩
  | case5 ts _ a t rest _ ha hkind _ as rest' _ has ih =>
    rintro as' left h
    cases h
    obtain ⟨ws, hws, hr⟩ := hitem n ts a _ ha
    obtain ⟨vs, hvs, hmore⟩ := ih as _ has
    refine ⟨_, ?_, .cons t.text hr hmore⟩
    rw [hws, List.map_cons, hvs, Token.spelling, hkind, List.append_assoc, List.cons_append]
  | case6 ts _ a t rest _ ha =>
    rintro as left h
    cases h
    obtain ⟨ws, hws, hr⟩ := hitem n ts a _ ha
    exact ⟨ws, hws, .last hr⟩

/-- Something that is read between two tokens. -/
theorem Takes.enclosed {opening closing : Token.Kind} {f : α → Parser β}
    (hp : Takes R p) (hf : ∀ a ws, Grammar.Enclosed opening closing R ws a → Takes
      (fun vs b => Q (ws ++ vs) b) (f a)) :
    Takes Q (do
      let _ ← expect opening
      let a ← p
      let _ ← expect closing
      f a) := by
  refine (takes_expect opening).bind fun _ t ht => hp.bind fun ws a ha =>
    (takes_expect closing).bind fun _ t' ht' => ?_
  obtain ⟨-, rfl⟩ := ht
  obtain ⟨-, rfl⟩ := ht'
  simpa using hf a _ (.intro t.text t'.text ha)

end Parser

/-! ## The rules of the parser -/

namespace Syntax

open FlowTypes.Parser (Takes takes_expect takes_accept takes_peek takes_position takes_name)

variable {inner : Parser Expr} {phrase : Phrase Expr}

theorem takes_sign : Takes Grammar.Sign (FlowTypes.Parser.accept .minus) := by
  refine (takes_accept .minus).mono fun ws negative h => ?_
  cases negative with
  | true =>
    obtain ⟨cs, rfl⟩ := h
    exact .minus cs
  | false =>
    obtain rfl : ws = [] := h
    exact .none

theorem takes_number : Takes (fun ws v => Grammar.Number ws v.1) number := by
  refine takes_sign.bind fun ws negative hsign => Takes.then takes_peek fun next => ?_
  split
  · refine (takes_expect .number).bind fun _ t ⟨_, ht⟩ => ?_
    subst ht
    unfold digits
    split
    · next d hd => exact Takes.pure (by simpa using .digits hsign hd)
    · exact Takes.failAt _ _
  · refine (takes_expect .inf).bind fun _ t ⟨_, ht⟩ => Takes.pure ?_
    subst ht
    simpa using .infinity t.text hsign
  · split
    · exact Takes.unexpected _
    · next hpositive =>
      refine (takes_expect .nan).bind fun _ t ⟨_, ht⟩ => Takes.pure ?_
      subst ht
      cases hsign with
      | none => exact .nan t.text
      | minus => exact absurd rfl hpositive
  · exact Takes.unexpected _

theorem takes_checkBounds (lo hi : Binary64) (span : Span) :
    Takes (fun ws _ => ws = [] ∧ Grammar.Bounds lo hi) (checkBounds lo hi span) := by
  unfold checkBounds
  split
  · exact Takes.failAt _ _
  · next hnan =>
    split
    · exact Takes.failAt _ _
    · next hordered =>
      simp only [Bool.or_eq_true, not_or, Bool.not_eq_true] at hnan
      exact Takes.pure ⟨rfl, hnan.1, hnan.2, hordered⟩

theorem takes_numberOrInterval :
    Takes (fun ws e => ∃ t, e = .type t ∧ Grammar.Atom ws t) numberOrInterval := by
  refine Takes.then takes_position fun start => takes_number.bind fun ws ⟨lo, _⟩ hlo =>
    (takes_accept .dotDot).bind fun vs isRange hdots => ?_
  split at hdots
  · next hrange =>
    obtain ⟨cs, rfl⟩ := hdots
    subst hrange
    refine takes_number.bind fun us ⟨hi, _⟩ hhi => (takes_checkBounds _ _ _).bind
      fun _ _ ⟨hnil, hbounds⟩ => Takes.pure ⟨_, rfl, ?_⟩
    subst hnil
    simpa using Grammar.Atom.interval (.intro cs hlo hhi hbounds)
  · next hrange =>
    subst hdots
    rw [if_neg hrange]
    exact Takes.pure ⟨_, rfl, by simpa using .literal hlo⟩

theorem takes_integers : Takes (fun ws e => ∃ t, e = .type t ∧ Grammar.Atom ws t) integers := by
  refine (takes_expect .int).bind fun _ t ⟨_, ht⟩ => Takes.then takes_peek fun next => ?_
  subst ht
  split
  · refine (takes_expect .parenOpen).bind fun _ o ⟨_, ho⟩ => takes_number.bind fun ws ⟨lo, _⟩ hlo =>
      (takes_expect .dotDot).bind fun _ dots ⟨_, hdots⟩ => takes_number.bind fun vs ⟨hi, _⟩ hhi =>
      (takes_expect .parenClose).bind fun _ c ⟨_, hc⟩ => (takes_checkBounds _ _ _).bind
      fun _ _ ⟨hnil, hbounds⟩ => Takes.pure ⟨_, rfl, ?_⟩
    subst ho hdots hc hnil
    simpa using Grammar.Atom.integers t.text (.intro o.text c.text (.intro dots.text hlo hhi hbounds))
  · exact Takes.pure ⟨_, rfl, .word t.text rfl⟩

theorem takes_text : Takes (fun ws e => ∃ t, e = .type t ∧ Grammar.Atom ws t) text := by
  refine (takes_expect .string).bind fun _ t ⟨_, ht⟩ => ?_
  subst ht
  split
  · next cs hcs => exact Takes.pure ⟨_, rfl, .text (Quoted.unescape_of_ok 0 hcs)⟩
  · exact Takes.failAt _ _

theorem takes_word {kind : Token.Kind} {t : Ty} (h : Grammar.wordType? kind = some t) :
    Takes (fun ws e => ∃ t, e = .type t ∧ Grammar.Atom ws t) (word kind t) :=
  (takes_expect kind).bind fun _ token ⟨_, htoken⟩ => by
    subst htoken
    exact Takes.pure ⟨_, rfl, .word token.text h⟩

theorem takes_field (hinner : Takes phrase inner) :
    Takes (Grammar.Field phrase) (field inner) := by
  refine takes_name.bind fun us ⟨name, _⟩ hname => (takes_expect .colon).bind fun _ t ⟨_, ht⟩ =>
    hinner.bind fun ws e he => Takes.pure ?_
  subst ht
  simpa using .intro t.text hname he

theorem takes_fields (hinner : Takes phrase inner) :
    Takes (Grammar.Enclosed .braceOpen .braceClose (Grammar.Listed (Grammar.Field phrase)))
      (fields inner) :=
  (takes_field hinner).commaSeparated.enclosed fun _ _ h => Takes.pure (by simpa using h)

theorem takes_named {phrase : Braces → Phrase Expr} {braces : Braces}
    (hinner : Takes (phrase braces) inner) :
    Takes (Grammar.Primary phrase braces) (named inner braces) := by
  refine takes_name.bind fun us ⟨name, _⟩ hname => (takes_accept .parenOpen).bind
    fun vs isCall hcall => ?_
  cases isCall with
  | true =>
    obtain ⟨cs, rfl⟩ := hcall
    refine hinner.commaSeparated.bind fun ws args hargs => (takes_expect .parenClose).bind
      fun _ t ⟨_, ht⟩ => Takes.pure ?_
    subst ht
    simpa using Grammar.Primary.call hname (.intro cs t.text hargs)
  | false =>
    obtain rfl : vs = [] := hcall
    refine Takes.then takes_peek fun next => ?_
    split
    · refine (takes_fields hinner).bind fun ws fs hfs => Takes.pure ?_
      simpa using Grammar.Primary.instantiate rfl hname hfs
    · exact Takes.pure (by simpa using Grammar.Primary.named hname)

theorem takes_arm (hinner : Takes phrase inner) : Takes (Grammar.Arm phrase) (arm inner) := by
  refine hinner.bind fun us pattern hpattern => (takes_accept .asWord).bind
    fun vs isBound hbound => ?_
  have hrest : ∀ {vs binding}, Grammar.Binding vs binding →
      Takes (fun ws a => Grammar.Arm phrase (us ++ (vs ++ ws)) a) (do
        let _ ← FlowTypes.Parser.expect .fatArrow
        return .mk pattern binding (← inner)) := by
    refine fun hbinding => (takes_expect .fatArrow).bind fun _ t ⟨_, ht⟩ =>
      hinner.bind fun ws result hresult => Takes.pure ?_
    subst ht
    simpa using Grammar.Arm.intro t.text hpattern hbinding hresult
  cases isBound with
  | true =>
    obtain ⟨cs, rfl⟩ := hbound
    simp only [if_true]
    refine takes_name.map.map.bind fun ws binding h => ?_
    obtain ⟨_, ⟨⟨name, _⟩, hname, rfl⟩, rfl⟩ := h
    simpa using hrest (.some cs hname)
  | false =>
    obtain rfl : vs = [] := hbound
    simp only [Bool.false_eq_true, if_false]
    exact (Takes.pure (R := Grammar.Binding) .none).bind fun _ _ h => hrest h

theorem takes_joined {join : List Expr → Expr} {separator : Token.Kind}
    (hinner : Takes phrase inner) :
    Takes (Grammar.Joined join separator phrase) (joined join separator inner) := by
  refine hinner.bind fun ws e he => hinner.afterEach.bind fun vs es hes => ?_
  split
  · cases hes
    exact Takes.pure (by simpa using .one he)
  · next hne => exact Takes.pure (by simpa using .several he hes hne)

section Rules

variable {inner : Braces → Parser Expr} {phrase : Braces → Phrase Expr}
  (hinner : ∀ braces, Takes (phrase braces) (inner braces)) (braces : Braces)
include hinner

theorem takes_selection : Takes (Grammar.Primary phrase braces) (selection inner braces) := by
  refine (takes_expect .matchWord).bind fun _ t ⟨_, ht⟩ => (hinner _).bind
    fun us scrutinee hscrutinee => (takes_arm (hinner braces)).commaSeparated.enclosed
      fun arms ws harms => Takes.pure ?_
  subst ht
  simpa using Grammar.Primary.select t.text hscrutinee harms

theorem takes_parenthesized : Takes (Grammar.Primary phrase braces) (parenthesized inner) :=
  (hinner _).enclosed fun e ws he => Takes.pure (by simpa using .parenthesized he)

theorem takes_primary : Takes (Grammar.Primary phrase braces) (primary inner braces) := by
  have htype : ∀ {p : Parser Expr}, Takes (fun ws e => ∃ t, e = .type t ∧ Grammar.Atom ws t) p →
      Takes (Grammar.Primary phrase braces) p := fun hp => hp.mono fun ws e h => by
    obtain ⟨t, rfl, ht⟩ := h
    exact .type ht
  refine Takes.then takes_peek fun next => ?_
  split
  · exact htype takes_numberOrInterval
  · exact htype takes_numberOrInterval
  · exact htype takes_numberOrInterval
  · exact htype takes_numberOrInterval
  · exact htype takes_text
  · exact htype takes_integers
  · exact htype (takes_word rfl)
  · exact htype (takes_word rfl)
  · exact htype (takes_word rfl)
  · exact htype (takes_word rfl)
  · exact htype (takes_word rfl)
  · exact takes_selection hinner braces
  · exact takes_named (hinner braces)
  · exact takes_parenthesized hinner braces
  · exact Takes.unexpected _

theorem takes_accesses : Takes (Grammar.Accesses phrase braces) (accesses inner braces) := by
  refine (takes_primary hinner braces).bind fun ws e he => takes_name.afterEach.bind
    fun vs names hnames => Takes.pure ?_
  simpa [List.foldl_map] using Grammar.Accesses.intro he (hnames.map Prod.fst)

theorem takes_operators : Takes (Grammar.Operators phrase braces) (operators inner braces) :=
  takes_joined (takes_joined (takes_accesses hinner braces))

end Rules

/-- What the parser takes of the tokens can be read as its result. -/
theorem takes_expression : ∀ (depth : ℕ) (braces : Braces),
    Takes (Grammar.Expression depth braces) (expression depth braces)
  | 0, _ => Takes.then takes_position fun _ => Takes.failAt _ _
  | depth + 1, braces => takes_operators (takes_expression depth) braces

end Syntax

end FlowTypes
