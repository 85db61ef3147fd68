import FlowTypes.Syntax.Definitions
import Mathlib.Data.List.Basic

/-!
# The places of errors

An error has a place in the source text, and there are four kinds of places (`Blamed`) : the end of
the text, a token, all from the start of one token to the end of a later one, and an escape in a
text literal. `Parser.Blames` says that the errors of a parser are in such places, among the tokens
it is given and some it has seen before. It is composed as parsers are, so there is one lemma for
each combinator and one for each rule. Where a place is made of tokens that were taken before,
`Parser.Gives` tells which these are.

The results are for expressions (`Syntax.blames_completeExpression`) and for registries, where a
refused definition is an error at its name (`Registry.blamed_of_addTokens`).
-/

namespace FlowTypes

/-! ## Places -/

/-- The places of errors. -/
inductive Blamed (sourceLength : ℕ) (ts : List Token) : Span → Prop
  | atEnd : Blamed sourceLength ts ⟨sourceLength, sourceLength⟩
  | token {t : Token} (ht : t ∈ ts) : Blamed sourceLength ts t.span
  | between {t u : Token} (h : [t, u].Sublist ts) : Blamed sourceLength ts ⟨t.start, u.stop⟩
  | escape {t : Token} {i j : ℕ} (ht : t ∈ ts) (hkind : t.kind = .string)
      (h : Quoted.unescape (t.start + 1) (t.text.drop 1).dropLast = .error (i, j)) :
      Blamed sourceLength ts ⟨i, j⟩

theorem Blamed.mono {n : ℕ} {ts us : List Token} {span : Span} (h : Blamed n ts span)
    (hts : ts.Sublist us) : Blamed n us span := by
  cases h with
  | atEnd => exact .atEnd
  | token ht => exact .token (hts.subset ht)
  | between h => exact .between (h.trans hts)
  | escape ht hkind h => exact .escape (hts.subset ht) hkind h

namespace Parser

variable {α β : Type} {p : Parser α} {f : α → Parser β} {seen : List Token}
  {R : List Token → α → Prop} {Q : List Token → β → Prop}

/-! ## What parsers take -/

/-- Is the result one that belongs to the tokens taken? -/
def Gives (R : List Token → α → Prop) (p : Parser α) : Prop :=
  ∀ n ts a rest, p n ts = .ok (a, rest) → ∃ us, ts = us ++ rest.1 ∧ R us a

/-- What is left are the last tokens, whatever the parser. -/
theorem gives_any (p : Parser α) : Gives (fun _ _ => True) p := by
  rintro n ts a ⟨rest, us, hus⟩ -
  exact ⟨us, hus.symm, trivial⟩

theorem Gives.pure {a : α} (h : R [] a) : Gives R (Pure.pure a : Parser α) := by
  intro n ts b rest hb
  cases hb
  exact ⟨[], rfl, h⟩

theorem Gives.mono {S : List Token → α → Prop} (hp : Gives R p) (h : ∀ us a, R us a → S us a) :
    Gives S p := by
  intro n ts a rest ha
  obtain ⟨us, hus, hr⟩ := hp n ts a rest ha
  exact ⟨us, hus, h us a hr⟩

theorem bind_eq_ok {n : ℕ} {ts : List Token} {b : β} {rest : Rest ts}
    (h : (p >>= f) n ts = .ok (b, rest)) : ∃ a left rest', p n ts = .ok (a, left) ∧
      f a n left.1 = .ok (b, rest') ∧ rest'.1 = rest.1 := by
  change Parser.bind p f n ts = _ at h
  unfold Parser.bind at h
  split at h
  · cases h
  · next a left _ ha =>
    split at h
    · cases h
    · next hb =>
      cases h
      exact ⟨a, _, _, ha, hb, rfl⟩

theorem bind_eq_error {n : ℕ} {ts : List Token} {e : SyntaxError} (h : (p >>= f) n ts = .error e) :
    p n ts = .error e ∨ ∃ a left, p n ts = .ok (a, left) ∧ f a n left.1 = .error e := by
  change Parser.bind p f n ts = _ at h
  unfold Parser.bind at h
  split at h
  · next he =>
    cases h
    exact .inl he
  · next a left hleft ha =>
    split at h
    · next hb =>
      cases h
      exact .inr ⟨a, ⟨left, hleft⟩, ha, hb⟩
    · cases h

theorem Gives.bind (hp : Gives R p)
    (hf : ∀ us a, R us a → Gives (fun vs b => Q (us ++ vs) b) (f a)) : Gives Q (p >>= f) := by
  intro n ts b rest h
  obtain ⟨a, left, rest', ha, hb, hrest⟩ := bind_eq_ok h
  obtain ⟨us, hus, hr⟩ := hp n ts a left ha
  obtain ⟨vs, hvs, hq⟩ := hf us a hr n left.1 b rest' hb
  exact ⟨us ++ vs, by rw [List.append_assoc, ← hrest, ← hvs]; exact hus, hq⟩

/-- A parser of which no more is asked, before another one. -/
theorem Gives.then (hf : ∀ a us, Gives (fun vs b => Q (us ++ vs) b) (f a)) : Gives Q (p >>= f) :=
  (gives_any p).bind fun us a _ => hf a us

theorem Gives.failAt (span : Span) (problem : SyntaxError.Problem) :
    Gives R (failAt span problem) :=
  nofun

theorem Gives.unexpected (expected : SyntaxError.Expectation) : Gives R (unexpected expected) :=
  nofun

theorem gives_expect (kind : Token.Kind) :
    Gives (fun us t => us = [t] ∧ t.kind = kind) (expect kind) := by
  intro n ts t rest h
  unfold expect at h
  split at h
  · cases h
  · split at h
    · next hkind =>
      cases h
      exact ⟨[t], rfl, rfl, hkind⟩
    · cases h

theorem gives_name : Gives (fun us name => ∃ t, us = [t] ∧ name.2 = t.span) name :=
  (gives_expect .ident).bind fun _ t h => Gives.pure ⟨t, by rw [h.1]; rfl, rfl⟩

/-! ## What parsers blame -/

/-- Is every error in a place among the tokens seen before and those given? -/
def Blames (seen : List Token) (p : Parser α) : Prop :=
  ∀ n ts e, p n ts = .error e → Blamed n (seen ++ ts) e.span

theorem Blames.see (hp : Blames [] p) (seen : List Token) : Blames seen p :=
  fun n ts e he => (hp n ts e he).mono (List.sublist_append_right seen ts)

theorem Blames.pure (a : α) : Blames seen (Pure.pure a : Parser α) := by
  intro n ts e he
  cases he

theorem Blames.failAt {span : Span} {problem : SyntaxError.Problem}
    (h : ∀ n ts, Blamed n (seen ++ ts) span) : Blames seen (failAt span problem : Parser α) := by
  intro n ts e he
  cases he
  exact h n ts

/-- A parser after one that takes certain tokens. -/
theorem Blames.bind_of (hp : Blames seen p) (hgives : Gives R p)
    (hf : ∀ us a, R us a → Blames (seen ++ us) (f a)) : Blames seen (p >>= f) := by
  intro n ts e h
  obtain he | ⟨a, left, ha, he⟩ := bind_eq_error h
  · exact hp n ts e he
  · obtain ⟨us, hus, hr⟩ := hgives n ts a left ha
    have hblamed := hf us a hr n left.1 e he
    rwa [List.append_assoc, ← hus] at hblamed

theorem Blames.bind (hp : Blames seen p) (hf : ∀ a, Blames seen (f a)) : Blames seen (p >>= f) := by
  intro n ts e h
  obtain he | ⟨a, left, -, he⟩ := bind_eq_error h
  · exact hp n ts e he
  · exact (hf a n left.1 e he).mono (left.2.sublist.append_left seen)

theorem Blames.map {g : α → β} (hp : Blames seen p) : Blames seen (g <$> p) :=
  hp.bind fun a => Blames.pure (g a)

theorem blamed_here (n : ℕ) (ts : List Token) : Blamed n ts (here n ts) := by
  cases ts with
  | nil => exact .atEnd
  | cons t ts => exact .token List.mem_cons_self

theorem blames_unexpected (expected : SyntaxError.Expectation) :
    Blames seen (unexpected expected : Parser α) := by
  refine Blames.see (fun n ts e he => ?_) seen
  cases he
  exact blamed_here n ts

theorem blames_peek : Blames seen peek := by
  intro n ts e he
  cases he

theorem blames_position : Blames seen position := by
  intro n ts e he
  cases he

theorem blames_expect (kind : Token.Kind) : Blames seen (expect kind) := by
  intro n ts e he
  unfold expect at he
  split at he
  · exact blames_unexpected _ n [] e he
  · split at he
    · cases he
    · exact blames_unexpected _ n _ e he

theorem blames_accept (kind : Token.Kind) : Blames seen (accept kind) := by
  intro n ts e he
  unfold accept at he
  split at he
  · cases he
  · split at he <;> cases he

theorem blames_name : Blames seen name :=
  (blames_expect .ident).bind fun _ => Blames.pure _

theorem Blames.afterEach {separator : Token.Kind} (hp : Blames [] p) :
    Blames [] (afterEach separator p) := by
  intro n ts
  fun_induction Parser.afterEach separator p n ts with
  | case1 | case4 | case5 =>
    intro e h
    cases h
  | case2 t ts _ e he =>
    intro e' h
    cases h
    exact (hp n ts e he).mono (List.sublist_cons_self t ts)
  | case3 t ts _ a rest hrest _ _ e he ih =>
    intro e' h
    cases h
    exact (ih e he).mono (hrest.sublist.trans (List.sublist_cons_self t ts))

theorem Blames.commaSeparated {close : Token.Kind} (hp : Blames [] p) :
    Blames [] (commaSeparated close p) := by
  intro n ts
  fun_induction Parser.commaSeparated close p n ts with
  | case1 | case3 | case5 | case6 =>
    intro e h
    cases h
  | case2 ts _ e he =>
    intro e' h
    cases h
    exact hp n ts e he
  | case4 ts _ a t rest hrest _ _ _ e he ih =>
    intro e' h
    cases h
    exact (ih e he).mono ((List.sublist_cons_self t rest).trans hrest.sublist)

end Parser

/-! ## The rules of the parser -/

namespace Syntax

open FlowTypes.Parser

variable {seen : List Token} {inner : Parser Expr}

theorem blames_digits (negative : Bool) {t : Token} (ht : t ∈ seen) :
    Blames seen (digits negative t) := by
  unfold digits
  split
  · exact Blames.pure _
  · exact Blames.failAt fun n ts => .token (List.mem_append_left ts ht)

theorem gives_digits (negative : Bool) (t : Token) :
    Gives (fun us v => us = [] ∧ v.2 = t.stop) (digits negative t) := by
  unfold digits
  split
  · exact Gives.pure ⟨rfl, rfl⟩
  · exact Gives.failAt _ _

/-- A number goes up to the end of its last token. -/
theorem gives_number :
    Gives (fun us v => ∃ before t, us = before ++ [t] ∧ v.2 = t.stop) number := by
  refine Gives.then fun negative us => Gives.then fun next vs => ?_
  split
  · refine (gives_expect .number).bind fun _ t ht => (gives_digits negative t).mono fun ws v h => ?_
    obtain ⟨rfl, hv⟩ := h
    exact ⟨us ++ vs, t, by rw [ht.1, List.append_nil, List.append_assoc], hv⟩
  · refine (gives_expect .inf).bind fun _ t ht => Gives.pure ⟨us ++ vs, t, ?_, rfl⟩
    rw [ht.1, List.append_nil, List.append_assoc]
  · split
    · exact Gives.unexpected _
    · refine (gives_expect .nan).bind fun _ t ht => Gives.pure ⟨us ++ vs, t, ?_, rfl⟩
      rw [ht.1, List.append_nil, List.append_assoc]
  · exact Gives.unexpected _

theorem blames_number : Blames seen number := by
  refine (blames_accept .minus).bind fun negative => blames_peek.bind fun next => ?_
  split
  · refine (blames_expect .number).bind_of (gives_expect .number) fun us t ht => ?_
    exact blames_digits negative (by simp [ht.1])
  · exact (blames_expect .inf).bind fun _ => Blames.pure _
  · split
    · exact blames_unexpected _
    · exact (blames_expect .nan).bind fun _ => Blames.pure _
  · exact blames_unexpected _

theorem blames_checkBounds (lo hi : Binary64) {t u : Token} (h : [t, u].Sublist seen) :
    Blames seen (checkBounds lo hi ⟨t.start, u.stop⟩) := by
  unfold checkBounds
  split_ifs
  · exact Blames.failAt fun n ts => .between (h.trans (List.sublist_append_left seen ts))
  · exact Blames.failAt fun n ts => .between (h.trans (List.sublist_append_left seen ts))
  · exact Blames.pure ()

/-- What follows the first number of an interval, which starts with a token that was seen. -/
theorem blames_interval (lo : Binary64) {t : Token} (ht : t ∈ seen) :
    Blames seen (do
      if ← accept .dotDot then
        let (hi, stop) ← number
        checkBounds lo hi ⟨t.start, stop⟩
        return Expr.type (.interval lo hi)
      else return Expr.type (.literal lo)) := by
  refine (blames_accept .dotDot).bind fun isInterval => ?_
  split
  · refine blames_number.bind_of gives_number fun us ⟨hi, stop⟩ hhi => ?_
    obtain ⟨before, last, rfl, rfl⟩ := hhi
    have hends : [t, last].Sublist (seen ++ (before ++ [last])) :=
      (List.singleton_sublist.2 ht).append (List.sublist_append_right before [last])
    exact (blames_checkBounds lo hi hends).bind fun _ => Blames.pure _
  · exact Blames.pure _

theorem blames_numberOrInterval : Blames [] numberOrInterval := by
  intro n ts e h
  -- The place of the first token is taken before the number is read.
  obtain he | ⟨start, left, hstart, h⟩ := bind_eq_error h
  · exact blames_position n ts e he
  cases hstart
  obtain he | ⟨⟨lo, _⟩, left, hlo, h⟩ := bind_eq_error h
  · exact blames_number n ts e he
  obtain ⟨us, hus, before, last, hlast, -⟩ := gives_number n ts _ left hlo
  obtain ⟨t, more, rfl⟩ : ∃ t more, us = t :: more :=
    List.exists_cons_of_ne_nil (hlast ▸ List.concat_ne_nil last before)
  have hhere : here n ts = t.span := by rw [hus]; rfl
  rw [hhere] at h
  have hfirst : t ∈ t :: more := List.mem_cons_self
  have hblamed := blames_interval lo hfirst n left.1 e h
  rwa [← hus] at hblamed

theorem blames_integers : Blames [] integers := by
  refine (blames_expect .int).bind fun _ => blames_peek.bind fun next => ?_
  split
  · refine (blames_expect .parenOpen).bind_of (gives_expect .parenOpen) fun _ t ht => ?_
    refine blames_number.bind fun lo => (blames_expect .dotDot).bind fun _ =>
      blames_number.bind fun hi => ?_
    refine (blames_expect .parenClose).bind_of (gives_expect .parenClose) fun _ u hu => ?_
    refine (blames_checkBounds lo.1 hi.1 ?_).bind fun _ => Blames.pure _
    rw [ht.1, hu.1]
    exact List.Sublist.refl _
  · exact Blames.pure _

theorem blames_text : Blames [] text := by
  refine (blames_expect .string).bind_of (gives_expect .string) fun us t ht => ?_
  split
  · exact Blames.pure _
  · next i j h => exact Blames.failAt fun n ts => .escape (by simp [ht.1]) ht.2 h

theorem blames_word (kind : Token.Kind) (t : Ty) : Blames [] (word kind t) :=
  (blames_expect kind).bind fun _ => Blames.pure _

theorem blames_field (hinner : Blames [] inner) : Blames [] (field inner) :=
  blames_name.bind fun _ => (blames_expect .colon).bind fun _ => hinner.bind fun _ => Blames.pure _

theorem blames_fields (hinner : Blames [] inner) : Blames [] (fields inner) :=
  (blames_expect .braceOpen).bind fun _ => (blames_field hinner).commaSeparated.bind fun _ =>
    (blames_expect .braceClose).bind fun _ => Blames.pure _

theorem blames_named (hinner : Blames [] inner) (braces : Braces) :
    Blames [] (named inner braces) := by
  refine blames_name.bind fun _ => (blames_accept .parenOpen).bind fun isCall => ?_
  split
  · exact hinner.commaSeparated.bind fun _ => (blames_expect .parenClose).bind fun _ =>
      Blames.pure _
  · refine blames_peek.bind fun next => ?_
    split
    · exact (blames_fields hinner).bind fun _ => Blames.pure _
    · exact Blames.pure _

theorem blames_arm (hinner : Blames [] inner) : Blames [] (arm inner) := by
  refine hinner.bind fun _ => (blames_accept .asWord).bind fun isBound => ?_
  have hrest : ∀ pattern binding, Blames [] (do
      let _ ← expect .fatArrow
      return Arm.mk pattern binding (← inner)) := fun _ _ =>
    (blames_expect .fatArrow).bind fun _ => hinner.bind fun _ => Blames.pure _
  split
  · exact blames_name.map.map.bind fun _ => hrest _ _
  · exact (Blames.pure _).bind fun _ => hrest _ _

theorem blames_joined (join : List Expr → Expr) (separator : Token.Kind)
    (hinner : Blames [] inner) : Blames [] (joined join separator inner) := by
  refine hinner.bind fun _ => hinner.afterEach.bind fun more => ?_
  split
  · exact Blames.pure _
  · exact Blames.pure _

section Rules

variable {inner : Braces → Parser Expr} (hinner : ∀ braces, Blames [] (inner braces))
  (braces : Braces)
include hinner

theorem blames_selection : Blames [] (selection inner braces) :=
  (blames_expect .matchWord).bind fun _ => (hinner _).bind fun _ => (blames_expect .braceOpen).bind
    fun _ => (blames_arm (hinner braces)).commaSeparated.bind fun _ =>
      (blames_expect .braceClose).bind fun _ => Blames.pure _

theorem blames_parenthesized : Blames [] (parenthesized inner) :=
  (blames_expect .parenOpen).bind fun _ => (hinner _).bind fun _ =>
    (blames_expect .parenClose).bind fun _ => Blames.pure _

theorem blames_primary : Blames [] (primary inner braces) := by
  refine blames_peek.bind fun next => ?_
  split
  · exact blames_numberOrInterval
  · exact blames_numberOrInterval
  · exact blames_numberOrInterval
  · exact blames_numberOrInterval
  · exact blames_text
  · exact blames_integers
  · exact blames_word _ _
  · exact blames_word _ _
  · exact blames_word _ _
  · exact blames_word _ _
  · exact blames_word _ _
  · exact blames_selection hinner braces
  · exact blames_named (hinner braces) braces
  · exact blames_parenthesized hinner
  · exact blames_unexpected _

theorem blames_operators : Blames [] (operators inner braces) :=
  blames_joined _ _ (blames_joined _ _ ((blames_primary hinner braces).bind fun _ =>
    blames_name.afterEach.bind fun _ => Blames.pure _))

end Rules

theorem blames_expression : ∀ (depth : ℕ) (braces : Braces), Blames [] (expression depth braces)
  | 0, _ => fun n ts e he => by
    cases he
    exact blamed_here n ts
  | depth + 1, braces => blames_operators (blames_expression depth) braces

theorem blames_completeExpression : Blames [] completeExpression := by
  refine (blames_expression _ _).bind fun e => blames_peek.bind fun next => ?_
  split
  · exact Blames.pure e
  · exact blames_unexpected _

/-- Where the name of the definition stands. -/
def Definition.span : Definition → Span
  | ofStruct _ span _ | ofAlias _ span _ => span

section Definitions

variable {kind : Token.Kind} {definition : Parser Definition}

theorem blames_definition (h : announced? kind = some definition) : Blames [] definition := by
  unfold announced? at h
  split at h <;> cases h
  · refine blames_name.bind fun _ => (blames_accept .semicolon).bind fun isUnit => ?_
    split
    · exact Blames.pure _
    · exact (blames_fields (blames_expression _ _)).bind fun _ => Blames.pure _
  · exact blames_name.bind fun _ => (blames_expect .equals).bind fun _ =>
      (blames_expression _ _).bind fun _ => (blames_expect .semicolon).bind fun _ => Blames.pure _

/-- The name of a definition is one of its tokens. -/
theorem gives_definition (h : announced? kind = some definition) :
    Gives (fun us d => ∃ t ∈ us, d.span = t.span) definition := by
  unfold announced? at h
  split at h <;> cases h
  · refine gives_name.bind fun _ ⟨name, span⟩ ⟨t, hus, hspan⟩ => Gives.then fun isUnit us => ?_
    subst hus hspan
    split
    · exact Gives.pure ⟨t, List.mem_cons_self, rfl⟩
    · exact Gives.then fun fs vs => Gives.pure ⟨t, List.mem_cons_self, rfl⟩
  · refine gives_name.bind fun _ ⟨name, span⟩ ⟨t, hus, hspan⟩ => Gives.then fun _ _ =>
      Gives.then fun _ _ => Gives.then fun _ _ => Gives.pure ⟨t, ?_, hspan⟩
    subst hus
    exact List.mem_cons_self

end Definitions

end Syntax

/-- What a registry is filled from is to blame for its errors. -/
theorem Registry.blamed_of_addTokens {n : ℕ} {r : Registry} {ts : List Token} {e : SyntaxError}
    (h : (r.addTokens n ts).2 = some e) : Blamed n ts e.span := by
  fun_induction addTokens n r ts with
  | case1 => cases h
  | case2 r t rest =>
    cases h
    exact .token List.mem_cons_self
  | case3 r t rest definition hannounced e he =>
    cases h
    exact (Syntax.blames_definition hannounced n rest e he).mono (List.sublist_cons_self t rest)
  | case4 r t rest definition hannounced d rest' hsuffix hread e hadd =>
    cases h
    obtain ⟨us, hus, u, hu, hspan⟩ := Syntax.gives_definition hannounced n rest d _ hread
    have he : e.span = d.span := by
      cases d <;> exact span_of_mapError hadd
    rw [he, hspan, hus]
    exact .token (List.mem_cons_of_mem t (List.mem_append_left _ hu))
  | case5 r t rest _ _ d rest' hsuffix _ r' _ _ ih =>
    exact (ih h).mono (hsuffix.sublist.trans (List.sublist_cons_self t rest))
where
  /-- An error that is given a place is there. -/
  span_of_mapError {x : Except DefinitionError Registry} {e : SyntaxError} {span : Span}
      (h : x.mapError (fun reason => ⟨.refused reason, span⟩) = .error e) : e.span = span := by
    cases x <;> cases h
    rfl

end FlowTypes
