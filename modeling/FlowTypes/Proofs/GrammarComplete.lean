import FlowTypes.Proofs.Grammar

/-!
# The parser reads all of the grammar

A text is accepted exactly if its tokens can be read as an expression, and the result is what they
can be read as (`Expr.parse_eq_ok_iff`). That what is taken can be read is `Syntax.takes_expression`,
so it is left that the parser takes what can be read.

The parser never gives a token back. It reads a phrase only where no token comes next that would
belong to the phrase as well : after an expression that is an operator, a point, two points or an
opening parenthesis, and an opening brace where it opens fields (`Grammar.afterExpression`). Lists
end at a closing token, and no item starts with one (`Grammar.Starts`).

`Parser.Reads` says what a parser makes of given tokens, and what may come next. It is composed as
parsers are. `Syntax.Covers` says it of a parser and a rule of the grammar, and the induction is on
how deep expressions may nest (`Syntax.covers_expression`).
-/

namespace FlowTypes

namespace Grammar

/-- Is the next token, if there is one, of none of these kinds? -/
def StopsAt (kinds : List Token.Kind) (left : List Token.Spelling) : Prop :=
  ∀ s ∈ left.head?, s.kind ∉ kinds

/-- Is the first token one that does not close anything? -/
def Starts (ws : List Token.Spelling) : Prop :=
  ∃ s rest, ws = s :: rest ∧ s.kind ∉ [.parenClose, .braceClose]

/-- The tokens that, after an expression without operators, belong to it. -/
def afterPrimary : Syntax.Braces → List Token.Kind
  | .openFields => [.dotDot, .parenOpen, .braceOpen]
  | .openArms => [.dotDot, .parenOpen]

/-- The tokens that, after an expression, belong to it. -/
def afterExpression (braces : Syntax.Braces) : List Token.Kind :=
  .pipe :: .ampersand :: .dot :: afterPrimary braces

variable {kinds : List Token.Kind} {left ws : List Token.Spelling}

theorem stopsAt_cons {s : Token.Spelling} : StopsAt kinds (s :: left) ↔ s.kind ∉ kinds := by
  simp [StopsAt]

theorem StopsAt.mono {kinds' : List Token.Kind} (h : StopsAt kinds left) (hk : kinds' ⊆ kinds) :
    StopsAt kinds' left :=
  fun s hs hmem => h s hs (hk hmem)

/-- What stops the items, and is no separator, stops the items with what comes after them. -/
theorem AfterEach.stopsAt {α : Type} {separator : Token.Kind} {item : Phrase α} {as : List α}
    (h : AfterEach separator item ws as) (hsep : separator ∉ kinds)
    (hleft : StopsAt (separator :: kinds) left) : StopsAt kinds (ws ++ left) := by
  cases h with
  | nil => exact hleft.mono (List.subset_cons_self _ _)
  | cons => exact stopsAt_cons.2 hsep

/-! ## How phrases start -/

theorem Starts.append (h : Starts ws) (vs : List Token.Spelling) : Starts (ws ++ vs) := by
  obtain ⟨s, rest, rfl, hs⟩ := h
  exact ⟨s, rest ++ vs, rfl, hs⟩

theorem Number.start {v : Binary64} (h : Number ws v) :
    ∃ s rest, ws = s :: rest ∧ s.kind ∈ [.number, .minus, .inf, .nan] := by
  cases h with
  | digits hsign => cases hsign <;> exact ⟨_, _, rfl, by simp⟩
  | infinity cs hsign => cases hsign <;> exact ⟨_, _, rfl, by simp⟩
  | nan cs => exact ⟨_, _, rfl, by simp⟩

theorem Range.start {bounds : Binary64 × Binary64} (h : Range ws bounds) :
    ∃ s rest, ws = s :: rest ∧ s.kind ∈ [.number, .minus, .inf, .nan] := by
  cases h with
  | intro cs hlo =>
    obtain ⟨s, rest, rfl, hs⟩ := hlo.start
    exact ⟨s, _, rfl, hs⟩

theorem starts_of_number
    (h : ∃ s rest, ws = s :: rest ∧ s.kind ∈ [.number, .minus, .inf, .nan]) : Starts ws := by
  obtain ⟨s, rest, rfl, hs⟩ := h
  refine ⟨s, rest, rfl, fun hmem => ?_⟩
  revert hs hmem
  generalize s.kind = kind
  cases kind <;> decide

theorem Name.starts {name : String} (h : Name ws name) : Starts ws := by
  cases h
  exact ⟨_, _, rfl, by simp⟩

theorem Atom.starts {t : Ty} (h : Atom ws t) : Starts ws := by
  cases h with
  | word cs h =>
    refine ⟨_, _, rfl, fun hmem => ?_⟩
    simp only [List.mem_cons, List.not_mem_nil, or_false] at hmem
    rcases hmem with rfl | rfl <;> cases h
  | literal h => exact starts_of_number h.start
  | interval h => exact starts_of_number h.start
  | integers | text => exact ⟨_, _, rfl, by simp⟩

section Starts

variable {inner : Syntax.Braces → Phrase Expr} {braces : Syntax.Braces} {e : Expr}

theorem Primary.starts (h : Primary inner braces ws e) : Starts ws := by
  cases h with
  | type h => exact h.starts
  | named h => exact h.starts
  | call hname | instantiate _ hname => exact hname.starts.append _
  | select => exact ⟨_, _, rfl, by simp⟩
  | parenthesized h => cases h; exact ⟨_, _, rfl, by simp⟩

theorem Joined.starts {join : List Expr → Expr} {separator : Token.Kind} {operand : Phrase Expr}
    (hoperand : ∀ {ws e}, operand ws e → Starts ws) (h : Joined join separator operand ws e) :
    Starts ws := by
  cases h with
  | one h => exact hoperand h
  | several h => exact (hoperand h).append _

theorem Accesses.starts (h : Accesses inner braces ws e) : Starts ws := by
  cases h with
  | intro h => exact h.starts.append _

end Starts

end Grammar

open Grammar (StopsAt stopsAt_cons)

/-! ## What parsers read -/

namespace Parser

variable {α β : Type} {P : α → Prop} {Q : β → Prop} {p : Parser α} {f : α → Parser β}
  {ws vs : List Token.Spelling} {stop stop' : List Token.Spelling → Prop}

/-- Does the parser succeed on these tokens, with a result that satisfies `P`, and take no others,
if what is left satisfies `stop`? -/
def Reads (p : Parser α) (ws : List Token.Spelling) (stop : List Token.Spelling → Prop)
    (P : α → Prop) : Prop :=
  ∀ n ts left, ts.map Token.spelling = ws ++ left → stop left →
    ∃ a rest, p n ts = .ok (a, rest) ∧ P a ∧ rest.1.map Token.spelling = left

theorem Reads.mono {P' : α → Prop} (hp : Reads p ws stop P) (h : ∀ a, P a → P' a)
    (hstop : ∀ left, stop' left → stop left) : Reads p ws stop' P' := by
  intro n ts left hts hleft
  obtain ⟨a, rest, ha, hP, hrest⟩ := hp n ts left hts (hstop left hleft)
  exact ⟨a, rest, ha, h a hP, hrest⟩

/-- What is left may be fixed first. -/
theorem Reads.of_left (h : ∀ left, stop left → Reads p ws (· = left) P) : Reads p ws stop P :=
  fun n ts left hts hleft => h left hleft n ts left hts rfl

theorem Reads.pure {a : α} (h : P a) : Reads (Pure.pure a : Parser α) [] stop P :=
  fun _ ts _ hts _ => ⟨a, ⟨ts, List.suffix_refl ts⟩, rfl, h, hts⟩

theorem Reads.bind (hp : Reads p ws stop P) (hf : ∀ a, P a → Reads (f a) vs stop' Q)
    (hstop : ∀ left, stop' left → stop (vs ++ left)) : Reads (p >>= f) (ws ++ vs) stop' Q := by
  intro n ts left hts hleft
  rw [List.append_assoc] at hts
  obtain ⟨a, ⟨rest, hsuffix⟩, ha, hP, hrest⟩ := hp n ts (vs ++ left) hts (hstop left hleft)
  obtain ⟨b, rest', hb, hQ, hrest'⟩ := hf a hP n rest left hrest hleft
  refine ⟨b, ⟨rest'.1, rest'.2.trans hsuffix⟩, ?_, hQ, hrest'⟩
  change Parser.bind p f n ts = _
  unfold Parser.bind
  rw [ha]
  simp only [hb]

/-- A parser that does not mind what comes next, before another one. -/
theorem Reads.next (hp : Reads p ws (fun _ => True) P) (hf : ∀ a, P a → Reads (f a) vs stop Q) :
    Reads (p >>= f) (ws ++ vs) stop Q :=
  hp.bind hf fun _ _ => trivial

/-- A parser that takes nothing, before another one. -/
theorem Reads.then (hp : Reads p [] (fun _ => True) P) (hf : ∀ a, P a → Reads (f a) vs stop Q) :
    Reads (p >>= f) vs stop Q :=
  hp.next hf

/-- A parser after which nothing is taken. -/
theorem Reads.last (hp : Reads p ws stop P) (hf : ∀ a, P a → Reads (f a) [] stop Q) :
    Reads (p >>= f) ws stop Q := by
  rw [← List.append_nil ws]
  exact hp.bind hf fun _ h => h

theorem Reads.map {g : α → β} (hp : Reads p ws stop P) :
    Reads (g <$> p) ws stop (fun b => ∃ a, P a ∧ g a = b) :=
  hp.last fun a ha => Reads.pure ⟨a, ha, rfl⟩

theorem reads_position : Reads position [] stop fun _ => True :=
  fun _ ts _ hts _ => ⟨_, ⟨ts, List.suffix_refl ts⟩, rfl, trivial, hts⟩

/-- The next token is looked at. -/
theorem Reads.peek {f : Option Token.Kind → Parser β}
    (hf : ∀ left, stop left → Reads (f ((ws ++ left).head?.map (·.kind))) ws (· = left) Q) :
    Reads (peek >>= f) ws stop Q := by
  refine Reads.of_left fun left hleft n ts left' hts he => ?_
  subst he
  have hhead : ts.head?.map (·.kind) = (ws ++ left').head?.map (·.kind) := by
    rw [← hts, List.head?_map, Option.map_map]
    rfl
  obtain ⟨b, rest, hb, hQ, hrest⟩ := hf left' hleft n ts left' hts rfl
  refine ⟨b, rest, ?_, hQ, hrest⟩
  change Parser.bind Parser.peek f n ts = _
  unfold Parser.bind Parser.peek
  simp only [hhead, hb]

/-- The next token is looked at, and there is one. -/
theorem Reads.peek_cons {f : Option Token.Kind → Parser β} {s : Token.Spelling}
    (hf : Reads (f (some s.kind)) (s :: ws) stop Q) : Reads (Parser.peek >>= f) (s :: ws) stop Q :=
  Reads.peek fun _ hleft => hf.mono (fun _ h => h) fun _ he => he ▸ hleft

theorem reads_expect (kind : Token.Kind) (cs : List Char) :
    Reads (expect kind) [⟨kind, cs⟩] stop fun t => t.text = cs := by
  intro n ts left hts _
  obtain ⟨t, rest, rfl, ht, hrest⟩ := List.map_eq_cons_iff.1 hts
  cases ht
  exact ⟨t, ⟨rest, List.suffix_cons t rest⟩, if_pos rfl, rfl, hrest⟩

/-- A token of the given kind is expected. -/
theorem Reads.expect {kind : Token.Kind} {cs : List Char} {f : Token → Parser β}
    (hf : ∀ t, t.text = cs → Reads (f t) ws stop Q) :
    Reads (expect kind >>= f) (⟨kind, cs⟩ :: ws) stop Q :=
  (reads_expect kind cs).next hf

/-- A token of the given kind is accepted. -/
theorem Reads.accept {kind : Token.Kind} {cs : List Char} {f : Bool → Parser β}
    (hf : Reads (f true) ws stop Q) : Reads (accept kind >>= f) (⟨kind, cs⟩ :: ws) stop Q := by
  have haccept : Reads (Parser.accept kind) [⟨kind, cs⟩] (fun _ => True) (· = true) := by
    intro n ts left hts _
    obtain ⟨t, rest, rfl, ht, hrest⟩ := List.map_eq_cons_iff.1 hts
    cases ht
    exact ⟨true, ⟨rest, List.suffix_cons t rest⟩, if_pos rfl, rfl, hrest⟩
  exact haccept.next fun a ha => ha ▸ hf

/-- The next token is of another kind than the one that would be accepted. -/
theorem Reads.accept_not {kind : Token.Kind} {f : Bool → Parser β}
    (hstop : ∀ left, stop left → StopsAt [kind] (ws ++ left)) (hf : Reads (f false) ws stop Q) :
    Reads (Parser.accept kind >>= f) ws stop Q := by
  have haccept : Reads (Parser.accept kind) [] (StopsAt [kind]) (· = false) := by
    intro n ts left hts hleft
    cases ts with
    | nil => exact ⟨false, ⟨[], List.suffix_refl []⟩, rfl, rfl, hts⟩
    | cons t rest =>
      have hne : t.kind ≠ kind := by
        have := hleft t.spelling (by rw [← List.nil_append left, ← hts]; rfl)
        simpa [Token.spelling] using this
      exact ⟨false, ⟨t :: rest, List.suffix_refl _⟩, if_neg hne, rfl, hts⟩
  exact haccept.bind (fun a ha => ha ▸ hf) hstop

theorem reads_name {name : String} (h : Grammar.Name ws name) :
    Reads Parser.name ws stop fun read => read.1 = name := by
  cases h with
  | intro cs => exact Reads.expect fun t ht => Reads.pure (by rw [← ht]; rfl)

section Repetition

variable {item : Parser α} {R : Phrase β} {kinds : List Token.Kind}

theorem reads_afterEach {g : α → β} {separator : Token.Kind} (hsep : separator ∉ kinds)
    (hitem : ∀ {ws b}, R ws b → Reads item ws (StopsAt kinds) (g · = b)) {bs : List β}
    (h : Grammar.AfterEach separator R ws bs) :
    Reads (afterEach separator item) ws (StopsAt (separator :: kinds)) (·.map g = bs) := by
  induction h with
  | nil =>
    intro n ts left hts hleft
    obtain rfl : ts.map Token.spelling = left := hts
    unfold Parser.afterEach
    cases ts with
    | nil => exact ⟨[], ⟨[], List.suffix_refl []⟩, rfl, rfl, rfl⟩
    | cons t rest =>
      have hne : t.kind ≠ separator := fun he => stopsAt_cons.1 hleft (he ▸ List.mem_cons_self)
      exact ⟨[], ⟨t :: rest, List.suffix_refl _⟩, if_neg hne, rfl, rfl⟩
  | cons cs h hmore ih =>
    intro n ts left hts hleft
    rw [List.cons_append, List.append_assoc] at hts
    obtain ⟨t, rest, rfl, ht, hrest⟩ := List.map_eq_cons_iff.1 hts
    obtain ⟨a, ⟨rest', hsuffix⟩, ha, rfl, hrest'⟩ :=
      hitem h n rest _ hrest (hmore.stopsAt hsep hleft)
    obtain ⟨as, rest'', has, rfl, hrest''⟩ := ih n rest' left hrest' hleft
    cases ht
    refine ⟨a :: as, ⟨rest''.1, (rest''.2.trans hsuffix).trans (List.suffix_cons t rest)⟩, ?_, rfl,
      hrest''⟩
    rw [Parser.afterEach]
    simp only [if_true, ha, has]

/-- Items between commas are read if a closing token comes next, which starts no item. -/
theorem reads_commaSeparated {item : Parser β} {close : Token.Kind}
    (hkinds : .comma ∉ kinds ∧ close ∉ kinds) (hclose : close ≠ .comma)
    (hitem : ∀ {ws b}, R ws b → Reads item ws (StopsAt kinds) (· = b))
    (hstart : ∀ {ws b}, R ws b → ∃ s rest, ws = s :: rest ∧ s.kind ≠ close) {bs : List β}
    (h : Grammar.Listed R ws bs) :
    Reads (commaSeparated close item) ws (fun left => ∃ s rest, left = s :: rest ∧ s.kind = close)
      (· = bs) := by
  induction h with
  | nil =>
    rintro n ts _ hts ⟨s, rest, rfl, hs⟩
    obtain ⟨t, rest', rfl, rfl, -⟩ := List.map_eq_cons_iff.1 hts
    refine ⟨[], ⟨t :: rest', List.suffix_refl _⟩, ?_, rfl, hts⟩
    rw [Parser.commaSeparated]
    exact if_pos (congrArg some hs)
  | last h =>
    rintro n ts _ hts ⟨s, rest, rfl, hs⟩
    have hnot := head?_ne_of_start hts (hstart h)
    obtain ⟨b, ⟨rest', hsuffix⟩, hb, rfl, hrest⟩ :=
      hitem h n ts _ hts (stopsAt_cons.2 (hs ▸ hkinds.2))
    obtain ⟨t, left, rfl, rfl, -⟩ := List.map_eq_cons_iff.1 hrest
    have hcomma : t.kind ≠ .comma := fun he => hclose (hs.symm.trans he)
    refine ⟨[b], ⟨t :: left, hsuffix⟩, ?_, rfl, hrest⟩
    rw [Parser.commaSeparated]
    simp only [if_neg hnot, hb, if_neg hcomma]
  | cons cs h hmore ih =>
    rintro n ts left hts hleft
    rw [List.append_assoc] at hts
    have hnot := head?_ne_of_start hts (hstart h)
    obtain ⟨b, ⟨rest', hsuffix⟩, hb, rfl, hrest⟩ :=
      hitem h n ts _ hts (stopsAt_cons.2 hkinds.1)
    obtain ⟨t, rest, rfl, ht, hrest⟩ := List.map_eq_cons_iff.1 hrest
    obtain ⟨bs, rest'', hbs, rfl, hrest'⟩ := ih n rest left hrest hleft
    have hkind : t.kind = .comma := congrArg Token.Spelling.kind ht
    refine ⟨b :: bs, ⟨rest''.1, (rest''.2.trans (List.suffix_cons t rest)).trans hsuffix⟩, ?_, rfl,
      hrest'⟩
    rw [Parser.commaSeparated]
    simp only [if_neg hnot, hb, if_pos hkind, hbs]
where
  /-- What starts with an item does not start with the closing token. -/
  head?_ne_of_start {close : Token.Kind} {ts : List Token} {ws left : List Token.Spelling}
      (hts : ts.map Token.spelling = ws ++ left)
      (hstart : ∃ s rest, ws = s :: rest ∧ s.kind ≠ close) :
      ¬ts.head?.map (·.kind) = some close := by
    obtain ⟨s, rest, rfl, hs⟩ := hstart
    obtain ⟨t, ts, rfl, rfl, -⟩ := List.map_eq_cons_iff.1 hts
    exact fun he => hs (Option.some.inj he)

/-- Something that is read between two tokens. -/
theorem Reads.enclosed {opening closing : Token.Kind} {p : Parser β} {γ : Type}
    {f : β → Parser γ} {Q : γ → Prop} {b : β}
    (hp : ∀ {ws}, R ws b → Reads p ws (fun left => ∃ s rest, left = s :: rest ∧ s.kind = closing)
      (· = b)) (hf : Reads (f b) [] stop Q) {ws : List Token.Spelling}
    (h : Grammar.Enclosed opening closing R ws b) :
    Reads (do
      let _ ← Parser.expect opening
      let b ← p
      let _ ← Parser.expect closing
      f b) ws stop Q := by
  cases h with
  | intro cs ds h =>
    exact Reads.expect fun _ _ => (hp h).bind (fun b' hb' => Reads.expect fun _ _ => hb' ▸ hf)
      fun left _ => ⟨⟨closing, ds⟩, left, rfl, rfl⟩

end Repetition

end Parser

/-! ## The rules of the parser -/

namespace Syntax

open FlowTypes.Parser (Reads)
open Grammar (Bounds)

variable {ws : List Token.Spelling} {stop : List Token.Spelling → Prop}

theorem reads_number {v : Binary64} (h : Grammar.Number ws v) :
    Reads number ws stop fun read => read.1 = v := by
  -- A sign is accepted if there is one, and a number starts with something else.
  have hsign : ∀ {us negative s} {f : Bool → Parser (Binary64 × ℕ)}, Grammar.Sign us negative →
      s.kind ≠ .minus → Reads (f negative) [s] stop (·.1 = v) →
        Reads (FlowTypes.Parser.accept .minus >>= f) (us ++ [s]) stop (·.1 = v) := by
    intro us negative s f hus hs hf
    cases hus with
    | none => exact Reads.accept_not (fun left _ => stopsAt_cons.2 (by simpa using hs)) hf
    | minus cs => exact Reads.accept hf
  cases h with
  | @digits us negative cs d hus hd =>
    refine hsign hus nofun (Reads.peek_cons (Reads.expect fun t ht => ?_))
    unfold digits
    rw [ht, hd]
    exact Reads.pure rfl
  | infinity cs hus =>
    exact hsign hus nofun (Reads.peek_cons (Reads.expect fun _ _ => Reads.pure rfl))
  | nan cs =>
    exact hsign .none (s := ⟨.nan, cs⟩) nofun
      (Reads.peek_cons (Reads.expect fun _ _ => Reads.pure rfl))

theorem reads_checkBounds {lo hi : Binary64} (h : Bounds lo hi) (span : Span) :
    Reads (checkBounds lo hi span) [] stop fun _ => True := by
  unfold checkBounds
  rw [h.lower, h.upper]
  simp only [Bool.or_self, Bool.false_eq_true, if_false, if_neg h.ordered]
  exact Reads.pure trivial

theorem reads_numberOrInterval_literal {v : Binary64} (h : Grammar.Number ws v) :
    Reads numberOrInterval ws (StopsAt [.dotDot]) (· = .type (.literal v)) := by
  rw [← List.append_nil ws]
  refine Parser.reads_position.then fun _ _ => (reads_number h).next fun ⟨_, _⟩ hv =>
    Reads.accept_not (fun _ h => h) (Reads.pure ?_)
  rw [← hv]

theorem reads_numberOrInterval_interval {lo hi : Binary64} (h : Grammar.Range ws (lo, hi)) :
    Reads numberOrInterval ws stop (· = .type (.interval lo hi)) := by
  cases h with
  | @intro ws vs _ _ cs hlo hhi hbounds =>
    refine Parser.reads_position.then fun _ _ => (reads_number hlo).next fun ⟨lo', _⟩ hlo' =>
      Reads.accept ((reads_number hhi).last fun ⟨hi', _⟩ hhi' => ?_)
    obtain rfl : lo' = lo := hlo'
    obtain rfl : hi' = hi := hhi'
    exact (reads_checkBounds hbounds _).then fun _ _ => Reads.pure rfl

theorem reads_integers_word {cs : List Char} :
    Reads integers [⟨.int, cs⟩] (StopsAt [.parenOpen]) (· = .type .int) := by
  refine Reads.expect fun _ _ => Reads.peek fun left hleft => ?_
  split
  · next he =>
    obtain ⟨s, hs, hkind⟩ := Option.map_eq_some_iff.1 he
    exact absurd hkind (by simpa using hleft s hs)
  · exact Reads.pure rfl

theorem reads_integers_range {cs : List Char} {lo hi : Binary64}
    (h : Grammar.Enclosed .parenOpen .parenClose Grammar.Range ws (lo, hi)) :
    Reads integers (⟨.int, cs⟩ :: ws) stop (· = .type (.integers lo hi)) := by
  cases h with
  | intro os ds h =>
    cases h with
    | @intro ws vs _ _ dots hlo hhi hbounds =>
      refine Reads.expect fun _ _ => Reads.peek_cons (Reads.expect fun _ _ => ?_)
      rw [List.append_assoc, List.cons_append]
      refine (reads_number hlo).next fun ⟨lo', _⟩ hlo' => Reads.expect fun _ _ =>
        (reads_number hhi).next fun ⟨hi', _⟩ hhi' => Reads.expect fun _ _ => ?_
      obtain rfl : lo' = lo := hlo'
      obtain rfl : hi' = hi := hhi'
      exact (reads_checkBounds hbounds _).then fun _ _ => Reads.pure rfl

theorem reads_text {cs ds : List Char} (h : Quoted.unescape 0 (cs.drop 1).dropLast = .ok ds) :
    Reads text [⟨.string, cs⟩] stop (· = .type (.textLiteral (String.ofList ds))) := by
  refine Reads.expect fun t ht => ?_
  rw [ht, Quoted.unescape_of_ok (t.start + 1) h]
  exact Reads.pure rfl

theorem reads_word {kind : Token.Kind} {cs : List Char} (t : Ty) :
    Reads (word kind t) [⟨kind, cs⟩] stop (· = .type t) :=
  Reads.expect fun _ _ => Reads.pure rfl

section Rules

open Grammar (Starts afterExpression afterPrimary)

/-- Does the parser read all of a phrase, if no token comes next that would belong to an expression
at its end, and start with a token that closes nothing? -/
structure Covers {α : Type} (phrase : Phrase α) (braces : Braces) (p : Parser α) : Prop where
  reads : ∀ {ws a}, phrase ws a → Reads p ws (StopsAt (afterExpression braces)) (· = a)
  starts : ∀ {ws a}, phrase ws a → Starts ws

variable {braces : Braces}

theorem reads_listed {α : Type} {phrase : Phrase α} {item : Parser α} {close : Token.Kind}
    (hitem : Covers phrase braces item) (hclose : close ∈ [.parenClose, .braceClose])
    {as : List α} (h : Grammar.Listed phrase ws as) :
    Reads (FlowTypes.Parser.commaSeparated close item) ws
      (fun left => ∃ s rest, left = s :: rest ∧ s.kind = close) (· = as) := by
  have hkinds : ∀ close ∈ [Token.Kind.parenClose, .braceClose],
      (.comma ∉ afterExpression braces ∧ close ∉ afterExpression braces) ∧ close ≠ .comma := by
    cases braces <;> decide
  obtain ⟨hkinds, hcomma⟩ := hkinds close hclose
  refine Parser.reads_commaSeparated hkinds hcomma hitem.reads (fun ha => ?_) h
  obtain ⟨s, rest, rfl, hs⟩ := hitem.starts ha
  exact ⟨s, rest, rfl, fun he => hs (he ▸ hclose)⟩

section Inner

variable {phrase : Phrase Expr} {inner : Parser Expr} (hinner : Covers phrase braces inner)
include hinner

theorem covers_field : Covers (Grammar.Field phrase) braces (field inner) where
  reads h := by
    cases h with
    | @intro us ws name e cs hname he =>
      refine (Parser.reads_name hname).next fun ⟨name', _⟩ hname' => Reads.expect fun _ _ =>
        (hinner.reads he).last fun e' he' => Reads.pure ?_
      rw [← hname', he']
  starts h := by
    cases h with
    | intro cs hname => exact hname.starts.append _

theorem reads_fields {fs : List (String × Expr)}
    (h : Grammar.Enclosed .braceOpen .braceClose (Grammar.Listed (Grammar.Field phrase)) ws fs) :
    Reads (fields inner) ws stop (· = fs) :=
  Reads.enclosed (reads_listed (covers_field hinner) (by decide))
    (Reads.pure (P := (· = fs)) rfl) h

theorem reads_arm {a : Arm} (h : Grammar.Arm phrase ws a) :
    Reads (arm inner) ws (StopsAt (afterExpression braces)) (· = a) := by
  cases h with
  | @intro us vs ws pattern result binding cs hpattern hbinding hresult =>
    have hrest : Reads (do
        let _ ← FlowTypes.Parser.expect .fatArrow
        return .mk pattern binding (← inner)) (⟨.fatArrow, cs⟩ :: ws)
        (StopsAt (afterExpression braces)) (· = Arm.mk pattern binding result) := by
      exact Reads.expect fun _ _ => (hinner.reads hresult).last fun e he =>
        Reads.pure (by rw [he])
    have hnext : ∀ kind ∈ [Token.Kind.asWord, .fatArrow], kind ∉ afterExpression braces := by
      cases braces <;> decide
    refine (hinner.reads hpattern).bind (fun e he => ?_) fun left _ => ?_
    · subst he
      cases hbinding with
      | none =>
        refine Reads.accept_not (fun _ _ => stopsAt_cons.2 (by simp)) ?_
        simp only [Bool.false_eq_true, if_false]
        exact (Reads.pure (P := (· = none)) rfl).then fun _ h => h ▸ hrest
      | some cs hname =>
        refine Reads.accept ?_
        simp only [if_true]
        refine (Parser.reads_name hname).map.map.next fun b hb => ?_
        obtain ⟨_, ⟨_, rfl, rfl⟩, rfl⟩ := hb
        exact hrest
    · cases hbinding with
      | none => exact stopsAt_cons.2 (hnext _ (by simp))
      | some => exact stopsAt_cons.2 (hnext _ (by simp))

theorem covers_arm : Covers (Grammar.Arm phrase) braces (arm inner) where
  reads := reads_arm hinner
  starts h := by
    cases h with
    | intro cs hpattern => exact (hinner.starts hpattern).append _

theorem reads_call {name : String} {us : List Token.Spelling} {args : List Expr}
    (hname : Grammar.Name us name)
    (hargs : Grammar.Enclosed .parenOpen .parenClose (Grammar.Listed phrase) ws args) :
    Reads (named inner braces) (us ++ ws) stop (· = .call name args) := by
  cases hargs with
  | @intro ws _ cs ds hargs =>
    refine (Parser.reads_name hname).next fun ⟨name', _⟩ hname' => Reads.accept ?_
    obtain rfl : name' = name := hname'
    simp only [if_true]
    exact (reads_listed hinner (by decide) hargs).bind (fun args' hargs' =>
      Reads.expect fun _ _ => Reads.pure (by rw [hargs'])) fun left _ => ⟨_, _, rfl, rfl⟩

theorem reads_instantiate {name : String} {us : List Token.Spelling}
    {fs : List (String × Expr)} (hbraces : braces = .openFields) (hname : Grammar.Name us name)
    (hfields : Grammar.Enclosed .braceOpen .braceClose (Grammar.Listed (Grammar.Field phrase))
      ws fs) :
    Reads (named inner braces) (us ++ ws) stop (· = .instantiate name fs) := by
  subst hbraces
  cases hfields with
  | @intro ws _ cs ds hfs =>
    have hfields : Grammar.Enclosed .braceOpen .braceClose (Grammar.Listed (Grammar.Field phrase))
      _ fs := .intro cs ds hfs
    refine (Parser.reads_name hname).next fun ⟨name', _⟩ hname' =>
      Reads.accept_not (fun _ _ => stopsAt_cons.2 (by simp)) (Reads.peek_cons ?_)
    obtain rfl : name' = name := hname'
    exact (reads_fields hinner hfields).last fun fs' hfs' => Reads.pure (by rw [hfs'])

end Inner

theorem reads_named {name : String} {inner : Parser Expr} (hname : Grammar.Name ws name) :
    Reads (named inner braces) ws (StopsAt (afterPrimary braces)) (· = .named name) := by
  have hparen : Token.Kind.parenOpen ∈ afterPrimary braces := by cases braces <;> decide
  rw [← List.append_nil ws]
  refine (Parser.reads_name hname).next fun ⟨name', _⟩ hname' =>
    Reads.accept_not (fun left h => h.mono (by simpa using hparen)) (Reads.peek fun left hleft => ?_)
  obtain rfl : name' = name := hname'
  split
  · next he =>
    obtain ⟨s, hs, hkind⟩ := Option.map_eq_some_iff.1 he
    exact absurd (hkind ▸ by decide) (hleft s hs)
  · exact Reads.pure rfl

theorem reads_primary_number {inner : Braces → Parser Expr} {e : Expr}
    (hstart : ∃ s rest, ws = s :: rest ∧ s.kind ∈ [.number, .minus, .inf, .nan])
    (h : Reads numberOrInterval ws stop (· = e)) :
    Reads (primary inner braces) ws stop (· = e) := by
  obtain ⟨s, rest, rfl, hs⟩ := hstart
  refine Reads.peek_cons ?_
  simp only [List.mem_cons, List.not_mem_nil, or_false] at hs
  rcases hs with hs | hs | hs | hs <;> rw [hs] <;> exact h

theorem reads_joined {join : List Expr → Expr} {separator : Token.Kind} {phrase : Phrase Expr}
    {operand : Parser Expr} {kinds : List Token.Kind} (hsep : separator ∉ kinds)
    (hoperand : ∀ {ws e}, phrase ws e → Reads operand ws (StopsAt kinds) (· = e)) {e : Expr}
    (h : Grammar.Joined join separator phrase ws e) :
    Reads (joined join separator operand) ws (StopsAt (separator :: kinds)) (· = e) := by
  have hmore : ∀ {vs es}, Grammar.AfterEach separator phrase vs es →
      Reads (FlowTypes.Parser.afterEach separator operand) vs (StopsAt (separator :: kinds))
        (·.map id = es) := Parser.reads_afterEach hsep hoperand
  cases h with
  | one h =>
    rw [← List.append_nil ws]
    refine (hoperand h).bind (fun e' he' => (hmore .nil).last fun es hes => ?_) fun left hleft =>
      hleft.mono (List.subset_cons_self _ _)
    obtain rfl : es = [] := by simpa using hes
    exact Reads.pure he'
  | @several ws vs e es h hes hne =>
    refine (hoperand h).bind (fun e' he' => (hmore hes).last fun es' hes' => ?_) fun left hleft =>
      hes.stopsAt hsep hleft
    obtain rfl : es' = es := by simpa using hes'
    subst he'
    cases es' with
    | nil => exact absurd rfl hne
    | cons => exact Reads.pure rfl

section Expressions

variable {inner : Braces → Parser Expr} {phrase : Braces → Phrase Expr}
  (hinner : ∀ braces, Covers (phrase braces) braces (inner braces))
include hinner

theorem reads_selection {cs : List Char} {us : List Token.Spelling} {scrutinee : Expr}
    {arms : List Arm} (hscrutinee : phrase .openArms us scrutinee)
    (harms : Grammar.Enclosed .braceOpen .braceClose (Grammar.Listed (Grammar.Arm (phrase braces)))
      ws arms) :
    Reads (selection inner braces) (⟨.matchWord, cs⟩ :: (us ++ ws)) stop
      (· = .select scrutinee arms) := by
  refine Reads.expect fun _ _ => ((hinner .openArms).reads hscrutinee).bind (fun e he => ?_)
    fun left _ => ?_
  · subst he
    exact Reads.enclosed (reads_listed (covers_arm (hinner braces)) (by decide))
      (Reads.pure (P := (· = Expr.select e arms)) rfl) harms
  · cases harms with
    | intro => exact stopsAt_cons.2 (by simp [afterExpression, afterPrimary])

theorem reads_parenthesized {e : Expr}
    (h : Grammar.Enclosed .parenOpen .parenClose (phrase .openFields) ws e) :
    Reads (parenthesized inner) ws stop (· = e) :=
  Reads.enclosed (fun he => ((hinner .openFields).reads he).mono (fun _ h => h) fun left hleft => by
    obtain ⟨s, rest, rfl, hs⟩ := hleft
    exact stopsAt_cons.2 (hs ▸ by decide)) (Reads.pure (P := (· = e)) rfl) h

theorem reads_primary {e : Expr} (h : Grammar.Primary phrase braces ws e) :
    Reads (primary inner braces) ws (StopsAt (afterPrimary braces)) (· = e) := by
  have hdots : [Token.Kind.dotDot] ⊆ afterPrimary braces := by cases braces <;> decide
  have hparen : [Token.Kind.parenOpen] ⊆ afterPrimary braces := by cases braces <;> decide
  cases h with
  | type h =>
    cases h with
    | @word kind t cs h =>
      refine Reads.peek_cons ?_
      cases kind <;> cases h <;> first
        | exact reads_integers_word.mono (fun _ h => h) fun _ h => h.mono hparen
        | exact reads_word _
    | literal h =>
      exact reads_primary_number h.start
        ((reads_numberOrInterval_literal h).mono (fun _ h => h) fun _ h => h.mono hdots)
    | interval h => exact reads_primary_number h.start (reads_numberOrInterval_interval h)
    | integers cs h => exact Reads.peek_cons (reads_integers_range h)
    | text h => exact Reads.peek_cons (reads_text h)
  | named h =>
    cases h with
    | intro cs => exact Reads.peek_cons (reads_named (.intro cs))
  | call hname hargs =>
    cases hname with
    | intro cs => exact Reads.peek_cons (reads_call (hinner braces) (.intro cs) hargs)
  | instantiate hbraces hname hfields =>
    cases hname with
    | intro cs => exact Reads.peek_cons (reads_instantiate (hinner braces) hbraces (.intro cs) hfields)
  | select cs hscrutinee harms => exact Reads.peek_cons (reads_selection hinner hscrutinee harms)
  | parenthesized h =>
    have hread : Reads (parenthesized inner) ws (StopsAt (afterPrimary braces)) (· = e) :=
      reads_parenthesized hinner h
    cases h with
    | intro => exact Reads.peek_cons hread

theorem reads_accesses {e : Expr} (h : Grammar.Accesses phrase braces ws e) :
    Reads (accesses inner braces) ws (StopsAt (.dot :: afterPrimary braces)) (· = e) := by
  have hdot : Token.Kind.dot ∉ afterPrimary braces := by cases braces <;> decide
  cases h with
  | @intro ws vs e names he hnames =>
    refine (reads_primary hinner he).bind (fun e' he' => ?_) fun left => hnames.stopsAt hdot
    subst he'
    have hread : Reads (FlowTypes.Parser.afterEach .dot FlowTypes.Parser.name) vs
        (StopsAt (.dot :: afterPrimary braces)) (·.map Prod.fst = names) :=
      Parser.reads_afterEach hdot Parser.reads_name hnames
    refine hread.last fun names' hnames' => Reads.pure ?_
    rw [← hnames', List.foldl_map]

theorem covers_operators :
    Covers (Grammar.Operators phrase braces) braces (operators inner braces) where
  reads h := by
    refine reads_joined ?_ (reads_joined ?_ (reads_accesses hinner)) h
    all_goals cases braces <;> decide
  starts h := Grammar.Joined.starts (Grammar.Joined.starts Grammar.Accesses.starts) h

end Expressions

/-- The parser reads every expression of the grammar. -/
theorem covers_expression : ∀ (depth : ℕ) (braces : Braces),
    Covers (Grammar.Expression depth braces) braces (expression depth braces)
  | 0, _ => ⟨nofun, nofun⟩
  | depth + 1, _ => covers_operators (covers_expression depth)

end Rules

end Syntax

/-! ## Texts -/

/-- An expression is complete exactly if all tokens are taken for it. -/
theorem Syntax.completeExpression_eq_ok_iff {n : ℕ} {ts : List Token} {e : Expr} :
    (∃ rest, completeExpression n ts = .ok (e, rest)) ↔
      ∃ rest, expression maxDepth .openFields n ts = .ok (e, rest) ∧ rest.1 = [] := by
  change (∃ rest, Parser.bind (expression maxDepth .openFields) _ n ts = .ok (e, rest)) ↔ _
  unfold Parser.bind
  rcases expression maxDepth .openFields n ts with err | ⟨e', ⟨_ | ⟨t, left⟩, hleft⟩⟩
  · simp
  · change (∃ rest, Except.ok (e', _) = Except.ok (e, rest)) ↔ _
    simp
  · change (∃ rest, Except.error _ = Except.ok (e, rest)) ↔ _
    simp

/-- A text is accepted, with a result, exactly if its tokens can be read as the result. -/
theorem Expr.parse_eq_ok_iff {source : String} {e : Expr} :
    Expr.parse source = .ok e ↔
      Grammar.Expression Syntax.maxDepth .openFields (Token.spellings source.toList) e := by
  have hparse : Expr.parse source = .ok e ↔ ∃ rest, Syntax.completeExpression source.utf8ByteSize
      (Token.lex source) = .ok (e, rest) := by
    unfold Expr.parse
    split <;> simp_all
  rw [hparse, Syntax.completeExpression_eq_ok_iff]
  constructor
  · rintro ⟨rest, he, hnil⟩
    obtain ⟨ws, hws, hphrase⟩ := Syntax.takes_expression _ _ _ _ _ _ he
    rw [hnil, List.map_nil, List.append_nil] at hws
    rwa [Token.spellings, ← Token.lex, hws]
  · intro h
    obtain ⟨e', rest, he, rfl, hrest⟩ := (Syntax.covers_expression _ _).reads h _
      (Token.lex source) [] (by rw [List.append_nil]; rfl) (by simp [StopsAt])
    exact ⟨rest, he, List.map_eq_nil_iff.1 hrest⟩

end FlowTypes
