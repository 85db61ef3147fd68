import FlowTypes.Proofs.ErrorPlaces
import FlowTypes.Proofs.JoinedTexts

/-!
# Source texts one after the other

Definitions can be read from several texts, or from these texts joined by newlines, to the same
effect (`Registry.parse_newline`). The tokens of the joined text are those of the first text and
then those of the second, further on (`Token.lex_newline`). The first are the definitions that are
added from the first text alone. What is left is that no parser minds where tokens stand, but for
the places that it reports, which are as much further on as the tokens are.

`Parser.Moves` says so of a parser. Where a result holds places these are further on as well, so it
relates two parsers, of which the second may have been given such places. It is composed as parsers
are.
-/

namespace FlowTypes

/-- The stretch, so many bytes further on. -/
def Span.moved (k : ℕ) (span : Span) : Span := ⟨span.start + k, span.stop + k⟩

/-- The error, so many bytes further on. -/
def SyntaxError.moved (k : ℕ) (e : SyntaxError) : SyntaxError := { e with span := e.span.moved k }

namespace Token

theorem stop_moved (k : ℕ) (t : Token) : (t.moved k).stop = t.stop + k :=
  Nat.add_right_comm t.start k _

theorem span_moved (k : ℕ) (t : Token) : (t.moved k).span = t.span.moved k := by
  rw [span, stop_moved]
  rfl

end Token

/-! ## Parsers -/

namespace Parser

variable {α β : Type} {k : ℕ} {act : α → α} {act' : β → β} {p p' : Parser α} {f f' : α → Parser β}

/-- A result, with all places so many bytes further on. -/
def moved (k : ℕ) (act : α → α) {ts : List Token} : Except SyntaxError (α × Rest ts) →
    Except SyntaxError (α × Rest (ts.map (Token.moved k)))
  | .error e => .error (e.moved k)
  | .ok (a, rest) => .ok (act a, ⟨rest.1.map (Token.moved k), rest.2.map (Token.moved k)⟩)

/-- Does the second parser make the same of tokens further on as the first of the tokens, with all
places further on? -/
def Moves (k : ℕ) (act : α → α) (p p' : Parser α) : Prop :=
  ∀ n ts, p' (n + k) (ts.map (Token.moved k)) = moved k act (p n ts)

theorem Moves.error {n : ℕ} {ts : List Token} {e : SyntaxError} (hp : Moves k act p p')
    (h : p n ts = .error e) : p' (n + k) (ts.map (Token.moved k)) = .error (e.moved k) :=
  (hp n ts).trans (congrArg (moved k act) h)

theorem Moves.ok {n : ℕ} {ts : List Token} {a : α} {rest : Rest ts} (hp : Moves k act p p')
    (h : p n ts = .ok (a, rest)) : p' (n + k) (ts.map (Token.moved k)) =
      .ok (act a, ⟨rest.1.map (Token.moved k), rest.2.map (Token.moved k)⟩) :=
  (hp n ts).trans (congrArg (moved k act) h)

theorem Moves.pure (a : α) : Moves k act (Pure.pure a) (Pure.pure (act a)) :=
  fun _ _ => rfl

theorem Moves.bind (hp : Moves k act p p') (hf : ∀ a, Moves k act' (f a) (f' (act a))) :
    Moves k act' (p >>= f) (p' >>= f') := by
  intro n ts
  change Parser.bind p' f' _ _ = moved k act' (Parser.bind p f n ts)
  unfold Parser.bind
  rw [hp n ts]
  cases p n ts with
  | error e => rfl
  | ok result =>
    obtain ⟨a, rest, hrest⟩ := result
    simp only [moved, hf a n rest]
    cases f a n rest <;> rfl

/-- A parser whose results hold no places, before another one. -/
theorem Moves.then (hp : Moves k id p p') (hf : ∀ a, Moves k act' (f a) (f' a)) :
    Moves k act' (p >>= f) (p' >>= f') :=
  hp.bind hf

theorem Moves.map {g : α → β} (hp : Moves k act p p') (hg : ∀ a, g (act a) = act' (g a)) :
    Moves k act' (g <$> p) (g <$> p') :=
  hp.bind fun a => by
    have h : Moves k act' (Pure.pure (g a)) (Pure.pure (g (act a))) := by
      rw [hg]
      exact Moves.pure (g a)
    exact h

theorem moves_failAt (span : Span) (problem : SyntaxError.Problem) :
    Moves k act (failAt span problem) (failAt (span.moved k) problem) :=
  fun _ _ => rfl

theorem here_moved (k n : ℕ) : ∀ ts : List Token,
    here (n + k) (ts.map (Token.moved k)) = (here n ts).moved k
  | [] => rfl
  | t :: _ => t.span_moved k

theorem surprise_moved (k : ℕ) (expected : SyntaxError.Expectation) : ∀ ts : List Token,
    surprise expected (ts.map (Token.moved k)) = surprise expected ts
  | [] => rfl
  | _ :: _ => rfl

theorem moves_unexpected (expected : SyntaxError.Expectation) :
    Moves k act (unexpected expected) (unexpected expected) := by
  intro n ts
  unfold unexpected
  rw [surprise_moved, here_moved]
  rfl

theorem head?_moved (k : ℕ) (ts : List Token) :
    (ts.map (Token.moved k)).head?.map (·.kind) = ts.head?.map (·.kind) := by
  rw [List.head?_map, Option.map_map]
  rfl

theorem moves_peek : Moves k id peek peek := by
  intro n ts
  unfold peek
  rw [head?_moved]
  rfl

theorem moves_position : Moves k (Span.moved k) position position := by
  intro n ts
  unfold position
  rw [here_moved]
  rfl

theorem moves_expect (kind : Token.Kind) :
    Moves k (Token.moved k) (expect kind) (expect kind) := by
  intro n ts
  cases ts with
  | nil => rfl
  | cons t rest =>
    change expect kind (n + k) (t.moved k :: rest.map (Token.moved k)) = _
    by_cases hkind : t.kind = kind
    · have hkind' : (t.moved k).kind = kind := hkind
      simp only [expect, if_pos hkind, if_pos hkind', moved]
    · have hkind' : ¬(t.moved k).kind = kind := hkind
      simp only [expect, if_neg hkind, if_neg hkind']
      exact moves_unexpected _ n (t :: rest)

theorem moves_accept (kind : Token.Kind) : Moves k id (accept kind) (accept kind) := by
  intro n ts
  cases ts with
  | nil => rfl
  | cons t rest =>
    change accept kind (n + k) (t.moved k :: rest.map (Token.moved k)) = _
    by_cases hkind : t.kind = kind
    · have hkind' : (t.moved k).kind = kind := hkind
      simp only [accept, if_pos hkind, if_pos hkind', moved, id_eq]
    · have hkind' : ¬(t.moved k).kind = kind := hkind
      simp only [accept, if_neg hkind, if_neg hkind', moved, id_eq, List.map_cons]

theorem moves_name : Moves k (Prod.map id (Span.moved k)) name name :=
  (moves_expect .ident).bind fun t => by
    rw [Token.span_moved]
    exact Moves.pure (t.lexeme, t.span)

theorem Moves.afterEach {separator : Token.Kind} (hp : Moves k act p p') :
    Moves k (List.map act) (afterEach separator p) (afterEach separator p') := by
  intro n ts
  fun_induction Parser.afterEach separator p n ts with
  | case1 =>
    change Parser.afterEach separator p' (n + k) [] = _
    rw [Parser.afterEach]
    rfl
  | case2 t rest hkind e he =>
    change Parser.afterEach separator p' (n + k) (t.moved k :: rest.map (Token.moved k)) = _
    rw [Parser.afterEach]
    simp only [Token.moved_kind, hkind, if_true, hp.error he, moved]
  | case3 t rest hkind a left hleft ha _ e he ih =>
    change Parser.afterEach separator p' (n + k) (t.moved k :: rest.map (Token.moved k)) = _
    rw [Parser.afterEach]
    simp only [Token.moved_kind, hkind, if_true, hp.ok ha, ih, he, moved]
  | case4 t rest hkind a left hleft ha _ as left' hleft' has ih =>
    change Parser.afterEach separator p' (n + k) (t.moved k :: rest.map (Token.moved k)) = _
    rw [Parser.afterEach]
    simp only [Token.moved_kind, hkind, if_true, hp.ok ha, ih, has, moved]
    rfl
  | case5 t rest hkind =>
    change Parser.afterEach separator p' (n + k) (t.moved k :: rest.map (Token.moved k)) = _
    rw [Parser.afterEach]
    simp only [Token.moved_kind, hkind, if_false]
    rfl

theorem Moves.commaSeparated {close : Token.Kind} (hp : Moves k act p p') :
    Moves k (List.map act) (commaSeparated close p) (commaSeparated close p') := by
  intro n ts
  fun_induction Parser.commaSeparated close p n ts with
  | case1 ts hclose =>
    rw [Parser.commaSeparated]
    simp only [head?_moved, hclose, if_true]
    rfl
  | case2 ts hclose e he =>
    rw [Parser.commaSeparated]
    simp only [head?_moved, hclose, if_false, hp.error he, moved]
  | case3 ts hclose a _ ha =>
    rw [Parser.commaSeparated]
    simp only [head?_moved, hclose, if_false, hp.ok ha, moved, List.map_nil]
    rfl
  | case4 ts hclose a t rest hrest ha hkind _ e he ih =>
    rw [Parser.commaSeparated]
    simp only [head?_moved, hclose, if_false, hp.ok ha, moved, List.map_cons, Token.moved_kind, hkind,
      if_true, ih, he]
  | case5 ts hclose a t rest hrest ha hkind _ as left hleft has ih =>
    rw [Parser.commaSeparated]
    simp only [head?_moved, hclose, if_false, hp.ok ha, moved, List.map_cons, Token.moved_kind, hkind,
      if_true, ih, has]
  | case6 ts hclose a t rest hrest ha hkind =>
    rw [Parser.commaSeparated]
    simp only [head?_moved, hclose, if_false, hp.ok ha, moved, List.map_cons, Token.moved_kind, hkind,
      List.map_nil]

end Parser

/-! ## The rules of the parser -/

namespace Quoted

/-- An unknown escape is further on if the text is. -/
theorem unescape_add (k : ℕ) (offset : ℕ) (cs : List Char) : unescape (offset + k) cs =
    (unescape offset cs).mapError fun place => (place.1 + k, place.2 + k) := by
  have hmap : ∀ {x : Except (ℕ × ℕ) (List Char)} {d : Char},
      (x.mapError fun place => (place.1 + k, place.2 + k)).map (d :: ·) =
        (x.map (d :: ·)).mapError fun place => (place.1 + k, place.2 + k) := fun {x} _ => by
    cases x <;> rfl
  fun_induction unescape offset cs with
  | case1 => rfl
  | case2 offset c rest d hd ih =>
    rw [unescape, ← hmap, ← ih]
    simp only [hd, Nat.add_right_comm _ k]
  | case3 offset c rest hd =>
    rw [unescape]
    simp only [hd, Nat.add_right_comm _ k]
    rfl
  | case4 offset rest hlast =>
    rw [unescape]
    · simp only [if_true, Nat.add_right_comm _ k]
      rfl
    · exact hlast
  | case5 offset c rest hescape hback ih =>
    rw [unescape]
    · simp only [if_neg hback, Nat.add_right_comm _ k, ih, hmap]
    · exact hescape

end Quoted

namespace Syntax

open FlowTypes.Parser

variable {k : ℕ} {inner : Parser Expr}

/-- A number with the place where it ends. -/
abbrev movedNumber (k : ℕ) : Binary64 × ℕ → Binary64 × ℕ := Prod.map id (· + k)

theorem moves_digits (negative : Bool) (t : Token) :
    Moves k (movedNumber k) (digits negative t) (digits negative (t.moved k)) := by
  unfold digits
  rw [Token.moved_text, Token.stop_moved, Token.span_moved]
  cases Decimal.read? t.text with
  | some d => exact Moves.pure (d.toBinary64 negative, t.stop)
  | none => exact moves_failAt t.span .invalidNumber

theorem moves_number : Moves k (movedNumber k) number number := by
  refine (moves_accept .minus).then fun negative => moves_peek.then fun next => ?_
  split
  · exact (moves_expect .number).bind fun t => moves_digits negative t
  · refine (moves_expect .inf).bind fun t => ?_
    rw [Token.stop_moved]
    exact Moves.pure (Binary64.infinity negative, t.stop)
  · split
    · exact moves_unexpected _
    · refine (moves_expect .nan).bind fun t => ?_
      rw [Token.stop_moved]
      exact Moves.pure (Binary64.nan, t.stop)
  · exact moves_unexpected _

theorem moves_checkBounds (lo hi : Binary64) (span : Span) :
    Moves k id (checkBounds lo hi span) (checkBounds lo hi (span.moved k)) := by
  unfold checkBounds
  split_ifs
  · exact moves_failAt span _
  · exact moves_failAt span _
  · exact Moves.pure ()

theorem moves_numberOrInterval : Moves k id numberOrInterval numberOrInterval := by
  refine moves_position.bind fun start => moves_number.bind fun ⟨lo, _⟩ =>
    (moves_accept .dotDot).then fun isInterval => ?_
  split
  · exact moves_number.bind fun ⟨hi, stop⟩ => (moves_checkBounds lo hi ⟨start.start, stop⟩).then
      fun _ => Moves.pure _
  · exact Moves.pure _

theorem moves_integers : Moves k id integers integers := by
  refine (moves_expect .int).bind fun _ => moves_peek.then fun next => ?_
  split
  · refine (moves_expect .parenOpen).bind fun t => moves_number.bind fun ⟨lo, _⟩ =>
      (moves_expect .dotDot).bind fun _ => moves_number.bind fun ⟨hi, _⟩ =>
      (moves_expect .parenClose).bind fun u => ?_
    rw [Token.stop_moved]
    exact (moves_checkBounds lo hi ⟨t.start, u.stop⟩).then fun _ => Moves.pure _
  · exact Moves.pure _

theorem moves_text : Moves k id text text := by
  refine (moves_expect .string).bind fun t => ?_
  have hstart : (t.moved k).start + 1 = t.start + 1 + k := Nat.add_right_comm _ _ _
  rw [Token.moved_text, hstart, Quoted.unescape_add k]
  cases Quoted.unescape (t.start + 1) (t.text.drop 1).dropLast with
  | ok cs => exact Moves.pure _
  | error place => exact moves_failAt ⟨place.1, place.2⟩ _

theorem moves_word (kind : Token.Kind) (t : Ty) : Moves k id (word kind t) (word kind t) :=
  (moves_expect kind).bind fun _ => Moves.pure _

/-- A list of results that hold no places. -/
theorem moves_list {α : Type} {p : Parser (List α)} (hp : Moves k (List.map id) p p) :
    Moves k id p p := by
  rwa [List.map_id_fun] at hp

section Expressions

variable (hinner : Moves k id inner inner)
include hinner

theorem moves_field : Moves k id (field inner) (field inner) :=
  moves_name.bind fun _ => (moves_expect .colon).bind fun _ => hinner.then fun _ => Moves.pure _

theorem moves_fields : Moves k id (fields inner) (fields inner) :=
  (moves_expect .braceOpen).bind fun _ => (moves_list (moves_field hinner).commaSeparated).then
    fun _ => (moves_expect .braceClose).bind fun _ => Moves.pure _

theorem moves_named (braces : Braces) : Moves k id (named inner braces) (named inner braces) := by
  refine moves_name.bind fun name => (moves_accept .parenOpen).then fun isCall => ?_
  split
  · exact (moves_list hinner.commaSeparated).then fun _ => (moves_expect .parenClose).bind fun _ =>
      Moves.pure _
  · refine moves_peek.then fun next => ?_
    split
    · exact (moves_fields hinner).then fun _ => Moves.pure _
    · exact Moves.pure _

theorem moves_arm : Moves k id (arm inner) (arm inner) := by
  refine hinner.then fun pattern => (moves_accept .asWord).then fun isBound => ?_
  have hrest : ∀ binding, Moves k id (do
      let _ ← expect .fatArrow
      return Arm.mk pattern binding (← inner)) (do
      let _ ← expect .fatArrow
      return Arm.mk pattern binding (← inner)) := fun _ =>
    (moves_expect .fatArrow).bind fun _ => hinner.then fun _ => Moves.pure _
  have hname : Moves k id (Prod.fst <$> Parser.name) (Prod.fst <$> Parser.name) :=
    moves_name.map fun _ => rfl
  have hbinding : Moves k id (some <$> Prod.fst <$> Parser.name)
      (some <$> Prod.fst <$> Parser.name) := hname.map fun _ => rfl
  split
  · exact hbinding.then hrest
  · exact (Moves.pure none).then hrest

theorem moves_joined (join : List Expr → Expr) (separator : Token.Kind) :
    Moves k id (joined join separator inner) (joined join separator inner) := by
  refine hinner.then fun first => (moves_list hinner.afterEach).then fun more => ?_
  split
  · exact Moves.pure _
  · exact Moves.pure _

end Expressions

section Rules

variable {inner : Braces → Parser Expr}
  (hinner : ∀ braces, Moves k id (inner braces) (inner braces)) (braces : Braces)
include hinner

theorem moves_selection : Moves k id (selection inner braces) (selection inner braces) :=
  (moves_expect .matchWord).bind fun _ => (hinner _).then fun _ =>
    (moves_expect .braceOpen).bind fun _ =>
      (moves_list (moves_arm (hinner braces)).commaSeparated).then fun _ =>
        (moves_expect .braceClose).bind fun _ => Moves.pure _

theorem moves_parenthesized : Moves k id (parenthesized inner) (parenthesized inner) :=
  (moves_expect .parenOpen).bind fun _ => (hinner _).then fun _ =>
    (moves_expect .parenClose).bind fun _ => Moves.pure _

theorem moves_primary : Moves k id (primary inner braces) (primary inner braces) := by
  refine moves_peek.then fun next => ?_
  split
  · exact moves_numberOrInterval
  · exact moves_numberOrInterval
  · exact moves_numberOrInterval
  · exact moves_numberOrInterval
  · exact moves_text
  · exact moves_integers
  · exact moves_word _ _
  · exact moves_word _ _
  · exact moves_word _ _
  · exact moves_word _ _
  · exact moves_word _ _
  · exact moves_selection hinner braces
  · exact moves_named (hinner braces) braces
  · exact moves_parenthesized hinner
  · exact moves_unexpected _

theorem moves_accesses : Moves k id (accesses inner braces) (accesses inner braces) := by
  refine (moves_primary hinner braces).then fun e => moves_name.afterEach.bind fun names => ?_
  rw [List.foldl_map]
  exact Moves.pure _

theorem moves_operators : Moves k id (operators inner braces) (operators inner braces) :=
  moves_joined (moves_joined (moves_accesses hinner braces) _ _) _ _

end Rules

theorem moves_expression : ∀ (depth : ℕ) (braces : Braces),
    Moves k id (expression depth braces) (expression depth braces)
  | 0, _ => moves_position.bind fun span => moves_failAt span _
  | depth + 1, braces => moves_operators (moves_expression depth) braces

/-- The definition, with its name so many bytes further on. -/
def movedDefinition (k : ℕ) (d : Definition) : Definition := d.moved (d.span.moved k)

theorem moves_definition {kind : Token.Kind} {definition : Parser Definition}
    (h : announced? kind = some definition) :
    Moves k (movedDefinition k) definition definition := by
  unfold announced? at h
  split at h <;> cases h
  · refine moves_name.bind fun ⟨name, span⟩ => (moves_accept .semicolon).then fun isUnit => ?_
    split
    · exact Moves.pure (Definition.ofStruct name span [])
    · exact (moves_fields (moves_expression _ _)).then fun fs =>
        Moves.pure (Definition.ofStruct name span fs)
  · exact moves_name.bind fun ⟨name, span⟩ => (moves_expect .equals).bind fun _ =>
      (moves_expression _ _).then fun value => (moves_expect .semicolon).bind fun _ =>
        Moves.pure (Definition.ofAlias name span value)

end Syntax

namespace Registry

theorem add_movedDefinition (k : ℕ) (r : Registry) (d : Syntax.Definition) :
    r.add (Syntax.movedDefinition k d) = (r.add d).mapError (SyntaxError.moved k) := by
  have hmapError : ∀ (x : Except DefinitionError Registry) (span : Span),
      x.mapError (fun e => (⟨.refused e, span.moved k⟩ : SyntaxError)) =
        (x.mapError fun e => (⟨.refused e, span⟩ : SyntaxError)).mapError (SyntaxError.moved k) :=
    fun x span => by cases x <;> rfl
  cases d with
  | ofStruct | ofAlias => exact hmapError _ _

/-- A registry is filled from tokens further on as from the tokens. -/
theorem addTokens_moved (k n : ℕ) (r : Registry) (ts : List Token) :
    r.addTokens (n + k) (ts.map (Token.moved k)) =
      ((r.addTokens n ts).1, (r.addTokens n ts).2.map (SyntaxError.moved k)) := by
  fun_induction addTokens n r ts with
  | case1 r =>
    rw [List.map_nil, addTokens]
    rfl
  | case2 r t rest hannounced =>
    rw [List.map_cons, addTokens]
    simp only [Token.moved_kind, hannounced]
    rw [← List.map_cons, Parser.surprise_moved, Token.span_moved]
    rfl
  | case3 r t rest definition hannounced e he =>
    rw [List.map_cons, addTokens]
    simp only [Token.moved_kind, hannounced, (Syntax.moves_definition hannounced).error he]
    rfl
  | case4 r t rest definition hannounced d rest' hsuffix hread e hadd =>
    rw [List.map_cons, addTokens]
    simp only [Token.moved_kind, hannounced, (Syntax.moves_definition hannounced).ok hread,
      add_movedDefinition, hadd]
    rfl
  | case5 r t rest definition hannounced d rest' hsuffix hread r' hadd _ ih =>
    rw [List.map_cons, addTokens]
    simp only [Token.moved_kind, hannounced, (Syntax.moves_definition hannounced).ok hread,
      add_movedDefinition, hadd]
    exact ih

/-- A text that is read whole, then a newline and another text : the second is read as it would be
on its own, and its errors are as many bytes further on as the first takes with the newline. -/
theorem parse_newline {r r' : Registry} {source : String} (more : String)
    (h : r.parse source = (r', none)) : r.parse (source ++ "\n" ++ more) =
      ((r'.parse more).1, (r'.parse more).2.map (SyntaxError.moved (source.utf8ByteSize + 1))) := by
  obtain ⟨ws, ds, left, hws, hds, hfold, hnone, -⟩ :=
    addTokens_split source.utf8ByteSize r (Token.lex source)
  rw [parse] at h
  rw [h] at hfold hnone
  obtain rfl : left = [] := hnone.1 rfl
  rw [List.append_nil] at hws
  have hknown : ∀ t ∈ Token.lex source, t.kind ≠ .garbage := fun t ht =>
    Grammar.clean_definitions ws ds hds t.spelling (hws ▸ List.mem_map_of_mem ht)
  have hlength : ws.length = (Token.lex source).length := by
    rw [← hws, List.length_map]
  have hsize : (source ++ "\n" ++ more).utf8ByteSize =
      more.utf8ByteSize + (source.utf8ByteSize + 1) := by
    rw [String.utf8ByteSize_append, String.utf8ByteSize_append, Nat.add_comm]
    rfl
  have hjoined := (List.map_append (f := Token.spelling)).trans
    (congrArg (· ++ ((Token.lex more).map (Token.moved (source.utf8ByteSize + 1))).map _) hws)
  rw [parse, Token.lex_newline more hknown, hsize, addTokens_of_definitions hds hjoined hfold,
    hlength, List.drop_left, addTokens_moved]
  rfl

/-- The comment ends with the first text, and the error is after it. -/
theorem parse_newline_comment :
    empty.parse "let A = 1; // one" = ((empty.parse "let A = 1; // one").1, none) ∧
    empty.parse ("let A = 1; // one" ++ "\n" ++ "let B = ;") =
      (((empty.parse "let A = 1; // one").1.parse "let B = ;").1,
        some ⟨.unexpected .expression (some .semicolon), ⟨26, 27⟩⟩) := by
  have h : empty.parse "let A = 1; // one" = ((empty.parse "let A = 1; // one").1, none) :=
    Prod.ext rfl (by decide +kernel)
  have herror : ((empty.parse "let A = 1; // one").1.parse "let B = ;").2 =
      some ⟨.unexpected .expression (some .semicolon), ⟨8, 9⟩⟩ := by decide +kernel
  refine ⟨h, (parse_newline "let B = ;" h).trans ?_⟩
  rw [herror]
  rfl

end Registry

end FlowTypes
