import FlowTypes.Syntax.Error

/-!
# Parsers over tokens

A parser takes the tokens that are left of a source text, and the length of that text, to a result
and the tokens left after it, or to the first error. That what is left is a suffix of what there
was is part of the result, so repetition ends because lists of tokens do.
-/

namespace FlowTypes

/-- The tokens left by a parser. -/
abbrev Parser.Rest (ts : List Token) := { rest : List Token // rest <:+ ts }

/-- A parser: from the length of the source text and the tokens left to a result. -/
def Parser (α : Type) : Type :=
  (sourceLength : Nat) → (ts : List Token) → Except SyntaxError (α × Parser.Rest ts)

namespace Parser

variable {α β : Type}

/-- Succeeds without looking at the tokens. -/
def pure (a : α) : Parser α := fun _ ts => .ok (a, ⟨ts, List.suffix_refl ts⟩)

/-- One parser after the other. -/
def bind (p : Parser α) (f : α → Parser β) : Parser β := fun n ts =>
  match p n ts with
  | .error e => .error e
  | .ok (a, ⟨rest, h⟩) =>
    match f a n rest with
    | .error e => .error e
    | .ok (b, ⟨rest', h'⟩) => .ok (b, ⟨rest', h'.trans h⟩)

instance : Monad Parser where
  pure := pure
  bind := bind

/-- The kind of the next token. -/
def peek : Parser (Option Token.Kind) := fun _ ts =>
  .ok (ts.head?.map (·.kind), ⟨ts, List.suffix_refl ts⟩)

/-- The stretch of the next token: an empty one at the end of the text if there is none. -/
def here (sourceLength : Nat) : List Token → Span
  | [] => ⟨sourceLength, sourceLength⟩
  | t :: _ => t.span

/-- The stretch of the next token. -/
def position : Parser Span := fun n ts => .ok (here n ts, ⟨ts, List.suffix_refl ts⟩)

/-- Fails with a problem in the given place. -/
def failAt (span : Span) (problem : SyntaxError.Problem) : Parser α :=
  fun _ _ => .error ⟨problem, span⟩

/-- What to report when something else was expected. -/
def surprise (expected : SyntaxError.Expectation) : List Token → SyntaxError.Problem
  | [] => .unexpected expected none
  | t :: _ =>
    if t.kind = .garbage then .unrecognized t.lexeme else .unexpected expected (some t.kind)

/-- Fails because something else was expected. -/
def unexpected (expected : SyntaxError.Expectation) : Parser α :=
  fun n ts => .error ⟨surprise expected ts, here n ts⟩

/-- The next token, if it is of the given kind. -/
def expect (kind : Token.Kind) : Parser Token := fun n ts =>
  match ts with
  | [] => unexpected (.token kind) n []
  | t :: rest =>
    if t.kind = kind then .ok (t, ⟨rest, List.suffix_cons t rest⟩)
    else unexpected (.token kind) n (t :: rest)

/-- Takes the next token if it is of the given kind, and says whether it was. -/
def accept (kind : Token.Kind) : Parser Bool := fun _ ts =>
  match ts with
  | [] => .ok (false, ⟨[], List.suffix_refl []⟩)
  | t :: rest =>
    if t.kind = kind then .ok (true, ⟨rest, List.suffix_cons t rest⟩)
    else .ok (false, ⟨t :: rest, List.suffix_refl _⟩)

/-- A name, and the token it was read from. -/
def name : Parser (String × Span) := do
  let t ← expect .ident
  return (t.lexeme, t.span)

/-- Items, each after a separator. -/
def afterEach (separator : Token.Kind) (item : Parser α) : Parser (List α) := fun n ts =>
  match ts with
  | [] => .ok ([], ⟨[], List.suffix_refl []⟩)
  | t :: rest =>
    if t.kind = separator then
      match item n rest with
      | .error e => .error e
      | .ok (a, ⟨rest', h⟩) =>
        have : rest'.length < rest.length + 1 := Nat.lt_succ_of_le h.length_le
        match afterEach separator item n rest' with
        | .error e => .error e
        | .ok (as, ⟨rest'', h'⟩) =>
          .ok (a :: as, ⟨rest'', (h'.trans h).trans (List.suffix_cons t rest)⟩)
    else .ok ([], ⟨t :: rest, List.suffix_refl _⟩)
termination_by _ ts => ts.length

/-- Items between commas, of which the last may be followed by one, up to a closing token that is
not taken. -/
def commaSeparated (close : Token.Kind) (item : Parser α) : Parser (List α) := fun n ts =>
  if ts.head?.map (·.kind) = some close then .ok ([], ⟨ts, List.suffix_refl ts⟩)
  else
    match item n ts with
    | .error e => .error e
    | .ok (a, ⟨[], h⟩) => .ok ([a], ⟨[], h⟩)
    | .ok (a, ⟨t :: rest, h⟩) =>
      if t.kind = .comma then
        have : rest.length < ts.length := h.length_le
        match commaSeparated close item n rest with
        | .error e => .error e
        | .ok (as, ⟨rest', h'⟩) =>
          .ok (a :: as, ⟨rest', (h'.trans (List.suffix_cons t rest)).trans h⟩)
      else .ok ([a], ⟨t :: rest, h⟩)
termination_by _ ts => ts.length

end Parser

end FlowTypes
