import FlowTypes.Token.Basic

/-!
# From text to tokens

A text is cut into lexemes, each the longest there is: tokens, blanks and comments, and pieces
that are neither. The cut loses nothing (`text_split`). Tokens are the lexemes without blanks and
comments, with neighbouring unknown pieces joined into one piece of garbage.

A text literal runs to the next quote that no backslash precedes. One that does not close is an
unknown piece up to the end of the text, or up to a newline right after a backslash.
-/

namespace FlowTypes

/-- What a piece of text is. -/
inductive Lexeme.Role
  | token (kind : Token.Kind)
  | trivia
  | unknown
  deriving DecidableEq

/-- A piece of a text. -/
structure Lexeme where
  role : Lexeme.Role
  text : List Char
  deriving DecidableEq

namespace Lexeme

/-! ## Character classes -/

/-- Blanks separate tokens. -/
def isBlank (c : Char) : Bool := c = ' ' || c = '\t' || c = '\r' || c = '\n'

/-- The characters that names go on with: Latin letters without marks, digits and `_`. -/
def isNameChar (c : Char) : Bool := c.isAlphanum || c = '_'

/-! ## Lengths of the longest match -/

/-- How many characters at the front are in a class. -/
def run (p : Char → Bool) (cs : List Char) : Nat := (cs.takeWhile p).length

/-- The length of a fraction: a point and digits, or nothing. -/
def fractionLength : List Char → Nat
  | '.' :: c :: cs => if c.isDigit then 2 + run Char.isDigit cs else 0
  | _ => 0

/-- The length of an exponent: its mark, a sign or none, and digits; or nothing. -/
def exponentLength : List Char → Nat
  | mark :: c :: cs =>
    if mark = 'e' || mark = 'E' then
      if c.isDigit then 2 + run Char.isDigit cs
      else if c = '+' || c = '-' then
        match run Char.isDigit cs with
        | 0 => 0
        | n => 2 + n
      else 0
    else 0
  | _ => 0

/-- The length of what follows the first digit of a number. -/
def numberLength (cs : List Char) : Nat :=
  let whole := run Char.isDigit cs
  let fraction := fractionLength (cs.drop whole)
  whole + fraction + exponentLength (cs.drop (whole + fraction))

/-- What follows the opening quote of a text literal: its length, and whether it closes. -/
def literalLength : List Char → Nat × Bool
  | [] => (0, false)
  | '"' :: _ => (1, true)
  | '\\' :: [] => (1, false)
  | '\\' :: c :: cs =>
    if c = '\n' then (1, false)
    else
      let (n, closed) := literalLength cs
      (n + 2, closed)
  | _ :: cs =>
    let (n, closed) := literalLength cs
    (n + 1, closed)

/-! ## One lexeme -/

/-- The kind of a word: a keyword or a name. -/
def wordKind (word : List Char) : Token.Kind :=
  match String.ofList word with
  | "inf" => .inf
  | "NaN" => .nan
  | "int" => .int
  | "number" => .numberWord
  | "string" => .stringWord
  | "never" => .never
  | "any" => .any
  | "match" => .matchWord
  | "as" => .asWord
  | "struct" => .structWord
  | "let" => .letWord
  | _ => .ident

/-- The kind of a single mark. -/
def markKind? (c : Char) : Option Token.Kind :=
  match c with
  | '(' => some .parenOpen
  | ')' => some .parenClose
  | '{' => some .braceOpen
  | '}' => some .braceClose
  | ',' => some .comma
  | ':' => some .colon
  | ';' => some .semicolon
  | '=' => some .equals
  | '|' => some .pipe
  | '&' => some .ampersand
  | '.' => some .dot
  | '-' => some .minus
  | '_' => some .underscore
  | _ => none

/-- What starts with a character, and how many of the following ones belong to it. -/
def first (c : Char) (cs : List Char) : Role × Nat :=
  if isBlank c then (.trivia, run isBlank cs)
  else if c = '/' && cs.head? = some '/' then (.trivia, run (· ≠ '\n') cs)
  else if c.isAlpha then
    let n := run isNameChar cs
    (.token (wordKind (c :: cs.take n)), n)
  else if c = '_' && run isNameChar cs ≠ 0 then (.token .ident, run isNameChar cs)
  else if c.isDigit then (.token .number, numberLength cs)
  else if c = '"' then
    let (n, closed) := literalLength cs
    (if closed then .token .string else .unknown, n)
  else if c = '=' && cs.head? = some '>' then (.token .fatArrow, 1)
  else if c = '.' && cs.head? = some '.' then (.token .dotDot, 1)
  else
    match markKind? c with
    | some kind => (.token kind, 0)
    | none => (.unknown, 0)

/-- The lexemes of a text after the first `skip` characters, which belong to the one before. -/
def splitAfter : Nat → List Char → List Lexeme
  | _, [] => []
  | 0, c :: cs =>
    let (role, n) := first c cs
    ⟨role, c :: cs.take n⟩ :: splitAfter n cs
  | skip + 1, _ :: cs => splitAfter skip cs

/-- A text cut into lexemes. -/
def split (cs : List Char) : List Lexeme := splitAfter 0 cs

theorem text_splitAfter (skip : Nat) (cs : List Char) :
    (splitAfter skip cs).flatMap (·.text) = cs.drop skip := by
  fun_induction splitAfter skip cs with
  | case1 => simp
  | case2 c cs role n _ ih => simp [ih]
  | case3 skip c cs ih => simpa using ih

/-- The lexemes of a text join to the text. -/
theorem text_split (cs : List Char) : (split cs).flatMap (·.text) = cs :=
  text_splitAfter 0 cs

theorem text_ne_nil_of_mem_splitAfter {skip : Nat} {cs : List Char} {l : Lexeme}
    (h : l ∈ splitAfter skip cs) : l.text ≠ [] := by
  fun_induction splitAfter skip cs with
  | case1 => simp at h
  | case2 c cs role n _ ih =>
    rcases List.mem_cons.1 h with rfl | h
    · simp
    · exact ih h
  | case3 skip c cs ih => exact ih h

end Lexeme

namespace Token

/-- A token for unknown characters, if there are any. -/
def ofGarbage (start : Nat) : List Char → List Token
  | [] => []
  | cs => [⟨.garbage, start, cs⟩]

/-- The tokens of some lexemes, after unknown characters that start at byte `start`. -/
def ofLexemes (start : Nat) (pending : List Char) : List Lexeme → List Token
  | [] => ofGarbage start pending
  | ⟨.unknown, text⟩ :: rest => ofLexemes start (pending ++ text) rest
  | ⟨.trivia, text⟩ :: rest =>
    ofGarbage start pending ++ ofLexemes (start + byteLength pending + byteLength text) [] rest
  | ⟨.token kind, text⟩ :: rest =>
    let here := start + byteLength pending
    ofGarbage start pending ++ ⟨kind, here, text⟩ :: ofLexemes (here + byteLength text) [] rest

/-- The tokens of a text. -/
def lex (source : String) : List Token := ofLexemes 0 [] (Lexeme.split source.toList)

end Token

end FlowTypes
