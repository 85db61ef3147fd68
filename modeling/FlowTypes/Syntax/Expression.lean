import FlowTypes.Syntax.Parser
import FlowTypes.Token.Lexer

/-!
# Reading expressions

```text
expr     = inter ("|" inter)*
inter    = postfix ("&" postfix)*
postfix  = primary ("." name)*
primary  = number [".." number] | text | "int" ["(" number ".." number ")"]
         | "number" | "string" | "never" | "any" | "_"
         | name ["(" args ")" | "{" fields "}"]
         | "match" expr "{" arm ("," arm)* [","] "}"
         | "(" expr ")"
arm      = expr ["as" name] "=>" expr
number   = ["-"] (digits | "inf") | "NaN"
```

`Syntax.expression depth` reads an expression in which expressions nest at most `depth` levels. It
is built from parsers that know no recursion: each takes the parser for the expressions inside as
an argument. A flag tells whether a brace after a name opens the fields of a record; in the
scrutinee of a selection it opens the arms instead, up to the next parenthesis.
-/

namespace FlowTypes.Syntax

open FlowTypes.Parser (expect accept peek position unexpected failAt afterEach commaSeparated)

/-- How deep expressions may nest. -/
def maxDepth : Nat := 256

/-- Whether a brace after a name opens fields or arms. -/
inductive Braces
  | openFields
  | openArms
  deriving DecidableEq

/-! ## Numbers -/

/-- The number that digits denote, with a sign. -/
def digits (negative : Bool) (t : Token) : Parser (Binary64 × Nat) :=
  match Decimal.read? t.text with
  | some d => pure (d.toBinary64 negative, t.stop)
  | none => failAt t.span .invalidNumber

/-- A number, and the byte after it. NaN takes no sign. -/
def number : Parser (Binary64 × Nat) := do
  let negative ← accept .minus
  match ← peek with
  | some .number => digits negative (← expect .number)
  | some .inf => return (.infinity negative, (← expect .inf).stop)
  | some .nan => if negative then unexpected .number else return (.nan, (← expect .nan).stop)
  | _ => unexpected .number

/-- Refuses bounds between which there is no number. -/
def checkBounds (lo hi : Binary64) (span : Span) : Parser Unit :=
  if lo.isNaN || hi.isNaN then failAt span .boundNotANumber
  else if hi < lo then failAt span .emptyRange
  else pure ()

/-- A number or a real interval. -/
def numberOrInterval : Parser Expr := do
  let start := (← position).start
  let (lo, _) ← number
  if ← accept .dotDot then
    let (hi, stop) ← number
    checkBounds lo hi ⟨start, stop⟩
    return .type (.interval lo hi)
  else return .type (.literal lo)

/-- The integers, or those between two bounds. -/
def integers : Parser Expr := do
  let _ ← expect .int
  match ← peek with
  | some .parenOpen =>
    let start := (← expect .parenOpen).start
    let (lo, _) ← number
    let _ ← expect .dotDot
    let (hi, _) ← number
    let stop := (← expect .parenClose).stop
    checkBounds lo hi ⟨start, stop⟩
    return .type (.integers lo hi)
  | _ => return .type .int

/-! ## Texts and words -/

/-- A text literal. -/
def text : Parser Expr := do
  let t ← expect .string
  match Quoted.unescape (t.start + 1) (t.text.drop 1).dropLast with
  | .ok cs => return .type (.textLiteral (String.ofList cs))
  | .error (start, stop) => failAt ⟨start, stop⟩ .unknownEscape

/-- A word that stands for a type. -/
def word (kind : Token.Kind) (t : Ty) : Parser Expr := do
  let _ ← expect kind
  return .type t

/-! ## Expressions with expressions inside -/

/-- A field of a record: its name, a colon and an expression. -/
def field (inner : Parser Expr) : Parser (String × Expr) := do
  let (name, _) ← Parser.name
  let _ ← expect .colon
  return (name, ← inner)

/-- Fields between braces. -/
def fields (inner : Parser Expr) : Parser (List (String × Expr)) := do
  let _ ← expect .braceOpen
  let fs ← commaSeparated .braceClose (field inner)
  let _ ← expect .braceClose
  return fs

/-- A name, a call or a record instance. -/
def named (inner : Parser Expr) (braces : Braces) : Parser Expr := do
  let (name, _) ← Parser.name
  if ← accept .parenOpen then
    let args ← commaSeparated .parenClose inner
    let _ ← expect .parenClose
    return .call name args
  else
    match braces, ← peek with
    | .openFields, some .braceOpen => return .instantiate name (← fields inner)
    | _, _ => return .named name

/-- An arm of a selection. -/
def arm (inner : Parser Expr) : Parser Arm := do
  let pattern ← inner
  let binding ← if ← accept .asWord then some <$> Prod.fst <$> Parser.name else pure none
  let _ ← expect .fatArrow
  return .mk pattern binding (← inner)

/-- A selection. -/
def selection (inner : Braces → Parser Expr) (braces : Braces) : Parser Expr := do
  let _ ← expect .matchWord
  let scrutinee ← inner .openArms
  let _ ← expect .braceOpen
  let arms ← commaSeparated .braceClose (arm (inner braces))
  let _ ← expect .braceClose
  return .select scrutinee arms

/-- An expression between parentheses. -/
def parenthesized (inner : Braces → Parser Expr) : Parser Expr := do
  let _ ← expect .parenOpen
  let e ← inner .openFields
  let _ ← expect .parenClose
  return e

/-- An expression without operators. -/
def primary (inner : Braces → Parser Expr) (braces : Braces) : Parser Expr := do
  match ← peek with
  | some .number | some .minus | some .inf | some .nan => numberOrInterval
  | some .string => text
  | some .int => integers
  | some .numberWord => word .numberWord .number
  | some .stringWord => word .stringWord .string
  | some .never => word .never .never
  | some .any => word .any .any
  | some .underscore => word .underscore .any
  | some .matchWord => selection inner braces
  | some .ident => named (inner braces) braces
  | some .parenOpen => parenthesized inner
  | _ => unexpected .expression

/-- Field accesses. -/
def accesses (inner : Braces → Parser Expr) (braces : Braces) : Parser Expr := do
  let e ← primary inner braces
  let names ← afterEach .dot Parser.name
  return names.foldl (fun e name => .access e name.1) e

/-- One operand or several: several are joined. -/
def joined (join : List Expr → Expr) (separator : Token.Kind) (operand : Parser Expr) :
    Parser Expr := do
  let first ← operand
  match ← afterEach separator operand with
  | [] => return first
  | more => return join (first :: more)

/-- An expression with operators. -/
def operators (inner : Braces → Parser Expr) (braces : Braces) : Parser Expr :=
  joined .union .pipe (joined .intersection .ampersand (accesses inner braces))

/-- An expression in which expressions nest at most `depth` levels. -/
def expression : (depth : Nat) → Braces → Parser Expr
  | 0, _ => do failAt (← position) .tooDeep
  | depth + 1, braces => operators (expression depth) braces

/-- An expression, and nothing after it. -/
def completeExpression : Parser Expr := do
  let e ← expression maxDepth .openFields
  match ← peek with
  | none => return e
  | some _ => unexpected .endOfInput

end FlowTypes.Syntax

namespace FlowTypes

/-- The expression that a source text is. -/
def Expr.parse (source : String) : Except SyntaxError Expr :=
  match Syntax.completeExpression source.utf8ByteSize (Token.lex source) with
  | .ok (e, _) => .ok e
  | .error e => .error e

end FlowTypes
