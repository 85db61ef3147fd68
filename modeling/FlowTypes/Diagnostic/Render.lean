import FlowTypes.Diagnostic.Excerpt
import FlowTypes.Syntax.Error

/-!
# Diagnostics

A diagnostic is a message with a place in a text. It is shown on one line, or below a title with
the line of the text it is about, where carets mark the columns:

```text
error: expected end of input, found number literal
 --> defs:1:3
  |
1 | 1 2
  |   ^
```

The place is clamped to the text, and an empty one is widened by a byte where there is one, so
there is always a caret. A place that goes on to another line is marked up to the end of its first
line. Lines and columns are counted from one, columns in characters; carets are set by display
columns. Deep indentation and lines wider than the screen are shown as excerpts.
-/

namespace FlowTypes

/-- A message with a place in a text. -/
structure Diagnostic where
  message : String
  span : Span
  deriving DecidableEq

/-- The diagnostic of an error in a source text. -/
def SyntaxError.diagnostic (e : SyntaxError) : Diagnostic := ⟨e.message, e.span⟩

namespace Diagnostic

/-- A diagnostic on one line. -/
def oneLine (d : Diagnostic) : String :=
  d.message ++ " at " ++ toString d.span.start ++ ".." ++ toString d.span.stop

/-- What is marked in a text of some length: a clamped span, an empty one widened. -/
def marked (span : Span) (length : Nat) : Span :=
  let start := min span.start length
  let stop := min span.stop length
  if start = stop then ⟨start, min (start + 1) length⟩ else ⟨start, stop⟩

/-- A place for readers: the line, the column of its start in characters from one, the display
columns before it, and how many display columns it takes. -/
structure Place where
  line : Line
  column : Nat
  indent : Nat
  width : Nat
  deriving DecidableEq

/-- The place of a span in a text. Past the characters of a line, what ends the line counts as
one more column. -/
def Place.of (cs : List Char) (span : Span) : Place :=
  let line := lineOf cs span.start
  let before := within Char.utf8Size (span.start - line.start) line.text
  let through := within Char.utf8Size (span.stop - line.start) line.text
  let past := if byteLength line.text < span.start - line.start then 1 else 0
  ⟨line, before.length + past + 1, columns before, max 1 (columns through - columns before)⟩

/-! ## Colours -/

/-- The parts of a shown diagnostic that have colours of their own. -/
inductive Role
  | label
  | title
  | gutter
  | caret

/-- The code that starts a role on a terminal. -/
def Role.code : Role → String
  | label | caret => "\x1b[1m\x1b[91m"
  | title => "\x1b[1m"
  | gutter => "\x1b[1m\x1b[94m"

/-- A text in a role, with colours or without. -/
def paint (colours : Bool) (role : Role) (s : String) : String :=
  if colours then role.code ++ s ++ "\x1b[0m" else s

/-! ## Layout -/

/-- Blanks. -/
def blanks (n : Nat) : String := String.ofList (List.replicate n ' ')

/-- The columns of a screen. -/
def screenWidth : Nat := 140

/-- The part of a line that is shown around a place, beside a gutter that holds the line number. -/
def Place.excerpt (p : Place) : Excerpt :=
  let room := screenWidth - ((toString p.line.number).length + 3)
  Excerpt.of p.line.text
    (Window.of room (columns p.line.text) (indentation p.line.text) p.indent (p.indent + p.width))

/-- The text of an excerpt. -/
def Excerpt.render (e : Excerpt) (colours : Bool) : String :=
  let mark := paint colours .gutter dots
  let leading :=
    match e.leading with
    | some n => mark ++ blanks n
    | none => ""
  let trailing :=
    match e.trailing with
    | some cs => mark ++ String.ofList cs
    | none => ""
  leading ++ String.ofList e.text ++ trailing

/-- A diagnostic with the line of the source it is about, and with the name of the source if it
has one. -/
def render (d : Diagnostic) (source : String) (path : Option String) (colours : Bool) : String :=
  let place := Place.of source.toList (marked d.span source.utf8ByteSize)
  let number := toString place.line.number
  let bar := paint colours .gutter "|"
  let title := paint colours .label "error" ++ paint colours .title (": " ++ shown d.message.toList)
  let origin :=
    match path with
    | some name =>
      "\n" ++ blanks number.length ++ paint colours .gutter "--> " ++ name ++ ":" ++ number ++ ":"
        ++ toString place.column
    | none => ""
  let margin := "\n" ++ blanks (number.length + 1) ++ bar
  let excerpt := place.excerpt
  let text := excerpt.render colours
  let line := "\n" ++ paint colours .gutter number ++ " " ++ bar
    ++ (if text = "" then "" else " " ++ text)
  let carets := paint colours .caret (String.ofList (List.replicate place.width '^'))
  title ++ origin ++ margin ++ line ++ margin ++ " " ++ blanks (place.indent - excerpt.skipped)
    ++ carets

end Diagnostic

end FlowTypes
