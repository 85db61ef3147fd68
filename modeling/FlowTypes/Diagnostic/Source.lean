import FlowTypes.Text.Span
import FlowTypes.Text.Width

/-!
# Lines of a text

A text is cut into lines at newlines, with a return before the newline left out. A newline at the
very end starts no further line, and an empty text has one empty line. A position in bytes lies on
the line that covers it, and on the last line if none does.

`shown` is the way a line is printed: tabs as four blanks, and control characters by visible
signs.
-/

namespace FlowTypes.Diagnostic

/-- A line: its number, its first byte, its characters, and the byte after its end. -/
structure Line where
  number : Nat
  start : Nat
  text : List Char
  stop : Nat
  deriving DecidableEq

/-- The characters of a line that were read backwards, without a return at the end. -/
def withoutReturn : List Char → List Char
  | '\r' :: before => before.reverse
  | before => before.reverse

/-- The lines from a given one on, whose first characters have been read backwards. -/
def linesFrom (number start : Nat) (before : List Char) : List Char → List Line
  | [] => if before = [] then [] else [⟨number, start, before.reverse, start + byteLength before⟩]
  | c :: cs =>
    if c = '\n' then
      let stop := start + byteLength before + 1
      ⟨number, start, withoutReturn before, stop⟩ :: linesFrom (number + 1) stop [] cs
    else linesFrom number start (c :: before) cs

/-- The lines of a text. -/
def lines (cs : List Char) : List Line := linesFrom 1 0 [] cs

/-- The line of a position. -/
def lineOf (cs : List Char) (position : Nat) : Line :=
  let ls := lines cs
  (ls.find? fun l => l.start ≤ position && position < l.stop).getD
    (ls.getLast?.getD ⟨1, 0, [], 0⟩)

/-- The first characters that fit into some room, when each takes its size. -/
def within (size : Char → Nat) (room : Nat) : List Char → List Char
  | [] => []
  | c :: cs => if size c ≤ room then c :: within size (room - size c) cs else []

/-! ## Printing -/

/-- Characters that change the direction of what follows. -/
def isDirectional (c : Char) : Bool :=
  ('\u202a' ≤ c && c ≤ '\u202e') || ('\u2066' ≤ c && c ≤ '\u2069')

/-- The way a character is printed. -/
def shownChar (c : Char) : List Char :=
  if c = '\t' then [' ', ' ', ' ', ' ']
  else if c < ' ' then [Char.ofNat (0x2400 + c.toNat)]
  else if c = '\x7f' then ['\u2421']
  else if c = '\u200d' then []
  else if isDirectional c then ['\ufffd']
  else [c]

/-- The way a text is printed. -/
def shown (cs : List Char) : String := String.ofList (cs.flatMap shownChar)

/-- The columns of a text as it is printed. -/
def columns (cs : List Char) : Nat := totalWidth (cs.flatMap shownChar)

end FlowTypes.Diagnostic
