import FlowTypes.Text.Hex
import FlowTypes.Text.Visible

/-!
# Quoted text

`Quoted.write` puts a text between quotes: the quote, the backslash, newline, return, tab and the
null character have short escapes, every other character that is not visible is written by its
number, and the rest stands for itself.

`Quoted.unescape` resolves the escapes a source text may use, which are fewer: the quote, the
backslash, newline, return and tab. It reports where an unknown escape stands, in bytes.
-/

namespace FlowTypes.Quoted

/-- One character, as written between quotes. -/
def escape (c : Char) : List Char :=
  if c = '"' then ['\\', '"']
  else if c = '\\' then ['\\', '\\']
  else if c = '\n' then ['\\', 'n']
  else if c = '\r' then ['\\', 'r']
  else if c = '\t' then ['\\', 't']
  else if c = '\x00' then ['\\', '0']
  else if isVisible c then [c]
  else '\\' :: 'u' :: '{' :: Hex.digits c.toNat ++ ['}']

/-- A text between quotes. -/
def write (s : String) : String :=
  String.ofList ('"' :: s.toList.flatMap escape ++ ['"'])

/-- The character that a backslash with this character stands for. -/
def escaped? (c : Char) : Option Char :=
  if c = '"' then some '"'
  else if c = '\\' then some '\\'
  else if c = 'n' then some '\n'
  else if c = 'r' then some '\r'
  else if c = 't' then some '\t'
  else none

/-- The text that the characters between two quotes denote. An unknown escape is reported by its
first and last byte, counted from `offset`. -/
def unescape (offset : Nat) : List Char → Except (Nat × Nat) (List Char)
  | [] => .ok []
  | '\\' :: c :: rest =>
    match escaped? c with
    | some d => (unescape (offset + 1 + c.utf8Size) rest).map (d :: ·)
    | none => .error (offset, offset + 1 + c.utf8Size)
  | c :: rest =>
    if c = '\\' then .error (offset, offset + 1)
    else (unescape (offset + c.utf8Size) rest).map (c :: ·)

end FlowTypes.Quoted
