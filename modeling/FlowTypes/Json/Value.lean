import FlowTypes.Text.Hex
import FlowTypes.Text.Join

/-!
# Writing JSON

Values, and their text: all on one line, or with every item of a list or an object on a line of its
own, indented by two blanks for each level. Empty lists and objects stay on one line. In texts the
quote, the backslash and control characters are escaped, and nothing else.
-/

namespace FlowTypes.Json

/-- A JSON value, as far as reports need them. -/
inductive Value
  | bool (b : Bool)
  | text (s : String)
  | list (items : List Value)
  | object (members : List (String × Value))

/-- One character of a text, as it is written. -/
def escapeChar (c : Char) : List Char :=
  match c with
  | '"' => ['\\', '"']
  | '\\' => ['\\', '\\']
  | '\x08' => ['\\', 'b']
  | '\x0c' => ['\\', 'f']
  | '\n' => ['\\', 'n']
  | '\r' => ['\\', 'r']
  | '\t' => ['\\', 't']
  | c => if c < ' ' then '\\' :: 'u' :: (Hex.padded 4 c.toNat).toList else [c]

/-- A text between quotes. -/
def quote (s : String) : String :=
  String.ofList ('"' :: s.toList.flatMap escapeChar ++ ['"'])

/-- How values are laid out: on one line, or indented from some level on. -/
inductive Layout
  | compact
  | indented (level : Nat)

namespace Layout

/-- The layout of the items in a list or an object. -/
def inner : Layout → Layout
  | compact => compact
  | indented level => indented (level + 1)

/-- What stands between a name and its value. -/
def colon : Layout → String
  | compact => ":"
  | indented _ => ": "

/-- The start of a line. -/
def newLine (level : Nat) : String := "\n" ++ String.ofList (List.replicate (2 * level) ' ')

/-- Items between brackets. -/
def enclose (l : Layout) (opening closing : String) : List String → String
  | [] => opening ++ closing
  | items =>
    match l with
    | compact => opening ++ joinWith "," items ++ closing
    | indented level =>
      let start := newLine (level + 1)
      opening ++ start ++ joinWith ("," ++ start) items ++ newLine level ++ closing

end Layout

mutual

/-- The text of a value. -/
def Value.write (l : Layout) : Value → String
  | .bool b => if b then "true" else "false"
  | .text s => quote s
  | .list items => l.enclose "[" "]" (Value.writeItems l.inner items)
  | .object members => l.enclose "\x7b" "\x7d" (Value.writeMembers l.inner members)

/-- The texts of the items of a list. -/
def Value.writeItems (l : Layout) : List Value → List String
  | [] => []
  | v :: vs => v.write l :: Value.writeItems l vs

/-- The texts of the members of an object. -/
def Value.writeMembers (l : Layout) : List (String × Value) → List String
  | [] => []
  | (name, v) :: members =>
    (quote name ++ l.colon ++ v.write l) :: Value.writeMembers l members

end

/-- The text of a value on one line. -/
def Value.compact (v : Value) : String := v.write .compact

/-- The text of a value with one item a line. -/
def Value.pretty (v : Value) : String := v.write (.indented 0)

end FlowTypes.Json
