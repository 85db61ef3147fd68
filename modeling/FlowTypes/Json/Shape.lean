import FlowTypes.Json.Skip

/-!
# JSON of a given shape

Readers of texts, lists and records. A record is an object, in which unknown members are skipped
and known ones may stand once, or the list of its parts in order. A value of another kind is read
just far enough to see that it is one.
-/

namespace FlowTypes.Json

/-- A part of a record: its name, whether a draft has it already, and how it is read into the
draft. -/
structure Part (σ : Type) where
  name : String
  given : σ → Bool
  read : σ → Reader σ

namespace Reader

variable {α σ : Type}

/-- What is wrong with a value of another kind than asked for, after its first character. -/
def wrongKind (c : Char) : Reader α := do
  match c with
  | '"' =>
    let _ ← text
  | 'n' => word ['u', 'l', 'l']
  | 't' => word ['r', 'u', 'e']
  | 'f' => word ['a', 'l', 's', 'e']
  | c =>
    if c = '-' ∨ c.isDigit then
      let n ← number .truncated c
      if n.isTooLarge then fail .malformed
    else if c ≠ '[' ∧ c ≠ '{' then fail .malformed
  fail .mismatched

/-- A text. -/
def string : Reader String := do
  let c ← next
  if c = '"' then text else wrongKind c

/-- A list. -/
def list (element : Reader α) : Reader (List α) := do
  let c ← next
  if c = '[' then List.reverse <$> items ']' (fun as => (· :: as) <$> element) []
  else wrongKind c

/-- A member of an object, as part of a record. -/
def member (parts : List (Part σ)) (draft : σ) : Reader σ := do
  mark '"'
  let name ← text
  match parts.find? (·.name = name) with
  | none =>
    mark ':'
    skip
    return draft
  | some part =>
    if part.given draft then fail .mismatched
    mark ':'
    part.read draft

/-- The next element of a list, as part of a record. -/
def element (state : List (Part σ) × σ) : Reader (List (Part σ) × σ) := do
  match state with
  | ([], _) => fail .malformed
  | (part :: parts, draft) => return (parts, ← part.read draft)

/-- A record, read into a draft. -/
def record (parts : List (Part σ)) (draft : σ) : Reader σ := do
  let c ← next
  if c = '{' then items '}' (member parts) draft
  else if c = '[' then Prod.snd <$> items ']' element (parts, draft)
  else wrongKind c

/-- A part that a record needs. -/
def required (part : Option α) : Reader α :=
  match part with
  | some a => return a
  | none => fail .mismatched

/-- Reads a whole text. -/
def readAll (r : Reader α) (source : String) : Except Fault α :=
  match r source.toList with
  | .error e => .error e
  | .ok (a, ⟨rest, _⟩) => if rest.all isBlank then .ok a else .error .malformed

end Reader

end FlowTypes.Json
