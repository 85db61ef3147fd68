/-!
# Readers of JSON

A reader takes the characters that are left of a text to a result and the characters left after
it, or to the first fault. That what is left is a suffix of what there was is part of the result,
so repetition ends because texts do.

Faults are found from left to right: a value of the wrong kind is reported where it starts to
differ, whatever comes later in the text.
-/

namespace FlowTypes.Json

/-- Why a text is not the JSON that was asked for: it ends too early, it is not JSON, or it is
JSON of another shape. -/
inductive Fault
  | truncated
  | malformed
  | mismatched
  deriving DecidableEq

/-- The wording of a fault. -/
def Fault.message : Fault → String
  | truncated => "unexpected end of text"
  | malformed => "not well-formed"
  | mismatched => "unexpected value"

/-- The characters left by a reader. -/
abbrev Rest (cs : List Char) := { rest : List Char // rest <:+ cs }

/-- A reader: from the characters left of a text to a result. -/
def Reader (α : Type) : Type := (cs : List Char) → Except Fault (α × Rest cs)

namespace Reader

variable {α β σ : Type}

/-- Succeeds without looking at the text. -/
def pure (a : α) : Reader α := fun cs => .ok (a, ⟨cs, List.suffix_refl cs⟩)

/-- One reader after the other. -/
def bind (r : Reader α) (f : α → Reader β) : Reader β := fun cs =>
  match r cs with
  | .error e => .error e
  | .ok (a, ⟨rest, h⟩) =>
    match f a rest with
    | .error e => .error e
    | .ok (b, ⟨rest', h'⟩) => .ok (b, ⟨rest', h'.trans h⟩)

instance : Monad Reader where
  pure := pure
  bind := bind

/-- Fails. -/
def fail (fault : Fault) : Reader α := fun _ => .error fault

/-! ## Characters -/

/-- Blanks may stand between the parts of a value. -/
def isBlank (c : Char) : Bool := c = ' ' || c = '\n' || c = '\t' || c = '\r'

/-- The characters in a class that come next. -/
def run (p : Char → Bool) : Reader (List Char) := fun cs =>
  .ok (cs.takeWhile p, ⟨cs.dropWhile p, List.dropWhile_suffix p⟩)

/-- The next character that is not a blank, and the shorter rest after it. -/
def split (cs : List Char) :
    Except Fault (Char × { rest : List Char // rest <:+ cs ∧ rest.length < cs.length }) :=
  match h : cs.dropWhile isBlank with
  | [] => .error .truncated
  | c :: rest =>
    have hs : c :: rest <:+ cs := h ▸ List.dropWhile_suffix isBlank
    .ok (c, ⟨rest, (List.suffix_cons c rest).trans hs, hs.length_le⟩)

/-- Takes the next character that is not a blank. -/
def next : Reader Char := fun cs =>
  match split cs with
  | .error e => .error e
  | .ok (c, ⟨rest, h, _⟩) => .ok (c, ⟨rest, h⟩)

/-- Looks at the next character that is not a blank. -/
def peek : Reader Char := fun cs =>
  match split cs with
  | .error e => .error e
  | .ok (c, _) => .ok (c, ⟨cs, List.suffix_refl cs⟩)

/-- The next character, if there is one. -/
def take? : Reader (Option Char) := fun cs =>
  match cs with
  | [] => .ok (none, ⟨[], List.suffix_refl []⟩)
  | c :: rest => .ok (some c, ⟨rest, List.suffix_cons c rest⟩)

/-- The next character. -/
def take : Reader Char := do
  match ← take? with
  | some c => return c
  | none => fail .truncated

/-- Takes the next character if it is in a class, and says which it was. -/
def accept? (p : Char → Bool) : Reader (Option Char) := fun cs =>
  match cs with
  | [] => .ok (none, ⟨[], List.suffix_refl []⟩)
  | c :: rest =>
    if p c then .ok (some c, ⟨rest, List.suffix_cons c rest⟩)
    else .ok (none, ⟨c :: rest, List.suffix_refl _⟩)

/-- The given character, after blanks. -/
def mark (c : Char) : Reader Unit := do
  if (← next) ≠ c then fail .malformed

/-- The given characters. -/
def word : List Char → Reader Unit
  | [] => return ()
  | c :: cs => do
    if (← take) ≠ c then fail .malformed
    word cs

/-! ## Repetition -/

/-- More items, each after a comma, up to and with the closing bracket. -/
def moreItems (close : Char) (item : σ → Reader σ) (s : σ) : Reader σ := fun cs =>
  match split cs with
  | .error e => .error e
  | .ok (c, ⟨rest, h, hlt⟩) =>
    if c = close then .ok (s, ⟨rest, h⟩)
    else if c = ',' then
      match item s rest with
      | .error e => .error e
      | .ok (s', ⟨rest', h'⟩) =>
        have : rest'.length < cs.length := Nat.lt_of_le_of_lt h'.length_le hlt
        match moreItems close item s' rest' with
        | .error e => .error e
        | .ok (s'', ⟨rest'', h''⟩) => .ok (s'', ⟨rest'', (h''.trans h').trans h⟩)
    else .error .malformed
termination_by cs => cs.length

/-- Items between commas up to and with the closing bracket, folded into a state. -/
def items (close : Char) (item : σ → Reader σ) (s : σ) : Reader σ := do
  if (← peek) = close then
    mark close
    return s
  else moreItems close item (← item s)

end Reader

end FlowTypes.Json
