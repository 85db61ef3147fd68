import FlowTypes.Json.Scalar

/-!
# Skipping JSON

A value that nobody asks for is skipped, however deep it nests. What is still open is kept in a
list, and every step takes a character at least.
-/

namespace FlowTypes.Json.Reader

/-- What encloses a value that is skipped. -/
inductive Bracket
  | list
  | object
  deriving DecidableEq

/-- The closing half of a bracket. -/
def Bracket.close : Bracket → Char
  | list => ']'
  | object => '}'

/-- What is left to skip: a value or what follows one, and the brackets around it, the innermost
first. -/
inductive Skipping
  | value (around : List Bracket)
  | after (around : List Bracket)

/-- A name and the colon after it. -/
def skipName : Reader Unit := do
  mark '"'
  skipText
  mark ':'

/-- Goes on to the next value inside a bracket. -/
def enter (b : Bracket) (around : List Bracket) : Reader Skipping := do
  if b = .object then skipName
  return .value (b :: around)

/-- Goes on after an opening bracket. -/
def openBracket (b : Bracket) (around : List Bracket) : Reader Skipping := do
  if (← peek) = b.close then
    mark b.close
    return .after around
  else enter b around

/-- Goes on after the first character of a value. -/
def skipValue (around : List Bracket) (c : Char) : Reader Skipping := do
  match c with
  | '[' => openBracket .list around
  | '{' => openBracket .object around
  | '"' => skipText
           return .after around
  | 'n' => word ['u', 'l', 'l']
           return .after around
  | 't' => word ['r', 'u', 'e']
           return .after around
  | 'f' => word ['a', 'l', 's', 'e']
           return .after around
  | c =>
    if c = '-' ∨ c.isDigit then
      let _ ← number .malformed c
      return .after around
    else fail .malformed

/-- Goes on after the first character behind a value. -/
def skipAfter (b : Bracket) (around : List Bracket) (c : Char) : Reader Skipping := do
  if c = ',' then enter b around
  else if c = b.close then return .after around
  else fail .malformed

/-- Goes on after a character that is not a blank. -/
def skipStep (c : Char) : Skipping → Reader Skipping
  | .value around => skipValue around c
  | .after (b :: around) => skipAfter b around c
  | .after [] => fail .malformed

/-- Skips what is left to skip. -/
def skipFrom (s : Skipping) : Reader Unit := fun cs =>
  match s with
  | .after [] => .ok ((), ⟨cs, List.suffix_refl cs⟩)
  | s =>
    match split cs with
    | .error e => .error e
    | .ok (c, ⟨rest, h, hlt⟩) =>
      match skipStep c s rest with
      | .error e => .error e
      | .ok (s', ⟨rest', h'⟩) =>
        have : rest'.length < cs.length := Nat.lt_of_le_of_lt h'.length_le hlt
        match skipFrom s' rest' with
        | .error e => .error e
        | .ok ((), ⟨rest'', h''⟩) => .ok ((), ⟨rest'', (h''.trans h').trans h⟩)
termination_by cs => cs.length

/-- Skips a value. -/
def skip : Reader Unit := skipFrom (.value [])

end FlowTypes.Json.Reader
