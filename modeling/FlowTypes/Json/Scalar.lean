import FlowTypes.Binary64.Arithmetic
import FlowTypes.Json.Reader
import FlowTypes.Text.Hex
import FlowTypes.Text.Span

/-!
# Texts and numbers in JSON

A text that is read has its escapes resolved, and pairs of code units put together. Of a text that
is skipped only the form of its escapes matters. A number is never used, but its form is checked,
and one beyond the range of doubles is no number.
-/

namespace FlowTypes.Json.Reader

attribute [local instance] corePow

/-! ## Texts -/

/-- The character that a backslash with this character stands for. -/
def shortEscape? (c : Char) : Option Char :=
  match c with
  | '"' => some '"'
  | '\\' => some '\\'
  | '/' => some '/'
  | 'b' => some '\x08'
  | 'f' => some '\x0c'
  | 'n' => some '\n'
  | 'r' => some '\r'
  | 't' => some '\t'
  | _ => none

/-- A code unit in four hexadecimal digits. Fewer than four bytes are a text that ends too
early. -/
def codeUnit : Reader Nat := fun cs =>
  match cs with
  | a :: b :: c :: d :: rest =>
    match [a, b, c, d].mapM Hex.value? with
    | some ds =>
      .ok (ds.foldl (fun n d => 16 * n + d) 0, ⟨rest, List.suffix_append [a, b, c, d] rest⟩)
    | none => .error .malformed
  | cs => .error (if byteLength cs < 4 then .truncated else .malformed)

/-- The character that starts with a code unit: the first half of a pair needs the second, and
the second half does not stand alone. -/
def paired (unit : Nat) : Reader Char := do
  if 0xdc00 ≤ unit ∧ unit ≤ 0xdfff then fail .malformed
  else if 0xd800 ≤ unit ∧ unit ≤ 0xdbff then
    word ['\\', 'u']
    let second ← codeUnit
    if 0xdc00 ≤ second ∧ second ≤ 0xdfff then
      return Char.ofNat (0x10000 + 0x400 * (unit - 0xd800) + (second - 0xdc00))
    else fail .malformed
  else return Char.ofNat unit

/-- Any code unit, where nobody asks for the character. -/
def unpaired (_ : Nat) : Reader Char := return ' '

/-- What follows a backslash. -/
def escape (unit : Nat → Reader Char) : Reader Char := do
  let c ← take
  if c = 'u' then unit (← codeUnit)
  else
    match shortEscape? c with
    | some d => return d
    | none => fail .malformed

/-- What follows the opening quote of a text. -/
def quoted (unit : Nat → Reader Char) : Reader (List Char) := fun cs =>
  match cs with
  | [] => .error .truncated
  | c :: rest =>
    if c = '"' then .ok ([], ⟨rest, List.suffix_cons c rest⟩)
    else if c < ' ' then .error .malformed
    else if c = '\\' then
      match escape unit rest with
      | .error e => .error e
      | .ok (d, ⟨rest', h⟩) =>
        have : rest'.length < rest.length + 1 := Nat.lt_succ_of_le h.length_le
        match quoted unit rest' with
        | .error e => .error e
        | .ok (ds, ⟨rest'', h'⟩) =>
          .ok (d :: ds, ⟨rest'', (h'.trans h).trans (List.suffix_cons c rest)⟩)
    else
      match quoted unit rest with
      | .error e => .error e
      | .ok (ds, ⟨rest', h⟩) => .ok (c :: ds, ⟨rest', h.trans (List.suffix_cons c rest)⟩)
termination_by cs => cs.length

/-- The text that follows an opening quote. -/
def text : Reader String := String.ofList <$> quoted paired

/-- Skips the text that follows an opening quote. -/
def skipText : Reader Unit := do
  let _ ← quoted unpaired

/-! ## Numbers -/

/-- The digits of a number without its sign: `whole.fraction` times a power of ten. -/
structure Numeral where
  whole : List Char
  fraction : List Char
  exponent : Int

/-- One digit or more. A text that ends before the first is at fault as `cut` says. -/
def digits (cut : Fault) : Reader (List Char) := do
  match ← run Char.isDigit with
  | [] =>
    match ← take? with
    | none => fail cut
    | some _ => fail .malformed
  | ds => return ds

/-- An exponent after its mark. -/
def exponent (cut : Fault) : Reader Int := do
  let sign ← accept? fun c => c = '+' || c = '-'
  let size := Nat.ofDigitChars 10 (← digits cut) 0
  return if sign = some '-' then -size else size

/-- What follows the first digit of a number. -/
def numeral (cut : Fault) (first : Char) : Reader Numeral := do
  let whole := first :: (← run Char.isDigit)
  if first = '0' ∧ 1 < whole.length then fail .malformed
  let fraction ← if (← accept? (· = '.')).isSome then digits cut else pure []
  let exponent ← if (← accept? fun c => c = 'e' || c = 'E').isSome then exponent cut else pure 0
  return ⟨whole, fraction, exponent⟩

/-- What follows the first character of a number, a digit or the sign. -/
def number (cut : Fault) (first : Char) : Reader Numeral := do
  if first = '-' then
    match ← take? with
    | none => fail cut
    | some c => if c.isDigit then numeral cut c else fail .malformed
  else numeral cut first

/-- Puts digits behind a significand of 64 bits, as far as they fit: the significand, and how many
digits did. -/
def absorb (significand : Nat) : List Char → Nat × Nat
  | [] => (significand, 0)
  | d :: ds =>
    let longer := 10 * significand + (d.toNat - '0'.toNat)
    if longer < 2 ^ (64 : Nat) then
      let (s, n) := absorb longer ds
      (s, n + 1)
    else (significand, 0)

/-- Is a number too large for a double? It is read as a significand of 64 bits times a power of
ten. -/
def Numeral.isTooLarge (n : Numeral) : Bool :=
  let (s, wholeDigits) := absorb 0 n.whole
  let (s, fractionDigits) := absorb s n.fraction
  let exponent := n.exponent + (n.whole.length - wholeDigits : Nat) - fractionDigits
  s ≠ 0 && 0 ≤ exponent &&
    (308 < exponent || !(Binary64.ofNat s * Binary64.ofNat (10 ^ exponent.toNat)).isFinite)

end FlowTypes.Json.Reader
