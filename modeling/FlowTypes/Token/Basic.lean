import FlowTypes.Text.Span

/-!
# Tokens

A token is a kind, the byte at which it starts, and the characters it is made of; its end follows
from these. `Token.Kind.describe` is the way a kind is spelled in messages.
-/

namespace FlowTypes

/-- The kinds of tokens. -/
inductive Token.Kind
  | parenOpen | parenClose | braceOpen | braceClose
  | comma | colon | semicolon | equals | fatArrow | pipe | ampersand | dot | dotDot | minus
  | underscore | number | string
  | inf | nan | int | numberWord | stringWord | never | any
  | matchWord | asWord | structWord | letWord
  | ident | garbage
  deriving DecidableEq

/-- How a kind of token is spelled in messages. -/
def Token.Kind.describe : Token.Kind → String
  | parenOpen => "`(`"
  | parenClose => "`)`"
  | braceOpen => "`\x7b`"
  | braceClose => "`\x7d`"
  | comma => "`,`"
  | colon => "`:`"
  | semicolon => "`;`"
  | equals => "`=`"
  | fatArrow => "`=>`"
  | pipe => "`|`"
  | ampersand => "`&`"
  | dot => "`.`"
  | dotDot => "`..`"
  | minus => "`-`"
  | underscore => "`_`"
  | number => "number literal"
  | string => "string literal"
  | inf => "`inf`"
  | nan => "`NaN`"
  | int => "`int`"
  | numberWord => "`number`"
  | stringWord => "`string`"
  | never => "`never`"
  | any => "`any`"
  | matchWord => "`match`"
  | asWord => "`as`"
  | structWord => "`struct`"
  | letWord => "`let`"
  | ident => "identifier"
  | garbage => "unrecognized input"

/-- A token of a source text. -/
structure Token where
  kind : Token.Kind
  start : Nat
  text : List Char
  deriving DecidableEq

namespace Token

/-- The byte after a token. -/
def stop (t : Token) : Nat := t.start + byteLength t.text

/-- The stretch of source text that a token covers. -/
def span (t : Token) : Span := ⟨t.start, t.stop⟩

/-- The characters of a token as a text. -/
def lexeme (t : Token) : String := String.ofList t.text

end Token

end FlowTypes
