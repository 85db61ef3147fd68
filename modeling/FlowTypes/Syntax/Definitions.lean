import FlowTypes.Syntax.Expression

/-!
# Reading definitions

```text
file     = (struct | let)*
struct   = "struct" name (";" | "{" [name ":" expr ("," name ":" expr)* [","]] "}")
let      = "let" name "=" expr ";"
```

Definitions are added to a registry one by one as they are read, so those before an error stay. A
refused definition is an error at its name.
-/

namespace FlowTypes

namespace Syntax

open FlowTypes.Parser (expect accept)

/-- A definition as it was read, with the place of its name. -/
inductive Definition
  | ofStruct (name : String) (span : Span) (fields : List (String × Expr))
  | ofAlias (name : String) (span : Span) (value : Expr)

/-- What follows the word that announces a struct. -/
def structBody : Parser Definition := do
  let (name, span) ← Parser.name
  if ← accept .semicolon then return .ofStruct name span []
  else return .ofStruct name span (← fields (expression maxDepth .openFields))

/-- What follows the word that announces an alias. -/
def aliasBody : Parser Definition := do
  let (name, span) ← Parser.name
  let _ ← expect .equals
  let value ← expression maxDepth .openFields
  let _ ← expect .semicolon
  return .ofAlias name span value

/-- What follows the word that announces a definition, if the kind of token is one. -/
def announced? : Token.Kind → Option (Parser Definition)
  | .structWord => some structBody
  | .letWord => some aliasBody
  | _ => none

end Syntax

namespace Registry

/-- Adds a definition, unless it is refused. -/
def add (r : Registry) : Syntax.Definition → Except SyntaxError Registry
  | .ofStruct name span fields => (r.addStruct name fields).mapError fun e => ⟨.refused e, span⟩
  | .ofAlias name span value => (r.addAlias name value).mapError fun e => ⟨.refused e, span⟩

/-- Adds the definitions that some tokens are, up to the first error. -/
def addTokens (sourceLength : Nat) (r : Registry) (ts : List Token) :
    Registry × Option SyntaxError :=
  match ts with
  | [] => (r, none)
  | t :: rest =>
    match Syntax.announced? t.kind with
    | none => (r, some ⟨Parser.surprise .definition (t :: rest), t.span⟩)
    | some definition =>
      match definition sourceLength rest with
      | .error e => (r, some e)
      | .ok (d, ⟨rest', h⟩) =>
        match r.add d with
        | .error e => (r, some e)
        | .ok r' =>
          have : rest'.length < rest.length + 1 := Nat.lt_succ_of_le h.length_le
          addTokens sourceLength r' rest'
termination_by ts.length

/-- Adds the definitions of a source text, up to the first error. -/
def parse (r : Registry) (source : String) : Registry × Option SyntaxError :=
  r.addTokens source.utf8ByteSize (Token.lex source)

end Registry

end FlowTypes
