import FlowTypes.Text.Space

/-!
# Arguments

```text
eval EXPR          subset LEFT RIGHT          node SCHEMA
  -d, --defs FILE     load definitions, may be given more than once
  -i, --input N=EXPR  connect an input of a node, may be given more than once
      --json          report on a node as JSON
      --color WHEN    auto, always or never
  -h, --help
```

Options may stand anywhere after the command and take their value after a blank, after `=`, or,
for letters, directly. After `--` nothing is an option. A value that starts with a dash has to be
attached, unless it is a dash alone. Arguments are read from left to right, and the first that does
not fit decides.
-/

namespace FlowTypes.CommandLine

/-- Why arguments name no command to run. -/
inductive Refusal
  | usage
  | help
  deriving DecidableEq

/-- When diagnostics are coloured. -/
inductive Colour
  | auto
  | always
  | never
  deriving DecidableEq

/-- Are diagnostics coloured, on a terminal or elsewhere? -/
def Colour.isOn (terminal : Bool) : Colour → Bool
  | auto => terminal
  | always => true
  | never => false

/-- The commands. -/
inductive Verb
  | eval
  | subset
  | node
  deriving DecidableEq

/-- The options. -/
inductive Switch
  | definitions
  | input
  | json
  | colour
  | help
  deriving DecidableEq

/-- What an argument looks like. -/
inductive Argument
  | plain (text : String)
  | separator
  | switch (s : Switch) (attached : Option String)
  | unknown
  deriving DecidableEq

/-! ## Words -/

/-- The command of a word. -/
def Verb.ofWord? : String → Option Verb
  | "eval" => some eval
  | "subset" => some subset
  | "node" => some node
  | _ => none

/-- How many operands a command takes. -/
def Verb.arity : Verb → Nat
  | eval => 1
  | subset => 2
  | node => 1

/-- Does a command take an option? -/
def Verb.takes : Verb → Switch → Bool
  | node, _ => true
  | _, .input | _, .json => false
  | _, _ => true

/-- The option of a name. -/
def Switch.ofName? : String → Option Switch
  | "defs" => some definitions
  | "input" => some input
  | "json" => some json
  | "color" => some colour
  | "help" => some help
  | _ => none

/-- The option of a letter. -/
def Switch.ofLetter? : Char → Option Switch
  | 'd' => some definitions
  | 'i' => some input
  | 'h' => some help
  | _ => none

/-- Does an option take a value? -/
def Switch.hasValue : Switch → Bool
  | definitions | input | colour => true
  | json | help => false

/-- An option given by name, with the value after the first `=`. -/
def Argument.ofName (cs : List Char) : Argument :=
  let name := cs.takeWhile (· ≠ '=')
  match Switch.ofName? (String.ofList name) with
  | none => unknown
  | some s =>
    match cs.drop name.length with
    | [] => switch s none
    | _ :: value => if s.hasValue then switch s (some (String.ofList value)) else unknown

/-- An option given by a letter, with the value that follows it, if it takes one. -/
def Argument.ofLetter (c : Char) (cs : List Char) : Argument :=
  match Switch.ofLetter? c with
  | none => unknown
  | some s =>
    if s.hasValue then
      match cs with
      | [] => switch s none
      | '=' :: value => switch s (some (String.ofList value))
      | value => switch s (some (String.ofList value))
    else switch s none

/-- What an argument looks like. -/
def Argument.of (arg : String) : Argument :=
  match arg.toList with
  | ['-', '-'] => separator
  | '-' :: '-' :: cs => ofName cs
  | '-' :: c :: cs => ofLetter c cs
  | _ => plain arg

/-! ## Values -/

/-- What has been read. -/
structure Draft where
  operands : List String
  definitions : List String
  inputs : List (Nat × String)
  json : Bool
  colour : Option Colour

/-- The number of an input: digits after an optional plus sign, below `2 ^ 64`. -/
def inputNumber? (cs : List Char) : Option Nat :=
  let ds := match cs with
    | '+' :: ds => ds
    | ds => ds
  if ds ≠ [] ∧ ds.all Char.isDigit then
    let n := Nat.ofDigitChars 10 ds 0
    if n < 0x10000000000000000 then some n else none
  else none

/-- The number of an input and the expression connected to it. -/
def connection? (value : String) : Option (Nat × String) :=
  let cs := value.toList
  let number := cs.takeWhile (· ≠ '=')
  match cs.drop number.length with
  | [] => none
  | _ :: expr => (inputNumber? (trimmed number)).map fun n => (n, String.ofList expr)

/-- When to colour. -/
def Colour.ofWord? : String → Option Colour
  | "auto" => some auto
  | "always" => some always
  | "never" => some never
  | _ => none

namespace Draft

/-- Nothing has been read. -/
def empty : Draft := ⟨[], [], [], false, none⟩

/-- Adds an operand. -/
def addOperand (verb : Verb) (d : Draft) (text : String) : Except Refusal Draft :=
  if d.operands.length < verb.arity ∧ (verb = .node → text ≠ "") then
    .ok { d with operands := d.operands ++ [text] }
  else .error .usage

/-- Adds the value of an option. -/
def addValue (d : Draft) (s : Switch) (value : String) : Except Refusal Draft :=
  match s with
  | .definitions =>
    if value = "" then .error .usage else .ok { d with definitions := d.definitions ++ [value] }
  | .input =>
    match connection? value with
    | some c => .ok { d with inputs := d.inputs ++ [c] }
    | none => .error .usage
  | .colour =>
    match Colour.ofWord? value, d.colour with
    | some c, none => .ok { d with colour := some c }
    | _, _ => .error .usage
  | .json | .help => .error .usage

/-- Adds an option without a value. -/
def addFlag (d : Draft) (s : Switch) : Except Refusal Draft :=
  match s with
  | .help => .error .help
  | .json => if d.json then .error .usage else .ok { d with json := true }
  | _ => .error .usage

/-- Reads arguments after an option that waits for its value, if there is one. -/
def read (verb : Verb) (d : Draft) (waiting : Option Switch) :
    List String → Except Refusal Draft
  | [] => if waiting.isSome then .error .usage else .ok d
  | arg :: args =>
    match waiting, Argument.of arg with
    | some s, .plain text =>
      match d.addValue s text with
      | .ok d => read verb d none args
      | .error e => .error e
    | some _, _ => .error .usage
    | none, .plain text =>
      match d.addOperand verb text with
      | .ok d => read verb d none args
      | .error e => .error e
    | none, .separator => args.foldlM (addOperand verb) d
    | none, .unknown => .error .usage
    | none, .switch s attached =>
      if verb.takes s then
        match attached with
        | some value =>
          match d.addValue s value with
          | .ok d => read verb d none args
          | .error e => .error e
        | none =>
          if s.hasValue then read verb d (some s) args
          else
            match d.addFlag s with
            | .ok d => read verb d none args
            | .error e => .error e
      else .error .usage

end Draft

/-! ## Commands -/

/-- A command with its operands. -/
inductive Command
  | eval (expr : String)
  | subset (left right : String)
  | node (schema : String) (inputs : List (Nat × String)) (json : Bool)
  deriving DecidableEq

/-- What to run: a command, the files with definitions, and when to colour. -/
structure Invocation where
  command : Command
  definitions : List String
  colour : Colour
  deriving DecidableEq

/-- The invocation that has been read, if no operand is missing. -/
def Draft.finish (verb : Verb) (d : Draft) : Except Refusal Invocation :=
  let colour := d.colour.getD .auto
  match verb, d.operands with
  | .eval, [expr] => .ok ⟨.eval expr, d.definitions, colour⟩
  | .subset, [left, right] => .ok ⟨.subset left right, d.definitions, colour⟩
  | .node, [schema] => .ok ⟨.node schema d.inputs d.json, d.definitions, colour⟩
  | _, _ => .error .usage

/-- Does a request for help stand at the front? The word `help` may be followed by one command. -/
def asksForHelp : List String → Bool
  | ["help"] => true
  | ["help", word] => word = "help" || (Verb.ofWord? word).isSome
  | arg :: _ => Argument.of arg = .switch .help none
  | [] => false

/-- Reads the arguments of the program. -/
def Invocation.read (args : List String) : Except Refusal Invocation :=
  if asksForHelp args then .error .help
  else
    match args with
    | [] => .error .usage
    | word :: args =>
      match Verb.ofWord? word with
      | none => .error .usage
      | some verb => do (← Draft.empty.read verb none args).finish verb

/-- The files that an invocation reads, in order. -/
def Invocation.files (i : Invocation) : List String :=
  match i.command with
  | .node schema _ _ => i.definitions ++ [schema]
  | _ => i.definitions

end FlowTypes.CommandLine
