import FlowTypes.CommandLine.Arguments
import FlowTypes.Diagnostic.Render
import FlowTypes.Node.Report
import FlowTypes.Registry.Builtins
import FlowTypes.Syntax.Definitions

/-!
# Running commands

A command computes an exit status and the texts for the two output streams from its arguments and
the files it may read. Files with definitions come first, in order; then all expressions and the
schema are read, then evaluated. The first error is the only output. The status is 1 after an error
and for a negative answer, and 2 if the arguments do not fit.
-/

namespace FlowTypes.CommandLine

/-- Why a file cannot be read. -/
inductive ReadError
  | missing
  | denied
  | directory
  | notText
  deriving DecidableEq

/-- The wording of a reason. -/
def ReadError.message : ReadError → String
  | missing => "No such file or directory (os error 2)"
  | denied => "Permission denied (os error 13)"
  | directory => "Is a directory (os error 21)"
  | notText => "stream did not contain valid UTF-8"

/-- The texts of files by their paths. -/
abbrev Files : Type := String → Except ReadError String

/-- What a run leaves: its status, and what it wrote. -/
structure Outcome where
  status : Nat
  stdout : String
  stderr : String
  deriving DecidableEq

/-- How the program is called. -/
def helpText : String :=
  "Usage:\n"
    ++ "  eval EXPR          evaluate a type expression\n"
    ++ "  subset LEFT RIGHT  check whether every value of LEFT is a value of RIGHT\n"
    ++ "  node SCHEMA        check a node against the types connected to its inputs\n\n"
    ++ "Options:\n"
    ++ "  -d, --defs FILE      load struct and let definitions from a file\n"
    ++ "  -i, --input N=EXPR   connect input N to a value of type EXPR (node)\n"
    ++ "      --json           print the result as JSON (node)\n"
    ++ "      --color WHEN     colour diagnostics: auto, always or never\n"
    ++ "  -h, --help           print help\n"

/-! ## Steps -/

/-- A step that an error text may end. -/
abbrev Step : Type → Type := Except String

/-- An error text for a message. -/
def errorText (message : String) : String := "error: " ++ message

/-- The text of a file. -/
def readFile (files : Files) (path : String) : Step String :=
  (files path).mapError fun reason =>
    errorText ("failed to read '" ++ path ++ "': " ++ reason.message)

/-- Adds the definitions of some files. -/
def addDefinitions (files : Files) (colours : Bool) (r : Registry) : List String → Step Registry
  | [] => return r
  | path :: paths => do
    let source ← readFile files path
    match r.parse source with
    | (r, none) => addDefinitions files colours r paths
    | (_, some e) => throw (e.diagnostic.render source (some path) colours)

/-- The expression that a text is. -/
def readExpr (colours : Bool) (source : String) : Step Expr :=
  (Expr.parse source).mapError fun e => e.diagnostic.render source none colours

/-- The type of an expression. -/
def evaluate (r : Registry) (e : Expr) : Step Ty :=
  (e.evaluate r []).mapError fun reason => errorText reason.message

/-- Puts the types of some expressions into the slots of inputs. -/
def connect (schema : Node.Schema) (r : Registry) (colours : Bool) (slots : List (Option Ty)) :
    List (Nat × String) → Step (List (Option Ty))
  | [] => return slots
  | (index, source) :: inputs => do
    if slots.length ≤ index then
      throw (errorText ("node '" ++ schema.name ++ "' has " ++ toString schema.inputs.length
        ++ " input(s), got --input " ++ toString index))
    let t ← evaluate r (← readExpr colours source)
    connect schema r colours (slots.set index (some t)) inputs

/-! ## Commands -/

/-- A command that succeeds unless its answer is negative: the answer and the output. -/
def Command.run (c : Command) (files : Files) (r : Registry) (colours : Bool) :
    Step (Bool × String) := do
  match c with
  | .eval expr =>
    let t ← evaluate r (← readExpr colours expr)
    return (true, t.text ++ "\n")
  | .subset left right =>
    let left ← readExpr colours left
    let right ← readExpr colours right
    let answer := (← evaluate r left).subset (← evaluate r right)
    return (answer, (if answer then "true" else "false") ++ "\n")
  | .node path inputs json =>
    let source ← readFile files path
    let schema ← (Node.Schema.parse source).mapError fun fault =>
      errorText ("invalid node schema: " ++ fault.message)
    let slots ← connect schema r colours (schema.inputs.map fun _ => none) inputs
    let typing ← (schema.check slots r).mapError fun e => errorText e.message
    let text := if json then (typing.json schema).pretty ++ "\n" else typing.report schema
    return (typing.isValid, text)

/-- Runs an invocation. -/
def Invocation.run (i : Invocation) (files : Files) (terminal : Bool) : Outcome :=
  let colours := i.colour.isOn terminal
  let outcome := do
    let r ← addDefinitions files colours .withBuiltins i.definitions
    i.command.run files r colours
  match outcome with
  | .ok (positive, text) => ⟨if positive then 0 else 1, text, ""⟩
  | .error text => ⟨1, "", text ++ "\n"⟩

/-- The outcome of arguments that name no command to run. -/
def Refusal.outcome : Refusal → Outcome
  | help => ⟨0, helpText, ""⟩
  | usage => ⟨2, "", helpText⟩

/-- Runs the program. `terminal` tells whether the error stream is a terminal. -/
def run (args : List String) (files : Files) (terminal : Bool) : Outcome :=
  match Invocation.read args with
  | .ok i => i.run files terminal
  | .error refusal => refusal.outcome

end FlowTypes.CommandLine
