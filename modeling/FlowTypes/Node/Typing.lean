import FlowTypes.Evaluation.Session
import FlowTypes.Node.Schema
import FlowTypes.Syntax.Expression

/-!
# Typing nodes

What is connected to an input has to be included in the declared type. In the outputs the name
`Input` with the number of an input stands for the type that flows into it: what is connected, or
the declared type where nothing is. Inputs are checked in order, then outputs, and the first
expression that cannot be read or denotes nothing decides.
-/

namespace FlowTypes.Node

/-- Why an expression in a schema denotes no type. -/
inductive Error
  | unreadable (reason : SyntaxError)
  | meaningless (reason : EvalError)
  deriving DecidableEq

/-- What became of an input. -/
inductive InputStatus
  | valid
  | unconnected
  | invalid (expected actual : Ty)
  deriving DecidableEq

/-- What checking a node found, inputs and outputs in the order of the schema. -/
structure Typing where
  inputs : List InputStatus
  outputs : List Ty
  deriving DecidableEq

/-- Is what is connected to an input accepted? -/
def InputStatus.isValid : InputStatus → Bool
  | invalid _ _ => false
  | _ => true

/-- Is everything that is connected accepted? -/
def Typing.isValid (t : Typing) : Bool := t.inputs.all InputStatus.isValid

/-- The status of an input with a declared type, by what is connected to it. -/
def InputStatus.of (declared : Ty) : Option Ty → InputStatus
  | none => unconnected
  | some actual => if actual.subset declared then valid else invalid declared actual

/-- The name of an input in outputs. -/
def inputName (index : Nat) : String := "Input" ++ toString index

/-- A computation in a session that an error ends. -/
abbrev Checking : Type → Type := ExceptT Error (StateM Session)

/-- The expression that a text is. -/
def readExpr (source : String) : Checking Expr :=
  match Expr.parse source with
  | .ok e => return e
  | .error reason => throw (.unreadable reason)

/-- A step of the session. -/
def inSession (step : Session → Except EvalError Ty × Session) : Checking Ty := do
  let (result, s) := step (← get)
  set s
  match result with
  | .ok t => return t
  | .error reason => throw (.meaningless reason)

/-- The declared type of an input. -/
def declaredType (p : Pin) : Checking Ty := do
  let e ← readExpr p.type
  inSession fun s => s.evaluate e

/-- The type of an output, given what flows into the inputs. -/
def outputType (bindings : List (String × Ty)) (p : Pin) : Checking Ty := do
  let e ← readExpr p.type
  inSession fun s => s.evaluateWith e bindings

/-- The status of an input, and the type that flows into it. -/
def checkInput (p : Pin) (connected : Option Ty) : Checking (InputStatus × Ty) := do
  let declared ← declaredType p
  return (.of declared connected, connected.getD declared)

/-- The statuses of the inputs with the types that flow in. Inputs beyond what is listed as
connected are not connected. -/
def checkInputs : List Pin → List (Option Ty) → Checking (List (InputStatus × Ty))
  | [], _ => return []
  | p :: ps, connected => do
    let checked ← checkInput p connected.head?.join
    return checked :: (← checkInputs ps connected.tail)

/-- Checks a node: its inputs against what is connected to them, and the types of its outputs. -/
def Schema.checking (schema : Schema) (connected : List (Option Ty)) : Checking Typing := do
  let inputs ← checkInputs schema.inputs connected
  let bindings := inputs.zipIdx.map fun ((_, t), index) => (inputName index, t)
  return ⟨inputs.map (·.1), ← schema.outputs.mapM (outputType bindings)⟩

/-- Checks a node against the definitions of a registry. -/
def Schema.check (schema : Schema) (connected : List (Option Ty)) (r : Registry) :
    Except Error Typing :=
  ((schema.checking connected).run (.remembering r)).1

end FlowTypes.Node
