import FlowTypes.Diagnostic.Render
import FlowTypes.Node.Typing

/-!
# Reports on nodes

What checking a node found, for readers and as JSON, and the wording of what ended the check.
-/

namespace FlowTypes.Node

/-- The wording of an error. -/
def Error.message : Error → String
  | unreadable reason => reason.diagnostic.oneLine
  | meaningless reason => reason.message

/-- The word for the status of an input. -/
def InputStatus.word : InputStatus → String
  | valid => "valid"
  | unconnected => "unconnected"
  | invalid _ _ => "invalid"

/-- The line on an input. -/
def inputLine (p : Pin) (status : InputStatus) : String :=
  let detail :=
    match status with
    | .invalid expected actual =>
      " (expected " ++ expected.text ++ ", got " ++ actual.text ++ ")"
    | _ => ""
  "  input " ++ p.label ++ ": " ++ status.word ++ detail ++ "\n"

/-- The line on an output. -/
def outputLine (p : Pin) (t : Ty) : String := "  output " ++ p.label ++ ": " ++ t.text ++ "\n"

/-- A report for readers, one line for the node and one for each pin. -/
def Typing.report (t : Typing) (schema : Schema) : String :=
  schema.name ++ "\n" ++ String.join (List.zipWith inputLine schema.inputs t.inputs)
    ++ String.join (List.zipWith outputLine schema.outputs t.outputs)

/-- An input as JSON. The types are given where they do not agree. -/
def inputJson (p : Pin) (status : InputStatus) : Json.Value :=
  let detail :=
    match status with
    | .invalid expected actual =>
      [("expected", .text expected.text), ("actual", .text actual.text)]
    | _ => []
  .object ([("label", .text p.label), ("status", .text status.word)] ++ detail)

/-- An output as JSON. -/
def outputJson (p : Pin) (t : Ty) : Json.Value :=
  .object [("label", .text p.label), ("type", .text t.text)]

/-- A report as JSON. -/
def Typing.json (t : Typing) (schema : Schema) : Json.Value :=
  .object [("node", .text schema.name), ("valid", .bool t.isValid),
    ("inputs", .list (List.zipWith inputJson schema.inputs t.inputs)),
    ("outputs", .list (List.zipWith outputJson schema.outputs t.outputs))]

end FlowTypes.Node
