import FlowTypes.Json.Shape
import FlowTypes.Json.Value

/-!
# Node schemas

A schema names a node of a dataflow graph and declares its pins, the inputs and outputs: labels
with type expressions as texts. Schemas are read from JSON records of `name`, `inputs` and
`outputs`, of which the last two may be missing; pins are records of `label` and `type`.
-/

namespace FlowTypes.Node

/-- A declared input or output: a label, and a type expression as a text. -/
structure Pin where
  label : String
  type : String
  deriving DecidableEq

/-- What a node declares. -/
structure Schema where
  name : String
  inputs : List Pin
  outputs : List Pin
  deriving DecidableEq

/-! ## Reading -/

/-- The parts of a pin read so far. -/
structure Pin.Draft where
  label : Option String
  type : Option String

/-- The parts of a pin. -/
def Pin.parts : List (Json.Part Pin.Draft) :=
  [⟨"label", fun d => d.label.isSome, fun d => do return { d with label := ← Json.Reader.string }⟩,
    ⟨"type", fun d => d.type.isSome, fun d => do return { d with type := ← Json.Reader.string }⟩]

/-- Reads a pin. -/
def Pin.reader : Json.Reader Pin := do
  let d ← Json.Reader.record Pin.parts ⟨none, none⟩
  return ⟨← Json.Reader.required d.label, ← Json.Reader.required d.type⟩

/-- The parts of a schema read so far. -/
structure Schema.Draft where
  name : Option String
  inputs : Option (List Pin)
  outputs : Option (List Pin)

/-- The parts of a schema. -/
def Schema.parts : List (Json.Part Schema.Draft) :=
  [⟨"name", fun d => d.name.isSome, fun d => do return { d with name := ← Json.Reader.string }⟩,
    ⟨"inputs", fun d => d.inputs.isSome,
      fun d => do return { d with inputs := ← Json.Reader.list Pin.reader }⟩,
    ⟨"outputs", fun d => d.outputs.isSome,
      fun d => do return { d with outputs := ← Json.Reader.list Pin.reader }⟩]

/-- Reads a schema. -/
def Schema.reader : Json.Reader Schema := do
  let d ← Json.Reader.record Schema.parts ⟨none, none, none⟩
  return ⟨← Json.Reader.required d.name, d.inputs.getD [], d.outputs.getD []⟩

/-- The schema that a text is. -/
def Schema.parse (source : String) : Except Json.Fault Schema := Schema.reader.readAll source

/-! ## Writing -/

/-- A pin as JSON. -/
def Pin.json (p : Pin) : Json.Value := .object [("label", .text p.label), ("type", .text p.type)]

/-- A schema as JSON. -/
def Schema.json (s : Schema) : Json.Value :=
  .object [("name", .text s.name), ("inputs", .list (s.inputs.map Pin.json)),
    ("outputs", .list (s.outputs.map Pin.json))]

end FlowTypes.Node
