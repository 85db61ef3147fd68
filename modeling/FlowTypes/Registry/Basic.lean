import FlowTypes.Expr.Basic

/-!
# The registry of definitions

Aliases, structs and functions, each in the order in which they were defined. Aliases and structs
share their names, functions have names of their own. Nothing that is defined is ever replaced: an
addition either comes last or is refused.
-/

namespace FlowTypes

/-- A declared struct. Its field types are expressions, so they may refer to other definitions. -/
structure Struct where
  name : String
  fields : List (String × Expr)

/-- A function on types. Every argument must be included in its parameter. -/
structure Function where
  name : String
  params : List Ty
  apply : List Ty → Ty

/-- Why a definition is refused. -/
inductive DefinitionError
  | alreadyDefined (name : String)
  | duplicateField (struct field : String)
  deriving DecidableEq

/-- The wording of a refusal. -/
def DefinitionError.message : DefinitionError → String
  | alreadyDefined name => "`" ++ name ++ "` is already defined"
  | duplicateField struct field =>
    "struct `" ++ struct ++ "` declares field `" ++ field ++ "` more than once"

/-- The first name that an earlier one of the list repeats, `seen` counting as earlier. -/
def firstRepeated? (seen : List String) : List String → Option String
  | [] => none
  | name :: names => if name ∈ seen then some name else firstRepeated? (name :: seen) names

/-- No name is repeated exactly if the list has no duplicates and none of those seen. -/
theorem firstRepeated?_eq_none_iff {seen names : List String} :
    firstRepeated? seen names = none ↔ names.Nodup ∧ ∀ name ∈ names, name ∉ seen := by
  induction names generalizing seen with
  | nil => simp [firstRepeated?]
  | cons name names ih =>
    simp only [firstRepeated?]
    split
    · next h => simp [h]
    · next h =>
      simp only [ih, List.mem_cons, not_or, List.nodup_cons, forall_eq_or_imp]
      constructor
      · rintro ⟨hn, hs⟩
        exact ⟨⟨fun hm => (hs name hm).1 rfl, hn⟩, h, fun x hx => (hs x hx).2⟩
      · rintro ⟨⟨hnot, hn⟩, -, hs⟩
        exact ⟨hn, fun x hx => ⟨fun e => hnot (e ▸ hx), hs x hx⟩⟩

/-- Definitions in the order in which they were made. -/
structure Registry where
  aliases : List (String × Expr)
  structs : List Struct
  functions : List Function

namespace Registry

/-- The registry without definitions. -/
def empty : Registry := ⟨[], [], []⟩

instance : Inhabited Registry := ⟨empty⟩

/-- The expression an alias stands for. -/
def alias? (r : Registry) (name : String) : Option Expr :=
  (r.aliases.find? fun a => a.1 = name).map (·.2)

/-- The struct of a name. -/
def struct? (r : Registry) (name : String) : Option Struct :=
  r.structs.find? fun s => s.name = name

/-- The function of a name. -/
def function? (r : Registry) (name : String) : Option Function :=
  r.functions.find? fun f => f.name = name

/-- The names that aliases and structs have taken. -/
def typeNames (r : Registry) : List String := r.aliases.map (·.1) ++ r.structs.map (·.name)

/-- Defines an alias, unless its name is taken. -/
def addAlias (r : Registry) (name : String) (value : Expr) : Except DefinitionError Registry :=
  if name ∈ r.typeNames then .error (.alreadyDefined name)
  else .ok { r with aliases := r.aliases ++ [(name, value)] }

/-- Defines a struct, unless its name is taken or a field name is repeated. -/
def addStruct (r : Registry) (name : String) (fields : List (String × Expr)) :
    Except DefinitionError Registry :=
  if name ∈ r.typeNames then .error (.alreadyDefined name)
  else
    match firstRepeated? [] (fields.map (·.1)) with
    | some field => .error (.duplicateField name field)
    | none => .ok { r with structs := r.structs ++ [⟨name, fields⟩] }

/-- Defines a function, unless its name is taken by another function. -/
def addFunction (r : Registry) (f : Function) : Except DefinitionError Registry :=
  if f.name ∈ r.functions.map (·.name) then .error (.alreadyDefined f.name)
  else .ok { r with functions := r.functions ++ [f] }

end Registry

end FlowTypes
