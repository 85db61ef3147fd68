import FlowTypes.Evaluation.Error
import FlowTypes.Registry.Basic
import FlowTypes.Ty.Intersection

/-!
# The meaning of expressions

An expression means a computation from the bindings in scope to a type. Meanings are composed from
the meanings of the parts, so `Expr.meaning` recurses on the expression alone; how the name of a
definition gets its value is left open, as a parameter.

A name stands for the innermost binding, then for a definition, then for a built-in type.
Computations may fail, and they share the values of definitions that were found before
(`Memo`), also those found by a computation that failed later on.
-/

namespace FlowTypes

/-- The values of definitions found so far, if they are to be kept. -/
structure Memo where
  keeping : Bool
  names : List (String × Ty)
  deriving DecidableEq

namespace Memo

/-- Keeps nothing. -/
def off : Memo := ⟨false, []⟩

/-- Keeps values, and has none yet. -/
def empty : Memo := ⟨true, []⟩

/-- The value kept under a name. -/
def find? (m : Memo) (name : String) : Option Ty :=
  (m.names.find? fun entry => entry.1 = name).map (·.2)

/-- Keeps a value under a name. -/
def insert (m : Memo) (name : String) (t : Ty) : Memo :=
  if m.keeping then { m with names := (name, t) :: m.names } else m

end Memo

/-- A computation that may fail and that shares values of definitions. -/
abbrev Eval : Type → Type := ExceptT EvalError (StateM Memo)

/-- Types bound to names, the innermost first. -/
abbrev Bindings : Type := List (String × Ty)

/-- What an expression means: a type for every choice of bindings. -/
abbrev Meaning : Type := Bindings → Eval Ty

/-- The innermost binding of a name. -/
def Bindings.find? (b : Bindings) (name : String) : Option Ty :=
  (List.find? (fun entry => entry.1 = name) b).map (·.2)

/-- The built-in type of a name. -/
def Ty.primitive? (name : String) : Option Ty :=
  if name = "never" then some .never
  else if name = "any" then some .any
  else if name = "number" then some .number
  else if name = "string" then some .string
  else if name = "int" then some .int
  else none

/-- What an arm of a selection means. -/
structure ArmMeaning where
  pattern : Meaning
  binding : Option String
  result : Meaning

namespace Meaning

variable (r : Registry) (value : String → Eval Ty)

/-- A bare name. -/
def named (name : String) : Meaning := fun b =>
  match b.find? name with
  | some t => return t
  | none =>
    if name ∈ r.typeNames then value name
    else
      match Ty.primitive? name with
      | some t => return t
      | none => throw (.unknownType name)

/-- Refuses a given field that is not declared or given before. -/
def checkGiven (s : Struct) (seen : List String) : List String → Eval Unit
  | [] => return ()
  | field :: rest => do
    if field ∉ s.fields.map (·.1) then throw (.unknownField s.name field)
    else if field ∈ seen then throw (.duplicateField s.name field)
    else checkGiven s (field :: seen) rest

/-- Narrows the declared fields by those given. -/
def narrow (given : List (String × Meaning)) (b : Bindings) :
    List (String × Ty) → Eval (List (String × Ty))
  | [] => return []
  | (name, declared) :: rest => do
    let t ← match given.find? fun g => g.1 = name with
      | some (_, m) => (·.intersect declared) <$> m b
      | none => pure declared
    return (name, t) :: (← narrow given b rest)

/-- An instance of a declared struct. Where the declared type is empty, so is every instance. -/
def instantiate (name : String) (given : List (String × Meaning)) : Meaning := fun b =>
  match r.struct? name with
  | some s => do
    checkGiven s [] (given.map (·.1))
    match ← value s.name with
    | .oneOf [.record _ fields] => return .record s.name (← narrow given b fields)
    | _ => return .never
  | none =>
    if (b.find? name).isSome || (r.alias? name).isSome || (Ty.primitive? name).isSome then
      throw (.notAStruct name)
    else throw (.unknownType name)

/-- The types of some meanings, in order. -/
def all (ms : List Meaning) (b : Bindings) : Eval (List Ty) := ms.mapM fun m => m b

/-- The arguments of a call, each checked before the next is computed. -/
def arguments (f : Function) (b : Bindings) (index : Nat) :
    List Meaning → List Ty → Eval (List Ty)
  | m :: ms, param :: params => do
    let t ← m b
    if t.subset param then return t :: (← arguments f b (index + 1) ms params)
    else throw (.invalidArgument f.name index param t)
  | _, _ => return []

/-- A call of a function. -/
def call (name : String) (args : List Meaning) : Meaning := fun b =>
  match r.function? name with
  | none => throw (.unknownFunction name)
  | some f =>
    if f.params.length ≠ args.length then
      throw (.wrongArity f.name f.params.length args.length)
    else do return f.apply (← arguments f b 0 args f.params)

/-- The members of a type that a selection treats one by one. -/
def members : Ty → List Ty
  | .any => [.any]
  | .oneOf ss => ss.map Ty.ofShape

/-- The result for one member: that of the first arm whose pattern includes it, if there is
one. -/
def selectOne (arms : List (ArmMeaning × Ty)) (b : Bindings) (member : Ty) : Eval (Option Ty) :=
  match arms.find? fun (_, pattern) => member.subset pattern with
  | none => return none
  | some (arm, _) =>
    match arm.binding with
    | some name => some <$> arm.result ((name, member) :: b)
    | none => some <$> arm.result b

/-- A selection: the union of the results for the members. -/
def select (scrutinee : Meaning) (arms : List ArmMeaning) : Meaning := fun b => do
  let t ← scrutinee b
  let patterns ← all (arms.map (·.pattern)) b
  let results ← (members t).mapM (selectOne (arms.zip patterns) b)
  return Ty.union (results.filterMap id)

end Meaning

namespace Ty

/-- The type of a field in a shape, if it is a record with that field. -/
def fieldOf? (field : String) : Shape → Option Ty
  | .record _ fields => (fields.find? fun f => f.1 = field).map (·.2)
  | _ => none

/-- The type of a field: every shape has to be a record with that field. -/
def access (t : Ty) (field : String) : Except EvalError Ty :=
  match t with
  | .any => .error (.noField t field)
  | .oneOf ss =>
    match ss.mapM (fieldOf? field) with
    | some ts => .ok (Ty.union ts)
    | none => .error (.noField t field)

end Ty

mutual

/-- What an expression means, given how the names of definitions get their values. -/
def Expr.meaning (r : Registry) (value : String → Eval Ty) : Expr → Meaning
  | .type t => fun _ => return t
  | .named name => Meaning.named r value name
  | .instantiate name fields =>
    Meaning.instantiate r value name (Expr.fieldMeanings r value fields)
  | .union items => fun b => do return Ty.union (← Meaning.all (Expr.meanings r value items) b)
  | .intersection items => fun b => do
    return Ty.intersectAll (← Meaning.all (Expr.meanings r value items) b)
  | .call function args => Meaning.call r function (Expr.meanings r value args)
  | .select scrutinee arms =>
    Meaning.select (scrutinee.meaning r value) (Expr.armMeanings r value arms)
  | .access record field => fun b => do liftExcept ((← record.meaning r value b).access field)
where
  /-- A computation that may only fail. -/
  liftExcept {α : Type} : Except EvalError α → Eval α
    | .ok a => return a
    | .error e => throw e

/-- What an arm means. -/
def Arm.meaning (r : Registry) (value : String → Eval Ty) : Arm → ArmMeaning
  | .mk pattern binding result => ⟨pattern.meaning r value, binding, result.meaning r value⟩

/-- What some expressions mean. -/
def Expr.meanings (r : Registry) (value : String → Eval Ty) : List Expr → List Meaning
  | [] => []
  | e :: es => e.meaning r value :: Expr.meanings r value es

/-- What some fields mean. -/
def Expr.fieldMeanings (r : Registry) (value : String → Eval Ty) :
    List (String × Expr) → List (String × Meaning)
  | [] => []
  | (name, e) :: fields => (name, e.meaning r value) :: Expr.fieldMeanings r value fields

/-- What some arms mean. -/
def Expr.armMeanings (r : Registry) (value : String → Eval Ty) : List Arm → List ArmMeaning
  | [] => []
  | arm :: arms => arm.meaning r value :: Expr.armMeanings r value arms

end

end FlowTypes
