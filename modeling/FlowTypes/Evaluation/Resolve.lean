import FlowTypes.Evaluation.Meaning

/-!
# The values of definitions

The value of a name is that of its definition, computed without any bindings in scope. The names
that are being computed are remembered: meeting one of them again is an error. Since only defined
names are remembered, and each once, there are finitely many, and the recursion through definitions
ends (`unresolved_lt`).
-/

namespace FlowTypes

namespace Registry

/-- A definition of a type. -/
inductive Body
  | ofAlias (value : Expr)
  | ofStruct (s : Struct)

/-- What a name is defined as. -/
def body? (r : Registry) (name : String) : Option Body :=
  match r.alias? name with
  | some e => some (.ofAlias e)
  | none => (r.struct? name).map .ofStruct

/-- A name with a definition is one of the names that are taken. -/
theorem mem_typeNames_of_body? {r : Registry} {name : String} {d : Body}
    (h : r.body? name = some d) : name ∈ r.typeNames := by
  simp only [body?, alias?, struct?] at h
  simp only [typeNames, List.mem_append, List.mem_map]
  cases ha : r.aliases.find? fun a => a.1 = name with
  | some a => exact .inl ⟨a, List.mem_of_find?_eq_some ha, by simpa using List.find?_some ha⟩
  | none =>
    simp only [ha, Option.map_none] at h
    cases hs : r.structs.find? fun s => s.name = name with
    | some s => exact .inr ⟨s, List.mem_of_find?_eq_some hs, by simpa using List.find?_some hs⟩
    | none => simp [hs] at h

/-- How many of the names that are taken are not being computed. -/
def unresolved (r : Registry) (resolving : List String) : Nat :=
  (r.typeNames.filter (· ∉ resolving)).length

/-- Computing one more name leaves fewer. -/
theorem unresolved_lt {r : Registry} {resolving : List String} {name : String}
    (hr : name ∈ r.typeNames) (hn : name ∉ resolving) :
    r.unresolved (name :: resolving) < r.unresolved resolving := by
  have key : ∀ names : List String, name ∈ names →
      (names.filter (· ∉ name :: resolving)).length < (names.filter (· ∉ resolving)).length := by
    intro names hm
    have hsub : names.filter (· ∉ name :: resolving)
        = (names.filter (· ∉ resolving)).filter (· ≠ name) := by
      rw [List.filter_filter]
      congr 1
      funext x
      simp [List.mem_cons, not_or]
    rw [hsub]
    refine List.length_filter_lt_length_iff_exists.2 ⟨name, ?_, by simp⟩
    simp [hm, hn]
  exact key _ hr

/-- The type of a definition, given how names get their values. -/
def Body.value (r : Registry) (name : String → Eval Ty) : Body → Eval Ty
  | .ofAlias e => e.meaning r name []
  | .ofStruct s => do
    let types ← Meaning.all (Expr.meanings r name (s.fields.map (·.2))) []
    return .record s.name ((s.fields.map (·.1)).zip types)

/-- The value of a name, while the names in `resolving` are being computed. -/
def resolve (r : Registry) (resolving : List String) (name : String) : Eval Ty := do
  match (← get).find? name with
  | some t => return t
  | none =>
    if hn : name ∈ resolving then throw (.cyclicDefinition name)
    else
      match hb : r.body? name with
      | none => throw (.unknownType name)
      | some d =>
        have := unresolved_lt (mem_typeNames_of_body? hb) hn
        let t ← d.value r (fun other => r.resolve (name :: resolving) other)
        modify (·.insert name t)
        return t
termination_by r.unresolved resolving

end Registry

/-- The type of an expression with some bindings in scope. -/
def Expr.evaluate (e : Expr) (r : Registry) (b : Bindings) : Except EvalError Ty :=
  ((e.meaning r (r.resolve []) b).run .off).1

end FlowTypes
