import FlowTypes.Evaluation.Session
import Mathlib.Tactic.Choose
import Mathlib.Tactic.SplitIfs

/-!
# What evaluation asks of definitions

The meaning of an expression takes the values of definitions as a parameter, and all it does with
them is to ask for one and to go on with the answer. `Query` lays this open as a tree : a result,
or a question and a tree for every answer. `Query.run` puts computations in for the answers, and
every meaning is such a run (`Expr.meaning_eq_run`, `Body.value_eq_run`). What is known of all
trees is thereby known of all meanings, without another look at the forms of expressions.

`Expr.references` collects the names that an expression refers to, other than those bound around
it. Evaluation asks for no other names, and it never complains of a cycle itself
(`Expr.confined_query`).
-/

namespace FlowTypes

/-! ## Trees of questions -/

/-- A result, or a question for the value of a name and how to go on with the answer. -/
inductive Query (α : Type)
  | done (result : Except EvalError α)
  | ask (name : String) (next : Ty → Query α)

namespace Query

variable {α β : Type}

/-- Goes on with the result, if there is one. -/
def bind : Query α → (α → Query β) → Query β
  | .done (.ok a), f => f a
  | .done (.error e), _ => .done (.error e)
  | .ask name next, f => .ask name fun t => (next t).bind f

/-- Computes the answers as they are asked for. -/
def run (value : String → Eval Ty) : Query α → Eval α
  | .done (.ok a) => return a
  | .done (.error e) => throw e
  | .ask name next => do (next (← value name)).run value

/-- The result for given answers. -/
def eval (answer : String → Except EvalError Ty) : Query α → Except EvalError α
  | .done result => result
  | .ask name next =>
    match answer name with
    | .ok t => (next t).eval answer
    | .error e => .error e

/-- Is the name asked for, given the answers? -/
def Asks (answer : String → Except EvalError Ty) : Query α → String → Prop
  | .done _, _ => False
  | .ask name next, other => other = name ∨ ∃ t, answer name = .ok t ∧ (next t).Asks answer other

/-- Are only such names ever asked for, and is a cycle not complained of? -/
def Confined (p : String → Prop) : Query α → Prop
  | .done result => ∀ name, result ≠ .error (.cyclicDefinition name)
  | .ask name next => p name ∧ ∀ t, (next t).Confined p

/-- Running a tree and what follows is running the one and then the other. -/
theorem run_bind (value : String → Eval Ty) (q : Query α) (f : α → Query β) :
    (q.bind f).run value = q.run value >>= fun a => (f a).run value := by
  induction q with
  | done result => cases result <;> simp [bind, run]
  | ask name next ih => simp [bind, run, ih]

theorem Confined.bind {p : String → Prop} {q : Query α} {f : α → Query β} (hq : q.Confined p)
    (hf : ∀ a, (f a).Confined p) : (q.bind f).Confined p := by
  induction q with
  | done result =>
    cases result with
    | ok a => exact hf a
    | error e => exact fun name he => hq name (congrArg _ (Except.error.inj he))
  | ask name next ih => exact ⟨hq.1, fun t => ih t (hq.2 t)⟩

theorem Confined.mono {p p' : String → Prop} {q : Query α} (hq : q.Confined p)
    (h : ∀ name, p name → p' name) : q.Confined p' := by
  induction q with
  | done result => exact hq
  | ask name next ih => exact ⟨h name hq.1, fun t => ih t (hq.2 t)⟩

end Query

/-! ## Computations that are runs -/

/-- Is the computation the run of a tree that is confined to such names? -/
def IsRun {α : Type} (p : String → Prop) (c : (String → Eval Ty) → Eval α) : Prop :=
  ∃ q : Query α, q.Confined p ∧ ∀ value, c value = q.run value

namespace IsRun

variable {α β : Type} {p : String → Prop}

theorem done (a : α) : IsRun p fun _ => return a :=
  ⟨.done (.ok a), nofun, fun _ => rfl⟩

theorem fail {e : EvalError} (he : ∀ name, e ≠ .cyclicDefinition name) :
    IsRun (α := α) p fun _ => throw e :=
  ⟨.done (.error e), fun name h => he name (Except.error.inj h), fun _ => rfl⟩

theorem ask {name : String} (h : p name) : IsRun p fun value => value name :=
  ⟨.ask name fun t => .done (.ok t), ⟨h, fun _ => nofun⟩, fun value => by simp [Query.run]⟩

theorem bind {c : (String → Eval Ty) → Eval α} {f : (String → Eval Ty) → α → Eval β}
    (hc : IsRun p c) (hf : ∀ a, IsRun p fun value => f value a) :
    IsRun p fun value => c value >>= f value := by
  obtain ⟨q, hq, hc⟩ := hc
  choose next hnext hf using hf
  refine ⟨q.bind next, hq.bind hnext, fun value => ?_⟩
  calc c value >>= f value
      = q.run value >>= f value := by rw [hc]
    _ = q.run value >>= fun a => (next a).run value := bind_congr fun a => hf a value
    _ = (q.bind next).run value := (Query.run_bind value q next).symm

theorem map {c : (String → Eval Ty) → Eval α} (f : α → β) (hc : IsRun p c) :
    IsRun p fun value => f <$> c value := by
  simpa only [map_eq_pure_bind] using hc.bind fun a => done (f a)

theorem mono {p' : String → Prop} {c : (String → Eval Ty) → Eval α} (hc : IsRun p c)
    (h : ∀ name, p name → p' name) : IsRun p' c := by
  obtain ⟨q, hq, hc⟩ := hc
  exact ⟨q, hq.mono h, hc⟩

/-- Computations for the items of a list, one after the other. -/
theorem mapM {f : (String → Eval Ty) → α → Eval β} : ∀ {items : List α},
    (∀ a ∈ items, IsRun p fun value => f value a) → IsRun p fun value => items.mapM (f value)
  | [], _ => by simpa only [List.mapM_nil] using done []
  | a :: items, h => by
    simp only [List.mapM_cons]
    exact (h a List.mem_cons_self).bind fun b =>
      (mapM fun a ha => h a (List.mem_cons_of_mem _ ha)).bind fun bs => done (b :: bs)

end IsRun

/-! ## The names that expressions refer to -/

mutual

/-- The names that an expression refers to, other than those bound around it. The name of an
instance always refers to a definition. -/
def Expr.references (bound : List String) : Expr → List String
  | .type _ => []
  | .named name => if name ∈ bound then [] else [name]
  | .instantiate name fields => name :: Expr.fieldReferences bound fields
  | .union items => Expr.listReferences bound items
  | .intersection items => Expr.listReferences bound items
  | .call _ args => Expr.listReferences bound args
  | .select scrutinee arms => scrutinee.references bound ++ Expr.armReferences bound arms
  | .access record _ => record.references bound

/-- The names that an arm refers to. Its own name is bound in the result. -/
def Arm.references (bound : List String) : Arm → List String
  | .mk pattern binding result =>
    pattern.references bound ++ result.references (binding.toList ++ bound)

/-- The names that some expressions refer to. -/
def Expr.listReferences (bound : List String) : List Expr → List String
  | [] => []
  | e :: es => e.references bound ++ Expr.listReferences bound es

/-- The names that some fields refer to. -/
def Expr.fieldReferences (bound : List String) : List (String × Expr) → List String
  | [] => []
  | (_, e) :: fields => e.references bound ++ Expr.fieldReferences bound fields

/-- The names that some arms refer to. -/
def Expr.armReferences (bound : List String) : List Arm → List String
  | [] => []
  | arm :: arms => arm.references bound ++ Expr.armReferences bound arms

end

/-- The names that a definition refers to. Nothing is bound around it. -/
def Registry.Body.references : Registry.Body → List String
  | .ofAlias e => e.references []
  | .ofStruct s => Expr.listReferences [] (s.fields.map (·.2))

/-! ## Meanings are runs -/

section Lists

variable (r : Registry) (value : String → Eval Ty)

theorem Expr.meanings_eq_map : ∀ es : List Expr,
    Expr.meanings r value es = es.map (·.meaning r value)
  | [] => rfl
  | e :: es => by rw [Expr.meanings, meanings_eq_map es, List.map_cons]

theorem Expr.fieldMeanings_eq_map : ∀ fields : List (String × Expr),
    Expr.fieldMeanings r value fields = fields.map fun f => (f.1, f.2.meaning r value)
  | [] => rfl
  | (name, e) :: fields => by rw [Expr.fieldMeanings, fieldMeanings_eq_map fields, List.map_cons]

theorem Expr.armMeanings_eq_map : ∀ arms : List Arm,
    Expr.armMeanings r value arms = arms.map (·.meaning r value)
  | [] => rfl
  | arm :: arms => by rw [Expr.armMeanings, armMeanings_eq_map arms, List.map_cons]

/-- The arm that treats a member is found from the patterns alone, so it does not depend on how
the values of definitions are computed. -/
theorem Arm.find?_zip_meanings (arms : List Arm) (patterns : List Ty) (member : Ty) :
    ((arms.map (·.meaning r value)).zip patterns).find? (fun found => member.subset found.2)
      = ((arms.zip patterns).find? fun found => member.subset found.2).map
          (Prod.map (·.meaning r value) id) := by
  rw [List.zip_map_left, List.find?_map]
  rfl

end Lists

namespace IsRun

variable {p : String → Prop} {b : Bindings} {r : Registry}

theorem checkGiven (s : Struct) : ∀ (seen given : List String),
    IsRun p fun _ => Meaning.checkGiven s seen given
  | _, [] => done ()
  | seen, field :: given => by
    unfold Meaning.checkGiven
    split_ifs
    · exact fail fun _ => nofun
    · exact checkGiven s (field :: seen) given
    · exact fail fun _ => nofun

theorem named {name : String} (h : name ∉ b.map (·.1) → p name) :
    IsRun p fun value => Meaning.named r value name b := by
  unfold Meaning.named
  cases hb : b.find? name with
  | some t => exact done t
  | none =>
    have hname : name ∉ b.map (·.1) := by
      simp only [Bindings.find?, Option.map_eq_none_iff, List.find?_eq_none,
        decide_eq_true_eq] at hb
      rw [List.mem_map]
      rintro ⟨entry, hentry, he⟩
      exact hb entry hentry he
    dsimp only
    split_ifs
    · exact ask (h hname)
    · cases Ty.primitive? name with
      | some t => exact done t
      | none => exact fail fun _ => nofun

theorem narrow {given : List (String × Expr)}
    (h : ∀ g ∈ given, IsRun p fun value => g.2.meaning r value b) :
    ∀ fields : List (String × Ty), IsRun p fun value =>
      Meaning.narrow (given.map fun g => (g.1, g.2.meaning r value)) b fields
  | [] => done []
  | (name, declared) :: fields => by
    have hfind : ∀ value,
        ((given.map fun g => (g.1, g.2.meaning r value)).find? fun g => g.1 = name)
          = (given.find? fun g => g.1 = name).map fun g => (g.1, g.2.meaning r value) :=
      fun value => List.find?_map
    simp only [Meaning.narrow, hfind]
    have hrest : ∀ t : Ty, IsRun p fun value => do
        return (name, t) ::
          (← Meaning.narrow (given.map fun g => (g.1, g.2.meaning r value)) b fields) :=
      fun t => bind (narrow h fields) fun ts => done ((name, t) :: ts)
    cases hg : given.find? fun g => decide (g.1 = name) with
    | some g => exact bind (map _ (h g (List.mem_of_find?_eq_some hg))) hrest
    | none => exact bind (done declared) hrest

theorem instantiate {name : String} {given : List (String × Expr)} (hname : p name)
    (h : ∀ g ∈ given, IsRun p fun value => g.2.meaning r value b) :
    IsRun p fun value => Meaning.instantiate r value name
      (given.map fun g => (g.1, g.2.meaning r value)) b := by
  unfold Meaning.instantiate
  cases hs : r.struct? name with
  | some s =>
    have hs : s.name = name := by simpa using List.find?_some hs
    simp only [List.map_map, Function.comp_def]
    refine bind (checkGiven s [] _) fun _ => bind (ask (hs ▸ hname)) fun t => ?_
    split
    · exact bind (narrow h _) fun fields => done _
    · exact done _
  | none =>
    dsimp only
    split_ifs
    · exact fail fun _ => nofun
    · exact fail fun _ => nofun

theorem arguments {f : Function} : ∀ {args : List Expr} {params : List Ty} {index : Nat},
    (∀ e ∈ args, IsRun p fun value => e.meaning r value b) → IsRun p fun value =>
      Meaning.arguments f b index (args.map (·.meaning r value)) params
  | [], _, _, _ => by simpa only [List.map_nil, Meaning.arguments] using done []
  | e :: args, [], _, _ => by simpa only [List.map_cons, Meaning.arguments] using done []
  | e :: args, param :: params, index, h => by
    simp only [List.map_cons, Meaning.arguments]
    refine bind (h e List.mem_cons_self) fun t => ?_
    split_ifs
    · exact bind (arguments fun e he => h e (List.mem_cons_of_mem _ he)) fun ts => done (t :: ts)
    · exact fail fun _ => nofun

theorem call {name : String} {args : List Expr}
    (h : ∀ e ∈ args, IsRun p fun value => e.meaning r value b) :
    IsRun p fun value => Meaning.call r name (args.map (·.meaning r value)) b := by
  unfold Meaning.call
  cases r.function? name with
  | none => exact fail fun _ => nofun
  | some f =>
    simp only [List.length_map]
    split_ifs
    · exact fail fun _ => nofun
    · exact bind (arguments h) fun ts => done (f.apply ts)

theorem all {es : List Expr} (h : ∀ e ∈ es, IsRun p fun value => e.meaning r value b) :
    IsRun p fun value => Meaning.all (es.map (·.meaning r value)) b := by
  simp only [Meaning.all, List.mapM_map]
  exact mapM h

theorem selectOne {arms : List Arm} (patterns : List Ty) (member : Ty)
    (h : ∀ arm ∈ arms, IsRun p fun value =>
      arm.result.meaning r value ((arm.binding.map fun name => (name, member)).toList ++ b)) :
    IsRun p fun value =>
      Meaning.selectOne ((arms.map (·.meaning r value)).zip patterns) b member := by
  unfold Meaning.selectOne
  simp only [Arm.find?_zip_meanings]
  cases harm : (arms.zip patterns).find? fun found => member.subset found.2 with
  | none => exact done none
  | some found =>
    obtain ⟨⟨pattern, binding, result⟩, covered⟩ := found
    have hmem : Arm.mk pattern binding result ∈ arms :=
      (List.of_mem_zip (List.mem_of_find?_eq_some harm)).1
    cases binding with
    | some name => exact map some (h _ hmem)
    | none => exact map some (h _ hmem)

theorem select {scrutinee : Expr} {arms : List Arm}
    (hscrutinee : IsRun p fun value => scrutinee.meaning r value b)
    (hpattern : ∀ arm ∈ arms, IsRun p fun value => arm.pattern.meaning r value b)
    (hresult : ∀ arm ∈ arms, ∀ member : Ty, IsRun p fun value =>
      arm.result.meaning r value ((arm.binding.map fun name => (name, member)).toList ++ b)) :
    IsRun p fun value =>
      Meaning.select (scrutinee.meaning r value) (arms.map (·.meaning r value)) b := by
  have hpatterns : ∀ value, (arms.map (·.meaning r value)).map (·.pattern)
      = (arms.map (·.pattern)).map (·.meaning r value) := by
    intro value
    rw [List.map_map, List.map_map]
    exact List.map_congr_left fun arm _ => by cases arm; rfl
  have hall : ∀ e ∈ arms.map (·.pattern), IsRun p fun value => e.meaning r value b := by
    intro e he
    obtain ⟨arm, harm, rfl⟩ := List.mem_map.1 he
    exact hpattern arm harm
  simp only [Meaning.select, hpatterns]
  exact bind hscrutinee fun t => bind (all hall) fun patterns =>
    bind (mapM fun member _ => selectOne patterns member fun arm harm => hresult arm harm member)
      fun results => done (Ty.union (results.filterMap id))

theorem access {record : Expr} (field : String)
    (h : IsRun p fun value => record.meaning r value b) :
    IsRun p fun value => Expr.meaning r value (.access record field) b := by
  simp only [Expr.meaning]
  refine bind h fun t => ?_
  cases ht : t.access field with
  | ok t' => exact done t'
  | error e =>
    refine fail fun name he => ?_
    subst he
    simp only [Ty.access] at ht
    split at ht
    · cases ht
    · split at ht <;> cases ht

end IsRun

mutual

/-- What an expression means is a run that only asks for the names it refers to. -/
theorem Expr.isRun (r : Registry) : ∀ (e : Expr) (b : Bindings),
    IsRun (· ∈ e.references (b.map (·.1))) fun value => e.meaning r value b
  | .type t, b => .done t
  | .named name, b => .named fun h => by simp [Expr.references, h]
  | .instantiate name fields, b => by
    simp only [Expr.meaning, Expr.fieldMeanings_eq_map, Expr.references]
    exact .instantiate List.mem_cons_self fun f hf =>
      (Expr.isRun_field r fields f hf b).mono fun _ h => List.mem_cons_of_mem _ h
  | .union items, b => by
    simp only [Expr.meaning, Expr.meanings_eq_map, Expr.references]
    exact .bind (.all fun e he => Expr.isRun_item r items e he b) fun ts => .done (Ty.union ts)
  | .intersection items, b => by
    simp only [Expr.meaning, Expr.meanings_eq_map, Expr.references]
    exact .bind (.all fun e he => Expr.isRun_item r items e he b) fun ts =>
      .done (Ty.intersectAll ts)
  | .call function args, b => by
    simp only [Expr.meaning, Expr.meanings_eq_map, Expr.references]
    exact .call fun e he => Expr.isRun_item r args e he b
  | .select scrutinee arms, b => by
    simp only [Expr.meaning, Expr.armMeanings_eq_map, Expr.references]
    exact .select ((Expr.isRun r scrutinee b).mono fun _ h => List.mem_append_left _ h)
      (fun arm harm => (Expr.isRun_arm r arms arm harm b).1.mono fun _ h =>
        List.mem_append_right _ h)
      (fun arm harm member => ((Expr.isRun_arm r arms arm harm b).2 member).mono fun _ h =>
        List.mem_append_right _ h)
  | .access record field, b => .access field (Expr.isRun r record b)

theorem Expr.isRun_item (r : Registry) : ∀ (es : List Expr), ∀ e ∈ es, ∀ b : Bindings,
    IsRun (· ∈ Expr.listReferences (b.map (·.1)) es) fun value => e.meaning r value b
  | e :: es, e', he', b => by
    simp only [Expr.listReferences]
    obtain he' | he' := List.mem_cons.1 he'
    · rw [he']
      exact (Expr.isRun r e b).mono fun _ h => List.mem_append_left _ h
    · exact (Expr.isRun_item r es e' he' b).mono fun _ h => List.mem_append_right _ h

theorem Expr.isRun_field (r : Registry) : ∀ (fields : List (String × Expr)), ∀ f ∈ fields,
    ∀ b : Bindings,
      IsRun (· ∈ Expr.fieldReferences (b.map (·.1)) fields) fun value => f.2.meaning r value b
  | (name, e) :: fields, f, hf, b => by
    simp only [Expr.fieldReferences]
    obtain hf | hf := List.mem_cons.1 hf
    · rw [hf]
      exact (Expr.isRun r e b).mono fun _ h => List.mem_append_left _ h
    · exact (Expr.isRun_field r fields f hf b).mono fun _ h => List.mem_append_right _ h

theorem Expr.isRun_arm (r : Registry) : ∀ (arms : List Arm), ∀ arm ∈ arms, ∀ b : Bindings,
    (IsRun (· ∈ Expr.armReferences (b.map (·.1)) arms) fun value => arm.pattern.meaning r value b) ∧
      ∀ member : Ty, IsRun (· ∈ Expr.armReferences (b.map (·.1)) arms) fun value =>
        arm.result.meaning r value ((arm.binding.map fun name => (name, member)).toList ++ b)
  | .mk pattern binding result :: arms, arm, harm, b => by
    simp only [Expr.armReferences, Arm.references]
    obtain harm | harm := List.mem_cons.1 harm
    · rw [harm]
      refine ⟨(Expr.isRun r pattern b).mono fun _ h =>
        List.mem_append_left _ (List.mem_append_left _ h), fun member => ?_⟩
      refine (Expr.isRun r result _).mono fun _ h =>
        List.mem_append_left _ (List.mem_append_right _ ?_)
      cases binding <;> exact h
    · refine ⟨(Expr.isRun_arm r arms arm harm b).1.mono fun _ h => List.mem_append_right _ h,
        fun member => ((Expr.isRun_arm r arms arm harm b).2 member).mono fun _ h =>
          List.mem_append_right _ h⟩

end

/-- What a definition means is a run that only asks for the names it refers to. -/
theorem Registry.Body.isRun (r : Registry) : ∀ d : Registry.Body,
    IsRun (· ∈ d.references) fun value => d.value r value
  | .ofAlias e => Expr.isRun r e []
  | .ofStruct s => by
    simp only [Registry.Body.value, Registry.Body.references, Expr.meanings_eq_map]
    exact .bind (.all fun e he => Expr.isRun_item r _ e he []) fun types => .done _

/-! ## The trees of expressions and definitions -/

/-- What an expression asks for : the tree that its meaning is the run of. -/
noncomputable def Expr.query (e : Expr) (r : Registry) (b : Bindings) : Query Ty :=
  (e.isRun r b).choose

theorem Expr.confined_query (e : Expr) (r : Registry) (b : Bindings) :
    (e.query r b).Confined (· ∈ e.references (b.map (·.1))) :=
  (e.isRun r b).choose_spec.1

theorem Expr.meaning_eq_run (e : Expr) (r : Registry) (value : String → Eval Ty) (b : Bindings) :
    e.meaning r value b = (e.query r b).run value :=
  (e.isRun r b).choose_spec.2 value

namespace Registry.Body

/-- What a definition asks for. -/
noncomputable def query (d : Body) (r : Registry) : Query Ty := (isRun r d).choose

theorem confined_query (d : Body) (r : Registry) : (d.query r).Confined (· ∈ d.references) :=
  (isRun r d).choose_spec.1

theorem value_eq_run (d : Body) (r : Registry) (value : String → Eval Ty) :
    d.value r value = (d.query r).run value :=
  (isRun r d).choose_spec.2 value

end Registry.Body

/-! ## Runs from what was found before -/

/-- A failure ends a computation that may fail, and leaves the state as it was then. -/
theorem runState_bind {ε σ α β : Type} (c : ExceptT ε (StateM σ) α)
    (f : α → ExceptT ε (StateM σ) β) (s : σ) :
    (c >>= f).run s =
      match c.run s with
      | (.ok a, s') => (f a).run s'
      | (.error e, s') => (.error e, s') := by
  change StateT.run (c >>= f).run s =
    match StateT.run c.run s with
    | (.ok a, s') => (f a).run s'
    | (.error e, s') => (.error e, s')
  rw [ExceptT.run_bind, StateT.run_bind]
  obtain ⟨result, s'⟩ := StateT.run c.run s
  cases result <;> rfl

theorem Query.run_done {α : Type} (value : String → Eval Ty) (result : Except EvalError α)
    (memo : Memo) : ((Query.done result).run value).run memo = (result, memo) := by
  cases result <;> rfl

theorem Query.run_ask {α : Type} (value : String → Eval Ty) (name : String)
    (next : Ty → Query α) (memo : Memo) :
    ((Query.ask name next).run value).run memo =
      match (value name).run memo with
      | (.ok t, found) => ((next t).run value).run found
      | (.error e, found) => (.error e, found) := by
  rw [Query.run, runState_bind]
  obtain ⟨result, found⟩ := (value name).run memo
  cases result <;> rfl

namespace Registry

/-- Induction on the names being computed : a claim about them may use that it holds with one
more of them. -/
theorem resolving_induction (r : Registry) {p : List String → Prop}
    (h : ∀ resolving, (∀ name ∈ r.typeNames, name ∉ resolving → p (name :: resolving)) →
      p resolving) (resolving : List String) : p resolving := by
  induction hn : r.unresolved resolving using Nat.strongRecOn generalizing resolving with
  | _ n ih =>
    subst hn
    exact h resolving fun name hname hnot => ih _ (unresolved_lt hname hnot) _ rfl

/-- How a name gets its value : from what was found before, or from its definition, which must not
be among those that are being computed. -/
theorem run_resolve (r : Registry) (resolving : List String) (name : String)
    (memo : Memo) :
    (r.resolve resolving name).run memo =
      match memo.find? name with
      | some t => (.ok t, memo)
      | none =>
        if name ∈ resolving then (.error (.cyclicDefinition name), memo)
        else
          match r.body? name with
          | none => (.error (.unknownType name), memo)
          | some d =>
            match ((d.query r).run (r.resolve (name :: resolving))).run memo with
            | (.ok t, found) => (.ok t, found.insert name t)
            | (.error e, found) => (.error e, found) := by
  have hget : (get : Eval Memo).run memo = (.ok memo, memo) := rfl
  rw [resolve, runState_bind, hget]
  dsimp only
  cases memo.find? name with
  | some t => rfl
  | none =>
    dsimp only
    split_ifs
    · rfl
    · split
      · next h => rw [h]; rfl
      · next d h =>
        rw [h, Body.value_eq_run, runState_bind]
        dsimp only
        obtain ⟨result, found⟩ := ((d.query r).run (r.resolve (name :: resolving))).run memo
        cases result <;> rfl

end Registry

end FlowTypes
