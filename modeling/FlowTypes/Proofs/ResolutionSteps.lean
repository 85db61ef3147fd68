import FlowTypes.Proofs.Queries
import Mathlib.Logic.Relation

/-!
# Resolution, step by step

The evaluator recurses through definitions and keeps the names it is computing in an argument.
`Machine` is the same computation with the recursion made explicit : a stack of the names being
computed, each with what is to be done with its value, and the tree of questions that is left to
be answered for the one on top. `Step` is one step of it, for a question that is met or a result
that is passed on. A machine ends where the evaluator does, with its answer and its memo
(`Machine.reaches_done`), so no run goes on for ever.

What a step preserves is `Machine.Sound` : no name is on the stack twice, all of them are defined,
and each is referred to by the one below it. A name that is met again on the stack is therefore
on a cycle of references (`Linked.transGen_refers`), and there is no other complaint of one.
`Session.resolution_ends` says so of every evaluation.
-/

namespace FlowTypes

open Relation

/-! ## References between definitions -/

namespace Registry

/-- The names that the definition of a name refers to. -/
def references (r : Registry) (name : String) : List String :=
  match r.body? name with
  | some d => d.references
  | none => []

/-- Does the definition of the first name refer to the second? -/
def Refers (r : Registry) (name other : String) : Prop := other ∈ r.references name

theorem references_of_body? {r : Registry} {name : String} {d : Body} (h : r.body? name = some d) :
    r.references name = d.references := by
  rw [references, h]

/-- Only names with a definition refer to anything. -/
theorem Refers.mem_typeNames {r : Registry} {name other : String} (h : r.Refers name other) :
    name ∈ r.typeNames := by
  cases hbody : r.body? name with
  | some d => exact mem_typeNames_of_body? hbody
  | none => simp [Refers, references, hbody] at h

/-- There is no cycle if definitions only refer to names of a lower rank. -/
theorem not_refers_cycle_of_rank {r : Registry} (rank : String → Nat)
    (h : ∀ name ∈ r.typeNames, ∀ other ∈ r.references name, rank other < rank name)
    (name : String) : ¬TransGen r.Refers name name := by
  intro hcycle
  have hlt : ∀ {other}, TransGen r.Refers name other → rank other < rank name := by
    intro other hreach
    induction hreach with
    | single h' => exact h _ h'.mem_typeNames _ h'
    | tail _ h' ih => exact Nat.lt_trans (h _ h'.mem_typeNames _ h') ih
  exact Nat.lt_irrefl _ (hlt hcycle)

end Registry

/-! ## The machine -/

/-- A name that is being computed, and how that which asked for it goes on with its value. -/
structure Frame where
  name : String
  next : Ty → Query Ty

/-- A computation between two steps : the names being computed, the last one first, what was found
so far, and what is left to be done for the last name. -/
structure Machine where
  stack : List Frame
  memo : Memo
  current : Query Ty

namespace Machine

/-- The names being computed. -/
def names (m : Machine) : List String := m.stack.map (·.name)

/-- One step. A machine without names that has a result takes none. -/
inductive Step (r : Registry) : Machine → Machine → Prop
  /-- The value of a name is found, and what asked for it goes on. -/
  | finish {frame stack memo t} :
    Step r ⟨frame :: stack, memo, .done (.ok t)⟩
      ⟨stack, memo.insert frame.name t, frame.next t⟩
  /-- A failure is one of what asked for the name, too. -/
  | abandon {frame stack memo e} :
    Step r ⟨frame :: stack, memo, .done (.error e)⟩ ⟨stack, memo, .done (.error e)⟩
  /-- The value was found before. -/
  | reuse {stack memo name next t} (hfind : memo.find? name = some t) :
    Step r ⟨stack, memo, .ask name next⟩ ⟨stack, memo, next t⟩
  /-- The name is being computed already. -/
  | meet {stack memo name next} (hfind : memo.find? name = none)
    (hname : name ∈ stack.map (·.name)) :
    Step r ⟨stack, memo, .ask name next⟩ ⟨stack, memo, .done (.error (.cyclicDefinition name))⟩
  /-- The name has no definition. -/
  | miss {stack memo name next} (hfind : memo.find? name = none)
    (hname : name ∉ stack.map (·.name)) (hbody : r.body? name = none) :
    Step r ⟨stack, memo, .ask name next⟩ ⟨stack, memo, .done (.error (.unknownType name))⟩
  /-- The definition of the name is computed. -/
  | enter {stack memo name next d} (hfind : memo.find? name = none)
    (hname : name ∉ stack.map (·.name)) (hbody : r.body? name = some d) :
    Step r ⟨stack, memo, .ask name next⟩ ⟨⟨name, next⟩ :: stack, memo, d.query r⟩

/-- Is the second machine reached from the first by steps? -/
abbrev Reaches (r : Registry) : Machine → Machine → Prop := ReflTransGen (Step r)

variable {r : Registry}

/-- A machine takes one step at most. -/
theorem Step.unique {m m' m'' : Machine} (h : Step r m m') (h' : Step r m m'') : m' = m'' := by
  cases h <;> cases h' <;> simp_all

/-- Runs from a machine that reaches the end are finite. -/
theorem Reaches.acc {m final : Machine} (h : Reaches r m final)
    (hfinal : ∀ m', ¬Step r final m') : Acc (fun later m => Step r m later) m := by
  induction h using ReflTransGen.head_induction_on with
  | refl => exact ⟨_, fun m' h => (hfinal m' h).elim⟩
  | head h _ ih => exact ⟨_, fun m' h' => h.unique h' ▸ ih⟩

/-- A machine answers what is asked as the evaluator does, and then goes on with the same
names. -/
theorem reaches_done (r : Registry) (resolving : List String) :
    ∀ (stack : List Frame) (q : Query Ty) (memo : Memo), stack.map (·.name) = resolving →
      Reaches r ⟨stack, memo, q⟩ ⟨stack, ((q.run (r.resolve resolving)).run memo).2,
        .done ((q.run (r.resolve resolving)).run memo).1⟩ := by
  induction resolving using Registry.resolving_induction r with
  | h resolving ih =>
  intro stack q memo hstack
  induction q generalizing memo with
  | done result =>
    rw [Query.run_done]
  | ask name next ihq =>
    rw [Query.run_ask, r.run_resolve]
    cases hfind : memo.find? name with
    | some t => exact .head (.reuse hfind) (ihq t memo)
    | none =>
      split_ifs with hname
      · exact .single (.meet hfind (hstack ▸ hname))
      · cases hbody : r.body? name with
        | none => exact .single (.miss hfind (hstack ▸ hname) hbody)
        | some d =>
          have hd := ih name (Registry.mem_typeNames_of_body? hbody) hname (⟨name, next⟩ :: stack)
            (d.query r) memo (by rw [List.map_cons, hstack])
          have henter := ReflTransGen.head (.enter hfind (hstack ▸ hname) hbody) hd
          obtain ⟨result, found, hrun⟩ : ∃ result found,
              ((d.query r).run (r.resolve (name :: resolving))).run memo = (result, found) :=
            ⟨_, _, rfl⟩
          dsimp only
          rw [hrun] at henter ⊢
          cases result with
          | error e => exact henter.tail .abandon
          | ok t => exact henter.trans (.head .finish (ihq t _))

/-! ## What steps preserve -/

/-- The names that the computation on top of the stack may ask for : those that the definition of
the last name refers to, or those that the expression refers to if there is no name. -/
def scope (r : Registry) (bottom : List String) : List Frame → List String
  | [] => bottom
  | frame :: _ => r.references frame.name

/-- Is each name on the stack referred to by what is below it, which asks for nothing else once it
goes on? -/
def Linked (r : Registry) (bottom : List String) : List Frame → Prop
  | [] => True
  | frame :: stack =>
    frame.name ∈ scope r bottom stack ∧
      (∀ t, (frame.next t).Confined (· ∈ scope r bottom stack)) ∧ Linked r bottom stack

/-- Every name on the stack leads to all that the computation on top may ask for. So if that is
the name itself, there is a cycle of references. -/
theorem Linked.transGen_refers {bottom : List String} : ∀ {stack : List Frame},
    Linked r bottom stack → ∀ {name other : String}, name ∈ stack.map (·.name) →
      other ∈ scope r bottom stack → TransGen r.Refers name other
  | frame :: stack, ⟨hframe, _, hlinked⟩, name, other, hname, hother => by
    have hlast : r.Refers frame.name other := hother
    obtain rfl | hname := List.mem_cons.1 hname
    · exact .single hlast
    · exact (hlinked.transGen_refers hname hframe).tail hlast

/-- What holds of every machine on the way, for the names that the expression refers to. -/
structure Sound (r : Registry) (bottom : List String) (m : Machine) : Prop where
  nodup : m.names.Nodup
  defined : ∀ name ∈ m.names, name ∈ r.typeNames
  linked : Linked r bottom m.stack
  current : m.current.Confined (· ∈ scope r bottom m.stack) ∨
    ∃ name, m.current = .done (.error (.cyclicDefinition name)) ∧ TransGen r.Refers name name

theorem Sound.step {bottom : List String} {m m' : Machine} (hm : m.Sound r bottom)
    (h : Step r m m') : m'.Sound r bottom := by
  -- Only a result can be a complaint of a cycle, so what asks a question is confined.
  have hask : ∀ {name next}, m.current = .ask name next →
      (Query.ask name next).Confined (· ∈ scope r bottom m.stack) := by
    intro name next he
    rw [← he]
    refine hm.current.resolve_right ?_
    rintro ⟨_, hdone, -⟩
    rw [he] at hdone
    cases hdone
  cases h with
  | finish =>
    exact ⟨hm.nodup.of_cons, fun name h => hm.defined name (List.mem_cons_of_mem _ h),
      hm.linked.2.2, .inl (hm.linked.2.1 _)⟩
  | abandon =>
    exact ⟨hm.nodup.of_cons, fun name h => hm.defined name (List.mem_cons_of_mem _ h),
      hm.linked.2.2, hm.current⟩
  | reuse hfind => exact ⟨hm.nodup, hm.defined, hm.linked, .inl ((hask rfl).2 _)⟩
  | meet hfind hname =>
    exact ⟨hm.nodup, hm.defined, hm.linked,
      .inr ⟨_, rfl, hm.linked.transGen_refers hname (hask rfl).1⟩⟩
  | miss hfind hname hbody => exact ⟨hm.nodup, hm.defined, hm.linked, .inl fun _ => nofun⟩
  | @enter stack memo name next d hfind hname hbody =>
    refine ⟨List.nodup_cons.2 ⟨hname, hm.nodup⟩, ?_, ⟨(hask rfl).1, (hask rfl).2, hm.linked⟩,
      .inl ?_⟩
    · exact List.forall_mem_cons.2 ⟨Registry.mem_typeNames_of_body? hbody, hm.defined⟩
    · exact (d.confined_query r).mono fun other h => by
        rwa [scope, Registry.references_of_body? hbody]

theorem Sound.reaches {bottom : List String} {m m' : Machine} (hm : m.Sound r bottom)
    (h : Reaches r m m') : m'.Sound r bottom := by
  induction h with
  | refl => exact hm
  | tail _ h ih => exact ih.step h

/-- The machine for an expression, before its first step. -/
noncomputable def start (r : Registry) (memo : Memo) (e : Expr) (b : Bindings) : Machine :=
  ⟨[], memo, e.query r b⟩

theorem sound_start (r : Registry) (memo : Memo) (e : Expr) (b : Bindings) :
    (start r memo e b).Sound r (e.references (b.map (·.1))) :=
  ⟨List.nodup_nil, nofun, trivial, .inl (e.confined_query r b)⟩

end Machine

namespace Session

open Machine

/-- Evaluation ends with an answer, whatever was found before. On the way no name is computed
while it is being computed, and only names with a definition are. The answer complains of a cycle
only for a name whose definition leads back to the name, so never if no definition does. -/
theorem resolution_ends (s : Session) (e : Expr) (b : Bindings) :
    let first := start s.registry s.memo e b
    let answer := (s.compute e b).1
    Acc (fun later m => Machine.Step s.registry m later) first ∧
      Reaches s.registry first ⟨[], (s.compute e b).2.memo, .done answer⟩ ∧
      (∀ m, Reaches s.registry first m →
        m.names.Nodup ∧ ∀ name ∈ m.names, name ∈ s.registry.typeNames) ∧
      (∀ name, answer = .error (.cyclicDefinition name) →
        TransGen s.registry.Refers name name) ∧
      ((∀ name, ¬TransGen s.registry.Refers name name) →
        ∀ name, answer ≠ .error (.cyclicDefinition name)) := by
  intro first answer
  have hfirst : first.Sound s.registry (e.references (b.map (·.1))) := sound_start _ _ e b
  have hfinal : Reaches s.registry first ⟨[], (s.compute e b).2.memo, .done answer⟩ := by
    simp only [answer, compute, e.meaning_eq_run]
    exact reaches_done s.registry [] [] (e.query s.registry b) s.memo rfl
  have hcycle : ∀ name, answer = .error (.cyclicDefinition name) →
      TransGen s.registry.Refers name name := by
    intro name hanswer
    obtain hconfined | ⟨other, hother, hcycle⟩ := (hfirst.reaches hfinal).current
    · exact (hconfined name hanswer).elim
    · rw [hanswer] at hother
      cases hother
      exact hcycle
  refine ⟨hfinal.acc nofun, hfinal, fun m hm => ?_, hcycle, fun hacyclic name hanswer =>
    hacyclic name (hcycle name hanswer)⟩
  exact ⟨(hfirst.reaches hm).nodup, (hfirst.reaches hm).defined⟩

/-- Definitions that share one they refer to are no cycle, and are not taken for one. -/
theorem resolution_ends_shared :
    let r : Registry := ⟨[("top", .union [.named "left", .named "right"]),
      ("left", .named "base"), ("right", .named "base"), ("base", .type .number)], [], []⟩
    (∀ name, ¬TransGen r.Refers name name) ∧
      ∀ name, ((remembering r).compute (.named "top") []).1 ≠ .error (.cyclicDefinition name) := by
  intro r
  have hacyclic : ∀ name, ¬TransGen r.Refers name name :=
    Registry.not_refers_cycle_of_rank
      (fun name => if name = "top" then 2 else if name = "base" then 0 else 1) (by decide +kernel)
  exact ⟨hacyclic, (resolution_ends (remembering r) (.named "top") []).2.2.2.2 hacyclic⟩

end Session

end FlowTypes
