import FlowTypes.Node.Typing
import FlowTypes.Proofs.LexicalScope

/-!
# What the outputs of a node depend on

A check of a node runs in a session, but what the session remembers makes no difference to it : its
answer is computed from the types of the pins alone, each evaluated with nothing remembered
(`Schema.check_eq`). What is connected to an input enters into it at one place, the binding of the
name of the input, besides the status of that input.

An output that does not refer to the name of an input sees, by lexical scope, nothing of that
binding (`Pin.typeIn_eq_of_not_mentions`). `scoping_lexical` says this of all checks of a node,
together with the same for the steps of a session.
-/

namespace FlowTypes

namespace Node

/-! ## Checks and their answers -/

/-- Does the check give this answer in every session that remembers nothing wrong, and leave such a
session? -/
def Answers {α : Type} (r : Registry) (c : Checking α) (answer : Except Error α) : Prop :=
  ∀ s : Session, s.Right r → (c.run s).1 = answer ∧ (c.run s).2.Right r

namespace Answers

variable {α β : Type} {r : Registry}

theorem done (a : α) : Answers r (pure a) (pure a) := fun _ hs => ⟨rfl, hs⟩

theorem fail (e : Error) : Answers (α := α) r (throw e) (.error e) := fun _ hs => ⟨rfl, hs⟩

theorem bind {c : Checking α} {f : α → Checking β} {a : Except Error α}
    {g : α → Except Error β} (hc : Answers r c a) (hf : ∀ x, Answers r (f x) (g x)) :
    Answers r (c >>= f) (a >>= g) := by
  intro s hs
  obtain ⟨hanswer, hright⟩ := hc s hs
  rw [runState_bind]
  obtain ⟨result, s', hrun⟩ : ∃ result s', c.run s = (result, s') := ⟨_, _, rfl⟩
  rw [hrun] at hanswer hright ⊢
  subst hanswer
  cases result with
  | ok x => exact hf x s' hright
  | error e => exact ⟨rfl, hright⟩

theorem mapM {f : α → Checking β} {g : α → Except Error β} (h : ∀ a, Answers r (f a) (g a)) :
    ∀ items : List α, Answers r (items.mapM f) (items.mapM g)
  | [] => done []
  | a :: items => by
    simp only [List.mapM_cons]
    exact (h a).bind fun b => (mapM h items).bind fun bs => done (b :: bs)

theorem readExpr (text : String) :
    Answers r (readExpr text) ((Expr.parse text).mapError .unreadable) := by
  unfold Node.readExpr
  cases Expr.parse text with
  | ok e => exact done e
  | error reason => exact fail (.unreadable reason)

theorem inSession {step : Session → Except EvalError Ty × Session} {answer : Except EvalError Ty}
    (h : ∀ s : Session, s.Right r → (step s).1 = answer ∧ (step s).2.Right r) :
    Answers r (inSession step) (answer.mapError .meaningless) := by
  intro s hs
  obtain ⟨rfl, hright⟩ := h s hs
  have hrun : (Node.inSession step).run s =
      ((step s).1.mapError .meaningless, (step s).2) := by
    have hget : (get : Checking Session).run s = (.ok s, s) := rfl
    rw [Node.inSession, runState_bind, hget]
    dsimp only
    obtain ⟨result, s'⟩ := step s
    cases result <;> rfl
  rw [hrun]
  exact ⟨rfl, hright⟩

end Answers

/-! ## The answer of a check -/

/-- The type that the text of a pin denotes for some bindings, with nothing remembered. -/
def Pin.typeIn (r : Registry) (b : Bindings) (p : Pin) : Except Error Ty := do
  let e ← (Expr.parse p.type).mapError .unreadable
  (e.evaluate r b).mapError .meaningless

/-- The statuses of inputs with the types that flow in, by the declared types and by what is
connected. -/
def flows : List Ty → List (Option Ty) → List (InputStatus × Ty)
  | [], _ => []
  | declared :: rest, connected =>
    (.of declared connected.head?.join, connected.head?.join.getD declared)
      :: flows rest connected.tail

/-- The bindings for the types that flow in, the first input first. -/
def flowBindings (inputs : List (InputStatus × Ty)) : Bindings :=
  inputs.zipIdx.map fun ((_, t), index) => (inputName index, t)

variable {r : Registry}

theorem answers_declaredType (p : Pin) : Answers r (declaredType p) (p.typeIn r []) :=
  (Answers.readExpr p.type).bind fun e => .inSession fun _ hs => hs.evaluate e

theorem answers_outputType (bindings : List (String × Ty)) (p : Pin) :
    Answers r (outputType bindings p) (p.typeIn r bindings.reverse) :=
  (Answers.readExpr p.type).bind fun e => .inSession fun _ hs => hs.compute e bindings.reverse

theorem answers_checkInputs : ∀ (inputs : List Pin) (connected : List (Option Ty)),
    Answers r (checkInputs inputs connected)
      (return flows (← inputs.mapM (Pin.typeIn r [])) connected)
  | [], _ => .done _
  | p :: inputs, connected => by
    simp only [List.mapM_cons, checkInputs, checkInput, bind_assoc, pure_bind, flows]
    refine (answers_declaredType p).bind fun declared => ?_
    simpa only [bind_assoc, pure_bind] using
      (answers_checkInputs inputs connected.tail).bind fun checked => .done (_ :: checked)

/-- What a check answers : the declared types decide what flows in, and this decides what flows
out. -/
theorem Schema.check_eq (schema : Schema) (connected : List (Option Ty)) (r : Registry) :
    schema.check connected r = do
      let declared ← schema.inputs.mapM (Pin.typeIn r [])
      let inputs := flows declared connected
      return ⟨inputs.map (·.1),
        ← schema.outputs.mapM (Pin.typeIn r (flowBindings inputs).reverse)⟩ := by
  have h := (answers_checkInputs (r := r) schema.inputs connected).bind fun inputs =>
    (Answers.mapM (answers_outputType (flowBindings inputs)) schema.outputs).bind fun outputs =>
      .done (Typing.mk (inputs.map (·.1)) outputs)
  have hanswer := (h _ (Session.right_remembering r)).1
  simp only [bind_assoc, pure_bind] at hanswer
  exact hanswer

/-! ## Inputs that are not seen -/

/-- Does the text of the pin refer to this name? -/
def Pin.Mentions (p : Pin) (name : String) : Prop :=
  ∃ e, Expr.parse p.type = .ok e ∧ name ∈ e.references []

theorem getElem?_flows : ∀ (declared : List Ty) (connected : List (Option Ty)) (i : Nat),
    (flows declared connected)[i]? = declared[i]?.map fun t =>
      (.of t connected[i]?.join, connected[i]?.join.getD t)
  | [], _, _ => rfl
  | t :: declared, connected, 0 => by simp [flows, List.head?_eq_getElem?]
  | t :: declared, connected, i + 1 => by
    simp [flows, getElem?_flows declared connected.tail i]

theorem length_flows (declared : List Ty) : ∀ connected : List (Option Ty),
    (flows declared connected).length = declared.length := by
  induction declared with
  | nil => exact fun _ => rfl
  | cons t declared ih => exact fun connected => congrArg (· + 1) (ih connected.tail)

variable {connected connected' : List (Option Ty)} {k : Nat}

/-- What is connected to one input only changes what is bound to its name. -/
theorem flowBindings_forall₂ (h : ∀ i ≠ k, connected[i]?.join = connected'[i]?.join)
    (declared : List Ty) :
    List.Forall₂ (fun entry entry' => entry = entry' ∨
        entry.1 = inputName k ∧ entry'.1 = inputName k)
      (flowBindings (flows declared connected)) (flowBindings (flows declared connected')) := by
  refine List.forall₂_iff_get.2 ⟨by simp [flowBindings, length_flows], fun i hi hi' => ?_⟩
  by_cases hik : i = k
  · exact .inr (by simp [flowBindings, hik])
  · left
    have hflow : (flows declared connected)[i]? = (flows declared connected')[i]? := by
      rw [getElem?_flows, getElem?_flows, h i hik]
    simp only [flowBindings, List.length_map, List.length_zipIdx] at hi hi'
    rw [List.getElem?_eq_getElem hi, List.getElem?_eq_getElem hi', Option.some_inj] at hflow
    simp [flowBindings, hflow]

/-- A pin that does not mention an input denotes the same whatever is connected to it. -/
theorem Pin.typeIn_eq_of_not_mentions {p : Pin}
    (h : ∀ i ≠ k, connected[i]?.join = connected'[i]?.join) (hp : ¬p.Mentions (inputName k))
    (declared : List Ty) :
    p.typeIn r (flowBindings (flows declared connected)).reverse
      = p.typeIn r (flowBindings (flows declared connected')).reverse := by
  unfold Pin.typeIn
  cases he : Expr.parse p.type with
  | error reason => rfl
  | ok e =>
    have hagree : Bindings.Agree (e.references [])
        (flowBindings (flows declared connected)).reverse
        (flowBindings (flows declared connected')).reverse := by
      intro name hname
      have hne : name ≠ inputName k := fun heq => hp ⟨e, he, heq ▸ hname⟩
      exact Bindings.find?_eq_of_forall₂ hne
        (List.forall₂_reverse_iff.2 (flowBindings_forall₂ h declared))
    exact congrArg (Except.mapError Error.meaningless) (Expr.evaluate_eq_of_agree hagree)

/-- The item at each place of a successful computation for a list is that of its own one. -/
theorem exists_getElem?_of_mapM {α β ε : Type} {f : α → Except ε β} {items : List α}
    {results : List β} (h : items.mapM f = .ok results) {j : Nat} {a : α}
    (ha : items[j]? = some a) : ∃ b, f a = .ok b ∧ results[j]? = some b := by
  obtain ⟨hlen, hget⟩ := List.forall₂_iff_get.1 (mapM_eq_ok_iff.1 h)
  obtain ⟨hj, rfl⟩ := List.getElem?_eq_some_iff.1 ha
  exact ⟨results[j], hget j hj (hlen ▸ hj), List.getElem?_eq_getElem (hlen ▸ hj)⟩

/-- The outputs of a check that succeeds, one by one. -/
theorem Schema.exists_output_of_check {schema : Schema} {typing : Typing}
    (h : schema.check connected r = .ok typing) :
    ∃ declared, schema.inputs.mapM (Pin.typeIn r []) = .ok declared ∧
      ∀ (j : Nat) (p : Pin), schema.outputs[j]? = some p →
        ∃ t, p.typeIn r (flowBindings (flows declared connected)).reverse = .ok t ∧
          typing.outputs[j]? = some t := by
  rw [check_eq] at h
  cases hinputs : schema.inputs.mapM (Pin.typeIn r []) with
  | error e => rw [hinputs] at h; cases h
  | ok declared =>
    rw [hinputs] at h
    cases houtputs : schema.outputs.mapM
        (Pin.typeIn r (flowBindings (flows declared connected)).reverse) with
    | error e =>
      simp only [bind, Except.bind, houtputs] at h
      cases h
    | ok outputs =>
      simp only [bind, Except.bind, houtputs] at h
      cases h
      exact ⟨declared, rfl, fun j p hp => exists_getElem?_of_mapM houtputs hp⟩

/-- If no output mentions an input, what is connected to it changes neither the types of the
outputs nor a failure. -/
theorem Schema.outputs_eq_of_not_mentions (schema : Schema)
    (h : ∀ i ≠ k, connected[i]?.join = connected'[i]?.join)
    (hpins : ∀ p ∈ schema.outputs, ¬p.Mentions (inputName k)) :
    (schema.check connected r).map (·.outputs) = (schema.check connected' r).map (·.outputs) := by
  rw [check_eq, check_eq]
  cases schema.inputs.mapM (Pin.typeIn r []) with
  | error e => rfl
  | ok declared =>
    have houtputs := mapM_congr fun p hp =>
      Pin.typeIn_eq_of_not_mentions (r := r) h (hpins p hp) declared
    simp only [bind, Except.bind, houtputs]
    cases schema.outputs.mapM (Pin.typeIn r (flowBindings (flows declared connected')).reverse) <;>
      rfl

end Node

/-- Evaluation only sees the bindings of the names that the expression refers to itself, so what
is bound never reaches a definition. The same holds of the outputs of a node : those that do not
mention the name of an input do not depend on what is connected to it, nor does a failure if none
of them mentions it. -/
theorem scoping_lexical :
    (∀ (s : Session) (e : Expr) (bindings bindings' : List (String × Ty)),
      Bindings.Agree (e.references []) bindings.reverse bindings'.reverse →
        s.evaluateWith e bindings = s.evaluateWith e bindings') ∧
    ∀ (r : Registry) (schema : Node.Schema) (k : Nat) (connected connected' : List (Option Ty)),
      (∀ i ≠ k, connected[i]?.join = connected'[i]?.join) →
        ((∀ p ∈ schema.outputs, ¬p.Mentions (Node.inputName k)) →
          (schema.check connected r).map (·.outputs)
            = (schema.check connected' r).map (·.outputs)) ∧
        ∀ typing typing' : Node.Typing, schema.check connected r = .ok typing →
          schema.check connected' r = .ok typing' →
            ∀ (j : Nat) (p : Node.Pin), schema.outputs[j]? = some p →
              ¬p.Mentions (Node.inputName k) →
                ∃ t, typing.outputs[j]? = some t ∧ typing'.outputs[j]? = some t := by
  refine ⟨fun s e _ _ => s.evaluateWith_eq_of_agree, fun r schema k connected connected' h =>
    ⟨schema.outputs_eq_of_not_mentions h, fun typing typing' hcheck hcheck' j p hp hmentions => ?_⟩⟩
  obtain ⟨declared, hinputs, houtputs⟩ := Node.Schema.exists_output_of_check hcheck
  obtain ⟨declared', hinputs', houtputs'⟩ := Node.Schema.exists_output_of_check hcheck'
  obtain rfl : declared = declared' := Except.ok.inj (hinputs.symm.trans hinputs')
  obtain ⟨t, ht, hj⟩ := houtputs j p hp
  obtain ⟨t', ht', hj'⟩ := houtputs' j p hp
  rw [Node.Pin.typeIn_eq_of_not_mentions h hmentions, ht'] at ht
  exact ⟨t, hj, Except.ok.inj ht ▸ hj'⟩

/-- A definition that refers to the name of an input does not see what is connected to it, unlike
an output that refers to the name itself. -/
theorem scoping_lexical_alias :
    let r : Registry := ⟨[("Port", .named "Input0"), ("Input0", .type .number)], [], []⟩
    let port : Node.Pin := ⟨"port", "Port | Input1"⟩
    let schema : Node.Schema :=
      ⟨"relay", [⟨"a", "number"⟩, ⟨"b", "string"⟩], [port, ⟨"same", "Input0"⟩]⟩
    let wide : Node.Typing := ⟨[.unconnected, .unconnected], [.union [.number, .string], .number]⟩
    let narrow : Node.Typing := ⟨[.valid, .unconnected], [.union [.number, .string], .int]⟩
    schema.check [] r = .ok wide ∧ schema.check [some .int] r = .ok narrow ∧
      (∃ t, wide.outputs[0]? = some t ∧ narrow.outputs[0]? = some t) ∧
      (Node.Schema.check ⟨"relay", schema.inputs, [port]⟩ [] r).map (·.outputs)
        = (Node.Schema.check ⟨"relay", schema.inputs, [port]⟩ [some .int] r).map (·.outputs) ∧
      (Session.remembering r).evaluateWith (.named "Port") []
        = (Session.remembering r).evaluateWith (.named "Port") [("Input0", .string)] := by
  intro r port schema wide narrow
  have hparse : Expr.parse port.type = .ok (.union [.named "Port", .named "Input1"]) := by
    decide +kernel
  have hport : ¬port.Mentions (Node.inputName 0) := by
    rintro ⟨e, he, hmem⟩
    obtain rfl := Except.ok.inj (hparse.symm.trans he)
    exact absurd hmem (by decide +kernel)
  have hwide : schema.check [] r = .ok wide := by decide +kernel
  have hnarrow : schema.check [some .int] r = .ok narrow := by decide +kernel
  have hothers : ∀ i ≠ 0, ([] : List (Option Ty))[i]?.join = [some Ty.int][i]?.join := by
    intro i hi
    obtain ⟨i, rfl⟩ := Nat.exists_eq_succ_of_ne_zero hi
    rfl
  obtain ⟨hsession, hcheck⟩ := scoping_lexical
  refine ⟨hwide, hnarrow, (hcheck r schema 0 _ _ hothers).2 _ _ hwide hnarrow 0 port rfl hport,
    (hcheck r _ 0 _ _ hothers).1 (List.forall_mem_singleton.2 hport), hsession _ _ _ _ ?_⟩
  intro name hname
  obtain rfl := List.mem_singleton.1 hname
  rfl

end FlowTypes
