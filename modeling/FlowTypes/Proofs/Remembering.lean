import FlowTypes.Proofs.Queries
import Mathlib.Logic.Relation

/-!
# Remembering never changes results

`Registry.valueOf` is the value of a name computed without remembering anything, and a memo is
right (`Memo.Right`) if it holds values computed so with nothing else being computed. A name may be
met while others are computed, though, and then its value is looked up before the names being
computed are. So a right memo is not enough : where the uncached evaluator complains of a cycle, a
remembered value would hide it.

There is none. `r.Needs m n` says that computing `m` asks for `n`. A name that has a value is not
on a cycle of needs (`Registry.not_needs_cycle`), since computing it would meet it again while it
is being computed, and that fails. The names being computed all need the one that is met, so if
that has a value, it needs none of them, and being computed makes no difference to it
(`Registry.valueOf_of_not_needs`). So right memos stay right, also in steps that fail, and give the
results of the uncached evaluator (`Registry.run_resolve_of_right`). `Session.run_remembering`
carries this through the steps of a session.
-/

namespace FlowTypes

/-! ## Trees and their answers -/

namespace Query

variable {α : Type} {q : Query α} {f g : String → Except EvalError Ty}

/-- Answers that are kept for the names that are asked for give the same result, if there is
one. -/
theorem eval_eq_ok_of_answers {a : α}
    (h : ∀ name, q.Asks f name → ∀ t, f name = .ok t → g name = .ok t)
    (hq : q.eval f = .ok a) : q.eval g = .ok a := by
  induction q with
  | done result => exact hq
  | ask name next ih =>
    simp only [eval] at hq ⊢
    cases hf : f name with
    | error e => rw [hf] at hq; cases hq
    | ok t =>
      rw [hf] at hq
      rw [h name (Or.inl rfl) t hf]
      exact ih t (fun other ho => h other (Or.inr ⟨t, hf, ho⟩)) hq

/-- A tree with a result got an answer to everything it asks, and more answers change nothing. -/
theorem exists_answer_of_asks {a : α} (h : ∀ name t, f name = .ok t → g name = .ok t)
    (hq : q.eval f = .ok a) {name : String} (hn : q.Asks g name) : ∃ t, f name = .ok t := by
  induction q with
  | done result => exact hn.elim
  | ask other next ih =>
    simp only [eval] at hq
    cases hf : f other with
    | error e => rw [hf] at hq; cases hq
    | ok t =>
      rw [hf] at hq
      rcases hn with rfl | ⟨t', ht', hn⟩
      · exact ⟨t, hf⟩
      · obtain rfl : t' = t := Except.ok.inj (ht'.symm.trans (h other t hf))
        exact ih t' hq hn

theorem Asks.mono {name : String} (h : ∀ name t, f name = .ok t → g name = .ok t)
    (hn : q.Asks f name) : q.Asks g name := by
  induction q with
  | done result => exact hn
  | ask other next ih =>
    rcases hn with rfl | ⟨t, ht, hn⟩
    · exact Or.inl rfl
    · exact Or.inr ⟨t, h other t ht, ih t hn⟩

/-- A run whose answers are right, and keep an invariant of what was found before, gives the
result for these answers and keeps the invariant. -/
theorem run_eq_eval (inv : Memo → Prop) {value : String → Eval Ty} (q : Query α)
    (h : ∀ name, q.Asks f name → ∀ memo, inv memo →
      ∃ found, (value name).run memo = (f name, found) ∧ inv found) :
    ∀ memo, inv memo → ∃ found, (q.run value).run memo = (q.eval f, found) ∧ inv found := by
  induction q with
  | done result => exact fun memo hmemo => ⟨memo, run_done value result memo, hmemo⟩
  | ask name next ih =>
    intro memo hmemo
    obtain ⟨found, hrun, hfound⟩ := h name (Or.inl rfl) memo hmemo
    rw [run_ask, hrun, eval]
    cases hf : f name with
    | error e => exact ⟨found, rfl, hfound⟩
    | ok t => exact ih t (fun other ho => h other (Or.inr ⟨t, hf, ho⟩)) found hfound

end Query

/-! ## Values computed without remembering -/

namespace Registry

/-- The value of a name computed without remembering anything. -/
def valueOf (r : Registry) (resolving : List String) (name : String) : Except EvalError Ty :=
  ((r.resolve resolving name).run .off).1

/-- Nothing is remembered if nothing is to be kept. -/
theorem run_resolve_off (r : Registry) (resolving : List String) : ∀ name,
    (r.resolve resolving name).run .off = (r.valueOf resolving name, .off) := by
  induction resolving using resolving_induction r with
  | h resolving ih =>
  intro name
  refine Prod.ext rfl ?_
  have hoff : Memo.off.find? name = none := rfl
  rw [run_resolve, hoff]
  dsimp only
  split_ifs with hname
  · rfl
  · cases hb : r.body? name with
    | none => rfl
    | some d =>
      obtain ⟨found, hrun, rfl⟩ := (d.query r).run_eq_eval (· = .off)
        (fun other _ memo hm =>
          ⟨.off, by rw [hm]; exact ih name (mem_typeNames_of_body? hb) hname other, rfl⟩) .off rfl
      dsimp only
      rw [hrun]
      cases (d.query r).eval (r.valueOf (name :: resolving)) <;> rfl

variable {r : Registry} {resolving : List String} {name : String}

theorem run_query_off (d : Body) :
    ((d.query r).run (r.resolve resolving)).run .off =
      ((d.query r).eval (r.valueOf resolving), .off) := by
  obtain ⟨found, hrun, rfl⟩ := (d.query r).run_eq_eval (· = .off)
    (fun other _ memo hm => ⟨.off, by rw [hm]; exact r.run_resolve_off resolving other, rfl⟩)
    .off rfl
  exact hrun

/-- The value of a name is that of its definition, for the values of names while it is being
computed itself. -/
theorem valueOf_eq :
    r.valueOf resolving name =
      if name ∈ resolving then .error (.cyclicDefinition name)
      else
        match r.body? name with
        | none => .error (.unknownType name)
        | some d => (d.query r).eval (r.valueOf (name :: resolving)) := by
  have hoff : Memo.off.find? name = none := rfl
  rw [valueOf, run_resolve, hoff]
  dsimp only
  split_ifs with hname
  · rfl
  · cases r.body? name with
    | none => rfl
    | some d =>
      dsimp only
      rw [run_query_off]
      cases (d.query r).eval (r.valueOf (name :: resolving)) <;> rfl

theorem valueOf_of_mem (h : name ∈ resolving) :
    r.valueOf resolving name = .error (.cyclicDefinition name) := by
  rw [valueOf_eq, if_pos h]

theorem valueOf_of_body?_eq_none (h : name ∉ resolving) (hb : r.body? name = none) :
    r.valueOf resolving name = .error (.unknownType name) := by
  rw [valueOf_eq, if_neg h, hb]

theorem valueOf_of_body? {d : Body} (h : name ∉ resolving) (hb : r.body? name = some d) :
    r.valueOf resolving name = (d.query r).eval (r.valueOf (name :: resolving)) := by
  rw [valueOf_eq, if_neg h, hb]

/-- A name that has a value is not among those being computed, and has a definition. -/
theorem exists_body_of_valueOf {t : Ty} (h : r.valueOf resolving name = .ok t) :
    name ∉ resolving ∧ ∃ d, r.body? name = some d ∧
      (d.query r).eval (r.valueOf (name :: resolving)) = .ok t := by
  have hname : name ∉ resolving := by
    intro hmem
    rw [valueOf_of_mem hmem] at h
    cases h
  cases hb : r.body? name with
  | none =>
    rw [valueOf_of_body?_eq_none hname hb] at h
    cases h
  | some d => exact ⟨hname, d, rfl, by rw [← valueOf_of_body? hname hb, h]⟩

/-- A value stays the same if fewer names are being computed. -/
theorem valueOf_of_subset {t : Ty} : ∀ {fewer : List String}, fewer ⊆ resolving →
    r.valueOf resolving name = .ok t → r.valueOf fewer name = .ok t := by
  induction resolving using resolving_induction r generalizing name t with
  | h resolving ih =>
  intro fewer hsub h
  obtain ⟨hname, d, hb, heval⟩ := exists_body_of_valueOf h
  rw [valueOf_of_body? (fun hmem => hname (hsub hmem)) hb]
  exact Query.eval_eq_ok_of_answers (fun other _ t' h' =>
    ih name (mem_typeNames_of_body? hb) hname (List.cons_subset_cons name hsub) h') heval

/-! ## Needs -/

/-- Does computing the first name ask for the second? -/
def Needs (r : Registry) (name other : String) : Prop :=
  ∃ d, r.body? name = some d ∧ (d.query r).Asks (r.valueOf []) other

/-- What a definition asks for while other names are being computed, it also asks for while none
are. -/
theorem needs_of_asks {d : Body} {other : String} (hb : r.body? name = some d)
    (h : (d.query r).Asks (r.valueOf resolving) other) : r.Needs name other :=
  ⟨d, hb, h.mono fun _ _ => valueOf_of_subset (List.nil_subset _)⟩

/-- What a name with a value needs has a value, also while the name is being computed. -/
theorem exists_valueOf_of_needs {t : Ty} {other : String} (h : r.valueOf resolving name = .ok t)
    (hn : r.Needs name other) : ∃ t', r.valueOf (name :: resolving) other = .ok t' := by
  obtain ⟨-, d, hb, heval⟩ := exists_body_of_valueOf h
  obtain ⟨d', hb', hasks⟩ := hn
  obtain rfl : d' = d := Option.some.inj (hb'.symm.trans hb)
  exact Query.exists_answer_of_asks
    (fun _ _ h' => valueOf_of_subset (List.nil_subset _) h') heval hasks

/-- What a name with a value needs, directly or not, has a value while the name is being
computed, with others. -/
theorem exists_valueOf_of_transGen_needs {other : String}
    (hn : Relation.TransGen r.Needs name other) : ∀ {resolving : List String} {t : Ty},
      r.valueOf resolving name = .ok t →
        ∃ more t', name :: resolving ⊆ more ∧ r.valueOf more other = .ok t' := by
  induction hn using Relation.TransGen.head_induction_on with
  | single hn =>
    intro resolving t h
    obtain ⟨t', h'⟩ := exists_valueOf_of_needs h hn
    exact ⟨_, t', List.Subset.refl _, h'⟩
  | head hn _ ih =>
    intro resolving t h
    obtain ⟨_, h'⟩ := exists_valueOf_of_needs h hn
    obtain ⟨more, t', hmore, h''⟩ := ih h'
    exact ⟨more, t', List.Subset.trans (List.subset_cons_self _ _) hmore, h''⟩

/-- A name with a value is not on a cycle of needs : computing it would meet it again. -/
theorem not_needs_cycle {t : Ty} (h : r.valueOf resolving name = .ok t) :
    ¬Relation.TransGen r.Needs name name := by
  intro hcycle
  obtain ⟨more, t', hmore, h'⟩ := exists_valueOf_of_transGen_needs hcycle h
  rw [valueOf_of_mem (hmore List.mem_cons_self)] at h'
  cases h'

/-- A value stays the same while other names are being computed, if it needs none of them. -/
theorem valueOf_of_not_needs {t : Ty} : ∀ {others : List String},
    (∀ s ∈ others, ¬Relation.ReflTransGen r.Needs name s) →
      r.valueOf resolving name = .ok t → r.valueOf others name = .ok t := by
  induction resolving using resolving_induction r generalizing name t with
  | h resolving ih =>
  intro others hothers h
  obtain ⟨hname, d, hb, heval⟩ := exists_body_of_valueOf h
  rw [valueOf_of_body? (fun hmem => hothers name hmem .refl) hb]
  refine Query.eval_eq_ok_of_answers (fun other hasks t' h' => ?_) heval
  have hneeds : r.Needs name other := needs_of_asks hb hasks
  refine ih name (mem_typeNames_of_body? hb) hname (fun s hs hreach => ?_) h'
  obtain rfl | hs := List.mem_cons.1 hs
  · exact not_needs_cycle h (.head' hneeds hreach)
  · exact hothers s hs (.head hneeds hreach)

end Registry

/-! ## Right memos -/

/-- Does the memo only hold values that are computed without remembering? -/
def Memo.Right (r : Registry) (memo : Memo) : Prop :=
  ∀ name t, memo.find? name = some t → r.valueOf [] name = .ok t

namespace Memo

variable {r : Registry}

theorem right_empty (r : Registry) : Right r .empty := nofun

theorem right_off (r : Registry) : Right r .off := nofun

theorem Right.insert {memo : Memo} {name : String} {t : Ty} (hmemo : memo.Right r)
    (h : r.valueOf [] name = .ok t) : (memo.insert name t).Right r := by
  intro other t' hfind
  simp only [Memo.insert] at hfind
  split_ifs at hfind
  · simp only [find?, List.find?_cons] at hfind
    split at hfind
    · next he =>
      obtain rfl : name = other := of_decide_eq_true he
      exact h.trans (congrArg _ (Option.some.inj hfind))
    · exact hmemo other t' hfind
  · exact hmemo other t' hfind

end Memo

/-- With a right memo, a name that is needed by all those being computed gets the value that it
gets without a memo, and the memo stays right. -/
theorem Registry.run_resolve_of_right (r : Registry) (resolving : List String) :
    ∀ name memo, (∀ s ∈ resolving, Relation.TransGen r.Needs s name) → memo.Right r →
      ∃ found, (r.resolve resolving name).run memo = (r.valueOf resolving name, found) ∧
        found.Right r := by
  induction resolving using resolving_induction r with
  | h resolving ih =>
  intro name memo hneeded hmemo
  rw [run_resolve]
  cases hfind : memo.find? name with
  | some t =>
    -- The names being computed need this one, so it cannot need one of them as well.
    have h := hmemo name t hfind
    have hothers : ∀ s ∈ resolving, ¬Relation.ReflTransGen r.Needs name s := fun s hs hreach =>
      not_needs_cycle h (.trans_right hreach (hneeded s hs))
    exact ⟨memo, by rw [valueOf_of_not_needs hothers h], hmemo⟩
  | none =>
    dsimp only
    split_ifs with hname
    · exact ⟨memo, by rw [valueOf_of_mem hname], hmemo⟩
    · cases hb : r.body? name with
      | none => exact ⟨memo, by rw [valueOf_of_body?_eq_none hname hb], hmemo⟩
      | some d =>
        have hanswers : ∀ other, (d.query r).Asks (r.valueOf (name :: resolving)) other →
            ∀ memo : Memo, memo.Right r → ∃ found, (r.resolve (name :: resolving) other).run memo
              = (r.valueOf (name :: resolving) other, found) ∧ found.Right r := by
          intro other hasks memo hmemo
          have hneeds : r.Needs name other := needs_of_asks hb hasks
          exact ih name (mem_typeNames_of_body? hb) hname other memo
            (List.forall_mem_cons.2 ⟨.single hneeds, fun s hs => (hneeded s hs).tail hneeds⟩) hmemo
        obtain ⟨found, hrun, hfound⟩ :=
          (d.query r).run_eq_eval (Memo.Right r) hanswers memo hmemo
        dsimp only
        rw [hrun, valueOf_of_body? hname hb]
        cases h : (d.query r).eval (r.valueOf (name :: resolving)) with
        | error e => exact ⟨found, rfl, hfound⟩
        | ok t =>
          rw [← valueOf_of_body? hname hb] at h
          exact ⟨_, rfl, hfound.insert (valueOf_of_subset (List.nil_subset _) h)⟩

/-- With a right memo, an expression gets the type that it gets without one, and the memo stays
right. -/
theorem Expr.run_meaning_of_right (e : Expr) {r : Registry} (b : Bindings) {memo : Memo}
    (hmemo : memo.Right r) :
    ∃ found, (e.meaning r (r.resolve []) b).run memo = (e.evaluate r b, found) ∧
      found.Right r := by
  have hrun : ∀ memo : Memo, memo.Right r → ∃ found,
      (e.meaning r (r.resolve []) b).run memo = ((e.query r b).eval (r.valueOf []), found) ∧
        found.Right r := by
    rw [e.meaning_eq_run]
    exact (e.query r b).run_eq_eval (Memo.Right r) fun name _ memo hmemo =>
      r.run_resolve_of_right [] name memo nofun hmemo
  obtain ⟨_, hoff, -⟩ := hrun .off (Memo.right_off r)
  obtain ⟨found, h, hfound⟩ := hrun memo hmemo
  exact ⟨found, by rw [h, Expr.evaluate, hoff], hfound⟩

/-! ## Steps of a session -/

namespace Session

/-- One evaluation. -/
inductive Step
  | evaluate (e : Expr)
  | evaluateWith (e : Expr) (bindings : List (String × Ty))

/-- What a session answers to a step, and the session after it. -/
def step (s : Session) : Step → Except EvalError Ty × Session
  | .evaluate e => s.evaluate e
  | .evaluateWith e bindings => s.evaluateWith e bindings

/-- The answers to some steps, one after the other. -/
def run (s : Session) : List Step → List (Except EvalError Ty)
  | [] => []
  | step :: steps => (s.step step).1 :: (s.step step).2.run steps

/-- The answer to a step alone, with nothing remembered. -/
def answer (r : Registry) (step : Step) : Except EvalError Ty := ((forgetful r).step step).1

/-- Does the session only hold what is computed without remembering? -/
structure Right (r : Registry) (s : Session) : Prop where
  registry : s.registry = r
  memo : s.memo.Right r
  exprs : ∀ e t, s.find? e = some t → e.evaluate r [] = .ok t

theorem right_remembering (r : Registry) : Right r (remembering r) :=
  ⟨rfl, Memo.right_empty r, nofun⟩

theorem right_forgetful (r : Registry) : Right r (forgetful r) :=
  ⟨rfl, Memo.right_off r, nofun⟩

theorem Right.compute {r : Registry} {s : Session} (hs : s.Right r) (e : Expr) (b : Bindings) :
    (s.compute e b).1 = e.evaluate r b ∧ (s.compute e b).2.Right r := by
  obtain ⟨registry, exprs, memo⟩ := s
  obtain rfl : registry = r := hs.registry
  obtain ⟨found, hrun, hfound⟩ := e.run_meaning_of_right b hs.memo
  rw [Session.compute, hrun]
  exact ⟨rfl, rfl, hfound, hs.exprs⟩

theorem Right.evaluate {r : Registry} {s : Session} (hs : s.Right r) (e : Expr) :
    (s.evaluate e).1 = e.evaluate r [] ∧ (s.evaluate e).2.Right r := by
  obtain ⟨hanswer, hright⟩ := hs.compute e []
  rw [Session.evaluate]
  cases hfind : s.find? e with
  | some t => exact ⟨(hs.exprs e t hfind).symm, hs⟩
  | none =>
    obtain ⟨result, s', hcompute⟩ : ∃ result s', s.compute e [] = (result, s') := ⟨_, _, rfl⟩
    rw [hcompute] at hanswer hright ⊢
    obtain rfl : result = e.evaluate r [] := hanswer
    cases he : e.evaluate r [] with
    | error err => exact ⟨rfl, hright⟩
    | ok t =>
      dsimp only
      split_ifs
      · refine ⟨rfl, hright.registry, hright.memo, fun e' t' h => ?_⟩
        simp only [find?, List.find?_cons] at h
        split at h
        · next heq =>
          obtain rfl : e = e' := of_decide_eq_true heq
          exact he.trans (congrArg _ (Option.some.inj h))
        · exact hright.exprs e' t' h
      · exact ⟨rfl, hright⟩

/-- A step of a right session gets the answer that it gets alone, and leaves a right session. -/
theorem Right.step {r : Registry} {s : Session} (hs : s.Right r) :
    ∀ step : Step, (s.step step).1 = answer r step ∧ (s.step step).2.Right r
  | .evaluate e => by
    have hanswer : answer r (.evaluate e) = e.evaluate r [] :=
      ((right_forgetful r).evaluate e).1
    rw [hanswer]
    exact hs.evaluate e
  | .evaluateWith e bindings => hs.compute e bindings.reverse

theorem Right.run {r : Registry} : ∀ {steps : List Step} {s : Session}, s.Right r →
    s.run steps = steps.map (answer r)
  | [], _, _ => rfl
  | step :: steps, s, hs => by
    obtain ⟨hanswer, hright⟩ := hs.step step
    rw [Session.run, hanswer, hright.run, List.map_cons]

/-- A session that remembers answers each of its steps, whatever was evaluated before and also if
that failed, as a session does that remembers nothing and takes that step only. -/
theorem run_remembering (r : Registry) (steps : List Step) :
    (remembering r).run steps = steps.map fun step => ((forgetful r).step step).1 :=
  (right_remembering r).run

end Session

end FlowTypes
