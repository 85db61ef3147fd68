import FlowTypes.Proofs.LastingTypes
import FlowTypes.Proofs.ParsedTypes

/-!
# Types that are evaluated

What evaluation does to types keeps them normal (`Ty.lasting_normal`), and the types of a normal
expression and of a normal registry are normal (`Expr.holds_normal`, `Registry.Normal.holds`). So
the steps of a session have normal answers (`Session.Normal.run`). Together with what is said of
the parser and of the operations on types, no type is ever built that is not normal.

It also keeps types regular, if structs and their fields are named by identifiers
(`Ty.lasting_regular`).
-/

namespace FlowTypes

/-! ## Normality lasts -/

theorem Ty.normal_primitive {name : String} {t : Ty} (h : primitive? name = some t) :
    t.Normal := by
  unfold primitive? at h
  split_ifs at h <;> cases h
  · exact normal_never
  · exact normal_any
  · exact normal_number
  · exact normal_string
  · exact normal_int

/-- Evaluation keeps types normal, whatever the names of records are. -/
theorem Ty.lasting_normal : Ty.Lasting (fun _ => True) Ty.Normal where
  primitive := normal_primitive
  union := normal_union
  intersect := normal_meet .left _ _
  ofShape ht hs := (ht.of_mem_shapes hs).ofShape
  fields ht f hf :=
    ⟨trivial, (Shape.normal_record.1 (ht.of_mem_shapes List.mem_cons_self) f hf).2⟩
  record _ hfields := normal_record fun f hf => (hfields f hf).2

mutual

/-- The types that stand in a normal expression are normal. -/
theorem Expr.holds_normal : ∀ e : Expr, e.Normal → e.Holds Ty.Normal
  | .type t, he => by
    rw [Expr.Normal] at he
    rwa [Expr.Holds]
  | .named _, _ => by rw [Expr.Holds]; trivial
  | .instantiate _ fields, he => by
    rw [Expr.Normal] at he
    rw [Expr.Holds]
    exact Expr.fieldsHold_normal fields he
  | .union items, he => by
    rw [Expr.Normal] at he
    rw [Expr.Holds]
    exact Expr.allHold_normal items he
  | .intersection items, he => by
    rw [Expr.Normal] at he
    rw [Expr.Holds]
    exact Expr.allHold_normal items he
  | .call _ args, he => by
    rw [Expr.Normal] at he
    rw [Expr.Holds]
    exact Expr.allHold_normal args he
  | .select scrutinee arms, he => by
    rw [Expr.Normal] at he
    rw [Expr.Holds]
    exact ⟨Expr.holds_normal scrutinee he.1, Expr.armsHold_normal arms he.2⟩
  | .access record _, he => by
    rw [Expr.Normal] at he
    rw [Expr.Holds]
    exact Expr.holds_normal record he

theorem Arm.holds_normal : ∀ arm : Arm, arm.Normal → arm.Holds Ty.Normal
  | .mk pattern _ result, harm => by
    rw [Arm.Normal] at harm
    rw [Arm.Holds]
    exact ⟨Expr.holds_normal pattern harm.1, Expr.holds_normal result harm.2⟩

theorem Expr.allHold_normal : ∀ es : List Expr, Expr.AllNormal es → Expr.AllHold Ty.Normal es
  | [], _ => by rw [Expr.AllHold]; trivial
  | e :: es, hes => by
    rw [Expr.AllNormal] at hes
    rw [Expr.AllHold]
    exact ⟨Expr.holds_normal e hes.1, Expr.allHold_normal es hes.2⟩

theorem Expr.fieldsHold_normal : ∀ fields : List (String × Expr), Expr.FieldsNormal fields →
    Expr.FieldsHold Ty.Normal fields
  | [], _ => by rw [Expr.FieldsHold]; trivial
  | (_, e) :: fields, hfields => by
    rw [Expr.FieldsNormal] at hfields
    rw [Expr.FieldsHold]
    exact ⟨Expr.holds_normal e hfields.1, Expr.fieldsHold_normal fields hfields.2⟩

theorem Expr.armsHold_normal : ∀ arms : List Arm, Expr.ArmsNormal arms →
    Expr.ArmsHold Ty.Normal arms
  | [], _ => by rw [Expr.ArmsHold]; trivial
  | arm :: arms, harms => by
    rw [Expr.ArmsNormal] at harms
    rw [Expr.ArmsHold]
    exact ⟨Arm.holds_normal arm harms.1, Expr.armsHold_normal arms harms.2⟩

end

theorem Registry.Normal.holds {r : Registry} (hr : r.Normal) :
    r.Holds (fun _ => True) Ty.Normal where
  aliases a ha := Expr.holds_normal _ (hr.aliases a ha)
  structs s hs := ⟨trivial, fun f hf => ⟨trivial, Expr.holds_normal _ (hr.structs s hs f hf)⟩⟩
  functions := hr.functions

/-! ## Regularity lasts -/

theorem Ty.Flat.regular {t : Ty} : t.Flat → t.Regular fun _ => true
  | .numbers hns => by
    rw [ofNumbers, ← Shape.canonical_map_number]
    refine Shape.regular_oneOf_canonical NumberSet.kept_true fun s hs => ?_
    obtain ⟨n, hn, rfl⟩ := List.mem_map.1 hs
    exact Shape.regular_number.2 ⟨hns n hn, rfl⟩
  | .texts ts => by
    rw [ofTexts, ← Shape.canonical_map_text]
    refine Shape.regular_oneOf_canonical NumberSet.kept_true fun s hs => ?_
    obtain ⟨t, -, rfl⟩ := List.mem_map.1 hs
    exact Shape.regular_text t

theorem Ty.regular_primitive {name : String} {t : Ty} (h : primitive? name = some t) :
    t.Regular fun _ => true := by
  unfold primitive? at h
  split_ifs at h <;> cases h
  · exact Built.never.regular
  · exact Built.any.regular
  · exact Built.number.regular
  · exact Built.string.regular
  · exact Built.int.regular

/-- Evaluation keeps types regular, if structs and their fields are named by identifiers. -/
theorem Ty.lasting_regular :
    Ty.Lasting (isIdentifier · = true) (Ty.Regular fun _ => true) where
  primitive := regular_primitive
  union := regular_union NumberSet.kept_true
  intersect := regular_meet NumberSet.kept_true .left _ _
  ofShape ht hs := (ht.of_mem_shapes hs).ofShape
  fields ht f hf := by
    have hrecord := Shape.regular_record.1 (ht.of_mem_shapes List.mem_cons_self)
    obtain ⟨hname, -, hf⟩ := fieldsRegular_iff.1 hrecord.2 f hf
    exact ⟨hname, hf⟩
  record hname hfields :=
    regular_record hname (fun f hf => (hfields f hf).1) fun f hf => (hfields f hf).2

theorem Ty.Regular.allWellFormed_numbers {p : NumberSet → Bool} {t : Ty} (ht : t.Regular p) :
    NumberSet.AllWellFormed t.numbers := by
  cases t with
  | any => exact NumberSet.allWellFormed_cons.2 ⟨rfl, NumberSet.allWellFormed_nil⟩
  | oneOf ss =>
    intro n hn
    exact (Shape.regular_number.1 (ht.of_mem_shapes (mem_filterMap_number?.1 hn))).1

theorem Registry.holds_withBuiltins :
    withBuiltins.Holds (isIdentifier · = true) (Ty.Regular fun _ => true) where
  aliases := List.forall_mem_nil _
  structs := List.forall_mem_singleton.2 ⟨by decide +kernel, List.forall_mem_nil _⟩
  functions _ hf _ hargs :=
    (Ty.flat_builtins hf fun t ht => (hargs t ht).allWellFormed_numbers).regular

/-! ## Sessions -/

namespace Session

/-- Is everything in the session normal? -/
structure Normal (s : Session) : Prop where
  registry : s.registry.Normal
  memo : s.memo.Holds Ty.Normal
  exprs : ∀ entry ∈ s.exprs, entry.2.Normal

/-- Are the expression of the step and the types that it binds normal? -/
def Step.Normal : Step → Prop
  | .evaluate e => e.Normal
  | .evaluateWith e bindings => e.Normal ∧ ∀ entry ∈ bindings, entry.2.Normal

theorem normal_remembering {r : Registry} (hr : r.Normal) : (remembering r).Normal :=
  ⟨hr, Memo.holds_empty, List.forall_mem_nil _⟩

theorem normal_forgetful {r : Registry} (hr : r.Normal) : (forgetful r).Normal :=
  ⟨hr, Memo.holds_off, List.forall_mem_nil _⟩

variable {s : Session}

theorem Normal.compute (hs : s.Normal) {e : Expr} (he : e.Normal) {b : Bindings}
    (hb : b.Hold Ty.Normal) :
    (∀ t, (s.compute e b).1 = .ok t → t.Normal) ∧ (s.compute e b).2.Normal := by
  have hr := hs.registry.holds
  have hkeeps := e.keeps_meaning Ty.lasting_normal hr
    (Registry.keeps_resolve Ty.lasting_normal hr []) (Expr.holds_normal e he) b hb s.memo hs.memo
  exact ⟨hkeeps.1, hs.registry, hkeeps.2, hs.exprs⟩

theorem Normal.evaluate (hs : s.Normal) {e : Expr} (he : e.Normal) :
    (∀ t, (s.evaluate e).1 = .ok t → t.Normal) ∧ (s.evaluate e).2.Normal := by
  have hcompute := hs.compute he (List.forall_mem_nil _)
  unfold Session.evaluate
  split
  · next t ht => exact ⟨fun _ h => Except.ok.inj h ▸ of_map_find? hs.exprs ht, hs⟩
  · split
    · next t s' h =>
      rw [h] at hcompute
      split
      · refine ⟨hcompute.1, hcompute.2.registry, hcompute.2.memo, ?_⟩
        exact List.forall_mem_cons.2 ⟨hcompute.1 t rfl, hcompute.2.exprs⟩
      · exact hcompute
    · next h =>
      rw [h] at hcompute
      exact hcompute

/-- A step of a normal session has a normal answer, and leaves a normal session. -/
theorem Normal.step (hs : s.Normal) : ∀ {step : Step}, step.Normal →
    (∀ t, (s.step step).1 = .ok t → t.Normal) ∧ (s.step step).2.Normal
  | .evaluate _, hstep => hs.evaluate hstep
  | .evaluateWith _ _, hstep =>
    hs.compute hstep.1 fun entry hentry => hstep.2 entry (List.mem_reverse.1 hentry)

theorem Normal.run : ∀ {steps : List Step} {s : Session}, s.Normal →
    (∀ step ∈ steps, step.Normal) → ∀ t, .ok t ∈ s.run steps → t.Normal
  | [], _, _, _, _, h => absurd h List.not_mem_nil
  | step :: steps, s, hs, hsteps, t, h => by
    obtain ⟨hstep, hsteps⟩ := List.forall_mem_cons.1 hsteps
    obtain ⟨hanswer, hleft⟩ := hs.step hstep
    obtain h | h := List.mem_cons.1 h
    · exact hanswer t h.symm
    · exact hleft.run hsteps t h

end Session

/-! ## No other types -/

/-- What operations on well-formed sets of numbers return is well-formed, also before it is brought
into canonical form. -/
theorem NumberSet.allWellFormed_operations {n m : NumberSet} (hn : n.wellFormed = true)
    (hm : m.wellFormed = true) :
    AllWellFormed (negateOne n ++ roundOne n ++ reciprocalOne n ++ addOne n m ++ minimumOne n m ++
      multiplyOne n m ++ n.without m) ∧ ∀ side, AllWellFormed (n.meet side m).toList := by
  refine ⟨?_, fun side k hk => wellFormed_meet side hn hm (Option.mem_toList.1 hk)⟩
  simp only [allWellFormed_append]
  exact ⟨⟨⟨⟨⟨⟨allWellFormed_negateOne n, allWellFormed_roundOne hn⟩, allWellFormed_reciprocalOne n⟩,
    allWellFormed_addOne n m⟩, allWellFormed_minimumOne hn hm⟩, allWellFormed_multiplyOne n m⟩,
    (brackets_without hn hm).wellFormed⟩

/-- No type is ever built that is not normal : what is read and what is defined, the answers of
sessions, and what operations on types return, for any bounds. Nor is there a set of numbers on the
way that is not well-formed. -/
theorem Ty.normal_throughout :
    (∀ source e, Expr.parse source = .ok e → e.Normal) ∧
    (∀ r : Registry, r.Read → r.Normal) ∧
    (∀ r : Registry, r.Normal → ∀ steps : List Session.Step, (∀ step ∈ steps, step.Normal) →
      ∀ t, .ok t ∈ (Session.remembering r).run steps ++ (Session.forgetful r).run steps →
        t.Normal) ∧
    (∀ lo hi v s, (interval lo hi).Normal ∧ (integers lo hi).Normal ∧ (literal v).Normal ∧
      (textLiteral s).Normal) ∧
    (∀ name fields, (∀ f ∈ fields, f.2.Normal) → (record name fields).Normal) ∧
    (∀ ts : List Ty, (∀ t ∈ ts, t.Normal) → (union ts).Normal ∧ (intersectAll ts).Normal) ∧
    (∀ a b : Ty, a.Normal → b.Normal → (a.intersect b).Normal ∧ (a.without b).Normal) ∧
    (∀ f ∈ Function.builtins, ∀ args : List Ty, (∀ t ∈ args, t.Normal) →
      (f.apply args).Normal) ∧
    (∀ lo hi, NumberSet.AllWellFormed (NumberSet.interval? lo hi).toList ∧
      NumberSet.AllWellFormed (NumberSet.integers? lo hi).toList) ∧
    (∀ ns, NumberSet.AllWellFormed ns → NumberSet.AllWellFormed (NumberSet.canonical ns)) ∧
    (∀ n m : NumberSet, n.wellFormed = true → m.wellFormed = true →
      NumberSet.AllWellFormed (NumberSet.negateOne n ++ NumberSet.roundOne n ++
        NumberSet.reciprocalOne n ++ NumberSet.addOne n m ++ NumberSet.minimumOne n m ++
        NumberSet.multiplyOne n m ++ n.without m) ∧
      ∀ side, NumberSet.AllWellFormed (n.meet side m).toList) := by
  refine ⟨fun _ _ => Expr.normal_of_parse, fun _ hr => hr.normal, fun r hr steps hsteps t ht => ?_,
    fun lo hi v s => ⟨normal_interval lo hi, normal_integers lo hi, normal_literal v,
      normal_textLiteral s⟩,
    fun _ _ hfields => normal_record hfields,
    fun _ hts => ⟨normal_union hts, normal_intersectAll hts⟩,
    fun a b ha hb => ⟨normal_meet .left a b ha hb, normal_without ha hb⟩,
    fun f hf args hargs => normal_builtins hf hargs,
    fun lo hi => ⟨NumberSet.allWellFormed_interval? lo hi, NumberSet.allWellFormed_integers? lo hi⟩,
    fun ns hns => NumberSet.allWellFormed_canonical hns,
    fun n m hn hm => NumberSet.allWellFormed_operations hn hm⟩
  obtain ht | ht := List.mem_append.1 ht
  · exact (Session.normal_remembering hr).run hsteps t ht
  · exact (Session.normal_forgetful hr).run hsteps t ht

/-- A product without bounds, and an instance of a struct that is read. -/
theorem Ty.normal_throughout_unbounded :
    let r := (Registry.withBuiltins.parse "struct p { x: int, y: any }").1
    let e : Expr := .union [.call "multiply" [.access (.instantiate "p" [("y",
      .type (.literal .one))]) "x", .type (.interval .half .posInf)], .named "p"]
    let t := union [number, record "p" [("x", int), ("y", any)]]
    Expr.parse "multiply(p { y: 1 }.x, 0.5..inf) | p" = .ok e ∧ r.Read ∧
      (Session.remembering r).run [.evaluate e] = [.ok t] ∧ t.Normal := by
  intro r e t
  have hparse : Expr.parse "multiply(p { y: 1 }.x, 0.5..inf) | p" = .ok e := by decide +kernel
  have hrun : (Session.remembering r).run [.evaluate e] = [.ok t] := by decide +kernel
  have hread : r.Read := .parse .withBuiltins _
  obtain ⟨hnormal, hdefined, hanswer, -⟩ := Ty.normal_throughout
  refine ⟨hparse, hread, hrun, hanswer r (hdefined r hread) [.evaluate e]
    (List.forall_mem_singleton.2 (hnormal _ e hparse)) t (List.mem_append_left _ ?_)⟩
  rw [hrun]
  exact List.mem_singleton_self _

end FlowTypes
