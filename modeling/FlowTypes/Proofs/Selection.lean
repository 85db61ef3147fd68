import FlowTypes.Proofs.EvaluatedTypes
import FlowTypes.Proofs.Lattice
import FlowTypes.Proofs.LexicalScope

/-!
# Selections treat members one by one

With nothing remembered, the answer of a computation is put together from the answers of its parts
(`Eval.Gives`). So a selection evaluates its scrutinee, then the patterns of its arms, and then the
result of one arm for every member of the scrutinee (`Expr.evaluate_select`). Which arm that is, and
what its result is, depends on the member alone (`Arm.ResultsFor`).

Hence a selection on a union has the results of the selections on its operands, if it has their
members (`Ty.selection_distributes`). A union in canonical form need not : adjacent integers become
one member, which no pattern for either of them may cover (`Ty.not_selection_distributes_of_merge`).
-/

namespace FlowTypes

/-! ## Lists -/

section Lists

variable {α β ε : Type} {f : α → Except ε β} {items : List α}

/-- A computation for the items of a list that succeeds has succeeded for each, and has their
results. -/
theorem mem_of_mapM {results : List β} (h : items.mapM f = .ok results) :
    (∀ a ∈ items, ∃ b, f a = .ok b) ∧ ∀ b, b ∈ results ↔ ∃ a ∈ items, f a = .ok b := by
  rw [mapM_eq_ok_iff] at h
  induction h with
  | nil => simp
  | cons hfirst _ ih =>
    refine ⟨List.forall_mem_cons.2 ⟨⟨_, hfirst⟩, ih.1⟩, fun b => ?_⟩
    rw [List.mem_cons, List.exists_mem_cons_iff, ih.2, hfirst]
    simp only [Except.ok.injEq, eq_comm]

/-- It succeeds if it does for each item. -/
theorem exists_mapM (h : ∀ a ∈ items, ∃ b, f a = .ok b) :
    ∃ results, items.mapM f = .ok results := by
  induction items with
  | nil => exact ⟨[], rfl⟩
  | cons a items ih =>
    obtain ⟨⟨b, hb⟩, hitems⟩ := List.forall_mem_cons.1 h
    obtain ⟨results, hresults⟩ := ih hitems
    exact ⟨b :: results, mapM_eq_ok_iff.2 (.cons hb (mapM_eq_ok_iff.1 hresults))⟩

end Lists

/-! ## Answers with nothing remembered -/

/-- Does the computation give this answer if nothing is remembered, and remember nothing? -/
def Eval.Gives {α : Type} (c : Eval α) (answer : Except EvalError α) : Prop :=
  c.run .off = (answer, .off)

namespace Eval.Gives

variable {α β : Type} {c : Eval α} {answer : Except EvalError α}

theorem done (a : α) : Gives (pure a) (pure a) := rfl

theorem fail (e : EvalError) : Gives (throw e : Eval α) (.error e) := rfl

theorem bind {f : α → Eval β} {g : α → Except EvalError β} (hc : Gives c answer)
    (hf : ∀ a, Gives (f a) (g a)) : Gives (c >>= f) (answer >>= g) := by
  rw [Gives] at hc ⊢
  rw [runState_bind, hc]
  cases answer with
  | ok a => exact hf a
  | error e => rfl

/-- What follows a computation succeeds only if the computation does. -/
theorem ok_of_bind {answer : Except EvalError α} {f : α → Eval β} {y : β} (hc : Gives c answer)
    (h : Gives (c >>= f) (.ok y)) : ∃ a, answer = .ok a ∧ Gives (f a) (.ok y) := by
  rw [Gives] at hc h
  rw [runState_bind, hc] at h
  cases answer with
  | ok a => exact ⟨a, rfl, h⟩
  | error e => cases congrArg Prod.fst h

theorem map (f : α → β) (hc : Gives c answer) : Gives (f <$> c) (f <$> answer) := by
  simpa only [map_eq_pure_bind] using hc.bind fun a => done (f a)

theorem mapM {f : α → Eval β} {g : α → Except EvalError β} : ∀ {items : List α},
    (∀ a ∈ items, Gives (f a) (g a)) → Gives (items.mapM f) (items.mapM g)
  | [], _ => done []
  | a :: items, h => by
    obtain ⟨ha, hitems⟩ := List.forall_mem_cons.1 h
    simp only [List.mapM_cons]
    exact ha.bind fun b => (mapM hitems).bind fun bs => done (b :: bs)

end Eval.Gives

open Eval (Gives)

theorem Expr.gives_evaluate (e : Expr) (r : Registry) (b : Bindings) :
    Gives (e.meaning r (r.resolve []) b) (e.evaluate r b) := by
  obtain ⟨found, hrun, rfl⟩ := (e.query r b).run_eq_eval (· = .off)
    (fun name _ memo hm => ⟨.off, by rw [hm]; exact r.run_resolve_off [] name, rfl⟩) .off rfl
  rw [Gives, evaluate, meaning_eq_run, hrun]

/-! ## The results of a selection -/

namespace Arm

variable (r : Registry) (b : Bindings)

/-- The type of the result for a member, with the member bound if the arm names it. -/
def resultFor (member : Ty) (arm : Arm) : Except EvalError Ty :=
  arm.result.evaluate r ((arm.binding.map fun name => (name, member)).toList ++ b)

/-- The result for a member, by the first arm with a pattern that includes it, if there is one. -/
def selectFor (arms : List (Arm × Ty)) (member : Ty) : Except EvalError (Option Ty) :=
  match arms.find? fun arm => member.subset arm.2 with
  | none => .ok none
  | some arm => some <$> arm.1.resultFor r b member

/-- Has every member of the type a result or no arm, and are these the results? -/
structure ResultsFor (arms : List (Arm × Ty)) (t : Ty) (results : List Ty) : Prop where
  total : ∀ member ∈ Meaning.members t, ∃ o, selectFor r b arms member = .ok o
  mem_iff : ∀ u, u ∈ results ↔
    ∃ member ∈ Meaning.members t, selectFor r b arms member = .ok (some u)

end Arm

section Selections

variable {r : Registry} {b : Bindings} {arms : List Arm}

theorem Arm.resultsFor_of_mapM {tried : List (Arm × Ty)} {t : Ty} {results : List (Option Ty)}
    (h : (Meaning.members t).mapM (selectFor r b tried) = .ok results) :
    ResultsFor r b tried t (results.filterMap id) where
  total member hmember := (mem_of_mapM h).1 member hmember
  mem_iff u := by
    rw [List.mem_filterMap]
    constructor
    · rintro ⟨o, ho, rfl⟩
      exact ((mem_of_mapM h).2 _).1 ho
    · intro hu
      exact ⟨some u, ((mem_of_mapM h).2 _).2 hu, rfl⟩

theorem Arm.gives_selectFor (patterns : List Ty) (member : Ty) :
    Gives (Meaning.selectOne ((arms.map (·.meaning r (r.resolve []))).zip patterns) b member)
      (Arm.selectFor r b (arms.zip patterns) member) := by
  unfold Meaning.selectOne Arm.selectFor
  rw [Arm.find?_zip_meanings]
  cases (arms.zip patterns).find? fun found => member.subset found.2 with
  | none => exact .done none
  | some found =>
    obtain ⟨⟨pattern, binding, result⟩, covered⟩ := found
    cases binding with
    | some name => exact (result.gives_evaluate r _).map some
    | none => exact (result.gives_evaluate r b).map some

/-- The scrutinee is evaluated first, then the patterns, and then a result for each member. -/
theorem Expr.evaluate_select (scrutinee : Expr) :
    (Expr.select scrutinee arms).evaluate r b = do
      let t ← scrutinee.evaluate r b
      let patterns ← arms.mapM fun arm => arm.pattern.evaluate r b
      let results ← (Meaning.members t).mapM (Arm.selectFor r b (arms.zip patterns))
      return Ty.union (results.filterMap id) := by
  have hpatterns : Meaning.all ((arms.map (·.meaning r (r.resolve []))).map (·.pattern)) b
      = arms.mapM fun arm => arm.pattern.meaning r (r.resolve []) b := by
    rw [Meaning.all, List.map_map, List.mapM_map]
    exact mapM_congr fun arm _ => by cases arm; rfl
  have h : Gives ((Expr.select scrutinee arms).meaning r (r.resolve []) b) (do
      let t ← scrutinee.evaluate r b
      let patterns ← arms.mapM fun arm => arm.pattern.evaluate r b
      let results ← (Meaning.members t).mapM (Arm.selectFor r b (arms.zip patterns))
      return Ty.union (results.filterMap id)) := by
    rw [Expr.meaning, Expr.armMeanings_eq_map, Meaning.select, hpatterns]
    exact (scrutinee.gives_evaluate r b).bind fun t =>
      (Gives.mapM fun (arm : Arm) _ => arm.pattern.gives_evaluate r b).bind fun patterns =>
        (Gives.mapM fun member _ => Arm.gives_selectFor patterns member).bind fun results =>
          .done (Ty.union (results.filterMap id))
  exact congrArg Prod.fst h

/-- A selection that succeeds joins the results for the members. -/
theorem Expr.exists_resultsFor {t u : Ty}
    (h : (Expr.select (.type t) arms).evaluate r b = .ok u) :
    ∃ patterns, (arms.mapM fun arm => arm.pattern.evaluate r b) = .ok patterns ∧
      ∃ results, Arm.ResultsFor r b (arms.zip patterns) t results ∧ u = Ty.union results := by
  have htype : (Expr.type t).evaluate r b = .ok t := rfl
  rw [evaluate_select, htype] at h
  cases hpatterns : arms.mapM fun arm => arm.pattern.evaluate r b with
  | error e =>
    rw [hpatterns] at h
    cases h
  | ok patterns =>
    rw [hpatterns] at h
    cases hresults : (Meaning.members t).mapM (Arm.selectFor r b (arms.zip patterns)) with
    | error e =>
      simp only [bind, Except.bind, hresults] at h
      cases h
    | ok results =>
      simp only [bind, Except.bind, hresults] at h
      exact ⟨patterns, rfl, results.filterMap id, Arm.resultsFor_of_mapM hresults,
        (Except.ok.inj h).symm⟩

/-- A selection succeeds if the patterns do and every member has a result or no arm. -/
theorem Expr.exists_evaluate_select {scrutinee : Expr} {t : Ty} {patterns : List Ty}
    (hscrutinee : scrutinee.evaluate r b = .ok t)
    (hpatterns : (arms.mapM fun arm => arm.pattern.evaluate r b) = .ok patterns)
    (htotal : ∀ member ∈ Meaning.members t,
      ∃ o, Arm.selectFor r b (arms.zip patterns) member = .ok o) :
    ∃ results, (Expr.select scrutinee arms).evaluate r b = .ok (Ty.union results) ∧
      Arm.ResultsFor r b (arms.zip patterns) t results := by
  obtain ⟨results, hresults⟩ := exists_mapM htotal
  refine ⟨results.filterMap id, ?_, Arm.resultsFor_of_mapM hresults⟩
  rw [evaluate_select, hscrutinee, hpatterns]
  simp only [bind, Except.bind, hresults]
  rfl

/-- The results for a type are those of an arm for a member. -/
theorem Arm.ResultsFor.exists_arm {patterns : List Ty} {t : Ty} {results : List Ty}
    (h : ResultsFor r b (arms.zip patterns) t results) {u : Ty} (hu : u ∈ results) :
    ∃ member ∈ Meaning.members t, ∃ arm ∈ arms, arm.resultFor r b member = .ok u := by
  obtain ⟨member, hmember, hselect⟩ := (h.mem_iff u).1 hu
  refine ⟨member, hmember, ?_⟩
  unfold selectFor at hselect
  split at hselect
  · cases hselect
  · next arm harm =>
    refine ⟨arm.1, (List.of_mem_zip (List.mem_of_find?_eq_some harm)).1, ?_⟩
    cases hresult : arm.1.resultFor r b member with
    | error e =>
      rw [hresult] at hselect
      cases hselect
    | ok u' =>
      rw [hresult] at hselect
      cases hselect
      rfl

/-- The result of an arm has every property that lasts. -/
theorem Arm.holds_of_resultFor {named : String → Prop} {P : Ty → Prop} (h : Ty.Lasting named P)
    (hr : r.Holds named P) {arm : Arm} (harm : arm.Holds P) (hb : b.Hold P) {member : Ty}
    (hmember : P member) {u : Ty} (hu : arm.resultFor r b member = .ok u) : P u := by
  obtain ⟨pattern, binding, result⟩ := arm
  rw [Arm.Holds] at harm
  refine Expr.holds_of_evaluate h hr harm.2 (fun entry hentry => ?_) hu
  obtain hentry | hentry := List.mem_append.1 hentry
  · obtain ⟨name, -, rfl⟩ := Option.map_eq_some_iff.1 (Option.mem_toList.1 hentry)
    exact hmember
  · exact hb entry hentry

/-- If a type has the members of two others, it has their results. -/
theorem Arm.ResultsFor.mem_iff_or {tried : List (Arm × Ty)} {t t₁ t₂ : Ty}
    {results results₁ results₂ : List Ty} (h : ResultsFor r b tried t results)
    (h₁ : ResultsFor r b tried t₁ results₁) (h₂ : ResultsFor r b tried t₂ results₂)
    (hmembers : ∀ member, member ∈ Meaning.members t ↔
      member ∈ Meaning.members t₁ ∨ member ∈ Meaning.members t₂) (u : Ty) :
    u ∈ results ↔ u ∈ results₁ ∨ u ∈ results₂ := by
  simp only [h.mem_iff, h₁.mem_iff, h₂.mem_iff, hmembers, or_and_right, exists_or]

end Selections

/-! ## Selections on unions -/

namespace Ty

/-- A selection on a union that keeps the members of its operands succeeds where the selections on
the operands do. It has the values of either, and is the union of the two if the bounds and literals
of the arms' results have at most 52 bits. -/
theorem selection_distributes {r : Registry} {arms : List Arm} {bindings : Bindings}
    {a b ta tb : Ty}
    (hr : r.Holds (isIdentifier · = true) (Ty.Regular fun _ => true))
    (harms : Expr.ArmsHold (Ty.Regular fun _ => true) arms)
    (hbindings : bindings.Hold (Ty.Regular fun _ => true))
    (ha : a.Regular fun _ => true) (hb : b.Regular fun _ => true)
    (hkept : ∀ member, member ∈ Meaning.members (union [a, b]) ↔
      member ∈ Meaning.members a ∨ member ∈ Meaning.members b)
    (hta : (Expr.select (.type a) arms).evaluate r bindings = .ok ta)
    (htb : (Expr.select (.type b) arms).evaluate r bindings = .ok tb) :
    ∃ t, (Expr.select (.union [.type a, .type b]) arms).evaluate r bindings = .ok t ∧
      (∀ v, t.has v = true ↔ ta.has v = true ∨ tb.has v = true) ∧
      ((∀ arm ∈ arms, ∀ member ∈ Meaning.members (union [a, b]), ∀ u,
        arm.resultFor r bindings member = .ok u → u.isSmall = true) →
          t.same (union [ta, tb]) = true) := by
  obtain ⟨patterns, hpatterns, resultsA, hA, rfl⟩ := Expr.exists_resultsFor hta
  obtain ⟨patterns', hpatterns', resultsB, hB, rfl⟩ := Expr.exists_resultsFor htb
  obtain rfl : patterns = patterns' := Except.ok.inj (hpatterns.symm.trans hpatterns')
  have hunion : (Expr.union [.type a, .type b]).evaluate r bindings = .ok (union [a, b]) := rfl
  obtain ⟨results, ht, hresults⟩ := Expr.exists_evaluate_select hunion hpatterns
    fun member hmember => ((hkept member).1 hmember).elim (hA.total member) (hB.total member)
  have hmem := hresults.mem_iff_or hA hB hkept
  have hregular : ∀ u ∈ results, u.Regular fun _ => true := by
    intro u hu
    obtain ⟨member, hmember, arm, harm, hresult⟩ := hresults.exists_arm hu
    have hmember : member.Regular fun _ => true := by
      obtain hm | hm := (hkept member).1 hmember
      · exact lasting_regular.of_mem_members ha member hm
      · exact lasting_regular.of_mem_members hb member hm
    exact Arm.holds_of_resultFor lasting_regular hr (Expr.armsHold_iff.1 harms arm harm) hbindings
      hmember hresult
  have hsplit : ∀ p : Ty → Prop, (∃ u ∈ results, p u) ↔
      (∃ u ∈ resultsA, p u) ∨ ∃ u ∈ resultsB, p u := fun p => by
    simp only [hmem, or_and_right, exists_or]
  refine ⟨union results, ht, fun v => ?_, fun hsmall => ?_⟩
  · have hwf : ∀ u ∈ results, u.wellFormed = true := fun u hu => (hregular u hu).wellFormed
    rw [has_union hwf, hsplit, has_union fun u hu => hwf u ((hmem u).2 (.inl hu)),
      has_union fun u hu => hwf u ((hmem u).2 (.inr hu))]
  · have hsteady : ∀ u ∈ results, u.Regular NumberSet.isSteady := by
      intro u hu
      obtain ⟨member, hmember, arm, harm, hresult⟩ := hresults.exists_arm hu
      exact (hregular u hu).of_isSmall (hsmall arm harm member hmember u hresult)
    have hsteadyA : ∀ u ∈ resultsA, u.Regular NumberSet.isSteady :=
      fun u hu => hsteady u ((hmem u).2 (.inl hu))
    have hsteadyB : ∀ u ∈ resultsB, u.Regular NumberSet.isSteady :=
      fun u hu => hsteady u ((hmem u).2 (.inr hu))
    have hta := regular_union NumberSet.kept_isSteady hsteadyA
    have htb := regular_union NumberSet.kept_isSteady hsteadyB
    rw [same_iff_admits (regular_union NumberSet.kept_isSteady hsteady) (steady_union hta htb)]
    intro v
    rw [admits_union hsteady, hsplit, admits_union_pair hta htb, admits_union hsteadyA,
      admits_union hsteadyB]

/-- Integers are negated as one member, points become texts, and no arm treats texts. -/
theorem selection_distributes_points :
    let arms : List Arm := [.mk (.type int) (some "n") (.call "negate" [.named "n"]),
      .mk (.type number) none (.type (textLiteral "point"))]
    let a := integers .zero (.ofNat 5)
    let b := union [literal .half, textLiteral "a"]
    let ta := integers (-.ofNat 5) .zero
    let tb := textLiteral "point"
    let t := union [ta, tb]
    (Expr.select (.type a) arms).evaluate .withBuiltins [] = .ok ta ∧
      (Expr.select (.type b) arms).evaluate .withBuiltins [] = .ok tb ∧
      (Expr.select (.union [.type a, .type b]) arms).evaluate .withBuiltins [] = .ok t ∧
      (∀ v, t.has v = true ↔ ta.has v = true ∨ tb.has v = true) ∧
      t.same (union [ta, tb]) = true := by
  intro arms a b ta tb t
  have hta : (Expr.select (.type a) arms).evaluate .withBuiltins [] = .ok ta := by decide +kernel
  have htb : (Expr.select (.type b) arms).evaluate .withBuiltins [] = .ok tb := by decide +kernel
  have ht : (Expr.select (.union [.type a, .type b]) arms).evaluate .withBuiltins [] = .ok t := by
    decide +kernel
  have harms : Expr.ArmsHold (Ty.Regular fun _ => true) arms := by
    have hint := Built.int.regular
    have hnumber := Built.number.regular
    have hpoint := (Built.textLiteral "point").regular
    simp [arms, Expr.ArmsHold, Arm.Holds, Expr.Holds, Expr.AllHold, hint, hnumber, hpoint]
  have ha : a.Built := .integers _ _
  have hb : b.Built := .union _
    (List.forall_mem_cons.2 ⟨.literal _, List.forall_mem_singleton.2 (.textLiteral _)⟩)
  have hkept : Meaning.members (union [a, b]) = Meaning.members a ++ Meaning.members b := by
    decide +kernel
  have hsmall : ∀ arm ∈ arms, ∀ member ∈ Meaning.members (union [a, b]),
      (arm.resultFor .withBuiltins [] member).toOption.all isSmall = true := by
    decide +kernel
  obtain ⟨t', ht', hvalues, hsame⟩ := selection_distributes Registry.holds_withBuiltins harms
    (List.forall_mem_nil _) ha.regular hb.regular
    (fun member => by rw [hkept, List.mem_append]) hta htb
  obtain rfl : t' = t := Except.ok.inj (ht'.symm.trans ht)
  refine ⟨hta, htb, ht, hvalues, hsame fun arm harm member hmember u hu => ?_⟩
  have h := hsmall arm harm member hmember
  rwa [hu] at h

/-- Two ranges of integers that become one member : an arm for the first of them does not treat the
union. -/
theorem not_selection_distributes_of_merge :
    let arms : List Arm := [.mk (.type (integers .zero .one)) none (.type (textLiteral "lo")),
      .mk (.type any) none (.type (textLiteral "hi"))]
    let a := integers .zero .one
    let b := integers (.ofNat 2) (.ofNat 3)
    (Expr.select (.type a) arms).evaluate .withBuiltins [] = .ok (textLiteral "lo") ∧
      (Expr.select (.type b) arms).evaluate .withBuiltins [] = .ok (textLiteral "hi") ∧
      ¬∃ t, (Expr.select (.union [.type a, .type b]) arms).evaluate .withBuiltins [] = .ok t ∧
        t.same (union [textLiteral "lo", textLiteral "hi"]) = true := by
  intro arms a b
  have ha : (Expr.select (.type a) arms).evaluate .withBuiltins [] = .ok (textLiteral "lo") := by
    decide +kernel
  have hb : (Expr.select (.type b) arms).evaluate .withBuiltins [] = .ok (textLiteral "hi") := by
    decide +kernel
  have hunion : (Expr.select (.union [.type a, .type b]) arms).evaluate .withBuiltins []
      = .ok (textLiteral "hi") := by decide +kernel
  have hne : (textLiteral "hi").same (union [textLiteral "lo", textLiteral "hi"]) = false := by
    decide +kernel
  refine ⟨ha, hb, ?_⟩
  rintro ⟨t, ht, hsame⟩
  obtain rfl := Except.ok.inj (hunion.symm.trans ht)
  rw [hne] at hsame
  cases hsame

end Ty

end FlowTypes
