import FlowTypes.Proofs.Remembering
import Mathlib.Data.List.Forall2

/-!
# Lexical scope

An expression sees of the bindings in scope only those of the names that it refers to
(`Expr.references`). Two lists of bindings agree on some names if the innermost binding of each is
the same, or absent, in both (`Bindings.Agree`). If they agree on all that an expression refers to,
its meaning is the same computation for both, whatever the values of definitions are
(`Expr.meaning_eq_of_agree`) : one lemma for each combinator of meanings, and an induction on
expressions in which the names bound on the way are names that the bindings agree on as well. In
particular nothing that is bound reaches a definition, since the values of definitions are a
parameter of the meaning, the same for both.

So the steps of a session agree, in what they answer and in what they leave remembered
(`Session.evaluateWith_eq_of_agree`).
-/

namespace FlowTypes

/-! ## Bindings that agree -/

namespace Bindings

/-- Is the innermost binding of each of these names the same in both, if there is one? -/
def Agree (names : List String) (b b' : Bindings) : Prop :=
  ∀ name ∈ names, b.find? name = b'.find? name

variable {names names' : List String} {b b' : Bindings}

theorem Agree.mono (h : Agree names b b') (hsub : names' ⊆ names) : Agree names' b b' :=
  fun name hname => h name (hsub hname)

theorem find?_cons (entry : String × Ty) (b : Bindings) (name : String) :
    find? (entry :: b) name = if entry.1 = name then some entry.2 else b.find? name := by
  simp only [find?, List.find?_cons]
  split_ifs with h <;> simp [h]

/-- A binding that is added to both is agreed on. -/
theorem Agree.cons (h : Agree names b b') (entry : String × Ty) :
    Agree (entry.1 :: names) (entry :: b) (entry :: b') := by
  intro name hname
  rw [find?_cons, find?_cons]
  split_ifs with heq
  · rfl
  · exact h name ((List.mem_cons.1 hname).resolve_left fun he => heq he.symm)

/-- Bindings that only differ in what is bound to one name agree on the others. -/
theorem find?_eq_of_forall₂ {hidden name : String} (hname : name ≠ hidden)
    (h : List.Forall₂ (fun entry entry' => entry = entry' ∨ entry.1 = hidden ∧ entry'.1 = hidden)
      b b') : find? b name = find? b' name := by
  induction h with
  | nil => rfl
  | cons hentry _ ih =>
    rw [find?_cons, find?_cons, ih]
    obtain rfl | ⟨h, h'⟩ := hentry
    · rfl
    · rw [if_neg (h ▸ hname.symm), if_neg (h' ▸ hname.symm)]

end Bindings

/-! ## Combinators of meanings -/

/-- Computations for the items of a list are the same if each is. -/
theorem mapM_congr {m : Type → Type} [Monad m] [LawfulMonad m] {α β : Type} {f g : α → m β}
    {items : List α} (h : ∀ a ∈ items, f a = g a) : items.mapM f = items.mapM g := by
  induction items with
  | nil => rfl
  | cons a items ih =>
    obtain ⟨ha, hitems⟩ := List.forall_mem_cons.1 h
    rw [List.mapM_cons, List.mapM_cons, ha, ih hitems]

/-- A computation for the items of a list succeeds if each does, and gives their results. -/
theorem mapM_eq_ok_iff {α β ε : Type} {f : α → Except ε β} : ∀ {items : List α} {results : List β},
    items.mapM f = .ok results ↔ List.Forall₂ (fun a b => f a = .ok b) items results
  | [], results => by
    rw [List.forall₂_nil_left_iff]
    exact ⟨fun h => (Except.ok.inj h).symm, fun h => h ▸ rfl⟩
  | a :: items, results => by
    rw [List.mapM_cons, List.forall₂_cons_left_iff]
    constructor
    · intro h
      cases hfirst : f a with
      | error e => rw [hfirst] at h; cases h
      | ok b =>
        cases hrest : items.mapM f with
        | error e => rw [hfirst, hrest] at h; cases h
        | ok bs =>
          rw [hfirst, hrest] at h
          exact ⟨b, bs, rfl, mapM_eq_ok_iff.1 hrest, (Except.ok.inj h).symm⟩
    · rintro ⟨b, bs, hfirst, hrest, rfl⟩
      rw [hfirst, mapM_eq_ok_iff.2 hrest]
      rfl

namespace Meaning

variable {r : Registry} {value : String → Eval Ty} {b b' : Bindings}

theorem named_congr {name : String} (h : b.find? name = b'.find? name) :
    named r value name b = named r value name b' := by
  simp only [named, h]

theorem narrow_congr {given : List (String × Meaning)} (h : ∀ g ∈ given, g.2 b = g.2 b') :
    ∀ fields : List (String × Ty), narrow given b fields = narrow given b' fields
  | [] => rfl
  | (name, declared) :: fields => by
    simp only [narrow, narrow_congr h fields]
    cases hg : given.find? fun g => decide (g.1 = name) with
    | none => rfl
    | some g =>
      dsimp only
      rw [h g (List.mem_of_find?_eq_some hg)]

/-- Bindings decide about the fields that are given, and about the complaint if the name has no
struct. -/
theorem instantiate_congr {name : String} {given : List (String × Meaning)}
    (hname : b.find? name = b'.find? name) (h : ∀ g ∈ given, g.2 b = g.2 b') :
    instantiate r value name given b = instantiate r value name given b' := by
  simp only [instantiate, hname, narrow_congr h]

theorem all_congr {ms : List Meaning} (h : ∀ m ∈ ms, m b = m b') : all ms b = all ms b' :=
  mapM_congr h

theorem arguments_congr {f : Function} : ∀ {ms : List Meaning} (index : Nat) (params : List Ty),
    (∀ m ∈ ms, m b = m b') → arguments f b index ms params = arguments f b' index ms params
  | [], _, _, _ => by simp only [arguments]
  | _ :: _, _, [], _ => by simp only [arguments]
  | m :: ms, index, param :: params, h => by
    obtain ⟨hm, hms⟩ := List.forall_mem_cons.1 h
    have hrest := arguments_congr (f := f) (index + 1) params hms
    simp only [arguments, hm, hrest]

theorem call_congr {name : String} {args : List Meaning} (h : ∀ m ∈ args, m b = m b') :
    call r name args b = call r name args b' := by
  simp only [call, arguments_congr 0 _ h]

theorem selectOne_congr {arms : List (ArmMeaning × Ty)} {member : Ty}
    (h : ∀ arm ∈ arms, arm.1.result ((arm.1.binding.map fun name => (name, member)).toList ++ b)
      = arm.1.result ((arm.1.binding.map fun name => (name, member)).toList ++ b')) :
    selectOne arms b member = selectOne arms b' member := by
  unfold selectOne
  cases harm : arms.find? fun arm => member.subset arm.2 with
  | none => rfl
  | some arm =>
    have harm := h arm (List.mem_of_find?_eq_some harm)
    obtain ⟨⟨pattern, binding, result⟩, covered⟩ := arm
    cases binding with
    | some name => exact congrArg (some <$> ·) harm
    | none => exact congrArg (some <$> ·) harm

theorem select_congr {scrutinee : Meaning} {arms : List ArmMeaning}
    (hscrutinee : scrutinee b = scrutinee b')
    (hpattern : ∀ arm ∈ arms, arm.pattern b = arm.pattern b')
    (hresult : ∀ arm ∈ arms, ∀ member : Ty,
      arm.result ((arm.binding.map fun name => (name, member)).toList ++ b)
        = arm.result ((arm.binding.map fun name => (name, member)).toList ++ b')) :
    select scrutinee arms b = select scrutinee arms b' := by
  have hpatterns : all (arms.map (·.pattern)) b = all (arms.map (·.pattern)) b' :=
    all_congr (List.forall_mem_map.2 hpattern)
  have hone : ∀ patterns : List Ty,
      selectOne (arms.zip patterns) b = selectOne (arms.zip patterns) b' := fun patterns =>
    funext fun member => selectOne_congr fun arm harm =>
      hresult arm.1 (List.of_mem_zip harm).1 member
  simp only [select, hscrutinee, hpatterns, hone]

end Meaning

/-! ## Expressions -/

/-- Is the meaning of the expression the same for bindings that agree on the names bound around it
and on those it refers to? -/
def Expr.Lexical (r : Registry) (value : String → Eval Ty) (e : Expr) : Prop :=
  ∀ (bound : List String) (b b' : Bindings), Bindings.Agree bound b b' →
    Bindings.Agree (e.references bound) b b' → e.meaning r value b = e.meaning r value b'

section Lists

variable {r : Registry} {value : String → Eval Ty} {bound : List String} {b b' : Bindings}

theorem Expr.references_subset_list : ∀ {es : List Expr} {e : Expr}, e ∈ es →
    e.references bound ⊆ Expr.listReferences bound es
  | e :: es, e', he => by
    rw [Expr.listReferences]
    obtain rfl | he := List.mem_cons.1 he
    · exact List.subset_append_left _ _
    · exact List.subset_append_of_subset_right _ (references_subset_list he)

theorem Expr.references_subset_field : ∀ {fields : List (String × Expr)} {f : String × Expr},
    f ∈ fields → f.2.references bound ⊆ Expr.fieldReferences bound fields
  | (name, e) :: fields, f, hf => by
    rw [Expr.fieldReferences]
    obtain rfl | hf := List.mem_cons.1 hf
    · exact List.subset_append_left _ _
    · exact List.subset_append_of_subset_right _ (references_subset_field hf)

theorem Arm.references_subset : ∀ {arms : List Arm} {arm : Arm}, arm ∈ arms →
    arm.references bound ⊆ Expr.armReferences bound arms
  | arm :: arms, arm', harm => by
    rw [Expr.armReferences]
    obtain rfl | harm := List.mem_cons.1 harm
    · exact List.subset_append_left _ _
    · exact List.subset_append_of_subset_right _ (Arm.references_subset harm)

/-- What is bound to the name of an arm is the same for both bindings, so its result sees no
difference that its pattern does not. -/
theorem Arm.meaning_congr {arm : Arm} (hpattern : arm.pattern.Lexical r value)
    (hresult : arm.result.Lexical r value) (hbound : Bindings.Agree bound b b')
    (h : Bindings.Agree (arm.references bound) b b') :
    (arm.meaning r value).pattern b = (arm.meaning r value).pattern b' ∧
      ∀ member : Ty,
        (arm.meaning r value).result
            (((arm.meaning r value).binding.map fun name => (name, member)).toList ++ b)
          = (arm.meaning r value).result
            (((arm.meaning r value).binding.map fun name => (name, member)).toList ++ b') := by
  obtain ⟨pattern, binding, result⟩ := arm
  have hleft : Bindings.Agree (pattern.references bound) b b' :=
    h.mono (List.subset_append_left _ _)
  have hright : Bindings.Agree (result.references (binding.toList ++ bound)) b b' :=
    h.mono (List.subset_append_right _ _)
  refine ⟨hpattern bound b b' hbound hleft, fun member => ?_⟩
  cases binding with
  | none => exact hresult bound b b' hbound hright
  | some name =>
    exact hresult (name :: bound) _ _ (hbound.cons (name, member))
      ((hright.cons (name, member)).mono (List.subset_cons_self _ _))

end Lists

mutual

/-- The meaning of an expression depends on the bindings of the names it refers to only. -/
theorem Expr.lexical (r : Registry) (value : String → Eval Ty) : ∀ e : Expr, e.Lexical r value
  | .type _ => fun _ _ _ _ _ => rfl
  | .named name => fun bound b b' hbound h => by
    refine Meaning.named_congr ?_
    by_cases hname : name ∈ bound
    · exact hbound name hname
    · exact h name (by simp [Expr.references, hname])
  | .instantiate name fields => fun bound b b' hbound h => by
    simp only [Expr.meaning, Expr.fieldMeanings_eq_map]
    rw [Expr.references] at h
    refine Meaning.instantiate_congr (h name List.mem_cons_self)
      (List.forall_mem_map.2 fun f hf => ?_)
    exact Expr.lexical_field r value fields f hf bound b b' hbound
      (h.mono (List.subset_cons_of_subset _ (Expr.references_subset_field hf)))
  | .union items => fun bound b b' hbound h => by
    simp only [Expr.meaning, Expr.meanings_eq_map]
    rw [Meaning.all_congr (List.forall_mem_map.2 fun e he =>
      Expr.lexical_item r value items e he bound b b' hbound
        (h.mono (Expr.references_subset_list he)))]
  | .intersection items => fun bound b b' hbound h => by
    simp only [Expr.meaning, Expr.meanings_eq_map]
    rw [Meaning.all_congr (List.forall_mem_map.2 fun e he =>
      Expr.lexical_item r value items e he bound b b' hbound
        (h.mono (Expr.references_subset_list he)))]
  | .call function args => fun bound b b' hbound h => by
    simp only [Expr.meaning, Expr.meanings_eq_map]
    exact Meaning.call_congr (List.forall_mem_map.2 fun e he =>
      Expr.lexical_item r value args e he bound b b' hbound
        (h.mono (Expr.references_subset_list he)))
  | .select scrutinee arms => fun bound b b' hbound h => by
    simp only [Expr.meaning, Expr.armMeanings_eq_map]
    rw [Expr.references] at h
    have harms : ∀ arm ∈ arms, _ := fun arm harm =>
      Arm.meaning_congr (Expr.lexical_arm r value arms arm harm).1
        (Expr.lexical_arm r value arms arm harm).2 hbound
        (h.mono (List.subset_append_of_subset_right _ (Arm.references_subset harm)))
    exact Meaning.select_congr
      (Expr.lexical r value scrutinee bound b b' hbound (h.mono (List.subset_append_left _ _)))
      (List.forall_mem_map.2 fun arm harm => (harms arm harm).1)
      (List.forall_mem_map.2 fun arm harm => (harms arm harm).2)
  | .access record field => fun bound b b' hbound h => by
    simp only [Expr.meaning]
    rw [Expr.lexical r value record bound b b' hbound h]

theorem Expr.lexical_item (r : Registry) (value : String → Eval Ty) :
    ∀ (es : List Expr), ∀ e ∈ es, e.Lexical r value
  | e :: es, e', he' => by
    obtain he' | he' := List.mem_cons.1 he'
    · rw [he']
      exact Expr.lexical r value e
    · exact Expr.lexical_item r value es e' he'

theorem Expr.lexical_field (r : Registry) (value : String → Eval Ty) :
    ∀ (fields : List (String × Expr)), ∀ f ∈ fields, f.2.Lexical r value
  | (_, e) :: fields, f, hf => by
    obtain hf | hf := List.mem_cons.1 hf
    · rw [hf]
      exact Expr.lexical r value e
    · exact Expr.lexical_field r value fields f hf

theorem Expr.lexical_arm (r : Registry) (value : String → Eval Ty) :
    ∀ (arms : List Arm), ∀ arm ∈ arms, arm.pattern.Lexical r value ∧ arm.result.Lexical r value
  | .mk pattern _ result :: arms, arm, harm => by
    obtain harm | harm := List.mem_cons.1 harm
    · rw [harm]
      exact ⟨Expr.lexical r value pattern, Expr.lexical r value result⟩
    · exact Expr.lexical_arm r value arms arm harm

end

/-- Bindings that agree on what an expression refers to give it the same meaning. -/
theorem Expr.meaning_eq_of_agree {r : Registry} {value : String → Eval Ty} {e : Expr}
    {b b' : Bindings} (h : Bindings.Agree (e.references []) b b') :
    e.meaning r value b = e.meaning r value b' :=
  Expr.lexical r value e [] b b' (fun _ => nofun) h

/-- Bindings that agree on what an expression refers to give it the same type or error. -/
theorem Expr.evaluate_eq_of_agree {e : Expr} {r : Registry} {b b' : Bindings}
    (h : Bindings.Agree (e.references []) b b') : e.evaluate r b = e.evaluate r b' := by
  rw [Expr.evaluate, Expr.evaluate, meaning_eq_of_agree h]

/-- A session answers the same for bindings that agree on what the expression refers to, and
remembers the same afterwards. -/
theorem Session.evaluateWith_eq_of_agree (s : Session) {e : Expr}
    {bindings bindings' : List (String × Ty)}
    (h : Bindings.Agree (e.references []) bindings.reverse bindings'.reverse) :
    s.evaluateWith e bindings = s.evaluateWith e bindings' := by
  simp only [evaluateWith, compute, Expr.meaning_eq_of_agree h]

end FlowTypes
