import FlowTypes.Proofs.EvaluatedTypes
import FlowTypes.Proofs.IntegerSums
import FlowTypes.Proofs.MonotoneProducts
import FlowTypes.Proofs.MonotoneRounding
import FlowTypes.Proofs.NodeOutputs
import FlowTypes.Proofs.Selection

/-!
# Built-in functions keep the order of types

A built-in function on numbers works set by set, or pair by pair, and joins the results. If every
set of the narrower operand is part of one set of the wider, results are included because they are
for two sets (`Ty.add_subset_add`, `Ty.multiply_subset_multiply`,
`Ty.reciprocal_subset_reciprocal`). But several sets may cover a range of integers jointly, and then
its hull may reach between theirs. Operations that are exact on points do not mind
(`Ty.negate_subset_negate`, `Ty.minimum_subset_minimum`), nor do sums of small integers, nor
rounding (`Ty.round_subset_round`) : an integer is rounded to itself. Joining texts works text by
text (`Ty.concatenate_subset_concatenate`).

`Function.Compares` collects what each function asks of its arguments, and `Function.Widens` adds
that these are evaluated types, each included in the wider one. An output of a node that calls a
function has the type of its result (`Node.Schema.output_of_call`), so what holds of results holds
of outputs.
-/

namespace FlowTypes

open ExtendedRat Binary64

namespace NumberSet

variable {n m : NumberSet} {ns ms ns' ms' : List NumberSet} {bound : ℕ}

/-! ## Inclusion of unpassed points -/

/-- Has the second list every unpassed point of the first? -/
def UnpassedIn (ns ms : List NumberSet) : Prop :=
  ∀ p, Unpassed p → DenotesSome ns p → DenotesSome ms p

theorem PointsIn.unpassedIn (h : PointsIn ns ms) : UnpassedIn ns ms := fun p _ => h p

/-- Is the set part of one of the list? -/
def PartOf (n : NumberSet) (ns : List NumberSet) : Prop := ∃ m ∈ ns, n.subset m = true

instance : Decidable (n.PartOf ns) := inferInstanceAs (Decidable (∃ m ∈ ns, n.subset m = true))

/-! ## Sums and products of pairs -/

/-- What keeps the order of the results of an operation for pairs of sets. The sets of each pair are
parts of wider ones, unless they are sets of integers and small. No two numbers overflow. And the
real intervals among the wider results begin where steps lead back. -/
structure PairsIn (op : NumberSet → NumberSet → List NumberSet)
    (result : Binary64 → Binary64 → Binary64) (small : Prop) (ns ms ns' ms' : List NumberSet) :
    Prop where
  parts : ∀ n ∈ ns, ∀ m ∈ ms, (n.PartOf ns' ∧ m.PartOf ms') ∨
    (n.isIntegral = true ∧ m.isIntegral = true ∧ small)
  bounded : ∀ v ∈ ns.filterMap literal?, ∀ w ∈ ms.filterMap literal?, ¬Overflows v w (result v w)
  steps : stepsBack (pairs op ns' ms') = true

section Wider

variable (hns : AllWellFormed ns) (hms : AllWellFormed ms) (hns' : AllWellFormed ns')
  (hms' : AllWellFormed ms')
include hns hms hns' hms'

theorem PairsIn.multiply (h : PairsIn multiplyOne (· * ·) False ns ms ns' ms') :
    UnpassedIn (pairs multiplyOne ns ms) (pairs multiplyOne ns' ms') := by
  intro p hp hmem
  rw [denotesSome_pairs] at hmem ⊢
  obtain ⟨n, hn, m, hm, hx⟩ := hmem
  obtain ⟨⟨n', hn', hsub⟩, m', hm', hsub'⟩ := (h.parts n hn m hm).resolve_right (·.2.2)
  refine ⟨n', hn', m', hm', denotesSome_multiplyOne_of_subset (hns n hn) (hms m hm) (hns' n' hn')
    (hms' m' hm') hsub hsub' ?_ hx⟩
  rintro v w rfl rfl
  exact h.bounded v (mem_filterMap_literal?.2 hn) w (mem_filterMap_literal?.2 hm)

/-- Sets of integers within small bounds have the sums of all their integers, so it does not matter
for them which sets these are in. -/
theorem PairsIn.add {small : Prop} (h : PairsIn addOne (· + ·) small ns ms ns' ms')
    (hsmall : small → SteadyIn (2 ^ 52 - 1) ns ns' ∧ SteadyIn (2 ^ 52 - 1) ms ms') :
    UnpassedIn (pairs addOne ns ms) (pairs addOne ns' ms') := by
  intro p hp hmem
  rw [denotesSome_pairs] at hmem ⊢
  obtain ⟨n, hn, m, hm, hx⟩ := hmem
  rcases h.parts n hn m hm with ⟨⟨n', hn', hsub⟩, m', hm', hsub'⟩ | ⟨hint, hint', hs⟩
  · refine ⟨n', hn', m', hm', denotesSome_addOne_of_subset (hns n hn) (hms m hm) (hns' n' hn')
      (hms' m' hm') hsub hsub' hp ?_ hx⟩
    rintro v w rfl rfl
    exact h.bounded v (mem_filterMap_literal?.2 hn) w (mem_filterMap_literal?.2 hm)
  · obtain ⟨hsteady, hsteady'⟩ := hsmall hs
    obtain ⟨x, y, rfl, hx, hy⟩ := exists_int_of_addOne le_rfl (hns n hn) (hms m hm)
      (hsteady.narrow.steady n hn) (hsteady'.narrow.steady m hm) hint hint' hp hx
    obtain ⟨n', hn', hx'⟩ := hsteady.points _ ⟨n, hn, hx⟩
    obtain ⟨m', hm', hy'⟩ := hsteady'.points _ ⟨m, hm, hy⟩
    exact ⟨n', hn', m', hm', denotesSome_addOne_int le_rfl (hns' n' hn') (hms' m' hm')
      (hsteady.wide.steady n' hn') (hsteady'.wide.steady m' hm') hp hx' hy'⟩

end Wider

end NumberSet

open NumberSet

/-! ## Sets of numbers of included types -/

namespace Ty

variable {a b a' b' : Ty} {p q : NumberSet → Bool} {ns ms : List NumberSet} {bound : ℕ}

theorem Regular.fitted (ha : a.Regular p) : Fitted a.numbers := by
  cases a with
  | any =>
    have hall : Fitted (canonical [.all]) := fitted_canonical (by simp)
    exact hall
  | oneOf ss => exact ha.fitted_numbers

/-- Included types have their sets of numbers covered. -/
theorem covered_numbers (h : a.subset a' = true) {n : NumberSet} (hn : n ∈ a.numbers) :
    (∃ m ∈ a'.numbers, n.subset m = true) ∨ n.joint a'.numbers = true := by
  cases a' with
  | any => exact Or.inl ⟨.all, List.mem_singleton_self _, by cases n <;> rfl⟩
  | oneOf ys =>
    cases a with
    | any => simp [subset, isAny] at h
    | oneOf xs =>
      rw [subset, Shape.allCovered_iff] at h
      exact Shape.covered_number.1 (h _ (mem_filterMap_number?.1 hn))

/-- Are the bounds of the numbers so small that steps by one are exact beyond them? -/
def steadyTo (bound : ℕ) (t : Ty) : Bool := t.numbers.all (isSteadyTo bound)

theorem steadyUnion_numbers (ha : a.Regular p) (h : a.steadyTo bound = true) :
    SteadyUnion bound a.numbers :=
  ⟨ha.allWellFormed_numbers, List.all_eq_true.1 h⟩

theorem steadyIn_numbers (hbound : bound + 2 ≤ 2 ^ 53) (ha : a.Regular p) (ha' : a'.Regular q)
    (hs : a.steadyTo bound = true) (hs' : a'.steadyTo bound = true) (h : a.subset a' = true) :
    SteadyIn bound a.numbers a'.numbers := by
  have hsteady := steadyUnion_numbers ha hs
  have hsteady' := steadyUnion_numbers ha' hs'
  refine ⟨hsteady, hsteady', fun x ⟨n, hn, hx⟩ => ?_⟩
  rcases covered_numbers h hn with ⟨m, hm, hsub⟩ | hjoint
  · exact ⟨m, hm, hx.of_subset (hsteady'.wellFormed m hm) hsub⟩
  · have hregular : ∀ {bs : List NumberSet}, SteadyUnion bound bs → ∀ m ∈ bs,
        (Shape.number m).Regular isSteady := fun hbs m hm => Shape.regular_number.2
      ⟨hbs.wellFormed m hm, isSteady_of_isSteadyTo hbound (hbs.steady m hm)⟩
    exact exactFor_regular.denotes_of_joint (hregular hsteady n hn) (hregular hsteady') hjoint
      trivial hx

/-- Types of numbers in canonical form are included if their unpassed points are. -/
theorem subset_ofNumbers (hns : AllWellFormed ns) (hms : Fitted ms) (h : UnpassedIn ns ms) :
    (ofNumbers ns).subset (ofNumbers ms) = true := by
  have hnumber : Shape.number? ∘ Shape.number = some := rfl
  rw [ofNumbers, ofNumbers, subset, Shape.allCovered_iff]
  intro s hs
  obtain ⟨n, hn, rfl⟩ := List.mem_map.1 hs
  rw [Shape.covered_number, List.filterMap_map, hnumber, List.filterMap_some,
    covered_iff_unpassed (hns n hn) hms]
  exact fun x hx hnx => h x hx ⟨n, hn, hnx⟩

theorem subset_ofNumbers_canonical (hns : AllWellFormed ns) (hms : AllWellFormed ms)
    (hstop : CutsStop ms) (h : UnpassedIn ns ms) :
    (ofNumbers (canonical ns)).subset (ofNumbers (canonical ms)) = true :=
  subset_ofNumbers (allWellFormed_canonical hns) (fitted_canonical hms) fun x hx hmem =>
    (sameUnpassed_canonical hms hstop x hx).2
      (h x hx (denotes_of_canonical_of_unpassed hns hx hmem))

theorem subset_ofNumbers_pairs {op : NumberSet → NumberSet → List NumberSet}
    {ns ms ns' ms' : List NumberSet} (hop : ∀ n m, AllWellFormed (op n m))
    (hsteps : stepsBack (pairs op ns' ms') = true)
    (h : UnpassedIn (pairs op ns ms) (pairs op ns' ms')) :
    (ofNumbers (canonical (pairs op ns ms))).subset (ofNumbers (canonical (pairs op ns' ms')))
      = true := by
  have hwf : ∀ ns ms : List NumberSet, AllWellFormed (pairs op ns ms) := fun ns ms =>
    allWellFormed_pairs fun n _ m _ => hop n m
  exact subset_ofNumbers_canonical (hwf ns ms) (hwf ns' ms')
    (cutsStop_of_stepsBack (hwf ns' ms') hsteps) h

/-! ## Operations on types -/

/-- Rounding keeps the order of types, whatever their bounds. -/
theorem round_subset_round (ha : a.Regular p) (ha' : a'.Regular q) (h : a.subset a' = true) :
    a.round.subset a'.round = true := by
  have hwf := ha.allWellFormed_numbers
  have hwf' := ha'.allWellFormed_numbers
  refine subset_ofNumbers_canonical
    (allWellFormed_flatMap fun n hn => allWellFormed_roundOne (hwf n hn))
    (allWellFormed_flatMap fun n hn => allWellFormed_roundOne (hwf' n hn))
    (cutsStop_of_no_intervals fun m hm => ?_) fun x hx hmem => ?_
  · obtain ⟨n, -, hm⟩ := List.mem_flatMap.1 hm
    exact reals?_of_mem_roundOne hm
  rw [denotesSome_flatMap] at hmem ⊢
  obtain ⟨n, hn, hnx⟩ := hmem
  have hpoints := (covered_iff_unpassed (hwf n hn) ha'.fitted).1 (covered_numbers h hn)
  cases hint : n.integral? with
  | none =>
    obtain ⟨n', hn', hsub⟩ := exists_subset_of_unpassed (hwf n hn) ha'.fitted hint hpoints
    exact ⟨n', hn', denotesSome_roundOne_of_subset (hwf n hn) (hwf' n' hn') hint hsub hx hnx⟩
  | some r =>
    cases n with
    | integers lo hi =>
      have hnx := denotesSome_singleton.1 hnx
      obtain ⟨n', hn', hnx'⟩ := hpoints _ hx hnx
      obtain ⟨z, rfl, -⟩ := hnx
      exact ⟨n', hn', denotesSome_roundOne_int (hwf' n' hn') hx hnx'⟩
    | _ => cases hint

/-- Reciprocals keep the order of types of which every set is part of one set. -/
theorem reciprocal_subset_reciprocal (ha : a.Regular p) (ha' : a'.Regular q)
    (h : ∀ n ∈ a.numbers, n.PartOf a'.numbers) : a.reciprocal.subset a'.reciprocal = true := by
  refine subset_ofNumbers_canonical
    (allWellFormed_flatMap fun n _ => allWellFormed_reciprocalOne n)
    (allWellFormed_flatMap fun n _ => allWellFormed_reciprocalOne n)
    (cutsStop_flatMap_reciprocalOne ha'.allWellFormed_numbers) fun x hx hmem => ?_
  rw [denotesSome_flatMap] at hmem ⊢
  obtain ⟨n, hn, hnx⟩ := hmem
  obtain ⟨n', hn', hsub⟩ := h n hn
  exact ⟨n', hn', denotesSome_reciprocalOne_of_subset (ha.allWellFormed_numbers n hn)
    (ha'.allWellFormed_numbers n' hn') hsub hx hnx⟩

/-- Sums of sets of numbers keep the order, for pairs that do. -/
theorem subset_add {small : Prop} {ns ms ns' ms' : List NumberSet} (hns : AllWellFormed ns)
    (hms : AllWellFormed ms) (hns' : AllWellFormed ns') (hms' : AllWellFormed ms')
    (hsmall : small → SteadyIn (2 ^ 52 - 1) ns ns' ∧ SteadyIn (2 ^ 52 - 1) ms ms')
    (h : PairsIn addOne (· + ·) small ns ms ns' ms') :
    (ofNumbers (NumberSet.add ns ms)).subset (ofNumbers (NumberSet.add ns' ms')) = true :=
  subset_ofNumbers_pairs allWellFormed_addOne h.steps (h.add hns hms hns' hms' hsmall)

/-- Changes of sign keep the order of types with small bounds. -/
theorem negate_subset_negate (hbound : bound + 2 ≤ 2 ^ 53) (ha : a.Regular p) (ha' : a'.Regular p)
    (hs : a.steadyTo bound = true) (hs' : a'.steadyTo bound = true) (h : a.subset a' = true) :
    a.negate.subset a'.negate = true :=
  let hsteady := (steadyIn_numbers hbound ha ha' hs hs' h).negate hbound
  subset_ofNumbers hsteady.narrow.wellFormed (fitted_canonical (allWellFormed_flatMap
    fun n _ => allWellFormed_negateOne n)) hsteady.points.unpassedIn

section Operands

variable (ha : a.Regular p) (hb : b.Regular p) (ha' : a'.Regular p) (hb' : b'.Regular p)
  (h : a.subset a' = true) (h' : b.subset b' = true)
include ha hb ha' hb'

/-- Products keep the order of types, pair by pair. -/
theorem multiply_subset_multiply
    (hpairs : PairsIn multiplyOne (· * ·) False a.numbers b.numbers a'.numbers b'.numbers) :
    (a.multiply b).subset (a'.multiply b') = true :=
  subset_ofNumbers_pairs allWellFormed_multiplyOne hpairs.steps
    (hpairs.multiply ha.allWellFormed_numbers hb.allWellFormed_numbers ha'.allWellFormed_numbers
      hb'.allWellFormed_numbers)

include h h'

/-- Sums keep the order of types, pair by pair. -/
theorem add_subset_add
    (hpairs : PairsIn addOne (· + ·) (∀ t ∈ [a, b, a', b'], t.steadyTo (2 ^ 52 - 1) = true)
      a.numbers b.numbers a'.numbers b'.numbers) : (a.add b).subset (a'.add b') = true := by
  refine subset_add ha.allWellFormed_numbers hb.allWellFormed_numbers ha'.allWellFormed_numbers
    hb'.allWellFormed_numbers (fun hsmall => ?_) hpairs
  simp only [List.forall_mem_cons] at hsmall
  obtain ⟨hsa, hsb, hsa', hsb', -⟩ := hsmall
  exact ⟨steadyIn_numbers (by norm_num) ha ha' hsa hsa' h,
    steadyIn_numbers (by norm_num) hb hb' hsb hsb' h'⟩

/-- Differences keep the order of types as sums with the other sign do. -/
theorem subtract_subset_subtract
    (hpairs : PairsIn addOne (· + ·) (∀ t ∈ [a, b, a', b'], t.steadyTo (2 ^ 52 - 1) = true)
      a.numbers (NumberSet.negate b.numbers) a'.numbers (NumberSet.negate b'.numbers)) :
    (a.subtract b).subset (a'.subtract b') = true := by
  have hnegate : ∀ ns : List NumberSet, AllWellFormed (NumberSet.negate ns) := fun ns =>
    allWellFormed_canonical (allWellFormed_flatMap fun n _ => allWellFormed_negateOne n)
  refine subset_add ha.allWellFormed_numbers (hnegate _) ha'.allWellFormed_numbers (hnegate _)
    (fun hsmall => ?_) hpairs
  simp only [List.forall_mem_cons] at hsmall
  obtain ⟨hsa, hsb, hsa', hsb', -⟩ := hsmall
  exact ⟨steadyIn_numbers (by norm_num) ha ha' hsa hsa' h,
    (steadyIn_numbers (by norm_num) hb hb' hsb hsb' h').negate (by norm_num)⟩

/-- Minima and maxima keep the order of types with small bounds. -/
theorem minimum_subset_minimum (hbound : bound + 3 ≤ 2 ^ 53)
    (hs : ∀ t ∈ [a, b, a', b'], t.steadyTo bound = true) :
    (a.minimum b).subset (a'.minimum b') = true ∧ (a.maximum b).subset (a'.maximum b') = true := by
  simp only [List.forall_mem_cons] at hs
  obtain ⟨hsa, hsb, hsa', hsb', -⟩ := hs
  have hleft := steadyIn_numbers (by omega) ha ha' hsa hsa' h
  have hright := steadyIn_numbers (by omega) hb hb' hsb hsb' h'
  have hmin := hleft.minimum hbound hright
  have hmax := hleft.maximum hbound hright
  refine ⟨subset_ofNumbers hmin.narrow.wellFormed (fitted_canonical ?_) hmin.points.unpassedIn,
    subset_ofNumbers hmax.narrow.wellFormed (fitted_canonical ?_) hmax.points.unpassedIn⟩
  · exact (hleft.wide.pairs_minimumOne (by omega) hright.wide).wellFormed
  · exact allWellFormed_flatMap fun n _ => allWellFormed_negateOne n

end Operands

/-! ## Texts -/

/-- Included types have their sets of texts included one by one. -/
theorem exists_texts_subset (h : a.subset a' = true) {t : TextSet} (ht : t ∈ a.texts) :
    ∃ u ∈ a'.texts, t.subset u = true := by
  cases a' with
  | any => exact ⟨.all, List.mem_singleton_self _, by cases t <;> rfl⟩
  | oneOf ys =>
    cases a with
    | any => simp [subset, isAny] at h
    | oneOf xs =>
      rw [subset, Shape.allCovered_iff] at h
      exact Shape.covered_text.1 (h _ (Shape.mem_filterMap_text?.1 ht))

theorem subset_ofTexts_canonical {xs ys : List TextSet}
    (h : ∀ x ∈ xs, ∃ y ∈ ys, x.subset y = true) :
    (ofTexts (TextSet.canonical xs)).subset (ofTexts (TextSet.canonical ys)) = true := by
  have htext : Shape.text? ∘ Shape.text = some := rfl
  rw [ofTexts, ofTexts, subset, Shape.allCovered_iff]
  intro s hs
  obtain ⟨t, ht, rfl⟩ := List.mem_map.1 hs
  rw [Shape.covered_text, List.filterMap_map, htext, List.filterMap_some]
  refine TextSet.exists_subset_of_has fun v hv => (TextSet.has_canonical ys v).2 ?_
  obtain ⟨x, hx, hxv⟩ := (TextSet.has_canonical xs v).1 ⟨t, ht, hv⟩
  obtain ⟨y, hy, hsub⟩ := h x hx
  exact ⟨y, hy, TextSet.has_of_subset hsub hxv⟩

/-- Joined texts keep the order of types. -/
theorem concatenate_subset_concatenate (h : a.subset a' = true) (h' : b.subset b' = true) :
    (a.concatenate b).subset (a'.concatenate b') = true := by
  refine subset_ofTexts_canonical fun t ht => ?_
  obtain ⟨x, hx, ht⟩ := List.mem_flatMap.1 ht
  obtain ⟨y, hy, rfl⟩ := List.mem_map.1 ht
  obtain ⟨x', hx', hsub⟩ := exists_texts_subset h hx
  obtain ⟨y', hy', hsub'⟩ := exists_texts_subset h' hy
  refine ⟨_, List.mem_flatMap.2 ⟨x', hx', List.mem_map.2 ⟨y', hy', rfl⟩⟩, ?_⟩
  cases x' with
  | all => cases x <;> cases y <;> rfl
  | literal s' =>
    cases y' with
    | all => cases x <;> cases y <;> rfl
    | literal t' =>
      cases x <;> cases y <;> simp_all [TextSet.subset]

end Ty

/-! ## Built-in functions -/

namespace Function

/-- What a built-in function asks of its arguments, besides that they are included, to keep their
order. Rounding and joining texts ask for nothing. -/
def Compares (f : Function) (args args' : List Ty) : Prop :=
  let small bound := ∀ t ∈ args ++ args', t.steadyTo bound = true
  match f.name, args, args' with
  | "negate", _, _ | "min", _, _ | "max", _, _ => small (2 ^ 53 - 3)
  | "add", [a, b], [a', b'] =>
    PairsIn addOne (· + ·) (small (2 ^ 52 - 1)) a.numbers b.numbers a'.numbers b'.numbers
  | "subtract", [a, b], [a', b'] =>
    PairsIn addOne (· + ·) (small (2 ^ 52 - 1)) a.numbers (negate b.numbers) a'.numbers
      (negate b'.numbers)
  | "multiply", [a, b], [a', b'] =>
    PairsIn multiplyOne (· * ·) False a.numbers b.numbers a'.numbers b'.numbers
  | "reciprocal", [a], [a'] => ∀ n ∈ a.numbers, n.PartOf a'.numbers
  | _, _, _ => True

variable {name : String} {param : Ty} {args args' : List Ty}

theorem never_subset_never : Ty.never.subset .never = true := by decide +kernel

section Arguments

variable (hargs : ∀ t ∈ args ++ args', t.Regular fun _ => true)
  (h : List.Forall₂ (fun a a' => a.subset a' = true) args args')
include hargs h

theorem subset_unary {g : Ty → Ty} (hc : (unary name param g).Compares args args')
    (hg : ∀ {a a' : Ty}, (a.Regular fun _ => true) → (a'.Regular fun _ => true) →
      a.subset a' = true → (unary name param g).Compares [a] [a'] →
        (g a).subset (g a') = true) :
    ((unary name param g).apply args).subset ((unary name param g).apply args') = true := by
  match h with
  | .nil => exact never_subset_never
  | .cons h .nil => exact hg (hargs _ (by simp)) (hargs _ (by simp)) h hc
  | .cons _ (.cons _ _) => exact never_subset_never

theorem subset_binary {g : Ty → Ty → Ty} (hc : (binary name param g).Compares args args')
    (hg : ∀ {a b a' b' : Ty}, (a.Regular fun _ => true) → (b.Regular fun _ => true) →
      (a'.Regular fun _ => true) → (b'.Regular fun _ => true) → a.subset a' = true →
        b.subset b' = true → (binary name param g).Compares [a, b] [a', b'] →
          (g a b).subset (g a' b') = true) :
    ((binary name param g).apply args).subset ((binary name param g).apply args') = true := by
  match h with
  | .nil => exact never_subset_never
  | .cons _ .nil => exact never_subset_never
  | .cons h (.cons h' .nil) =>
    exact hg (hargs _ (by simp)) (hargs _ (by simp)) (hargs _ (by simp)) (hargs _ (by simp)) h h' hc
  | .cons _ (.cons _ (.cons _ _)) => exact never_subset_never

/-- Narrower arguments give a built-in function a narrower result. -/
theorem subset_apply {f : Function} (hf : f ∈ builtins) (hc : f.Compares args args') :
    (f.apply args).subset (f.apply args') = true := by
  simp only [builtins, List.mem_cons, List.not_mem_nil, or_false] at hf
  rcases hf with rfl | rfl | rfl | rfl | rfl | rfl | rfl | rfl | rfl
  · exact subset_binary hargs h hc Ty.add_subset_add
  · exact subset_binary hargs h hc Ty.subtract_subset_subtract
  · exact subset_binary hargs h hc fun ha hb ha' hb' h h' hs =>
      (Ty.minimum_subset_minimum ha hb ha' hb' h h' (by norm_num) hs).1
  · exact subset_binary hargs h hc fun ha hb ha' hb' h h' hs =>
      (Ty.minimum_subset_minimum ha hb ha' hb' h h' (by norm_num) hs).2
  · exact subset_binary hargs h hc fun ha hb ha' hb' _ _ =>
      Ty.multiply_subset_multiply ha hb ha' hb'
  · exact subset_unary hargs h hc fun ha ha' h hs => Ty.negate_subset_negate (by norm_num) ha ha'
      (hs _ (by simp)) (hs _ (by simp)) h
  · exact subset_unary hargs h hc fun ha ha' h _ => Ty.round_subset_round ha ha' h
  · exact subset_unary hargs h hc fun ha ha' _ => Ty.reciprocal_subset_reciprocal ha ha'
  · exact subset_binary hargs h hc fun _ _ _ _ h h' _ => Ty.concatenate_subset_concatenate h h'

end Arguments

end Function

/-! ## Calls in the outputs of nodes -/

section Calls

variable {f : Function} {r : Registry} {b : Bindings} {name : String}

/-- The arguments of a call are what the expressions denote. -/
theorem Meaning.arguments_of_ok : ∀ {es : List Expr} {params : List Ty} {index : Nat}
    {args : List Ty} {memo : Memo}, es.length = params.length →
      (arguments f b index (es.map (·.meaning r (r.resolve []))) params).run .off
        = (.ok args, memo) → List.Forall₂ (fun e t => e.evaluate r b = .ok t) es args
  | [], [], _, _, _, _, h => by
    cases h
    exact .nil
  | e :: es, param :: params, index, args, memo, hlen, h => by
    simp only [List.map_cons, arguments] at h
    rw [runState_bind, e.gives_evaluate r b] at h
    cases he : e.evaluate r b with
    | error reason =>
      rw [he] at h
      cases h
    | ok t =>
      rw [he] at h
      dsimp only at h
      split at h
      · rw [runState_bind] at h
        obtain ⟨result, memo', hrest⟩ : ∃ result memo', (arguments f b (index + 1)
          (es.map (·.meaning r (r.resolve []))) params).run .off = (result, memo') := ⟨_, _, rfl⟩
        rw [hrest] at h
        cases result with
        | error reason => cases h
        | ok ts =>
          cases h
          exact .cons he (arguments_of_ok (Nat.succ.inj hlen) hrest)
      · cases h

/-- A call that succeeds applies the function to what its arguments denote. -/
theorem Expr.exists_arguments {es : List Expr} {t : Ty} (hf : r.function? name = some f)
    (h : (Expr.call name es).evaluate r b = .ok t) :
    ∃ args, (es.mapM fun e => e.evaluate r b) = .ok args ∧ t = f.apply args := by
  have hrun := (Expr.call name es).gives_evaluate r b
  rw [h, Eval.Gives, Expr.meaning, Expr.meanings_eq_map, Meaning.call, hf] at hrun
  dsimp only at hrun
  split at hrun
  · cases hrun
  · next hlen =>
    rw [List.length_map, not_not] at hlen
    rw [runState_bind] at hrun
    obtain ⟨result, memo, hargs⟩ : ∃ result memo, (Meaning.arguments f b 0
      (es.map (·.meaning r (r.resolve []))) f.params).run .off = (result, memo) := ⟨_, _, rfl⟩
    rw [hargs] at hrun
    cases result with
    | error reason => cases hrun
    | ok args =>
      cases hrun
      exact ⟨args, mapM_eq_ok_iff.2 (Meaning.arguments_of_ok hlen.symm hargs), rfl⟩

namespace Node

/-- The types that some expressions denote in the outputs of a node. -/
def Schema.argumentsIn (schema : Schema) (r : Registry) (connected : List (Option Ty))
    (es : List Expr) : Except Error (List Ty) := do
  let declared ← schema.inputs.mapM (Pin.typeIn r [])
  let flowing := (flowBindings (flows declared connected)).reverse
  (es.mapM fun e : Expr => e.evaluate r flowing).mapError .meaningless

/-- An output that calls a function has the type of its result. -/
theorem Schema.output_of_call {schema : Schema} {connected : List (Option Ty)} {typing : Typing}
    {j : Nat} {p : Pin} {es : List Expr} {args : List Ty} (hf : r.function? name = some f)
    (hcheck : schema.check connected r = .ok typing) (hp : schema.outputs[j]? = some p)
    (hparse : Expr.parse p.type = .ok (.call name es))
    (hargs : schema.argumentsIn r connected es = .ok args) :
    typing.outputs[j]? = some (f.apply args) := by
  obtain ⟨declared, hinputs, houtputs⟩ := exists_output_of_check hcheck
  obtain ⟨t, ht, hj⟩ := houtputs j p hp
  have hevaluate : (Expr.call name es).evaluate r (flowBindings (flows declared connected)).reverse
      = .ok t := by
    rw [Pin.typeIn, hparse] at ht
    cases he : (Expr.call name es).evaluate r (flowBindings (flows declared connected)).reverse with
    | error reason =>
      simp only [bind, Except.bind, Except.mapError, he] at ht
      cases ht
    | ok u =>
      simp only [bind, Except.bind, Except.mapError, he] at ht
      exact congrArg _ (Except.ok.inj ht)
  obtain ⟨args', hargs', rfl⟩ := Expr.exists_arguments hf hevaluate
  rw [argumentsIn, hinputs] at hargs
  simp only [bind, Except.bind, hargs', Except.mapError, Except.ok.injEq] at hargs
  rw [hj, hargs]

end Node

end Calls

/-- Do the arguments of a function become wider, in a way that keeps the order of its results? -/
structure Function.Widens (f : Function) (args args' : List Ty) : Prop where
  regular : ∀ t ∈ args ++ args', t.Regular fun _ => true
  included : List.Forall₂ (fun a a' => a.subset a' = true) args args'
  compares : f.Compares args args'

/-- A built-in function has narrower results for narrower arguments, if these meet what it asks
of them. So an output of a node that calls it does not become wider when its arguments become
narrower, whatever is connected to the inputs. -/
theorem Function.builtins_monotone {f : Function} (hf : f ∈ builtins) :
    (∀ args args' : List Ty, f.Widens args args' →
      (f.apply args).subset (f.apply args') = true) ∧
    ∀ r : Registry, r.function? f.name = some f → ∀ (schema : Node.Schema)
      (connected connected' : List (Option Ty)) (typing typing' : Node.Typing),
      schema.check connected r = .ok typing → schema.check connected' r = .ok typing' →
        ∀ (j : Nat) (p : Node.Pin) (es : List Expr) (args args' : List Ty),
          schema.outputs[j]? = some p → Expr.parse p.type = .ok (.call f.name es) →
            schema.argumentsIn r connected es = .ok args →
              schema.argumentsIn r connected' es = .ok args' → f.Widens args args' →
                ∃ t t', typing.outputs[j]? = some t ∧ typing'.outputs[j]? = some t' ∧
                  t.subset t' = true := by
  have hresult : ∀ args args' : List Ty, f.Widens args args' →
      (f.apply args).subset (f.apply args') = true := fun args args' h =>
    subset_apply h.regular h.included hf h.compares
  refine ⟨hresult, fun r hr schema connected connected' typing typing' hcheck hcheck' j p es args
    args' hp hparse hargs hargs' h => ⟨f.apply args, f.apply args', ?_, ?_, hresult args args' h⟩⟩
  · exact Node.Schema.output_of_call hr hcheck hp hparse hargs
  · exact Node.Schema.output_of_call hr hcheck' hp hparse hargs'

/-- The integers up to two, jointly covered by reals and integers, are added to those up to one. -/
theorem Function.builtins_monotone_add :
    let add := binary "add" .number .add
    let a := Ty.integers .zero (.ofNat 2)
    let a' := Ty.union [.interval .zero .half, .integers .one (.ofNat 2)]
    let b := Ty.integers .zero .one
    let number : Node.Pin := ⟨"", "number"⟩
    let schema : Node.Schema := ⟨"sum", [number, number], [⟨"", "add(Input0, Input1)"⟩]⟩
    let typing : Node.Typing := ⟨[.valid, .valid], [add.apply [a, b]]⟩
    let typing' : Node.Typing := ⟨[.valid, .valid], [add.apply [a', b]]⟩
    add ∈ builtins ∧ add.Widens [a, b] [a', b] ∧
      (add.apply [a, b]).subset (add.apply [a', b]) = true ∧
      schema.check [some a, some b] .withBuiltins = .ok typing ∧
      schema.check [some a', some b] .withBuiltins = .ok typing' ∧
      ∃ t t', typing.outputs[0]? = some t ∧ typing'.outputs[0]? = some t' ∧
        t.subset t' = true := by
  intro add a a' b number schema typing typing'
  have hadd : add ∈ builtins := List.mem_cons_self
  have hb : b.Regular fun _ => true := Ty.Built.regular (.integers _ _)
  have hwidens : add.Widens [a, b] [a', b] := {
    regular := by
      have ha : a.Regular fun _ => true := Ty.Built.regular (.integers _ _)
      have ha' : a'.Regular fun _ => true := Ty.regular_union kept_true <| List.forall_mem_cons.2
        ⟨Ty.Built.regular (.interval _ _), List.forall_mem_singleton.2
          (Ty.Built.regular (.integers _ _))⟩
      simp [ha, ha', hb]
    included := .cons (by decide +kernel) (.cons (by decide +kernel) .nil)
    compares := ⟨by decide +kernel, by decide +kernel, by decide +kernel⟩ }
  have hcheck : schema.check [some a, some b] .withBuiltins = .ok typing := by decide +kernel
  have hcheck' : schema.check [some a', some b] .withBuiltins = .ok typing' := by decide +kernel
  obtain ⟨hresult, houtput⟩ := builtins_monotone hadd
  exact ⟨hadd, hwidens, hresult _ _ hwidens, hcheck, hcheck', houtput .withBuiltins rfl schema _ _
    typing typing' hcheck hcheck' 0 ⟨"", "add(Input0, Input1)"⟩ [.named "Input0", .named "Input1"]
    [a, b] [a', b] rfl (by decide +kernel) (by decide +kernel) (by decide +kernel) hwidens⟩

/-- Is the function a built-in one whose result for narrower arguments is not included in that for
wider ones? -/
structure Function.Escapes (f : Function) (args args' : List Ty) : Prop where
  builtin : f ∈ builtins
  built : ∀ t ∈ args ++ args', t.Built
  included : List.Forall₂ (fun a a' => a.subset a' = true) args args'
  not_subset : (f.apply args).subset (f.apply args') = false

section Escapes

variable {f : Function} {a b a' b' : Ty}

theorem Function.Escapes.unary (hf : f ∈ builtins) (ha : a.Built) (ha' : a'.Built)
    (h : a.subset a' = true) (hnot : (f.apply [a]).subset (f.apply [a']) = false) :
    f.Escapes [a] [a'] :=
  ⟨hf, by simp [ha, ha'], .cons h .nil, hnot⟩

theorem Function.Escapes.binary (hf : f ∈ builtins) (ha : a.Built) (hb : b.Built) (ha' : a'.Built)
    (hb' : b'.Built) (h : a.subset a' = true) (h' : b.subset b' = true)
    (hnot : (f.apply [a, b]).subset (f.apply [a', b']) = false) : f.Escapes [a, b] [a', b'] :=
  ⟨hf, by simp [ha, hb, ha', hb'], .cons h (.cons h' .nil), hnot⟩

end Escapes

theorem Ty.Built.union_pair {a b : Ty} (ha : a.Built) (hb : b.Built) : (Ty.union [a, b]).Built :=
  .union _ (List.forall_mem_cons.2 ⟨ha, List.forall_mem_singleton.2 hb⟩)

/-- Inclusion of the arguments alone does not keep the order. A range of integers that reals and
integers cover jointly has results between theirs. Large literals have an infinite sum or product,
which wider ranges lack. And beyond `2^53` steps by one pass integers, as they do in unions. -/
theorem Function.not_builtins_monotone :
    let add := binary "add" .number .add
    let multiply := binary "multiply" .number .multiply
    let toThree := Ty.integers .one (.ofNat 3)
    let parts := Ty.union [.interval .half .one, .integers (.ofNat 2) (.ofNat 3)]
    let large := Ty.literal (.ofNat (2 ^ 1023))
    let toLarge := Ty.integers .zero (.ofNat (2 ^ 1023))
    let v (n : ℕ) := Binary64.ofNat (2 ^ 53 + n)
    let near := Ty.integers (v 0) (v 10)
    let nearParts := Ty.union [.interval (v 0) (v 2), .integers (v 4) (v 10)]
    (unary "reciprocal" .number .reciprocal).Escapes [toThree] [parts] ∧
    add.Escapes [toThree, .literal .half] [parts, .literal .half] ∧
    (binary "subtract" .number .subtract).Escapes [toThree, .literal .half]
      [parts, .literal .half] ∧
    multiply.Escapes [toThree, .literal (.ofNat 3)] [parts, .literal (.ofNat 3)] ∧
    add.Escapes [large, large] [toLarge, toLarge] ∧
    multiply.Escapes [large, large] [toLarge, toLarge] ∧
    (unary "negate" .number .negate).Escapes [near] [nearParts] ∧
    (binary "min" .number .minimum).Escapes [.integers .zero (v 10), .literal (v 4)]
      [.integers .zero (v 10), .interval (v 2) (v 20)] ∧
    (binary "max" .number .maximum).Escapes [.integers .zero (v 6), .literal .zero]
      [.integers .zero (v 6), .union [.literal .zero, .interval (v 2) (v 12)]] ∧
    add.Escapes [.integers .zero (.ofNat (2 ^ 53 - 3)), .integers (.ofNat 4) (.ofNat 10)]
      [.union [.integers .zero (.ofNat (2 ^ 53 - 3)), .interval (.ofNat (2 ^ 53 - 2)) (v 0)],
        .integers (.ofNat 4) (.ofNat 10)] := by
  intro add multiply toThree parts large toLarge v near nearParts
  have hparts : parts.Built := .union_pair (.interval _ _) (.integers _ _)
  have hnear : nearParts.Built := .union_pair (.interval _ _) (.integers _ _)
  exact ⟨.unary (by simp [builtins]) (.integers _ _) hparts (by decide +kernel) (by decide +kernel),
    .binary (by simp [builtins, add]) (.integers _ _) (.literal _) hparts (.literal _)
      (by decide +kernel) (by decide +kernel) (by decide +kernel),
    .binary (by simp [builtins]) (.integers _ _) (.literal _) hparts (.literal _)
      (by decide +kernel) (by decide +kernel) (by decide +kernel),
    .binary (by simp [builtins, multiply]) (.integers _ _) (.literal _) hparts (.literal _)
      (by decide +kernel) (by decide +kernel) (by decide +kernel),
    .binary (by simp [builtins, add]) (.literal _) (.literal _) (.integers _ _) (.integers _ _)
      (by decide +kernel) (by decide +kernel) (by decide +kernel),
    .binary (by simp [builtins, multiply]) (.literal _) (.literal _) (.integers _ _) (.integers _ _)
      (by decide +kernel) (by decide +kernel) (by decide +kernel),
    .unary (by simp [builtins]) (.integers _ _) hnear (by decide +kernel) (by decide +kernel),
    .binary (by simp [builtins]) (.integers _ _) (.literal _) (.integers _ _) (.interval _ _)
      (by decide +kernel) (by decide +kernel) (by decide +kernel),
    .binary (by simp [builtins]) (.integers _ _) (.literal _) (.integers _ _)
      (.union_pair (.literal _) (.interval _ _)) (by decide +kernel) (by decide +kernel)
      (by decide +kernel),
    .binary (by simp [builtins, add]) (.integers _ _) (.integers _ _)
      (.union_pair (.integers _ _) (.interval _ _)) (.integers _ _)
      (by decide +kernel) (by decide +kernel) (by decide +kernel)⟩

end FlowTypes
