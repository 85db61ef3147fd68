import FlowTypes.NumberSet.Arithmetic
import FlowTypes.Proofs.NumberUnion

/-!
# Arithmetic keeps sets of numbers well-formed

Ranges are built by `interval?` and `integers?` only, which refuse bounds that are no range : NaN,
bounds in descending order, and infinities that hold no integer. So what the operations return is
well-formed whatever the bounds that they compute, overflow included (`allWellFormed_flatMap` lifts
this to unions).
-/

namespace FlowTypes.NumberSet

/-! ## Lists of well-formed sets -/

/-- Are all of the sets well-formed? -/
def AllWellFormed (ns : List NumberSet) : Prop :=
  ∀ n ∈ ns, n.wellFormed = true

variable {ns ms : List NumberSet} {n : NumberSet}

@[simp] theorem allWellFormed_nil : AllWellFormed [] :=
  List.forall_mem_nil _

@[simp] theorem allWellFormed_cons :
    AllWellFormed (n :: ns) ↔ n.wellFormed = true ∧ AllWellFormed ns :=
  List.forall_mem_cons

@[simp] theorem allWellFormed_append :
    AllWellFormed (ns ++ ms) ↔ AllWellFormed ns ∧ AllWellFormed ms :=
  List.forall_mem_append

@[simp] theorem allWellFormed_ite {c : Prop} [Decidable c] :
    AllWellFormed (if c then ns else ms) ↔ (c → AllWellFormed ns) ∧ (¬c → AllWellFormed ms) := by
  split <;> simp [*]

@[simp] theorem allWellFormed_interval? (lo hi : Binary64) :
    AllWellFormed (interval? lo hi).toList :=
  fun _ hn => wellFormed_interval? (Option.mem_toList.1 hn)

@[simp] theorem allWellFormed_integers? (lo hi : Binary64) :
    AllWellFormed (integers? lo hi).toList :=
  fun _ hn => wellFormed_of_mem_integers? (Option.mem_toList.1 hn)

@[simp] theorem allWellFormed_canonical (h : AllWellFormed ns) : AllWellFormed (canonical ns) :=
  fun _ hn => wellFormed_of_mem_canonical h hn

@[simp] theorem wellFormed_all : all.wellFormed = true :=
  rfl

@[simp] theorem wellFormed_literal (v : Binary64) : (literal v).wellFormed = true :=
  rfl

@[simp] theorem wellFormed_everyInteger : everyInteger.wellFormed = true := by
  decide +kernel

/-! ## Operations on primitive sets -/

variable {a b : NumberSet}

theorem allWellFormed_negateOne (n : NumberSet) : AllWellFormed (negateOne n) := by
  cases n <;> simp [negateOne]

theorem allWellFormed_roundOne (hn : n.wellFormed = true) : AllWellFormed (roundOne n) := by
  cases n <;> simp [roundOne, hn]

theorem allWellFormed_addLiteral (v : Binary64) (other : NumberSet) :
    AllWellFormed (addLiteral v other) := by
  cases v <;> cases other <;> simp [addLiteral]

theorem allWellFormed_addRanges {sum : Option NumberSet} (h : AllWellFormed sum.toList) :
    AllWellFormed (addRanges a b sum) := by
  simp [addRanges, h]

theorem allWellFormed_addOne (a b : NumberSet) : AllWellFormed (addOne a b) := by
  cases a <;> cases b <;> simp [addOne, allWellFormed_addLiteral, allWellFormed_addRanges]

theorem allWellFormed_reciprocalBetween (lo hi gap : Binary64) :
    AllWellFormed (reciprocalBetween lo hi gap) := by
  simp [reciprocalBetween]

theorem allWellFormed_reciprocalOne (n : NumberSet) : AllWellFormed (reciprocalOne n) := by
  cases n <;> simp [reciprocalOne, allWellFormed_reciprocalBetween]

theorem allWellFormed_minimumLiteral (v : Binary64) (hn : n.wellFormed = true) :
    AllWellFormed (minimumLiteral v n) := by
  cases n <;> simp [minimumLiteral, hn]

theorem allWellFormed_minimumAll (n : NumberSet) : AllWellFormed (minimumAll n) := by
  cases n <;> simp [minimumAll, bounds?]

theorem allWellFormed_minimumIntegers (lo hi lo' hi' : Binary64) :
    AllWellFormed (minimumIntegers lo hi lo' hi') := by
  simp [minimumIntegers]

theorem allWellFormed_minimumMixed (lo hi lo' hi' : Binary64) :
    AllWellFormed (minimumMixed lo hi lo' hi') := by
  simp [minimumMixed]

theorem allWellFormed_minimumOne (ha : a.wellFormed = true) (hb : b.wellFormed = true) :
    AllWellFormed (minimumOne a b) := by
  cases a <;> cases b <;> simp [minimumOne, allWellFormed_minimumLiteral,
    allWellFormed_minimumAll, allWellFormed_minimumIntegers, allWellFormed_minimumMixed, ha, hb]

theorem allWellFormed_multiplyEnds (a b : NumberSet) (lo hi lo' hi' : Binary64) :
    AllWellFormed (multiplyEnds a b lo hi lo' hi') := by
  simp [multiplyEnds]

theorem allWellFormed_multiplyOne (a b : NumberSet) : AllWellFormed (multiplyOne a b) := by
  cases a <;> cases b <;> simp [multiplyOne, ends?, bounds?, allWellFormed_multiplyEnds]

/-! ## Operations on unions -/

theorem allWellFormed_flatMap {α : Type} {xs : List α} {f : α → List NumberSet}
    (hf : ∀ x ∈ xs, AllWellFormed (f x)) : AllWellFormed (xs.flatMap f) := by
  intro n hn
  obtain ⟨x, hx, hn⟩ := List.mem_flatMap.1 hn
  exact hf x hx n hn

theorem allWellFormed_image {f : NumberSet → List NumberSet}
    (hf : ∀ n ∈ ns, AllWellFormed (f n)) : AllWellFormed (image f ns) :=
  allWellFormed_canonical (allWellFormed_flatMap hf)

end FlowTypes.NumberSet
