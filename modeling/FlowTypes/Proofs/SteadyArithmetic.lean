import FlowTypes.Proofs.SteadyNumbers
import FlowTypes.Proofs.WellFormedArithmetic

/-!
# Changes of sign and minima keep sets steady

The bounds of these results are bounds of the operands, rounded to integers or one step from there.
So if the bounds of the operands leave room for exact steps by one, those of the results do. Changes
of sign need no more room (`allSteady_negateOne`), minima one step more (`allSteady_minimumOne`).
-/

namespace FlowTypes.NumberSet

open Binary64

/-! ## Lists of steady sets -/

/-- Do all of the sets leave room for exact steps beyond the bound? -/
def AllSteady (bound : ℕ) (ns : List NumberSet) : Prop :=
  ∀ n ∈ ns, n.isSteadyTo bound = true

variable {bound : ℕ} {ns ms : List NumberSet} {n a b : NumberSet} {v lo hi lo' hi' : Binary64}

@[simp] theorem allSteady_nil : AllSteady bound [] :=
  List.forall_mem_nil _

@[simp] theorem allSteady_cons :
    AllSteady bound (n :: ns) ↔ n.isSteadyTo bound = true ∧ AllSteady bound ns :=
  List.forall_mem_cons

@[simp] theorem allSteady_append :
    AllSteady bound (ns ++ ms) ↔ AllSteady bound ns ∧ AllSteady bound ms :=
  List.forall_mem_append

@[simp] theorem allSteady_ite {c : Prop} [Decidable c] :
    AllSteady bound (if c then ns else ms) ↔
      (c → AllSteady bound ns) ∧ (¬c → AllSteady bound ms) := by
  split <;> simp [*]

theorem allSteady_interval? (hlo : lo.within bound = true) (hhi : hi.within bound = true) :
    AllSteady bound (interval? lo hi).toList :=
  fun _ hn => isSteadyTo_interval? hlo hhi (Option.mem_toList.1 hn)

theorem allSteady_integers? (hlo : lo.within (bound + 1) = true)
    (hhi : hi.within (bound + 1) = true) : AllSteady bound (integers? lo hi).toList :=
  fun _ hn => isSteadyTo_integers? hlo hhi (Option.mem_toList.1 hn)

theorem AllSteady.canonical (hbound : bound < 2 ^ 53) (hns : AllWellFormed ns)
    (h : AllSteady bound ns) : AllSteady bound (canonical ns) :=
  isSteadyTo_canonical hbound hns h

theorem AllSteady.flatMap {α : Type} {xs : List α} {f : α → List NumberSet}
    (h : ∀ x ∈ xs, AllSteady bound (f x)) : AllSteady bound (xs.flatMap f) := by
  intro n hn
  obtain ⟨x, hx, hn⟩ := List.mem_flatMap.1 hn
  exact h x hx n hn

/-! ## Changes of sign -/

theorem allSteady_negateOne (hn : n.isSteadyTo bound = true) : AllSteady bound (negateOne n) := by
  cases n with
  | all => simp [negateOne, isSteadyTo]
  | literal v => simpa [negateOne, isSteadyTo, within_neg] using hn
  | interval lo hi =>
    simp only [isSteadyTo, Bool.and_eq_true] at hn
    exact allSteady_interval? (by rw [within_neg, hn.2]) (by rw [within_neg, hn.1])
  | integers lo hi =>
    simp only [isSteadyTo, Bool.and_eq_true] at hn
    exact allSteady_integers? (by rw [within_neg, hn.2]) (by rw [within_neg, hn.1])

/-! ## Minima -/

/-- NaN and the numbers up to a bound. -/
theorem allSteady_upTo (hbound : bound < 2 ^ 53) (hv : v.within bound = true) :
    AllSteady bound (canonical (literal .nan :: (interval? .negInf v).toList)) :=
  AllSteady.canonical hbound (by simp)
    (allSteady_cons.2 ⟨rfl, allSteady_interval? rfl hv⟩)

theorem allSteady_minimumLiteral (hbound : bound + 1 < 2 ^ 53)
    (hv : v.within (bound + 1) = true) (hn : n.isSteadyTo bound = true) :
    AllSteady (bound + 1) (minimumLiteral v n) := by
  have hother : AllSteady (bound + 1) [n] :=
    List.forall_mem_singleton.2 (isSteadyTo_mono (Nat.le_succ bound) hn)
  have hliteral : AllSteady (bound + 1) [literal v] :=
    List.forall_mem_singleton.2 (within_mono (Nat.le_succ _) hv)
  unfold minimumLiteral
  split
  · exact List.forall_mem_singleton.2 rfl
  split
  · exact hother
  cases n with
  | all => exact allSteady_upTo hbound hv
  | literal w =>
    exact List.forall_mem_singleton.2 (within_mono (Nat.le_succ _) (within_minNumber hv hn))
  | interval lo hi =>
    simp only [isSteadyTo, Bool.and_eq_true] at hn
    dsimp only
    split_ifs
    exacts [hliteral, hother, allSteady_interval? (within_mono (Nat.le_succ _) hn.1) hv]
  | integers lo hi =>
    simp only [isSteadyTo, Bool.and_eq_true] at hn
    have hrange : ∀ {w : Binary64}, w.within (bound + 1) = true →
        AllSteady (bound + 1) (integers? lo w).toList := fun hw =>
      allSteady_integers? (within_mono (Nat.le_succ _) hn.1) (within_mono (Nat.le_succ _) hw)
    dsimp only
    split_ifs
    · exact hliteral
    · exact hother
    · exact hrange hv
    · exact .canonical hbound (by simp) (allSteady_append.2 ⟨hrange (within_floor hv), hliteral⟩)

theorem allSteady_minimumAll (hbound : bound + 1 < 2 ^ 53) (hn : n.isSteadyTo bound = true) :
    AllSteady (bound + 1) (minimumAll n) := by
  have hall : AllSteady (bound + 1) [all] := List.forall_mem_singleton.2 rfl
  unfold minimumAll
  cases n with
  | all => exact hall
  | literal v => exact hall
  | interval lo hi =>
    simp only [isSteadyTo, Bool.and_eq_true] at hn
    dsimp only [bounds?]
    split_ifs
    exacts [hall, allSteady_upTo hbound (within_mono (Nat.le_succ _) hn.2)]
  | integers lo hi =>
    simp only [isSteadyTo, Bool.and_eq_true] at hn
    dsimp only [bounds?]
    split_ifs
    exacts [hall, allSteady_upTo hbound hn.2]

theorem allSteady_minimumIntegers (h : (integers lo hi).isSteadyTo bound = true)
    (h' : (integers lo' hi').isSteadyTo bound = true) :
    AllSteady (bound + 1) (minimumIntegers lo hi lo' hi') := by
  simp only [isSteadyTo, Bool.and_eq_true] at h h'
  have hrange : ∀ {l u : Binary64}, l.within (bound + 1) = true → u.within (bound + 1) = true →
      AllSteady (bound + 1) (integers? l u).toList := fun hl hu =>
    allSteady_integers? (within_mono (Nat.le_succ _) hl) (within_mono (Nat.le_succ _) hu)
  unfold minimumIntegers
  split_ifs
  exacts [hrange h.1 h.2, hrange h'.1 h'.2,
    hrange (within_minNumber h.1 h'.1) (within_minNumber h.2 h'.2)]

/-- The last integer before a real range is at most one further than the bound of the range. -/
theorem within_last (hbound : bound < 2 ^ 53) (hlo : lo.within bound = true) :
    (if lo.isInteger then lo - .one else lo.floor).within (bound + 1) = true := by
  split_ifs with h
  · exact within_sub_one (isWhole_of_isInteger h) hlo hbound
  · exact within_mono (Nat.le_succ _) (within_floor hlo)

/-- The integers below a real range, and what the reals have up to the ends of both. -/
theorem allSteady_lastAndReals (hbound : bound + 1 < 2 ^ 53)
    (h : (integers lo hi).isSteadyTo bound = true)
    (h' : (interval lo' hi').isSteadyTo bound = true) :
    AllSteady (bound + 1)
      ((integers? lo (if lo'.isInteger then lo' - .one else lo'.floor)).toList
        ++ (interval? lo' (hi.minNumber hi')).toList) := by
  simp only [isSteadyTo, Bool.and_eq_true] at h h'
  have hmono : ∀ {k : ℕ} {w : Binary64}, w.within k = true → w.within (k + 1) = true :=
    within_mono (Nat.le_succ _)
  exact allSteady_append.2
    ⟨allSteady_integers? (hmono h.1) (hmono (within_last (by omega) h'.1)),
      allSteady_interval? (hmono h'.1) (within_minNumber h.2 (hmono h'.2))⟩

theorem allSteady_minimumMixed (hbound : bound + 1 < 2 ^ 53)
    (h : (integers lo hi).isSteadyTo bound = true)
    (h' : (interval lo' hi').isSteadyTo bound = true) :
    AllSteady (bound + 1) (minimumMixed lo hi lo' hi') := by
  have hparts := allSteady_lastAndReals hbound h h'
  simp only [isSteadyTo, Bool.and_eq_true] at h h'
  have hmono : ∀ {k : ℕ} {w : Binary64}, w.within k = true → w.within (k + 1) = true :=
    within_mono (Nat.le_succ _)
  unfold minimumMixed
  split
  · exact allSteady_integers? (hmono h.1) (hmono h.2)
  split
  · exact allSteady_interval? (hmono h'.1) (hmono h'.2)
  split
  · exact (allSteady_append.1 hparts).2
  · exact .canonical hbound (by simp) hparts

theorem allSteady_minimumOne (hbound : bound + 1 < 2 ^ 53) (ha : a.isSteadyTo bound = true)
    (hb : b.isSteadyTo bound = true) : AllSteady (bound + 1) (minimumOne a b) := by
  cases a with
  | literal v => exact allSteady_minimumLiteral hbound ha hb
  | all =>
    cases b with
    | literal w => exact allSteady_minimumLiteral hbound hb ha
    | _ => exact allSteady_minimumAll hbound hb
  | interval lo hi =>
    cases b with
    | literal w => exact allSteady_minimumLiteral hbound hb ha
    | all => exact allSteady_minimumAll hbound ha
    | integers lo' hi' => exact allSteady_minimumMixed hbound hb ha
    | interval lo' hi' =>
      simp only [isSteadyTo, Bool.and_eq_true] at ha hb
      exact allSteady_interval? (within_mono (Nat.le_succ _) (within_minNumber ha.1 hb.1))
        (within_mono (Nat.le_succ _) (within_minNumber ha.2 hb.2))
  | integers lo hi =>
    cases b with
    | literal w => exact allSteady_minimumLiteral hbound hb ha
    | all => exact allSteady_minimumAll hbound ha
    | integers lo' hi' => exact allSteady_minimumIntegers ha hb
    | interval lo' hi' => exact allSteady_minimumMixed hbound ha hb

end FlowTypes.NumberSet
