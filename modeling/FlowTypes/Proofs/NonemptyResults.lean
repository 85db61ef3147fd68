import FlowTypes.Proofs.ExactImages
import FlowTypes.Proofs.IntegerSums
import FlowTypes.Proofs.MonotoneProducts

/-!
# Results of arithmetic are hardly ever empty

A numeric function gives `never` if an argument has no number. If every argument has one, the result
is empty in one case only (`Function.apply_eq_never_iff`) : sums and products of integers that all
overflow to one infinity (`NumberSet.sumsOverflow`, `NumberSet.productsOverflow`). The range of
these results would begin with positive infinity or end with negative infinity, and a range of
integers holds no infinity (`NumberSet.hull_eq_none_iff`). Two literals, and ranges of reals, have
the infinity as their result.

For the other operations a member of the operand leads to a member of the result, whatever the
bounds.
-/

namespace FlowTypes

open ExtendedRat Binary64

namespace NumberSet

variable {a b n m : NumberSet} {ns ms : List NumberSet} {i : Bool}
  {x y lo hi lo' hi' l u : Binary64}

/-! ## Unions without sets -/

theorem HasSome.ne_nil (h : HasSome ns x) : ns ≠ [] := by
  rintro rfl
  obtain ⟨n, hn, -⟩ := h
  cases hn

/-- Well-formed sets have a number, so a union without numbers has no sets. -/
theorem eq_nil_iff (hns : AllWellFormed ns) : ns = [] ↔ ∀ x, ¬HasSome ns x := by
  refine ⟨fun h x hx => hx.ne_nil h, fun h => List.eq_nil_iff_forall_not_mem.2 fun n hn => ?_⟩
  obtain ⟨x, hx⟩ := exists_has (hns n hn)
  exact h x ⟨n, hn, hx⟩

theorem canonical_eq_nil (hns : AllWellFormed ns) : canonical ns = [] ↔ ns = [] := by
  rw [eq_nil_iff (allWellFormed_canonical hns), eq_nil_iff hns]
  exact forall_congr' fun x => not_congr (has_canonical hns x)

theorem image_eq_nil {f : NumberSet → List NumberSet} (hwf : ∀ n ∈ ns, AllWellFormed (f n))
    (hne : ∀ n ∈ ns, f n ≠ []) : image f ns = [] ↔ ns = [] := by
  rw [image, canonical_eq_nil (allWellFormed_flatMap hwf), List.flatMap_eq_nil_iff,
    List.eq_nil_iff_forall_not_mem]
  exact forall₂_congr fun n hn => iff_of_false (hne n hn) id

theorem image₂_eq_nil {f : NumberSet → NumberSet → List NumberSet}
    (hwf : ∀ n ∈ ns, ∀ m ∈ ms, AllWellFormed (f n m)) :
    image₂ f ns ms = [] ↔ ∀ n ∈ ns, ∀ m ∈ ms, f n m = [] := by
  rw [image₂, canonical_eq_nil (allWellFormed_flatMap fun n hn =>
    allWellFormed_flatMap fun m hm => hwf n hn m hm)]
  simp only [List.flatMap_eq_nil_iff]

/-! ## Operations on one union, and minima -/

theorem negate_eq_nil (hns : AllWellFormed ns) : negate ns = [] ↔ ns = [] :=
  image_eq_nil (fun n _ => allWellFormed_negateOne n) fun n hn =>
    (exists_has (hns n hn)).elim fun _ hx => (hasSome_negateOne hx).ne_nil

theorem round_eq_nil (hns : AllWellFormed ns) : round ns = [] ↔ ns = [] :=
  image_eq_nil (fun n hn => allWellFormed_roundOne (hns n hn)) fun n hn =>
    (exists_has (hns n hn)).elim fun _ hx => (hasSome_roundOne (hns n hn) hx).ne_nil

theorem reciprocal_eq_nil (hns : AllWellFormed ns) : reciprocal ns = [] ↔ ns = [] :=
  image_eq_nil (fun n _ => allWellFormed_reciprocalOne n) fun n hn =>
    (exists_has (hns n hn)).elim fun _ hx => (hasSome_reciprocalOne hx).ne_nil

theorem minimum_eq_nil (hns : AllWellFormed ns) (hms : AllWellFormed ms) :
    minimum ns ms = [] ↔ ns = [] ∨ ms = [] := by
  have hne : ∀ n ∈ ns, ∀ m ∈ ms, minimumOne n m ≠ [] := by
    intro n hn m hm
    obtain ⟨x, hx⟩ := exists_has (hns n hn)
    obtain ⟨y, hy⟩ := exists_has (hms m hm)
    exact (hasSome_minimumOne (hns n hn) (hms m hm) hx hy).ne_nil
  rw [minimum, image₂_eq_nil fun n hn m hm => allWellFormed_minimumOne (hns n hn) (hms m hm)]
  cases ns with
  | nil => simp
  | cons n ns =>
    cases ms with
    | nil => simp
    | cons m ms =>
      refine iff_of_false (fun h => ?_) (by simp)
      exact hne n List.mem_cons_self m List.mem_cons_self
        (h n List.mem_cons_self m List.mem_cons_self)

theorem maximum_eq_nil (hns : AllWellFormed ns) (hms : AllWellFormed ms) :
    maximum ns ms = [] ↔ ns = [] ∨ ms = [] := by
  have hns' := allWellFormed_negate ns
  have hms' := allWellFormed_negate ms
  rw [maximum, negate_eq_nil (allWellFormed_minimum hns' hms'), minimum_eq_nil hns' hms',
    negate_eq_nil hns, negate_eq_nil hms]

/-! ## Ranges between computed ends -/

/-- A range between ends in order is empty only if it is one of integers and lies at an infinity. -/
theorem hull_eq_none_iff (hle : l ≤ u) (hl : i = true → l.isWhole = true)
    (hu : i = true → u.isWhole = true) :
    hull i l u = none ↔ i = true ∧ (l = posInf ∨ u = negInf) := by
  cases i with
  | false =>
    have hne : interval? l u ≠ none := by
      rw [interval?, if_pos hle]
      split <;> simp
    simpa [hull] using hne
  | true =>
    have hl := hl rfl
    have hu := hu rfl
    simp only [hull, if_true, integers?, ceil_of_isWhole hl, floor_of_isWhole hu, if_pos hle,
      true_and]
    by_cases hback : u ≤ l
    · rw [if_pos hback]
      cases l with
      | nan => cases isNaN_of_isWhole hl
      | finite s m hm =>
        refine iff_of_false (by simp [isFinite]) ?_
        rintro (h | rfl)
        · cases h
        · cases eq_negInf_of_le hle
      | infinity s =>
        refine iff_of_true (by simp [isFinite]) ?_
        cases s with
        | false => exact Or.inl rfl
        | true => exact Or.inr (eq_negInf_of_le hback)
    · rw [if_neg hback]
      refine iff_of_false (Option.some_ne_none _) ?_
      rintro (rfl | rfl)
      · exact hback (eq_posInf_of_le hle ▸ hle)
      · exact hback (eq_negInf_of_le hle ▸ hle)

/-! ## Sums and products of integers that overflow -/

/-- Are the sets made of integers, and not both literals? Their sums and products are then ranges of
integers. -/
def giveIntegers (a b : NumberSet) : Bool :=
  a.isIntegral && b.isIntegral && (a.literal?.isNone || b.literal?.isNone)

/-- Do all sums of two sets of integers overflow to one infinity? -/
def sumsOverflow (a b : NumberSet) : Bool :=
  a.giveIntegers b &&
    match a.ends?, b.ends? with
    | some (lo, hi), some (lo', hi') => lo + lo' = .posInf || hi + hi' = .negInf
    | _, _ => false

/-- Do all products of two sets of integers with finite ends overflow to one infinity? -/
def productsOverflow (a b : NumberSet) : Bool :=
  a.giveIntegers b &&
    match a.ends?, b.ends? with
    | some (lo, hi), some (lo', hi') =>
      [lo, hi, lo', hi'].all (·.isFinite) &&
        (least (corners lo hi lo' hi') = .posInf || greatest (corners lo hi lo' hi') = .negInf)
    | _, _ => false

theorem giveIntegers_iff : a.giveIntegers b = true ↔
    (a.isIntegral && b.isIntegral) = true ∧ (a.literal? = none ∨ b.literal? = none) := by
  simp only [giveIntegers, Bool.and_eq_true, Bool.or_eq_true, Option.isNone_iff_eq_none]

theorem sumsOverflow_iff (ha : a.ends? = some (lo, hi)) (hb : b.ends? = some (lo', hi')) :
    a.sumsOverflow b = true ↔
      a.giveIntegers b = true ∧ (lo + lo' = posInf ∨ hi + hi' = negInf) := by
  simp only [sumsOverflow, ha, hb, Bool.and_eq_true, Bool.or_eq_true, decide_eq_true_eq]

theorem productsOverflow_iff (ha : a.HasFiniteEnds lo hi) (hb : b.HasFiniteEnds lo' hi') :
    a.productsOverflow b = true ↔ a.giveIntegers b = true ∧
      (least (corners lo hi lo' hi') = posInf ∨ greatest (corners lo hi lo' hi') = negInf) := by
  simp [productsOverflow, ha.ends, hb.ends, ha.lo_finite, ha.hi_finite, hb.lo_finite, hb.hi_finite]

/-- Sets of integers hold no infinity. -/
theorem not_has_infinity (hint : a.isIntegral = true) (s : Bool) : a.has (.infinity s) = false :=
  Bool.eq_false_iff.2 fun h => by cases isInteger_of_isIntegral hint h

theorem isWhole_add_of_number (hl : l.isWhole = true) (hu : u.isWhole = true)
    (h : (l + u).isNaN = false) : (l + u).isWhole = true := by
  cases l with
  | nan => cases h
  | infinity s => rw [infinity_add s h]; rfl
  | finite s m hm =>
    cases u with
    | nan => cases h
    | infinity t =>
      rw [Binary64.add_comm] at h ⊢
      rw [infinity_add t h]
      rfl
    | finite t k hk => exact isWhole_add (isInteger_of_isWhole hl rfl) (isInteger_of_isWhole hu rfl)

theorem addRanges_eq_nil {sum : Option NumberSet} (hsum : AllWellFormed sum.toList)
    (hmeet : meetInfinities a b = true → sum ≠ none) : addRanges a b sum = [] ↔ sum = none := by
  unfold addRanges
  split
  · next h =>
    rw [canonical_eq_nil (by simp [hsum])]
    exact iff_of_false (by simp) (hmeet h)
  · simp

/-- An infinite literal or NaN has a sum with every set. -/
theorem addOne_ne_nil_of_literal {v : Binary64} (hv : v.isFinite = false)
    (hb : b.wellFormed = true) : addOne (literal v) b ≠ [] := by
  obtain ⟨y, hy⟩ := exists_has hb
  refine (hasSome_addOne (wellFormed_literal v) hb (same_refl v) hy fun hover => ?_).ne_nil
  rw [hover.1] at hv
  cases hv

/-- Two sets with ends, not both literals, have no sum exactly if they are integers that all
overflow. -/
theorem addOne_eq_nil_of_hasEnds (ha : a.wellFormed = true) (hb : b.wellFormed = true)
    (hae : a.HasEnds lo hi) (hbe : b.HasEnds lo' hi')
    (hliteral : a.literal? = none ∨ b.literal? = none) :
    addOne a b = [] ↔ a.sumsOverflow b = true := by
  have hle : lo + lo' ≤ hi + hi' := Binary64.add_le_add (hae.lo_le_hi ha) (hbe.lo_le_hi hb)
    (hae.isNaN_add_lo hbe) (hae.isNaN_add_hi hbe)
  have hwhole : (a.isIntegral && b.isIntegral) = true →
      (lo + lo').isWhole = true ∧ (hi + hi').isWhole = true := by
    intro hint
    obtain ⟨hai, hbi⟩ := Bool.and_eq_true_iff.1 hint
    obtain ⟨hlo, hhi⟩ := isWhole_of_isIntegral ha hai hae
    obtain ⟨hlo', hhi'⟩ := isWhole_of_isIntegral hb hbi hbe
    exact ⟨isWhole_add_of_number hlo hlo' (hae.isNaN_add_lo hbe),
      isWhole_add_of_number hhi hhi' (hae.isNaN_add_hi hbe)⟩
  have hnone := hull_eq_none_iff hle (fun h => (hwhole h).1) fun h => (hwhole h).2
  rw [addOne_eq_addRanges hae hbe hliteral, addRanges_eq_nil (allWellFormed_hull _ _ _), hnone,
    sumsOverflow_iff hae.ends hbe.ends, giveIntegers_iff, and_iff_left hliteral]
  intro hmeet h
  have hai := (Bool.and_eq_true_iff.1 (hnone.1 h).1).1
  simp [meetInfinities, negInf, posInf, not_has_infinity hai] at hmeet

/-- Two sets have no sum exactly if they are sets of integers that all overflow. -/
theorem addOne_eq_nil (ha : a.wellFormed = true) (hb : b.wellFormed = true) :
    addOne a b = [] ↔ a.sumsOverflow b = true := by
  have hintegral : a.sumsOverflow b = true → a.isIntegral = true ∧ b.isIntegral = true := by
    intro h
    exact Bool.and_eq_true_iff.1 (giveIntegers_iff.1 (Bool.and_eq_true_iff.1 h).1).1
  have hne : ∀ {n : NumberSet}, n.isIntegral = true → n ≠ all := by
    rintro _ hn rfl
    cases hn
  have hfinite : ∀ {n : NumberSet}, n.isIntegral = true → n.IsFiniteOrRange := by
    rintro _ hn v rfl
    exact isFinite_of_isInteger hn
  by_cases hliteral : a.literal? = none ∨ b.literal? = none
  swap
  · obtain ⟨⟨v, rfl⟩, w, rfl⟩ := exists_literals_of_not hliteral
    exact iff_of_false (List.cons_ne_nil _ _) (by simp [sumsOverflow, giveIntegers, literal?])
  by_cases hfa : a.IsFiniteOrRange
  swap
  · obtain ⟨v, rfl, hv⟩ := exists_literal_of_not_isFiniteOrRange hfa
    exact iff_of_false (addOne_ne_nil_of_literal hv hb) fun h => hfa (hfinite (hintegral h).1)
  by_cases hfb : b.IsFiniteOrRange
  swap
  · obtain ⟨w, rfl, hw⟩ := exists_literal_of_not_isFiniteOrRange hfb
    rw [addOne_comm]
    exact iff_of_false (addOne_ne_nil_of_literal hw ha) fun h => hfb (hfinite (hintegral h).2)
  by_cases hall : a = all ∨ b = all
  · rw [addOne_eq_all hall hfa hfb]
    exact iff_of_false (List.cons_ne_nil _ _) fun h =>
      hall.elim (hne (hintegral h).1) (hne (hintegral h).2)
  · rw [not_or] at hall
    obtain ⟨lo, hi, hae⟩ := exists_hasEnds ha hall.1 hfa
    obtain ⟨lo', hi', hbe⟩ := exists_hasEnds hb hall.2 hfb
    exact addOne_eq_nil_of_hasEnds ha hb hae hbe hliteral

/-! ## Products -/

theorem isWhole_least {vs : List Binary64} (h : ∀ v ∈ vs, v.isWhole = true) :
    (least vs).isWhole = true := by
  refine List.foldlRecOn (motive := fun m : Binary64 => m.isWhole = true) vs _ rfl
    fun m hm v hv => ?_
  split
  exacts [h v hv, hm]

theorem isWhole_greatest {vs : List Binary64} (h : ∀ v ∈ vs, v.isWhole = true) :
    (greatest vs).isWhole = true := by
  refine List.foldlRecOn (motive := fun m : Binary64 => m.isWhole = true) vs _ rfl
    fun m hm v hv => ?_
  split
  exacts [h v hv, hm]

theorem isWhole_corners (hlo : lo.isInteger = true) (hhi : hi.isInteger = true)
    (hlo' : lo'.isInteger = true) (hhi' : hi'.isInteger = true) :
    ∀ v ∈ corners lo hi lo' hi', v.isWhole = true := by
  simp [corners, isWhole_mul, hlo, hhi, hlo', hhi']

theorem isInteger_of_hasFiniteEnds (hn : n.wellFormed = true) (hint : n.isIntegral = true)
    (h : n.HasFiniteEnds lo hi) : lo.isInteger = true ∧ hi.isInteger = true := by
  obtain ⟨hlo, hhi⟩ := isWhole_of_isIntegral hn hint h.hasEnds
  exact ⟨isInteger_of_isWhole hlo h.lo_finite, isInteger_of_isWhole hhi h.hi_finite⟩

/-- Two sets with finite ends, not both literals, have no product exactly if they are integers that
all overflow. -/
theorem multiplyOne_eq_nil_of_hasFiniteEnds (ha : a.wellFormed = true) (hb : b.wellFormed = true)
    (hae : a.HasFiniteEnds lo hi) (hbe : b.HasFiniteEnds lo' hi')
    (hliteral : a.literal? = none ∨ b.literal? = none) :
    multiplyOne a b = [] ↔ a.productsOverflow b = true := by
  have hnumber : ∀ v ∈ corners lo hi lo' hi', v.isNaN = false := by
    simp [corners, isNaN_mul, hae.lo_finite, hae.hi_finite, hbe.lo_finite, hbe.hi_finite]
  have hmem : lo * lo' ∈ corners lo hi lo' hi' := List.mem_cons_self
  have hleast := least_le hnumber hmem
  have hgreatest := le_greatest hnumber hmem
  rw [multiplyOne_eq_ends hliteral hae hbe, productsOverflow_iff hae hbe, giveIntegers_iff,
    and_iff_left hliteral]
  split
  · next hzero =>
    have hfinite : (lo * lo').isFinite = true := isFinite_of_same rfl <|
      zero_same_mul hae.lo_finite hbe.lo_finite (hae.has_lo ha) (hbe.has_lo hb) hzero
    refine iff_of_false (List.cons_ne_nil _ _) ?_
    rintro ⟨-, h | h⟩
    · rw [h] at hleast
      rw [eq_posInf_of_le hleast] at hfinite
      cases hfinite
    · rw [h] at hgreatest
      rw [eq_negInf_of_le hgreatest] at hfinite
      cases hfinite
  · have hwhole : (a.isIntegral && b.isIntegral) = true →
        ∀ v ∈ corners lo hi lo' hi', v.isWhole = true := by
      intro hint
      obtain ⟨hai, hbi⟩ := Bool.and_eq_true_iff.1 hint
      obtain ⟨hlo, hhi⟩ := isInteger_of_hasFiniteEnds ha hai hae
      obtain ⟨hlo', hhi'⟩ := isInteger_of_hasFiniteEnds hb hbi hbe
      exact isWhole_corners hlo hhi hlo' hhi'
    rw [multiplyEnds_eq, Option.toList_eq_nil_iff, hull_eq_none_iff
      (Binary64.le_trans hleast hgreatest) (fun h => isWhole_least (hwhole h))
      fun h => isWhole_greatest (hwhole h)]

theorem exists_hasFiniteEnds_of_productsOverflow (h : a.productsOverflow b = true) :
    (∃ lo hi, a.HasFiniteEnds lo hi) ∧ ∃ lo hi, b.HasFiniteEnds lo hi := by
  have hends := (Bool.and_eq_true_iff.1 h).2
  split at hends
  · next lo hi lo' hi' hae hbe =>
    simp only [List.all_cons, List.all_nil, Bool.and_true, Bool.and_eq_true] at hends
    obtain ⟨⟨hlo, hhi, hlo', hhi'⟩, -⟩ := hends
    exact ⟨⟨lo, hi, hae, hlo, hhi⟩, lo', hi', hbe, hlo', hhi'⟩
  · cases hends

/-- Two sets have no product exactly if they are sets of integers that all overflow. -/
theorem multiplyOne_eq_nil (ha : a.wellFormed = true) (hb : b.wellFormed = true) :
    multiplyOne a b = [] ↔ a.productsOverflow b = true := by
  by_cases hliteral : a.literal? = none ∨ b.literal? = none
  swap
  · obtain ⟨⟨v, rfl⟩, w, rfl⟩ := exists_literals_of_not hliteral
    exact iff_of_false (List.cons_ne_nil _ _) (by simp [productsOverflow, giveIntegers, literal?])
  by_cases hends : (∃ lo hi, a.HasFiniteEnds lo hi) ∧ ∃ lo hi, b.HasFiniteEnds lo hi
  · obtain ⟨⟨lo, hi, hae⟩, lo', hi', hbe⟩ := hends
    exact multiplyOne_eq_nil_of_hasFiniteEnds ha hb hae hbe hliteral
  · refine iff_of_false ?_ fun h => hends ?_
    · by_cases hnan : a = literal .nan ∨ b = literal .nan
      · rw [multiplyOne_eq hliteral, if_pos (by simpa using hnan)]
        exact List.cons_ne_nil _ _
      · rw [not_or] at hnan
        rw [multiplyOne_eq_all hliteral hnan.1 hnan.2 hends]
        exact List.cons_ne_nil _ _
    · exact exists_hasFiniteEnds_of_productsOverflow h

/-! ## Operations on two unions -/

theorem add_eq_nil (hns : AllWellFormed ns) (hms : AllWellFormed ms) :
    add ns ms = [] ↔ ∀ n ∈ ns, ∀ m ∈ ms, n.sumsOverflow m = true := by
  rw [add, image₂_eq_nil fun n _ m _ => allWellFormed_addOne n m]
  exact forall₂_congr fun n hn => forall₂_congr fun m hm => addOne_eq_nil (hns n hn) (hms m hm)

theorem multiply_eq_nil (hns : AllWellFormed ns) (hms : AllWellFormed ms) :
    multiply ns ms = [] ↔ ∀ n ∈ ns, ∀ m ∈ ms, n.productsOverflow m = true := by
  rw [multiply, image₂_eq_nil fun n _ m _ => allWellFormed_multiplyOne n m]
  exact forall₂_congr fun n hn => forall₂_congr fun m hm =>
    multiplyOne_eq_nil (hns n hn) (hms m hm)

end NumberSet

/-! ## Types -/

namespace Ty

variable {a b : Ty} {x y : Binary64} {ns : List NumberSet}

theorem ofNumbers_eq_never : ofNumbers ns = never ↔ ns = [] := by
  simp [ofNumbers, never]

theorem numbers_eq_nil (ha : NumberSet.AllWellFormed a.numbers) :
    a.numbers = [] ↔ ∀ x, a.has (.number x) = false := by
  rw [NumberSet.eq_nil_iff ha]
  exact forall_congr' fun x => by rw [hasSome_numbers, Bool.not_eq_true]

/-- Where a sum, difference or product of types with numbers is `never`, every sum, difference or
product of their numbers overflows. -/
theorem overflows_of_never (ha : NumberSet.AllWellFormed a.numbers)
    (hb : NumberSet.AllWellFormed b.numbers) (hx : a.has (.number x) = true)
    (hy : b.has (.number y) = true) :
    (a.add b = never → Overflows x y (x + y)) ∧ (a.subtract b = never → Overflows x y (x - y)) ∧
      (a.multiply b = never → Overflows x y (x * y)) := by
  rw [← hasSome_numbers] at hx hy
  refine ⟨fun h => ?_, fun h => ?_, fun h => ?_⟩ <;> by_contra hover
  · exact (NumberSet.hasSome_add ha hb hx hy hover).ne_nil (ofNumbers_eq_never.1 h)
  · exact (NumberSet.hasSome_subtract ha hx hy hover).ne_nil (ofNumbers_eq_never.1 h)
  · exact (NumberSet.hasSome_multiply hx hy hover).ne_nil (ofNumbers_eq_never.1 h)

end Ty

/-! ## Built-in functions -/

namespace Function

/-- Do all results of a built-in function for these arguments overflow, in ranges of integers? -/
def Overflows (f : Function) (args : List Ty) : Prop :=
  match f.name, args with
  | "add", [a, b] => ∀ n ∈ a.numbers, ∀ m ∈ b.numbers, n.sumsOverflow m = true
  | "subtract", [a, b] =>
    ∀ n ∈ a.numbers, ∀ m ∈ NumberSet.negate b.numbers, n.sumsOverflow m = true
  | "multiply", [a, b] => ∀ n ∈ a.numbers, ∀ m ∈ b.numbers, n.productsOverflow m = true
  | _, _ => False

section Arguments

variable {name : String} {param : Ty} {args : List Ty}
  (hargs : ∀ t ∈ args, NumberSet.AllWellFormed t.numbers)
include hargs

theorem unary_eq_never_iff {g : Ty → Ty} (hlength : args.length = 1)
    (hg : ∀ a : Ty, NumberSet.AllWellFormed a.numbers →
      (g a = .never ↔ a.numbers = [] ∨ (unary name param g).Overflows [a])) :
    (unary name param g).apply args = .never ↔
      (∃ t ∈ args, ∀ x, t.has (.number x) = false) ∨ (unary name param g).Overflows args := by
  obtain ⟨a, rfl⟩ := List.length_eq_one_iff.1 hlength
  have ha := hargs a List.mem_cons_self
  have h := hg a ha
  rw [Ty.numbers_eq_nil ha] at h
  simp only [List.mem_singleton, exists_eq_left]
  exact h

theorem binary_eq_never_iff {g : Ty → Ty → Ty} (hlength : args.length = 2)
    (hg : ∀ a b : Ty, NumberSet.AllWellFormed a.numbers → NumberSet.AllWellFormed b.numbers →
      (g a b = .never ↔
        (a.numbers = [] ∨ b.numbers = []) ∨ (binary name param g).Overflows [a, b])) :
    (binary name param g).apply args = .never ↔
      (∃ t ∈ args, ∀ x, t.has (.number x) = false) ∨ (binary name param g).Overflows args := by
  obtain ⟨a, b, rfl⟩ := List.length_eq_two.1 hlength
  have ha := hargs a List.mem_cons_self
  have hb := hargs b (List.mem_cons_of_mem _ List.mem_cons_self)
  have h := hg a b ha hb
  rw [Ty.numbers_eq_nil ha, Ty.numbers_eq_nil hb] at h
  simp only [List.mem_cons, List.not_mem_nil, or_false, exists_eq_or_imp, exists_eq_left]
  exact h

end Arguments

/-- A built-in function on numbers gives `never` if an argument has no number, and else only if all
results are integers that overflow. -/
theorem apply_eq_never_iff {f : Function} (hf : f ∈ builtins)
    (hparams : ∀ t ∈ f.params, t = .number) {args : List Ty}
    (hlength : args.length = f.params.length)
    (hargs : ∀ t ∈ args, ∀ n ∈ t.numbers, n.wellFormed = true) :
    f.apply args = .never ↔
      (∃ t ∈ args, ∀ x, t.has (.number x) = false) ∨ f.Overflows args := by
  -- Without numbers in one operand, all pairs overflow as there are none.
  have hpairs : ∀ {ns ms : List NumberSet} {p : NumberSet → NumberSet → Prop},
      (∀ n ∈ ns, ∀ m ∈ ms, p n m) ↔ (ns = [] ∨ ms = []) ∨ ∀ n ∈ ns, ∀ m ∈ ms, p n m := by
    intro ns ms p
    refine ⟨Or.inr, ?_⟩
    rintro ((rfl | rfl) | h)
    exacts [by simp, by simp, h]
  simp only [builtins, List.mem_cons, List.not_mem_nil, or_false] at hf
  rcases hf with rfl | rfl | rfl | rfl | rfl | rfl | rfl | rfl | rfl
  · exact binary_eq_never_iff hargs hlength fun a b ha hb =>
      (Ty.ofNumbers_eq_never.trans (NumberSet.add_eq_nil ha hb)).trans hpairs
  · refine binary_eq_never_iff hargs hlength fun a b ha hb => ?_
    rw [← NumberSet.negate_eq_nil hb]
    exact (Ty.ofNumbers_eq_never.trans
      (NumberSet.add_eq_nil ha (NumberSet.allWellFormed_negate _))).trans hpairs
  · exact binary_eq_never_iff hargs hlength fun a b ha hb =>
      (Ty.ofNumbers_eq_never.trans (NumberSet.minimum_eq_nil ha hb)).trans (or_false _).symm.to_iff
  · exact binary_eq_never_iff hargs hlength fun a b ha hb =>
      (Ty.ofNumbers_eq_never.trans (NumberSet.maximum_eq_nil ha hb)).trans (or_false _).symm.to_iff
  · exact binary_eq_never_iff hargs hlength fun a b ha hb =>
      (Ty.ofNumbers_eq_never.trans (NumberSet.multiply_eq_nil ha hb)).trans hpairs
  · exact unary_eq_never_iff hargs hlength fun a ha =>
      (Ty.ofNumbers_eq_never.trans (NumberSet.negate_eq_nil ha)).trans (or_false _).symm.to_iff
  · exact unary_eq_never_iff hargs hlength fun a ha =>
      (Ty.ofNumbers_eq_never.trans (NumberSet.round_eq_nil ha)).trans (or_false _).symm.to_iff
  · exact unary_eq_never_iff hargs hlength fun a ha =>
      (Ty.ofNumbers_eq_never.trans (NumberSet.reciprocal_eq_nil ha)).trans (or_false _).symm.to_iff
  · exact absurd (hparams .string List.mem_cons_self) nofun

/-- Large integers without an upper bound, and the same with one half : the sums of the large ones
overflow, but not those of the half. -/
theorem apply_eq_never_iff_half :
    let add := binary "add" .number .add
    let a := Ty.integers (.ofNat (10 ^ 308)) .posInf
    let b := Ty.union [a, .literal .half]
    add ∈ builtins ∧ add.apply [a, b] ≠ .never ∧ add.apply [a, .string] = .never ∧
      add.apply [a, a] = .never := by
  intro add a b
  have hadd : add ∈ builtins := List.mem_cons_self
  have hparams : ∀ t ∈ add.params, t = .number := by decide +kernel
  have ha : ∀ n ∈ a.numbers, n.wellFormed = true := by decide +kernel
  have hb : ∀ n ∈ b.numbers, n.wellFormed = true := by decide +kernel
  have hresult : ∀ {s t : Ty}, (∀ n ∈ s.numbers, n.wellFormed = true) →
      (∀ n ∈ t.numbers, n.wellFormed = true) → (add.apply [s, t] = .never ↔
        (∃ u ∈ [s, t], ∀ x, u.has (.number x) = false) ∨ add.Overflows [s, t]) := fun hs ht =>
    apply_eq_never_iff hadd hparams rfl
      (List.forall_mem_cons.2 ⟨hs, List.forall_mem_singleton.2 ht⟩)
  have hlarge : ∀ u ∈ [a, b], u.has (.number (.ofNat (10 ^ 308))) = true := by decide +kernel
  have hall : ∀ n ∈ a.numbers, ∀ m ∈ a.numbers, n.sumsOverflow m = true := by decide +kernel
  have hhalf : ¬∀ n ∈ a.numbers, ∀ m ∈ b.numbers, n.sumsOverflow m = true := by decide +kernel
  have hstring : ∀ n ∈ Ty.string.numbers, n.wellFormed = true := by decide +kernel
  refine ⟨hadd, fun h => ?_, (hresult ha hstring).2 (Or.inl ?_), (hresult ha ha).2 (Or.inr hall)⟩
  · rcases (hresult ha hb).1 h with ⟨u, hu, hnone⟩ | hover
    · exact Bool.false_ne_true ((hnone _).symm.trans (hlarge u hu))
    · exact hhalf hover
  · exact ⟨.string, by simp, (Ty.numbers_eq_nil hstring).1 (by decide +kernel)⟩

/-- Sums, differences and products of large numbers are `never`, where an operand is a range of
integers. Those of two literals are infinite. -/
theorem not_never_only_without_numbers :
    let v := Binary64.ofNat (10 ^ 308)
    let w := Binary64.ofNat (15 * 10 ^ 307)
    let add := binary "add" .number .add
    let subtract := binary "subtract" .number .subtract
    let multiply := binary "multiply" .number .multiply
    (add ∈ builtins ∧ subtract ∈ builtins ∧ multiply ∈ builtins) ∧
      ((Ty.literal v).has (.number v) = true ∧ (Ty.integers v w).has (.number v) = true ∧
        (Ty.integers (-w) (-v)).has (.number (-v)) = true) ∧
      add.apply [.literal v, .integers v w] = .never ∧
      subtract.apply [.literal v, .integers (-w) (-v)] = .never ∧
      multiply.apply [.integers v w, .integers v w] = .never ∧
      add.apply [.literal v, .literal v] = .literal .posInf := by
  intro v w add subtract multiply
  refine ⟨⟨?_, ?_, ?_⟩, ?_⟩
  · exact List.mem_cons_self
  · exact List.mem_cons_of_mem _ List.mem_cons_self
  · simp [builtins, multiply]
  · decide +kernel

end Function

end FlowTypes
