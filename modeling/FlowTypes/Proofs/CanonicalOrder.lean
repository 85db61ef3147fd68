import FlowTypes.Binary64.Bits
import FlowTypes.Proofs.ArithmeticOrder
import FlowTypes.Proofs.NormalTypes

/-!
# The canonical orders are total

Doubles are listed in the order of `Binary64.compare`, which compares ranks, and sets of numbers in
that of `NumberSet.compare`. Both are total, and only what is equal compares equal (the instances of
`Std.TransCmp` and `Std.LawfulEqCmp`). So every list has one ascending arrangement, which sorting
finds (`StableSort.sort_eq_iff`).

`Binary64.compareStaged` tells the order of doubles without ranks, in stages : zeros by their signs,
finite numbers by their words, and the rest by its kind. It is the same order
(`Binary64.compare_eq_compareStaged`). Words grow with magnitudes, since a number with more bits
dropped has the greater word whatever its significand is (`Binary64.magnitudeBits_lt_iff`); of two
negative numbers, the one with the greater word is less.
-/

namespace FlowTypes

open Binary64

namespace Binary64

variable {m n : ℕ} {v w : Binary64}

/-! ## Words of magnitudes -/

theorem magnitudeBits_lt_magnitudeBits (hn : Short n) (h : m < n) :
    magnitudeBits m < magnitudeBits n := by
  simp only [magnitudeBits]
  have hdropped : m.log2 - 52 ≤ n.log2 - 52 := Nat.sub_le_sub_right (log2_le_log2 h.le) 52
  obtain ⟨q, hq⟩ := Nat.dvd_of_mod_eq_zero hn
  rcases Nat.lt_or_eq_of_le hdropped with hlt | heq
  · -- A significand reaches from `2^52` to `2^53`, where bits are dropped.
    have hm : m / 2 ^ (m.log2 - 52) < 2 ^ 53 := by
      rw [Nat.div_lt_iff_lt_mul (Nat.two_pow_pos _), ← Nat.pow_add]
      exact Nat.lt_log2_self.trans_le (Nat.pow_le_pow_right (by decide) (by omega))
    have hn : 2 ^ 52 ≤ n / 2 ^ (n.log2 - 52) := by
      rw [Nat.le_div_iff_mul_le (Nat.two_pow_pos _), ← Nat.pow_add]
      exact (Nat.pow_le_pow_right (by decide) (by omega)).trans (Nat.log2_self_le (by omega))
    omega
  · have hm : m / 2 ^ (n.log2 - 52) < q := by
      rw [Nat.div_lt_iff_lt_mul (Nat.two_pow_pos _), Nat.mul_comm, ← hq]
      exact h
    have hn : n / 2 ^ (n.log2 - 52) = q := Nat.div_eq_of_eq_mul_right (Nat.two_pow_pos _) hq
    rw [heq, hn]
    omega

/-- Words are ordered as magnitudes are. -/
theorem magnitudeBits_lt_iff (hm : Short m) (hn : Short n) :
    magnitudeBits m < magnitudeBits n ↔ m < n := by
  refine ⟨fun h => ?_, magnitudeBits_lt_magnitudeBits hn⟩
  by_contra hle
  rcases Nat.lt_or_eq_of_le (Nat.le_of_not_lt hle) with hlt | rfl
  · exact absurd (magnitudeBits_lt_magnitudeBits hm hlt) (Nat.lt_asymm h)
  · exact absurd h (Nat.lt_irrefl _)

/-- No word of a magnitude reaches the sign bit. -/
theorem magnitudeBits_lt_two_pow (hm : Representable m) : magnitudeBits m < 2 ^ 63 := by
  have hshort : Short maxMagnitude := by decide +kernel
  have hmax : magnitudeBits maxMagnitude < 2 ^ 63 := by decide +kernel
  have hle : ¬magnitudeBits maxMagnitude < magnitudeBits m := by
    rw [magnitudeBits_lt_iff hshort hm.1]
    exact Nat.not_lt.2 hm.2
  omega

/-! ## The order in stages -/

/-- The word as a signed integer, those of negative doubles in reverse. -/
def signedWord (v : Binary64) : ℤ :=
  if v.bits < 2 ^ 63 then v.bits else 2 ^ 63 - 1 - v.bits

/-- The canonical order in stages : zeros by their signs, finite numbers by their words, and after
them what is not finite, NaN last. -/
def compareStaged (v w : Binary64) : Ordering :=
  if v.same zero && w.same zero then Ord.compare (!v.isNegative) (!w.isNegative)
  else if v.isFinite && w.isFinite then Ord.compare v.signedWord w.signedWord
  else if v.same w then .eq
  else if v.isFinite then .lt
  else if w.isFinite then .gt
  else if v.isNaN then .gt
  else if w.isNaN then .lt
  else Ord.compare v.signedWord w.signedWord

theorem signedWord_finite (s : Bool) (hm : Representable m) :
    (finite s m hm).signedWord = if s then -1 - (magnitudeBits m : ℤ) else magnitudeBits m := by
  have hlt := magnitudeBits_lt_two_pow hm
  cases s with
  | false =>
    simp only [signedWord, bits, bits.signBit, Bool.false_eq_true, if_false, Nat.zero_add]
    rw [if_pos hlt]
  | true =>
    simp only [signedWord, bits, bits.signBit, if_true]
    rw [if_neg (by omega)]
    omega

/-- The signed words of finite numbers are ordered as their ranks are. -/
theorem signedWord_lt_iff (hv : v.isFinite = true) (hw : w.isFinite = true) :
    v.signedWord < w.signedWord ↔ v.rank < w.rank := by
  cases v with
  | finite s m hm =>
    cases w with
    | finite t n hn =>
      have hmn := magnitudeBits_lt_iff hm.1 hn.1
      have hnm := magnitudeBits_lt_iff hn.1 hm.1
      rw [signedWord_finite, signedWord_finite, rank, rank]
      cases s <;> cases t <;> simp only [if_true, if_false, Bool.false_eq_true] <;> split <;>
        split <;> omega
    | _ => cases hw
  | _ => cases hv

/-- A finite number comes before whatever is not finite. -/
theorem rank_lt_of_isFinite (hv : v.isFinite = true) (hw : w.isFinite = false) :
    v.rank < w.rank := by
  cases v with
  | finite s m hm =>
    have hbound : m < infinityPosition := hm.2.trans_lt maxMagnitude_lt_infinityPosition
    cases w with
    | finite t n hn => cases hw
    | infinity t =>
      cases s <;> cases t <;> simp only [rank, if_true, if_false, Bool.false_eq_true] <;>
        split <;> omega
    | nan =>
      cases s <;> simp only [rank, if_true, if_false, Bool.false_eq_true] <;> split <;> omega
  | _ => cases hv

theorem rank_of_same_zero (h : v.same zero = true) : v.rank = if v.isNegative then -1 else 0 := by
  rcases same_cases h with rfl | ⟨⟨s, hs, rfl⟩, -⟩
  · rfl
  · cases s <;> rfl

theorem same_comm (v w : Binary64) : v.same w = w.same v := by
  rw [Bool.eq_iff_iff, same_iff, same_iff, eq_comm]

/-- No finite number is one with what is not finite. -/
theorem not_same_of_isFinite (hv : v.isFinite = true) (hw : w.isFinite = false) :
    v.same w = false := by
  by_contra h
  exact Bool.false_ne_true (hw.symm.trans (isFinite_of_same hv (Bool.of_not_eq_false h)))

/-- Comparisons of integers agree where less and greater do. -/
theorem compare_eq_compare {a b c d : ℤ} (hlt : a < b ↔ c < d) (hgt : b < a ↔ d < c) :
    Ord.compare a b = Ord.compare c d := by
  cases h : Ord.compare c d with
  | lt => exact compare_lt_iff_lt.2 (hlt.2 (compare_lt_iff_lt.1 h))
  | gt => exact compare_gt_iff_gt.2 (hgt.2 (compare_gt_iff_gt.1 h))
  | eq =>
    have heq := compare_eq_iff_eq.1 h
    exact compare_eq_iff_eq.2 (by omega)

/-- The order of ranks is the order in stages. -/
theorem compare_eq_compareStaged (v w : Binary64) : v.compare w = v.compareStaged w := by
  unfold compareStaged
  cases hv : v.isFinite with
  | true =>
    cases hw : w.isFinite with
    | true =>
      split
      · next hzero =>
        rw [Bool.and_eq_true] at hzero
        rw [compare, rank_of_same_zero hzero.1, rank_of_same_zero hzero.2]
        cases v.isNegative <;> cases w.isNegative <;> rfl
      · exact compare_eq_compare (signedWord_lt_iff hv hw).symm (signedWord_lt_iff hw hv).symm
    | false =>
      have hzero : w.same zero = false := by rw [same_comm, not_same_of_isFinite rfl hw]
      simp only [hzero, not_same_of_isFinite hv hw, Bool.and_false, Bool.false_eq_true, if_false,
        if_true]
      exact compare_lt_iff_lt.2 (rank_lt_of_isFinite hv hw)
  | false =>
    have hzero : v.same zero = false := by rw [same_comm, not_same_of_isFinite rfl hv]
    cases hw : w.isFinite with
    | true =>
      have hsame : v.same w = false := by rw [same_comm, not_same_of_isFinite hw hv]
      simp only [hzero, hsame, Bool.false_and, Bool.false_eq_true, if_false, if_true]
      exact compare_gt_iff_gt.2 (rank_lt_of_isFinite hw hv)
    | false =>
      cases v with
      | finite s m hm => cases hv
      | infinity s =>
        cases w with
        | finite t n hn => cases hw
        | infinity t => cases s <;> cases t <;> decide +kernel
        | nan => cases s <;> decide +kernel
      | nan =>
        cases w with
        | finite t n hn => cases hw
        | infinity t => cases t <;> decide +kernel
        | nan => decide +kernel

/-! ## Doubles in order -/

instance : Std.TransCmp Binary64.compare :=
  inferInstanceAs (Std.TransCmp (compareOn rank))

instance : Std.LawfulEqCmp Binary64.compare where
  eq_of_compare h := rank_injective (compare_eq_iff_eq.1 h)

/-- One number of each kind, in the order in which they are listed. -/
example : [-one, -zero, zero, one, negInf, posInf, nan].Pairwise fun v w => v.compare w = .lt := by
  decide +kernel

/-- Doubles are equal if both are NaN, or if they are one number with one sign. -/
theorem eq_iff_isNegative : v = w ↔
    v.isNaN = true ∧ w.isNaN = true ∨ v ≤ w ∧ w ≤ v ∧ v.isNegative = w.isNegative := by
  constructor
  · rintro rfl
    cases hv : v.isNaN with
    | true => exact Or.inl ⟨rfl, rfl⟩
    | false => exact Or.inr ⟨Binary64.le_refl hv, Binary64.le_refl hv, rfl⟩
  · rintro (⟨hv, hw⟩ | ⟨hle, hle', hsign⟩)
    · rw [eq_nan_of_isNaN hv, eq_nan_of_isNaN hw]
    · obtain ⟨hv, hw, hpos⟩ := le_iff.1 hle
      have hsame := same_of_position hv hw (le_antisymm hpos (le_iff.1 hle').2.2)
      rcases same_cases hsame with rfl | ⟨⟨s, hs, rfl⟩, t, ht, rfl⟩
      · rfl
      · obtain rfl : s = t := hsign
        rfl

end Binary64

/-! ## Sets of numbers in order -/

namespace NumberSet

instance : Std.TransCmp NumberSet.compare where
  eq_swap {a b} := by
    rw [compare, compare, Ordering.swap_then, Ordering.swap_then, ← Std.OrientedCmp.eq_swap,
      ← Std.OrientedCmp.eq_swap, ← Std.OrientedOrd.eq_swap]
  isLE_trans {a b c} hab hbc := by
    rw [← StableSort.bne_gt_eq_isLE] at hab hbc ⊢
    exact compare_trans a b c hab hbc

instance : Std.LawfulEqCmp NumberSet.compare where
  eq_of_compare := eq_of_compare_eq

end NumberSet

/-! ## Both orders -/

/-- Is a comparison total, and fit for sorting? Every list has one ascending arrangement by it, the
sorted list. -/
structure TotalComparison {α : Type} (cmp : α → α → Ordering) : Prop where
  refl : ∀ a, cmp a a = .eq
  swap : ∀ a b, cmp b a = (cmp a b).swap
  trans : ∀ a b c, (cmp a b).isLE = true → (cmp b c).isLE = true → (cmp a c).isLE = true
  sorts : ∀ xs ys, StableSort.sort (fun a b => cmp a b != .gt) xs = ys ↔
    ys.Perm xs ∧ ys.Pairwise fun a b => (cmp a b).isLE = true

theorem totalComparison {α : Type} (cmp : α → α → Ordering) [Std.TransCmp cmp]
    [Std.LawfulEqCmp cmp] : TotalComparison cmp where
  refl _ := Std.ReflCmp.compare_self
  swap _ _ := Std.OrientedCmp.eq_swap
  trans _ _ _ := Std.TransCmp.isLE_trans
  sorts _ _ := StableSort.sort_eq_iff

/-- The canonical orders are total. That of doubles is the order in stages, and there only NaN and
NaN compare equal, or a number and the same number with the same sign. In that of sets of numbers,
well-formed or not, only equal sets do. -/
theorem canonical_orders_total :
    TotalComparison Binary64.compare ∧
      (∀ v w : Binary64, v.compare w = v.compareStaged w ∧ (v.compare w = .eq ↔
        v.isNaN = true ∧ w.isNaN = true ∨ v ≤ w ∧ w ≤ v ∧ v.isNegative = w.isNegative)) ∧
      TotalComparison NumberSet.compare ∧
      ∀ a b : NumberSet, a.compare b = .eq → a = b ∧ a.same b = true := by
  refine ⟨totalComparison _, fun v w => ⟨compare_eq_compareStaged v w, ?_⟩, totalComparison _,
    fun a b h => ?_⟩
  · rw [← eq_iff_isNegative]
    exact Std.LawfulEqCmp.compare_eq_iff_eq
  · obtain rfl := NumberSet.eq_of_compare_eq h
    exact ⟨rfl, decide_eq_true rfl⟩

end FlowTypes
