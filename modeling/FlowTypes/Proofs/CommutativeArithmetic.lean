import FlowTypes.Proofs.ExactImages
import FlowTypes.Proofs.MemberOrder
import FlowTypes.Proofs.MonotoneProducts
import Mathlib.Data.Multiset.Bind

/-!
# Sums and products commute

The results for all pairs of members are collected in another order if the operands change places,
and an operation on unions commutes if it does so on primitive sets (`NumberSet.image₂_comm`), since
canonical forms forget that order.

Sums of primitive sets are equal either way round (`NumberSet.addOne_comm`). The products of their
ends come in another order, and of two zeros the first counts as the least. So the ends of a product
may be zeros of different signs (`NumberSet.multiplyOne_comm`), which equality of types does not see
(`Ty.add_multiply_comm`).
-/

namespace FlowTypes

open Binary64

/-! ## The sign of zero -/

namespace Binary64

theorem unsignedZero_floor (v : Binary64) :
    v.unsignedZero.floor.unsignedZero = v.floor.unsignedZero := by
  rcases unsignedZero_cases v with h | ⟨s, hm, rfl⟩
  · rw [h]
  · have hzero : (finite s 0 hm).isWhole = true := by simp [isWhole]
    rw [floor_of_isWhole (by rwa [NumberSet.isWhole_unsignedZero]), floor_of_isWhole hzero,
      unsignedZero_unsignedZero]

theorem unsignedZero_ceil (v : Binary64) :
    v.unsignedZero.ceil.unsignedZero = v.ceil.unsignedZero := by
  rcases unsignedZero_cases v with h | ⟨s, hm, rfl⟩
  · rw [h]
  · have hzero : (finite s 0 hm).isWhole = true := by simp [isWhole]
    rw [ceil_of_isWhole (by rwa [NumberSet.isWhole_unsignedZero]), ceil_of_isWhole hzero,
      unsignedZero_unsignedZero]

end Binary64

namespace NumberSet

/-! ## Pairs of members -/

/-- The pairs of two lists, in another order. -/
theorem perm_flatMap_flatMap {α β γ : Type} (xs : List α) (ys : List β) (f : α → β → List γ) :
    (xs.flatMap fun x => ys.flatMap (f x)).Perm (ys.flatMap fun y => xs.flatMap (f · y)) := by
  rw [← Multiset.coe_eq_coe]
  simp only [← Multiset.coe_bind]
  exact Multiset.bind_bind _ _

/-- An operation that commutes on primitive sets, but for signs of zeros, commutes on unions. -/
theorem image₂_comm {f : NumberSet → NumberSet → List NumberSet}
    (hwf : ∀ a b, AllWellFormed (f a b)) (hf : ∀ a b, (f a b).map identity = (f b a).map identity)
    (xs ys : List NumberSet) :
    (image₂ f xs ys).map identity = (image₂ f ys xs).map identity := by
  refine canonical_of_perm (allWellFormed_flatMap fun x _ => allWellFormed_flatMap fun y _ =>
    hwf x y) ?_
  have hswap : (xs.flatMap fun x => ys.flatMap (f x)).map identity =
      xs.flatMap fun x => ys.flatMap fun y => (f y x).map identity := by
    simp only [List.map_flatMap, hf _ _]
  rw [hswap]
  simp only [List.map_flatMap]
  exact perm_flatMap_flatMap xs ys fun x y => (f y x).map identity

/-! ## Hulls -/

variable {lo hi lo' hi' : Binary64} {vs ws : List Binary64}

theorem map_identity_interval? (lo hi : Binary64) :
    (interval? lo hi).map identity = interval? lo.unsignedZero hi.unsignedZero := by
  simp only [interval?, le_unsignedZero, unsignedZero_le, unsignedZero_unsignedZero]
  split_ifs <;> rfl

theorem integers?_unsignedZero (lo hi : Binary64) :
    integers? lo.unsignedZero hi.unsignedZero = integers? lo hi := by
  have hceil := unsignedZero_ceil lo
  have hfloor := unsignedZero_floor hi
  have hle : lo.unsignedZero.ceil ≤ hi.unsignedZero.floor ↔ lo.ceil ≤ hi.floor := by
    rw [← unsignedZero_le, ← le_unsignedZero, hceil, hfloor, unsignedZero_le, le_unsignedZero]
  have hge : hi.unsignedZero.floor ≤ lo.unsignedZero.ceil ↔ hi.floor ≤ lo.ceil := by
    rw [← unsignedZero_le, ← le_unsignedZero, hceil, hfloor, unsignedZero_le, le_unsignedZero]
  have hfinite : lo.unsignedZero.ceil.isFinite = lo.ceil.isFinite := by
    rw [← isFinite_unsignedZero, hceil, isFinite_unsignedZero]
  simp only [integers?, hle, hge, hfinite, hceil, hfloor]

/-- The sets between bounds that are the same numbers are the same. -/
theorem map_identity_hull (integral : Bool) (hlo : lo.same lo' = true) (hhi : hi.same hi' = true) :
    (hull integral lo hi).map identity = (hull integral lo' hi').map identity := by
  unfold hull
  split
  · rw [← integers?_unsignedZero lo, same_iff.1 hlo, same_iff.1 hhi, integers?_unsignedZero]
  · rw [map_identity_interval?, map_identity_interval?, same_iff.1 hlo, same_iff.1 hhi]

/-! ## Products -/

theorem isNaN_least (hvs : ∀ v ∈ vs, v.isNaN = false) : (least vs).isNaN = false := by
  refine List.foldlRecOn (motive := fun m : Binary64 => m.isNaN = false) vs _ rfl
    fun m hm v hv => ?_
  split
  exacts [hvs v hv, hm]

theorem isNaN_greatest (hvs : ∀ v ∈ vs, v.isNaN = false) : (greatest vs).isNaN = false := by
  refine List.foldlRecOn (motive := fun m : Binary64 => m.isNaN = false) vs _ rfl
    fun m hm v hv => ?_
  split
  exacts [hvs v hv, hm]

/-- The least of some numbers is the same number in any order of them. -/
theorem same_least_of_perm (hvs : ∀ v ∈ vs, v.isNaN = false) (h : vs.Perm ws) :
    (least vs).same (least ws) = true := by
  have hws : ∀ w ∈ ws, w.isNaN = false := fun w hw => hvs w (h.mem_iff.2 hw)
  exact same_of_le (le_least (isNaN_least hvs) fun w hw => least_le hvs (h.mem_iff.2 hw))
    (le_least (isNaN_least hws) fun v hv => least_le hws (h.mem_iff.1 hv))

theorem same_greatest_of_perm (hvs : ∀ v ∈ vs, v.isNaN = false) (h : vs.Perm ws) :
    (greatest vs).same (greatest ws) = true := by
  have hws : ∀ w ∈ ws, w.isNaN = false := fun w hw => hvs w (h.mem_iff.2 hw)
  exact same_of_le (greatest_le (isNaN_greatest hws) fun v hv => le_greatest hws (h.mem_iff.1 hv))
    (greatest_le (isNaN_greatest hvs) fun w hw => le_greatest hvs (h.mem_iff.2 hw))

/-- The products of the ends, in another order. -/
theorem perm_corners (lo hi lo' hi' : Binary64) :
    (corners lo hi lo' hi').Perm (corners lo' hi' lo hi) := by
  rw [corners, corners, mul_comm lo' lo, mul_comm lo' hi, mul_comm hi' lo, mul_comm hi' hi]
  exact ((List.Perm.swap _ _ _).cons _)

theorem multiplyEnds_comm (a b : NumberSet) (hlo : lo.isFinite = true) (hhi : hi.isFinite = true)
    (hlo' : lo'.isFinite = true) (hhi' : hi'.isFinite = true) :
    (multiplyEnds a b lo hi lo' hi').map identity =
      (multiplyEnds b a lo' hi' lo hi).map identity := by
  have hnumbers : ∀ v ∈ corners lo hi lo' hi', v.isNaN = false := by
    simp [corners, isNaN_mul, *]
  have hperm := perm_corners lo hi lo' hi'
  rw [multiplyEnds_eq, multiplyEnds_eq, Bool.and_comm, ← Option.toList_map, ← Option.toList_map,
    map_identity_hull _ (same_least_of_perm hnumbers hperm) (same_greatest_of_perm hnumbers hperm)]

/-- The product of two primitive sets, but for the sign of a zero. -/
theorem multiplyOne_comm (a b : NumberSet) :
    (multiplyOne a b).map identity = (multiplyOne b a).map identity := by
  by_cases hliteral : a.literal? = none ∨ b.literal? = none
  · rw [multiplyOne_eq hliteral, multiplyOne_eq hliteral.symm]
    simp only [Bool.or_comm (decide (b = _)), Bool.or_comm b.isZero]
    split
    · rfl
    cases a.ends? with
    | none => cases b.ends? <;> rfl
    | some e =>
      cases b.ends? with
      | none => rfl
      | some e' =>
        have hfinite : [e'.1, e'.2, e.1, e.2].all (·.isFinite) =
            [e.1, e.2, e'.1, e'.2].all (·.isFinite) :=
          (show [e'.1, e'.2, e.1, e.2].Perm [e.1, e.2, e'.1, e'.2] from
            @List.perm_append_comm _ [e'.1, e'.2] [e.1, e.2]).all_eq
        simp only [hfinite]
        split
        · next hall =>
          simp only [List.all_cons, List.all_nil, Bool.and_true, Bool.and_eq_true] at hall
          obtain ⟨hlo, hhi, hlo', hhi'⟩ := hall
          split
          · rfl
          · exact multiplyEnds_comm a b hlo hhi hlo' hhi'
        · rfl
  · simp only [not_or] at hliteral
    cases a <;> cases b <;> simp [literal?, multiplyOne, mul_comm] at hliteral ⊢

end NumberSet

/-- Addition and multiplication of types commute. -/
theorem Ty.add_multiply_comm (a b : Ty) :
    (a.add b).same (b.add a) = true ∧ (a.multiply b).same (b.multiply a) = true :=
  ⟨same_ofNumbers (NumberSet.image₂_comm NumberSet.allWellFormed_addOne
      (fun x y => by rw [NumberSet.addOne_comm]) _ _),
    same_ofNumbers (NumberSet.image₂_comm NumberSet.allWellFormed_multiplyOne
      NumberSet.multiplyOne_comm _ _)⟩

end FlowTypes
