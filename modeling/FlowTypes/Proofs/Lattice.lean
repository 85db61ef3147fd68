import FlowTypes.Proofs.TypeUniqueness

/-!
# Types form a distributive lattice

For regular types with steady sets of numbers, equality of types is equality of their samples
(`Ty.same_iff_admits`), unions are unions of samples and meets their intersections. So the laws of
sets are laws of types (`Ty.distributive_lattice`), and inclusion is the order that belongs to
them. Types that are built with bounds of at most 52 bits are such types (`Ty.Built.steady`).
-/

namespace FlowTypes

open NumberSet (isSteady)

namespace Ty

/-- Two regular types are equal exactly if they admit the same samples. -/
theorem same_iff_admits {a b : Ty} (ha : a.Regular isSteady) (hb : b.Regular isSteady) :
    a.same b = true ↔ ∀ v : Sample, a.Admits v ↔ b.Admits v := by
  rw [same, decide_eq_true_eq]
  refine ⟨fun h v => ?_, identity_eq_of_admits a b ha hb⟩
  rw [← admits_identity a, h, admits_identity b]

theorem Built.steady {t : Ty} (h : t.Built) (hsmall : t.isSmall = true) : t.Regular isSteady :=
  h.regular.of_isSmall hsmall

section Laws

variable {a b c : Ty}

theorem steady_union (ha : a.Regular isSteady) (hb : b.Regular isSteady) :
    (union [a, b]).Regular isSteady :=
  regular_union NumberSet.kept_isSteady (by simpa using ⟨ha, hb⟩)

theorem steady_intersect (ha : a.Regular isSteady) (hb : b.Regular isSteady) :
    (a.intersect b).Regular isSteady :=
  regular_meet NumberSet.kept_isSteady .left a b ha hb

theorem admits_union_pair (ha : a.Regular isSteady) (hb : b.Regular isSteady) (v : Sample) :
    (union [a, b]).Admits v ↔ a.Admits v ∨ b.Admits v := by
  rw [admits_union (by simpa using ⟨ha, hb⟩)]
  simp

theorem admits_intersect (ha : a.Regular isSteady) (hb : b.Regular isSteady) (v : Sample) :
    (a.intersect b).Admits v ↔ a.Admits v ∧ b.Admits v :=
  admits_meet .left a b ha hb v

theorem same_union_comm (ha : a.Regular isSteady) (hb : b.Regular isSteady) :
    (union [a, b]).same (union [b, a]) = true := by
  rw [same_iff_admits (steady_union ha hb) (steady_union hb ha)]
  intro v
  rw [admits_union_pair ha hb, admits_union_pair hb ha, or_comm]

theorem same_union_assoc (ha : a.Regular isSteady) (hb : b.Regular isSteady)
    (hc : c.Regular isSteady) :
    (union [union [a, b], c]).same (union [a, union [b, c]]) = true := by
  have hab := steady_union ha hb
  have hbc := steady_union hb hc
  rw [same_iff_admits (steady_union hab hc) (steady_union ha hbc)]
  intro v
  rw [admits_union_pair hab hc, admits_union_pair ha hb, admits_union_pair ha hbc,
    admits_union_pair hb hc, or_assoc]

theorem same_intersect_comm (ha : a.Regular isSteady) (hb : b.Regular isSteady) :
    (a.intersect b).same (b.intersect a) = true := by
  rw [same_iff_admits (steady_intersect ha hb) (steady_intersect hb ha)]
  intro v
  rw [admits_intersect ha hb, admits_intersect hb ha, and_comm]

theorem same_intersect_assoc (ha : a.Regular isSteady) (hb : b.Regular isSteady)
    (hc : c.Regular isSteady) :
    ((a.intersect b).intersect c).same (a.intersect (b.intersect c)) = true := by
  have hab := steady_intersect ha hb
  have hbc := steady_intersect hb hc
  rw [same_iff_admits (steady_intersect hab hc) (steady_intersect ha hbc)]
  intro v
  rw [admits_intersect hab hc, admits_intersect ha hb, admits_intersect ha hbc,
    admits_intersect hb hc, and_assoc]

theorem same_union_intersect (ha : a.Regular isSteady) (hb : b.Regular isSteady) :
    (union [a, a.intersect b]).same a = true := by
  have hab := steady_intersect ha hb
  rw [same_iff_admits (steady_union ha hab) ha]
  intro v
  rw [admits_union_pair ha hab, admits_intersect ha hb]
  exact or_iff_left_of_imp And.left

theorem same_intersect_union (ha : a.Regular isSteady) (hb : b.Regular isSteady) :
    (a.intersect (union [a, b])).same a = true := by
  have hab := steady_union ha hb
  rw [same_iff_admits (steady_intersect ha hab) ha]
  intro v
  rw [admits_intersect ha hab, admits_union_pair ha hb]
  exact and_iff_left_of_imp Or.inl

theorem same_intersect_distrib (ha : a.Regular isSteady) (hb : b.Regular isSteady)
    (hc : c.Regular isSteady) :
    ((union [a, b]).intersect c).same (union [a.intersect c, b.intersect c]) = true := by
  have hab := steady_union ha hb
  have hac := steady_intersect ha hc
  have hbc := steady_intersect hb hc
  rw [same_iff_admits (steady_intersect hab hc) (steady_union hac hbc)]
  intro v
  rw [admits_intersect hab hc, admits_union_pair ha hb, admits_union_pair hac hbc,
    admits_intersect ha hc, admits_intersect hb hc, or_and_right]

theorem subset_iff_same_union (ha : a.Regular isSteady) (hb : b.Regular isSteady) :
    a.subset b = true ↔ (union [a, b]).same b = true := by
  rw [subset_iff_admits ha hb, same_iff_admits (steady_union ha hb) hb]
  refine forall_congr' fun v => ?_
  rw [admits_union_pair ha hb, or_iff_right_iff_imp]

theorem subset_iff_same_intersect (ha : a.Regular isSteady) (hb : b.Regular isSteady) :
    a.subset b = true ↔ (a.intersect b).same a = true := by
  rw [subset_iff_admits ha hb, same_iff_admits (steady_intersect ha hb) ha]
  refine forall_congr' fun v => ?_
  rw [admits_intersect ha hb, and_iff_left_iff_imp]

end Laws

/-- The types that are built with bounds and literals of at most 52 bits form a distributive
lattice under union and intersection, and inclusion is its order. -/
theorem distributive_lattice {a b c : Ty} (ha : a.Built) (hb : b.Built) (hc : c.Built)
    (ha' : a.isSmall = true) (hb' : b.isSmall = true) (hc' : c.isSmall = true) :
    (union [a, b]).same (union [b, a]) = true ∧
      (union [union [a, b], c]).same (union [a, union [b, c]]) = true ∧
      (a.intersect b).same (b.intersect a) = true ∧
      ((a.intersect b).intersect c).same (a.intersect (b.intersect c)) = true ∧
      (union [a, a.intersect b]).same a = true ∧
      (a.intersect (union [a, b])).same a = true ∧
      ((union [a, b]).intersect c).same (union [a.intersect c, b.intersect c]) = true ∧
      (a.subset b = true ↔ (union [a, b]).same b = true) ∧
      (a.subset b = true ↔ (a.intersect b).same a = true) := by
  have ha := ha.steady ha'
  have hb := hb.steady hb'
  have hc := hc.steady hc'
  exact ⟨same_union_comm ha hb, same_union_assoc ha hb hc, same_intersect_comm ha hb,
    same_intersect_assoc ha hb hc, same_union_intersect ha hb, same_intersect_union ha hb,
    same_intersect_distrib ha hb hc, subset_iff_same_union ha hb, subset_iff_same_intersect ha hb⟩

/-- Points with an integer coordinate, the numbers from zero to one, and both together. -/
theorem distributive_lattice_points :
    let a := record "point" [("x", int)]
    let b := interval .zero .one
    let c := union [record "point" [("x", b)], literal .half]
    ((union [a, b]).intersect c).same (union [a.intersect c, b.intersect c]) = true ∧
      (a.subset c = true ↔ (union [a, c]).same c = true) := by
  intro a b c
  have ha : a.Built :=
    .record _ _ (by decide +kernel) (by decide +kernel) (List.forall_mem_singleton.2 .int)
  have hb : b.Built := .interval _ _
  have hpoint : (record "point" [("x", b)]).Built :=
    .record _ _ (by decide +kernel) (by decide +kernel) (List.forall_mem_singleton.2 hb)
  have hc : c.Built :=
    .union _ (List.forall_mem_cons.2 ⟨hpoint, List.forall_mem_singleton.2 (.literal _)⟩)
  have ha' : a.isSmall = true := by decide +kernel
  have hb' : b.isSmall = true := by decide +kernel
  have hc' : c.isSmall = true := by decide +kernel
  obtain ⟨-, -, -, -, -, -, hdistrib, -, -⟩ := distributive_lattice ha hb hc ha' hb' hc'
  obtain ⟨-, -, -, -, -, -, -, hsubset, -⟩ := distributive_lattice ha hc hb ha' hc' hb'
  exact ⟨hdistrib, hsubset⟩

end Ty

end FlowTypes
