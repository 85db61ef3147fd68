import FlowTypes.Proofs.FirmPoints
import FlowTypes.Proofs.InclusionOrder
import FlowTypes.Proofs.Lattice

/-!
# Difference and inclusion agree

Nothing is left of a type without another exactly if it is included in it
(`Ty.without_eq_never_iff`), and nothing is left of a union without both its operands
(`Ty.without_operands`), for types whose bounds have at most 52 bits.

The difference is a fold that removes one shape after the other, and what is left is brought into
canonical form each time. It keeps all samples of the left type that the right one does not admit
(`Ty.admits_foldl_withoutShape`), so if nothing is left, inclusion holds, since it is complete for
samples. The other way, what is left of the numbers would hold a point firmly, and that point would
be one of the left type and of no removed set (`Ty.firm_foldl_withoutShape`). A text or a record
that is left was there before, and no removed shape covers it (`Ty.mem_foldl_withoutShape`).
-/

namespace FlowTypes

open NumberSet (isSteady Firm)

/-! ## Shapes -/

namespace Shape

theorem allSmall_iff {ss : List Shape} : allSmall ss = true ↔ ∀ s ∈ ss, s.isSmall = true := by
  induction ss with
  | nil => simp [allSmall]
  | cons s ss ih => simp [allSmall, ih]

variable {a b s : Shape}

/-- Shapes other than two sets of numbers are removed as wholes. -/
theorem without_eq_ite (h : a.number? = none ∨ b.number? = none) :
    a.without b = if a.subset b then [] else [a] := by
  unfold without
  split
  · rcases h with h | h <;> cases h
  · rfl

/-- Two shapes are two sets of numbers, or one of them is none. -/
theorem numbers_or (a b : Shape) :
    (∃ m n, a = number m ∧ b = number n) ∨ a.number? = none ∨ b.number? = none := by
  cases a <;> cases b <;> simp [number?]

/-- Texts and records are left as they were, and only if they are not covered. -/
theorem mem_without_of_not_number (hs : s.number? = none) (h : s ∈ a.without b) :
    s = a ∧ s.subset b = false := by
  rcases numbers_or a b with ⟨m, n, rfl, rfl⟩ | hab
  · obtain ⟨k, -, rfl⟩ := List.mem_map.1 h
    cases hs
  · rw [without_eq_ite hab] at h
    split at h
    · cases h
    · next hsub =>
      obtain rfl := List.mem_singleton.1 h
      exact ⟨rfl, Bool.eq_false_iff.2 hsub⟩

/-- Texts and records of a canonical form are among its shapes. -/
theorem mem_of_mem_canonical {items : List Shape} (hs : s.number? = none)
    (h : s ∈ canonical items) : s ∈ items := by
  rcases mem_canonical.1 h with ⟨n, -, rfl⟩ | ⟨t, ht, rfl⟩ | hrecord
  · cases hs
  · refine mem_filterMap_text?.1 ?_
    by_cases hall : TextSet.all ∈ items.filterMap text?
    · rw [TextSet.canonical_of_mem hall] at ht
      rwa [List.mem_singleton.1 ht]
    · rw [TextSet.canonical_of_notMem hall] at ht
      obtain ⟨x, hx, rfl⟩ := List.mem_map.1 ht
      have hx := StableSort.mem_sort.1 ((StableSort.dropRepeats_sublist _).mem hx)
      obtain ⟨u, hu, hux⟩ := List.mem_filterMap.1 hx
      cases u <;> cases hux
      exact hu
  · exact List.mem_of_mem_filter (mem_of_mem_canonicalRecords hrecord)

theorem leaves_numbers {m n : NumberSet} (ha : (number m).Regular isSteady)
    (hb : (number n).Regular isSteady) (hsmall : (number n).isSmall = true)
    {cuts : List (Option ExtendedRat)} (hcuts : ∀ e ∈ n.ends, e ∈ cuts) :
    NumberSet.Leaves cuts (m.without n) m n :=
  NumberSet.leaves_without (regular_number.1 ha).1 (regular_number.1 ha).2 (regular_number.1 hb).1
    (by simpa only [isSmall] using hsmall) hcuts

variable (ha : a.Regular isSteady) (hb : b.Regular isSteady) (hsmall : b.isSmall = true)

include ha hb hsmall

theorem steady_of_mem_without (hs : s ∈ a.without b) : s.Regular isSteady := by
  rcases numbers_or a b with ⟨m, n, rfl, rfl⟩ | hab
  · obtain ⟨k, hk, rfl⟩ := List.mem_map.1 hs
    have hleaves := leaves_numbers ha hb hsmall fun _ => id
    exact regular_number.2 ⟨hleaves.wellFormed k hk, hleaves.steady k hk⟩
  · rw [without_eq_ite hab] at hs
    split at hs
    · cases hs
    · rwa [List.mem_singleton.1 hs]

/-- The difference of two shapes keeps the samples of the left one that the right one does not
admit. -/
theorem exists_admits_without {v : Sample} (hv : a.Admits v) (hbv : ¬b.Admits v) :
    ∃ s ∈ a.without b, s.Admits v := by
  rcases numbers_or a b with ⟨m, n, rfl, rfl⟩ | hab
  · obtain ⟨p, rfl, hp⟩ := admits_number.1 hv
    have hleaves := leaves_numbers ha hb hsmall fun _ => id
    obtain ⟨k, hk, hkp⟩ := hleaves.keeps p hp fun h => hbv (admits_number.2 ⟨p, rfl, h⟩)
    exact ⟨number k, List.mem_map_of_mem hk, admits_number.2 ⟨p, rfl, hkp⟩⟩
  · rw [without_eq_ite hab]
    split
    · next hsub => exact absurd (admits_of_subset a b ha hb hsub v hv) hbv
    · exact ⟨a, List.mem_singleton_self a, hv⟩

/-- What is left of the numbers of a shape holds firmly only points that are not removed. -/
theorem firm_of_mem_without {cuts : List (Option ExtendedRat)}
    (hcuts : ∀ k, b = number k → ∀ e ∈ k.ends, e ∈ cuts) {n : NumberSet}
    (hn : number n ∈ a.without b) {p : Option ExtendedRat} (hp : n.Firm cuts p) :
    (∃ m, a = number m ∧ m.Firm cuts p) ∧ ∀ k, b = number k → ¬k.Denotes p := by
  rcases numbers_or a b with ⟨m, k, rfl, rfl⟩ | hab
  · obtain ⟨l, hl, he⟩ := List.mem_map.1 hn
    obtain rfl := Shape.number.inj he
    obtain ⟨hm, hnot⟩ := (leaves_numbers ha hb hsmall (hcuts k rfl)).firm p ⟨l, hl, hp⟩
    exact ⟨⟨m, rfl, hm⟩, fun k' he => Shape.number.inj he ▸ hnot⟩
  · rw [without_eq_ite hab] at hn
    split at hn
    · cases hn
    · obtain rfl := List.mem_singleton.1 hn
      refine ⟨⟨n, rfl, hp⟩, fun k he => ?_⟩
      rcases hab with h | h
      · cases h
      · rw [he] at h
        cases h

end Shape

/-! ## Removing one shape after the other -/

namespace Ty

variable {b : Shape}

/-- Texts and records that are left were there before, and are not covered. -/
theorem mem_withoutShape {t : Ty} {s : Shape} (hs : s.number? = none)
    (h : s ∈ (t.withoutShape b).shapes) : s ∈ t.shapes ∧ s.subset b = false := by
  cases t with
  | any => cases h
  | oneOf xs =>
    have hmem : s ∈ xs.flatMap (·.without b) := by
      rcases withoutShape_oneOf xs b with he | he <;> rw [he] at h
      · exact h
      · exact Shape.mem_of_mem_canonical hs h
    obtain ⟨x, hx, hsx⟩ := List.mem_flatMap.1 hmem
    obtain ⟨rfl, hsub⟩ := Shape.mem_without_of_not_number hs hsx
    exact ⟨hx, hsub⟩

theorem steady_of_mem_flatMap_without {xs : List Shape} (hxs : ∀ x ∈ xs, x.Regular isSteady)
    (hb : b.Regular isSteady) (hsmall : b.isSmall = true) :
    ∀ s ∈ xs.flatMap (·.without b), s.Regular isSteady := by
  intro s hs
  obtain ⟨x, hx, hs⟩ := List.mem_flatMap.1 hs
  exact Shape.steady_of_mem_without (hxs x hx) hb hsmall hs

section Steady

variable {t : Ty} (ht : ∀ s ∈ t.shapes, s.Regular isSteady) (hb : b.Regular isSteady)
  (hsmall : b.isSmall = true)

include ht hb hsmall

theorem steady_withoutShape : ∀ s ∈ (t.withoutShape b).shapes, s.Regular isSteady := by
  cases t with
  | any => exact ht
  | oneOf xs =>
    have hrest := steady_of_mem_flatMap_without ht hb hsmall
    rcases withoutShape_oneOf xs b with he | he <;> rw [he]
    · exact hrest
    · exact fun s => Shape.regular_of_mem_canonical NumberSet.kept_isSteady hrest

theorem admits_withoutShape {v : Sample} (hv : t.Admits v) (hbv : ¬b.Admits v) :
    (t.withoutShape b).Admits v := by
  cases t with
  | any => exact hv
  | oneOf xs =>
    obtain ⟨x, hx, hxv⟩ := admits_oneOf.1 hv
    obtain ⟨s, hs, hsv⟩ := Shape.exists_admits_without (ht x hx) hb hsmall hxv hbv
    have hmem : ∃ s ∈ xs.flatMap (·.without b), s.Admits v :=
      ⟨s, List.mem_flatMap.2 ⟨x, hx, hs⟩, hsv⟩
    have hrest := steady_of_mem_flatMap_without ht hb hsmall
    rcases withoutShape_oneOf xs b with he | he <;> rw [he, admits_oneOf]
    · exact hmem
    · exact (Shape.admits_canonical hrest v).2 hmem

/-- What is left holds firmly only points of numbers that were there before, and none that is
removed. -/
theorem firm_withoutShape {cuts : List (Option ExtendedRat)}
    (hcuts : ∀ k, b = .number k → ∀ e ∈ k.ends, e ∈ cuts) {p : Option ExtendedRat}
    (h : ∃ n, .number n ∈ (t.withoutShape b).shapes ∧ n.Firm cuts p) :
    (∃ m, .number m ∈ t.shapes ∧ m.Firm cuts p) ∧ ∀ k, b = .number k → ¬k.Denotes p := by
  cases t with
  | any =>
    obtain ⟨n, hn, -⟩ := h
    cases hn
  | oneOf xs =>
    have hrest := steady_of_mem_flatMap_without ht hb hsmall
    have hmem : ∃ n, Shape.number n ∈ xs.flatMap (·.without b) ∧ n.Firm cuts p := by
      rcases withoutShape_oneOf xs b with he | he <;> rw [he] at h
      · exact h
      · have hnumbers := Shape.regular_of_mem_numbers hrest
        obtain ⟨n, hn, hp⟩ := h
        obtain ⟨m, hm, hp⟩ := NumberSet.exists_firm_of_canonical (fun n hn => (hnumbers n hn).1)
          (fun n hn => (hnumbers n hn).2) ⟨n, Shape.number_mem_canonical.1 hn, hp⟩
        exact ⟨m, mem_filterMap_number?.1 hm, hp⟩
    obtain ⟨n, hn, hp⟩ := hmem
    obtain ⟨x, hx, hn⟩ := List.mem_flatMap.1 hn
    obtain ⟨⟨m, rfl, hm⟩, hnot⟩ := Shape.firm_of_mem_without (ht x hx) hb hsmall hcuts hn hp
    exact ⟨⟨m, hx, hm⟩, hnot⟩

end Steady

/-! ## Removing a union -/

theorem mem_foldl_withoutShape {s : Shape} (hs : s.number? = none) : ∀ (ys : List Shape) {t : Ty},
    s ∈ (ys.foldl withoutShape t).shapes → s ∈ t.shapes ∧ ∀ y ∈ ys, s.subset y = false
  | [], _, h => ⟨h, by simp⟩
  | y :: ys, t, h => by
    obtain ⟨h, hys⟩ := mem_foldl_withoutShape hs ys h
    obtain ⟨h, hy⟩ := mem_withoutShape hs h
    exact ⟨h, List.forall_mem_cons.2 ⟨hy, hys⟩⟩

theorem steady_foldl_withoutShape {ys : List Shape} {t : Ty}
    (ht : ∀ s ∈ t.shapes, s.Regular isSteady)
    (hys : ∀ y ∈ ys, y.Regular isSteady ∧ y.isSmall = true) :
    ∀ s ∈ (ys.foldl withoutShape t).shapes, s.Regular isSteady :=
  List.foldlRecOn (motive := fun t => ∀ s ∈ t.shapes, s.Regular isSteady) ys withoutShape ht
    fun _ ht y hy => steady_withoutShape ht (hys y hy).1 (hys y hy).2

theorem admits_foldl_withoutShape {v : Sample} : ∀ (ys : List Shape) {t : Ty},
    (∀ s ∈ t.shapes, s.Regular isSteady) →
      (∀ y ∈ ys, y.Regular isSteady ∧ y.isSmall = true) → t.Admits v → (∀ y ∈ ys, ¬y.Admits v) →
        (ys.foldl withoutShape t).Admits v
  | [], _, _, _, hv, _ => hv
  | y :: ys, t, ht, hys, hv, hnot => by
    obtain ⟨⟨hy, hsmall⟩, hys⟩ := List.forall_mem_cons.1 hys
    obtain ⟨hnoty, hnot⟩ := List.forall_mem_cons.1 hnot
    exact admits_foldl_withoutShape ys (steady_withoutShape ht hy hsmall) hys
      (admits_withoutShape ht hy hsmall hv hnoty) hnot

theorem firm_foldl_withoutShape {cuts : List (Option ExtendedRat)} {p : Option ExtendedRat} :
    ∀ (ys : List Shape) {t : Ty}, (∀ s ∈ t.shapes, s.Regular isSteady) →
      (∀ y ∈ ys, y.Regular isSteady ∧ y.isSmall = true) →
        (∀ k, .number k ∈ ys → ∀ e ∈ k.ends, e ∈ cuts) →
          (∃ n, .number n ∈ (ys.foldl withoutShape t).shapes ∧ n.Firm cuts p) →
            (∃ m, .number m ∈ t.shapes ∧ m.Firm cuts p) ∧ ∀ k, .number k ∈ ys → ¬k.Denotes p
  | [], _, _, _, _, h => ⟨h, by simp⟩
  | y :: ys, t, ht, hys, hcuts, h => by
    obtain ⟨⟨hy, hsmall⟩, hys⟩ := List.forall_mem_cons.1 hys
    obtain ⟨h, hnot⟩ := firm_foldl_withoutShape ys (steady_withoutShape ht hy hsmall) hys
      (fun k hk => hcuts k (List.mem_cons_of_mem _ hk)) h
    obtain ⟨h, hnoty⟩ := firm_withoutShape ht hy hsmall
      (fun k he => hcuts k (he ▸ List.mem_cons_self)) h
    refine ⟨h, fun k hk => ?_⟩
    rcases List.mem_cons.1 hk with rfl | hk
    · exact hnoty k rfl
    · exact hnot k hk

theorem exists_foldl_withoutShape_oneOf : ∀ ys xs : List Shape,
    ∃ ss, ys.foldl withoutShape (oneOf xs) = oneOf ss
  | [], xs => ⟨xs, rfl⟩
  | y :: ys, xs => by
    rcases withoutShape_oneOf xs y with he | he <;> rw [List.foldl_cons, he] <;>
      exact exists_foldl_withoutShape_oneOf ys _

theorem foldl_withoutShape_any (ys : List Shape) : ys.foldl withoutShape any = any := by
  induction ys with
  | nil => rfl
  | cons y ys ih => exact ih

/-- Nothing is left if what is removed has all points of the numbers, and covers all else. -/
theorem foldl_withoutShape_eq_never {xs ys : List Shape} (hxs : ∀ x ∈ xs, x.Regular isSteady)
    (hys : ∀ y ∈ ys, y.Regular isSteady ∧ y.isSmall = true)
    (hnumbers : ∀ p, (∃ n, .number n ∈ xs ∧ n.Denotes p) → ∃ k, .number k ∈ ys ∧ k.Denotes p)
    (hothers : ∀ x ∈ xs, x.number? = none → ∃ y ∈ ys, x.subset y = true) :
    ys.foldl withoutShape (oneOf xs) = never := by
  obtain ⟨ss, hss⟩ := exists_foldl_withoutShape_oneOf ys xs
  have hmem : ∀ {s}, s ∈ ss → s ∈ (ys.foldl withoutShape (oneOf xs)).shapes := fun hs => by
    rw [hss]
    exact hs
  rw [hss, never]
  congr 1
  refine List.eq_nil_iff_forall_not_mem.2 fun s hs => ?_
  cases hn : s.number? with
  | none =>
    obtain ⟨hsx, hnot⟩ := mem_foldl_withoutShape hn ys (hmem hs)
    obtain ⟨y, hy, hsub⟩ := hothers s hsx hn
    rw [hnot y hy] at hsub
    cases hsub
  | some n =>
    obtain rfl : s = .number n := by cases s <;> cases hn; rfl
    -- The number set that is left holds a point firmly, which no set of the right side has.
    let cuts := (ys.filterMap Shape.number?).flatMap NumberSet.ends
    have hcuts : ∀ k, .number k ∈ ys → ∀ e ∈ k.ends, e ∈ cuts := fun k hk e he =>
      List.mem_flatMap.2 ⟨k, mem_filterMap_number?.2 hk, he⟩
    have hwf : n.wellFormed = true := (Shape.regular_number.1
      (steady_foldl_withoutShape (t := oneOf xs) hxs hys _ (hmem hs))).1
    obtain ⟨p, hp⟩ := NumberSet.exists_firm cuts hwf
    obtain ⟨⟨m, hm, hmp⟩, hnot⟩ :=
      firm_foldl_withoutShape ys (t := oneOf xs) hxs hys hcuts ⟨n, hmem hs, hp⟩
    obtain ⟨k, hk, hkp⟩ := hnumbers p ⟨m, hm, hmp.1⟩
    exact hnot k hk hkp

/-! ## Types with bounds of at most 52 bits -/

theorem Built.steady_shapes {t : Ty} (h : t.Built) (hsmall : t.isSmall = true) :
    ∀ s ∈ t.shapes, s.Regular isSteady ∧ s.isSmall = true := by
  cases t with
  | any => simp [shapes]
  | oneOf ss =>
    rw [isSmall, Shape.allSmall_iff] at hsmall
    have hsteady := h.regular.of_isSmall (by rwa [isSmall, Shape.allSmall_iff])
    exact fun s hs => ⟨hsteady.of_mem_shapes hs, hsmall s hs⟩

section Lists

variable {xs ys : List Shape}

theorem subset_of_without_eq_never (ha : (oneOf xs).Regular isSteady)
    (hb : (oneOf ys).Regular isSteady) (hys : ∀ y ∈ ys, y.Regular isSteady ∧ y.isSmall = true)
    (h : (oneOf xs).without (oneOf ys) = never) : (oneOf xs).subset (oneOf ys) = true := by
  refine subset_of_admits _ _ ha hb fun v hv => by_contra fun hnot => ?_
  have hrest : ((oneOf xs).without (oneOf ys)).Admits v :=
    admits_foldl_withoutShape ys (t := oneOf xs) (fun _ => ha.of_mem_shapes) hys hv
      fun y hy hyv => hnot (admits_oneOf.2 ⟨y, hy, hyv⟩)
  rw [h] at hrest
  exact not_admits_of_isNever rfl v hrest

theorem without_eq_never_of_subset (ha : (oneOf xs).Regular isSteady)
    (hb : (oneOf ys).Regular isSteady) (hys : ∀ y ∈ ys, y.Regular isSteady ∧ y.isSmall = true)
    (h : (oneOf xs).subset (oneOf ys) = true) : (oneOf xs).without (oneOf ys) = never := by
  refine foldl_withoutShape_eq_never (fun _ => ha.of_mem_shapes) hys (fun p hp => ?_)
    fun x hx hn => ?_
  · obtain ⟨n, hn, hp⟩ := hp
    have hv : (oneOf xs).Admits (.number p) :=
      admits_oneOf.2 ⟨_, hn, Shape.admits_number.2 ⟨p, rfl, hp⟩⟩
    obtain ⟨y, hy, hyv⟩ := admits_oneOf.1 (admits_of_subset _ _ ha hb h _ hv)
    cases y with
    | number k => exact ⟨k, hy, hyv⟩
    | _ => cases hyv
  · rw [subset] at h
    rcases Shape.allCovered_iff.1 h x hx with hcover | hjoint
    · exact hcover
    · cases x with
      | number n => cases hn
      | _ => simp [Shape.jointlyCovered] at hjoint

end Lists

/-- Nothing is left of a type without another exactly if it is included in it, for types whose
finite bounds and literals are at most `2^52`. -/
theorem without_eq_never_iff {a b : Ty} (ha : a.Built) (hb : b.Built) (ha' : a.isSmall = true)
    (hb' : b.isSmall = true) : a.without b = never ↔ a.subset b = true := by
  cases b with
  | any => exact iff_of_true rfl (by cases a <;> simp only [subset, isAny])
  | oneOf ys =>
    cases a with
    | any =>
      refine iff_of_false ?_ (by simp [subset, isAny])
      rw [without, foldl_withoutShape_any]
      simp [never]
    | oneOf xs =>
      have ha := ha.steady ha'
      have hys := hb.steady_shapes hb'
      have hb := hb.steady hb'
      exact ⟨subset_of_without_eq_never ha hb hys, without_eq_never_of_subset ha hb hys⟩

theorem Built.point {t : Ty} (ht : t.Built) : (Ty.record "point" [("x", t)]).Built := by
  have hx : isIdentifier "x" = true := by decide
  exact .record _ _ (by decide) (List.forall_mem_singleton.2 hx)
    (List.forall_mem_singleton.2 ht)

/-- The integers 0 and 1 lie in two members of the right side, and the record in the third. -/
theorem without_eq_never_iff_spread :
    let a := union [integers .zero .one, record "point" [("x", int)]]
    let b := union [interval .zero .half, literal .one, record "point" [("x", number)]]
    (a.without b = never ↔ a.subset b = true) ∧ a.subset b = true := by
  intro a b
  have ha : a.Built :=
    .union _ (List.forall_mem_cons.2 ⟨.integers _ _, List.forall_mem_singleton.2 (.point .int)⟩)
  have hb : b.Built :=
    .union _ (List.forall_mem_cons.2 ⟨.interval _ _,
      List.forall_mem_cons.2 ⟨.literal _, List.forall_mem_singleton.2 (.point .number)⟩⟩)
  exact ⟨without_eq_never_iff ha hb (by decide +kernel) (by decide +kernel), by decide +kernel⟩

/-- Nothing is left of a union without both its operands, for types whose finite bounds and
literals are at most `2^52`. -/
theorem without_operands {a b : Ty} (ha : a.Built) (hb : b.Built) (ha' : a.isSmall = true)
    (hb' : b.isSmall = true) : ((union [a, b]).without a).without b = never := by
  cases b with
  | any => rfl
  | oneOf ys =>
    have hys := hb.steady_shapes hb'
    cases a with
    | any =>
      have hnil : ys.foldl withoutShape never = never :=
        foldl_withoutShape_eq_never (by simp) hys (by simp) (by simp)
      exact hnil
    | oneOf xs =>
      have hshapes : ∀ s ∈ xs ++ ys, s.Regular isSteady ∧ s.isSmall = true := fun s hs =>
        (List.mem_append.1 hs).elim (ha.steady_shapes ha' s) (hys s)
      have hregular : ∀ s ∈ xs ++ ys, s.Regular isSteady := fun s hs => (hshapes s hs).1
      have hunion : union [oneOf xs, oneOf ys] = oneOf (Shape.canonical (xs ++ ys)) := by
        simp [union, isAny, shapes]
      rw [hunion, without, without, ← List.foldl_append]
      refine foldl_withoutShape_eq_never
        (fun s => Shape.regular_of_mem_canonical NumberSet.kept_isSteady hregular) hshapes
        (fun p hp => ?_) fun x hx hn => ?_
      · have hnumbers := Shape.regular_of_mem_numbers hregular
        obtain ⟨n, hn, hp⟩ := hp
        obtain ⟨k, hk, hkp⟩ := (NumberSet.denotes_canonical_of_isSteady
          (fun n hn => (hnumbers n hn).1) (fun n hn => (hnumbers n hn).2) p).1
          ⟨n, Shape.number_mem_canonical.1 hn, hp⟩
        exact ⟨k, mem_filterMap_number?.1 hk, hkp⟩
      · have hx := Shape.mem_of_mem_canonical hn hx
        exact ⟨x, hx, Shape.subset_of_identity x x (hregular x hx).wellFormed rfl⟩

/-- The union of all reals and NaN is `number`, which is in neither operand. -/
theorem without_operands_number :
    let a := union [interval .negInf .posInf, record "point" [("x", int)]]
    let b := union [literal .nan, textLiteral "a", record "point" [("x", number)]]
    ((union [a, b]).without a).without b = never := by
  intro a b
  have ha : a.Built :=
    .union _ (List.forall_mem_cons.2 ⟨.interval _ _, List.forall_mem_singleton.2 (.point .int)⟩)
  have hb : b.Built :=
    .union _ (List.forall_mem_cons.2 ⟨.literal _,
      List.forall_mem_cons.2 ⟨.textLiteral _, List.forall_mem_singleton.2 (.point .number)⟩⟩)
  exact without_operands ha hb (by decide +kernel) (by decide +kernel)

end Ty

end FlowTypes
