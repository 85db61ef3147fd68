import FlowTypes.Proofs.Minima

/-!
# Minima and maxima of types

Maxima are minima of numbers with the other sign, with their sign changed back. Changing the sign of
a set changes the sign of its points (`denotesSome_negateOne`), so what is known of minima of two
sets (`hasSome_minimumOne`, `exists_minNumber`) holds of unions of them, of maxima and of types.
-/

namespace FlowTypes

/-! ## Opposite points -/

namespace ExtendedRat

/-- The number with the other sign. -/
def opposite : ExtendedRat → ExtendedRat :=
  WithBotTop.rec ⊤ (fun r => rat (-r)) ⊥

variable {q r : ExtendedRat}

theorem opposite_rat (a : ℚ) : opposite (rat a) = rat (-a) := rfl

theorem opposite_int (z : ℤ) : opposite (int z) = int (-z) := by
  rw [opposite_rat, int, Int.cast_neg]

theorem opposite_opposite (q : ExtendedRat) : opposite (opposite q) = q := by
  induction q using WithBotTop.rec with
  | bot => rfl
  | coe a => exact congrArg rat (neg_neg a)
  | top => rfl

theorem opposite_injective : Function.Injective opposite :=
  Function.LeftInverse.injective opposite_opposite

theorem opposite_antitone (h : r ≤ q) : opposite q ≤ opposite r := by
  induction q using WithBotTop.rec with
  | bot => rw [le_bot_iff.1 h]
  | top => exact bot_le
  | coe a =>
    induction r using WithBotTop.rec with
    | bot => exact le_top
    | coe b => exact WithBotTop.coe_le_coe.2 (neg_le_neg (WithBotTop.coe_le_coe.1 h))
    | top => exact absurd (top_le_iff.1 h) (WithBotTop.coe_ne_top a)

theorem opposite_le_opposite : opposite q ≤ opposite r ↔ r ≤ q := by
  refine ⟨fun h => ?_, opposite_antitone⟩
  have h' := opposite_antitone h
  rwa [opposite_opposite, opposite_opposite] at h'

end ExtendedRat

open ExtendedRat Binary64

namespace Binary64

variable {v : Binary64}

theorem value_neg (hv : v.isNaN = false) : (-v).value = opposite v.value := by
  cases v with
  | nan => cases hv
  | infinity s => cases s <;> rfl
  | finite s m hm =>
    have hneg : (-finite s m hm).isFinite = true := rfl
    rw [value_finite (v := finite s m hm) rfl, value_finite hneg, position_neg, opposite_rat,
      Int.cast_neg, neg_div]

theorem exact_neg (v : Binary64) : (-v).exact = v.exact.map opposite := by
  cases hv : v.isNaN with
  | true => rw [eq_nan_of_isNaN hv]; rfl
  | false =>
    rw [exact_eq_some.2 ⟨hv, rfl⟩, Option.map_some, exact_eq_some]
    exact ⟨(isNaN_neg v).trans hv, value_neg hv⟩

theorem neg_lt_neg_iff {v w : Binary64} : -v < -w ↔ w < v := by
  simp only [lt_iff, isNaN_neg, position_neg, Int.neg_lt_neg_iff]
  exact ⟨fun ⟨hv, hw, h⟩ => ⟨hw, hv, h⟩, fun ⟨hw, hv, h⟩ => ⟨hv, hw, h⟩⟩

/-- The maximum is the minimum with the other sign. -/
theorem neg_minNumber_neg (x y : Binary64) : -((-x).minNumber (-y)) = x.maxNumber y := by
  unfold minNumber maxNumber
  rw [isNaN_neg, isNaN_neg]
  split
  · rfl
  · next h =>
    have hx : x.isNaN = false := by simp at h; exact h.1
    rw [isNegative_neg hx]
    simp only [neg_lt_neg_iff]
    split_ifs <;> simp_all

end Binary64

namespace NumberSet

variable {a b n : NumberSet} {ns ms : List NumberSet} {p : Option ExtendedRat}
  {x y z lo hi : Binary64}

/-! ## Changes of sign -/

theorem isInt_opposite {q : ExtendedRat} : IsInt (opposite q) ↔ IsInt q := by
  have h : ∀ {r : ExtendedRat}, IsInt r → IsInt (opposite r) := by
    rintro _ ⟨z, rfl⟩
    exact ⟨-z, opposite_int z⟩
  exact ⟨fun hq => opposite_opposite q ▸ h hq, h⟩

/-- Changing the sign of a set changes the sign of its points. -/
theorem denotesSome_negateOne (hn : n.wellFormed = true) :
    DenotesSome (negateOne n) (p.map opposite) ↔ n.Denotes p := by
  cases n with
  | all => exact iff_of_true (denotesSome_singleton.2 trivial) trivial
  | literal v =>
    rw [negateOne, denotesSome_singleton, denotes_literal, denotes_literal, exact_neg]
    exact (Option.map_injective opposite_injective).eq_iff
  | interval lo hi =>
    obtain ⟨hlo, hhi, -⟩ := lt_of_wellFormed_interval hn
    cases p with
    | none => exact iff_of_false not_denotesSome_interval? (by simp [Denotes])
    | some q =>
      rw [negateOne, Option.map_some, denotesSome_interval? ((isNaN_neg hi).trans hhi)
        ((isNaN_neg lo).trans hlo), value_neg hhi, value_neg hlo, opposite_le_opposite,
        opposite_le_opposite, denotes_interval_some, and_comm]
  | integers lo hi =>
    obtain ⟨hlo, hhi, -⟩ := whole_of_wellFormed_integers hn
    replace hlo := isNaN_of_isWhole hlo
    replace hhi := isNaN_of_isWhole hhi
    cases p with
    | none => exact iff_of_false not_denotesSome_integers? (by simp [Denotes])
    | some q =>
      rw [negateOne, Option.map_some, denotesSome_integers? ((isNaN_neg hi).trans hhi)
        ((isNaN_neg lo).trans hlo), value_neg hhi, value_neg hlo, opposite_le_opposite,
        opposite_le_opposite, denotes_integers_some, isInt_opposite, and_comm (a := q ≤ hi.value)]

/-! ## Unions -/

theorem hasSome_flatMap {α : Type} {xs : List α} {f : α → List NumberSet} :
    HasSome (xs.flatMap f) x ↔ ∃ a ∈ xs, HasSome (f a) x := by
  simp only [HasSome, List.mem_flatMap]
  constructor
  · rintro ⟨n, ⟨a, ha, hn⟩, hx⟩
    exact ⟨a, ha, n, hn, hx⟩
  · rintro ⟨a, ha, n, hn, hx⟩
    exact ⟨n, ⟨a, ha, hn⟩, hx⟩

theorem allWellFormed_negate (ns : List NumberSet) : AllWellFormed (negate ns) :=
  allWellFormed_image fun n _ => allWellFormed_negateOne n

theorem hasSome_negate_iff (hns : AllWellFormed ns) : HasSome (negate ns) x ↔ HasSome ns (-x) := by
  have hmap : x.exact = (-x).exact.map opposite := by rw [← exact_neg, neg_neg]
  rw [negate, image, HasSome, has_canonical (allWellFormed_flatMap fun n _ =>
    allWellFormed_negateOne n), ← HasSome, hasSome_flatMap]
  refine exists_congr fun n => and_congr_right fun hn => ?_
  rw [hasSome_iff_denotesSome (allWellFormed_negateOne n), hmap,
    denotesSome_negateOne (hns n hn), has_iff_denotes (hns n hn)]

theorem allWellFormed_minimum (hns : AllWellFormed ns) (hms : AllWellFormed ms) :
    AllWellFormed (minimum ns ms) :=
  allWellFormed_canonical (allWellFormed_flatMap fun n hn => allWellFormed_flatMap fun m hm =>
    allWellFormed_minimumOne (hns n hn) (hms m hm))

theorem hasSome_minimum (hns : AllWellFormed ns) (hms : AllWellFormed ms) (hx : HasSome ns x)
    (hy : HasSome ms y) : HasSome (minimum ns ms) (x.minNumber y) :=
  hasSome_image₂ (fun n hn m hm => allWellFormed_minimumOne (hns n hn) (hms m hm)) hx hy
    fun n hn m hm => hasSome_minimumOne (hns n hn) (hms m hm)

theorem exists_minNumber_of_minimum (hns : AllWellFormed ns) (hms : AllWellFormed ms)
    (hz : z ≠ .posInf) (h : HasSome (minimum ns ms) z) :
    ∃ x y, HasSome ns x ∧ HasSome ms y ∧ z.same (x.minNumber y) = true := by
  rw [minimum, image₂, HasSome, has_canonical, ← HasSome, hasSome_flatMap] at h
  · obtain ⟨n, hn, h⟩ := h
    obtain ⟨m, hm, h⟩ := hasSome_flatMap.1 h
    obtain ⟨x, y, hx, hy, hz⟩ := exists_minNumber (hns n hn) (hms m hm) hz h
    exact ⟨x, y, ⟨n, hn, hx⟩, ⟨m, hm, hy⟩, hz⟩
  · exact allWellFormed_flatMap fun n hn => allWellFormed_flatMap fun m hm =>
      allWellFormed_minimumOne (hns n hn) (hms m hm)

theorem hasSome_maximum (hx : HasSome ns x) (hy : HasSome ms y) :
    HasSome (maximum ns ms) (x.maxNumber y) := by
  rw [← neg_minNumber_neg]
  exact hasSome_negate
    (hasSome_minimum (allWellFormed_negate ns) (allWellFormed_negate ms) (hasSome_negate hx)
      (hasSome_negate hy))

theorem exists_maxNumber_of_maximum (hns : AllWellFormed ns) (hms : AllWellFormed ms)
    (hz : z ≠ .negInf) (h : HasSome (maximum ns ms) z) :
    ∃ x y, HasSome ns x ∧ HasSome ms y ∧ z.same (x.maxNumber y) = true := by
  have hminimum := allWellFormed_minimum (allWellFormed_negate ns) (allWellFormed_negate ms)
  have hz' : -z ≠ .posInf := fun he => hz (by rw [← neg_neg z, he]; rfl)
  obtain ⟨x, y, hx, hy, hsame⟩ := exists_minNumber_of_minimum (allWellFormed_negate ns)
    (allWellFormed_negate ms) hz' ((hasSome_negate_iff hminimum).1 h)
  refine ⟨-x, -y, (hasSome_negate_iff hns).1 hx, (hasSome_negate_iff hms).1 hy, ?_⟩
  rw [← neg_minNumber_neg, neg_neg, neg_neg, ← neg_neg z]
  exact same_neg hsame

end NumberSet

namespace Ty

variable {a b : Ty}

/-- The minimum of two types holds the minima of their numbers, and nothing else but perhaps
positive infinity; and the maximum their maxima, and nothing else but perhaps negative infinity. -/
theorem extremes_exact (ha : ∀ n ∈ a.numbers, n.wellFormed = true)
    (hb : ∀ n ∈ b.numbers, n.wellFormed = true) :
    (∀ x y, a.has (.number x) = true → b.has (.number y) = true →
      (a.minimum b).has (.number (x.minNumber y)) = true ∧
        (a.maximum b).has (.number (x.maxNumber y)) = true) ∧
    (∀ z, z ≠ posInf → (a.minimum b).has (.number z) = true →
      ∃ x y, a.has (.number x) = true ∧ b.has (.number y) = true ∧
        z.same (x.minNumber y) = true) ∧
    ∀ z, z ≠ negInf → (a.maximum b).has (.number z) = true →
      ∃ x y, a.has (.number x) = true ∧ b.has (.number y) = true ∧
        z.same (x.maxNumber y) = true := by
  simp only [minimum, maximum, has_ofNumbers]
  simp only [← hasSome_numbers]
  exact ⟨fun x y hx hy =>
      ⟨NumberSet.hasSome_minimum ha hb hx hy, NumberSet.hasSome_maximum hx hy⟩,
    fun z hz h => NumberSet.exists_minNumber_of_minimum ha hb hz h,
    fun z hz h => NumberSet.exists_maxNumber_of_maximum ha hb hz h⟩

/-- Minima of integers with an infinite bound and of reals that begin between two of them. -/
theorem extremes_exact_mixed :
    let a := union [int, literal .nan]
    let b := interval .half .posInf
    (∀ n ∈ a.numbers, n.wellFormed = true) ∧ (∀ n ∈ b.numbers, n.wellFormed = true) ∧
      (a.minimum b).has (.number .half) = true ∧ (a.minimum b).has (.number .nan) = true ∧
      ∃ x y, a.has (.number x) = true ∧ b.has (.number y) = true ∧
        (-Binary64.one).same (x.minNumber y) = true := by
  intro a b
  have ha : ∀ n ∈ a.numbers, n.wellFormed = true := by decide +kernel
  have hb : ∀ n ∈ b.numbers, n.wellFormed = true := by decide +kernel
  have hhalf : Binary64.one.minNumber .half = .half := by decide +kernel
  obtain ⟨hmembers, hminimum, -⟩ := extremes_exact ha hb
  obtain ⟨hone, -⟩ := hmembers .one .half (by decide +kernel) (by decide +kernel)
  obtain ⟨hnan, -⟩ := hmembers .nan .half (by decide +kernel) (by decide +kernel)
  rw [hhalf] at hone
  rw [NumberSet.minNumber_of_isNaN (.inl rfl)] at hnan
  have hminus : (a.minimum b).has (.number (-.one)) = true := by decide +kernel
  have hne : -Binary64.one ≠ .posInf := nofun
  exact ⟨ha, hb, hone, hnan, hminimum _ hne hminus⟩

end Ty

end FlowTypes
