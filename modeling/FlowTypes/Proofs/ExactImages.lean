import FlowTypes.Proofs.CanonicalIdempotence
import FlowTypes.Proofs.Extremes
import FlowTypes.Proofs.MonotoneRounding

/-!
# Changes of sign and rounding have exact images

The negated type holds the numbers of a type with the other sign, and nothing else; the rounded type
holds its rounded numbers, and nothing else; and rounding twice is rounding once
(`Ty.negate_round_exact`).

Rounding moves no integer and no infinity (`NumberSet.exact_roundHalfUp_of_isRounded`). So a number
between the rounded ends of a real interval is the rounded number of a member: of itself if it is
one, and else of the end that it lies beyond, since rounding is monotone
(`NumberSet.exists_of_hasSome_roundOne`). The sets of a rounded union are each rounded to
themselves (`NumberSet.roundOne_of_mem_round`).
-/

namespace FlowTypes

open ExtendedRat Binary64

namespace NumberSet

variable {n : NumberSet} {ns ms : List NumberSet} {v x z lo hi : Binary64}

/-! ## Rounding doubles -/

theorem same_of_le (h : v ≤ x) (h' : x ≤ v) : v.same x = true :=
  same_of_position (le_iff.1 h).1 (le_iff.1 h).2.1
    (Int.le_antisymm (le_iff.1 h).2.2 (le_iff.1 h').2.2)

/-- Rounding moves neither integers nor infinities nor NaN. -/
theorem exact_roundHalfUp_of_isRounded (h : IsRounded v.exact) : v.roundHalfUp.exact = v.exact := by
  cases hv : v.isNaN with
  | true =>
    rw [eq_nan_of_isNaN hv]
    rfl
  | false =>
    rcases h v.value (exact_eq_some.2 ⟨hv, rfl⟩) with ⟨k, hk⟩ | hbot | htop
    · exact exact_roundHalfUp (isInteger_iff_value.2 ⟨isFinite_of_value_eq_int hv hk, k, hk⟩)
    · rw [(Range.value_eq_bot hv).1 hbot]
      rfl
    · rw [(Range.value_eq_top hv).1 htop]
      rfl

/-- Rounding twice is rounding once. -/
theorem exact_roundHalfUp_roundHalfUp (v : Binary64) :
    v.roundHalfUp.roundHalfUp.exact = v.roundHalfUp.exact := by
  cases hv : v.isNaN with
  | true =>
    rw [eq_nan_of_isNaN hv]
    rfl
  | false => exact exact_roundHalfUp_of_isRounded (isRounded_of_isWhole (isWhole_roundHalfUp hv))

/-! ## Rounding sets -/

theorem hasSome_roundOne (hn : n.wellFormed = true) (hx : n.has x = true) :
    HasSome (roundOne n) x.roundHalfUp := by
  have hsub : (literal x).subset n = true := by cases n <;> exact hx
  rw [hasSome_iff_denotesSome (allWellFormed_roundOne hn)]
  exact denotesSome_roundOne_of_subset (wellFormed_literal x) hn rfl hsub (unpassed_exact _)
    (denotesSome_singleton.2 (denotes_literal.2 rfl))

/-- A number that rounding does not move, between the rounded ends of an interval, is the rounded
number of a member. -/
theorem exists_of_between_rounded (hlt : lo < hi) (hz : z.roundHalfUp.same z = true)
    (h1 : lo.roundHalfUp ≤ z) (h2 : z ≤ hi.roundHalfUp) :
    ∃ x, (interval lo hi).has x = true ∧ z.same x.roundHalfUp = true := by
  have hle := Binary64.le_of_lt hlt
  obtain ⟨hlo, hhi, -⟩ := lt_iff.1 hlt
  have hzn := (le_iff.1 h2).1
  have hfixed : z ≤ z.roundHalfUp ∧ z.roundHalfUp ≤ z :=
    (le_of_same (isNaN_of_isWhole (isWhole_roundHalfUp hzn)) hz).symm
  by_cases hbelow : z < lo
  · have hback := roundHalfUp_le_roundHalfUp (Binary64.le_of_lt hbelow)
    exact ⟨lo, has_interval.2 ⟨Binary64.le_refl hlo, hle⟩,
      same_of_le (Binary64.le_trans hfixed.1 hback) h1⟩
  by_cases habove : hi < z
  · have hback := roundHalfUp_le_roundHalfUp (Binary64.le_of_lt habove)
    exact ⟨hi, has_interval.2 ⟨hle, Binary64.le_refl hhi⟩,
      same_of_le h2 (Binary64.le_trans hback hfixed.2)⟩
  · exact ⟨z, has_interval.2 ⟨Binary64.le_of_not_lt hlo hzn hbelow,
      Binary64.le_of_not_lt hzn hhi habove⟩, same_of_le hfixed.1 hfixed.2⟩

/-- Every number of a rounded set is the rounded number of a member. -/
theorem exists_of_hasSome_roundOne (hn : n.wellFormed = true) (h : HasSome (roundOne n) z) :
    ∃ x, n.has x = true ∧ z.same x.roundHalfUp = true := by
  rw [hasSome_iff_denotesSome (allWellFormed_roundOne hn)] at h
  have hfixed := exact_roundHalfUp_of_isRounded
    (isRounded_of_denotesSome_roundOne hn (unpassed_exact z) h)
  have hself : n.has z = true → ∃ x, n.has x = true ∧ z.same x.roundHalfUp = true :=
    fun hz => ⟨z, hz, same_iff_exact.2 hfixed.symm⟩
  cases n with
  | all => exact hself rfl
  | integers lo hi => exact hself ((has_iff_denotes hn z).2 (denotesSome_singleton.1 h))
  | literal v =>
    have hv := denotes_literal.1 (denotesSome_singleton.1 h)
    exact ⟨v, same_refl v, same_iff_exact.2 hv.symm⟩
  | interval lo hi =>
    cases hz : z.exact with
    | none => exact absurd (hz ▸ h) not_denotesSome_roundOne_interval
    | some q =>
      obtain ⟨hlo, hhi, -⟩ := lt_of_wellFormed_interval hn
      obtain ⟨hzn, rfl⟩ := exact_eq_some.1 hz
      have hp : Unpassed (some z.value) := hz ▸ unpassed_exact z
      obtain ⟨-, h1, h2⟩ := (denotesSome_roundOne_interval hn hp).1 (hz ▸ h)
      have hround : ∀ {v : Binary64}, v.isNaN = false → v.roundHalfUp.isNaN = false :=
        fun hv => isNaN_of_isWhole (isWhole_roundHalfUp hv)
      exact exists_of_between_rounded (properBounds_iff.1 hn).1 (same_iff_exact.2 hfixed)
        (le_iff_value.2 ⟨hround hlo, hzn, h1⟩) (le_iff_value.2 ⟨hzn, hround hhi, h2⟩)

/-! ## Rounding unions -/

theorem hasSome_of_same (hns : AllWellFormed ns) (hsame : z.same x = true) (h : HasSome ns x) :
    HasSome ns z := by
  rw [hasSome_iff_denotesSome hns] at h ⊢
  rwa [same_iff_exact.1 hsame]

/-- The numbers of a rounded union are the rounded numbers of the union. -/
theorem hasSome_round_iff (hns : AllWellFormed ns) :
    HasSome (round ns) z ↔ ∃ x, HasSome ns x ∧ z.same x.roundHalfUp = true := by
  have hwf : AllWellFormed (ns.flatMap roundOne) :=
    allWellFormed_flatMap fun n hn => allWellFormed_roundOne (hns n hn)
  rw [round, image, HasSome, has_canonical hwf, ← HasSome]
  constructor
  · intro h
    obtain ⟨n, hn, hz⟩ := hasSome_flatMap.1 h
    obtain ⟨x, hx, hsame⟩ := exists_of_hasSome_roundOne (hns n hn) hz
    exact ⟨x, ⟨n, hn, hx⟩, hsame⟩
  · rintro ⟨x, ⟨n, hn, hx⟩, hsame⟩
    exact hasSome_of_same hwf hsame (hasSome_flatMap.2 ⟨n, hn, hasSome_roundOne (hns n hn) hx⟩)

/-- A set of a rounded union is rounded to itself, a zero perhaps of the other sign. -/
theorem roundOne_of_mem_round (hns : AllWellFormed ns) (hn : n ∈ round ns) :
    ∃ m, roundOne n = [m] ∧ m.wellFormed = true ∧ m.identity = n.identity := by
  have hwf : n.wellFormed = true :=
    allWellFormed_image (fun m hm => allWellFormed_roundOne (hns m hm)) n hn
  have hreals : n.reals? = none := reals?_of_mem_canonical (fun m hm => by
    obtain ⟨k, -, hk⟩ := List.mem_flatMap.1 hm
    exact reals?_of_mem_roundOne hk) hn
  have hfixed : ∀ x, n.has x = true → x.same x.roundHalfUp = true := by
    intro x hx
    obtain ⟨y, -, hsame⟩ := (hasSome_round_iff hns).1 ⟨n, hn, hx⟩
    rw [same_iff_exact] at hsame ⊢
    rw [exact_roundHalfUp_congr (same_iff_exact.2 hsame), exact_roundHalfUp_roundHalfUp, hsame]
  cases n with
  | all => exact absurd (hfixed .half rfl) (by decide +kernel)
  | interval lo hi => cases hreals
  | integers lo hi => exact ⟨_, rfl, hwf, rfl⟩
  | literal v => exact ⟨_, rfl, wellFormed_literal _,
      congrArg literal (same_iff.1 (hfixed v (same_refl v))).symm⟩

/-- Rounding a rounded union leaves its sets as they are. -/
theorem round_round (hns : AllWellFormed ns) :
    (round (round ns)).map identity = (round ns).map identity := by
  have hwf : AllWellFormed (ns.flatMap roundOne) :=
    allWellFormed_flatMap fun n hn => allWellFormed_roundOne (hns n hn)
  have hreals : ∀ n ∈ ns.flatMap roundOne, n.reals? = none := by
    intro n hn
    obtain ⟨m, -, hn⟩ := List.mem_flatMap.1 hn
    exact reals?_of_mem_roundOne hn
  have hleave : stepsLeave (ns.flatMap roundOne) = true :=
    stepsLeave_of_within hwf fun lo hi h => by cases hreals _ h
  have hnormal := normal_canonical_of_cutsLeave hwf (cutsLeave_of_stepsLeave hwf hleave)
  refine map_identity_canonical hnormal (fun n hn => ?_) fun n => ?_
  · obtain ⟨m, hm, hn⟩ := List.mem_flatMap.1 hn
    obtain ⟨k, hk, hwfk, -⟩ := roundOne_of_mem_round hns hm
    rw [hk, List.mem_singleton] at hn
    exact hn ▸ hwfk
  · rw [List.mem_map]
    constructor
    · rintro ⟨m, hm, rfl⟩
      obtain ⟨k, hk, -, he⟩ := roundOne_of_mem_round hns hm
      exact ⟨k, List.mem_flatMap.2 ⟨m, hm, hk ▸ List.mem_singleton_self k⟩, he⟩
    · rintro ⟨k, hk, rfl⟩
      obtain ⟨m, hm, hkm⟩ := List.mem_flatMap.1 hk
      obtain ⟨l, hl, -, he⟩ := roundOne_of_mem_round hns hm
      rw [hl, List.mem_singleton] at hkm
      exact ⟨m, hm, hkm ▸ he.symm⟩

end NumberSet

namespace Ty

variable {a : Ty} {ns ms : List NumberSet}

theorem numbers_ofNumbers (ns : List NumberSet) : (ofNumbers ns).numbers = ns := by
  simp [ofNumbers, numbers, List.filterMap_map, Function.comp_def, Shape.number?]

theorem same_ofNumbers (h : ns.map NumberSet.identity = ms.map NumberSet.identity) :
    (ofNumbers ns).same (ofNumbers ms) = true := by
  have hmap : ∀ ks : List NumberSet, Shape.identities (ks.map Shape.number) =
      (ks.map NumberSet.identity).map Shape.number := by
    intro ks
    simp only [Shape.identities_eq_map, List.map_map]
    rfl
  rw [same, decide_eq_true_eq, ofNumbers, ofNumbers, identity, identity, hmap, hmap, h]

/-- The negated type holds exactly the numbers of a type with the other sign, the rounded type
exactly its rounded numbers, and rounding twice is rounding once. -/
theorem negate_round_exact (ha : ∀ n ∈ a.numbers, n.wellFormed = true) :
    (∀ z, a.negate.has (.number z) = true ↔ a.has (.number (-z)) = true) ∧
      (∀ z, a.round.has (.number z) = true ↔
        ∃ x, a.has (.number x) = true ∧ z.same x.roundHalfUp = true) ∧
      a.round.round.same a.round = true := by
  simp only [negate, round, has_ofNumbers, numbers_ofNumbers]
  simp only [← hasSome_numbers]
  exact ⟨fun _ => NumberSet.hasSome_negate_iff ha, fun _ => NumberSet.hasSome_round_iff ha,
    same_ofNumbers (NumberSet.round_round ha)⟩

/-- The numbers from a half up, the integers from minus three to minus one, and NaN : with the other
sign there is one among them, and rounded there is infinity still, but no half. -/
theorem negate_round_exact_mixed :
    let a := union [interval .half .posInf, integers (-.ofNat 3) (-.one), literal .nan]
    (∀ n ∈ a.numbers, n.wellFormed = true) ∧
      a.negate.has (.number .one) = true ∧
      a.round.has (.number .posInf) = true ∧ a.round.has (.number .half) = false ∧
      a.round.round.same a.round = true := by
  intro a
  have ha : ∀ n ∈ a.numbers, n.wellFormed = true := by decide +kernel
  obtain ⟨hnegate, hround, htwice⟩ := negate_round_exact ha
  have hminus : a.has (.number (-.one)) = true := by decide +kernel
  have hinf : a.has (.number .posInf) = true := by decide +kernel
  refine ⟨ha, (hnegate .one).2 hminus, (hround .posInf).2 ⟨.posInf, hinf, by decide +kernel⟩, ?_,
    htwice⟩
  decide +kernel

end Ty

end FlowTypes
