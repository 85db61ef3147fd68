import FlowTypes.Proofs.MonotonePoints

/-!
# Rounding grows with its operand

Halves are rounded up by a comparison of `v - v.floor`, which is itself rounded. The difference
ascends with `v` between two integers (`Binary64.sub_floor_mono`), so rounding is monotone
(`Binary64.roundHalfUp_le_roundHalfUp`) and moves no integer.

Therefore the rounded ends of a set are between those of a wider one
(`denotesSome_roundOne_of_subset`), and an integer of a set is in its rounding, whatever other sets
it is covered with (`denotesSome_roundOne_int`). Results of rounding are literals and ranges of
integers, and steps by one cut none of them.
-/

namespace FlowTypes

open ExtendedRat Binary64

/-! ## Rounding doubles -/

namespace Binary64

variable {v w : Binary64} {z : ℤ}

theorem isWhole_roundHalfUp (hv : v.isNaN = false) : v.roundHalfUp.isWhole = true := by
  unfold roundHalfUp
  split
  · exact isWhole_add_one (isWhole_floor hv)
  · exact isWhole_floor hv

theorem value_floor_le_roundHalfUp (hv : v.isNaN = false) :
    v.floor.value ≤ v.roundHalfUp.value := by
  unfold roundHalfUp
  split
  · exact le_value_add_one (isWhole_floor hv)
  · exact le_refl _

theorem value_roundHalfUp_le (hv : v.isNaN = false) :
    v.roundHalfUp.value ≤ (v.floor + one).value := by
  unfold roundHalfUp
  split
  · exact le_refl _
  · exact le_value_add_one (isWhole_floor hv)

/-- An integer at most a number is at most the rounded number. -/
theorem int_le_value_roundHalfUp (hv : v.isNaN = false) (h : int z ≤ v.value) :
    int z ≤ v.roundHalfUp.value :=
  ((int_le_value_floor v z).2 h).trans (value_floor_le_roundHalfUp hv)

/-- A difference of at least a half is positive. -/
theorem value_lt_of_half_le_sub (hv : v.isFinite = true) (hw : w.isFinite = true)
    (h : half ≤ v - w) : w.value < v.value := by
  rw [value_lt_value (isNaN_of_isFinite hw) (isNaN_of_isFinite hv)]
  by_contra hle
  have hneg : (-w).isFinite = true := by cases w <;> first | rfl | cases hw
  have hpos : half.position ≤ (v - w).position := (le_iff.1 h).2.2
  have hsum : (v - w).position ≤ zero.position := by
    rw [sub_eq_add_neg, position_add hv hneg, position_neg]
    have hzero : zero.position = 0 := rfl
    exact roundPosition_le (by omega)
  exact absurd (hpos.trans hsum) (by decide +kernel)

/-- Infinities leave no difference to their floors. -/
theorem isFinite_of_half_le_sub_floor (hv : v.isNaN = false) (h : half ≤ v - v.floor) :
    v.isFinite = true := by
  cases v with
  | nan => cases hv
  | finite s m hm => rfl
  | infinity s =>
    have hnan : infinity s - infinity s = nan := by cases s <;> rfl
    have hhalf : half ≤ infinity s - infinity s := h
    rw [hnan] at hhalf
    cases (le_iff.1 hhalf).2.1

/-- An unpassed integer at least a number is at least the rounded number. -/
theorem value_roundHalfUp_le_int (hv : v.isNaN = false) (hz : Unpassed (some (int z)))
    (h : v.value ≤ int z) : v.roundHalfUp.value ≤ int z := by
  unfold roundHalfUp
  split
  · next hhalf =>
    have hf := isFinite_of_half_le_sub_floor hv hhalf
    have hlt := value_lt_of_half_le_sub hf (isFinite_of_isInteger (isInteger_floor hf)) hhalf
    exact unpassed_int.1 hz _ (isWhole_floor hv) (hlt.trans_le h)
  · exact (value_floor_le v).trans h

theorem value_floor_mono (h : v ≤ w) : v.floor.value ≤ w.floor.value := by
  obtain ⟨hv, hw, hle⟩ := le_iff_value.1 h
  rcases value_of_isWhole (isWhole_floor hv) with he | he | ⟨-, k, hk⟩
  · rw [he]
    exact bot_le
  · have htop := (value_floor_le v).trans hle
    rw [he] at htop
    obtain rfl := (Range.value_eq_top hw).1 (top_le_iff.1 htop)
    exact le_top
  · rw [hk, int_le_value_floor, ← hk]
    exact (value_floor_le v).trans hle

/-- Over the same floor, greater numbers have greater differences to it. -/
theorem sub_floor_mono (hv : v.isNaN = false) (heq : v.floor.value = w.floor.value) (h : v ≤ w)
    (hf : v.isFinite = true) : v - v.floor ≤ w - w.floor := by
  obtain ⟨-, hw, -⟩ := le_iff.1 h
  have hff := isFinite_of_isInteger (isInteger_floor hf)
  have hwf : w.isFinite = true := by
    cases w with
    | nan => cases hw
    | finite s m hm => rfl
    | infinity s =>
      rw [value_finite hff] at heq
      cases s
      · exact absurd heq (WithBotTop.coe_ne_top _)
      · exact absurd heq (WithBotTop.coe_ne_bot _)
  have hwff := isFinite_of_isInteger (isInteger_floor hwf)
  have hfloor : v.floor.isNaN = false := (isNaN_floor v).trans hv
  have hfloor' : w.floor.isNaN = false := (isNaN_floor w).trans hw
  have hneg : -v.floor ≤ -w.floor := neg_le_neg_iff.2 (le_iff_value.2 ⟨hfloor', hfloor, heq.ge⟩)
  exact Binary64.add_le_add h hneg
    (isNaN_add_of_isFinite hf ((isNaN_neg _).trans hfloor))
    (isNaN_add_of_isFinite hwf ((isNaN_neg _).trans hfloor'))

/-- Rounding keeps the order. -/
theorem roundHalfUp_le_roundHalfUp (h : v ≤ w) : v.roundHalfUp ≤ w.roundHalfUp := by
  obtain ⟨hv, hw, hle⟩ := le_iff_value.1 h
  have hwholev := isWhole_floor hv
  have hwholew := isWhole_floor hw
  refine le_iff_value.2 ⟨isNaN_of_isWhole (isWhole_roundHalfUp hv),
    isNaN_of_isWhole (isWhole_roundHalfUp hw), ?_⟩
  rcases (value_floor_mono h).lt_or_eq with hlt | heq
  · -- The next integer after the one floor is at most the other floor.
    refine (value_roundHalfUp_le hv).trans (le_trans ?_ (value_floor_le_roundHalfUp hw))
    rcases value_of_isWhole hwholew with he | he | ⟨-, k, hk⟩
    · rw [he] at hlt
      exact absurd hlt not_lt_bot
    · rw [he]
      exact le_top
    · rw [hk] at hlt ⊢
      exact (soundStep_of_exact (exact_eq_some.2 ⟨isNaN_of_isWhole hwholew, hk⟩) hwholev).up hlt
  · by_cases hhalf : half ≤ v - v.floor
    · have hhalf' : half ≤ w - w.floor :=
        Binary64.le_trans hhalf (sub_floor_mono hv heq h (isFinite_of_half_le_sub_floor hv hhalf))
      rw [roundHalfUp, roundHalfUp, if_pos hhalf, if_pos hhalf',
        value_add_one_congr hwholev hwholew heq]
    · rw [roundHalfUp, if_neg hhalf, heq]
      exact value_floor_le_roundHalfUp hw

/-- Integers are rounded to themselves. -/
theorem exact_roundHalfUp (hv : v.isInteger = true) : v.roundHalfUp.exact = v.exact := by
  obtain ⟨hf, k, hk⟩ := isInteger_iff_value.1 hv
  have hn := isNaN_of_isFinite hf
  have hexact := exact_eq_some.2 ⟨hn, hk⟩
  rw [hexact, exact_eq_some]
  exact ⟨isNaN_of_isWhole (isWhole_roundHalfUp hn), le_antisymm
    (value_roundHalfUp_le_int hn (hexact ▸ unpassed_exact v) hk.le)
    (int_le_value_roundHalfUp hn hk.ge)⟩

theorem exact_roundHalfUp_congr (h : v.same w = true) :
    v.roundHalfUp.exact = w.roundHalfUp.exact := by
  cases hv : v.isNaN with
  | true =>
    obtain rfl := eq_nan_of_isNaN hv
    rw [eq_of_same rfl h]
  | false =>
    obtain ⟨hle, hle'⟩ := le_of_same hv h
    obtain ⟨hn, hn', hvw⟩ := le_iff_value.1 (roundHalfUp_le_roundHalfUp hle)
    have hwv := (le_iff_value.1 (roundHalfUp_le_roundHalfUp hle')).2.2
    rw [exact_eq_some.2 ⟨hn, rfl⟩, exact_eq_some.2 ⟨hn', le_antisymm hwv hvw⟩]

end Binary64

namespace NumberSet

variable {n n' : NumberSet} {ns : List NumberSet} {p : Option ExtendedRat} {q : ExtendedRat}
  {v w lo hi lo' hi' : Binary64}

/-! ## Rounding sets -/

/-- The canonical form of sets among which is no real interval has none. -/
theorem reals?_of_mem_canonical (hns : ∀ n ∈ ns, n.reals? = none) (hn : n ∈ canonical ns) :
    n.reals? = none := by
  have hnil : realRanges ns = [] := by
    rw [realRanges, List.filterMap_eq_nil_iff.2 hns]
    rfl
  rcases ns with _ | ⟨a, _ | ⟨b, rest⟩⟩
  · cases hn
  · exact hns n hn
  · rw [canonical_eq_joined (by simp), joined, hnil] at hn
    cases n with
    | interval lo hi =>
      split at hn
      · cases List.mem_singleton.1 hn
      · obtain ⟨r, hr, -⟩ := exists_range_of_interval_mem_assemble hn
        cases hr
    | _ => rfl

/-- The integers between two rounded bounds, and the infinities among these. -/
def roundedParts (lo hi : Binary64) : List NumberSet :=
  (integers? lo hi).toList ++ (if lo = .negInf then [literal .negInf] else [])
    ++ (if hi = .posInf then [literal .posInf] else [])

theorem reals?_of_mem_integers? (hn : n ∈ (integers? lo hi).toList) : n.reals? = none := by
  unfold integers? at hn
  dsimp only at hn
  split_ifs at hn <;> simp at hn <;> subst hn <;> rfl

theorem reals?_of_mem_roundedParts (hn : n ∈ roundedParts lo hi) : n.reals? = none := by
  simp only [roundedParts, List.mem_append] at hn
  rcases hn with (hn | hn) | hn
  · exact reals?_of_mem_integers? hn
  · split at hn
    · rw [List.mem_singleton.1 hn]
      rfl
    · cases hn
  · split at hn
    · rw [List.mem_singleton.1 hn]
      rfl
    · cases hn

theorem reals?_of_mem_roundOne (hn : n ∈ roundOne n') : n.reals? = none := by
  cases n' with
  | all =>
    rw [roundOne] at hn
    exact reals?_of_mem_canonical (by simp [reals?, everyInteger]) hn
  | literal v => rw [List.mem_singleton.1 hn]; rfl
  | integers lo hi => rw [List.mem_singleton.1 hn]; rfl
  | interval lo hi => exact reals?_of_mem_canonical (fun _ => reals?_of_mem_roundedParts) hn

/-- Is the point NaN, an integer or an infinity? -/
def IsRounded (p : Option ExtendedRat) : Prop := ∀ q, p = some q → IsInt q ∨ q = ⊥ ∨ q = ⊤

theorem isRounded_of_isWhole (hv : v.isWhole = true) : IsRounded v.exact := by
  intro q hq
  obtain ⟨-, rfl⟩ := exact_eq_some.1 hq
  rcases value_of_isWhole hv with rfl | rfl | ⟨-, k, hk⟩
  exacts [Or.inr (Or.inl rfl), Or.inr (Or.inr rfl), Or.inl ⟨k, hk⟩]

theorem denotesSome_ite_literal {c : Prop} [Decidable c] :
    DenotesSome (if c then [literal v] else []) p ↔ c ∧ v.exact = p := by
  split <;> simp [DenotesSome, denotes_literal, *]

theorem denotesSome_roundedParts (hlo : lo.isNaN = false) (hhi : hi.isNaN = false)
    (hle : lo.value ≤ hi.value) :
    DenotesSome (roundedParts lo hi) (some q) ↔
      IsRounded (some q) ∧ lo.value ≤ q ∧ q ≤ hi.value := by
  have hrounded : IsRounded (some q) ↔ IsInt q ∨ q = ⊥ ∨ q = ⊤ :=
    ⟨fun h => h q rfl, fun h _ hq => Option.some.inj hq ▸ h⟩
  have hbot : negInf.exact = some q ↔ q = ⊥ :=
    exact_eq_some.trans ((and_iff_right rfl).trans eq_comm)
  have htop : posInf.exact = some q ↔ q = ⊤ :=
    exact_eq_some.trans ((and_iff_right rfl).trans eq_comm)
  simp only [roundedParts, denotesSome_append, denotesSome_integers? hlo hhi,
    denotesSome_ite_literal, hbot, htop, hrounded]
  constructor
  · rintro ((⟨hint, h1, h2⟩ | ⟨rfl, rfl⟩) | ⟨rfl, rfl⟩)
    · exact ⟨Or.inl hint, h1, h2⟩
    · exact ⟨Or.inr (Or.inl rfl), le_refl _, bot_le⟩
    · exact ⟨Or.inr (Or.inr rfl), le_top, le_refl _⟩
  · rintro ⟨hint | rfl | rfl, h1, h2⟩
    · exact Or.inl (Or.inl ⟨hint, h1, h2⟩)
    · exact Or.inl (Or.inr ⟨(Range.value_eq_bot hlo).1 (le_bot_iff.1 h1), rfl⟩)
    · exact Or.inr ⟨(Range.value_eq_top hhi).1 (top_le_iff.1 h2), rfl⟩

theorem not_denotesSome_roundedParts : ¬DenotesSome (roundedParts lo hi) none := by
  simp only [roundedParts, denotesSome_append, denotesSome_ite_literal]
  rintro ((h | ⟨-, h⟩) | ⟨-, h⟩)
  · exact not_denotesSome_integers? h
  · cases exact_eq_none.1 h
  · cases exact_eq_none.1 h

/-- What has no real interval keeps its unpassed points in canonical form. -/
theorem denotesSome_canonical_of_no_intervals (hns : AllWellFormed ns)
    (hreals : ∀ n ∈ ns, n.reals? = none) (hp : Unpassed p) :
    DenotesSome (canonical ns) p ↔ DenotesSome ns p :=
  sameUnpassed_canonical hns (cutsStop_of_no_intervals hreals) p hp

theorem denotesSome_roundOne_interval (hn : (interval lo hi).wellFormed = true)
    (hp : Unpassed (some q)) :
    DenotesSome (roundOne (interval lo hi)) (some q) ↔
      IsRounded (some q) ∧ lo.roundHalfUp.value ≤ q ∧ q ≤ hi.roundHalfUp.value := by
  obtain ⟨hlo, hhi, hlt⟩ := lt_of_wellFormed_interval hn
  obtain ⟨hlo', hhi', hle⟩ := le_iff_value.1
    (roundHalfUp_le_roundHalfUp (le_iff_value.2 ⟨hlo, hhi, hlt.le⟩))
  have hwf : AllWellFormed (roundedParts lo.roundHalfUp hi.roundHalfUp) := by simp [roundedParts]
  exact (denotesSome_canonical_of_no_intervals hwf (fun _ => reals?_of_mem_roundedParts) hp).trans
    (denotesSome_roundedParts hlo' hhi' hle)

theorem not_denotesSome_roundOne_interval :
    ¬DenotesSome (roundOne (interval lo hi)) none := by
  have hwf : AllWellFormed (roundedParts lo.roundHalfUp hi.roundHalfUp) := by simp [roundedParts]
  exact fun h =>
    not_denotesSome_roundedParts (denotes_of_canonical_of_unpassed hwf (unpassed_exact nan) h)

theorem denotesSome_roundOne_all (hp : Unpassed p) (hrounded : IsRounded p) :
    DenotesSome (roundOne all) p := by
  have hwf : AllWellFormed [literal .nan, literal .negInf, literal .posInf, everyInteger] := by simp
  have hreals : ∀ n ∈ [literal .nan, literal .negInf, literal .posInf, everyInteger],
      n.reals? = none := by simp [reals?, everyInteger]
  rw [roundOne, denotesSome_canonical_of_no_intervals hwf hreals hp]
  simp only [denotesSome_cons, denotes_literal]
  cases p with
  | none => exact Or.inl rfl
  | some q =>
    rcases hrounded q rfl with ⟨z, rfl⟩ | rfl | rfl
    · exact Or.inr (Or.inr (Or.inr (Or.inl ⟨z, rfl, bot_le, le_top⟩)))
    · exact Or.inr (Or.inl rfl)
    · exact Or.inr (Or.inr (Or.inl rfl))

theorem isRounded_of_denotesSome_roundOne (hn : n.wellFormed = true) (hp : Unpassed p)
    (h : DenotesSome (roundOne n) p) : IsRounded p := by
  rintro q rfl
  cases n with
  | all =>
    have hwf : AllWellFormed [literal .nan, literal .negInf, literal .posInf, everyInteger] := by
      simp
    have hmem : DenotesSome [literal .nan, literal .negInf, literal .posInf, everyInteger]
        (some q) := denotes_of_canonical_of_unpassed hwf hp h
    simp only [denotesSome_cons, denotes_literal, exact_eq_some] at hmem
    rcases hmem with ⟨hnan, -⟩ | ⟨-, rfl⟩ | ⟨-, rfl⟩ | hz | ⟨m, hm, -⟩
    · cases hnan
    · exact Or.inr (Or.inl rfl)
    · exact Or.inr (Or.inr rfl)
    · exact Or.inl (denotes_integers_some.1 hz).1
    · cases hm
  | literal v =>
    have hv := denotes_literal.1 (denotesSome_singleton.1 h)
    have hnan : v.isNaN = false := by
      by_contra hv'
      obtain rfl := eq_nan_of_isNaN (Bool.not_eq_false _ ▸ hv')
      cases (exact_eq_some.1 hv).1
    exact isRounded_of_isWhole (isWhole_roundHalfUp hnan) q hv
  | integers lo hi => exact Or.inl (denotes_integers_some.1 (denotesSome_singleton.1 h)).1
  | interval lo hi => exact ((denotesSome_roundOne_interval hn hp).1 h).1 q rfl

/-- An unpassed integer of a set is among its rounded numbers. -/
theorem denotesSome_roundOne_int {z : ℤ} (hn : n.wellFormed = true)
    (hz : Unpassed (some (int z))) (h : n.Denotes (some (int z))) :
    DenotesSome (roundOne n) (some (int z)) := by
  cases n with
  | all => exact denotesSome_roundOne_all hz fun q hq => Or.inl ⟨z, (Option.some.inj hq).symm⟩
  | literal v =>
    obtain ⟨hv, hvz⟩ := exact_eq_some.1 (denotes_literal.1 h)
    have hvi := isInteger_iff_value.2 ⟨isFinite_of_value_eq_int hv hvz, z, hvz⟩
    exact denotesSome_singleton.2 (denotes_literal.2 ((exact_roundHalfUp hvi).trans h))
  | integers lo hi => exact denotesSome_singleton.2 h
  | interval lo hi =>
    obtain ⟨hlo, hhi, -⟩ := lt_of_wellFormed_interval hn
    obtain ⟨h1, h2⟩ := denotes_interval_some.1 h
    exact (denotesSome_roundOne_interval hn hz).2
      ⟨fun q hq => Or.inl ⟨z, (Option.some.inj hq).symm⟩, value_roundHalfUp_le_int hlo hz h1,
        int_le_value_roundHalfUp hhi h2⟩

/-- A wider set has the rounded numbers of a narrower one that is no range of integers. -/
theorem denotesSome_roundOne_of_subset (hn : n.wellFormed = true) (hn' : n'.wellFormed = true)
    (hint : n.integral? = none) (hsub : n.subset n' = true) (hp : Unpassed p)
    (h : DenotesSome (roundOne n) p) : DenotesSome (roundOne n') p := by
  have hrounded := isRounded_of_denotesSome_roundOne hn hp h
  cases n' with
  | all => exact denotesSome_roundOne_all hp hrounded
  | literal w =>
    cases n with
    | literal v =>
      have hv := denotes_literal.1 (denotesSome_singleton.1 h)
      exact denotesSome_singleton.2 ((exact_roundHalfUp_congr hsub).trans hv)
    | _ => simp [subset] at hsub
  | integers l u =>
    cases n with
    | literal v =>
      have hhas : (integers l u).has v = true := hsub
      have hv := denotes_literal.1 (denotesSome_singleton.1 h)
      rw [exact_roundHalfUp (has_integers.1 hhas).1] at hv
      exact denotesSome_singleton.2 (hv ▸ (has_iff_denotes hn' v).1 hhas)
    | integers lo hi => cases hint
    | _ => simp [subset] at hsub
  | interval l u =>
    cases n with
    | all => simp [subset] at hsub
    | integers lo hi => cases hint
    | literal v =>
      have hhas : (interval l u).has v = true := hsub
      obtain ⟨h1, h2⟩ := has_interval.1 hhas
      have hle := le_iff_value.1 (roundHalfUp_le_roundHalfUp h1)
      have hle' := le_iff_value.1 (roundHalfUp_le_roundHalfUp h2)
      obtain rfl := denotes_literal.1 (denotesSome_singleton.1 h)
      rw [exact_eq_some.2 ⟨hle.2.1, rfl⟩] at hp hrounded ⊢
      exact (denotesSome_roundOne_interval hn' hp).2 ⟨hrounded, hle.2.2, hle'.2.2⟩
    | interval lo hi =>
      cases p with
      | none => exact absurd h not_denotesSome_roundOne_interval
      | some q =>
        have hends := hsub
        simp only [subset, Bool.and_eq_true, decide_eq_true_eq] at hends
        have hle := le_iff_value.1 (roundHalfUp_le_roundHalfUp hends.1)
        have hle' := le_iff_value.1 (roundHalfUp_le_roundHalfUp hends.2)
        obtain ⟨-, h1, h2⟩ := (denotesSome_roundOne_interval hn hp).1 h
        exact (denotesSome_roundOne_interval hn' hp).2
          ⟨hrounded, hle.2.2.trans h1, h2.trans hle'.2.2⟩

end NumberSet

end FlowTypes
