import FlowTypes.Proofs.Extremes
import FlowTypes.Proofs.JointCover

/-!
# Changes of sign, minima and maxima grow with their operands

Within small bounds these operations are known by their points. A point of a change of sign is one
of the operand, and a point of a minimum is there because of one point of each operand
(`exists_points_of_minimumOne`). So unions that hold every point of others, whichever of their sets
it is in (`PointsIn`), have the points of the results of the others as well (`SteadyIn.negate`,
`SteadyIn.minimum`, `SteadyIn.maximum`).

Positive infinity is in a minimum if both operands are endless (`Endless`), which no point of theirs
says : a range of integers does not hold its infinite end. A number beyond the bounds does, as it is
in endless sets only (`denotes_beyond_iff`).
-/

namespace FlowTypes.NumberSet

open ExtendedRat Binary64

variable {a b n n' : NumberSet} {ns ms ns' ms' : List NumberSet} {p : Option ExtendedRat}
  {q : ExtendedRat} {v w lo hi lo' hi' : Binary64} {bound : ℕ}

/-! ## Inclusion of points -/

/-- Has the second list every point of the first? -/
def PointsIn (ns ms : List NumberSet) : Prop := ∀ p, DenotesSome ns p → DenotesSome ms p

theorem denotesSome_flatMap {α : Type} {xs : List α} {f : α → List NumberSet} :
    DenotesSome (xs.flatMap f) p ↔ ∃ a ∈ xs, DenotesSome (f a) p := by
  simp only [DenotesSome, List.mem_flatMap]
  constructor
  · rintro ⟨n, ⟨a, ha, hn⟩, hx⟩
    exact ⟨a, ha, n, hn, hx⟩
  · rintro ⟨a, ha, n, hn, hx⟩
    exact ⟨n, ⟨a, ha, hn⟩, hx⟩

/-- The results of an operation for every pair of members. -/
def pairs (op : NumberSet → NumberSet → List NumberSet) (xs ys : List NumberSet) :
    List NumberSet :=
  xs.flatMap fun x => ys.flatMap (op x)

theorem denotesSome_pairs {op : NumberSet → NumberSet → List NumberSet} :
    DenotesSome (pairs op ns ms) p ↔ ∃ n ∈ ns, ∃ m ∈ ms, DenotesSome (op n m) p := by
  simp only [pairs, denotesSome_flatMap]

theorem allWellFormed_pairs {op : NumberSet → NumberSet → List NumberSet}
    (h : ∀ n ∈ ns, ∀ m ∈ ms, AllWellFormed (op n m)) : AllWellFormed (pairs op ns ms) :=
  allWellFormed_flatMap fun n hn => allWellFormed_flatMap (h n hn)

/-- Sets that leave room for exact steps beyond the bound. -/
structure SteadyUnion (bound : ℕ) (ns : List NumberSet) : Prop where
  wellFormed : AllWellFormed ns
  steady : AllSteady bound ns

namespace SteadyUnion

theorem canonical (hbound : bound < 2 ^ 53) (h : SteadyUnion bound ns) :
    SteadyUnion bound (canonical ns) :=
  ⟨allWellFormed_canonical h.wellFormed, h.steady.canonical hbound h.wellFormed⟩

theorem flatMap_negateOne (h : SteadyUnion bound ns) :
    SteadyUnion bound (ns.flatMap negateOne) :=
  ⟨allWellFormed_flatMap fun n _ => allWellFormed_negateOne n,
    .flatMap fun n hn => allSteady_negateOne (h.steady n hn)⟩

theorem pairs_minimumOne (hbound : bound + 1 < 2 ^ 53) (h : SteadyUnion bound ns)
    (h' : SteadyUnion bound ms) : SteadyUnion (bound + 1) (pairs minimumOne ns ms) :=
  ⟨allWellFormed_pairs fun n hn m hm =>
      allWellFormed_minimumOne (h.wellFormed n hn) (h'.wellFormed m hm),
    .flatMap fun n hn => .flatMap fun m hm =>
      allSteady_minimumOne hbound (h.steady n hn) (h'.steady m hm)⟩

end SteadyUnion

/-- Canonical forms keep inclusion of points, where the bounds are small. -/
theorem PointsIn.canonical (hbound : bound + 2 ≤ 2 ^ 53) (hns : SteadyUnion bound ns)
    (hms : SteadyUnion bound ms) (h : PointsIn ns ms) :
    PointsIn (canonical ns) (canonical ms) := fun p hp =>
  (denotesSome_canonical hbound hms.wellFormed (.inr hms.steady)).2
    (h p ((denotesSome_canonical hbound hns.wellFormed (.inr hns.steady)).1 hp))

/-! ## Changes of sign -/

theorem denotesSome_flatMap_negateOne (hns : AllWellFormed ns) :
    DenotesSome (ns.flatMap negateOne) p ↔ DenotesSome ns (p.map opposite) := by
  have hmap : (p.map opposite).map opposite = p := by
    rw [Option.map_map, (funext opposite_opposite : opposite ∘ opposite = id), Option.map_id, id]
  rw [denotesSome_flatMap]
  refine exists_congr fun n => and_congr_right fun hn => ?_
  rw [← denotesSome_negateOne (hns n hn), hmap]

theorem PointsIn.flatMap_negateOne (hns : AllWellFormed ns) (hms : AllWellFormed ms)
    (h : PointsIn ns ms) : PointsIn (ns.flatMap negateOne) (ms.flatMap negateOne) := fun _ hp =>
  (denotesSome_flatMap_negateOne hms).2 (h _ ((denotesSome_flatMap_negateOne hns).1 hp))

/-! ## Minima -/

/-- Has the set all large numbers, or at least all large integers? -/
def Endless (real : Bool) : NumberSet → Prop
  | all => True
  | literal _ => False
  | interval _ hi => hi = posInf
  | integers _ hi => real = false ∧ hi = posInf

theorem not_isInt_top : ¬IsInt ⊤ := by
  rintro ⟨z, hz⟩
  exact absurd hz.symm (WithBotTop.coe_ne_top _)

theorem denotesSome_canonical_top (hns : AllWellFormed ns) :
    DenotesSome (canonical ns) (some ⊤) ↔ DenotesSome ns (some ⊤) :=
  denotes_canonical hns (resolved_exact posInf hns)

theorem not_denotesSome_integers?_top (hlo : lo.isNaN = false) (hhi : hi.isNaN = false) :
    ¬DenotesSome (integers? lo hi).toList (some ⊤) := fun h =>
  not_isInt_top ((denotesSome_integers? hlo hhi).1 h).1

/-- Other numbers than positive infinity have minima below it. -/
theorem eq_posInf_of_minimumLiteral (hn : n.wellFormed = true)
    (h : DenotesSome (minimumLiteral v n) (some ⊤)) : v = posInf ∧ n.Denotes (some ⊤) := by
  cases hv : v.isNaN with
  | true =>
    obtain rfl := eq_nan_of_isNaN hv
    simp [minimumLiteral, denotesSome_singleton, denotes_literal, exact, isNaN] at h
  | false =>
    rcases eq_or_ne v posInf with rfl | htop
    · exact ⟨rfl, denotesSome_singleton.1 h⟩
    exfalso
    have hlt : ¬(⊤ : ExtendedRat) ≤ v.value := fun hle =>
      htop ((Range.value_eq_top hv).1 (top_le_iff.1 hle))
    have hnot : ¬(literal v).Denotes (some ⊤) := fun hd =>
      hlt (exact_eq_some.1 (denotes_literal.1 hd)).2.ge
    have hminimum : ¬IsMinimum (literal v) n ⊤ := by
      rintro (⟨hd, -⟩ | ⟨-, hreach⟩)
      exacts [hnot hd, hlt (reaches_literal.1 hreach).2]
    cases n with
    | literal w => exact hminimum ((denotesSome_minimumLiteral_literal hv htop).1 h)
    | interval lo hi => exact hminimum ((denotesSome_minimumLiteral_interval hv htop hn).1 h)
    | all =>
      simp only [minimumLiteral, hv, htop, Bool.false_eq_true, if_false] at h
      exact hlt ((denotesSome_upTo (le_refl _) hv (.inl ⟨posInf, rfl⟩)).1 h)
    | integers lo hi =>
      have hlo := isNaN_of_isWhole (whole_of_wellFormed_integers hn).1
      simp only [minimumLiteral, hv, htop, Bool.false_eq_true, if_false] at h
      split_ifs at h
      · exact hnot (denotesSome_singleton.1 h)
      · exact not_isInt_top (denotes_integers_some.1 (denotesSome_singleton.1 h)).1
      · exact not_denotesSome_integers?_top hlo hv h
      · rw [denotesSome_canonical_top (by simp), denotesSome_append] at h
        exact h.elim (not_denotesSome_integers?_top hlo ((isNaN_floor v).trans hv)) fun hd =>
          hnot (denotesSome_singleton.1 hd)

theorem endless_of_minimumAll (hliteral : n.literal? = none)
    (h : DenotesSome (minimumAll n) (some ⊤)) (hn : n.wellFormed = true) : n.Endless false := by
  have hupTo : ∀ {hi : Binary64}, hi.isNaN = false →
      DenotesSome (if hi = .posInf then [all] else
        canonical (literal .nan :: (interval? .negInf hi).toList)) (some ⊤) → hi = posInf := by
    intro hi hhi h
    by_contra hne
    rw [if_neg hne] at h
    have hle := (denotesSome_upTo (le_refl _) hhi (.inl ⟨posInf, rfl⟩)).1 h
    exact hne ((Range.value_eq_top hhi).1 (top_le_iff.1 hle))
  cases n with
  | all => trivial
  | literal v => cases hliteral
  | interval lo hi => exact hupTo (lt_of_wellFormed_interval hn).2.1 h
  | integers lo hi => exact ⟨rfl, hupTo (isNaN_of_isWhole (whole_of_wellFormed_integers hn).2.1) h⟩

theorem minNumber_eq_posInf {v w : Binary64} (hv : v.isNaN = false) (hw : w.isNaN = false)
    (h : (v.minNumber w).value = ⊤) : v = posInf ∧ w = posInf := by
  rw [(minNumber_spec hv hw).2, min_eq_top] at h
  exact ⟨(Range.value_eq_top hv).1 h.1, (Range.value_eq_top hw).1 h.2⟩

theorem endless_of_minimumMixed (ha : (integers lo hi).wellFormed = true)
    (hb : (interval lo' hi').wellFormed = true)
    (h : DenotesSome (minimumMixed lo hi lo' hi') (some ⊤)) : hi = posInf ∧ hi' = posInf := by
  obtain ⟨hlow, hhiw, hlt⟩ := whole_of_wellFormed_integers ha
  obtain ⟨hlo', hhi', hlt'⟩ := lt_of_wellFormed_interval hb
  have hlo := isNaN_of_isWhole hlow
  have hhi := isNaN_of_isWhole hhiw
  obtain ⟨hmin, -⟩ := minNumber_spec hhi hhi'
  have hreals : DenotesSome (interval? lo' (hi.minNumber hi')).toList (some ⊤) →
      hi = posInf ∧ hi' = posInf := fun h =>
    minNumber_eq_posInf hhi hhi' (top_le_iff.1 ((denotesSome_interval? hlo' hmin).1 h).2)
  unfold minimumMixed at h
  split at h
  · exact absurd h (not_denotesSome_integers?_top hlo hhi)
  split at h
  · next hbelow =>
    have htop := ((denotesSome_interval? hlo' hhi').1 h).2
    exact absurd hlt (not_lt.2 (le_top.trans (htop.trans (le_iff_value.1 hbelow).2.2)))
  split at h
  · exact hreals h
  · dsimp only at h
    rw [denotesSome_canonical_top (by simp), denotesSome_append] at h
    have hnot := not_denotesSome_integers?_top hlo (value_last_le hlo').1
    exact h.elim (fun h => absurd h hnot) hreals

/-- Positive infinity is a minimum only of sets that have it, or of endless sets of which one is
real. -/
theorem endless_of_minimumOne_top (ha : a.wellFormed = true) (hb : b.wellFormed = true)
    (h : DenotesSome (minimumOne a b) (some ⊤)) :
    (a.Denotes (some ⊤) ∧ b.Denotes (some ⊤)) ∨ (a.Endless true ∧ b.Endless false) ∨
      (a.Endless false ∧ b.Endless true) := by
  have hliteral : ∀ {v : Binary64} {n : NumberSet}, n.wellFormed = true →
      DenotesSome (minimumLiteral v n) (some ⊤) →
        (literal v).Denotes (some ⊤) ∧ n.Denotes (some ⊤) := fun hn h => by
    obtain ⟨rfl, htop⟩ := eq_posInf_of_minimumLiteral hn h
    exact ⟨rfl, htop⟩
  cases a with
  | literal v => exact Or.inl (hliteral hb h)
  | all =>
    cases b with
    | literal w => exact Or.inl (hliteral ha h).symm
    | _ => exact Or.inr (Or.inl ⟨trivial, endless_of_minimumAll rfl h hb⟩)
  | interval lo hi =>
    cases b with
    | literal w => exact Or.inl (hliteral ha h).symm
    | all => exact Or.inr (Or.inr ⟨endless_of_minimumAll rfl h ha, trivial⟩)
    | interval lo' hi' =>
      obtain ⟨hlo, hhi, -⟩ := lt_of_wellFormed_interval ha
      obtain ⟨hlo', hhi', -⟩ := lt_of_wellFormed_interval hb
      obtain ⟨hmin, -⟩ := minNumber_spec hlo hlo'
      obtain ⟨hmin', -⟩ := minNumber_spec hhi hhi'
      obtain ⟨rfl, rfl⟩ := minNumber_eq_posInf hhi hhi'
        (top_le_iff.1 ((denotesSome_interval? hmin hmin').1 h).2)
      exact Or.inr (Or.inl ⟨rfl, rfl⟩)
    | integers lo' hi' =>
      obtain ⟨rfl, rfl⟩ := endless_of_minimumMixed hb ha h
      exact Or.inr (Or.inl ⟨rfl, rfl, rfl⟩)
  | integers lo hi =>
    cases b with
    | literal w => exact Or.inl (hliteral ha h).symm
    | all => exact Or.inr (Or.inr ⟨endless_of_minimumAll rfl h ha, trivial⟩)
    | interval lo' hi' =>
      obtain ⟨rfl, rfl⟩ := endless_of_minimumMixed ha hb h
      exact Or.inr (Or.inr ⟨⟨rfl, rfl⟩, rfl⟩)
    | integers lo' hi' =>
      have hlo := isNaN_of_isWhole (whole_of_wellFormed_integers ha).1
      have hhi := isNaN_of_isWhole (whole_of_wellFormed_integers ha).2.1
      have hlo' := isNaN_of_isWhole (whole_of_wellFormed_integers hb).1
      have hhi' := isNaN_of_isWhole (whole_of_wellFormed_integers hb).2.1
      rw [minimumOne, minimumIntegers] at h
      split_ifs at h
      · exact absurd h (not_denotesSome_integers?_top hlo hhi)
      · exact absurd h (not_denotesSome_integers?_top hlo' hhi')
      · exact absurd h (not_denotesSome_integers?_top (minNumber_spec hlo hlo').1
          (minNumber_spec hhi hhi').1)

theorem denotesSome_minimumMixed_top (ha : (integers lo .posInf).wellFormed = true)
    (hb : (interval lo' .posInf).wellFormed = true) :
    DenotesSome (minimumMixed lo .posInf lo' .posInf) (some ⊤) := by
  obtain ⟨-, -, hlt⟩ := whole_of_wellFormed_integers ha
  obtain ⟨hlo', hhi', hlt'⟩ := lt_of_wellFormed_interval hb
  have hreals : DenotesSome (interval? lo' (posInf.minNumber posInf)).toList (some ⊤) := by
    obtain ⟨hmin, hval⟩ := minNumber_spec hhi' hhi'
    rw [denotesSome_interval? hlo' hmin, hval, min_self]
    exact ⟨le_top, le_refl _⟩
  unfold minimumMixed
  split
  · next hle => exact absurd (le_iff_value.1 hle).2.2 (not_le.2 hlt')
  split
  · next hle => exact absurd (le_iff_value.1 hle).2.2 (not_le.2 hlt)
  split
  · exact hreals
  · dsimp only
    rw [denotesSome_canonical_top (by simp), denotesSome_append]
    exact Or.inr hreals

/-- Endless sets of which one is real have positive infinity among their minima. -/
theorem denotesSome_minimumOne_of_endless (ha : a.wellFormed = true) (hb : b.wellFormed = true)
    (h : a.Endless true) (h' : b.Endless false) :
    DenotesSome (minimumOne a b) (some ⊤) ∧ DenotesSome (minimumOne b a) (some ⊤) := by
  have hboth : ∀ {ns : List NumberSet}, all ∈ ns → DenotesSome ns (some ⊤) := fun hmem =>
    ⟨all, hmem, trivial⟩
  cases a with
  | literal v => cases h
  | integers lo hi => cases h.1
  | all =>
    cases b with
    | literal w => cases h'
    | all => exact ⟨hboth List.mem_cons_self, hboth List.mem_cons_self⟩
    | interval lo hi =>
      obtain rfl : hi = posInf := h'
      exact ⟨hboth List.mem_cons_self, hboth List.mem_cons_self⟩
    | integers lo hi =>
      obtain ⟨-, rfl⟩ := h'
      exact ⟨hboth List.mem_cons_self, hboth List.mem_cons_self⟩
  | interval lo hi =>
    obtain rfl : hi = posInf := h
    cases b with
    | literal w => cases h'
    | all => exact ⟨hboth List.mem_cons_self, hboth List.mem_cons_self⟩
    | interval lo' hi' =>
      obtain rfl : hi' = posInf := h'
      have htop := (denotes_top_iff ha).2 (Or.inr (Or.inr ⟨lo, rfl⟩))
      have htop' := (denotes_top_iff hb).2 (Or.inr (Or.inr ⟨lo', rfl⟩))
      exact ⟨denotesSome_minimumOne_top ha hb htop htop',
        denotesSome_minimumOne_top hb ha htop' htop⟩
    | integers lo' hi' =>
      obtain ⟨-, rfl⟩ := h'
      exact ⟨denotesSome_minimumMixed_top hb ha, denotesSome_minimumMixed_top hb ha⟩

/-- A number beyond the bounds, either a real between two integers or an integer. -/
def beyond (bound : ℕ) (real : Bool) : ExtendedRat := rat (bound + 2 + if real then 1 / 2 else 0)

theorem isInt_beyond (real : Bool) : IsInt (beyond bound real) ↔ real = false := by
  cases real with
  | false => exact iff_of_true ⟨bound + 2, congrArg rat (by simp)⟩ rfl
  | true =>
    refine iff_of_false ?_ nofun
    rintro ⟨z, hz⟩
    have hq : (bound + 2 + 1 / 2 : ℚ) = z := WithBotTop.coe_injective hz
    have h2 : (2 * bound + 5 : ℤ) = 2 * z := by
      have h : (2 * bound + 5 : ℚ) = 2 * z := by rw [← hq]; ring
      exact_mod_cast h
    omega

theorem value_lt_beyond (hv : v.isNaN = false) (hb : v.within (bound + 1) = true)
    (htop : v ≠ posInf) (real : Bool) : v.value < beyond bound real := by
  have hlt : int (bound + 1) < beyond bound real := by
    refine WithBotTop.coe_lt_coe.2 ?_
    cases real with
    | false => norm_num
    | true => norm_num; linarith
  cases v with
  | nan => cases hv
  | infinity s =>
    cases s with
    | true => exact bot_lt_rat _
    | false => exact absurd rfl htop
  | finite s m hm => exact ((within_iff.1 hb rfl).2).trans_lt hlt

theorem beyond_le_iff (hv : v.isNaN = false) (hb : v.within (bound + 1) = true) (real : Bool) :
    beyond bound real ≤ v.value ↔ v = posInf := by
  constructor
  · exact fun hle => by_contra fun htop => absurd hle (not_le.2 (value_lt_beyond hv hb htop real))
  · rintro rfl
    exact le_top

/-- What lies beyond small bounds is in endless sets only. -/
theorem denotes_beyond_iff (hn : n.wellFormed = true) (hsteady : n.isSteadyTo bound = true)
    (real : Bool) : n.Denotes (some (beyond bound real)) ↔ n.Endless real := by
  have hmono : ∀ {v : Binary64}, v.within bound = true → v.within (bound + 1) = true :=
    within_mono (Nat.le_succ _)
  cases n with
  | all => exact Iff.rfl
  | literal v =>
    refine iff_of_false (fun h => ?_) id
    obtain ⟨hv, he⟩ := exact_eq_some.1 (denotes_literal.1 h)
    obtain rfl := (beyond_le_iff hv hsteady real).1 he.ge
    exact absurd he (WithBotTop.coe_ne_top _).symm
  | interval lo hi =>
    obtain ⟨hlo, hhi, hlt⟩ := lt_of_wellFormed_interval hn
    simp only [isSteadyTo, Bool.and_eq_true] at hsteady
    have hle := (value_lt_beyond hlo (hmono hsteady.1)
      (by rintro rfl; exact not_top_lt hlt) real).le
    rw [denotes_interval_some, beyond_le_iff hhi (hmono hsteady.2) real, Endless]
    exact and_iff_right hle
  | integers lo hi =>
    obtain ⟨hlow, hhiw, hlt⟩ := whole_of_wellFormed_integers hn
    simp only [isSteadyTo, Bool.and_eq_true] at hsteady
    have hle := (value_lt_beyond (isNaN_of_isWhole hlow) hsteady.1
      (by rintro rfl; exact not_top_lt hlt) real).le
    rw [denotes_integers_some, isInt_beyond, beyond_le_iff (isNaN_of_isWhole hhiw) hsteady.2 real,
      Endless]
    exact and_congr_right fun _ => and_iff_right hle

/-- A minimum of two sets is one of any sets with two points of theirs. -/
theorem exists_points_of_minimumOne (hbound : bound + 3 ≤ 2 ^ 53) (ha : a.wellFormed = true)
    (hb : b.wellFormed = true) (hsa : a.isSteadyTo bound = true)
    (hsb : b.isSteadyTo bound = true) (h : DenotesSome (minimumOne a b) p) :
    ∃ p₁ p₂, a.Denotes p₁ ∧ b.Denotes p₂ ∧ ∀ a' b', a'.wellFormed = true → b'.wellFormed = true →
      a'.isSteadyTo bound = true → b'.isSteadyTo bound = true → a'.Denotes p₁ → b'.Denotes p₂ →
        DenotesSome (minimumOne a' b') p := by
  have hsettled : ∀ {a b : NumberSet}, a.isSteadyTo bound = true → b.isSteadyTo bound = true →
      Settled bound p [a, b] := fun ha hb => .inr (by simp [ha, hb])
  cases p with
  | none =>
    obtain ⟨x, hx⟩ := exists_has ha
    obtain ⟨y, hy⟩ := exists_has hb
    rcases denotesSome_minimumOne_nan.1 h with hnone | hnone
    · exact ⟨_, _, hnone, (has_iff_denotes hb y).1 hy, fun _ _ _ _ _ _ hd _ =>
        denotesSome_minimumOne_nan.2 (.inl hd)⟩
    · exact ⟨_, _, (has_iff_denotes ha x).1 hx, hnone, fun _ _ _ _ _ _ _ hd =>
        denotesSome_minimumOne_nan.2 (.inr hd)⟩
  | some q =>
    rcases eq_or_ne q ⊤ with rfl | hq
    · rcases endless_of_minimumOne_top ha hb h with ⟨ht, ht'⟩ | ⟨he, he'⟩ | ⟨he, he'⟩
      · exact ⟨_, _, ht, ht', fun _ _ ha' hb' _ _ => denotesSome_minimumOne_top ha' hb'⟩
      · refine ⟨_, _, (denotes_beyond_iff ha hsa true).2 he,
          (denotes_beyond_iff hb hsb false).2 he', fun _ _ ha' hb' hsa' hsb' hd hd' => ?_⟩
        exact (denotesSome_minimumOne_of_endless ha' hb' ((denotes_beyond_iff ha' hsa' true).1 hd)
          ((denotes_beyond_iff hb' hsb' false).1 hd')).1
      · refine ⟨_, _, (denotes_beyond_iff ha hsa false).2 he,
          (denotes_beyond_iff hb hsb true).2 he', fun _ _ ha' hb' hsa' hsb' hd hd' => ?_⟩
        exact (denotesSome_minimumOne_of_endless hb' ha' ((denotes_beyond_iff hb' hsb' true).1 hd')
          ((denotes_beyond_iff ha' hsa' false).1 hd)).2
    · rcases (denotesSome_minimumOne ha hb hbound (hsettled hsa hsb) hq).1 h with
        ⟨hd, q', hd', hle⟩ | ⟨hd, q', hd', hle⟩
      · exact ⟨_, _, hd, hd', fun _ _ ha' hb' hsa' hsb' hd hd' =>
          (denotesSome_minimumOne ha' hb' hbound (hsettled hsa' hsb') hq).2
            (.inl ⟨hd, q', hd', hle⟩)⟩
      · exact ⟨_, _, hd', hd, fun _ _ ha' hb' hsa' hsb' hd' hd =>
          (denotesSome_minimumOne ha' hb' hbound (hsettled hsa' hsb') hq).2
            (.inr ⟨hd, q', hd', hle⟩)⟩

/-- Minima grow with the points of their operands, where the bounds are small. -/
theorem PointsIn.pairs_minimumOne (hbound : bound + 3 ≤ 2 ^ 53) (hns : SteadyUnion bound ns)
    (hms : SteadyUnion bound ms) (hns' : SteadyUnion bound ns') (hms' : SteadyUnion bound ms')
    (h : PointsIn ns ns') (h' : PointsIn ms ms') :
    PointsIn (pairs minimumOne ns ms) (pairs minimumOne ns' ms') := by
  intro p hp
  rw [denotesSome_pairs] at hp ⊢
  obtain ⟨n, hn, m, hm, hp⟩ := hp
  obtain ⟨p₁, p₂, hn₁, hm₂, hpoints⟩ := exists_points_of_minimumOne hbound (hns.wellFormed n hn)
    (hms.wellFormed m hm) (hns.steady n hn) (hms.steady m hm) hp
  obtain ⟨n', hn', hp₁⟩ := h p₁ ⟨n, hn, hn₁⟩
  obtain ⟨m', hm', hp₂⟩ := h' p₂ ⟨m, hm, hm₂⟩
  exact ⟨n', hn', m', hm', hpoints n' m' (hns'.wellFormed n' hn') (hms'.wellFormed m' hm')
    (hns'.steady n' hn') (hms'.steady m' hm') hp₁ hp₂⟩

/-! ## Operations on unions -/

/-- Two unions with small bounds, of which the second has every point of the first. -/
structure SteadyIn (bound : ℕ) (ns ms : List NumberSet) : Prop where
  narrow : SteadyUnion bound ns
  wide : SteadyUnion bound ms
  points : PointsIn ns ms

namespace SteadyIn

theorem canonical (hbound : bound + 2 ≤ 2 ^ 53) (h : SteadyIn bound ns ms) :
    SteadyIn bound (canonical ns) (canonical ms) :=
  ⟨h.narrow.canonical (by omega), h.wide.canonical (by omega),
    h.points.canonical hbound h.narrow h.wide⟩

theorem negate (hbound : bound + 2 ≤ 2 ^ 53) (h : SteadyIn bound ns ms) :
    SteadyIn bound (negate ns) (negate ms) :=
  .canonical hbound ⟨h.narrow.flatMap_negateOne, h.wide.flatMap_negateOne,
    h.points.flatMap_negateOne h.narrow.wellFormed h.wide.wellFormed⟩

theorem minimum (hbound : bound + 3 ≤ 2 ^ 53) (h : SteadyIn bound ns ns')
    (h' : SteadyIn bound ms ms') : SteadyIn (bound + 1) (minimum ns ms) (minimum ns' ms') :=
  .canonical (by omega) ⟨h.narrow.pairs_minimumOne (by omega) h'.narrow,
    h.wide.pairs_minimumOne (by omega) h'.wide,
    h.points.pairs_minimumOne hbound h.narrow h'.narrow h.wide h'.wide h'.points⟩

theorem maximum (hbound : bound + 3 ≤ 2 ^ 53) (h : SteadyIn bound ns ns')
    (h' : SteadyIn bound ms ms') : SteadyIn (bound + 1) (maximum ns ms) (maximum ns' ms') :=
  ((h.negate (by omega)).minimum hbound (h'.negate (by omega))).negate (by omega)

end SteadyIn

end FlowTypes.NumberSet
