import FlowTypes.Proofs.MonotoneHulls
import FlowTypes.Proofs.MonotonePoints

/-!
# Sums of integers

Sums of integers up to `2^52` in magnitude are exact, and a sum of two doubles of that size is not
past an integer unless the exact sum is (`Binary64.int_le_value_add`, `Binary64.value_add_le_int`).
So the sum of two sets with such bounds has every sum of an integer of one and an integer of the
other (`denotesSome_addOne_int`), and if both are sets of integers it has nothing else
(`exists_int_of_addOne`).
-/

namespace FlowTypes

open ExtendedRat Binary64

/-! ## Exact sums -/

namespace Binary64

variable {v w : Binary64} {k l x y z : ℤ}

/-- Sums of integers within 53 bits are exact. -/
theorem value_add_int (hv : v.isFinite = true) (hw : w.isFinite = true) (hk : v.value = int k)
    (hl : w.value = int l) (h : (k + l).natAbs ≤ 2 ^ 53) : (v + w).value = int (k + l) := by
  obtain ⟨u, hu, huk⟩ := exists_value_eq_int h
  have huf := isFinite_of_isInteger hu
  rw [← huk, value_eq_value (isNaN_add hv hw) (isNaN_of_isFinite huf), (value_eq_int huf _).1 huk,
    position_add hv hw, (value_eq_int hv _).1 hk, (value_eq_int hw _).1 hl, ← add_mul,
    roundPosition_of_natAbs_le h]

/-- Bounds at least some integers add up to at least their sum. -/
theorem int_le_value_add (hv : v.within (2 ^ 52) = true) (hw : w.within (2 ^ 52) = true)
    (h : (v + w).isNaN = false) (hx : int x ≤ v.value) (hy : int y ≤ w.value) :
    int (x + y) ≤ (v + w).value := by
  have hinfinite : ∀ {s : Bool} {w : Binary64} {x z : ℤ}, (infinity s + w).isNaN = false →
      int x ≤ (infinity s).value → int z ≤ (infinity s + w).value := by
    intro s w x z h hx
    rw [infinity_add s h]
    cases s with
    | true => exact absurd hx (not_le.2 (bot_lt_rat _))
    | false => exact le_top
  cases v with
  | nan => cases h
  | infinity s => exact hinfinite h hx
  | finite s m hm =>
    cases w with
    | nan => cases h
    | infinity t =>
      rw [Binary64.add_comm] at h ⊢
      exact hinfinite h hy
    | finite t n hn =>
      -- The floors are integers, and add up exactly.
      obtain ⟨hf, k, hk⟩ := isInteger_iff_value.1 (isInteger_floor (v := finite s m hm) rfl)
      obtain ⟨hf', l, hl⟩ := isInteger_iff_value.1 (isInteger_floor (v := finite t n hn) rfl)
      have hbound := natAbs_le_of_within (within_floor hv) hf hk
      have hbound' := natAbs_le_of_within (within_floor hw) hf' hl
      have hsum := value_add_int hf hf' hk hl (by omega)
      rw [← int_le_value_floor, hk, int_le_int] at hx
      rw [← int_le_value_floor, hl, int_le_int] at hy
      have hle := le_iff_value.2 ⟨isNaN_of_isFinite hf, rfl, value_floor_le (finite s m hm)⟩
      have hle' := le_iff_value.2 ⟨isNaN_of_isFinite hf', rfl, value_floor_le (finite t n hn)⟩
      calc int (x + y) ≤ int (k + l) := int_le_int.2 (by omega)
        _ = ((finite s m hm).floor + (finite t n hn).floor).value := hsum.symm
        _ ≤ _ := (le_iff_value.1 (Binary64.add_le_add hle hle' (isNaN_add hf hf') h)).2.2

/-- Changes of sign pass through sums. -/
theorem exact_neg_add_neg (v w : Binary64) : (-v + -w).exact = (v + w).exact.map opposite := by
  rw [← exact_neg]
  cases v with
  | nan => rfl
  | infinity s =>
    cases w with
    | infinity t => cases s <;> cases t <;> rfl
    | _ => rfl
  | finite s m hm =>
    cases w with
    | finite t n hn =>
      have hnan : (finite s m hm + finite t n hn).isNaN = false := isNaN_add rfl rfl
      rw [exact_eq_some.2 ⟨(isNaN_neg _).trans hnan, rfl⟩]
      refine exact_eq_some.2 ⟨isNaN_add rfl rfl, ?_⟩
      rw [value_eq_value (isNaN_add rfl rfl) ((isNaN_neg _).trans hnan), position_neg,
        position_add rfl rfl, position_add rfl rfl, position_neg, position_neg, ← neg_add,
        roundPosition_neg]
    | _ => rfl

/-- Bounds at most some integers add up to at most their sum. -/
theorem value_add_le_int (hv : v.within (2 ^ 52) = true) (hw : w.within (2 ^ 52) = true)
    (h : (v + w).isNaN = false) (hx : v.value ≤ int x) (hy : w.value ≤ int y) :
    (v + w).value ≤ int (x + y) := by
  have hvn : v.isNaN = false := by cases v <;> first | rfl | cases h
  have hwn : w.isNaN = false := by
    rw [Binary64.add_comm] at h
    cases w <;> first | rfl | cases h
  have hneg := exact_neg_add_neg v w
  rw [exact_eq_some.2 ⟨h, rfl⟩, Option.map_some, exact_eq_some] at hneg
  have hle := int_le_value_add (x := -x) (y := -y) (by rwa [within_neg]) (by rwa [within_neg])
    hneg.1 (by rw [value_neg hvn, ← opposite_int]; exact opposite_antitone hx)
    (by rw [value_neg hwn, ← opposite_int]; exact opposite_antitone hy)
  rwa [hneg.2, ← neg_add, ← opposite_int, opposite_le_opposite] at hle

end Binary64

namespace NumberSet

variable {a b n : NumberSet} {p : Option ExtendedRat} {lo hi lo' hi' : Binary64} {x y z i j : ℤ}
  {bound : ℕ}

/-! ## Integers of sets with ends -/

theorem within_of_ends (hbound : bound + 1 ≤ 2 ^ 52) (hn : n.isSteadyTo bound = true)
    (he : n.ends? = some (lo, hi)) : lo.within (2 ^ 52) = true ∧ hi.within (2 ^ 52) = true := by
  suffices h : lo.within (bound + 1) = true ∧ hi.within (bound + 1) = true from
    ⟨within_mono hbound h.1, within_mono hbound h.2⟩
  cases n with
  | all => cases he
  | literal v => cases he; exact ⟨hn, hn⟩
  | interval l u =>
    cases he
    have h := Bool.and_eq_true_iff.1 hn
    exact ⟨within_mono (Nat.le_succ _) h.1, within_mono (Nat.le_succ _) h.2⟩
  | integers l u => cases he; exact Bool.and_eq_true_iff.1 hn

theorem HasEnds.denotes_int (h : n.HasEnds lo hi) :
    n.Denotes (some (int z)) ↔ lo.value ≤ int z ∧ int z ≤ hi.value := by
  obtain ⟨he, hlo, -⟩ := h
  cases n with
  | all => cases he
  | literal v =>
    cases he
    rw [denotes_literal, exact_eq_some, and_iff_right hlo, le_antisymm_iff]
  | interval l u => cases he; exact denotes_interval_some
  | integers l u => cases he; exact denotes_integers_int

theorem isFiniteOrRange_of_denotes_int (h : n.Denotes (some (int z))) : n.IsFiniteOrRange := by
  rintro v rfl
  obtain ⟨hv, hz⟩ := exact_eq_some.1 (denotes_literal.1 h)
  exact isFinite_of_value_eq_int hv hz

theorem isWhole_of_isIntegral (hn : n.wellFormed = true) (hint : n.isIntegral = true)
    (h : n.HasEnds lo hi) : lo.isWhole = true ∧ hi.isWhole = true := by
  obtain ⟨he, -⟩ := h
  cases n with
  | literal v => cases he; exact ⟨isWhole_of_isInteger hint, isWhole_of_isInteger hint⟩
  | integers l u =>
    cases he
    obtain ⟨hl, hu, -⟩ := whole_of_wellFormed_integers hn
    exact ⟨hl, hu⟩
  | _ => cases hint

theorem exists_hasEnds_of_isIntegral (hn : n.wellFormed = true) (hint : n.isIntegral = true) :
    ∃ lo hi, n.HasEnds lo hi := by
  refine exists_hasEnds hn ?_ ?_
  · rintro rfl
    cases hint
  · rintro v rfl
    exact isFinite_of_isInteger hint

theorem exists_int_of_isIntegral (hn : n.wellFormed = true) (hint : n.isIntegral = true) :
    ∃ z : ℤ, n.Denotes (some (int z)) := by
  obtain ⟨x, hx⟩ := exists_has hn
  obtain ⟨hf, z, hz⟩ := isInteger_iff_value.1 (isInteger_of_isIntegral hint hx)
  have hd := (has_iff_denotes hn x).1 hx
  rw [exact_eq_some.2 ⟨isNaN_of_isFinite hf, hz⟩] at hd
  exact ⟨z, hd⟩

/-! ## Sums of integers -/

/-- The sum of two sets with small ends has the sums of their integers. -/
theorem denotesSome_addOne_int (hbound : bound + 1 ≤ 2 ^ 52) (ha : a.wellFormed = true)
    (hb : b.wellFormed = true) (hsa : a.isSteadyTo bound = true) (hsb : b.isSteadyTo bound = true)
    (hp : Unpassed (some (int (x + y))))
    (hx : a.Denotes (some (int x))) (hy : b.Denotes (some (int y))) :
    DenotesSome (addOne a b) (some (int (x + y))) := by
  have hfinite := isFiniteOrRange_of_denotes_int hx
  have hfinite' := isFiniteOrRange_of_denotes_int hy
  by_cases hall : a = all ∨ b = all
  · rw [addOne_eq_all hall hfinite hfinite']
    exact denotesSome_singleton.2 trivial
  rw [not_or] at hall
  obtain ⟨lo, hi, hae⟩ := exists_hasEnds ha hall.1 hfinite
  obtain ⟨lo', hi', hbe⟩ := exists_hasEnds hb hall.2 hfinite'
  obtain ⟨hlo, hhi⟩ := hae.denotes_int.1 hx
  obtain ⟨hlo', hhi'⟩ := hbe.denotes_int.1 hy
  obtain ⟨hwl, hwh⟩ := within_of_ends hbound hsa hae.ends
  obtain ⟨hwl', hwh'⟩ := within_of_ends hbound hsb hbe.ends
  have hle := value_add_le_int hwl hwl' (hae.isNaN_add_lo hbe) hlo hlo'
  have hle' := int_le_value_add hwh hwh' (hae.isNaN_add_hi hbe) hhi hhi'
  by_cases hliteral : a.literal? = none ∨ b.literal? = none
  · rw [addOne_eq_addRanges hae hbe hliteral, denotesSome_addRanges (allWellFormed_hull _ _ _) hp,
      denotesSome_hull (hae.isNaN_add_lo hbe) (hae.isNaN_add_hi hbe)]
    exact Or.inl ⟨fun _ => ⟨_, rfl⟩, hle, hle'⟩
  · obtain ⟨⟨v, rfl⟩, w, rfl⟩ := exists_literals_of_not hliteral
    cases hae.ends
    cases hbe.ends
    exact denotesSome_singleton.2 (exact_eq_some.2 ⟨hae.isNaN_add_lo hbe, le_antisymm hle hle'⟩)

/-- An integer up to the sum of two whole bounds is a sum of integers up to the bounds. -/
theorem exists_split_up (hhi : hi.isWhole = true) (hhi' : hi'.isWhole = true)
    (hwithin : hi.within (2 ^ 52) = true) (hwithin' : hi'.within (2 ^ 52) = true)
    (hx : int i ≤ hi.value) (hy : int j ≤ hi'.value) (hle : i + j ≤ z)
    (hz : int z ≤ (hi + hi').value) :
    ∃ x y, i ≤ x ∧ j ≤ y ∧ int x ≤ hi.value ∧ int y ≤ hi'.value ∧ x + y = z := by
  by_cases h : int (z - j) ≤ hi.value
  · exact ⟨z - j, j, by omega, le_rfl, h, hy, by omega⟩
  rcases value_of_isWhole hhi with rfl | rfl | ⟨hf, k, hk⟩
  · exact absurd hx (not_le.2 (bot_lt_rat _))
  · exact absurd le_top h
  rw [hk, int_le_int] at h hx
  refine ⟨k, z - k, hx, by omega, hk.ge, ?_, by omega⟩
  rcases value_of_isWhole hhi' with rfl | rfl | ⟨hf', l, hl⟩
  · exact absurd hy (not_le.2 (bot_lt_rat _))
  · exact le_top
  · have hbound := natAbs_le_of_within hwithin hf hk
    have hbound' := natAbs_le_of_within hwithin' hf' hl
    rw [value_add_int hf hf' hk hl (by omega), int_le_int] at hz
    rw [hl, int_le_int]
    omega

theorem exists_split_down (hlo : lo.isWhole = true) (hlo' : lo'.isWhole = true)
    (hwithin : lo.within (2 ^ 52) = true) (hwithin' : lo'.within (2 ^ 52) = true)
    (hx : lo.value ≤ int i) (hy : lo'.value ≤ int j) (hle : z ≤ i + j)
    (hnan : (lo + lo').isNaN = false) (hz : (lo + lo').value ≤ int z) :
    ∃ x y, x ≤ i ∧ y ≤ j ∧ lo.value ≤ int x ∧ lo'.value ≤ int y ∧ x + y = z := by
  have hopposite : ∀ {v : Binary64} {k : ℤ}, v.isWhole = true →
      (int (-k) ≤ (-v).value ↔ v.value ≤ int k) := by
    intro v k hv
    rw [value_neg (isNaN_of_isWhole hv), ← opposite_int, opposite_le_opposite]
  have hsum := exact_neg_add_neg lo lo'
  rw [exact_eq_some.2 ⟨hnan, rfl⟩, Option.map_some, exact_eq_some] at hsum
  obtain ⟨x, y, h1, h2, h3, h4, h5⟩ := exists_split_up (i := -i) (j := -j) (z := -z)
    ((isWhole_neg lo).trans hlo) ((isWhole_neg lo').trans hlo') (by rwa [within_neg])
    (by rwa [within_neg]) ((hopposite hlo).2 hx) ((hopposite hlo').2 hy) (by omega)
    (by rw [hsum.2, ← opposite_int]; exact opposite_antitone hz)
  exact ⟨-x, -y, by omega, by omega, (hopposite hlo).1 (by rwa [Int.neg_neg]),
    (hopposite hlo').1 (by rwa [Int.neg_neg]), by omega⟩

/-- Sets of integers have integers for sums, between the sums of their ends. -/
theorem between_of_addOne (hbound : bound + 1 ≤ 2 ^ 52) (hsa : a.isSteadyTo bound = true)
    (hsb : b.isSteadyTo bound = true) (hia : a.isIntegral = true)
    (hib : b.isIntegral = true) (hae : a.HasEnds lo hi) (hbe : b.HasEnds lo' hi')
    (hp : Unpassed p) (h : DenotesSome (addOne a b) p) :
    ∃ z, p = some (int z) ∧ (lo + lo').value ≤ int z ∧ int z ≤ (hi + hi').value := by
  by_cases hliteral : a.literal? = none ∨ b.literal? = none
  · rw [addOne_eq_addRanges hae hbe hliteral, denotesSome_addRanges (allWellFormed_hull _ _ _) hp,
      hia, hib, Bool.and_self] at h
    have hmeet : meetInfinities a b = false := by
      have hlacks : ∀ s, a.has (.infinity s) = false := fun s =>
        Bool.eq_false_iff.2 fun hs => by cases isInteger_of_isIntegral hia hs
      have hneg : a.has .negInf = false := hlacks true
      have hpos : a.has .posInf = false := hlacks false
      rw [meetInfinities, hneg, hpos, Bool.false_and, Bool.false_and, Bool.or_self]
    rw [hmeet] at h
    replace h := h.resolve_right fun h => absurd h.1 Bool.false_ne_true
    cases p with
    | none => exact absurd h not_denotesSome_hull
    | some q =>
      obtain ⟨hint, h1, h2⟩ := (denotesSome_hull (hae.isNaN_add_lo hbe) (hae.isNaN_add_hi hbe)).1 h
      obtain ⟨z, rfl⟩ := hint rfl
      exact ⟨z, rfl, h1, h2⟩
  · obtain ⟨⟨v, rfl⟩, w, rfl⟩ := exists_literals_of_not hliteral
    cases hae.ends
    cases hbe.ends
    obtain ⟨hf, k, hk⟩ := isInteger_iff_value.1 hia
    obtain ⟨hf', l, hl⟩ := isInteger_iff_value.1 hib
    have hbound := natAbs_le_of_within hsa hf hk
    have hbound' := natAbs_le_of_within hsb hf' hl
    have hsum := value_add_int hf hf' hk hl (by omega)
    refine ⟨k + l, ?_, hsum.le, hsum.ge⟩
    rw [← denotes_literal.1 (denotesSome_singleton.1 h), exact_eq_some]
    exact ⟨hae.isNaN_add_lo hbe, hsum⟩

/-- The sums of two small sets of integers are sums of their integers. -/
theorem exists_int_of_addOne (hbound : bound + 1 ≤ 2 ^ 52) (ha : a.wellFormed = true)
    (hb : b.wellFormed = true) (hsa : a.isSteadyTo bound = true) (hsb : b.isSteadyTo bound = true)
    (hia : a.isIntegral = true)
    (hib : b.isIntegral = true) (hp : Unpassed p) (h : DenotesSome (addOne a b) p) :
    ∃ x y : ℤ, p = some (int (x + y)) ∧ a.Denotes (some (int x)) ∧ b.Denotes (some (int y)) := by
  obtain ⟨lo, hi, hae⟩ := exists_hasEnds_of_isIntegral ha hia
  obtain ⟨lo', hi', hbe⟩ := exists_hasEnds_of_isIntegral hb hib
  obtain ⟨hlo, hhi⟩ := isWhole_of_isIntegral ha hia hae
  obtain ⟨hlo', hhi'⟩ := isWhole_of_isIntegral hb hib hbe
  obtain ⟨hwl, hwh⟩ := within_of_ends hbound hsa hae.ends
  obtain ⟨hwl', hwh'⟩ := within_of_ends hbound hsb hbe.ends
  obtain ⟨z, rfl, hz, hz'⟩ := between_of_addOne hbound hsa hsb hia hib hae hbe hp h
  obtain ⟨i, hi⟩ := exists_int_of_isIntegral ha hia
  obtain ⟨j, hj⟩ := exists_int_of_isIntegral hb hib
  obtain ⟨hlx, hxh⟩ := hae.denotes_int.1 hi
  obtain ⟨hly, hyh⟩ := hbe.denotes_int.1 hj
  simp only [hae.denotes_int, hbe.denotes_int, Option.some.injEq]
  rcases le_total (i + j) z with hle | hle
  · obtain ⟨x, y, hx, hy, hxh, hyh, rfl⟩ :=
      exists_split_up hhi hhi' hwh hwh' hxh hyh hle hz'
    exact ⟨x, y, rfl, ⟨hlx.trans (int_le_int.2 hx), hxh⟩, hly.trans (int_le_int.2 hy), hyh⟩
  · obtain ⟨x, y, hx, hy, hlx, hly, rfl⟩ :=
      exists_split_down hlo hlo' hwl hwl' hlx hly hle (hae.isNaN_add_lo hbe) hz
    exact ⟨x, y, rfl, ⟨hlx, (int_le_int.2 hx).trans hxh⟩, hly, (int_le_int.2 hy).trans hyh⟩

end NumberSet

end FlowTypes
