import FlowTypes.Proofs.ArithmeticSoundness
import FlowTypes.Proofs.SteadyArithmetic

/-!
# Minima of two sets

The minimum of two sets of numbers has no numbers but those of the operands. Below positive infinity
it has a number of either set exactly if the other set reaches it, with a number that is at least as
large (`denotesSome_minimumOne`). This is shown for each pair of kinds of sets, of points that no
step by one passes (`NumberSet.Settled`) : doubles, whatever the bounds of the sets, or any points
between small bounds. NaN is in the minimum if it is in an operand (`denotesSome_minimumOne_nan`).

So minima of two numbers of the sets are in it (`hasSome_minimumOne`), and every double in it is one
(`exists_minNumber`), apart from positive infinity : a real interval in the minimum may end there,
though a range of integers among the operands does not hold it.
-/

namespace FlowTypes

open ExtendedRat Binary64

/-- An extended rational other than the greatest is at most some integer. -/
theorem ExtendedRat.exists_le_int {q : ExtendedRat} (hq : q ≠ ⊤) : ∃ z : ℤ, q ≤ int z := by
  induction q using WithBotTop.rec with
  | bot => exact ⟨0, bot_le⟩
  | coe r => exact ⟨⌈r⌉, WithBotTop.coe_le_coe.2 (Int.le_ceil r)⟩
  | top => exact absurd rfl hq

namespace NumberSet

/-! ## Points of lists of sets -/

/-- Is the point in one of the sets? -/
def DenotesSome (ns : List NumberSet) (p : Option ExtendedRat) : Prop := ∃ n ∈ ns, n.Denotes p

variable {a b n : NumberSet} {ns ms : List NumberSet} {p : Option ExtendedRat} {q : ExtendedRat}
  {v lo hi lo' hi' : Binary64} {bound : ℕ}

theorem denotesSome_singleton : DenotesSome [n] p ↔ n.Denotes p := by
  simp [DenotesSome]

theorem denotesSome_cons : DenotesSome (n :: ns) p ↔ n.Denotes p ∨ DenotesSome ns p := by
  simp [DenotesSome]

theorem denotesSome_append : DenotesSome (ns ++ ms) p ↔ DenotesSome ns p ∨ DenotesSome ms p := by
  simp [DenotesSome, or_and_right, exists_or]

theorem denotesSome_interval? (hlo : lo.isNaN = false) (hhi : hi.isNaN = false) :
    DenotesSome (interval? lo hi).toList (some q) ↔ lo.value ≤ q ∧ q ≤ hi.value := by
  simpa [DenotesSome, Option.mem_toList] using denotes_interval? hlo hhi (some q)

/-- Is the number an integer? -/
def IsInt (q : ExtendedRat) : Prop := ∃ z : ℤ, q = int z

theorem exists_int_iff {P : ExtendedRat → Prop} :
    (∃ z : ℤ, some q = some (int z) ∧ P (int z)) ↔ IsInt q ∧ P q := by
  constructor
  · rintro ⟨z, he, h⟩
    cases he
    exact ⟨⟨z, rfl⟩, h⟩
  · rintro ⟨⟨z, rfl⟩, h⟩
    exact ⟨z, rfl, h⟩

theorem denotes_integers_some :
    (integers lo hi).Denotes (some q) ↔ IsInt q ∧ lo.value ≤ q ∧ q ≤ hi.value :=
  exists_int_iff (P := fun q => lo.value ≤ q ∧ q ≤ hi.value)

theorem denotesSome_integers? (hlo : lo.isNaN = false) (hhi : hi.isNaN = false) :
    DenotesSome (integers? lo hi).toList (some q) ↔ IsInt q ∧ lo.value ≤ q ∧ q ≤ hi.value := by
  rw [← exists_int_iff (P := fun q => lo.value ≤ q ∧ q ≤ hi.value)]
  simpa [DenotesSome, Option.mem_toList] using denotes_integers? hlo hhi (some q)

theorem isInt_of_isWhole {v : Binary64} (hv : v.isWhole = true) (h : ⊥ < v.value)
    (h' : v.value < ⊤) : IsInt v.value := by
  rcases value_of_isWhole hv with rfl | rfl | ⟨-, k, hk⟩
  · exact absurd h (lt_irrefl _)
  · exact absurd h' (lt_irrefl _)
  · exact ⟨k, hk⟩

/-- A double is a member of some of the sets exactly if the point it stands for is. -/
theorem hasSome_iff_denotesSome (hns : AllWellFormed ns) (x : Binary64) :
    HasSome ns x ↔ DenotesSome ns x.exact :=
  exists_congr fun n => and_congr_right fun hn => has_iff_denotes (hns n hn) x

/-- No step by one passes the point : it is a double, or the bounds of the sets are small. -/
def Settled (bound : ℕ) (p : Option ExtendedRat) (ns : List NumberSet) : Prop :=
  (∃ x : Binary64, x.exact = p) ∨ AllSteady bound ns

/-- Canonical forms keep a point that no step passes. -/
theorem denotesSome_canonical (hbound : bound + 2 ≤ 2 ^ 53) (hns : AllWellFormed ns)
    (hp : Settled bound p ns) : DenotesSome (canonical ns) p ↔ DenotesSome ns p := by
  refine denotes_canonical hns ?_
  obtain ⟨x, rfl⟩ | hsteady := hp
  · exact resolved_exact x hns
  · exact resolved_of_isSteady hns (fun n hn => isSteady_of_isSteadyTo hbound (hsteady n hn)) p

/-- A range holds no NaN. -/
theorem not_denotesSome_interval? : ¬DenotesSome (interval? lo hi).toList none := by
  rintro ⟨n, hn, hp⟩
  have hle : lo ≤ hi := by
    by_contra hle
    simp [interval?, hle] at hn
  obtain ⟨hlo, hhi, -⟩ := le_iff.1 hle
  obtain ⟨q, hq, -⟩ := (denotes_interval? hlo hhi none).1 ⟨n, Option.mem_toList.1 hn, hp⟩
  cases hq

theorem not_denotesSome_integers? : ¬DenotesSome (integers? lo hi).toList none := by
  rintro ⟨n, hn, hp⟩
  have hle : lo.ceil ≤ hi.floor := by
    by_contra hle
    simp [integers?, hle] at hn
  obtain ⟨hlo, hhi, -⟩ := le_iff.1 hle
  rw [isNaN_ceil] at hlo
  rw [isNaN_floor] at hhi
  obtain ⟨q, hq, -⟩ := (denotes_integers? hlo hhi none).1 ⟨n, Option.mem_toList.1 hn, hp⟩
  cases hq

/-! ## Upper ends -/

/-- Has the set a point that is at least the given one? -/
def Reaches (n : NumberSet) (q : ExtendedRat) : Prop := ∃ q', n.Denotes (some q') ∧ q ≤ q'

theorem reaches_all : all.Reaches q :=
  ⟨q, trivial, le_refl q⟩

theorem reaches_literal : (literal v).Reaches q ↔ v.isNaN = false ∧ q ≤ v.value := by
  simp only [Reaches, denotes_literal, exact_eq_some]
  constructor
  · rintro ⟨_, ⟨hv, rfl⟩, h⟩
    exact ⟨hv, h⟩
  · exact fun ⟨hv, h⟩ => ⟨v.value, ⟨hv, rfl⟩, h⟩

theorem reaches_interval (hn : (interval lo hi).wellFormed = true) :
    (interval lo hi).Reaches q ↔ q ≤ hi.value := by
  constructor
  · rintro ⟨_, ⟨q', he, -, h'⟩, h⟩
    cases he
    exact h.trans h'
  · exact fun h => ⟨hi.value, ⟨_, rfl, (lt_of_wellFormed_interval hn).2.2.le, le_refl _⟩, h⟩

/-- Integers reach as far as their upper bound, but for the infinite one itself. -/
theorem reaches_integers (hn : (integers lo hi).wellFormed = true) (hq : q ≠ ⊤) :
    (integers lo hi).Reaches q ↔ q ≤ hi.value := by
  obtain ⟨hlo, hhi, hlt⟩ := whole_of_wellFormed_integers hn
  constructor
  · rintro ⟨_, ⟨z, he, -, h'⟩, h⟩
    cases he
    exact h.trans h'
  · intro h
    rcases value_of_isWhole hhi with rfl | rfl | ⟨-, k, hk⟩
    · exact absurd hlt not_lt_bot
    · obtain ⟨z, hz⟩ := exists_le_int (q := max q lo.value) (by
        rcases max_choice q lo.value with h | h <;> rw [h]
        exacts [hq, hlt.ne_top])
      exact ⟨int z, ⟨z, rfl, (le_max_right _ _).trans hz, le_top⟩, (le_max_left _ _).trans hz⟩
    · exact ⟨int k, ⟨k, rfl, hk ▸ hlt.le, hk.ge⟩, hk ▸ h⟩

/-- Is the number in one of the sets, and does the other one reach it? -/
def IsMinimum (a b : NumberSet) (q : ExtendedRat) : Prop :=
  a.Denotes (some q) ∧ b.Reaches q ∨ b.Denotes (some q) ∧ a.Reaches q

theorem isMinimum_comm : IsMinimum a b q ↔ IsMinimum b a q := or_comm

/-! ## Minima of two sets -/

/-- NaN and the numbers up to a bound. -/
theorem denotesSome_upTo (hbound : bound + 2 ≤ 2 ^ 53) (hv : v.isNaN = false)
    (hp : (∃ x : Binary64, x.exact = some q) ∨ v.within bound = true) :
    DenotesSome (canonical (literal .nan :: (interval? .negInf v).toList)) (some q) ↔
      q ≤ v.value := by
  have hnan : (nan.exact : Option ExtendedRat) ≠ some q := by simp [exact, isNaN]
  have hbot : negInf.value = ⊥ := rfl
  rw [denotesSome_canonical hbound (by simp), denotesSome_cons, denotesSome_interval? rfl hv,
    denotes_literal, hbot]
  · simp [hnan]
  · refine hp.imp_right fun hv => List.forall_mem_cons.2 ⟨rfl, fun n hn => ?_⟩
    exact isSteadyTo_interval? rfl hv (Option.mem_toList.1 hn)

theorem minNumber_of_isNaN {v w : Binary64} (h : v.isNaN = true ∨ w.isNaN = true) :
    v.minNumber w = nan := by
  rw [minNumber, if_pos (by simpa using h)]

section Literal

variable (hv : v.isNaN = false) (htop : v ≠ posInf)
include hv htop

theorem denotesSome_minimumLiteral_interval (hn : (interval lo hi).wellFormed = true) :
    DenotesSome (minimumLiteral v (interval lo hi)) (some q) ↔
      IsMinimum (literal v) (interval lo hi) q := by
  obtain ⟨hlo, hhi, hlt⟩ := lt_of_wellFormed_interval hn
  simp only [minimumLiteral, hv, htop, Bool.false_eq_true, if_false, le_iff_value, hlo, hhi,
    true_and, IsMinimum, reaches_literal, reaches_interval hn, denotes_literal, exact_eq_some,
    denotes_interval_some]
  split_ifs with h h'
  · rw [denotesSome_singleton, denotes_literal, exact_eq_some]
    grind
  · rw [denotesSome_singleton, denotes_interval_some]
    grind
  · rw [denotesSome_interval? hlo hv]
    grind

theorem denotesSome_minimumLiteral_integers (hbound : bound + 3 ≤ 2 ^ 53)
    (hn : (integers lo hi).wellFormed = true)
    (hp : Settled bound (some q) [literal v, integers lo hi]) (hq : q ≠ ⊤) :
    DenotesSome (minimumLiteral v (integers lo hi)) (some q) ↔
      IsMinimum (literal v) (integers lo hi) q := by
  obtain ⟨hlow, hhiw, hlt⟩ := whole_of_wellFormed_integers hn
  have hlo := isNaN_of_isWhole hlow
  have hhi := isNaN_of_isWhole hhiw
  have hint : hi.value = q → IsInt q := by
    rintro rfl
    exact isInt_of_isWhole hhiw hlt.bot_lt (lt_top_iff_ne_top.2 hq)
  simp only [minimumLiteral, hv, htop, Bool.false_eq_true, if_false, le_iff_value, hlo, hhi,
    true_and, IsMinimum, reaches_literal, reaches_integers hn hq, denotes_literal, exact_eq_some,
    denotes_integers_some]
  split_ifs with h h' h''
  · rw [denotesSome_singleton, denotes_literal, exact_eq_some]
    grind
  · rw [denotesSome_singleton, denotes_integers_some]
    grind
  · obtain ⟨-, k, hk⟩ := isInteger_iff_value.1 h''
    have hvint : IsInt v.value := ⟨k, hk⟩
    rw [denotesSome_integers? hlo hv]
    grind
  · have hfloor : IsInt q → (q ≤ v.floor.value ↔ q ≤ v.value) := by
      rintro ⟨z, rfl⟩
      exact int_le_value_floor v z
    have hsettled : Settled bound (some q) ((integers? lo v.floor).toList ++ [literal v]) := by
      refine hp.imp_right fun hsteady => ?_
      simp only [allSteady_cons, isSteadyTo, Bool.and_eq_true] at hsteady
      obtain ⟨hvb, ⟨hlob, -⟩, -⟩ := hsteady
      exact allSteady_append.2
        ⟨allSteady_integers? hlob (within_floor hvb), List.forall_mem_singleton.2 hvb⟩
    rw [denotesSome_canonical (by omega) (by simp) hsettled, denotesSome_append,
      denotesSome_integers? hlo (isNaN_floor v ▸ hv), denotesSome_singleton, denotes_literal,
      exact_eq_some]
    grind

theorem denotesSome_minimumLiteral_literal {w : Binary64} :
    DenotesSome (minimumLiteral v (literal w)) (some q) ↔
      IsMinimum (literal v) (literal w) q := by
  simp only [minimumLiteral, hv, htop, Bool.false_eq_true, if_false, IsMinimum, reaches_literal,
    denotesSome_singleton, denotes_literal, exact_eq_some, true_and]
  cases hw : w.isNaN with
  | true => simp [minNumber_of_isNaN (.inr hw), isNaN]
  | false =>
    obtain ⟨hmin, hval⟩ := minNumber_spec hv hw
    simp only [hmin, hval, true_and]
    grind

end Literal

theorem denotesSome_minimumLiteral (hn : n.wellFormed = true) (hbound : bound + 3 ≤ 2 ^ 53)
    (hp : Settled bound (some q) [literal v, n]) (hq : q ≠ ⊤) :
    DenotesSome (minimumLiteral v n) (some q) ↔ IsMinimum (literal v) n q := by
  cases hv : v.isNaN with
  | true =>
    obtain rfl := eq_nan_of_isNaN hv
    simp [minimumLiteral, IsMinimum, reaches_literal, denotesSome_singleton, denotes_literal, exact,
      isNaN]
  | false =>
    rcases eq_or_ne v posInf with rfl | htop
    · have htop : posInf.value = ⊤ := rfl
      have hposInf : posInf.isNaN = false := rfl
      simp [minimumLiteral, IsMinimum, reaches_literal, denotesSome_singleton, denotes_literal,
        exact, hposInf, htop, hq.symm]
    cases n with
    | literal w => exact denotesSome_minimumLiteral_literal hv htop
    | interval lo hi => exact denotesSome_minimumLiteral_interval hv htop hn
    | integers lo hi => exact denotesSome_minimumLiteral_integers hv htop hbound hn hp hq
    | all =>
      simp only [minimumLiteral, hv, htop, Bool.false_eq_true, if_false, IsMinimum,
        reaches_literal, reaches_all, exact_eq_some, and_true, Denotes, true_and]
      have hvb : (∃ x : Binary64, x.exact = some q) ∨ v.within (bound + 1) = true :=
        hp.imp_right fun hsteady => hsteady _ List.mem_cons_self
      rw [denotesSome_upTo (by omega) hv hvb]
      grind

/-- All numbers and those of a range : any number that the range reaches is a minimum. -/
theorem denotesSome_minimumAll (hn : n.wellFormed = true) (hliteral : n.literal? = none)
    (hbound : bound + 3 ≤ 2 ^ 53) (hp : Settled bound (some q) [n]) (hq : q ≠ ⊤) :
    DenotesSome (minimumAll n) (some q) ↔ IsMinimum all n q := by
  have htop : (posInf).value = ⊤ := rfl
  cases n with
  | all => simp [minimumAll, bounds?, IsMinimum, reaches_all, denotesSome_singleton, Denotes]
  | literal v => cases hliteral
  | interval lo hi =>
    obtain ⟨-, hhi, -⟩ := lt_of_wellFormed_interval hn
    simp only [minimumAll, bounds?, IsMinimum, reaches_all, reaches_interval hn, and_true,
      denotes_interval_some]
    split_ifs with h
    · subst h
      simp [denotesSome_singleton, Denotes, htop]
    · have hhib : (∃ x : Binary64, x.exact = some q) ∨ hi.within bound = true :=
        hp.imp_right fun hsteady => by
          simp only [allSteady_cons, isSteadyTo, Bool.and_eq_true] at hsteady
          exact hsteady.1.2
      rw [denotesSome_upTo (by omega) hhi hhib]
      simp only [Denotes, true_and]
      grind
  | integers lo hi =>
    obtain ⟨-, hhiw, -⟩ := whole_of_wellFormed_integers hn
    simp only [minimumAll, bounds?, IsMinimum, reaches_all, reaches_integers hn hq, and_true,
      denotes_integers_some]
    split_ifs with h
    · subst h
      simp [denotesSome_singleton, Denotes, htop]
    · have hhib : (∃ x : Binary64, x.exact = some q) ∨ hi.within (bound + 1) = true :=
        hp.imp_right fun hsteady => by
          simp only [allSteady_cons, isSteadyTo, Bool.and_eq_true] at hsteady
          exact hsteady.1.2
      rw [denotesSome_upTo (by omega) (isNaN_of_isWhole hhiw) hhib]
      simp only [Denotes, true_and]
      grind

theorem denotesSome_minimumIntegers (ha : (integers lo hi).wellFormed = true)
    (hb : (integers lo' hi').wellFormed = true) (hq : q ≠ ⊤) :
    DenotesSome (minimumIntegers lo hi lo' hi') (some q) ↔
      IsMinimum (integers lo hi) (integers lo' hi') q := by
  obtain ⟨hlo, hhi, hlt⟩ := whole_of_wellFormed_integers ha
  obtain ⟨hlo', hhi', hlt'⟩ := whole_of_wellFormed_integers hb
  replace hlo := isNaN_of_isWhole hlo
  replace hhi := isNaN_of_isWhole hhi
  replace hlo' := isNaN_of_isWhole hlo'
  replace hhi' := isNaN_of_isWhole hhi'
  obtain ⟨hmin, hval⟩ := minNumber_spec hlo hlo'
  obtain ⟨hmin', hval'⟩ := minNumber_spec hhi hhi'
  simp only [minimumIntegers, le_iff_value, hlo, hhi, hlo', hhi', true_and, IsMinimum,
    reaches_integers ha hq, reaches_integers hb hq, denotes_integers_some]
  split_ifs with h h'
  · rw [denotesSome_integers? hlo hhi]
    grind
  · rw [denotesSome_integers? hlo' hhi']
    grind
  · rw [denotesSome_integers? hmin hmin', hval, hval', min_le_iff, le_min_iff]
    grind

/-- An integer below a real range is at most the last one before it, as far as steps go. -/
theorem le_value_last {lo : Binary64} (hbound : bound + 3 ≤ 2 ^ 53)
    (hp : (∃ x : Binary64, x.exact = some q) ∨ lo.within bound = true) (hq : IsInt q)
    (hlt : q < lo.value) : q ≤ (if lo.isInteger then lo - .one else lo.floor).value := by
  obtain ⟨z, rfl⟩ := hq
  split_ifs with h
  · have hw := isWhole_of_isInteger h
    rcases hp with ⟨x, hx⟩ | hlob
    · exact (soundStep_of_exact hx hw).down hlt
    · exact (soundStep_of_within hw (within_mono (by omega) hlob) z).down hlt
  · exact (int_le_value_floor lo z).2 hlt.le

theorem value_last_le {lo : Binary64} (hlo : lo.isNaN = false) :
    (if lo.isInteger then lo - .one else lo.floor).isNaN = false ∧
      (if lo.isInteger then lo - .one else lo.floor).value ≤ lo.value := by
  split_ifs with h
  · have hw := isWhole_of_isInteger h
    exact ⟨isNaN_of_isWhole (isWhole_sub_one hw), value_sub_one_le hw⟩
  · exact ⟨isNaN_floor lo ▸ hlo, value_floor_le lo⟩

theorem denotesSome_minimumMixed (ha : (integers lo hi).wellFormed = true)
    (hb : (interval lo' hi').wellFormed = true) (hbound : bound + 3 ≤ 2 ^ 53)
    (hp : Settled bound (some q) [integers lo hi, interval lo' hi']) (hq : q ≠ ⊤) :
    DenotesSome (minimumMixed lo hi lo' hi') (some q) ↔
      IsMinimum (integers lo hi) (interval lo' hi') q := by
  obtain ⟨hlow, hhiw, hlt⟩ := whole_of_wellFormed_integers ha
  obtain ⟨hlo', hhi', hlt'⟩ := lt_of_wellFormed_interval hb
  have hlo := isNaN_of_isWhole hlow
  have hhi := isNaN_of_isWhole hhiw
  have hint : hi.value = q → IsInt q := by
    rintro rfl
    exact isInt_of_isWhole hhiw hlt.bot_lt (lt_top_iff_ne_top.2 hq)
  obtain ⟨hmin, hval⟩ := minNumber_spec hhi hhi'
  have hreals := denotesSome_interval? (q := q) hlo' hmin
  rw [hval, le_min_iff] at hreals
  simp only [minimumMixed, le_iff_value, hlo, hhi, hlo', hhi', true_and, IsMinimum,
    reaches_integers ha hq, reaches_interval hb, denotes_integers_some, denotes_interval_some]
  split
  · rw [denotesSome_integers? hlo hhi]
    grind
  split
  · rw [denotesSome_interval? hlo' hhi']
    grind
  split
  · rw [hreals]
    grind
  · have hlo'b : (∃ x : Binary64, x.exact = some q) ∨ lo'.within bound = true :=
      hp.imp_right fun hsteady => by
        simp only [allSteady_cons, isSteadyTo, Bool.and_eq_true] at hsteady
        exact hsteady.2.1.1
    have hlast := le_value_last hbound hlo'b
    obtain ⟨hlastn, hlast'⟩ := value_last_le hlo'
    have hsettled : Settled (bound + 1) (some q)
        ((integers? lo (if lo'.isInteger then lo' - .one else lo'.floor)).toList
          ++ (interval? lo' (hi.minNumber hi')).toList) :=
      hp.imp_right fun hsteady => allSteady_lastAndReals (by omega) (hsteady _ List.mem_cons_self)
        (hsteady _ (List.mem_cons_of_mem _ List.mem_cons_self))
    rw [denotesSome_canonical (by omega) (by simp) hsettled, denotesSome_append,
      denotesSome_integers? hlo hlastn, hreals]
    grind

theorem denotesSome_minimumIntervals (ha : (interval lo hi).wellFormed = true)
    (hb : (interval lo' hi').wellFormed = true) :
    DenotesSome (interval? (lo.minNumber lo') (hi.minNumber hi')).toList (some q) ↔
      IsMinimum (interval lo hi) (interval lo' hi') q := by
  obtain ⟨hlo, hhi, hlt⟩ := lt_of_wellFormed_interval ha
  obtain ⟨hlo', hhi', hlt'⟩ := lt_of_wellFormed_interval hb
  obtain ⟨hmin, hval⟩ := minNumber_spec hlo hlo'
  obtain ⟨hmin', hval'⟩ := minNumber_spec hhi hhi'
  rw [denotesSome_interval? hmin hmin', hval, hval', min_le_iff, le_min_iff, IsMinimum,
    reaches_interval ha, reaches_interval hb, denotes_interval_some, denotes_interval_some]
  grind

theorem Settled.swap (hp : Settled bound p [a, b]) : Settled bound p [b, a] :=
  hp.imp_right fun hsteady => by
    simp only [allSteady_cons] at hsteady ⊢
    exact ⟨hsteady.2.1, hsteady.1, hsteady.2.2⟩

/-- Below positive infinity, the numbers in the minimum of two sets are those of either set that
the other one reaches. -/
theorem denotesSome_minimumOne (ha : a.wellFormed = true) (hb : b.wellFormed = true)
    (hbound : bound + 3 ≤ 2 ^ 53) (hp : Settled bound (some q) [a, b]) (hq : q ≠ ⊤) :
    DenotesSome (minimumOne a b) (some q) ↔ IsMinimum a b q := by
  have hfirst : Settled bound (some q) [a] :=
    hp.swap.imp_right fun hsteady => (allSteady_cons.1 hsteady).2
  have hsecond : Settled bound (some q) [b] :=
    hp.imp_right fun hsteady => (allSteady_cons.1 hsteady).2
  cases a with
  | literal v => exact denotesSome_minimumLiteral hb hbound hp hq
  | all =>
    cases b with
    | literal w => exact (denotesSome_minimumLiteral ha hbound hp.swap hq).trans isMinimum_comm
    | _ => exact denotesSome_minimumAll hb rfl hbound hsecond hq
  | interval lo hi =>
    cases b with
    | literal w => exact (denotesSome_minimumLiteral ha hbound hp.swap hq).trans isMinimum_comm
    | all => exact (denotesSome_minimumAll ha rfl hbound hfirst hq).trans isMinimum_comm
    | interval lo' hi' => exact denotesSome_minimumIntervals ha hb
    | integers lo' hi' =>
      exact (denotesSome_minimumMixed hb ha hbound hp.swap hq).trans isMinimum_comm
  | integers lo hi =>
    cases b with
    | literal w => exact (denotesSome_minimumLiteral ha hbound hp.swap hq).trans isMinimum_comm
    | all => exact (denotesSome_minimumAll ha rfl hbound hfirst hq).trans isMinimum_comm
    | interval lo' hi' => exact denotesSome_minimumMixed ha hb hbound hp hq
    | integers lo' hi' => exact denotesSome_minimumIntegers ha hb hq

/-! ## NaN and positive infinity -/

theorem denotesSome_canonical_nan (hns : AllWellFormed ns) :
    DenotesSome (canonical ns) none ↔ DenotesSome ns none :=
  denotes_canonical hns (resolved_exact .nan hns)

theorem denotesSome_minimumLiteral_nan :
    DenotesSome (minimumLiteral v n) none ↔ v = .nan ∨ n.Denotes none := by
  unfold minimumLiteral
  split
  · next hv =>
    obtain rfl := eq_nan_of_isNaN hv
    simp [denotesSome_singleton, denotes_none_iff]
  next hv =>
  have hne : v ≠ .nan := fun h => hv (h ▸ rfl)
  rw [or_iff_right hne]
  split
  · rw [denotesSome_singleton]
  cases n with
  | all =>
    refine iff_of_true ((denotesSome_canonical_nan (by simp)).2 (denotesSome_cons.2 ?_)) trivial
    exact .inl rfl
  | literal w =>
    rw [denotesSome_singleton, denotes_literal, denotes_literal, exact_eq_none, exact_eq_none]
    cases hw : w.isNaN with
    | true => simp [minNumber_of_isNaN (.inr hw), isNaN]
    | false => simp [(minNumber_spec (Bool.of_not_eq_true hv) hw).1]
  | interval lo hi =>
    refine iff_of_false ?_ (by simp [Denotes])
    dsimp only
    split_ifs
    · simp [denotesSome_singleton, denotes_none_iff, hne]
    · simp [denotesSome_singleton, denotes_none_iff]
    · exact not_denotesSome_interval?
  | integers lo hi =>
    refine iff_of_false ?_ (by simp [Denotes])
    dsimp only
    split_ifs
    · simp [denotesSome_singleton, denotes_none_iff, hne]
    · simp [denotesSome_singleton, denotes_none_iff]
    · exact not_denotesSome_integers?
    · rw [denotesSome_canonical_nan (by simp), denotesSome_append, not_or]
      exact ⟨not_denotesSome_integers?, by simp [denotesSome_singleton, denotes_none_iff, hne]⟩

theorem denotesSome_minimumAll_nan (n : NumberSet) : DenotesSome (minimumAll n) none := by
  unfold minimumAll
  split
  · split
    · exact denotesSome_singleton.2 trivial
    · exact (denotesSome_canonical_nan (by simp)).2 (denotesSome_cons.2 (.inl rfl))
  · exact denotesSome_singleton.2 trivial

theorem not_denotesSome_minimumMixed_nan :
    ¬DenotesSome (minimumMixed lo hi lo' hi') none := by
  unfold minimumMixed
  split
  · exact not_denotesSome_integers?
  split
  · exact not_denotesSome_interval?
  split
  · exact not_denotesSome_interval?
  · rw [denotesSome_canonical_nan (by simp), denotesSome_append, not_or]
    exact ⟨not_denotesSome_integers?, not_denotesSome_interval?⟩

theorem not_denotesSome_minimumIntegers_nan :
    ¬DenotesSome (minimumIntegers lo hi lo' hi') none := by
  unfold minimumIntegers
  split_ifs <;> exact not_denotesSome_integers?

/-- NaN is a minimum if one of the two is NaN. -/
theorem denotesSome_minimumOne_nan :
    DenotesSome (minimumOne a b) none ↔ a.Denotes none ∨ b.Denotes none := by
  have hliteral : ∀ {v : Binary64} {n : NumberSet},
      DenotesSome (minimumLiteral v n) none ↔ (literal v).Denotes none ∨ n.Denotes none := by
    simp [denotesSome_minimumLiteral_nan, denotes_none_iff]
  cases a with
  | literal v => exact hliteral
  | all =>
    cases b with
    | literal w => exact hliteral.trans or_comm
    | all => exact iff_of_true (denotesSome_minimumAll_nan all) (.inl trivial)
    | interval lo hi =>
      exact iff_of_true (denotesSome_minimumAll_nan (interval lo hi)) (.inl trivial)
    | integers lo hi =>
      exact iff_of_true (denotesSome_minimumAll_nan (integers lo hi)) (.inl trivial)
  | interval lo hi =>
    cases b with
    | literal w => exact hliteral.trans or_comm
    | all => exact iff_of_true (denotesSome_minimumAll_nan (interval lo hi)) (.inr trivial)
    | interval lo' hi' => exact iff_of_false not_denotesSome_interval? (by simp [Denotes])
    | integers lo' hi' => exact iff_of_false not_denotesSome_minimumMixed_nan (by simp [Denotes])
  | integers lo hi =>
    cases b with
    | literal w => exact hliteral.trans or_comm
    | all => exact iff_of_true (denotesSome_minimumAll_nan (integers lo hi)) (.inr trivial)
    | interval lo' hi' => exact iff_of_false not_denotesSome_minimumMixed_nan (by simp [Denotes])
    | integers lo' hi' =>
      exact iff_of_false not_denotesSome_minimumIntegers_nan (by simp [Denotes])

/-- The sets with positive infinity. -/
theorem denotes_top_iff (hn : n.wellFormed = true) :
    n.Denotes (some ⊤) ↔ n = all ∨ n = literal .posInf ∨ ∃ lo, n = interval lo .posInf := by
  cases n with
  | all => simp [Denotes]
  | literal v =>
    rw [denotes_literal, exact_eq_some]
    cases hv : v.isNaN with
    | true => simp [eq_nan_of_isNaN hv, posInf]
    | false => simp [Range.value_eq_top hv]
  | interval lo hi =>
    rw [denotes_interval_some, top_le_iff, Range.value_eq_top (lt_of_wellFormed_interval hn).2.1]
    simp
  | integers lo hi =>
    rw [denotes_integers_some]
    simp only [reduceCtorEq, exists_false, or_self, iff_false]
    rintro ⟨⟨z, hz⟩, -⟩
    exact absurd hz.symm (WithBotTop.coe_ne_top _)

/-- Positive infinity is a minimum of two sets that have it. -/
theorem denotesSome_minimumOne_top (ha : a.wellFormed = true) (hb : b.wellFormed = true)
    (h : a.Denotes (some ⊤)) (h' : b.Denotes (some ⊤)) :
    DenotesSome (minimumOne a b) (some ⊤) := by
  have hliteral : ∀ {n : NumberSet}, n.Denotes (some ⊤) →
      DenotesSome (minimumLiteral .posInf n) (some ⊤) := denotesSome_singleton.2
  rcases (denotes_top_iff ha).1 h with rfl | rfl | ⟨lo, rfl⟩
  · rcases (denotes_top_iff hb).1 h' with rfl | rfl | ⟨lo', rfl⟩
    · exact denotesSome_singleton.2 trivial
    · exact hliteral h
    · exact denotesSome_singleton.2 trivial
  · exact hliteral h'
  · rcases (denotes_top_iff hb).1 h' with rfl | rfl | ⟨lo', rfl⟩
    · exact denotesSome_singleton.2 trivial
    · exact hliteral h
    · exact (denotesSome_minimumIntervals ha hb).2 (.inl ⟨h, ⊤, h', le_refl _⟩)

/-! ## Minima of two numbers -/

variable {x y z : Binary64}

theorem exact_minNumber (hx : x.isNaN = false) (hy : y.isNaN = false) :
    (x.minNumber y).exact = some (min x.value y.value) :=
  exact_eq_some.2 (minNumber_spec hx hy)

theorem hasSome_minimumOne (ha : a.wellFormed = true) (hb : b.wellFormed = true)
    (hx : a.has x = true) (hy : b.has y = true) :
    HasSome (minimumOne a b) (x.minNumber y) := by
  rw [hasSome_iff_denotesSome (allWellFormed_minimumOne ha hb)]
  rw [has_iff_denotes ha] at hx
  rw [has_iff_denotes hb] at hy
  rcases hxn : x.isNaN with _ | _
  · rcases hyn : y.isNaN with _ | _
    · rw [exact_minNumber hxn hyn]
      rw [exact_eq_some.2 ⟨hxn, rfl⟩] at hx
      rw [exact_eq_some.2 ⟨hyn, rfl⟩] at hy
      rcases eq_or_ne (min x.value y.value) ⊤ with htop | htop
      · rw [htop]
        rw [min_eq_top] at htop
        exact denotesSome_minimumOne_top ha hb (htop.1 ▸ hx) (htop.2 ▸ hy)
      · have hp : Settled 0 (some (min x.value y.value)) [a, b] :=
          .inl ⟨_, exact_minNumber hxn hyn⟩
        refine (denotesSome_minimumOne ha hb (by norm_num) hp htop).2 ?_
        rcases le_total x.value y.value with hle | hle
        · rw [min_eq_left hle]
          exact .inl ⟨hx, _, hy, hle⟩
        · rw [min_eq_right hle]
          exact .inr ⟨hy, _, hx, hle⟩
    · rw [minNumber_of_isNaN (.inr hyn)]
      exact denotesSome_minimumOne_nan.2 (.inr (exact_eq_none.2 hyn ▸ hy))
  · rw [minNumber_of_isNaN (.inl hxn)]
    exact denotesSome_minimumOne_nan.2 (.inl (exact_eq_none.2 hxn ▸ hx))

/-- A number below positive infinity that a set reaches is at most one of its doubles. -/
theorem exists_has_of_reaches (hn : n.wellFormed = true) (hz : z.isNaN = false)
    (htop : z.value ≠ ⊤) (h : n.Reaches z.value) : ∃ x, n.has x = true ∧ z ≤ x := by
  cases n with
  | all => exact ⟨z, rfl, Binary64.le_refl hz⟩
  | literal v =>
    obtain ⟨hv, hle⟩ := reaches_literal.1 h
    exact ⟨v, same_refl v, le_iff_value.2 ⟨hz, hv, hle⟩⟩
  | interval lo hi =>
    obtain ⟨hlo, hhi, hlt⟩ := lt_of_wellFormed_interval hn
    exact ⟨hi, has_interval.2 ⟨le_iff_value.2 ⟨hlo, hhi, hlt.le⟩, Binary64.le_refl hhi⟩,
      le_iff_value.2 ⟨hz, hhi, (reaches_interval hn).1 h⟩⟩
  | integers lo hi =>
    obtain ⟨hlo, hhi, hlt⟩ := whole_of_wellFormed_integers hn
    have hbounds : ∀ {x : Binary64}, x.isInteger = true → lo.value ≤ x.value →
        z.ceil.value ≤ x.value → x.value ≤ hi.value →
          ∃ x, (integers lo hi).has x = true ∧ z ≤ x := by
      intro x hx h1 h2 h3
      have hxn := isNaN_of_isFinite (isFinite_of_isInteger hx)
      obtain ⟨-, k, hk⟩ := isInteger_iff_value.1 hx
      refine ⟨x, has_integers.2 ⟨hx, le_iff_value.2 ⟨isNaN_of_isWhole hlo, hxn, h1⟩,
        le_iff_value.2 ⟨hxn, isNaN_of_isWhole hhi, h3⟩⟩, le_iff_value.2 ⟨hz, hxn, ?_⟩⟩
      rw [hk] at h2 ⊢
      exact (value_ceil_le_int z k).1 h2
    rcases le_total z.ceil.value lo.value with hle | hle
    · have hwhole : Range.Whole ⟨lo, hi⟩ := ⟨hlo, hhi, hlt.le, hlt.ne_top, hlt.ne_bot⟩
      obtain ⟨x, hx, h1, h2⟩ := hwhole.exists_integer
      exact hbounds hx h1 (hle.trans h1) h2
    · obtain ⟨k, hk⟩ := exists_le_int htop
      have hceil : z.ceil.value ≤ hi.value := by
        rcases value_of_isWhole hhi with rfl | rfl | ⟨-, k, hk⟩
        · exact absurd hlt not_lt_bot
        · exact le_top
        · rw [hk, value_ceil_le_int, ← hk]
          exact (reaches_integers hn htop).1 h
      have hwhole : Range.Whole ⟨z.ceil, hi⟩ := ⟨isWhole_ceil hz, hhi, hceil,
        (((value_ceil_le_int z k).2 hk).trans_lt (rat_lt_top _)).ne, hlt.ne_bot⟩
      obtain ⟨x, hx, h1, h2⟩ := hwhole.exists_integer
      exact hbounds hx (hle.trans h1) h1 h2

/-- What is in the minimum of two sets is the minimum of two of their numbers. -/
theorem exists_minNumber (ha : a.wellFormed = true) (hb : b.wellFormed = true) (hz : z ≠ .posInf)
    (h : HasSome (minimumOne a b) z) :
    ∃ x y, a.has x = true ∧ b.has y = true ∧ z.same (x.minNumber y) = true := by
  rw [hasSome_iff_denotesSome (allWellFormed_minimumOne ha hb)] at h
  cases hzn : z.isNaN with
  | true =>
    obtain rfl := eq_nan_of_isNaN hzn
    rcases denotesSome_minimumOne_nan.1 h with h | h
    · obtain ⟨y, hy⟩ := exists_has hb
      exact ⟨nan, y, (has_iff_denotes ha _).2 h, hy, by rw [minNumber_of_isNaN (.inl rfl)]; rfl⟩
    · obtain ⟨x, hx⟩ := exists_has ha
      exact ⟨x, nan, hx, (has_iff_denotes hb _).2 h, by rw [minNumber_of_isNaN (.inr rfl)]; rfl⟩
  | false =>
    have hexact : z.exact = some z.value := exact_eq_some.2 ⟨hzn, rfl⟩
    have htop : z.value ≠ ⊤ := fun he => hz ((Range.value_eq_top hzn).1 he)
    have hp : Settled 0 (some z.value) [a, b] := .inl ⟨z, hexact⟩
    rw [hexact, denotesSome_minimumOne ha hb (by norm_num) hp htop] at h
    rcases h with ⟨hmem, hreach⟩ | ⟨hmem, hreach⟩
    · obtain ⟨y, hy, hle⟩ := exists_has_of_reaches hb hzn htop hreach
      obtain ⟨-, hyn, hle⟩ := le_iff_value.1 hle
      refine ⟨z, y, (has_iff_denotes ha z).2 (hexact ▸ hmem), hy, same_iff_exact.2 ?_⟩
      rw [exact_minNumber hzn hyn, min_eq_left hle, hexact]
    · obtain ⟨x, hx, hle⟩ := exists_has_of_reaches ha hzn htop hreach
      obtain ⟨-, hxn, hle⟩ := le_iff_value.1 hle
      refine ⟨x, z, hx, (has_iff_denotes hb z).2 (hexact ▸ hmem), same_iff_exact.2 ?_⟩
      rw [exact_minNumber hxn hzn, min_eq_right hle, hexact]

end NumberSet
end FlowTypes
