import FlowTypes.NumberSet.Arithmetic
import FlowTypes.Proofs.NumberUnion
import FlowTypes.Proofs.TypeMembership
import FlowTypes.Proofs.UnpassedPoints
import Mathlib.Data.Rat.Floor
import Mathlib.Order.Interval.Set.Infinite

/-!
# Unions of numbers in normal form

A union of sets of numbers is separate if it ascends, its real intervals share no point with each
other and no unpassed point with another set, and its sets of integers are more than a step by one
apart (`NumberSet.Separate`). It is normal if it is separate or the set of all numbers
(`NumberSet.Normal`). Of a fitted union only the real intervals are apart (`NumberSet.Fitted`).

A normal union is known by its unpassed points (`Normal.eq_of_unpassed`). Its real intervals are
the longest among the points : an interval of points lies in one of them, since a gap between two
of them holds a rational that is no integer and no literal (`exists_interval_of_fractions`). What
the real intervals leave are runs of integers, which cannot be longer than the sets that hold them,
since an unpassed integer lies between two sets (`Separate.upper_le`), and single points.
-/

namespace FlowTypes

open ExtendedRat Binary64

/-! ## Gaps between ranges -/

theorem exists_rat_between {x y : ExtendedRat} (h : x < y) : ∃ q : ℚ, x < rat q ∧ rat q < y := by
  obtain ⟨p, hx, hy⟩ := exists_between h
  induction p using WithBotTop.rec with
  | bot => exact absurd hx not_lt_bot
  | coe q => exact ⟨q, hx, hy⟩
  | top => exact absurd hy not_top_lt

/-- Between two points there is a rational that is no integer and none of finitely many points. -/
theorem exists_fraction_between {x y : ExtendedRat} (h : x < y) {points : Set (Option ExtendedRat)}
    (hpoints : points.Finite) :
    ∃ q : ℚ, x < rat q ∧ rat q < y ∧ (∀ z : ℤ, rat q ≠ int z) ∧ some (rat q) ∉ points := by
  obtain ⟨a, hxa, hay⟩ := exists_rat_between h
  obtain ⟨b, hab, hby⟩ := exists_rat_between hay
  -- Up to the next integer after `a` there is none.
  have hlt : a < min b (⌊a⌋ + 1) :=
    lt_min (WithBotTop.coe_lt_coe.1 hab) (Int.lt_floor_add_one a)
  have hfinite : {q : ℚ | some (rat q) ∈ points}.Finite :=
    hpoints.preimage fun p _ q _ he => WithBotTop.coe_injective (Option.some.inj he)
  obtain ⟨q, ⟨haq, hqb⟩, hq⟩ := (Set.Ioo_infinite hlt).exists_notMem_finite hfinite
  refine ⟨q, hxa.trans (WithBotTop.coe_lt_coe.2 haq),
    (WithBotTop.coe_lt_coe.2 (hqb.trans_le (min_le_left _ _))).trans hby, fun z hz => ?_, hq⟩
  obtain rfl : q = z := WithBotTop.coe_injective hz
  have hfloor : z < ⌊a⌋ + 1 := by exact_mod_cast hqb.trans_le (min_le_right _ _)
  exact absurd haq (not_lt.2 (Int.le_floor.1 (Int.lt_add_one_iff.1 hfloor)))

/-- After the end of a range there is a gap without points of the ranges that do not hold it. -/
theorem Range.exists_gap_above {b y : ExtendedRat} (h : b < y) : ∀ ranges : List Range,
    ∃ c, b < c ∧ c ≤ y ∧ ∀ r ∈ ranges, ¬r.Contains b → ∀ q, b < q → q < c → ¬r.Contains q
  | [] => ⟨y, h, le_refl y, by simp⟩
  | r :: ranges => by
    obtain ⟨c, hbc, hcy, hc⟩ := exists_gap_above h ranges
    rcases lt_or_ge b r.lo.value with hlo | hlo
    · refine ⟨min c r.lo.value, lt_min hbc hlo, (min_le_left _ _).trans hcy, ?_⟩
      intro s hs hsb q hbq hqc
      rcases List.mem_cons.1 hs with rfl | hs
      · exact fun hq => absurd hq.1 (not_le.2 (hqc.trans_le (min_le_right _ _)))
      · exact hc s hs hsb q hbq (hqc.trans_le (min_le_left _ _))
    · refine ⟨c, hbc, hcy, ?_⟩
      intro s hs hsb q hbq hqc
      rcases List.mem_cons.1 hs with rfl | hs
      · exact fun hq => hsb ⟨hlo, hbq.le.trans hq.2⟩
      · exact hc s hs hsb q hbq hqc

/-- Before the beginning of a range there is such a gap, too. -/
theorem Range.exists_gap_below {b x : ExtendedRat} (h : x < b) : ∀ ranges : List Range,
    ∃ c, x ≤ c ∧ c < b ∧ ∀ r ∈ ranges, ¬r.Contains b → ∀ q, c < q → q < b → ¬r.Contains q
  | [] => ⟨x, le_refl x, h, by simp⟩
  | r :: ranges => by
    obtain ⟨c, hxc, hcb, hc⟩ := exists_gap_below h ranges
    rcases lt_or_ge r.hi.value b with hhi | hhi
    · refine ⟨max c r.hi.value, hxc.trans (le_max_left _ _), max_lt hcb hhi, ?_⟩
      intro s hs hsb q hcq hqb
      rcases List.mem_cons.1 hs with rfl | hs
      · exact fun hq => absurd hq.2 (not_le.2 ((le_max_right _ _).trans_lt hcq))
      · exact hc s hs hsb q ((le_max_left _ _).trans_lt hcq) hqb
    · refine ⟨c, hxc, hcb, ?_⟩
      intro s hs hsb q hcq hqb
      rcases List.mem_cons.1 hs with rfl | hs
      · exact fun hq => hsb ⟨hq.1.trans hqb.le, hhi⟩
      · exact hc s hs hsb q hcq hqb

/-! ## The canonical order -/

theorem Binary64.rank_injective {v w : Binary64} (h : v.rank = w.rank) : v = w := by
  have hbound : ∀ {m : ℕ}, Representable m → m < infinityPosition :=
    fun hm => hm.2.trans_lt maxMagnitude_lt_infinityPosition
  cases v with
  | nan =>
    cases w with
    | nan => rfl
    | infinity t => cases t <;> simp only [rank] at h <;> omega
    | finite t n hn =>
      have := hbound hn
      simp only [rank] at h
      split at h <;> split at h <;> omega
  | infinity s =>
    cases w with
    | nan => cases s <;> simp only [rank] at h <;> omega
    | infinity t => cases s <;> cases t <;> simp only [rank] at h <;> first | rfl | omega
    | finite t n hn =>
      have := hbound hn
      cases s <;> simp only [rank] at h <;> split at h <;> split at h <;> omega
  | finite s m hm =>
    have := hbound hm
    cases w with
    | nan =>
      simp only [rank] at h
      split at h <;> split at h <;> omega
    | infinity t =>
      cases t <;> simp only [rank] at h <;> split at h <;> split at h <;> omega
    | finite t n hn =>
      obtain ⟨rfl, rfl⟩ : s = t ∧ m = n := by
        cases s <;> cases t <;> simp only [rank, if_true, Bool.false_eq_true, if_false] at h <;>
          split at h <;> split at h <;> simp <;> omega
      rfl

theorem Binary64.compare_ne_gt_iff {v w : Binary64} :
    (v.compare w != .gt) = true ↔ v.rank ≤ w.rank := by
  rw [bne_iff_ne, Binary64.compare, Ne, compare_gt_iff_gt, not_lt]

theorem Binary64.compare_total (v w : Binary64) :
    (v.compare w != .gt) = true ∨ (w.compare v != .gt) = true := by
  rw [compare_ne_gt_iff, compare_ne_gt_iff]
  exact le_total _ _

theorem Binary64.compare_trans (u v w : Binary64) (huv : (u.compare v != .gt) = true)
    (hvw : (v.compare w != .gt) = true) : (u.compare w != .gt) = true := by
  rw [compare_ne_gt_iff] at *
  exact huv.trans hvw

namespace NumberSet

theorem compare_ne_gt_iff {a b : NumberSet} :
    (a.compare b != .gt) = true ↔ a.lower.rank < b.lower.rank ∨ a.lower.rank = b.lower.rank ∧
      (a.upper.rank < b.upper.rank ∨ a.upper.rank = b.upper.rank ∧ a.kindRank ≤ b.kindRank) := by
  rw [bne_iff_ne, compare, Binary64.compare, Binary64.compare, Ne, Ordering.then_eq_gt,
    Ordering.then_eq_gt, compare_gt_iff_gt, compare_gt_iff_gt, compare_gt_iff_gt,
    compare_eq_iff_eq, compare_eq_iff_eq]
  omega

theorem compare_total (a b : NumberSet) :
    (a.compare b != .gt) = true ∨ (b.compare a != .gt) = true := by
  rw [compare_ne_gt_iff, compare_ne_gt_iff]
  omega

theorem compare_trans (a b c : NumberSet) (hab : (a.compare b != .gt) = true)
    (hbc : (b.compare c != .gt) = true) : (a.compare c != .gt) = true := by
  rw [compare_ne_gt_iff] at *
  omega

/-- Sets that come neither before nor after each other are equal. -/
theorem eq_of_compare {a b : NumberSet} (hab : (a.compare b != .gt) = true)
    (hba : (b.compare a != .gt) = true) : a = b := by
  rw [compare_ne_gt_iff] at hab hba
  have hlower : a.lower = b.lower := rank_injective (by omega)
  have hupper : a.upper = b.upper := rank_injective (by omega)
  have hkind : a.kindRank = b.kindRank := by omega
  cases a <;> cases b <;> simp_all [lower, upper, kindRank]

/-! ## Real intervals -/

/-- Is this a real interval? -/
def isReal : NumberSet → Bool
  | interval .. => true
  | _ => false

/-- Do two real intervals of the union share no point, unless they are one? -/
def RealsApart (F : List NumberSet) : Prop :=
  ∀ lo hi lo' hi', interval lo hi ∈ F → interval lo' hi' ∈ F → ∀ q, Range.Contains ⟨lo, hi⟩ q →
    Range.Contains ⟨lo', hi'⟩ q → interval lo hi = interval lo' hi'

/-- An interval whose fractions are all in a union lies in one of its real intervals, if these are
apart. -/
theorem exists_interval_of_fractions {F : List NumberSet} (hwf : ∀ n ∈ F, n.wellFormed = true)
    (hall : all ∉ F) (hapart : RealsApart F) {x y : ExtendedRat} (hxy : x < y)
    (h : ∀ q : ℚ, x ≤ rat q → rat q ≤ y → (∀ z : ℤ, rat q ≠ int z) →
      ∃ n ∈ F, n.Denotes (some (rat q))) :
    ∃ lo hi, interval lo hi ∈ F ∧ lo.value ≤ x ∧ y ≤ hi.value := by
  have hfinite : {p | ∃ n ∈ F, ∃ v, n = literal v ∧ v.exact = p}.Finite := by
    refine ((F.map fun n => n.lower.exact).finite_toSet).subset ?_
    rintro p ⟨n, hn, v, rfl, rfl⟩
    exact List.mem_map.2 ⟨_, hn, rfl⟩
  -- Any part of the interval holds a point of some real interval.
  have hsome : ∀ a b, x ≤ a → a < b → b ≤ y →
      ∃ q lo hi, a < q ∧ q < b ∧ interval lo hi ∈ F ∧ Range.Contains ⟨lo, hi⟩ q := by
    intro a b hxa hab hby
    obtain ⟨q, haq, hqb, hint, hliteral⟩ := exists_fraction_between hab hfinite
    obtain ⟨n, hn, hq⟩ := h q (hxa.trans haq.le) (hqb.le.trans hby) hint
    cases n with
    | all => exact absurd hn hall
    | literal v => exact absurd ⟨_, hn, v, rfl, hq⟩ hliteral
    | interval lo hi =>
      obtain ⟨q', he, hq'⟩ := hq
      cases he
      exact ⟨rat q, lo, hi, haq, hqb, hn, hq'⟩
    | integers lo hi =>
      obtain ⟨z, hz, -⟩ := hq
      exact absurd (Option.some.inj hz) (hint z)
  obtain ⟨q, lo, hi, hxq, hqy, hn, hlo, hhi⟩ := hsome x y (le_refl x) hxy (le_refl y)
  have hle := (lt_of_wellFormed_interval (hwf _ hn)).2.2.le
  -- A bound inside the interval would be followed by a gap.
  refine ⟨lo, hi, hn, ?_, ?_⟩
  · by_contra hx
    obtain ⟨c, hxc, hclo, hgap⟩ :=
      Range.exists_gap_below (not_le.1 hx) (F.filterMap reals?)
    obtain ⟨q', lo', hi', hcq, hqlo, hn', hq'⟩ := hsome c lo.value hxc hclo (hlo.trans hqy.le)
    by_cases hsame : Range.Contains ⟨lo', hi'⟩ lo.value
    · cases hapart _ _ _ _ hn' hn _ hsame ⟨le_refl _, hle⟩
      exact absurd hq'.1 (not_le.2 hqlo)
    · exact hgap ⟨lo', hi'⟩ (mem_filterMap_reals?.2 hn') hsame q' hcq hqlo hq'
  · by_contra hy
    obtain ⟨c, hhic, hcy, hgap⟩ :=
      Range.exists_gap_above (not_le.1 hy) (F.filterMap reals?)
    obtain ⟨q', lo', hi', hhiq, hqc, hn', hq'⟩ := hsome hi.value c (hxq.le.trans hhi) hhic hcy
    by_cases hsame : Range.Contains ⟨lo', hi'⟩ hi.value
    · cases hapart _ _ _ _ hn' hn _ hsame ⟨hle, le_refl _⟩
      exact absurd hq'.2 (not_le.2 hhiq)
    · exact hgap ⟨lo', hi'⟩ (mem_filterMap_reals?.2 hn') hsame q' hhiq hqc hq'

/-! ## Sets of integers -/

/-- The range from the least to the greatest number of a set. -/
def toRange (n : NumberSet) : Range := ⟨n.lower, n.upper⟩

theorem whole_of_integers {lo hi : Binary64} (h : (integers lo hi).wellFormed = true) :
    Range.Whole ⟨lo, hi⟩ := by
  obtain ⟨hlo, hhi, hlt⟩ := whole_of_wellFormed_integers h
  exact ⟨hlo, hhi, hlt.le, hlt.ne_top, hlt.ne_bot⟩

theorem whole_toRange {n : NumberSet} (hn : n.wellFormed = true) (h : n.isIntegral = true) :
    n.toRange.Whole := by
  cases n with
  | literal v =>
    obtain ⟨-, k, hk⟩ := isInteger_iff_value.1 h
    have hw := isWhole_of_isInteger h
    refine ⟨hw, hw, le_refl _, ?_, ?_⟩ <;> simp only [toRange, lower, upper, hk]
    exacts [WithBotTop.coe_ne_top _, WithBotTop.coe_ne_bot _]
  | integers lo hi => exact whole_of_integers hn
  | _ => cases h

theorem denotes_iff_toRange {n : NumberSet} (h : n.isIntegral = true) (p : Option ExtendedRat) :
    n.Denotes p ↔ ∃ z, p = some (int z) ∧ n.toRange.Contains (int z) := by
  cases n with
  | literal v =>
    obtain ⟨hf, k, hk⟩ := isInteger_iff_value.1 h
    rw [denotes_literal, exact_eq_some.2 ⟨isNaN_of_isFinite hf, hk⟩]
    simp only [toRange, lower, upper, Range.Contains, hk, int_le_int]
    constructor
    · rintro rfl
      exact ⟨k, rfl, le_refl k, le_refl k⟩
    · rintro ⟨z, rfl, h1, h2⟩
      rw [le_antisymm h1 h2]
  | integers lo hi => rfl
  | _ => cases h

theorem denotes_int_iff {n : NumberSet} (h : n.isIntegral = true) {z : ℤ} :
    n.Denotes (some (int z)) ↔ n.toRange.Contains (int z) := by
  rw [denotes_iff_toRange h]
  constructor
  · rintro ⟨k, hk, hz⟩
    rwa [int_injective (Option.some.inj hk)]
  · intro hz
    exact ⟨z, rfl, hz⟩

/-- A set of integers with the bounds of another is the other. -/
theorem eq_of_toRange {m n : NumberSet} (hm : m.wellFormed = true) (hn : n.wellFormed = true)
    (hmu : m.identity = m) (hnu : n.identity = n) (hmi : m.isIntegral = true)
    (hni : n.isIntegral = true) (hlo : m.toRange.lo.value = n.toRange.lo.value)
    (hhi : m.toRange.hi.value = n.toRange.hi.value) : m = n := by
  have hmw := (whole_toRange hm hmi).ordered
  have hnw := (whole_toRange hn hni).ordered
  cases m with
  | all => cases hmi
  | interval lo hi => cases hmi
  | literal v =>
    cases n with
    | all => cases hni
    | interval lo hi => cases hni
    | literal w =>
      rw [eq_of_value_eq (literal.inj hmu) (literal.inj hnu) hmw.lo_number hnw.lo_number hlo]
    | integers lo hi =>
      exact absurd (hlo.symm.trans hhi) (whole_of_wellFormed_integers hn).2.2.ne
  | integers lo hi =>
    cases n with
    | all => cases hni
    | interval lo hi => cases hni
    | literal w => exact absurd (hlo.trans hhi.symm) (whole_of_wellFormed_integers hm).2.2.ne
    | integers lo' hi' =>
      simp only [NumberSet.wellFormed, Bool.and_eq_true, properBounds_iff] at hm hn
      rw [eq_of_value_eq hm.2.2.1 hn.2.2.1 hmw.lo_number hnw.lo_number hlo,
        eq_of_value_eq hm.2.2.2 hn.2.2.2 hmw.hi_number hnw.hi_number hhi]

/-! ## Fitted unions -/

/-- What the sets of a canonical form are : well-formed, with real intervals apart, and with `all`
among them if they have every real and NaN. -/
structure Fitted (F : List NumberSet) : Prop where
  wellFormed : ∀ n ∈ F, n.wellFormed = true
  realsApart : RealsApart F
  proper : interval .negInf .posInf ∈ F → literal .nan ∈ F → all ∈ F

namespace Fitted

variable {items : List NumberSet}

/-- Sets that hold the fractions between two points have a real interval that does, since fractions
are unpassed. -/
theorem exists_interval (h : Fitted items) (hall : all ∉ items) {x y : ExtendedRat} (hxy : x < y)
    (hin : ∀ q : ℚ, x ≤ rat q → rat q ≤ y → Unpassed (some (rat q)) →
      ∃ m ∈ items, m.Denotes (some (rat q))) :
    ∃ lo hi, interval lo hi ∈ items ∧ lo.value ≤ x ∧ y ≤ hi.value :=
  exists_interval_of_fractions h.wellFormed hall h.realsApart hxy
    fun q h1 h2 hq => hin q h1 h2 (unpassed_rat hq)

/-- Only `all` holds all unpassed points. -/
theorem all_mem (h : Fitted items) (hin : ∀ p, Unpassed p → ∃ m ∈ items, m.Denotes p) :
    all ∈ items := by
  by_contra hall
  obtain ⟨lo, hi, hmem, hlo, hhi⟩ := h.exists_interval hall bot_lt_top fun _ _ _ => hin _
  obtain ⟨hlon, hhin, -⟩ := lt_of_wellFormed_interval (h.wellFormed _ hmem)
  obtain rfl := (Range.value_eq_bot hlon).1 (le_bot_iff.1 hlo)
  obtain rfl := (Range.value_eq_top hhin).1 (top_le_iff.1 hhi)
  obtain ⟨m, hm, hnone⟩ := hin none nofun
  rcases denotes_none_iff.1 hnone with rfl | rfl
  · exact hall hm
  · exact hall (h.proper hmem hm)

end Fitted

/-! ## Separate unions -/

/-- A union in ascending order. No two of its sets share an unpassed point, and steps by one do not
lead from one set of integers to another. -/
structure Separate (F : List NumberSet) : Prop where
  sorted : F.Pairwise fun a b => (a.compare b != .gt) = true
  nodup : F.Nodup
  wellFormed : ∀ n ∈ F, n.wellFormed = true
  unsigned : ∀ n ∈ F, n.identity = n
  all_notMem : all ∉ F
  proper : interval .negInf .posInf ∈ F → literal .nan ∉ F
  realsApart : RealsApart F
  avoidsReals : ∀ n ∈ F, n.isReal = false → ∀ lo hi, interval lo hi ∈ F → ∀ p, Unpassed p →
    n.Denotes p → ¬(interval lo hi).Denotes p
  stepsApart : ∀ m ∈ F, ∀ n ∈ F, m.isIntegral = true → n.isIntegral = true →
    m = n ∨ (m.toRange.hi + one).value < n.toRange.lo.value ∨
      (n.toRange.hi + one).value < m.toRange.lo.value

/-- Nothing but the set of all numbers, or a separate union. -/
def Normal (F : List NumberSet) : Prop :=
  F = [all] ∨ Separate F

/-- Do the unions have the same unpassed points? -/
def SameUnpassed (F G : List NumberSet) : Prop :=
  ∀ p, Unpassed p → ((∃ n ∈ F, n.Denotes p) ↔ ∃ n ∈ G, n.Denotes p)

theorem SameUnpassed.symm {F G : List NumberSet} (h : SameUnpassed F G) : SameUnpassed G F :=
  fun p hp => (h p hp).symm

namespace Separate

variable {F G : List NumberSet}

theorem unsigned_literal (hF : Separate F) {v : Binary64} (hv : literal v ∈ F) :
    v.unsignedZero = v :=
  literal.inj (hF.unsigned _ hv)

theorem whole (hF : Separate F) {n : NumberSet} (hn : n ∈ F) (h : n.isIntegral = true) :
    n.toRange.Whole :=
  whole_toRange (hF.wellFormed n hn) h

theorem eq_interval (hF : Separate F) (hG : Separate G) {lo hi lo' hi' : Binary64}
    (h : interval lo hi ∈ F) (h' : interval lo' hi' ∈ G) (hlo : lo.value = lo'.value)
    (hhi : hi.value = hi'.value) : interval lo hi = interval lo' hi' := by
  obtain ⟨hn, hn', -⟩ := lt_of_wellFormed_interval (hF.wellFormed _ h)
  obtain ⟨hm, hm', -⟩ := lt_of_wellFormed_interval (hG.wellFormed _ h')
  obtain ⟨-, hu, hu'⟩ := properBounds_iff.1 (hF.wellFormed _ h)
  obtain ⟨-, hw, hw'⟩ := properBounds_iff.1 (hG.wellFormed _ h')
  rw [eq_of_value_eq hu hw hn hm hlo, eq_of_value_eq hu' hw' hn' hm' hhi]

theorem fitted (hF : Separate F) : Fitted F where
  wellFormed := hF.wellFormed
  realsApart := hF.realsApart
  proper h hnan := absurd hnan (hF.proper h)

/-- An interval of points of a separate union lies in one of its real intervals. -/
theorem exists_interval (hF : Separate F) {x y : ExtendedRat} (hxy : x < y)
    (h : ∀ p, Unpassed p → (∃ q, p = some q ∧ x ≤ q ∧ q ≤ y) → ∃ n ∈ F, n.Denotes p) :
    ∃ lo hi, interval lo hi ∈ F ∧ lo.value ≤ x ∧ y ≤ hi.value :=
  hF.fitted.exists_interval hF.all_notMem hxy fun q h1 h2 hq => h _ hq ⟨rat q, rfl, h1, h2⟩

/-- A separate union lacks some unpassed point. -/
theorem exists_not_denotes (hF : Separate F) : ∃ p, Unpassed p ∧ ¬∃ n ∈ F, n.Denotes p := by
  by_contra hlacks
  refine hF.all_notMem (hF.fitted.all_mem fun p hp => ?_)
  exact not_not.1 fun hno => hlacks ⟨p, hp, hno⟩

/-- Two sets of integers that share an integer are one. -/
theorem eq_of_contains (hF : Separate F) {m n : NumberSet} (hm : m ∈ F) (hn : n ∈ F)
    (hmi : m.isIntegral = true) (hni : n.isIntegral = true) {z : ℤ}
    (hmz : m.toRange.Contains (int z)) (hnz : n.toRange.Contains (int z)) : m = n := by
  rcases hF.stepsApart m hm n hn hmi hni with heq | hlt | hlt
  · exact heq
  · have hle := le_value_add_one (hF.whole hm hmi).hi_whole
    exact absurd (hmz.2.trans hle) (not_le.2 (hlt.trans_le hnz.1))
  · have hle := le_value_add_one (hF.whole hn hni).hi_whole
    exact absurd (hnz.2.trans hle) (not_le.2 (hlt.trans_le hmz.1))

/-! ## Unions with the same unpassed points -/

theorem mem_interval (hF : Separate F) (hG : Separate G) (h : SameUnpassed F G)
    {lo hi : Binary64} (hn : interval lo hi ∈ F) : interval lo hi ∈ G := by
  obtain ⟨-, -, hlt⟩ := lt_of_wellFormed_interval (hF.wellFormed _ hn)
  obtain ⟨lo', hi', hn', hlo, hhi⟩ := hG.exists_interval hlt fun p hp hin =>
    (h p hp).1 ⟨_, hn, hin⟩
  obtain ⟨-, -, hlt'⟩ := lt_of_wellFormed_interval (hG.wellFormed _ hn')
  -- The longer one lies in an interval of `F` again, which can only be the one we started from.
  obtain ⟨lo'', hi'', hn'', hlo', hhi'⟩ := hF.exists_interval hlt' fun p hp hin =>
    (h p hp).2 ⟨_, hn', hin⟩
  cases hF.realsApart _ _ _ _ hn'' hn lo.value
    ⟨hlo'.trans hlo, hlt.le.trans (hhi.trans hhi')⟩ ⟨le_refl _, hlt.le⟩
  rw [hF.eq_interval hG hn hn' (le_antisymm hlo' hlo) (le_antisymm hhi hhi')]
  exact hn'

/-- What is no interval on the one side is none on the other, since the intervals are shared. -/
theorem exists_not_real (hF : Separate F) (hG : Separate G) (h : SameUnpassed F G) {m : NumberSet}
    (hm : m ∈ F) (hreal : m.isReal = false) {p : Option ExtendedRat} (hp : Unpassed p)
    (hmp : m.Denotes p) :
    ∃ n ∈ G, n.Denotes p ∧ ((∃ v, n = literal v) ∨ n.isIntegral = true) := by
  obtain ⟨n, hn, hnp⟩ := (h p hp).1 ⟨m, hm, hmp⟩
  refine ⟨n, hn, hnp, ?_⟩
  cases n with
  | all => exact absurd hn hG.all_notMem
  | literal v => exact Or.inl ⟨v, rfl⟩
  | interval lo hi =>
    have hmem := hG.mem_interval hF h.symm hn
    exact absurd hnp (hF.avoidsReals m hm hreal lo hi hmem p hp hmp)
  | integers lo hi => exact Or.inr rfl

/-- The unpassed integers of a set are in sets of integers on the other side. -/
theorem exists_integral (hF : Separate F) (hG : Separate G) (h : SameUnpassed F G) {m : NumberSet}
    (hm : m ∈ F) (hmi : m.isIntegral = true) {z : ℤ} (hz : Unpassed (some (int z)))
    (hmz : m.toRange.Contains (int z)) :
    ∃ n ∈ G, n.isIntegral = true ∧ n.toRange.Contains (int z) := by
  have hreal : m.isReal = false := by cases m <;> first | rfl | cases hmi
  obtain ⟨n, hn, hnz, hkind⟩ := hF.exists_not_real hG h hm hreal hz ((denotes_int_iff hmi).2 hmz)
  have hni : n.isIntegral = true := by
    rcases hkind with ⟨v, rfl⟩ | hni
    · obtain ⟨hvn, hvz⟩ := exact_eq_some.1 (denotes_literal.1 hnz)
      exact isInteger_iff_value.2 ⟨isFinite_of_value_eq_int hvn hvz, z, hvz⟩
    · exact hni
  exact ⟨n, hn, hni, (denotes_int_iff hni).1 hnz⟩

/-- A set of integers does not end inside one of the other side : the next unpassed integer would
be in a later set, which the step by one from the end reaches. -/
theorem upper_le (hF : Separate F) (hG : Separate G) (h : SameUnpassed F G) {m n : NumberSet}
    (hm : m ∈ F) (hmi : m.isIntegral = true) (hn : n ∈ G) (hni : n.isIntegral = true) {z : ℤ}
    (hmz : m.toRange.Contains (int z)) (hnz : n.toRange.Contains (int z)) :
    m.toRange.hi.value ≤ n.toRange.hi.value := by
  have hmw := hF.whole hm hmi
  have hnw := hG.whole hn hni
  refine not_lt.1 fun hlt => ?_
  have hf : n.toRange.hi.isFinite = true := by
    rcases value_of_isWhole hnw.hi_whole with he | he | ⟨hf, -⟩
    · exact absurd (by rw [he]; rfl) hnw.hi_ne_bot
    · rw [he] at hlt
      exact absurd hlt not_top_lt
    · exact hf
  obtain ⟨k, hk, hnk, hnext⟩ := exists_unpassed_above hnw.hi_whole hf
  obtain ⟨n', hn', hni', hnk'⟩ := hF.exists_integral hG h hm hmi hk
    ⟨(hmz.1.trans hnz.2).trans hnk.le, (hnext _ hmw.hi_whole).1 hlt⟩
  rcases hG.stepsApart n hn n' hn' hni hni' with rfl | hbefore | hafter
  · exact absurd hnk'.2 (not_le.2 hnk)
  · exact absurd hnk'.1 (not_le.2 ((hnext _ (hG.whole hn' hni').lo_whole).2 hbefore))
  · have hlt := (le_value_add_one (hG.whole hn' hni').hi_whole).trans_lt hafter
    exact absurd (hnk'.2.trans_lt hlt) (not_lt.2 (hnw.lo_le_hi.trans hnk.le))

/-- The unpassed integers of a set are all in one set of the other side. -/
theorem exists_integral_of_mem (hF : Separate F) (hG : Separate G) (h : SameUnpassed F G)
    {m : NumberSet} (hm : m ∈ F) (hmi : m.isIntegral = true) :
    ∃ n ∈ G, n.isIntegral = true ∧ ∀ z : ℤ, Unpassed (some (int z)) →
      m.toRange.Contains (int z) → n.toRange.Contains (int z) := by
  obtain ⟨k, hk, hmk⟩ := (hF.whole hm hmi).exists_unpassed
  obtain ⟨n, hn, hni, hnk⟩ := hF.exists_integral hG h hm hmi hk hmk
  refine ⟨n, hn, hni, fun z hz hmz => ?_⟩
  obtain ⟨n', hn', hni', hnz'⟩ := hF.exists_integral hG h hm hmi hz hmz
  -- Neither of two sets ends before the set on the left does, so they are one.
  have hle := hF.upper_le hG h hm hmi hn hni hmk hnk
  have hle' := hF.upper_le hG h hm hmi hn' hni' hmz hnz'
  have hstep := le_value_add_one (hG.whole hn hni).hi_whole
  have hstep' := le_value_add_one (hG.whole hn' hni').hi_whole
  rcases hG.stepsApart n hn n' hn' hni hni' with rfl | hlt | hlt
  · exact hnz'
  · exact absurd ((hmz.2.trans hle).trans hstep) (not_le.2 (hlt.trans_le hnz'.1))
  · exact absurd ((hmk.2.trans hle').trans hstep') (not_le.2 (hlt.trans_le hnk.1))

/-- Every set of a separate union is one of any other with the same unpassed points. -/
theorem mem_of_unpassed (hF : Separate F) (hG : Separate G) (h : SameUnpassed F G) {m : NumberSet}
    (hm : m ∈ F) : m ∈ G := by
  -- A set of integers lies in one of `G`, and that one in one of `F` again.
  have ofIntegral : m.isIntegral = true → m ∈ G := by
    intro hmi
    obtain ⟨n, hn, hni, hmn⟩ := hF.exists_integral_of_mem hG h hm hmi
    obtain ⟨m', hm', hmi', hnm⟩ := hG.exists_integral_of_mem hF h.symm hn hni
    obtain ⟨k, hk, hmk⟩ := (hF.whole hm hmi).exists_unpassed
    obtain rfl := hF.eq_of_contains hm hm' hmi hmi' hmk (hnm k hk (hmn k hk hmk))
    obtain ⟨h1, h2⟩ := (hF.whole hm hmi).le_of_unpassed (hG.whole hn hni) hmn
    obtain ⟨h3, h4⟩ := (hG.whole hn hni).le_of_unpassed (hF.whole hm hmi) hnm
    rwa [eq_of_toRange (hF.wellFormed m hm) (hG.wellFormed n hn) (hF.unsigned m hm)
      (hG.unsigned n hn) hmi hni (le_antisymm h3 h1) (le_antisymm h2 h4)]
  cases m with
  | all => exact absurd hm hF.all_notMem
  | interval lo hi => exact hF.mem_interval hG h hm
  | integers lo hi => exact ofIntegral rfl
  | literal v =>
    obtain ⟨n, hn, hnv, ⟨w, rfl⟩ | hni⟩ :=
      hF.exists_not_real hG h hm rfl (unpassed_exact v) (denotes_literal.2 rfl)
    · have heq := eq_of_exact_eq (hG.unsigned_literal hn) (hF.unsigned_literal hm)
        (denotes_literal.1 hnv)
      exact heq ▸ hn
    · obtain ⟨z, hz, -⟩ := (denotes_iff_toRange hni _).1 hnv
      obtain ⟨hvn, hvz⟩ := exact_eq_some.1 hz
      exact ofIntegral (isInteger_iff_value.2 ⟨isFinite_of_value_eq_int hvn hvz, z, hvz⟩)

/-- A separate union is known by its unpassed points. -/
theorem eq_of_unpassed (hF : Separate F) (hG : Separate G) (h : SameUnpassed F G) : F = G := by
  have hperm : F.Perm G := (List.perm_ext_iff_of_nodup hF.nodup hG.nodup).2 fun n =>
    ⟨hF.mem_of_unpassed hG h, hG.mem_of_unpassed hF h.symm⟩
  exact hperm.eq_of_pairwise (fun _ _ _ _ hab hba => eq_of_compare hab hba) hF.sorted hG.sorted

end Separate

/-- A normal union is known by its unpassed points. -/
theorem Normal.eq_of_unpassed {F G : List NumberSet} (hF : Normal F) (hG : Normal G)
    (h : SameUnpassed F G) : F = G := by
  have hall : ∀ p, ∃ n ∈ [all], n.Denotes p := fun p => ⟨all, by simp, trivial⟩
  rcases hF with rfl | hF <;> rcases hG with rfl | hG
  · rfl
  · obtain ⟨p, hp, hlacks⟩ := hG.exists_not_denotes
    exact absurd ((h p hp).1 (hall p)) hlacks
  · obtain ⟨p, hp, hlacks⟩ := hF.exists_not_denotes
    exact absurd ((h p hp).2 (hall p)) hlacks
  · exact hF.eq_of_unpassed hG h

end NumberSet

end FlowTypes
