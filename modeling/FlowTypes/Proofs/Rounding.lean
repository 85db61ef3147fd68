import FlowTypes.Binary64.Integral
import Mathlib.Tactic.Linarith
import Mathlib.Tactic.Ring

/-!
# Rounding keeps the order

A rounded ratio never passes a double : what is at most (at least) a double before rounding is at
most (at least) that double after it (`position_ofRatio_le`, `le_position_ofRatio`), and a double
is its own rounding (`ofRatio_of_representable`). Of two ratios the smaller one is rounded to the
smaller double (`position_ofRatio_mono`), and equal ratios to the same (`ofRatio_congr`).

Sums inherit both facts : the position of a sum is the rounded sum of the positions
(`position_add`), and `roundPosition_le`, `le_roundPosition` and `roundPosition_of_representable`
bound it.
-/

namespace FlowTypes

/-! ## Quotients -/

theorem roundDiv_le_of_le_mul {num den q : ℕ} (hden : 0 < den) (h : num ≤ q * den) :
    roundDiv num den ≤ q := by
  have hq : num / den ≤ q := Nat.div_le_of_le_mul (by rwa [Nat.mul_comm] at h)
  rcases Nat.lt_or_eq_of_le hq with hlt | heq
  · exact (roundDiv_le num den).trans hlt
  · have hmod : num % den = 0 := by
      have := Nat.div_add_mod num den
      rw [heq, Nat.mul_comm] at this
      omega
    simp only [roundDiv, hmod, heq, Nat.mul_zero, if_pos hden]
    exact Nat.le_refl q

theorem le_roundDiv_of_mul_le {num den q : ℕ} (hden : 0 < den) (h : q * den ≤ num) :
    q ≤ roundDiv num den :=
  ((Nat.le_div_iff_mul_le hden).2 h).trans (le_roundDiv num den)

theorem roundDiv_mul_left {q den : ℕ} (hden : 0 < den) : roundDiv (q * den) den = q :=
  Nat.le_antisymm (roundDiv_le_of_le_mul hden (Nat.le_refl _))
    (le_roundDiv_of_mul_le hden (Nat.le_refl _))

/-- A quotient is rounded to at most `q` if it lies below the middle of `q` and the next natural, or
in that middle with `q` even. -/
theorem roundDiv_le_iff {num den q : ℕ} (hden : 0 < den) :
    roundDiv num den ≤ q ↔
      2 * num < (2 * q + 1) * den ∨ 2 * num = (2 * q + 1) * den ∧ q % 2 = 0 := by
  have hsplit : 2 * num = 2 * (num / den * den) + 2 * (num % den) := by
    have := Nat.div_add_mod' num den
    omega
  have hrest := Nat.mod_lt num hden
  have hodd : (2 * q + 1) * den = 2 * (q * den) + den := by ring
  rw [hsplit, hodd]
  rcases lt_trichotomy (num / den) q with hlt | heq | hgt
  · have hle : (num / den + 1) * den ≤ q * den := Nat.mul_le_mul_right _ hlt
    rw [Nat.add_mul] at hle
    exact iff_of_true ((roundDiv_le num den).trans hlt) (Or.inl (by omega))
  · simp only [roundDiv, heq]
    split
    · omega
    · split
      · omega
      · split <;> omega
  · have hle : (q + 1) * den ≤ num / den * den := Nat.mul_le_mul_right _ hgt
    rw [Nat.add_mul] at hle
    exact iff_of_false (Nat.not_le.2 (hgt.trans_le (le_roundDiv num den))) (by omega)

/-- The smaller quotient is rounded to the smaller natural. -/
theorem roundDiv_mono {num den num' den' : ℕ} (hden : 0 < den) (hden' : 0 < den')
    (h : num * den' ≤ num' * den) : roundDiv num den ≤ roundDiv num' den' := by
  have hcross : 2 * num * den' ≤ 2 * num' * den := by
    rw [Nat.mul_assoc, Nat.mul_assoc]
    exact Nat.mul_le_mul_left 2 h
  have hcomm : ∀ c : ℕ, c * den' * den = c * den * den' := fun c => Nat.mul_right_comm _ _ _
  rw [roundDiv_le_iff hden]
  rcases (roundDiv_le_iff hden').1 (Nat.le_refl (roundDiv num' den')) with hlt | ⟨heq, heven⟩
  · left
    refine Nat.lt_of_mul_lt_mul_right (a := den') (hcross.trans_lt ?_)
    rw [← hcomm]
    exact Nat.mul_lt_mul_of_pos_right hlt hden
  · have hle : 2 * num ≤ (2 * roundDiv num' den' + 1) * den := by
      refine Nat.le_of_mul_le_mul_right (hcross.trans ?_) hden'
      rw [heq, hcomm]
    exact (Nat.lt_or_eq_of_le hle).imp id fun h => ⟨h, heven⟩

/-! ## Significant bits -/

/-- At most 53 significant bits : what `Representable` asks besides the size. -/
def Short (m : ℕ) : Prop :=
  m % 2 ^ (m.log2 - 52) = 0

instance : DecidablePred Short := fun _ => inferInstanceAs (Decidable (_ = _))

theorem log2_le_log2 {m n : ℕ} (h : m ≤ n) : m.log2 ≤ n.log2 := by
  rcases Nat.eq_zero_or_pos m with rfl | hm
  · simp
  · have h2 : 2 ^ m.log2 ≤ n := (Nat.log2_self_le hm.ne').trans h
    exact (Nat.le_log2 (hm.trans_le h).ne').2 h2

/-- A short magnitude is a multiple of every grid that its own leading bit allows. -/
theorem Short.dvd {m n : ℕ} (hm : Short m) (h : n.log2 ≤ m.log2) : 2 ^ (n.log2 - 52) ∣ m :=
  dvd_trans (Nat.pow_dvd_pow 2 (by omega)) (Nat.dvd_of_mod_eq_zero hm)

theorem short_two_pow (k : ℕ) : Short (2 ^ k) := by
  rw [Short, Nat.log2_two_pow]
  exact Nat.mod_eq_zero_of_dvd (Nat.pow_dvd_pow 2 (Nat.sub_le k 52))

namespace Binary64

theorem unitsPerOne_pos : 0 < unitsPerOne := by
  decide +kernel

theorem maxMagnitude_lt_infinityPosition : maxMagnitude < infinityPosition := by
  decide +kernel

theorem short_infinityPosition : Short infinityPosition := by
  decide +kernel

theorem short_natAbs_position (v : Binary64) : Short v.position.natAbs := by
  cases v with
  | nan => rfl
  | infinity s =>
    have h : (infinity s).position.natAbs = infinityPosition := by
      cases s <;> simp only [position, if_true, Bool.false_eq_true, if_false, Int.natAbs_neg,
        Int.natAbs_natCast]
    rw [h]
    exact short_infinityPosition
  | finite s m hm =>
    have h : (finite s m hm).position.natAbs = m := by
      cases s <;> simp only [position, if_true, Bool.false_eq_true, if_false, Int.natAbs_neg,
        Int.natAbs_natCast]
    rw [h]
    exact hm.1

/-- A position is at most the greatest magnitude, or that of an infinity. -/
theorem natAbs_position_cases (v : Binary64) :
    v.position.natAbs ≤ maxMagnitude ∨ v.position.natAbs = infinityPosition := by
  cases v with
  | nan => exact Or.inl (Nat.zero_le _)
  | infinity s =>
    right
    cases s <;> simp only [position, if_true, Bool.false_eq_true, if_false, Int.natAbs_neg,
      Int.natAbs_natCast]
  | finite s m hm =>
    left
    cases s <;> simpa only [position, if_true, Bool.false_eq_true, if_false, Int.natAbs_neg,
      Int.natAbs_natCast] using hm.2

/-! ## Rounded ratios -/

/-- The magnitude to which a ratio is rounded, before the check that a double can hold it. -/
def rounded (num den : ℕ) : ℕ :=
  roundDiv num (den * 2 ^ excessBits num den) * 2 ^ excessBits num den

/-- Rounding does not pass a short magnitude upwards. -/
theorem rounded_le {num den m : ℕ} (hden : 0 < den) (hm : Short m) (h : num ≤ m * den) :
    rounded num den ≤ m := by
  have hdiv : num / den ≤ m := Nat.div_le_of_le_mul (by rwa [Nat.mul_comm] at h)
  obtain ⟨q, hq⟩ := hm.dvd (log2_le_log2 hdiv)
  change m = 2 ^ excessBits num den * q at hq
  have hle : num ≤ q * (den * 2 ^ excessBits num den) := by
    calc num ≤ m * den := h
      _ = q * (den * 2 ^ excessBits num den) := by rw [hq]; ring
  rw [hq, Nat.mul_comm _ q, rounded]
  exact Nat.mul_le_mul_right _
    (roundDiv_le_of_le_mul (Nat.mul_pos hden (Nat.two_pow_pos _)) hle)

/-- Rounding does not pass a short magnitude downwards. -/
theorem le_rounded {num den m : ℕ} (hden : 0 < den) (hm : Short m) (h : m * den ≤ num) :
    m ≤ rounded num den := by
  have hdiv : m ≤ num / den := (Nat.le_div_iff_mul_le hden).2 h
  have hpos : 0 < den * 2 ^ excessBits num den := Nat.mul_pos hden (Nat.two_pow_pos _)
  rcases Nat.lt_or_ge m.log2 (num / den).log2 with hlog | hlog
  · -- The leading bit of the quotient alone is beyond `m`, and rounding keeps that bit.
    have hne : num / den ≠ 0 := by
      intro h0
      simp [h0] at hlog
    have hlead : 2 ^ (num / den).log2 ≤ num / den := Nat.log2_self_le hne
    have hbelow : m < 2 ^ (num / den).log2 :=
      Nat.lt_log2_self.trans_le (Nat.pow_le_pow_right (by decide) hlog)
    rcases Nat.le_total (num / den).log2 52 with h52 | h52
    · have h0 : excessBits num den = 0 := by unfold excessBits; omega
      rw [rounded, h0, Nat.pow_zero, Nat.mul_one, Nat.mul_one]
      exact hdiv.trans (le_roundDiv num den)
    · have hsplit : 2 ^ (num / den).log2 = 2 ^ 52 * 2 ^ excessBits num den := by
        rw [← Nat.pow_add]
        congr 1
        unfold excessBits
        omega
      rw [hsplit] at hbelow hlead
      have hle : 2 ^ 52 * (den * 2 ^ excessBits num den) ≤ num := by
        calc 2 ^ 52 * (den * 2 ^ excessBits num den)
            = 2 ^ 52 * 2 ^ excessBits num den * den := by ring
          _ ≤ num := (Nat.le_div_iff_mul_le hden).1 hlead
      exact hbelow.le.trans (Nat.mul_le_mul_right _ (le_roundDiv_of_mul_le hpos hle))
  · obtain ⟨q, hq⟩ := hm.dvd hlog
    change m = 2 ^ excessBits num den * q at hq
    have hle : q * (den * 2 ^ excessBits num den) ≤ num := by
      calc q * (den * 2 ^ excessBits num den) = m * den := by rw [hq]; ring
        _ ≤ num := h
    rw [hq, Nat.mul_comm _ q, rounded]
    exact Nat.mul_le_mul_right _ (le_roundDiv_of_mul_le hpos hle)

/-- A short magnitude is its own rounding. -/
theorem rounded_of_short {m : ℕ} (hm : Short m) : rounded m 1 = m :=
  Nat.le_antisymm (rounded_le Nat.one_pos hm (by omega)) (le_rounded Nat.one_pos hm (by omega))

/-- Of two ratios the smaller one is rounded to the smaller magnitude. -/
theorem rounded_mono {num den num' den' : ℕ} (hden : 0 < den) (hden' : 0 < den')
    (h : num * den' ≤ num' * den) : rounded num den ≤ rounded num' den' := by
  have hdiv : num / den ≤ num' / den' := by
    rw [Nat.le_div_iff_mul_le hden']
    refine Nat.le_of_mul_le_mul_right ?_ hden
    calc num / den * den' * den = num / den * den * den' := Nat.mul_right_comm _ _ _
      _ ≤ num * den' := Nat.mul_le_mul_right _ (Nat.div_mul_le_self num den)
      _ ≤ num' * den := h
  have hexcess : excessBits num den ≤ excessBits num' den' :=
    Nat.sub_le_sub_right (log2_le_log2 hdiv) 52
  rcases Nat.lt_or_eq_of_le hexcess with hlt | heq
  · -- A power of two lies between the ratios, and rounding passes it from neither side.
    have hbelow : num ≤ 2 ^ (53 + excessBits num den) * den := by
      refine (Nat.lt_mul_of_div_lt ?_ hden).le
      refine Nat.lt_log2_self.trans_le (Nat.pow_le_pow_right (by decide) ?_)
      unfold excessBits
      omega
    have habove : 2 ^ (53 + excessBits num den) * den' ≤ num' := by
      refine (Nat.le_div_iff_mul_le hden').1 ?_
      have hne : num' / den' ≠ 0 := fun h0 => by simp [excessBits, h0] at hlt
      refine (Nat.pow_le_pow_right (by decide) ?_).trans (Nat.log2_self_le hne)
      unfold excessBits at hlt ⊢
      omega
    exact (rounded_le hden (short_two_pow _) hbelow).trans
      (le_rounded hden' (short_two_pow _) habove)
  · unfold rounded
    rw [heq]
    refine Nat.mul_le_mul_right _ (roundDiv_mono (Nat.mul_pos hden (Nat.two_pow_pos _))
      (Nat.mul_pos hden' (Nat.two_pow_pos _)) ?_)
    rw [← Nat.mul_assoc, ← Nat.mul_assoc]
    exact Nat.mul_le_mul_right _ h

/-- A rounded ratio is finite with the rounded magnitude, or that magnitude is too great. -/
theorem ofRatio_eq (s : Bool) (num den : ℕ) :
    (∃ h, rounded num den ≤ maxMagnitude ∧ ofRatio s num den = finite s (rounded num den) h) ∨
      maxMagnitude < rounded num den ∧ ofRatio s num den = infinity s := by
  by_cases h : rounded num den ≤ maxMagnitude
  · exact Or.inl ⟨_, h, dif_pos h⟩
  · exact Or.inr ⟨Nat.lt_of_not_le h, dif_neg h⟩

/-- Equal ratios are rounded to the same double. -/
theorem ofRatio_congr (s : Bool) {num den num' den' : ℕ} (hden : 0 < den) (hden' : 0 < den')
    (h : num * den' = num' * den) : ofRatio s num den = ofRatio s num' den' := by
  have heq : rounded num den = rounded num' den' :=
    Nat.le_antisymm (rounded_mono hden hden' h.le) (rounded_mono hden' hden h.ge)
  rcases ofRatio_eq s num den with ⟨_, hfin, he⟩ | ⟨hinf, he⟩ <;>
    rcases ofRatio_eq s num' den' with ⟨_, hfin', he'⟩ | ⟨hinf', he'⟩
  · rw [he, he']
    congr 1
  · omega
  · omega
  · rw [he, he']

/-- A double is its own rounding. -/
theorem ofRatio_of_representable (s : Bool) {m : ℕ} (hm : Representable m) :
    ofRatio s m 1 = finite s m hm := by
  rcases ofRatio_eq s m 1 with ⟨h, -, he⟩ | ⟨hlt, -⟩
  · rw [he]
    congr 1
    exact rounded_of_short hm.1
  · rw [rounded_of_short hm.1] at hlt
    exact absurd hm.2 (Nat.not_le.2 hlt)

theorem isNaN_ofRatio (s : Bool) (num den : ℕ) : (ofRatio s num den).isNaN = false := by
  rcases ofRatio_eq s num den with ⟨h, -, he⟩ | ⟨-, he⟩ <;> rw [he] <;> rfl

theorem neg_ofRatio (s : Bool) (num den : ℕ) : -ofRatio s num den = ofRatio (!s) num den := by
  rcases ofRatio_eq s num den with ⟨_, hfin, he⟩ | ⟨hinf, he⟩ <;>
    rcases ofRatio_eq (!s) num den with ⟨_, hfin', he'⟩ | ⟨hinf', he'⟩
  · rw [he, he', neg_finite]
  · omega
  · omega
  · rw [he, he', neg_infinity]

theorem position_ofRatio_true (num den : ℕ) :
    (ofRatio true num den).position = -(ofRatio false num den).position := by
  rw [← position_neg, neg_ofRatio, Bool.not_false]

theorem position_ofRatio_zero (s : Bool) (den : ℕ) : (ofRatio s 0 den).position = 0 := by
  have hzero : rounded 0 den = 0 := by simp [rounded, roundDiv]
  rcases ofRatio_eq s 0 den with ⟨_, -, he⟩ | ⟨hlt, -⟩
  · rw [he]
    simp [position, hzero]
  · omega

theorem position_ofRatio_nonneg (num den : ℕ) : 0 ≤ (ofRatio false num den).position := by
  rcases ofRatio_eq false num den with ⟨h, -, he⟩ | ⟨-, he⟩ <;> rw [he] <;>
    exact Int.natCast_nonneg _

/-- Rounding does not pass a double upwards. -/
theorem position_ofRatio_le {num den : ℕ} (hden : 0 < den) {v : Binary64}
    (h : num ≤ v.position.natAbs * den) :
    (ofRatio false num den).position ≤ v.position.natAbs := by
  have hle := rounded_le hden (short_natAbs_position v) h
  rcases ofRatio_eq false num den with ⟨_, -, he⟩ | ⟨hlt, he⟩
  · rw [he]
    exact Int.ofNat_le.2 hle
  · rw [he, (natAbs_position_cases v).resolve_left (by omega)]
    exact le_refl _

/-- Rounding does not pass a double downwards. -/
theorem le_position_ofRatio {num den : ℕ} (hden : 0 < den) {v : Binary64}
    (h : v.position.natAbs * den ≤ num) :
    (v.position.natAbs : ℤ) ≤ (ofRatio false num den).position := by
  have hle := le_rounded hden (short_natAbs_position v) h
  rcases ofRatio_eq false num den with ⟨_, -, he⟩ | ⟨-, he⟩
  · rw [he]
    exact Int.ofNat_le.2 hle
  · rw [he]
    refine Int.ofNat_le.2 ?_
    have := maxMagnitude_lt_infinityPosition
    rcases natAbs_position_cases v with h | h <;> omega

/-- The smaller ratio is rounded to the smaller double. -/
theorem position_ofRatio_mono {num den num' den' : ℕ} (hden : 0 < den) (hden' : 0 < den')
    (h : num * den' ≤ num' * den) :
    (ofRatio false num den).position ≤ (ofRatio false num' den').position := by
  have hle := rounded_mono hden hden' h
  have hmax := maxMagnitude_lt_infinityPosition
  rcases ofRatio_eq false num den with ⟨_, hfin, he⟩ | ⟨hinf, he⟩ <;>
    rcases ofRatio_eq false num' den' with ⟨_, hfin', he'⟩ | ⟨hinf', he'⟩ <;>
    rw [he, he'] <;> simp only [position, Bool.false_eq_true, if_false] <;> omega

/-! ## Rounded positions -/

/-- The position that an exact position is rounded to. -/
def roundPosition (k : ℤ) : ℤ :=
  if k < 0 then -(ofRatio false k.natAbs 1).position else (ofRatio false k.natAbs 1).position

theorem roundPosition_of_representable {k : ℤ} (h : Representable k.natAbs) :
    roundPosition k = k := by
  simp only [roundPosition, ofRatio_of_representable false h, position, Bool.false_eq_true,
    if_false]
  split <;> omega

theorem roundPosition_neg (k : ℤ) : roundPosition (-k) = -roundPosition k := by
  rcases eq_or_ne k 0 with rfl | h0
  · rw [neg_zero, roundPosition_of_representable ⟨rfl, Nat.zero_le _⟩, neg_zero]
  · unfold roundPosition
    rw [Int.natAbs_neg]
    rcases lt_or_gt_of_ne h0 with h | h
    · rw [if_neg (by omega), if_pos h, Int.neg_neg]
    · rw [if_pos (by omega), if_neg (by omega)]

/-- Rounding does not pass a double upwards. -/
theorem roundPosition_le {k : ℤ} {v : Binary64} (h : k ≤ v.position) :
    roundPosition k ≤ v.position := by
  have hnonneg := position_ofRatio_nonneg k.natAbs 1
  unfold roundPosition
  split
  · next hk =>
    rcases lt_or_ge v.position 0 with hv | hv
    · have hle : v.position.natAbs * 1 ≤ k.natAbs := by omega
      have := le_position_ofRatio Nat.one_pos hle
      omega
    · omega
  · next hk =>
    have hle : k.natAbs ≤ v.position.natAbs * 1 := by omega
    have := position_ofRatio_le Nat.one_pos hle
    omega

/-- Rounding does not pass a double downwards. -/
theorem le_roundPosition {k : ℤ} {v : Binary64} (h : v.position ≤ k) :
    v.position ≤ roundPosition k := by
  have := roundPosition_le (k := -k) (v := -v) (by rw [position_neg]; omega)
  rw [roundPosition_neg, position_neg] at this
  omega

/-- The position of a sum of finite doubles : the exact sum, rounded once. -/
theorem position_add {a b : Binary64} (ha : a.isFinite = true) (hb : b.isFinite = true) :
    (a + b).position = roundPosition (a.position + b.position) := by
  cases a with
  | finite s m hm =>
    cases b with
    | finite t n hn =>
      change (add _ _).position = _
      simp only [add]
      split
      · next h0 =>
        rw [h0, roundPosition_of_representable ⟨rfl, Nat.zero_le _⟩,
          ofRatio_of_representable _ ⟨rfl, Nat.zero_le _⟩]
        cases (s && t) <;> rfl
      · rcases lt_or_ge ((finite s m hm).position + (finite t n hn).position) 0 with h | h
        · rw [roundPosition, if_pos h, decide_eq_true h, position_ofRatio_true]
        · rw [roundPosition, if_neg (by omega), decide_eq_false (by omega)]
    | _ => simp [isFinite] at hb
  | _ => simp [isFinite] at ha

theorem isNaN_add {a b : Binary64} (ha : a.isFinite = true) (hb : b.isFinite = true) :
    (a + b).isNaN = false := by
  cases a with
  | finite s m hm =>
    cases b with
    | finite t n hn =>
      change (add _ _).isNaN = false
      simp only [add]
      split <;> exact isNaN_ofRatio _ _ _
    | _ => simp [isFinite] at hb
  | _ => simp [isFinite] at ha

end Binary64

end FlowTypes
