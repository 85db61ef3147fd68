import FlowTypes.Decimal.Text
import FlowTypes.Proofs.Extended
import Mathlib.Data.List.TakeWhile

/-!
# The text of a double reads back

`Decimal.write` and `Decimal.read?` agree on the number, though not on digits and exponent :
what is written is read as the same ratio (`Decimal.read?_write`). `Decimal.toBinary64` depends on
the ratio alone, as long as the result is neither zero nor infinite (`toBinary64_of_ratio`), and
`Decimal.shortest` reads back on every path (`toBinary64_shortest`). So `Binary64.read?` inverts
`Binary64.text` up to the sign of a zero (`read?_text`), and the text tells doubles apart
(`text_injective`).

The characters of the text are counted up by `IsNumeral` : a point never ends it and never
follows another.
-/

namespace FlowTypes

/-! ## Digits -/

theorem isDigit_toDigits (n : ℕ) : ∀ c ∈ Nat.toDigits 10 n, c.isDigit = true :=
  fun _ hc => Nat.isDigit_of_mem_toDigits (by decide) (by decide) hc

/-- The value of digits after other digits. -/
theorem ofDigitChars_append (xs ys : List Char) :
    Nat.ofDigitChars 10 (xs ++ ys) 0 =
      Nat.ofDigitChars 10 xs 0 * 10 ^ ys.length + Nat.ofDigitChars 10 ys 0 := by
  rw [Nat.ofDigitChars_append, @Nat.ofDigitChars_eq_ofDigitChars_zero ys, Nat.mul_comm]

theorem takeWhile_append_cons {p : Char → Bool} {xs : List Char} {c : Char}
    (hxs : ∀ x ∈ xs, p x = true) (hc : p c = false) (ys : List Char) :
    (xs ++ c :: ys).takeWhile p = xs ∧ (xs ++ c :: ys).dropWhile p = c :: ys := by
  rw [List.takeWhile_append_of_pos hxs, List.dropWhile_append_of_pos hxs]
  simp [hc]

theorem takeWhile_all {p : Char → Bool} {xs : List Char} (hxs : ∀ x ∈ xs, p x = true) :
    xs.takeWhile p = xs ∧ xs.dropWhile p = [] := by
  exact ⟨List.takeWhile_eq_self_iff.2 hxs, List.dropWhile_eq_nil_iff.2 hxs⟩

namespace Decimal

/-! ## Fractions -/

/-- All places of a fraction, with the zeros it ends in. -/
def allPlaces (places fraction : ℕ) : List Char :=
  List.replicate (places - (Nat.toDigits 10 fraction).length) '0' ++ Nat.toDigits 10 fraction

theorem allPlaces_eq (places fraction : ℕ) :
    ∃ k, allPlaces places fraction = fractionDigits places fraction ++ List.replicate k '0' := by
  refine ⟨((allPlaces places fraction).reverse.takeWhile (· = '0')).length, ?_⟩
  have hzeros : (allPlaces places fraction).reverse.takeWhile (· = '0') =
      List.replicate ((allPlaces places fraction).reverse.takeWhile (· = '0')).length '0' := by
    refine List.eq_replicate_of_mem fun c hc => ?_
    simpa using List.mem_takeWhile_imp hc
  have hsplit := congrArg List.reverse
    (List.takeWhile_append_dropWhile (p := (· = '0')) (l := (allPlaces places fraction).reverse))
  rw [List.reverse_append, List.reverse_reverse, hzeros, List.reverse_replicate] at hsplit
  exact hsplit.symm

theorem length_allPlaces {places fraction : ℕ} (hpos : 0 < fraction)
    (h : fraction < 10 ^ places) : (allPlaces places fraction).length = places := by
  have hplaces : 0 < places := by
    rcases Nat.eq_zero_or_pos places with rfl | hp
    · simp only [Nat.pow_zero] at h
      omega
    · exact hp
  have hle := (Nat.length_toDigits_le_iff (by decide) hplaces).2 h
  simp only [allPlaces, List.length_append, List.length_replicate]
  omega

theorem ofDigitChars_allPlaces (places fraction : ℕ) :
    Nat.ofDigitChars 10 (allPlaces places fraction) 0 = fraction := by
  rw [allPlaces, Nat.ofDigitChars_append, Nat.ofDigitChars_replicate_zero, Nat.mul_zero,
    Nat.ofDigitChars_ten_toDigits]

theorem isDigit_fractionDigits (places fraction : ℕ) :
    ∀ c ∈ fractionDigits places fraction, c.isDigit = true := by
  intro c hc
  obtain ⟨k, hk⟩ := allPlaces_eq places fraction
  have hmem : c ∈ allPlaces places fraction := by
    rw [hk]
    exact List.mem_append_left _ hc
  rcases List.mem_append.1 hmem with h | h
  · rw [List.eq_of_mem_replicate h]
    rfl
  · exact isDigit_toDigits fraction c h

/-- The digits of a fraction, over a power of ten, are the fraction. -/
theorem ofDigitChars_fractionDigits {places fraction : ℕ} (hpos : 0 < fraction)
    (h : fraction < 10 ^ places) :
    Nat.ofDigitChars 10 (fractionDigits places fraction) 0 * 10 ^ places =
      fraction * 10 ^ (fractionDigits places fraction).length := by
  obtain ⟨k, hk⟩ := allPlaces_eq places fraction
  have hlen := congrArg List.length hk
  have hval := congrArg (Nat.ofDigitChars 10 · 0) hk
  simp only [List.length_append, List.length_replicate, length_allPlaces hpos h] at hlen
  simp only [ofDigitChars_allPlaces, Nat.ofDigitChars_append, Nat.ofDigitChars_replicate_zero]
    at hval
  generalize fractionDigits places fraction = ds at hlen hval ⊢
  rw [hlen, hval]
  ring

theorem fractionDigits_ne_nil {places fraction : ℕ} (hpos : 0 < fraction)
    (h : fraction < 10 ^ places) : fractionDigits places fraction ≠ [] := by
  intro hnil
  have := ofDigitChars_fractionDigits hpos h
  simp only [hnil, Nat.ofDigitChars_nil, Nat.zero_mul, List.length_nil, Nat.pow_zero,
    Nat.mul_one] at this
  omega

/-! ## Reading what is written -/

/-- What is written reads as the same ratio, with no power of ten above it. -/
theorem read?_write (d : Decimal) :
    ∃ digits places : ℕ, read? d.write = some ⟨digits, -places⟩ ∧
      digits * 10 ^ (-d.exponent).toNat = d.digits * 10 ^ d.exponent.toNat * 10 ^ places := by
  unfold write
  generalize d.digits * 10 ^ d.exponent.toNat = number
  generalize (-d.exponent).toNat = places
  have hwhole := isDigit_toDigits (number / 10 ^ places)
  have hne : Nat.toDigits 10 (number / 10 ^ places) ≠ [] := Nat.toDigits_ne_nil
  have hdiv := Nat.div_add_mod number (10 ^ places)
  simp only
  split
  · next hzero =>
    refine ⟨number / 10 ^ places, 0, ?_, ?_⟩
    · obtain ⟨h1, h2⟩ := takeWhile_all hwhole
      simp only [read?, h1, h2, hne, false_and, if_false, List.append_nil,
        Nat.ofDigitChars_ten_toDigits, readExponent?, Option.map_some, List.length_nil]
      rfl
    · rw [Nat.pow_zero, Nat.mul_one, Nat.mul_comm]
      omega
  · next hfrac =>
    have hlt := Nat.mod_lt number (Nat.pow_pos (n := places) (by decide : 0 < 10))
    have hpos := Nat.pos_of_ne_zero hfrac
    obtain ⟨h1, h2⟩ := takeWhile_append_cons hwhole (by decide : Char.isDigit '.' = false)
      (fractionDigits places (number % 10 ^ places))
    obtain ⟨h3, h4⟩ := takeWhile_all (isDigit_fractionDigits places (number % 10 ^ places))
    refine ⟨Nat.ofDigitChars 10 (Nat.toDigits 10 (number / 10 ^ places) ++
      fractionDigits places (number % 10 ^ places)) 0,
      (fractionDigits places (number % 10 ^ places)).length, ?_, ?_⟩
    · simp only [read?, h1, h2, h3, h4, hne, false_and, if_false, readExponent?,
        Option.map_some, Int.zero_sub]
    · rw [ofDigitChars_append, Nat.ofDigitChars_ten_toDigits, Nat.add_mul,
        ofDigitChars_fractionDigits hpos hlt, Nat.mul_right_comm, ← Nat.add_mul, Nat.mul_comm _ (10 ^ places),
        hdiv]

end Decimal

/-! ## Ratios -/

namespace Binary64

/-- The sign of a rounded ratio is the one that is asked for. -/
theorem ofRatio_eq_finite {s t : Bool} {num den m : ℕ} {hm : Representable m}
    (h : ofRatio s num den = finite s m hm) : ofRatio t num den = finite t m hm := by
  rcases ofRatio_eq s num den with ⟨_, hle, he⟩ | ⟨-, he⟩
  · rcases ofRatio_eq t num den with ⟨_, -, he'⟩ | ⟨hlt, -⟩
    · rw [he, finite.injEq] at h
      rw [he', finite.injEq]
      exact ⟨rfl, h.2⟩
    · omega
  · rw [he] at h
    cases h

/-- Less than half a unit rounds to zero. -/
theorem rounded_eq_zero {num den : ℕ} (h : 2 * num < den) : rounded num den = 0 := by
  have hdiv : num / den = 0 := Nat.div_eq_of_lt (by omega)
  have hmod : num % den = num := Nat.mod_eq_of_lt (by omega)
  have hexcess : excessBits num den = 0 := by
    rw [excessBits, hdiv, Nat.log2_zero]
  simp only [rounded, hexcess, Nat.pow_zero, Nat.mul_one, roundDiv, hdiv, hmod, if_pos h]

end Binary64

namespace Decimal

open Binary64

theorem representable_zero : Representable 0 :=
  ⟨rfl, Nat.zero_le _⟩

theorem toBinary64_of_digits_eq_zero (s : Bool) {d : Decimal} (h : d.digits = 0) :
    d.toBinary64 s = finite s 0 representable_zero := by
  rw [toBinary64, if_pos h, ofRatio_of_representable s representable_zero]

/-- A decimal that is read as a positive magnitude is read by rounding its ratio. -/
theorem toBinary64_eq_ofRatio {d : Decimal} {m : ℕ} {hm : Representable m} (hpos : 0 < m)
    (h : d.toBinary64 false = finite false m hm) :
    d.digits ≠ 0 ∧
      ofRatio false (d.digits * 10 ^ d.exponent.toNat * unitsPerOne) (10 ^ (-d.exponent).toNat) =
        finite false m hm := by
  have hzero : finite false 0 representable_zero ≠ finite false m hm := fun heq =>
    hpos.ne (finite.inj heq).2
  have hdigits : d.digits ≠ 0 := by
    intro h0
    rw [toBinary64_of_digits_eq_zero false h0] at h
    exact hzero h
  refine ⟨hdigits, ?_⟩
  rw [toBinary64, if_neg hdigits] at h
  split at h
  · cases h
  · split at h
    · rw [ofRatio_of_representable false representable_zero] at h
      exact absurd h hzero
    · exact h

/-- Without a power of ten above it, a decimal that no guard turns away is rounded. -/
theorem toBinary64_of_places (s : Bool) {digits places : ℕ} (hdigits : digits ≠ 0)
    (hguard : ¬ -(places : ℤ) + digits.log2 + 1 < -330) :
    toBinary64 s ⟨digits, -places⟩ = ofRatio s (digits * unitsPerOne) (10 ^ places) := by
  have hexp : (-(places : ℤ)).toNat = 0 := by omega
  rw [toBinary64]
  simp only [if_neg hdigits, if_neg hguard, if_neg (by omega : ¬ (310 : ℤ) ≤ -(places : ℤ)), hexp,
    Nat.pow_zero, Nat.mul_one, Int.neg_neg, Int.toNat_natCast]

/-- What the last guard of `toBinary64` turns away is less than half a unit. -/
theorem lt_half_of_guard {digits places : ℕ}
    (h : -(places : ℤ) + digits.log2 + 1 < -330) :
    2 * (digits * unitsPerOne) < 10 ^ places := by
  have hlog : digits.log2 + 331 < places := by omega
  obtain ⟨rest, rfl⟩ := Nat.exists_eq_add_of_lt hlog
  have hlt : digits < 2 ^ (digits.log2 + 1) := Nat.lt_log2_self
  have hfive : 2 * unitsPerOne ≤ 2 ^ 331 * 5 ^ 332 := by decide +kernel
  generalize unitsPerOne = u at hfive ⊢
  calc 2 * (digits * u) = digits * (2 * u) := by ring
    _ ≤ digits * (2 ^ 331 * 5 ^ 332) := Nat.mul_le_mul_left _ hfive
    _ < 2 ^ (digits.log2 + 1) * (2 ^ 331 * 5 ^ 332) :=
      Nat.mul_lt_mul_of_pos_right hlt (by decide +kernel)
    _ = 2 ^ (digits.log2 + 1 + 331) * 5 ^ 332 := by
      rw [Nat.pow_add 2 (digits.log2 + 1) 331, Nat.mul_assoc]
    _ ≤ 2 ^ (digits.log2 + 331 + rest + 1) * 5 ^ (digits.log2 + 331 + rest + 1) :=
      Nat.mul_le_mul (Nat.pow_le_pow_right (by decide) (by omega))
        (Nat.pow_le_pow_right (by decide) (by omega))
    _ = 10 ^ (digits.log2 + 331 + rest + 1) := by rw [← Nat.mul_pow]

/-- A decimal without a positive power of ten is read as every other one of the same ratio. -/
theorem toBinary64_of_ratio {d : Decimal} {m : ℕ} {hm : Representable m} (hpos : 0 < m)
    (h : d.toBinary64 false = finite false m hm) (s : Bool) {digits places : ℕ}
    (hratio : digits * 10 ^ (-d.exponent).toNat = d.digits * 10 ^ d.exponent.toNat * 10 ^ places) :
    toBinary64 s ⟨digits, -places⟩ = finite s m hm := by
  have hten : ∀ k : ℕ, 0 < 10 ^ k := fun k => Nat.pow_pos (by decide)
  obtain ⟨hne, hround⟩ := toBinary64_eq_ofRatio hpos h
  have hdigits : digits ≠ 0 := by
    rintro rfl
    rw [Nat.zero_mul] at hratio
    have := Nat.mul_pos (Nat.mul_pos (Nat.pos_of_ne_zero hne) (hten d.exponent.toNat)) (hten places)
    omega
  have hread : ofRatio false (digits * unitsPerOne) (10 ^ places) = finite false m hm := by
    rw [← hround]
    refine ofRatio_congr false (hten _) (hten _) ?_
    rw [Nat.mul_right_comm, hratio, Nat.mul_right_comm]
  have hguard : ¬ -(places : ℤ) + digits.log2 + 1 < -330 := by
    intro hlt
    have hzero := rounded_eq_zero (lt_half_of_guard hlt)
    rcases ofRatio_eq false (digits * unitsPerOne) (10 ^ places) with ⟨_, -, he⟩ | ⟨hbig, -⟩
    · rw [he, finite.injEq] at hread
      omega
    · omega
  rw [toBinary64_of_places s hdigits hguard]
  exact ofRatio_eq_finite hread

/-! ## Shortest decimals -/

theorem isNegative_toBinary64 (s : Bool) (d : Decimal) : (d.toBinary64 s).isNegative = s := by
  have hratio : ∀ num den, (ofRatio s num den).isNegative = s := by
    intro num den
    rcases ofRatio_eq s num den with ⟨_, -, he⟩ | ⟨-, he⟩ <;> rw [he] <;> rfl
  unfold toBinary64
  split
  · exact hratio _ _
  · split
    · rfl
    · split <;> exact hratio _ _

theorem readsBack_iff {m : ℕ} (hm : Representable m) {d : Decimal} :
    readsBack m d = true ↔ d.toBinary64 false = finite false m hm := by
  have hs := isNegative_toBinary64 false d
  unfold readsBack
  generalize d.toBinary64 false = v at hs
  cases v with
  | finite s n hn =>
    simp only [isNegative] at hs
    simp only [hs, decide_eq_true_eq, finite.injEq, true_and]
  | _ => simp

/-- What is chosen passes the test. -/
theorem test_of_choose {test : Decimal → Bool} {lower upper d : Decimal} {nearer : Bool}
    (h : choose test lower upper nearer = some d) : test d = true := by
  unfold choose at h
  split at h
  · next hl hu =>
    cases h
    split
    exacts [hl, hu]
  · next hl hu => cases h; exact hl
  · next hl hu => cases h; exact hu
  · cases h

/-- The exact decimal : a multiple of the magnitude, over as many places as it takes. -/
theorem exactly_eq (m : ℕ) : ∃ fives places : ℕ, exactly m = ⟨m * fives, -places⟩ ∧
    fives * unitsPerOne = 10 ^ places ∧ 2000 ≤ fives.log2 ∧ places = 1074 := by
  refine ⟨(exactly 1).digits, 1074, ?_, by decide +kernel, by decide +kernel, rfl⟩
  simp only [exactly, Nat.one_mul]
  rfl

/-- The exact decimal reads back. -/
theorem toBinary64_exactly {m : ℕ} (hm : Representable m) (hpos : 0 < m) :
    (exactly m).toBinary64 false = finite false m hm := by
  obtain ⟨fives, places, he, hten, hlog, hplaces⟩ := exactly_eq m
  have hfives : 0 < fives := by
    rcases Nat.eq_zero_or_pos fives with rfl | h
    · simp at hlog
    · exact h
  have hguard : ¬ -(places : ℤ) + (m * fives).log2 + 1 < -330 := by
    have hle : fives.log2 ≤ (m * fives).log2 := log2_le_log2 (Nat.le_mul_of_pos_left _ hpos)
    clear hten
    omega
  rw [he, toBinary64_of_places false (Nat.mul_pos hpos hfives).ne' hguard,
    ← ofRatio_of_representable false hm]
  refine ofRatio_congr false (Nat.pow_pos (by decide)) Nat.one_pos ?_
  rw [Nat.mul_one, Nat.mul_assoc, hten]

/-- The shortest decimal reads back, on every path by which it is found. -/
theorem toBinary64_shortest {m : ℕ} (hm : Representable m) (hpos : 0 < m) :
    (shortest m).toBinary64 false = finite false m hm := by
  simp only [shortest]
  generalize hfound : List.findSome? _ _ = found
  cases found with
  | none => exact toBinary64_exactly hm hpos
  | some d =>
    obtain ⟨n, -, hn⟩ := List.exists_of_findSome?_eq_some hfound
    rw [onGrid] at hn
    exact (readsBack_iff hm).1 (test_of_choose hn)

/-! ## Characters of a decimal -/

/-- A decimal is written with digits, and with a point between digits where there is a fraction. -/
theorem write_cases (d : Decimal) :
    ∃ c cs, (∀ x ∈ c :: cs, x.isDigit = true) ∧
      (d.write = c :: cs ∨ ∃ f fs, d.write = c :: cs ++ '.' :: f :: fs ∧
        ∀ x ∈ f :: fs, x.isDigit = true) := by
  unfold write
  generalize d.digits * 10 ^ d.exponent.toNat = number
  generalize (-d.exponent).toNat = places
  have hwhole := isDigit_toDigits (number / 10 ^ places)
  have hlt := Nat.mod_lt number (Nat.pow_pos (n := places) (by decide : 0 < 10))
  obtain ⟨c, cs, he⟩ := List.exists_cons_of_ne_nil
    (Nat.toDigits_ne_nil (n := number / 10 ^ places) (b := 10))
  rw [he] at hwhole
  refine ⟨c, cs, hwhole, ?_⟩
  simp only [he]
  split
  · exact Or.inl rfl
  · next hfrac =>
    have hfraction := isDigit_fractionDigits places (number % 10 ^ places)
    obtain ⟨f, fs, hf⟩ := List.exists_cons_of_ne_nil
      (fractionDigits_ne_nil (Nat.pos_of_ne_zero hfrac) hlt)
    rw [hf] at hfraction ⊢
    exact Or.inr ⟨f, fs, rfl, hfraction⟩

theorem write_eq_cons (d : Decimal) : ∃ c cs, c.isDigit = true ∧ d.write = c :: cs := by
  obtain ⟨c, cs, hdigits, hform⟩ := d.write_cases
  rcases hform with h | ⟨f, fs, h, -⟩
  exacts [⟨c, _, hdigits c List.mem_cons_self, h⟩, ⟨c, _, hdigits c List.mem_cons_self, h⟩]

end Decimal

namespace Binary64

/-! ## Reading a text back -/

theorem toLower_of_isDigit {c : Char} (hc : c.isDigit = true) : c.toLower = c := by
  have hupper : ¬ (c.val ≥ 'A'.val ∧ c.val ≤ 'Z'.val) := by
    rintro ⟨hge, -⟩
    have hle : c.val ≤ '9'.val := by
      simp only [Char.isDigit, Bool.and_eq_true, decide_eq_true_eq] at hc
      exact hc.2
    exact absurd (UInt32.le_trans hge hle) (by decide)
  exact dif_neg hupper

/-- A text that starts with a digit is none of the words for special values. -/
theorem ofList_toLower_ne {c : Char} (hc : c.isDigit = true) (cs : List Char) {word : String}
    (hword : word.toList.head?.any Char.isDigit = false) :
    String.ofList ((c :: cs).map Char.toLower) ≠ word := by
  rintro rfl
  rw [String.toList_ofList, List.map_cons, List.head?_cons, toLower_of_isDigit hc,
    Option.any_some, hc] at hword
  cases hword

/-- A decimal that stands for a positive double is written so that it reads back. -/
theorem readUnsigned?_write (s : Bool) {d : Decimal} {m : ℕ} {hm : Representable m} (hpos : 0 < m)
    (h : d.toBinary64 false = finite false m hm) :
    readUnsigned? s d.write = some (finite s m hm) := by
  obtain ⟨c, rest, hc, hrest⟩ := d.write_eq_cons
  have hne : ∀ word : String, word.toList.head?.any Char.isDigit = false →
      String.ofList (d.write.map Char.toLower) ≠ word := by
    intro word hword
    rw [hrest]
    exact ofList_toLower_ne hc rest hword
  obtain ⟨digits, places, hread, hratio⟩ := Decimal.read?_write d
  have hvalue := Decimal.toBinary64_of_ratio hpos h s hratio
  simp only [readUnsigned?, hne "inf" rfl, hne "infinity" rfl, hne "nan" rfl, decide_false,
    Bool.or_false, Bool.false_eq_true, if_false, hread, Option.map_some, hvalue]

theorem text_finite (s : Bool) {m : ℕ} (hm : Representable m) (h0 : m ≠ 0) :
    (finite s m hm).text =
      String.ofList ((if s then ['-'] else []) ++ (Decimal.shortest m).write) := by
  simp only [text, if_neg h0]

/-- The text of a double reads back as that double, a zero without its sign. -/
theorem read?_text (v : Binary64) : read? v.text = some v.unsignedZero := by
  cases v with
  | nan => decide +kernel
  | infinity s => cases s <;> decide +kernel
  | finite s m hm =>
    rcases Nat.eq_zero_or_pos m with rfl | hpos
    · simp only [text, unsignedZero, if_true]
      decide +kernel
    · have hread := readUnsigned?_write s hpos (Decimal.toBinary64_shortest hm hpos)
      obtain ⟨c, rest, hc, hrest⟩ := (Decimal.shortest m).write_eq_cons
      rw [text_finite s hm hpos.ne']
      simp only [unsignedZero, hpos.ne', if_false, read?, String.toList_ofList]
      rw [hrest] at hread ⊢
      cases s with
      | true => exact hread
      | false =>
        simp only [Bool.false_eq_true, if_false, List.nil_append]
        split
        · next h => cases h; cases hc
        · next h => cases h; cases hc
        · exact hread

/-- Two doubles with one text are one number. -/
theorem unsignedZero_of_text {v w : Binary64} (h : v.text = w.text) :
    v.unsignedZero = w.unsignedZero := by
  have hread := read?_text v
  rw [h, read?_text w] at hread
  exact (Option.some.inj hread).symm

/-! ## Characters of the text -/

/-- The characters of numbers : letters, digits, the sign and the point. -/
def isNumeralChar (c : Char) : Bool := c.isAlphanum || c = '-' || c = '.'

theorem isNumeralChar_of_isDigit {c : Char} (hc : c.isDigit = true) : isNumeralChar c = true := by
  simp only [isNumeralChar, Char.isAlphanum, hc, Bool.or_true, Bool.true_or]

theorem sign_append_cases (s : Bool) (cs : List Char) :
    (if s then ['-'] else []) ++ cs = '-' :: cs ∨ (if s then ['-'] else []) ++ cs = cs := by
  cases s
  exacts [Or.inr rfl, Or.inl rfl]

/-- The text of a double is one of the special ones, or a decimal with a sign or without. -/
theorem text_cases (v : Binary64) :
    v.text ∈ ["NaN", "-inf", "inf", "0"] ∨
      ∃ d : Decimal, v.text.toList = '-' :: d.write ∨ v.text.toList = d.write := by
  cases v with
  | nan => exact Or.inl (by decide)
  | infinity s => cases s <;> exact Or.inl (by decide)
  | finite s m hm =>
    by_cases h0 : m = 0
    · simp only [text, if_pos h0]
      exact Or.inl (by decide)
    · refine Or.inr ⟨Decimal.shortest m, ?_⟩
      rw [text_finite s hm h0, String.toList_ofList]
      exact sign_append_cases s _

theorem isNumeralChar_of_mem_write {d : Decimal} {c : Char} (hc : c ∈ d.write) :
    isNumeralChar c = true := by
  obtain ⟨x, xs, hdigits, h | ⟨f, fs, h, hfraction⟩⟩ := d.write_cases <;> rw [h] at hc
  · exact isNumeralChar_of_isDigit (hdigits c hc)
  · rcases List.mem_append.1 hc with hc | hc
    · exact isNumeralChar_of_isDigit (hdigits c hc)
    · rcases List.mem_cons.1 hc with rfl | hc
      · rfl
      · exact isNumeralChar_of_isDigit (hfraction c hc)

theorem isNumeralChar_of_mem_text {v : Binary64} {c : Char} (hc : c ∈ v.text.toList) :
    isNumeralChar c = true := by
  rcases v.text_cases with h | ⟨d, h | h⟩
  · have hall : ∀ s ∈ ["NaN", "-inf", "inf", "0"], s.toList.all isNumeralChar = true := by
      decide
    exact List.all_eq_true.1 (hall _ h) c hc
  · rw [h] at hc
    rcases List.mem_cons.1 hc with rfl | hc
    · rfl
    · exact isNumeralChar_of_mem_write hc
  · rw [h] at hc
    exact isNumeralChar_of_mem_write hc

/-- A point in a decimal stands before a digit. -/
theorem isDigit_after_point_write {d : Decimal} {before after : List Char}
    (h : d.write = before ++ '.' :: after) : ∃ c cs, after = c :: cs ∧ c.isDigit = true := by
  obtain ⟨x, xs, hdigits, hw | ⟨f, fs, hw, hfraction⟩⟩ := d.write_cases <;> rw [hw] at h
  · have hmem : '.' ∈ x :: xs := by simp [h]
    exact absurd (hdigits _ hmem) (by decide)
  · have hpoint : ∀ {cs : List Char}, (∀ c ∈ cs, c.isDigit = true) → '.' ∉ cs :=
      fun hcs hmem => absurd (hcs _ hmem) (by decide)
    obtain ⟨-, -, rfl⟩ :=
      (List.append_cons_inj_of_notMem (hpoint hdigits) (hpoint hfraction)).1 h
    exact ⟨f, fs, rfl, hfraction f List.mem_cons_self⟩

/-- A point in the text of a double stands before a digit. -/
theorem isDigit_after_point {v : Binary64} {before after : List Char}
    (h : v.text.toList = before ++ '.' :: after) : ∃ c cs, after = c :: cs ∧ c.isDigit = true := by
  rcases v.text_cases with hw | ⟨d, hd | hd⟩
  · have hall : ∀ s ∈ ["NaN", "-inf", "inf", "0"], '.' ∉ s.toList := by decide
    exact absurd (by simp [h]) (hall _ hw)
  · rw [hd] at h
    cases before with
    | nil => cases h
    | cons b before => exact isDigit_after_point_write (List.cons.inj h).2
  · rw [hd] at h
    exact isDigit_after_point_write h

end Binary64

end FlowTypes
