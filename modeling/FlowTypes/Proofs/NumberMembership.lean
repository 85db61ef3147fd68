import FlowTypes.NumberSet.Basic
import FlowTypes.NumberSet.Canonical
import FlowTypes.Proofs.Ranges

/-!
# What a set of numbers denotes

`NumberSet.wellFormed` is what the constructors of ranges promise. `NumberSet.Denotes` is
membership of a point : a real interval holds the extended rationals between its bounds, an
interval of integers the finite integers, and `all` holds NaN as well. Membership of a double is
membership of the point it stands for (`has_iff_denotes`).

`subset` is sound for this reading (`Denotes.of_subset`), `meet` is exact (`denotes_meet`), and
both keep sets well-formed.
-/

namespace FlowTypes

open ExtendedRat Binary64

namespace NumberSet

/-! ## Well-formed sets -/

/-- Is the lower bound less than the upper one, with no sign on a zero? -/
def properBounds (lo hi : Binary64) : Bool :=
  lo < hi && lo.unsignedZero = lo && hi.unsignedZero = hi

/-- Bounds as ranges are built with : in ascending order, no zero with a sign, and whole where the
range is one of integers. -/
def wellFormed : NumberSet → Bool
  | all | literal _ => true
  | interval lo hi => properBounds lo hi
  | integers lo hi => lo.isWhole && hi.isWhole && properBounds lo hi

theorem properBounds_iff {lo hi : Binary64} :
    properBounds lo hi = true ↔ lo < hi ∧ lo.unsignedZero = lo ∧ hi.unsignedZero = hi := by
  simp only [properBounds, Bool.and_eq_true, decide_eq_true_eq, and_assoc]

theorem lt_of_wellFormed_interval {lo hi : Binary64} (h : (interval lo hi).wellFormed = true) :
    lo.isNaN = false ∧ hi.isNaN = false ∧ lo.value < hi.value :=
  lt_iff_value.1 (properBounds_iff.1 h).1

theorem whole_of_wellFormed_integers {lo hi : Binary64} (h : (integers lo hi).wellFormed = true) :
    lo.isWhole = true ∧ hi.isWhole = true ∧ lo.value < hi.value := by
  simp only [wellFormed, Bool.and_eq_true] at h
  exact ⟨h.1.1, h.1.2, (lt_iff_value.1 (properBounds_iff.1 h.2).1).2.2⟩

/-- Bounds in ascending order, made unsigned. -/
theorem properBounds_unsignedZero {lo hi : Binary64} (hlo : lo.isNaN = false)
    (hhi : hi.isNaN = false) (h : lo.value < hi.value) :
    properBounds lo.unsignedZero hi.unsignedZero = true := by
  refine properBounds_iff.2 ⟨lt_iff_value.2 ?_, unsignedZero_unsignedZero _,
    unsignedZero_unsignedZero _⟩
  rw [isNaN_unsignedZero, isNaN_unsignedZero, value_unsignedZero, value_unsignedZero]
  exact ⟨hlo, hhi, h⟩

/-! ## Points of a set -/

/-- Is the point in the set? -/
def Denotes : NumberSet → Option ExtendedRat → Prop
  | all, _ => True
  | literal v, p => v.exact = p
  | interval lo hi, p => ∃ q, p = some q ∧ lo.value ≤ q ∧ q ≤ hi.value
  | integers lo hi, p => ∃ z, p = some (int z) ∧ lo.value ≤ int z ∧ int z ≤ hi.value

theorem denotes_literal {v : Binary64} {p : Option ExtendedRat} :
    (literal v).Denotes p ↔ v.exact = p :=
  Iff.rfl

theorem denotes_interval {lo hi : Binary64} {p : Option ExtendedRat} :
    (interval lo hi).Denotes p ↔ ∃ q, p = some q ∧ Range.Contains ⟨lo, hi⟩ q :=
  Iff.rfl

theorem denotes_interval_some {lo hi : Binary64} {q : ExtendedRat} :
    (interval lo hi).Denotes (some q) ↔ lo.value ≤ q ∧ q ≤ hi.value := by
  simp only [Denotes, Option.some.injEq, exists_eq_left']

theorem denotes_integers_int {lo hi : Binary64} {z : ℤ} :
    (integers lo hi).Denotes (some (int z)) ↔ lo.value ≤ int z ∧ int z ≤ hi.value := by
  constructor
  · rintro ⟨k, hk, h⟩
    rwa [int_injective (Option.some.inj hk)]
  · exact fun h => ⟨z, rfl, h⟩

theorem exists_int_of_denotes_integers {lo hi : Binary64} {p : Option ExtendedRat}
    (h : (integers lo hi).Denotes p) : ∃ z : ℤ, p = some (int z) :=
  have ⟨z, hz, _⟩ := h
  ⟨z, hz⟩

theorem denotes_none_iff {n : NumberSet} : n.Denotes none ↔ n = all ∨ n = literal .nan := by
  cases n with
  | all => simp [Denotes]
  | literal v =>
    rw [denotes_literal, exact_eq_none]
    cases v <;> simp [isNaN]
  | interval lo hi => simp [Denotes]
  | integers lo hi => simp [Denotes]

theorem identity_identity (n : NumberSet) : n.identity.identity = n.identity := by
  cases n with
  | literal v => simp only [identity, unsignedZero_unsignedZero]
  | _ => rfl

theorem denotes_identity (n : NumberSet) (p : Option ExtendedRat) :
    n.identity.Denotes p ↔ n.Denotes p := by
  cases n with
  | literal v =>
    have h : v.unsignedZero.exact = v.exact := by
      rw [← same_iff_exact, same_iff, unsignedZero_unsignedZero]
    rw [identity, denotes_literal, denotes_literal, h]
  | _ => rfl

/-- A double is a member exactly if the point it stands for is. -/
theorem has_iff_denotes {n : NumberSet} (hn : n.wellFormed = true) (x : Binary64) :
    n.has x = true ↔ n.Denotes x.exact := by
  cases n with
  | all => simp only [has, Denotes]
  | literal v => rw [has, same_iff_exact, denotes_literal]
  | interval lo hi =>
    obtain ⟨hlo, hhi, -⟩ := lt_of_wellFormed_interval hn
    simp only [has, Bool.and_eq_true, decide_eq_true_eq, le_iff_value, hlo, hhi, true_and, Denotes,
      exact_eq_some]
    constructor
    · rintro ⟨⟨hx, h1⟩, -, h2⟩
      exact ⟨_, ⟨hx, rfl⟩, h1, h2⟩
    · rintro ⟨q, ⟨hx, rfl⟩, h1, h2⟩
      exact ⟨⟨hx, h1⟩, hx, h2⟩
  | integers lo hi =>
    obtain ⟨hlo, hhi, -⟩ := whole_of_wellFormed_integers hn
    simp only [has, Bool.and_eq_true, decide_eq_true_eq, le_iff_value, isNaN_of_isWhole hlo,
      isNaN_of_isWhole hhi, true_and, Denotes, exact_eq_some, isInteger_iff_value]
    constructor
    · rintro ⟨⟨⟨-, z, hz⟩, hx, h1⟩, -, h2⟩
      exact ⟨z, ⟨hx, hz⟩, hz ▸ h1, hz ▸ h2⟩
    · rintro ⟨z, ⟨hx, hz⟩, h1, h2⟩
      exact ⟨⟨⟨isFinite_of_value_eq_int hx hz, z, hz⟩, hx, hz ▸ h1⟩, hx, hz ▸ h2⟩

/-! ## Inclusion -/

/-- Inclusion of primitive sets is sound. -/
theorem Denotes.of_subset {a b : NumberSet} (hb : b.wellFormed = true) (h : a.subset b = true)
    {p : Option ExtendedRat} (hp : a.Denotes p) : b.Denotes p := by
  cases b with
  | all => trivial
  | literal w =>
    cases a with
    | literal v =>
      simp only [subset, has] at h
      rw [denotes_literal] at hp ⊢
      rw [← hp]
      exact same_iff_exact.1 h
    | _ => simp [subset] at h
  | interval lo' hi' =>
    cases a with
    | all => simp [subset] at h
    | literal v =>
      rw [denotes_literal] at hp
      rw [← hp]
      exact (has_iff_denotes hb v).1 h
    | interval lo hi =>
      simp only [subset, Bool.and_eq_true, decide_eq_true_eq, le_iff_value] at h
      obtain ⟨q, rfl, h1, h2⟩ := hp
      exact ⟨q, rfl, h.1.2.2.trans h1, h2.trans h.2.2.2⟩
    | integers lo hi =>
      simp only [subset, Bool.and_eq_true, decide_eq_true_eq, le_iff_value] at h
      obtain ⟨z, rfl, h1, h2⟩ := hp
      exact ⟨int z, rfl, h.1.2.2.trans h1, h2.trans h.2.2.2⟩
  | integers lo' hi' =>
    cases a with
    | all => simp [subset] at h
    | literal v =>
      rw [denotes_literal] at hp
      rw [← hp]
      exact (has_iff_denotes hb v).1 h
    | interval lo hi => simp [subset] at h
    | integers lo hi =>
      simp only [subset, Bool.and_eq_true, decide_eq_true_eq, le_iff_value] at h
      obtain ⟨z, rfl, h1, h2⟩ := hp
      exact ⟨z, rfl, h.1.2.2.trans h1, h2.trans h.2.2.2⟩

/-! ## Ranges that are built from bounds -/

/-- A range of reals holds the points between the bounds. -/
theorem denotes_interval? {lo hi : Binary64} (hlo : lo.isNaN = false) (hhi : hi.isNaN = false)
    (p : Option ExtendedRat) :
    (∃ n ∈ interval? lo hi, n.Denotes p) ↔ ∃ q, p = some q ∧ lo.value ≤ q ∧ q ≤ hi.value := by
  unfold interval?
  split
  · next hle =>
    split
    · next hge =>
      have heq : lo.value = hi.value :=
        le_antisymm (le_iff_value.1 hle).2.2 (le_iff_value.1 hge).2.2
      simp only [Option.mem_some_iff, exists_eq_left', denotes_literal,
        exact_eq_some.2 ⟨hlo, rfl⟩, ← heq]
      constructor
      · rintro rfl
        exact ⟨_, rfl, le_refl _, le_refl _⟩
      · rintro ⟨q, rfl, h1, h2⟩
        rw [le_antisymm h1 h2]
    · simp only [Option.mem_some_iff, exists_eq_left', Denotes, value_unsignedZero]
  · next hle =>
    simp only [Option.not_mem_none, false_and, exists_false, false_iff, not_exists]
    rintro q ⟨-, h1, h2⟩
    exact hle (le_iff_value.2 ⟨hlo, hhi, h1.trans h2⟩)

theorem wellFormed_interval? {lo hi : Binary64} {n : NumberSet} (h : n ∈ interval? lo hi) :
    n.wellFormed = true := by
  unfold interval? at h
  split at h
  · next hle =>
    split at h <;> cases h
    · rfl
    · next hge =>
      obtain ⟨hlo, hhi, -⟩ := le_iff_value.1 hle
      exact properBounds_unsignedZero hlo hhi
        (not_le.1 fun h => hge (le_iff_value.2 ⟨hhi, hlo, h⟩))
  · cases h

/-- A range of integers holds the integers between the bounds. -/
theorem denotes_integers? {lo hi : Binary64} (hlo : lo.isNaN = false) (hhi : hi.isNaN = false)
    (p : Option ExtendedRat) :
    (∃ n ∈ integers? lo hi, n.Denotes p) ↔
      ∃ z, p = some (int z) ∧ lo.value ≤ int z ∧ int z ≤ hi.value := by
  simp only [← value_ceil_le_int lo, ← int_le_value_floor hi]
  have hlo' := isWhole_ceil hlo
  have hlon : lo.ceil.isNaN = false := isNaN_of_isWhole hlo'
  have hhin : hi.floor.isNaN = false := isNaN_of_isWhole (isWhole_floor hhi)
  unfold integers?
  generalize lo.ceil = a at *
  generalize hi.floor = b at *
  simp only
  split
  · next hle =>
    split
    · next hge =>
      have heq : a.value = b.value :=
        le_antisymm (le_iff_value.1 hle).2.2 (le_iff_value.1 hge).2.2
      rw [← heq]
      split
      · next hf =>
        obtain ⟨z, hz⟩ := (isInteger_iff_value.1 (isInteger_of_isWhole hlo' hf)).2
        have hx : a.unsignedZero.exact = some (int z) :=
          exact_eq_some.2 ⟨by simpa using hlon, by simpa using hz⟩
        simp only [Option.mem_some_iff, exists_eq_left', denotes_literal, hx, hz]
        constructor
        · rintro rfl
          exact ⟨z, rfl, le_refl _, le_refl _⟩
        · rintro ⟨k, rfl, h1, h2⟩
          rw [le_antisymm h1 h2]
      · next hf =>
        simp only [Option.not_mem_none, false_and, exists_false, false_iff, not_exists]
        rintro z ⟨-, h1, h2⟩
        exact hf (isFinite_of_value_eq_int hlon (le_antisymm h1 h2))
    · simp only [Option.mem_some_iff, exists_eq_left', Denotes, value_unsignedZero]
  · next hle =>
    simp only [Option.not_mem_none, false_and, exists_false, false_iff, not_exists]
    rintro z ⟨-, h1, h2⟩
    exact hle (le_iff_value.2 ⟨hlon, hhin, h1.trans h2⟩)

theorem isWhole_unsignedZero (v : Binary64) : v.unsignedZero.isWhole = v.isWhole := by
  cases v with
  | finite s m hm =>
    simp only [unsignedZero]
    split
    · next h0 => subst h0; rfl
    · rfl
  | _ => rfl

theorem wellFormed_integers? {lo hi : Binary64} (hlo : lo.isNaN = false) (hhi : hi.isNaN = false)
    {n : NumberSet} (h : n ∈ integers? lo hi) : n.wellFormed = true := by
  have hlo' := isWhole_ceil hlo
  have hhi' := isWhole_floor hhi
  unfold integers? at h
  simp only at h
  split at h
  · next hle =>
    split at h
    · split at h <;> cases h
      rfl
    · next hge =>
      cases h
      simp only [wellFormed, isWhole_unsignedZero, hlo', hhi', Bool.true_and]
      refine properBounds_unsignedZero (isNaN_of_isWhole hlo') (isNaN_of_isWhole hhi')
        (not_le.1 fun h => hge (le_iff_value.2 ⟨isNaN_of_isWhole hhi', isNaN_of_isWhole hlo', h⟩))
  · cases h

/-- Integers between bounds that are not numbers are none. -/
theorem wellFormed_of_mem_integers? {lo hi : Binary64} {n : NumberSet} (h : n ∈ integers? lo hi) :
    n.wellFormed = true := by
  have hle : lo.ceil ≤ hi.floor := by
    by_contra hle
    simp [integers?, hle] at h
  obtain ⟨hlo, hhi, -⟩ := le_iff.1 hle
  exact wellFormed_integers? (by rwa [isNaN_ceil] at hlo) (by rwa [isNaN_floor] at hhi) h

/-- A well-formed range is built from its own bounds. -/
theorem interval?_of_wellFormed {lo hi : Binary64} (h : (interval lo hi).wellFormed = true) :
    interval? lo hi = some (interval lo hi) := by
  obtain ⟨hlt, hlo, hhi⟩ := properBounds_iff.1 h
  obtain ⟨hnan, hnan', hvalue⟩ := lt_iff_value.1 hlt
  have hle : lo ≤ hi := le_iff_value.2 ⟨hnan, hnan', hvalue.le⟩
  have hge : ¬hi ≤ lo := fun hge => absurd (le_iff_value.1 hge).2.2 (not_le.2 hvalue)
  rw [interval?, if_pos hle, if_neg hge, hlo, hhi]

theorem integers?_of_wellFormed {lo hi : Binary64} (h : (integers lo hi).wellFormed = true) :
    integers? lo hi = some (integers lo hi) := by
  simp only [wellFormed, Bool.and_eq_true] at h
  obtain ⟨⟨hwhole, hwhole'⟩, hbounds⟩ := h
  obtain ⟨hlt, hlo, hhi⟩ := properBounds_iff.1 hbounds
  obtain ⟨hnan, hnan', hvalue⟩ := lt_iff_value.1 hlt
  have hle : lo ≤ hi := le_iff_value.2 ⟨hnan, hnan', hvalue.le⟩
  have hge : ¬hi ≤ lo := fun hge => absurd (le_iff_value.1 hge).2.2 (not_le.2 hvalue)
  simp only [integers?, ceil_of_isWhole hwhole, floor_of_isWhole hwhole', if_pos hle, if_neg hge,
    hlo, hhi]

/-! ## Intersection -/

theorem maxNumber_spec {a b : Binary64} (ha : a.isNaN = false) (hb : b.isNaN = false) :
    (a.maxNumber b).isNaN = false ∧ (a.maxNumber b).value = max a.value b.value := by
  unfold maxNumber
  simp only [ha, hb, Bool.or_self, Bool.false_eq_true, if_false, lt_iff_value, true_and]
  split
  · next h => exact ⟨ha, (max_eq_left h.le).symm⟩
  · next h =>
    split
    · next h' => exact ⟨hb, (max_eq_right h'.le).symm⟩
    · next h' =>
      have heq : a.value = b.value := le_antisymm (not_lt.1 h) (not_lt.1 h')
      split
      · exact ⟨hb, by rw [heq, max_self]⟩
      · exact ⟨ha, by rw [heq, max_self]⟩

theorem minNumber_spec {a b : Binary64} (ha : a.isNaN = false) (hb : b.isNaN = false) :
    (a.minNumber b).isNaN = false ∧ (a.minNumber b).value = min a.value b.value := by
  unfold minNumber
  simp only [ha, hb, Bool.or_self, Bool.false_eq_true, if_false, lt_iff_value, true_and]
  split
  · next h => exact ⟨ha, (min_eq_left h.le).symm⟩
  · next h =>
    split
    · next h' => exact ⟨hb, (min_eq_right h'.le).symm⟩
    · next h' =>
      have heq : a.value = b.value := le_antisymm (not_lt.1 h') (not_lt.1 h)
      split
      · exact ⟨ha, by rw [heq, min_self]⟩
      · exact ⟨hb, by rw [heq, min_self]⟩

/-- The integers between the narrower bounds of two ranges. -/
theorem denotes_integers?_narrow {lo hi lo' hi' : Binary64} (hlo : lo.isNaN = false)
    (hhi : hi.isNaN = false) (hlo' : lo'.isNaN = false) (hhi' : hi'.isNaN = false)
    (p : Option ExtendedRat) :
    (∃ n ∈ integers? (lo.maxNumber lo') (hi.minNumber hi'), n.Denotes p) ↔
      ∃ z, p = some (int z) ∧ (lo.value ≤ int z ∧ int z ≤ hi.value) ∧
        lo'.value ≤ int z ∧ int z ≤ hi'.value := by
  obtain ⟨hn, hv⟩ := maxNumber_spec hlo hlo'
  obtain ⟨hn', hv'⟩ := minNumber_spec hhi hhi'
  rw [denotes_integers? hn hn', hv, hv']
  simp only [max_le_iff, le_min_iff]
  refine exists_congr fun z => and_congr_right fun _ => ?_
  tauto

/-- Where the range of a literal is met, the literal stays if it is a member. -/
theorem denotes_meet_literal {b : NumberSet} (hb : b.wellFormed = true) (v : Binary64)
    (p : Option ExtendedRat) :
    (∃ n ∈ (if b.has v then some (literal v) else none), n.Denotes p) ↔
      (literal v).Denotes p ∧ b.Denotes p := by
  rw [denotes_literal]
  split
  · next h =>
    simp only [Option.mem_some_iff, exists_eq_left', denotes_literal]
    refine ⟨fun hp => ⟨hp, hp ▸ (has_iff_denotes hb v).1 h⟩, fun hp => hp.1⟩
  · next h =>
    simp only [Option.not_mem_none, false_and, exists_false, false_iff, not_and]
    rintro rfl hp
    exact h ((has_iff_denotes hb v).2 hp)

/-- The intersection of two ranges, one of them of integers, holds the integers of both. -/
theorem denotes_meet_integers {a b : NumberSet} {lo hi lo' hi' : Binary64}
    (hlo : lo.isNaN = false) (hhi : hi.isNaN = false) (hlo' : lo'.isNaN = false)
    (hhi' : hi'.isNaN = false)
    (ha : ∀ z : ℤ, a.Denotes (some (int z)) ↔ lo.value ≤ int z ∧ int z ≤ hi.value)
    (hb : ∀ z : ℤ, b.Denotes (some (int z)) ↔ lo'.value ≤ int z ∧ int z ≤ hi'.value)
    {p : Option ExtendedRat} (hint : a.Denotes p → b.Denotes p → ∃ z : ℤ, p = some (int z)) :
    (∃ n ∈ integers? (lo.maxNumber lo') (hi.minNumber hi'), n.Denotes p) ↔
      a.Denotes p ∧ b.Denotes p := by
  rw [denotes_integers?_narrow hlo hhi hlo' hhi']
  constructor
  · rintro ⟨z, rfl, h, h'⟩
    exact ⟨(ha z).2 h, (hb z).2 h'⟩
  · rintro ⟨h, h'⟩
    obtain ⟨z, rfl⟩ := hint h h'
    exact ⟨z, rfl, (ha z).1 h, (hb z).1 h'⟩

/-- The intersection of two primitive sets holds the points of both. -/
theorem denotes_meet (lead : Side) {a b : NumberSet} (ha : a.wellFormed = true)
    (hb : b.wellFormed = true) (p : Option ExtendedRat) :
    (∃ n ∈ a.meet lead b, n.Denotes p) ↔ a.Denotes p ∧ b.Denotes p := by
  cases a with
  | all => simp [meet, Denotes]
  | literal v =>
    cases b with
    | all => simp [meet, Denotes]
    | literal w =>
      simp only [meet, denotes_literal]
      split
      · next h =>
        have heq := same_iff_exact.1 h
        cases lead <;> simp [Side.pick, denotes_literal, heq]
      · next h =>
        rw [same_iff_exact] at h
        simp only [Option.not_mem_none, false_and, exists_false, false_iff, not_and]
        rintro rfl heq
        exact h heq.symm
    | interval lo hi => exact denotes_meet_literal hb v p
    | integers lo hi => exact denotes_meet_literal hb v p
  | interval lo hi =>
    obtain ⟨hlo, hhi, -⟩ := lt_of_wellFormed_interval ha
    cases b with
    | all => simp [meet, Denotes]
    | literal w =>
      rw [and_comm]
      exact denotes_meet_literal ha w p
    | interval lo' hi' =>
      obtain ⟨hlo', hhi', -⟩ := lt_of_wellFormed_interval hb
      obtain ⟨hn, hv⟩ := maxNumber_spec hlo hlo'
      obtain ⟨hn', hv'⟩ := minNumber_spec hhi hhi'
      rw [meet, denotes_interval? hn hn', hv, hv']
      simp only [max_le_iff, le_min_iff, Denotes]
      constructor
      · rintro ⟨q, rfl, ⟨h1, h2⟩, h3, h4⟩
        exact ⟨⟨q, rfl, h1, h3⟩, q, rfl, h2, h4⟩
      · rintro ⟨⟨q, rfl, h1, h3⟩, q', hq, h2, h4⟩
        cases hq
        exact ⟨q, rfl, ⟨h1, h2⟩, h3, h4⟩
    | integers lo' hi' =>
      obtain ⟨hlo', hhi', -⟩ := whole_of_wellFormed_integers hb
      exact denotes_meet_integers hlo hhi (isNaN_of_isWhole hlo') (isNaN_of_isWhole hhi')
        (fun _ => denotes_interval_some) (fun _ => denotes_integers_int)
        fun _ => exists_int_of_denotes_integers
  | integers lo hi =>
    obtain ⟨hlo, hhi, -⟩ := whole_of_wellFormed_integers ha
    cases b with
    | all => simp [meet, Denotes]
    | literal w =>
      rw [and_comm]
      exact denotes_meet_literal ha w p
    | interval lo' hi' =>
      obtain ⟨hlo', hhi', -⟩ := lt_of_wellFormed_interval hb
      exact denotes_meet_integers (isNaN_of_isWhole hlo) (isNaN_of_isWhole hhi) hlo' hhi'
        (fun _ => denotes_integers_int) (fun _ => denotes_interval_some)
        fun h _ => exists_int_of_denotes_integers h
    | integers lo' hi' =>
      obtain ⟨hlo', hhi', -⟩ := whole_of_wellFormed_integers hb
      exact denotes_meet_integers (isNaN_of_isWhole hlo) (isNaN_of_isWhole hhi)
        (isNaN_of_isWhole hlo') (isNaN_of_isWhole hhi') (fun _ => denotes_integers_int)
        (fun _ => denotes_integers_int) fun h _ => exists_int_of_denotes_integers h

/-- A meet is one of the two sets, or what is between the narrower bounds of two ranges: all the
numbers if both ranges hold all of theirs, else the integers. -/
theorem cases_of_mem_meet {lead : Side} {a b n : NumberSet} (hn : n ∈ a.meet lead b) :
    n = a ∨ n = b ∨
      (∃ lo hi lo' hi', a = interval lo hi ∧ b = interval lo' hi' ∧
        n ∈ interval? (lo.maxNumber lo') (hi.minNumber hi')) ∨
      ∃ lo hi lo' hi', a.bounds? = some (lo, hi) ∧ b.bounds? = some (lo', hi') ∧
        n ∈ integers? (lo.maxNumber lo') (hi.minNumber hi') := by
  have ofLiteral : ∀ {c : Bool} {m : NumberSet}, n ∈ (if c then some m else none) → n = m := by
    intro c m h
    split at h <;> cases h
    rfl
  cases a with
  | all => exact .inr (.inl (Option.mem_some_iff.1 hn).symm)
  | literal v =>
    cases b with
    | all => exact .inl (Option.mem_some_iff.1 hn).symm
    | literal w =>
      cases lead
      · exact .inl (ofLiteral hn)
      · exact .inr (.inl (ofLiteral hn))
    | interval lo' hi' => exact .inl (ofLiteral hn)
    | integers lo' hi' => exact .inl (ofLiteral hn)
  | interval lo hi =>
    cases b with
    | all => exact .inl (Option.mem_some_iff.1 hn).symm
    | literal w => exact .inr (.inl (ofLiteral hn))
    | interval lo' hi' => exact .inr (.inr (.inl ⟨lo, hi, lo', hi', rfl, rfl, hn⟩))
    | integers lo' hi' => exact .inr (.inr (.inr ⟨lo, hi, lo', hi', rfl, rfl, hn⟩))
  | integers lo hi =>
    cases b with
    | all => exact .inl (Option.mem_some_iff.1 hn).symm
    | literal w => exact .inr (.inl (ofLiteral hn))
    | interval lo' hi' => exact .inr (.inr (.inr ⟨lo, hi, lo', hi', rfl, rfl, hn⟩))
    | integers lo' hi' => exact .inr (.inr (.inr ⟨lo, hi, lo', hi', rfl, rfl, hn⟩))

theorem isNaN_of_bounds? {n : NumberSet} (hn : n.wellFormed = true) {lo hi : Binary64}
    (h : n.bounds? = some (lo, hi)) : lo.isNaN = false ∧ hi.isNaN = false := by
  cases n with
  | all => cases h
  | literal v => cases h
  | interval lo hi =>
    cases h
    obtain ⟨hlo, hhi, -⟩ := lt_of_wellFormed_interval hn
    exact ⟨hlo, hhi⟩
  | integers lo hi =>
    cases h
    obtain ⟨hlo, hhi, -⟩ := whole_of_wellFormed_integers hn
    exact ⟨isNaN_of_isWhole hlo, isNaN_of_isWhole hhi⟩

theorem wellFormed_meet (lead : Side) {a b : NumberSet} (ha : a.wellFormed = true)
    (hb : b.wellFormed = true) {n : NumberSet} (hn : n ∈ a.meet lead b) :
    n.wellFormed = true := by
  obtain rfl | rfl | ⟨lo, hi, lo', hi', rfl, rfl, hn⟩ | ⟨lo, hi, lo', hi', hbounds, hbounds', hn⟩ :=
    cases_of_mem_meet hn
  · exact ha
  · exact hb
  · exact wellFormed_interval? hn
  · obtain ⟨hlo, hhi⟩ := isNaN_of_bounds? ha hbounds
    obtain ⟨hlo', hhi'⟩ := isNaN_of_bounds? hb hbounds'
    exact wellFormed_integers? (maxNumber_spec hlo hlo').1 (minNumber_spec hhi hhi').1 hn

end NumberSet

end FlowTypes
