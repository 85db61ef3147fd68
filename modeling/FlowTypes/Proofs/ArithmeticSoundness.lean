import FlowTypes.Proofs.ArithmeticOrder
import FlowTypes.Proofs.Difference
import FlowTypes.Proofs.WellFormedArithmetic
import FlowTypes.Registry.Builtins

/-!
# Arithmetic on types is sound

The sum, difference and product of a number of one type and a number of another are numbers of the
sum, difference and product of the types, and one over a number is one of the reciprocal type
(`Ty.arithmetic_sound`). Only where two finite numbers overflow may the result miss the infinity
(`Binary64.Overflows`) : a range of integers holds none.

For two primitive sets, bounds are added and multiplied like members, and the order of doubles
puts the result between theirs (`Spans.add_between`, `hasSome_multiplyEnds`,
`hasSome_reciprocalBetween`). Results that no range can hold are kept apart : NaN where opposite
infinities meet (`hasSome_addRanges`), and both infinities for zeros that have lost their sign.
-/

namespace FlowTypes

open Binary64

namespace Binary64

/-- Is this an infinite result of two finite operands? -/
def Overflows (x y result : Binary64) : Prop :=
  x.isFinite = true ∧ y.isFinite = true ∧ (result = posInf ∨ result = negInf)

instance (x y result : Binary64) : Decidable (Overflows x y result) :=
  inferInstanceAs (Decidable (_ ∧ _ ∧ _))

theorem isFinite_of_not_overflows {x y r : Binary64} (hx : x.isFinite = true)
    (hy : y.isFinite = true) (hr : r.isNaN = false) (h : ¬Overflows x y r) :
    r.isFinite = true := by
  cases r with
  | nan => cases hr
  | infinity s =>
    refine absurd ⟨hx, hy, ?_⟩ h
    cases s
    · exact Or.inl rfl
    · exact Or.inr rfl
  | finite s m hm => rfl

end Binary64

namespace NumberSet

variable {a b n : NumberSet} {ns ms : List NumberSet} {x y lo hi lo' hi' : Binary64}

/-! ## Members of lists of sets -/

/-- Has one of the sets the number? -/
def HasSome (ns : List NumberSet) (x : Binary64) : Prop :=
  ∃ n ∈ ns, n.has x = true

theorem hasSome_singleton : HasSome [n] x ↔ n.has x = true := by
  simp [HasSome]

theorem hasSome_append : HasSome (ns ++ ms) x ↔ HasSome ns x ∨ HasSome ms x := by
  simp [HasSome, or_and_right, exists_or]

theorem hasSome_cons : HasSome (n :: ns) x ↔ n.has x = true ∨ HasSome ns x := by
  simp [HasSome]

theorem HasSome.canonical (hns : AllWellFormed ns) (h : HasSome ns x) :
    HasSome (canonical ns) x :=
  (has_canonical hns x).2 h

theorem hasSome_interval? (h1 : lo ≤ x) (h2 : x ≤ hi) : HasSome (interval? lo hi).toList x := by
  obtain ⟨n, hn, hx⟩ := (has_interval? (le_iff.1 h1).1 (le_iff.1 h2).2.1 x).2 ⟨h1, h2⟩
  exact ⟨n, Option.mem_toList.2 hn, hx⟩

theorem hasSome_integers? (hx : x.isInteger = true) (h1 : lo ≤ x) (h2 : x ≤ hi) :
    HasSome (integers? lo hi).toList x := by
  obtain ⟨hlo, hxn, h1⟩ := le_iff_value.1 h1
  obtain ⟨-, hhi, h2⟩ := le_iff_value.1 h2
  obtain ⟨-, z, hz⟩ := isInteger_iff_value.1 hx
  obtain ⟨n, hn, hx⟩ := (has_integers? hlo hhi x).2
    ⟨z, exact_eq_some.2 ⟨hxn, hz⟩, hz ▸ h1, hz ▸ h2⟩
  exact ⟨n, Option.mem_toList.2 hn, hx⟩

theorem has_interval : (interval lo hi).has x = true ↔ lo ≤ x ∧ x ≤ hi := by
  simp [has]

theorem has_integers : (integers lo hi).has x = true ↔ x.isInteger = true ∧ lo ≤ x ∧ x ≤ hi := by
  simp [has, and_assoc]

/-! ## Sums -/

/-- Bounds of a number that leave their sums with other such bounds defined. -/
structure Spans (lo hi x : Binary64) : Prop where
  lo_le : lo ≤ x
  le_hi : x ≤ hi
  lo_ne : lo ≠ posInf
  hi_ne : hi ≠ negInf

theorem spans_of_lt (h : lo < hi) (h1 : lo ≤ x) (h2 : x ≤ hi) : Spans lo hi x where
  lo_le := h1
  le_hi := h2
  lo_ne := by
    rintro rfl
    have hhi : hi = posInf := eq_posInf_of_le (Binary64.le_trans h1 h2)
    rw [hhi, lt_iff] at h
    exact lt_irrefl _ h.2.2
  hi_ne := by
    rintro rfl
    have hlo : lo = negInf := eq_negInf_of_le (Binary64.le_trans h1 h2)
    rw [hlo, lt_iff] at h
    exact lt_irrefl _ h.2.2

theorem spans_of_same {v : Binary64} (hv : v.isFinite = true) (h : v.same x = true) :
    Spans v v x where
  lo_le := (le_of_same (isNaN_of_isFinite hv) h).1
  le_hi := (le_of_same (isNaN_of_isFinite hv) h).2
  lo_ne := ne_infinity_of_isFinite hv false
  hi_ne := ne_infinity_of_isFinite hv true

theorem spans_of_has_interval (hn : (interval lo hi).wellFormed = true)
    (hx : (interval lo hi).has x = true) : Spans lo hi x := by
  obtain ⟨h1, h2⟩ := has_interval.1 hx
  exact spans_of_lt (properBounds_iff.1 hn).1 h1 h2

theorem spans_of_has_integers (hn : (integers lo hi).wellFormed = true)
    (hx : (integers lo hi).has x = true) : x.isInteger = true ∧ Spans lo hi x := by
  obtain ⟨hi, h1, h2⟩ := has_integers.1 hx
  simp only [wellFormed, Bool.and_eq_true] at hn
  exact ⟨hi, spans_of_lt (properBounds_iff.1 hn.2).1 h1 h2⟩

theorem Spans.isNaN (h : Spans lo hi x) : x.isNaN = false :=
  (le_iff.1 h.lo_le).2.1

theorem Spans.add_between (hx : Spans lo hi x) (hy : Spans lo' hi' y)
    (h : (x + y).isNaN = false) : lo + lo' ≤ x + y ∧ x + y ≤ hi + hi' := by
  have hlo := isNaN_add_of_ne (le_iff.1 hx.lo_le).1 (le_iff.1 hy.lo_le).1 false hx.lo_ne hy.lo_ne
  have hhi :=
    isNaN_add_of_ne (le_iff.1 hx.le_hi).2.1 (le_iff.1 hy.le_hi).2.1 true hx.hi_ne hy.hi_ne
  exact ⟨Binary64.add_le_add hx.lo_le hy.lo_le hlo h, Binary64.add_le_add hx.le_hi hy.le_hi h hhi⟩

theorem Spans.hasSome_interval?_add (hx : Spans lo hi x) (hy : Spans lo' hi' y)
    (h : (x + y).isNaN = false) : HasSome (interval? (lo + lo') (hi + hi')).toList (x + y) :=
  hasSome_interval? (hx.add_between hy h).1 (hx.add_between hy h).2

theorem Spans.hasSome_integers?_add (hx : Spans lo hi x) (hy : Spans lo' hi' y)
    (hxi : x.isInteger = true) (hyi : y.isInteger = true) (h : ¬Overflows x y (x + y)) :
    HasSome (integers? (lo + lo') (hi + hi')).toList (x + y) := by
  have hxf := isFinite_of_isInteger hxi
  have hyf := isFinite_of_isInteger hyi
  have hsum := isFinite_of_not_overflows hxf hyf (isNaN_add hxf hyf) h
  obtain ⟨h1, h2⟩ := hx.add_between hy (isNaN_add hxf hyf)
  exact hasSome_integers? (isInteger_of_isWhole (isWhole_add hxi hyi) hsum) h1 h2

theorem isNaN_of_has (hliteral : n.literal? = none) (hall : n ≠ all) (hx : n.has x = true) :
    x.isNaN = false := by
  cases n with
  | all => exact absurd rfl hall
  | literal v => cases hliteral
  | interval lo hi => exact (le_iff.1 (has_interval.1 hx).1).2.1
  | integers lo hi => exact isNaN_of_isFinite (isFinite_of_isInteger (has_integers.1 hx).1)

/-- Where the sum of two members is none, the ranges have opposite infinities. -/
theorem hasSome_addRanges {sum : Option NumberSet} (hx : a.has x = true) (hy : b.has y = true)
    (hxn : x.isNaN = false) (hyn : y.isNaN = false) (hsum : AllWellFormed sum.toList)
    (h : (x + y).isNaN = false → HasSome sum.toList (x + y)) :
    HasSome (addRanges a b sum) (x + y) := by
  unfold addRanges
  cases hnan : (x + y).isNaN with
  | true =>
    obtain ⟨s, rfl, rfl⟩ := opposite_of_isNaN_add hxn hyn hnan
    have hmeet : meetInfinities a b = true := by
      cases s with
      | false => exact Bool.or_eq_true_iff.2 (Or.inr (Bool.and_eq_true_iff.2 ⟨hx, hy⟩))
      | true => exact Bool.or_eq_true_iff.2 (Or.inl (Bool.and_eq_true_iff.2 ⟨hx, hy⟩))
    rw [if_pos hmeet, eq_nan_of_isNaN hnan]
    exact HasSome.canonical (by simp [hsum]) (hasSome_append.2 (Or.inr (hasSome_singleton.2 rfl)))
  | false =>
    split
    · exact HasSome.canonical (by simp [hsum]) (hasSome_append.2 (Or.inl (h hnan)))
    · exact h hnan

theorem hasSome_addLiteral {v : Binary64} (hb : b.wellFormed = true) (hliteral : b.literal? = none)
    (hx : v.same x = true) (hy : b.has y = true) (h : ¬Overflows x y (x + y)) :
    HasSome (addLiteral v b) (x + y) := by
  cases v with
  | nan =>
    obtain rfl := eq_of_same rfl hx
    exact hasSome_singleton.2 rfl
  | infinity s =>
    obtain rfl := eq_of_same rfl hx
    simp only [addLiteral]
    cases hnan : (infinity s + y).isNaN with
    | true =>
      have hopposite : b.has (infinity !s) = true := by
        rcases eq_or_ne b all with rfl | hall
        · rfl
        obtain ⟨_, hs, rfl⟩ := opposite_of_isNaN_add rfl (isNaN_of_has hliteral hall hy) hnan
        cases hs
        exact hy
      rw [if_pos hopposite, eq_nan_of_isNaN hnan]
      exact HasSome.canonical (by simp) (hasSome_cons.2 (Or.inl rfl))
    | false =>
      rw [infinity_add s hnan]
      split
      · exact HasSome.canonical (by simp)
          (hasSome_cons.2 (Or.inr (hasSome_singleton.2 (same_refl _))))
      · exact hasSome_singleton.2 (same_refl _)
  | finite s m hm =>
    have hxs := spans_of_same rfl hx
    have hsum : y.isNaN = false → (x + y).isNaN = false :=
      isNaN_add_of_isFinite (isFinite_of_same rfl hx)
    cases b with
    | all => exact hasSome_singleton.2 rfl
    | literal w => cases hliteral
    | interval lo hi =>
      have hys := spans_of_has_interval hb hy
      exact hxs.hasSome_interval?_add hys (hsum hys.isNaN)
    | integers lo hi =>
      obtain ⟨hyi, hys⟩ := spans_of_has_integers hb hy
      simp only [addLiteral]
      split
      · next hvi => exact hxs.hasSome_integers?_add hys (isInteger_of_same hvi hx) hyi h
      · exact hxs.hasSome_interval?_add hys (hsum hys.isNaN)

/-- The sum of two ranges of which one is real. -/
theorem hasSome_addRanges_interval? (hx : a.has x = true) (hy : b.has y = true)
    (hxs : Spans lo hi x) (hys : Spans lo' hi' y) :
    HasSome (addRanges a b (interval? (lo + lo') (hi + hi'))) (x + y) :=
  hasSome_addRanges hx hy hxs.isNaN hys.isNaN (allWellFormed_interval? _ _)
    (hxs.hasSome_interval?_add hys)

theorem hasSome_addOne (ha : a.wellFormed = true) (hb : b.wellFormed = true)
    (hx : a.has x = true) (hy : b.has y = true) (h : ¬Overflows x y (x + y)) :
    HasSome (addOne a b) (x + y) := by
  have hswap : ∀ {w}, b = literal w → a.literal? = none → HasSome (addLiteral w a) (x + y) := by
    rintro w rfl hliteral
    rw [Binary64.add_comm] at h ⊢
    exact hasSome_addLiteral ha hliteral hy hx fun ⟨h1, h2, h3⟩ => h ⟨h2, h1, h3⟩
  cases a with
  | all =>
    cases b with
    | literal w => exact hswap rfl rfl
    | _ => exact hasSome_singleton.2 rfl
  | literal v =>
    cases b with
    | literal w => exact hasSome_singleton.2 (same_add hx hy)
    | _ => exact hasSome_addLiteral hb rfl hx hy h
  | interval lo hi =>
    have hxs := spans_of_has_interval ha hx
    cases b with
    | all => exact hasSome_singleton.2 rfl
    | literal w => exact hswap rfl rfl
    | interval lo' hi' =>
      exact hasSome_addRanges_interval? hx hy hxs (spans_of_has_interval hb hy)
    | integers lo' hi' =>
      exact hasSome_addRanges_interval? hx hy hxs (spans_of_has_integers hb hy).2
  | integers lo hi =>
    obtain ⟨hxi, hxs⟩ := spans_of_has_integers ha hx
    cases b with
    | all => exact hasSome_singleton.2 rfl
    | literal w => exact hswap rfl rfl
    | interval lo' hi' =>
      exact hasSome_addRanges_interval? hx hy hxs (spans_of_has_interval hb hy)
    | integers lo' hi' =>
      obtain ⟨hyi, hys⟩ := spans_of_has_integers hb hy
      exact hasSome_addRanges hx hy hxs.isNaN hys.isNaN (allWellFormed_integers? _ _)
        fun _ => hxs.hasSome_integers?_add hys hxi hyi h

/-! ## Products -/

/-- Members of a set with a finite lower end lie between its ends. -/
theorem between_ends (h : n.ends? = some (lo, hi)) (hlo : lo.isFinite = true)
    (hx : n.has x = true) : lo ≤ x ∧ x ≤ hi := by
  cases n with
  | all => cases h
  | literal v =>
    cases h
    exact le_of_same (isNaN_of_isFinite hlo) hx
  | interval lo' hi' =>
    cases h
    exact has_interval.1 hx
  | integers lo' hi' =>
    cases h
    exact (has_integers.1 hx).2

theorem isInteger_of_isIntegral (h : n.isIntegral = true) (hx : n.has x = true) :
    x.isInteger = true := by
  cases n with
  | all => cases h
  | literal v => exact isInteger_of_same h hx
  | interval lo hi => cases h
  | integers lo hi => exact (has_integers.1 hx).1

/-- A fold whose every step is bounded by both operands is bounded by all that is folded in. -/
theorem foldl_bounded {R : Binary64 → Binary64 → Prop} {f : Binary64 → Binary64 → Binary64}
    (hrefl : ∀ {a}, a.isNaN = false → R a a) (htrans : ∀ {a b c}, R a b → R b c → R a c)
    (hf : ∀ {m v}, m.isNaN = false → v.isNaN = false →
      (f m v).isNaN = false ∧ R (f m v) m ∧ R (f m v) v) :
    ∀ (vs : List Binary64) (m : Binary64), m.isNaN = false → (∀ v ∈ vs, v.isNaN = false) →
      R (vs.foldl f m) m ∧ ∀ v ∈ vs, R (vs.foldl f m) v
  | [], m, hm, _ => ⟨hrefl hm, by simp⟩
  | v :: vs, m, hm, hvs => by
    obtain ⟨hv, hvs⟩ := List.forall_mem_cons.1 hvs
    obtain ⟨hn, hstep, hstep'⟩ := hf hm hv
    obtain ⟨hfold, hfold'⟩ := foldl_bounded hrefl htrans hf vs (f m v) hn hvs
    exact ⟨htrans hfold hstep, List.forall_mem_cons.2 ⟨htrans hfold hstep', hfold'⟩⟩

/-- The least of some numbers is at most each of them. -/
theorem least_le {vs : List Binary64} (hvs : ∀ v ∈ vs, v.isNaN = false) {v : Binary64}
    (hv : v ∈ vs) : least vs ≤ v := by
  refine (foldl_bounded (R := fun a b => a ≤ b) Binary64.le_refl Binary64.le_trans ?_ vs .posInf
    rfl hvs).2 v hv
  intro m v hm hv
  split
  · next hlt => exact ⟨hv, Binary64.le_of_lt hlt, Binary64.le_refl hv⟩
  · next hlt => exact ⟨hm, Binary64.le_refl hm, Binary64.le_of_not_lt hm hv hlt⟩

/-- The greatest of some numbers is at least each of them. -/
theorem le_greatest {vs : List Binary64} (hvs : ∀ v ∈ vs, v.isNaN = false) {v : Binary64}
    (hv : v ∈ vs) : v ≤ greatest vs := by
  refine (foldl_bounded (R := fun a b => b ≤ a) Binary64.le_refl
    (fun h h' => Binary64.le_trans h' h) ?_ vs .negInf rfl hvs).2 v hv
  intro m v hm hv
  split
  · next hlt => exact ⟨hv, Binary64.le_of_lt hlt, Binary64.le_refl hv⟩
  · next hlt => exact ⟨hm, Binary64.le_refl hm, Binary64.le_of_not_lt hv hm hlt⟩

theorem hasSome_multiplyEnds (ha : a.ends? = some (lo, hi)) (hb : b.ends? = some (lo', hi'))
    (hlo : lo.isFinite = true) (hhi : hi.isFinite = true) (hlo' : lo'.isFinite = true)
    (hhi' : hi'.isFinite = true) (hx : a.has x = true) (hy : b.has y = true)
    (h : ¬Overflows x y (x * y)) : HasSome (multiplyEnds a b lo hi lo' hi') (x * y) := by
  obtain ⟨h1, h2⟩ := between_ends ha hlo hx
  obtain ⟨h1', h2'⟩ := between_ends hb hlo' hy
  obtain ⟨⟨c, hc, hcle⟩, d, hd, hdle⟩ := mul_between_corners hlo hhi hlo' hhi' h1 h2 h1' h2'
  have hcorners : ∀ v ∈ [lo * lo', lo * hi', hi * lo', hi * hi'], v.isNaN = false := by
    simp [isNaN_mul, *]
  have hbelow := Binary64.le_trans (least_le hcorners hc) hcle
  have habove := Binary64.le_trans hdle (le_greatest hcorners hd)
  simp only [multiplyEnds]
  split
  · next hint =>
    obtain ⟨hai, hbi⟩ := Bool.and_eq_true_iff.1 hint
    have hxi := isInteger_of_isIntegral hai hx
    have hyi := isInteger_of_isIntegral hbi hy
    have hxf := isFinite_of_isInteger hxi
    have hyf := isFinite_of_isInteger hyi
    have hfin := isFinite_of_not_overflows hxf hyf (isNaN_mul hxf hyf) h
    exact hasSome_integers? (isInteger_of_isWhole (isWhole_mul hxi hyi) hfin) hbelow habove
  · exact hasSome_interval? hbelow habove

theorem isFinite_of_ends (h : n.ends? = some (lo, hi)) (hlo : lo.isFinite = true)
    (hhi : hi.isFinite = true) (hx : n.has x = true) : x.isFinite = true := by
  obtain ⟨h1, h2⟩ := between_ends h hlo hx
  exact isFinite_of_between h1 h2 (ne_infinity_of_isFinite hlo true)
    (ne_infinity_of_isFinite hhi false)

theorem same_zero_of_isZero (h : n.isZero = true) (hx : n.has x = true) :
    Binary64.zero.same x = true := by
  cases n with
  | literal v =>
    simp only [isZero, same, identity, decide_eq_true_eq, literal.injEq] at h
    exact same_trans (same_iff.2 h.symm) hx
  | _ => simp [isZero, same, identity] at h

/-- Zero times a finite number is zero. -/
theorem zero_mul_same (hy : y.isFinite = true) :
    Binary64.zero.same (Binary64.zero * y) = true := by
  refine same_of_position rfl (isNaN_mul rfl hy) ?_
  have hzero : Binary64.zero.position = 0 := rfl
  rw [position_mul rfl hy, hzero, Int.zero_mul, roundQuotient_zero]

/-- A product of finite members is zero if one of the sets is. -/
theorem zero_same_mul (hxf : x.isFinite = true) (hyf : y.isFinite = true) (hx : a.has x = true)
    (hy : b.has y = true) (h : (a.isZero || b.isZero) = true) :
    Binary64.zero.same (x * y) = true := by
  rcases Bool.or_eq_true_iff.1 h with h | h
  · exact same_trans (zero_mul_same hyf) (same_mul (same_zero_of_isZero h hx) (same_refl y))
  · rw [Binary64.mul_comm]
    exact same_trans (zero_mul_same hxf) (same_mul (same_zero_of_isZero h hy) (same_refl x))

theorem multiplyOne_eq (h : a.literal? = none ∨ b.literal? = none) : multiplyOne a b =
    if a = literal .nan || b = literal .nan then [literal .nan]
    else
      match a.ends?, b.ends? with
      | some (lo, hi), some (lo', hi') =>
        if [lo, hi, lo', hi'].all (·.isFinite) then
          if a.isZero || b.isZero then [literal .zero] else multiplyEnds a b lo hi lo' hi'
        else [all]
      | _, _ => [all] := by
  cases a with
  | literal v =>
    cases b with
    | literal w => simp [literal?] at h
    | _ => rfl
  | _ => rfl

theorem hasSome_multiplyOne (hx : a.has x = true) (hy : b.has y = true)
    (h : ¬Overflows x y (x * y)) : HasSome (multiplyOne a b) (x * y) := by
  by_cases hliteral : a.literal? = none ∨ b.literal? = none
  · rw [multiplyOne_eq hliteral]
    split
    · next hnan =>
      simp only [Bool.or_eq_true, decide_eq_true_eq] at hnan
      rcases hnan with rfl | rfl
      · exact hasSome_singleton.2 (same_mul hx (same_refl y))
      · rw [Binary64.mul_comm]
        exact hasSome_singleton.2 (same_mul hy (same_refl x))
    · split
      · next lo hi lo' hi' ha hb =>
        split
        · next hfinite =>
          simp only [List.all_cons, List.all_nil, Bool.and_true, Bool.and_eq_true] at hfinite
          obtain ⟨hlo, hhi, hlo', hhi'⟩ := hfinite
          split
          · next hzero =>
            exact hasSome_singleton.2 (zero_same_mul (isFinite_of_ends ha hlo hhi hx)
              (isFinite_of_ends hb hlo' hhi' hy) hx hy hzero)
          · exact hasSome_multiplyEnds ha hb hlo hhi hlo' hhi' hx hy h
        · exact hasSome_singleton.2 rfl
      · exact hasSome_singleton.2 rfl
  · cases a with
    | literal v =>
      cases b with
      | literal w => exact hasSome_singleton.2 (same_mul hx hy)
      | _ => simp [literal?] at hliteral
    | _ => simp [literal?] at hliteral

/-! ## Reciprocals -/

/-- On either side of zero the reciprocals of bounds are bounds. -/
theorem hasSome_interval?_one_div (h1 : lo ≤ x) (h2 : x ≤ hi)
    (hlo : lo.isNegative = x.isNegative) (hhi : x.isNegative = hi.isNegative) :
    HasSome (interval? (.one / hi) (.one / lo)).toList (.one / x) :=
  hasSome_interval? (one_div_le_one_div hhi h2) (one_div_le_one_div hlo h1)

theorem hasSome_reciprocalBetween {gap : Binary64} (h1 : lo ≤ x) (h2 : x ≤ hi)
    (hgap : gap.isNaN = false) (hpositive : gap.isNegative = false)
    (hstep : x.position ≠ 0 → gap.position ≤ x.position.natAbs) :
    HasSome (reciprocalBetween lo hi gap) (.one / x) := by
  obtain ⟨hlo, hxn, hle⟩ := le_iff.1 h1
  obtain ⟨-, hhi, hle'⟩ := le_iff.1 h2
  have hzero : ∀ {v : Binary64}, v.isNaN = false → 0 < v.position → Binary64.zero < v :=
    fun hv h => lt_iff.2 ⟨rfl, hv, h⟩
  have hzero' : ∀ {v : Binary64}, v.isNaN = false → v.position < 0 → v < Binary64.zero :=
    fun hv h => lt_iff.2 ⟨hv, rfl, h⟩
  refine HasSome.canonical (by simp) ?_
  rw [hasSome_append, hasSome_append]
  rcases lt_trichotomy x.position 0 with hlt | heq | hgt
  · have hloz := hzero' hlo (hle.trans_lt hlt)
    have hx := isNegative_of_lt_zero (hzero' hxn hlt)
    have hsame := (isNegative_of_lt_zero hloz).trans hx.symm
    left; right
    rw [if_pos hloz]
    simp only
    split
    · next hhiz =>
      exact hasSome_interval?_one_div h1 h2 hsame (hx.trans (isNegative_of_lt_zero hhiz).symm)
    · refine hasSome_interval?_one_div h1 (le_iff.2 ⟨hxn, by rwa [isNaN_neg], ?_⟩) hsame
        (by rw [hx, isNegative_neg hgap, hpositive, Bool.not_false])
      have := hstep hlt.ne
      rw [position_neg]
      omega
  · left; left
    obtain ⟨s, hs⟩ := exists_one_div_eq_infinity hxn heq
    have hloz : lo ≤ Binary64.zero := le_iff.2 ⟨hlo, rfl, hle.trans_eq heq⟩
    have hhiz : Binary64.zero ≤ hi := le_iff.2 ⟨rfl, hhi, heq.symm.trans_le hle'⟩
    rw [if_pos (by simp [hloz, hhiz]), hs, hasSome_cons, hasSome_singleton]
    cases s
    · exact Or.inr (same_refl _)
    · exact Or.inl (same_refl _)
  · have hhiz := hzero hhi (hgt.trans_le hle')
    have hx := isNegative_of_zero_lt (hzero hxn hgt)
    have hsame := hx.trans (isNegative_of_zero_lt hhiz).symm
    right
    rw [if_pos hhiz]
    simp only
    split
    · next hloz =>
      exact hasSome_interval?_one_div h1 h2 ((isNegative_of_zero_lt hloz).trans hx.symm) hsame
    · refine hasSome_interval?_one_div (le_iff.2 ⟨hgap, hxn, ?_⟩) h2 (hpositive.trans hx.symm) hsame
      have := hstep hgt.ne'
      omega

theorem hasSome_reciprocalOne (hx : n.has x = true) : HasSome (reciprocalOne n) (.one / x) := by
  cases n with
  | all => exact hasSome_singleton.2 rfl
  | literal v =>
    simp only [reciprocalOne]
    split
    · next hv =>
      obtain rfl := eq_nan_of_isNaN hv
      obtain rfl := eq_of_same rfl hx
      exact hasSome_singleton.2 rfl
    · next hv =>
      obtain ⟨h1, h2⟩ := le_of_same (Bool.of_not_eq_true hv) hx
      exact hasSome_reciprocalBetween h1 h2 rfl rfl fun _ => Int.natCast_nonneg _
  | interval lo hi =>
    obtain ⟨h1, h2⟩ := has_interval.1 hx
    exact hasSome_reciprocalBetween h1 h2 rfl rfl fun _ => Int.natCast_nonneg _
  | integers lo hi =>
    obtain ⟨hxi, h1, h2⟩ := has_integers.1 hx
    exact hasSome_reciprocalBetween h1 h2 rfl rfl (position_one_le_natAbs hxi)

/-! ## Changes of sign -/

theorem hasSome_negateOne (hx : n.has x = true) : HasSome (negateOne n) (-x) := by
  cases n with
  | all => exact hasSome_singleton.2 rfl
  | literal v => exact hasSome_singleton.2 (same_neg hx)
  | interval lo hi =>
    obtain ⟨h1, h2⟩ := has_interval.1 hx
    exact hasSome_interval? (neg_le_neg_iff.2 h2) (neg_le_neg_iff.2 h1)
  | integers lo hi =>
    obtain ⟨hxi, h1, h2⟩ := has_integers.1 hx
    exact hasSome_integers? ((isInteger_neg x).trans hxi) (neg_le_neg_iff.2 h2)
      (neg_le_neg_iff.2 h1)

/-! ## Unions -/

theorem hasSome_image {f : NumberSet → List NumberSet} {r : Binary64}
    (hwf : ∀ n ∈ ns, AllWellFormed (f n)) (hx : HasSome ns x)
    (hf : ∀ n ∈ ns, n.has x = true → HasSome (f n) r) : HasSome (image f ns) r := by
  obtain ⟨n, hn, hx⟩ := hx
  obtain ⟨k, hk, hr⟩ := hf n hn hx
  exact HasSome.canonical (allWellFormed_flatMap hwf) ⟨k, List.mem_flatMap.2 ⟨n, hn, hk⟩, hr⟩

theorem hasSome_image₂ {f : NumberSet → NumberSet → List NumberSet} {r : Binary64}
    (hwf : ∀ n ∈ ns, ∀ m ∈ ms, AllWellFormed (f n m)) (hx : HasSome ns x) (hy : HasSome ms y)
    (hf : ∀ n ∈ ns, ∀ m ∈ ms, n.has x = true → m.has y = true → HasSome (f n m) r) :
    HasSome (image₂ f ns ms) r := by
  obtain ⟨n, hn, hx⟩ := hx
  obtain ⟨m, hm, hy⟩ := hy
  obtain ⟨k, hk, hr⟩ := hf n hn m hm hx hy
  exact HasSome.canonical
    (allWellFormed_flatMap fun n hn => allWellFormed_flatMap fun m hm => hwf n hn m hm)
    ⟨k, List.mem_flatMap.2 ⟨n, hn, List.mem_flatMap.2 ⟨m, hm, hk⟩⟩, hr⟩

theorem hasSome_negate (hx : HasSome ns x) : HasSome (negate ns) (-x) :=
  hasSome_image (fun n _ => allWellFormed_negateOne n) hx fun _ _ => hasSome_negateOne

theorem hasSome_reciprocal (hx : HasSome ns x) : HasSome (reciprocal ns) (.one / x) :=
  hasSome_image (fun n _ => allWellFormed_reciprocalOne n) hx fun _ _ => hasSome_reciprocalOne

theorem hasSome_add (hns : AllWellFormed ns) (hms : AllWellFormed ms) (hx : HasSome ns x)
    (hy : HasSome ms y) (h : ¬Overflows x y (x + y)) : HasSome (add ns ms) (x + y) :=
  hasSome_image₂ (fun n _ m _ => allWellFormed_addOne n m) hx hy
    fun n hn m hm hx hy => hasSome_addOne (hns n hn) (hms m hm) hx hy h

theorem hasSome_subtract (hns : AllWellFormed ns) (hx : HasSome ns x) (hy : HasSome ms y)
    (h : ¬Overflows x y (x - y)) : HasSome (subtract ns ms) (x - y) := by
  have hneg : (-y).isFinite = y.isFinite := by cases y <;> rfl
  refine hasSome_add hns (allWellFormed_image fun m _ => allWellFormed_negateOne m) hx
    (hasSome_negate hy) ?_
  rwa [Overflows, hneg]

theorem hasSome_multiply (hx : HasSome ns x) (hy : HasSome ms y) (h : ¬Overflows x y (x * y)) :
    HasSome (multiply ns ms) (x * y) :=
  hasSome_image₂ (fun n _ m _ => allWellFormed_multiplyOne n m) hx hy
    fun _ _ _ _ hx hy => hasSome_multiplyOne hx hy h

end NumberSet

namespace Ty

variable {a b : Ty} {x y : Binary64}

/-- The numbers of a type are those of its sets of numbers. -/
theorem hasSome_numbers : NumberSet.HasSome a.numbers x ↔ a.has (.number x) = true := by
  cases a with
  | any => exact iff_of_true ⟨.all, List.mem_singleton_self _, rfl⟩ (has_any _)
  | oneOf ss =>
    rw [has_oneOf]
    constructor
    · rintro ⟨n, hn, hx⟩
      exact ⟨.number n, mem_filterMap_number?.1 hn, Shape.has_number.2 ⟨x, rfl, hx⟩⟩
    · rintro ⟨s, hs, hx⟩
      cases s with
      | number n =>
        obtain ⟨_, he, hx⟩ := Shape.has_number.1 hx
        cases he
        exact ⟨n, mem_filterMap_number?.2 hs, hx⟩
      | text t => simp [Shape.has] at hx
      | record name fields => simp [Shape.has] at hx

theorem has_ofNumbers {ns : List NumberSet} :
    (ofNumbers ns).has (.number x) = true ↔ NumberSet.HasSome ns x := by
  rw [← hasSome_numbers, ofNumbers, numbers, List.filterMap_map]
  simp [Function.comp_def, Shape.number?]

/-- Arithmetic on types is sound : what an operation gives for two numbers of its operands is a
number of the result, unless it is an infinity that two finite numbers overflow to. -/
theorem arithmetic_sound (ha : ∀ n ∈ a.numbers, n.wellFormed = true)
    (hb : ∀ n ∈ b.numbers, n.wellFormed = true) (hx : a.has (.number x) = true)
    (hy : b.has (.number y) = true) :
    (¬Overflows x y (x + y) → (a.add b).has (.number (x + y)) = true) ∧
      (¬Overflows x y (x - y) → (a.subtract b).has (.number (x - y)) = true) ∧
      (¬Overflows x y (x * y) → (a.multiply b).has (.number (x * y)) = true) ∧
      a.reciprocal.has (.number (.one / x)) = true := by
  rw [← hasSome_numbers] at hx hy
  exact ⟨fun h => has_ofNumbers.2 (NumberSet.hasSome_add ha hb hx hy h),
    fun h => has_ofNumbers.2 (NumberSet.hasSome_subtract ha hx hy h),
    fun h => has_ofNumbers.2 (NumberSet.hasSome_multiply hx hy h),
    has_ofNumbers.2 (NumberSet.hasSome_reciprocal hx)⟩

/-- An infinity that one operand brings along is no overflow. -/
theorem arithmetic_sound_posInf :
    let a := union [interval .half .posInf, literal .nan]
    ((a.add int).has (.number (.posInf + -.one)) = true ∧
      (a.subtract int).has (.number (.posInf - -.one)) = true ∧
      (a.multiply int).has (.number (.posInf * -.one)) = true) ∧
      a.reciprocal.has (.number (.one / .posInf)) = true := by
  intro a
  obtain ⟨hadd, hsubtract, hmultiply, hreciprocal⟩ := arithmetic_sound (a := a) (b := int)
    (x := .posInf) (y := -.one) (by decide +kernel) (by decide +kernel) (by decide +kernel)
    (by decide +kernel)
  exact ⟨⟨hadd (by decide), hsubtract (by decide), hmultiply (by decide)⟩, hreciprocal⟩

end Ty

end FlowTypes
