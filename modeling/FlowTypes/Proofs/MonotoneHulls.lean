import FlowTypes.Proofs.JointCover
import FlowTypes.Proofs.Minima

/-!
# Sums grow with their operands

The sum of two sets is a range between two bounds, of integers if both operands are
(`NumberSet.hull`), wider for wider operands : a set within another has its ends within the ends of
the other (`ends_of_subset`), and sums of doubles are monotone. Sets that hold an infinity alone, or
no end at all, have sums apart (`addOne_eq_all`, `exists_add_of_addOne_literal`).

`denotesSome_addOne_of_subset` : what is in the sum of two sets is in that of any sets with them as
parts, unless two literals overflow.
-/

namespace FlowTypes.NumberSet

open ExtendedRat Binary64

variable {a b a' b' n n' : NumberSet} {ns : List NumberSet} {p : Option ExtendedRat}
  {q : ExtendedRat} {lo hi lo' hi' l u l' u' v x y : Binary64}

/-! ## Ends -/

/-- Does the set have these ends, none of them the infinity of the other side? -/
structure HasEnds (n : NumberSet) (lo hi : Binary64) : Prop where
  ends : n.ends? = some (lo, hi)
  lo_number : lo.isNaN = false
  hi_number : hi.isNaN = false
  lo_ne : lo ≠ posInf
  hi_ne : hi ≠ negInf

/-- Is the set no literal, or a finite one? -/
def IsFiniteOrRange (n : NumberSet) : Prop := ∀ v, n = literal v → v.isFinite = true

theorem exists_hasEnds (hn : n.wellFormed = true) (hall : n ≠ all) (hfinite : n.IsFiniteOrRange) :
    ∃ lo hi, n.HasEnds lo hi := by
  have hrange : ∀ {lo hi : Binary64}, n.ends? = some (lo, hi) → lo.isNaN = false →
      hi.isNaN = false → lo.value < hi.value → ∃ lo hi, n.HasEnds lo hi := by
    intro lo hi hends hlo hhi hlt
    refine ⟨lo, hi, hends, hlo, hhi, ?_, ?_⟩
    · rintro rfl
      exact absurd hlt not_top_lt
    · rintro rfl
      exact absurd hlt not_lt_bot
  cases n with
  | all => exact absurd rfl hall
  | literal v =>
    have hv := hfinite v rfl
    exact ⟨v, v, rfl, isNaN_of_isFinite hv, isNaN_of_isFinite hv,
      ne_infinity_of_isFinite hv false, ne_infinity_of_isFinite hv true⟩
  | interval lo hi =>
    obtain ⟨hlo, hhi, hlt⟩ := lt_of_wellFormed_interval hn
    exact hrange rfl hlo hhi hlt
  | integers lo hi =>
    obtain ⟨hlo, hhi, hlt⟩ := whole_of_wellFormed_integers hn
    exact hrange rfl (isNaN_of_isWhole hlo) (isNaN_of_isWhole hhi) hlt

theorem HasEnds.lo_le_hi (h : n.HasEnds lo hi) (hn : n.wellFormed = true) : lo ≤ hi := by
  obtain ⟨he, hlo, hhi, -, -⟩ := h
  refine le_iff_value.2 ⟨hlo, hhi, ?_⟩
  cases n with
  | all => cases he
  | literal v => cases he; exact le_refl _
  | interval l u => cases he; exact (lt_of_wellFormed_interval hn).2.2.le
  | integers l u => cases he; exact (whole_of_wellFormed_integers hn).2.2.le

theorem HasEnds.isFiniteOrRange (h : n.HasEnds lo hi) : n.IsFiniteOrRange := by
  rintro v rfl
  cases h.ends
  exact isFinite_of_between (Binary64.le_refl h.lo_number) (Binary64.le_refl h.lo_number) h.hi_ne
    h.lo_ne

theorem HasEnds.isNaN_add_lo (h : a.HasEnds lo hi) (h' : b.HasEnds lo' hi') :
    (lo + lo').isNaN = false :=
  isNaN_add_of_ne h.lo_number h'.lo_number false h.lo_ne h'.lo_ne

theorem HasEnds.isNaN_add_hi (h : a.HasEnds lo hi) (h' : b.HasEnds lo' hi') :
    (hi + hi').isNaN = false :=
  isNaN_add_of_ne h.hi_number h'.hi_number true h.hi_ne h'.hi_ne

/-- The ends of a part lie between those of the whole. -/
theorem ends_of_subset (he : n.ends? = some (lo, hi)) (he' : n'.ends? = some (lo', hi'))
    (hlo' : lo'.isNaN = false) (hsub : n.subset n' = true) : lo' ≤ lo ∧ hi ≤ hi' := by
  cases n' with
  | all => cases he'
  | literal w =>
    cases he'
    cases n with
    | literal v =>
      cases he
      exact le_of_same hlo' hsub
    | _ => simp [subset] at hsub
  | interval l u =>
    cases he'
    cases n <;> cases he <;> simpa [subset, has] using hsub
  | integers l u =>
    cases he'
    cases n with
    | literal v =>
      cases he
      exact (has_integers.1 hsub).2
    | integers l u =>
      cases he
      simpa [subset] using hsub
    | _ => simp [subset] at hsub

theorem HasEnds.of_subset (h : n.HasEnds lo hi) (h' : n'.HasEnds lo' hi')
    (hsub : n.subset n' = true) : lo' ≤ lo ∧ hi ≤ hi' :=
  ends_of_subset h.ends h'.ends h'.lo_number hsub

theorem isIntegral_of_subset (hsub : n.subset n' = true) (h : n'.isIntegral = true) :
    n.isIntegral = true := by
  cases n' with
  | literal w =>
    cases n with
    | literal v => exact isInteger_of_same h hsub
    | _ => simp [subset] at hsub
  | integers l u =>
    cases n with
    | literal v => exact (has_integers.1 hsub).1
    | integers => rfl
    | _ => simp [subset] at hsub
  | _ => cases h

/-- A part of a literal is a literal. -/
theorem literal?_of_subset (hsub : n.subset n' = true) (h : n.literal? = none) :
    n'.literal? = none := by
  cases n' with
  | literal w =>
    cases n with
    | literal v => cases h
    | _ => simp [subset] at hsub
  | _ => rfl

theorem exists_literal_of_not_isFiniteOrRange (h : ¬n.IsFiniteOrRange) :
    ∃ v, n = literal v ∧ v.isFinite = false := by
  simpa [IsFiniteOrRange] using h

/-- Two sets are literals, unless one of them is none. -/
theorem exists_literals_of_not (h : ¬(a.literal? = none ∨ b.literal? = none)) :
    (∃ v, a = literal v) ∧ ∃ w, b = literal w := by
  cases a <;> cases b <;> simp [literal?] at h ⊢

theorem IsFiniteOrRange.of_subset (h : n.IsFiniteOrRange) (hsub : n.subset n' = true) :
    n'.IsFiniteOrRange := by
  rintro w rfl
  cases n with
  | literal v => exact isFinite_of_same (h v rfl) (same_iff.2 (same_iff.1 hsub).symm)
  | _ => simp [subset] at hsub

theorem eq_all_of_subset (hsub : all.subset n' = true) : n' = all := by
  cases n' with
  | all => rfl
  | _ => simp [subset] at hsub

/-! ## Hulls -/

/-- The integers or the doubles between two bounds. -/
def hull (integral : Bool) (lo hi : Binary64) : Option NumberSet :=
  if integral then integers? lo hi else interval? lo hi

variable {i i' : Bool}

theorem allWellFormed_hull (i : Bool) (lo hi : Binary64) : AllWellFormed (hull i lo hi).toList := by
  unfold hull
  split <;> simp

theorem not_denotesSome_hull : ¬DenotesSome (hull i lo hi).toList none := by
  unfold hull
  split
  · exact not_denotesSome_integers?
  · exact not_denotesSome_interval?

theorem denotesSome_hull (hlo : lo.isNaN = false) (hhi : hi.isNaN = false) :
    DenotesSome (hull i lo hi).toList (some q) ↔
      (i = true → IsInt q) ∧ lo.value ≤ q ∧ q ≤ hi.value := by
  cases i with
  | true => simpa [hull] using denotesSome_integers? hlo hhi
  | false => simpa [hull] using denotesSome_interval? hlo hhi

/-- A hull grows with its bounds, and when it is no longer one of integers. -/
theorem denotesSome_hull_mono (hi' : i' = true → i = true) (hlo : l' ≤ l) (hhi : u ≤ u')
    (h : DenotesSome (hull i l u).toList p) : DenotesSome (hull i' l' u').toList p := by
  obtain ⟨hl', hl, hlo⟩ := le_iff_value.1 hlo
  obtain ⟨hu, hu', hhi⟩ := le_iff_value.1 hhi
  cases p with
  | none => exact absurd h not_denotesSome_hull
  | some q =>
    obtain ⟨hq, h1, h2⟩ := (denotesSome_hull hl hu).1 h
    exact (denotesSome_hull hl' hu').2 ⟨fun h => hq (hi' h), hlo.trans h1, h2.trans hhi⟩

theorem denotesSome_interval?_mono (hlo : l' ≤ l) (hhi : u ≤ u')
    (h : DenotesSome (interval? l u).toList p) : DenotesSome (interval? l' u').toList p :=
  denotesSome_hull_mono (id : false = true → false = true) hlo hhi h

/-! ## Sums -/

theorem addOne_comm (a b : NumberSet) : addOne a b = addOne b a := by
  cases a <;> cases b <;>
    simp only [addOne, addRanges, meetInfinities, Binary64.add_comm, Bool.or_comm, Bool.and_comm]

theorem addOne_eq_all (h : a = all ∨ b = all) (ha : a.IsFiniteOrRange) (hb : b.IsFiniteOrRange) :
    addOne a b = [all] := by
  have hleft : ∀ {b : NumberSet}, b.IsFiniteOrRange → addOne all b = [all] := by
    intro b hb
    cases b with
    | literal v =>
      have hv := hb v rfl
      cases v with
      | finite s m hm => rfl
      | _ => cases hv
    | _ => rfl
  rcases h with rfl | rfl
  · exact hleft hb
  · rw [addOne_comm, hleft ha]

theorem meetInfinities_literal {v : Binary64} (hv : v.isFinite = true) (b : NumberSet) :
    meetInfinities (literal v) b = false := by
  have hlacks : ∀ s, (literal v).has (.infinity s) = false := fun s =>
    Bool.eq_false_iff.2 fun h => by cases isFinite_of_same hv h
  have hneg : (literal v).has .negInf = false := hlacks true
  have hpos : (literal v).has .posInf = false := hlacks false
  rw [meetInfinities, hneg, hpos, Bool.false_and, Bool.false_and, Bool.or_self]

/-- A literal and a set with ends that is none are added by their ends. -/
theorem addOne_literal_eq_addRanges {v : Binary64} (hv : (literal v).HasEnds v v)
    (hb : b.HasEnds lo' hi') (hliteral : b.literal? = none) :
    addOne (literal v) b =
      addRanges (literal v) b (hull (v.isInteger && b.isIntegral) (v + lo') (v + hi')) := by
  have hv := hv.isFiniteOrRange v rfl
  rw [addRanges, meetInfinities_literal hv, if_neg Bool.false_ne_true]
  have he := hb.ends
  cases v with
  | finite s m hm =>
    cases b with
    | all => cases he
    | literal w => cases hliteral
    | interval l u =>
      cases he
      simp [addOne, addLiteral, hull, isIntegral]
    | integers l u =>
      cases he
      simp only [addOne, addLiteral, hull, isIntegral, Bool.and_true]
      split <;> rfl
  | _ => cases hv

/-- Two sets with ends, not both literals, are added by their ends. -/
theorem addOne_eq_addRanges (ha : a.HasEnds lo hi) (hb : b.HasEnds lo' hi')
    (h : a.literal? = none ∨ b.literal? = none) :
    addOne a b =
      addRanges a b (hull (a.isIntegral && b.isIntegral) (lo + lo') (hi + hi')) := by
  have he := ha.ends
  have he' := hb.ends
  cases a with
  | all => cases he
  | literal v =>
    cases he
    exact addOne_literal_eq_addRanges ha hb (h.resolve_left (Option.some_ne_none _))
  | interval l u =>
    cases b with
    | all => cases he'
    | literal w =>
      cases he'
      rw [addOne_comm, addOne_literal_eq_addRanges hb ha rfl]
      simp only [addRanges, meetInfinities, Binary64.add_comm, Bool.or_comm, Bool.and_comm,
        isIntegral, Bool.false_and]
    | _ => cases he; cases he'; rfl
  | integers l u =>
    cases b with
    | all => cases he'
    | literal w =>
      cases he'
      rw [addOne_comm, addOne_literal_eq_addRanges hb ha rfl]
      simp only [addRanges, meetInfinities, Binary64.add_comm, Bool.or_comm, Bool.and_comm,
        isIntegral, Bool.true_and]
    | _ => cases he; cases he'; rfl

/-- A set besides a literal has a number whose sum with an infinity is that infinity. -/
theorem exists_infinity_add (s : Bool) (hb : b.wellFormed = true) (hliteral : b.literal? = none) :
    ∃ y, b.has y = true ∧ infinity s + y = infinity s := by
  have hadd : ∀ {y : Binary64}, y.isNaN = false → y ≠ infinity !s → infinity s + y = infinity s :=
    fun hy hne => infinity_add s <| by
      by_contra hnan
      obtain ⟨t, ht, rfl⟩ := opposite_of_isNaN_add rfl hy (Bool.of_not_eq_false hnan)
      cases ht
      exact hne rfl
  cases b with
  | all => exact ⟨.zero, rfl, hadd rfl nofun⟩
  | literal v => cases hliteral
  | interval lo hi =>
    obtain ⟨hlo, hhi, hlt⟩ := lt_of_wellFormed_interval hb
    have hle : lo ≤ hi := le_iff_value.2 ⟨hlo, hhi, hlt.le⟩
    cases s with
    | true =>
      refine ⟨lo, has_interval.2 ⟨Binary64.le_refl hlo, hle⟩, hadd hlo ?_⟩
      rintro rfl
      exact absurd hlt not_top_lt
    | false =>
      refine ⟨hi, has_interval.2 ⟨hle, Binary64.le_refl hhi⟩, hadd hhi ?_⟩
      rintro rfl
      exact absurd hlt not_lt_bot
  | integers lo hi =>
    obtain ⟨x, hx, h1, h2⟩ := (whole_of_integers hb).exists_integer
    obtain ⟨hlo, hhi, -⟩ := whole_of_wellFormed_integers hb
    have hxf := isFinite_of_isInteger hx
    have hxn := isNaN_of_isFinite hxf
    refine ⟨x, has_integers.2 ⟨hx, ?_, ?_⟩, hadd hxn (ne_infinity_of_isFinite hxf _)⟩
    · exact le_iff_value.2 ⟨isNaN_of_isWhole hlo, hxn, h1⟩
    · exact le_iff_value.2 ⟨hxn, isNaN_of_isWhole hhi, h2⟩

/-- The sums of an infinity or NaN are sums of numbers. -/
theorem exists_add_of_addOne_literal (hv : v.isFinite = false) (hb : b.wellFormed = true)
    (hliteral : b.literal? = none) (hp : Unpassed p) (h : DenotesSome (addOne (literal v) b) p) :
    ∃ y, b.has y = true ∧ (v + y).exact = p := by
  have hadd : addOne (literal v) b = addLiteral v b := by
    cases b <;> first | rfl | cases hliteral
  rw [hadd] at h
  cases v with
  | finite s m hm => cases hv
  | nan =>
    obtain ⟨y, hy, -⟩ := exists_infinity_add false hb hliteral
    exact ⟨y, hy, denotesSome_singleton.1 h⟩
  | infinity s =>
    obtain ⟨y, hy, hsum⟩ := exists_infinity_add s hb hliteral
    simp only [addLiteral] at h
    split at h
    · next hopposite =>
      have h := denotes_of_canonical_of_unpassed (by simp) hp h
      rcases denotesSome_cons.1 h with h | h
      · have hnan : infinity s + infinity (!s) = nan := by cases s <;> rfl
        exact ⟨_, hopposite, by rw [hnan]; exact h⟩
      · exact ⟨y, hy, by rw [hsum]; exact denotesSome_singleton.1 h⟩
    · exact ⟨y, hy, by rw [hsum]; exact denotesSome_singleton.1 h⟩

/-- The sum of two ranges, and NaN where opposite infinities meet. -/
theorem denotesSome_addRanges {sum : Option NumberSet} (hsum : AllWellFormed sum.toList)
    (hp : Unpassed p) : DenotesSome (addRanges a b sum) p ↔
      DenotesSome sum.toList p ∨ meetInfinities a b = true ∧ p = none := by
  unfold addRanges
  split
  · next hmeet =>
    have hwf : ∀ n ∈ sum.toList ++ [literal .nan], n.wellFormed = true :=
      allWellFormed_append.2 ⟨hsum, by simp⟩
    have hstop : CutsStop (sum.toList ++ [literal .nan]) := by
      cases sum with
      | none => exact cutsStop_of_no_integers (by simp [integral?])
      | some n =>
        cases n with
        | interval lo hi => exact cutsStop_of_no_integers (by simp [integral?])
        | _ => exact cutsStop_of_no_intervals (by simp [reals?])
    rw [DenotesSome, sameUnpassed_canonical hwf hstop p hp, ← DenotesSome, denotesSome_append,
      denotesSome_singleton, denotes_literal]
    simp [hmeet, exact, isNaN, eq_comm]
  · next hmeet => simp [hmeet]

theorem meetInfinities_of_subset (ha' : a'.wellFormed = true) (hb' : b'.wellFormed = true)
    (ha : a.wellFormed = true) (hb : b.wellFormed = true)
    (hab : a.subset a' = true) (hbb : b.subset b' = true) (h : meetInfinities a b = true) :
    meetInfinities a' b' = true := by
  have hleft : ∀ s, a.has (.infinity s) = true → a'.has (.infinity s) = true := fun s =>
    has_of_subset ha ha' hab
  have hright : ∀ s, b.has (.infinity s) = true → b'.has (.infinity s) = true := fun s =>
    has_of_subset hb hb' hbb
  simp only [meetInfinities, Bool.or_eq_true, Bool.and_eq_true] at h ⊢
  exact h.imp (fun h => ⟨hleft true h.1, hright false h.2⟩)
    fun h => ⟨hleft false h.1, hright true h.2⟩

section Wider

variable (ha : a.wellFormed = true) (hb : b.wellFormed = true) (ha' : a'.wellFormed = true)
  (hb' : b'.wellFormed = true) (hab : a.subset a' = true) (hbb : b.subset b' = true)
include ha hb ha' hb' hab hbb

/-- Wider sets have the sums of the numbers of narrower ones. -/
theorem denotesSome_addOne_of_has (hx : a.has x = true) (hy : b.has y = true)
    (h : ¬Overflows x y (x + y)) : DenotesSome (addOne a' b') (x + y).exact := by
  rw [← hasSome_iff_denotesSome (allWellFormed_addOne a' b')]
  exact hasSome_addOne ha' hb' (has_of_subset ha ha' hab hx) (has_of_subset hb hb' hbb hy) h

/-- Wider sets have the sums of a narrower literal that is no finite number. -/
theorem denotesSome_addOne_of_literal (hp : Unpassed p) (hv : v.isFinite = false)
    (hav : a = literal v) (hliteral : b.literal? = none) (h : DenotesSome (addOne a b) p) :
    DenotesSome (addOne a' b') p := by
  subst hav
  obtain ⟨y, hy, rfl⟩ := exists_add_of_addOne_literal hv hb hliteral hp h
  exact denotesSome_addOne_of_has ha hb ha' hb' hab hbb (same_refl v) hy fun hover =>
    absurd hover.1 (by rw [hv]; nofun)

/-- Wider ranges have the sums of narrower ones, since their ends are further out. -/
theorem denotesSome_addOne_of_hasEnds (hp : Unpassed p) (hae : a.HasEnds lo hi)
    (hbe : b.HasEnds lo' hi') (hliteral : a.literal? = none ∨ b.literal? = none)
    (h : DenotesSome (addOne a b) p) : DenotesSome (addOne a' b') p := by
  have hfinite := hae.isFiniteOrRange.of_subset hab
  have hfinite' := hbe.isFiniteOrRange.of_subset hbb
  by_cases hall : a' = all ∨ b' = all
  · rw [addOne_eq_all hall hfinite hfinite']
    exact denotesSome_singleton.2 trivial
  rw [not_or] at hall
  obtain ⟨l, u, hae'⟩ := exists_hasEnds ha' hall.1 hfinite
  obtain ⟨l', u', hbe'⟩ := exists_hasEnds hb' hall.2 hfinite'
  have hliteral' := hliteral.imp (literal?_of_subset hab) (literal?_of_subset hbb)
  rw [addOne_eq_addRanges hae hbe hliteral,
    denotesSome_addRanges (allWellFormed_hull _ _ _) hp] at h
  rw [addOne_eq_addRanges hae' hbe' hliteral',
    denotesSome_addRanges (allWellFormed_hull _ _ _) hp]
  refine h.imp (fun h => ?_) fun ⟨hmeet, hnone⟩ =>
    ⟨meetInfinities_of_subset ha' hb' ha hb hab hbb hmeet, hnone⟩
  obtain ⟨hlo, hhi⟩ := hae.of_subset hae' hab
  obtain ⟨hlo', hhi'⟩ := hbe.of_subset hbe' hbb
  refine denotesSome_hull_mono (fun hint => ?_) ?_ ?_ h
  · rw [Bool.and_eq_true] at hint ⊢
    exact ⟨isIntegral_of_subset hab hint.1, isIntegral_of_subset hbb hint.2⟩
  · exact Binary64.add_le_add hlo hlo' (hae'.isNaN_add_lo hbe') (hae.isNaN_add_lo hbe)
  · exact Binary64.add_le_add hhi hhi' (hae.isNaN_add_hi hbe) (hae'.isNaN_add_hi hbe')

/-- Wider sets have the sums of narrower ones among which are no infinite literals. -/
theorem denotesSome_addOne_of_isFiniteOrRange (hp : Unpassed p) (hfinite : a.IsFiniteOrRange)
    (hfinite' : b.IsFiniteOrRange) (hliteral : a.literal? = none ∨ b.literal? = none)
    (h : DenotesSome (addOne a b) p) : DenotesSome (addOne a' b') p := by
  by_cases hall : a = all ∨ b = all
  · have hall' : a' = all ∨ b' = all := by
      rcases hall with rfl | rfl
      exacts [Or.inl (eq_all_of_subset hab), Or.inr (eq_all_of_subset hbb)]
    rw [addOne_eq_all hall' (hfinite.of_subset hab) (hfinite'.of_subset hbb)]
    exact denotesSome_singleton.2 trivial
  rw [not_or] at hall
  obtain ⟨lo, hi, hae⟩ := exists_hasEnds ha hall.1 hfinite
  obtain ⟨lo', hi', hbe⟩ := exists_hasEnds hb hall.2 hfinite'
  exact denotesSome_addOne_of_hasEnds ha hb ha' hb' hab hbb hp hae hbe hliteral h

/-- Wider sets have the sums of narrower ones, unless two narrower literals overflow. -/
theorem denotesSome_addOne_of_subset (hp : Unpassed p)
    (hover : ∀ v w, a = literal v → b = literal w → ¬Overflows v w (v + w))
    (h : DenotesSome (addOne a b) p) : DenotesSome (addOne a' b') p := by
  by_cases hliteral : a.literal? = none ∨ b.literal? = none
  · by_cases hfinite : a.IsFiniteOrRange
    · by_cases hfinite' : b.IsFiniteOrRange
      · exact denotesSome_addOne_of_isFiniteOrRange ha hb ha' hb' hab hbb hp hfinite hfinite'
          hliteral h
      · obtain ⟨w, rfl, hw⟩ := exists_literal_of_not_isFiniteOrRange hfinite'
        rw [addOne_comm] at h ⊢
        exact denotesSome_addOne_of_literal hb ha hb' ha' hbb hab hp hw rfl
          (hliteral.resolve_right nofun) h
    · obtain ⟨v, rfl, hv⟩ := exists_literal_of_not_isFiniteOrRange hfinite
      exact denotesSome_addOne_of_literal ha hb ha' hb' hab hbb hp hv rfl
        (hliteral.resolve_left nofun) h
  · obtain ⟨⟨v, rfl⟩, w, rfl⟩ := exists_literals_of_not hliteral
    obtain rfl := denotesSome_singleton.1 h
    exact denotesSome_addOne_of_has ha hb ha' hb' hab hbb (same_refl v) (same_refl w)
      (hover v w rfl rfl)

end Wider

end FlowTypes.NumberSet
