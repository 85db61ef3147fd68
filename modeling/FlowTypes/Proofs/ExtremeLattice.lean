import FlowTypes.Proofs.DifferenceInclusion
import FlowTypes.Proofs.Lattice
import FlowTypes.Proofs.MonotoneBuiltins
import FlowTypes.Proofs.NonemptyResults

/-!
# Minima and maxima are semilattice operations

Within small bounds, minima and maxima of types are commutative and associative, and those of a type
of numbers with itself are the type (`Ty.extremes_semilattice`).

Below positive infinity a minimum of two unions has the points of either that the other reaches
(`NumberSet.denotesSome_minimum`), and it reaches what both reach. Positive infinity comes in also
where both unions are endless and one of them is real (`NumberSet.denotesSome_minimum_top`), though
a range of integers does not hold it. Whether a minimum is endless is known from its operands alone
(`NumberSet.endlessSome_minimum`), so the infinity comes in on both sides of the laws or on
neither. With the points the types are known, as they are canonical forms.
-/

namespace FlowTypes

open ExtendedRat Binary64

namespace NumberSet

variable {a b n : NumberSet} {ns ms ks ns' ms' : List NumberSet} {p : Option ExtendedRat}
  {q : ExtendedRat} {real : Bool} {bound : ℕ}

/-! ## Endless sets -/

theorem isSteadyTo_of_isSmall (h : n.isSmall = true) : n.isSteadyTo (2 ^ 52) = true := by
  cases n with
  | all => rfl
  | literal v =>
    rw [isSmall] at h
    exact within_mono (by norm_num) h
  | interval lo hi => rwa [isSmall] at h
  | integers lo hi =>
    simp only [isSmall, isSteadyTo, Bool.and_eq_true] at h ⊢
    exact ⟨within_mono (by norm_num) h.1, within_mono (by norm_num) h.2⟩

theorem Endless.of_real (h : n.Endless true) : n.Endless false := by
  cases n with
  | all => trivial
  | literal v => cases h
  | interval lo hi => exact h
  | integers lo hi => exact ⟨rfl, h.2⟩

theorem Endless.denotes_top (hn : n.wellFormed = true) (h : n.Endless true) :
    n.Denotes (some ⊤) := by
  cases n with
  | all => trivial
  | literal v => cases h
  | interval lo hi =>
    obtain rfl : hi = posInf := h
    exact (denotes_top_iff hn).2 (Or.inr (Or.inr ⟨lo, rfl⟩))
  | integers lo hi => cases h.1

theorem Endless.reaches (hn : n.wellFormed = true) (hq : q ≠ ⊤) (h : n.Endless false) :
    n.Reaches q := by
  cases n with
  | all => exact reaches_all
  | literal v => cases h
  | interval lo hi =>
    obtain rfl : hi = posInf := h
    exact (reaches_interval hn).2 le_top
  | integers lo hi =>
    obtain ⟨-, rfl⟩ := h
    exact (reaches_integers hn hq).2 le_top

theorem beyond_ne_top : beyond bound real ≠ ⊤ :=
  WithBotTop.coe_ne_top _

/-- A set with small bounds that reaches beyond them is endless or has positive infinity. -/
theorem reaches_beyond_iff (hn : n.wellFormed = true) (hsteady : n.isSteadyTo bound = true) :
    n.Reaches (beyond bound real) ↔ n.Endless false ∨ n.Denotes (some ⊤) := by
  constructor
  · rintro ⟨q, hd, hle⟩
    cases n with
    | all => exact Or.inl trivial
    | literal v =>
      obtain ⟨hv, rfl⟩ := exact_eq_some.1 (denotes_literal.1 hd)
      obtain rfl := (beyond_le_iff hv hsteady real).1 hle
      exact Or.inr rfl
    | interval lo hi =>
      simp only [isSteadyTo, Bool.and_eq_true] at hsteady
      have hhi := hle.trans (denotes_interval_some.1 hd).2
      exact Or.inl ((beyond_le_iff (lt_of_wellFormed_interval hn).2.1
        (within_mono (Nat.le_succ _) hsteady.2) real).1 hhi)
    | integers lo hi =>
      simp only [isSteadyTo, Bool.and_eq_true] at hsteady
      have hhi := hle.trans (denotes_integers_some.1 hd).2.2
      exact Or.inl ⟨rfl, (beyond_le_iff (isNaN_of_isWhole (whole_of_wellFormed_integers hn).2.1)
        hsteady.2 real).1 hhi⟩
  · rintro (h | h)
    · exact h.reaches hn beyond_ne_top
    · exact ⟨⊤, h, le_top⟩

/-! ## Upper ends of unions -/

/-- Has one of the sets a point that is at least the given one? -/
def ReachesSome (ns : List NumberSet) (q : ExtendedRat) : Prop := ∃ n ∈ ns, n.Reaches q

/-- Has one of the sets all large numbers, or at least all large integers? -/
def EndlessSome (ns : List NumberSet) (real : Bool) : Prop := ∃ n ∈ ns, n.Endless real

theorem reachesSome_iff : ReachesSome ns q ↔ ∃ q', DenotesSome ns (some q') ∧ q ≤ q' := by
  constructor
  · rintro ⟨n, hn, q', hd, hle⟩
    exact ⟨q', ⟨n, hn, hd⟩, hle⟩
  · rintro ⟨q', ⟨n, hn, hd⟩, hle⟩
    exact ⟨n, hn, q', hd, hle⟩

theorem ReachesSome.mono {q' : ExtendedRat} (hle : q ≤ q') (h : ReachesSome ns q') :
    ReachesSome ns q :=
  h.imp fun _ ⟨hn, r, hd, hr⟩ => ⟨hn, r, hd, hle.trans hr⟩

theorem DenotesSome.reachesSome (h : DenotesSome ns (some q)) : ReachesSome ns q :=
  reachesSome_iff.2 ⟨q, h, le_refl q⟩

theorem DenotesSome.ne_nil (h : DenotesSome ns p) : ns ≠ [] := by
  rintro rfl
  obtain ⟨n, hn, -⟩ := h
  cases hn

theorem EndlessSome.of_real (h : EndlessSome ns true) : EndlessSome ns false :=
  h.imp fun _ hn => ⟨hn.1, hn.2.of_real⟩

theorem EndlessSome.denotesSome_top (hns : AllWellFormed ns) (h : EndlessSome ns true) :
    DenotesSome ns (some ⊤) :=
  h.imp fun n hn => ⟨hn.1, hn.2.denotes_top (hns n hn.1)⟩

theorem EndlessSome.reachesSome (hns : AllWellFormed ns) (hq : q ≠ ⊤) (h : EndlessSome ns false) :
    ReachesSome ns q :=
  h.imp fun n hn => ⟨hn.1, hn.2.reaches (hns n hn.1) hq⟩

namespace SteadyUnion

theorem mono {bound' : ℕ} (hle : bound ≤ bound') (h : SteadyUnion bound ns) :
    SteadyUnion bound' ns :=
  ⟨h.wellFormed, fun n hn => isSteadyTo_mono hle (h.steady n hn)⟩

theorem negate (hbound : bound + 2 ≤ 2 ^ 53) (h : SteadyUnion bound ns) :
    SteadyUnion bound (negate ns) :=
  h.flatMap_negateOne.canonical (by omega)

theorem minimum (hbound : bound + 3 ≤ 2 ^ 53) (h : SteadyUnion bound ns)
    (h' : SteadyUnion bound ms) : SteadyUnion (bound + 1) (minimum ns ms) :=
  (h.pairs_minimumOne (by omega) h').canonical (by omega)

theorem denotesSome_beyond (h : SteadyUnion bound ns) :
    DenotesSome ns (some (beyond bound real)) ↔ EndlessSome ns real :=
  exists_congr fun n => and_congr_right fun hn =>
    denotes_beyond_iff (h.wellFormed n hn) (h.steady n hn) real

theorem reachesSome_beyond (h : SteadyUnion bound ns) :
    ReachesSome ns (beyond bound real) ↔ EndlessSome ns false ∨ DenotesSome ns (some ⊤) := by
  simp only [EndlessSome, DenotesSome, ← exists_or, ← and_or_left]
  exact exists_congr fun n => and_congr_right fun hn =>
    reaches_beyond_iff (h.wellFormed n hn) (h.steady n hn)

end SteadyUnion

/-! ## Points of minima -/

/-- Positive infinity is a minimum of two sets that have it, and of endless sets of which one is
real. -/
theorem denotesSome_minimumOne_top_iff (ha : a.wellFormed = true) (hb : b.wellFormed = true) :
    DenotesSome (minimumOne a b) (some ⊤) ↔ (a.Denotes (some ⊤) ∧ b.Denotes (some ⊤)) ∨
      (a.Endless true ∧ b.Endless false) ∨ (a.Endless false ∧ b.Endless true) := by
  refine ⟨endless_of_minimumOne_top ha hb, ?_⟩
  rintro (⟨h, h'⟩ | ⟨h, h'⟩ | ⟨h, h'⟩)
  exacts [denotesSome_minimumOne_top ha hb h h', (denotesSome_minimumOne_of_endless ha hb h h').1,
    (denotesSome_minimumOne_of_endless hb ha h' h).2]

section Minimum

variable (hbound : bound + 3 ≤ 2 ^ 53) (hns : SteadyUnion bound ns) (hms : SteadyUnion bound ms)
include hbound hns hms

theorem denotesSome_minimum_iff : DenotesSome (minimum ns ms) p ↔
    ∃ n ∈ ns, ∃ m ∈ ms, DenotesSome (minimumOne n m) p := by
  have hpairs := hns.pairs_minimumOne (by omega) hms
  rw [← denotesSome_pairs]
  exact denotesSome_canonical (by omega) hpairs.wellFormed (.inr hpairs.steady)

theorem denotesSome_minimum_nan : DenotesSome (minimum ns ms) none ↔
    (DenotesSome ns none ∧ ms ≠ []) ∨ (DenotesSome ms none ∧ ns ≠ []) := by
  simp only [denotesSome_minimum_iff hbound hns hms, denotesSome_minimumOne_nan]
  constructor
  · rintro ⟨n, hn, m, hm, h | h⟩
    exacts [Or.inl ⟨⟨n, hn, h⟩, List.ne_nil_of_mem hm⟩, Or.inr ⟨⟨m, hm, h⟩, List.ne_nil_of_mem hn⟩]
  · rintro (⟨⟨n, hn, h⟩, hne⟩ | ⟨⟨m, hm, h⟩, hne⟩)
    · obtain ⟨m, hm⟩ := List.exists_mem_of_ne_nil ms hne
      exact ⟨n, hn, m, hm, Or.inl h⟩
    · obtain ⟨n, hn⟩ := List.exists_mem_of_ne_nil ns hne
      exact ⟨n, hn, m, hm, Or.inr h⟩

/-- Below positive infinity, the points of a minimum are those of either union that the other one
reaches. -/
theorem denotesSome_minimum (hq : q ≠ ⊤) : DenotesSome (minimum ns ms) (some q) ↔
    (DenotesSome ns (some q) ∧ ReachesSome ms q) ∨
      (DenotesSome ms (some q) ∧ ReachesSome ns q) := by
  have hone : ∀ n ∈ ns, ∀ m ∈ ms,
      (DenotesSome (minimumOne n m) (some q) ↔ IsMinimum n m q) := fun n hn m hm =>
    denotesSome_minimumOne (hns.wellFormed n hn) (hms.wellFormed m hm) hbound
      (.inr (by simp [hns.steady n hn, hms.steady m hm])) hq
  rw [denotesSome_minimum_iff hbound hns hms]
  constructor
  · rintro ⟨n, hn, m, hm, h⟩
    rcases (hone n hn m hm).1 h with ⟨hd, hr⟩ | ⟨hd, hr⟩
    exacts [Or.inl ⟨⟨n, hn, hd⟩, m, hm, hr⟩, Or.inr ⟨⟨m, hm, hd⟩, n, hn, hr⟩]
  · rintro (⟨⟨n, hn, hd⟩, m, hm, hr⟩ | ⟨⟨m, hm, hd⟩, n, hn, hr⟩)
    exacts [⟨n, hn, m, hm, (hone n hn m hm).2 (Or.inl ⟨hd, hr⟩)⟩,
      ⟨n, hn, m, hm, (hone n hn m hm).2 (Or.inr ⟨hd, hr⟩)⟩]

theorem denotesSome_minimum_top : DenotesSome (minimum ns ms) (some ⊤) ↔
    (DenotesSome ns (some ⊤) ∧ DenotesSome ms (some ⊤)) ∨
      (EndlessSome ns true ∧ EndlessSome ms false) ∨
        (EndlessSome ns false ∧ EndlessSome ms true) := by
  have hone : ∀ n ∈ ns, ∀ m ∈ ms, (DenotesSome (minimumOne n m) (some ⊤) ↔ _) := fun n hn m hm =>
    denotesSome_minimumOne_top_iff (hns.wellFormed n hn) (hms.wellFormed m hm)
  rw [denotesSome_minimum_iff hbound hns hms]
  constructor
  · rintro ⟨n, hn, m, hm, h⟩
    rcases (hone n hn m hm).1 h with ⟨h, h'⟩ | ⟨h, h'⟩ | ⟨h, h'⟩
    exacts [Or.inl ⟨⟨n, hn, h⟩, m, hm, h'⟩, Or.inr (Or.inl ⟨⟨n, hn, h⟩, m, hm, h'⟩),
      Or.inr (Or.inr ⟨⟨n, hn, h⟩, m, hm, h'⟩)]
  · rintro (⟨⟨n, hn, h⟩, m, hm, h'⟩ | ⟨⟨n, hn, h⟩, m, hm, h'⟩ | ⟨⟨n, hn, h⟩, m, hm, h'⟩) <;>
      refine ⟨n, hn, m, hm, (hone n hn m hm).2 ?_⟩
    exacts [Or.inl ⟨h, h'⟩, Or.inr (Or.inl ⟨h, h'⟩), Or.inr (Or.inr ⟨h, h'⟩)]

/-- The lesser of two points is a point of the minimum. -/
theorem denotesSome_minimum_min {q₁ q₂ : ExtendedRat} (h₁ : DenotesSome ns (some q₁))
    (h₂ : DenotesSome ms (some q₂)) : DenotesSome (minimum ns ms) (some (min q₁ q₂)) := by
  rcases eq_or_ne (min q₁ q₂) ⊤ with htop | htop
  · obtain ⟨rfl, rfl⟩ := min_eq_top.1 htop
    rw [htop]
    exact (denotesSome_minimum_top hbound hns hms).2 (Or.inl ⟨h₁, h₂⟩)
  · refine (denotesSome_minimum hbound hns hms htop).2 ?_
    rcases le_total q₁ q₂ with hle | hle
    · rw [min_eq_left hle]
      exact Or.inl ⟨h₁, reachesSome_iff.2 ⟨q₂, h₂, hle⟩⟩
    · rw [min_eq_right hle]
      exact Or.inr ⟨h₂, reachesSome_iff.2 ⟨q₁, h₁, hle⟩⟩

/-- A minimum reaches what both unions reach. -/
theorem reachesSome_minimum (hq : q ≠ ⊤) :
    ReachesSome (minimum ns ms) q ↔ ReachesSome ns q ∧ ReachesSome ms q := by
  constructor
  · intro h
    obtain ⟨q', hd, hle⟩ := reachesSome_iff.1 h
    rcases eq_or_ne q' ⊤ with rfl | hq'
    · rcases (denotesSome_minimum_top hbound hns hms).1 hd with ⟨h, h'⟩ | ⟨h, h'⟩ | ⟨h, h'⟩
      · exact ⟨h.reachesSome.mono le_top, h'.reachesSome.mono le_top⟩
      · exact ⟨h.of_real.reachesSome hns.wellFormed hq, h'.reachesSome hms.wellFormed hq⟩
      · exact ⟨h.reachesSome hns.wellFormed hq, h'.of_real.reachesSome hms.wellFormed hq⟩
    · rcases (denotesSome_minimum hbound hns hms hq').1 hd with ⟨h, h'⟩ | ⟨h, h'⟩
      · exact ⟨h.reachesSome.mono hle, h'.mono hle⟩
      · exact ⟨h'.mono hle, h.reachesSome.mono hle⟩
  · rintro ⟨h, h'⟩
    obtain ⟨q₁, hd₁, hle₁⟩ := reachesSome_iff.1 h
    obtain ⟨q₂, hd₂, hle₂⟩ := reachesSome_iff.1 h'
    exact reachesSome_iff.2 ⟨min q₁ q₂, denotesSome_minimum_min hbound hns hms hd₁ hd₂,
      le_min hle₁ hle₂⟩

/-- Minima are endless where one union is, and the other one is or has positive infinity. -/
theorem endlessSome_minimum : EndlessSome (minimum ns ms) real ↔
    (EndlessSome ns real ∧ (EndlessSome ms false ∨ DenotesSome ms (some ⊤))) ∨
      (EndlessSome ms real ∧ (EndlessSome ns false ∨ DenotesSome ns (some ⊤))) := by
  have hns' := hns.mono (Nat.le_succ bound)
  have hms' := hms.mono (Nat.le_succ bound)
  rw [← (hns.minimum hbound hms).denotesSome_beyond, denotesSome_minimum hbound hns hms
    beyond_ne_top, hns'.denotesSome_beyond, hms'.denotesSome_beyond, hns'.reachesSome_beyond,
    hms'.reachesSome_beyond]

end Minimum

/-! ## Laws of points -/

/-- Have the two unions the same points? -/
def SamePoints (ns ms : List NumberSet) : Prop := ∀ p, DenotesSome ns p ↔ DenotesSome ms p

theorem SamePoints.trans (h : SamePoints ns ms) (h' : SamePoints ms ks) : SamePoints ns ks :=
  fun p => (h p).trans (h' p)

theorem SamePoints.symm (h : SamePoints ns ms) : SamePoints ms ns := fun p => (h p).symm

theorem samePoints_minimum_comm (hbound : bound + 3 ≤ 2 ^ 53) (hns : SteadyUnion bound ns)
    (hms : SteadyUnion bound ms) : SamePoints (minimum ns ms) (minimum ms ns) := by
  intro p
  cases p with
  | none =>
    rw [denotesSome_minimum_nan hbound hns hms, denotesSome_minimum_nan hbound hms hns, or_comm]
  | some q =>
    rcases eq_or_ne q ⊤ with rfl | hq
    · rw [denotesSome_minimum_top hbound hns hms, denotesSome_minimum_top hbound hms hns]
      grind
    · rw [denotesSome_minimum hbound hns hms hq, denotesSome_minimum hbound hms hns hq, or_comm]

theorem samePoints_minimum_self (hbound : bound + 3 ≤ 2 ^ 53) (hns : SteadyUnion bound ns) :
    SamePoints (minimum ns ns) ns := by
  intro p
  cases p with
  | none =>
    rw [denotesSome_minimum_nan hbound hns hns, or_self]
    exact and_iff_left_of_imp DenotesSome.ne_nil
  | some q =>
    rcases eq_or_ne q ⊤ with rfl | hq
    · rw [denotesSome_minimum_top hbound hns hns]
      have htop := EndlessSome.denotesSome_top hns.wellFormed
      grind
    · rw [denotesSome_minimum hbound hns hns hq, or_self]
      exact and_iff_left_of_imp DenotesSome.reachesSome

theorem samePoints_minimum_assoc (hbound : bound + 4 ≤ 2 ^ 53) (hns : SteadyUnion bound ns)
    (hms : SteadyUnion bound ms) (hks : SteadyUnion bound ks) :
    SamePoints (minimum (minimum ns ms) ks) (minimum ns (minimum ms ks)) := by
  have hbound' : bound + 3 ≤ 2 ^ 53 := by omega
  have hns' := hns.mono (Nat.le_succ bound)
  have hks' := hks.mono (Nat.le_succ bound)
  have hleft := hns.minimum hbound' hms
  have hright := hms.minimum hbound' hks
  intro p
  cases p with
  | none =>
    simp only [denotesSome_minimum_nan hbound hleft hks',
      denotesSome_minimum_nan hbound hns' hright, denotesSome_minimum_nan hbound' hns hms,
      denotesSome_minimum_nan hbound' hms hks, ne_eq,
      minimum_eq_nil hns.wellFormed hms.wellFormed, minimum_eq_nil hms.wellFormed hks.wellFormed]
    grind
  | some q =>
    rcases eq_or_ne q ⊤ with rfl | hq
    · simp only [denotesSome_minimum_top hbound hleft hks',
        denotesSome_minimum_top hbound hns' hright, denotesSome_minimum_top hbound' hns hms,
        denotesSome_minimum_top hbound' hms hks,
        endlessSome_minimum hbound' hns hms, endlessSome_minimum hbound' hms hks]
      -- What is real and endless is endless, and has positive infinity.
      have hreal : ∀ {us : List NumberSet}, SteadyUnion bound us → EndlessSome us true →
          EndlessSome us false ∧ DenotesSome us (some ⊤) := fun hus h =>
        ⟨h.of_real, h.denotesSome_top hus.wellFormed⟩
      have hnsReal := hreal hns
      have hmsReal := hreal hms
      have hksReal := hreal hks
      grind
    · simp only [denotesSome_minimum hbound hleft hks' hq,
        denotesSome_minimum hbound hns' hright hq, denotesSome_minimum hbound' hns hms hq,
        denotesSome_minimum hbound' hms hks hq,
        reachesSome_minimum hbound' hns hms hq, reachesSome_minimum hbound' hms hks hq]
      grind

/-- Minima of unions with the same points have the same points. -/
theorem SamePoints.minimum (hbound : bound + 3 ≤ 2 ^ 53) (hns : SteadyUnion bound ns)
    (hms : SteadyUnion bound ms) (hns' : SteadyUnion bound ns') (hms' : SteadyUnion bound ms')
    (h : SamePoints ns ns') (h' : SamePoints ms ms') :
    SamePoints (minimum ns ms) (minimum ns' ms') := by
  have hleft : SteadyIn bound ns ns' := ⟨hns, hns', fun p => (h p).1⟩
  have hleft' : SteadyIn bound ns' ns := ⟨hns', hns, fun p => (h p).2⟩
  have hright : SteadyIn bound ms ms' := ⟨hms, hms', fun p => (h' p).1⟩
  have hright' : SteadyIn bound ms' ms := ⟨hms', hms, fun p => (h' p).2⟩
  exact fun p => ⟨(hleft.minimum hbound hright).points p, (hleft'.minimum hbound hright').points p⟩

theorem denotesSome_negate (hbound : bound + 2 ≤ 2 ^ 53) (hns : SteadyUnion bound ns) :
    DenotesSome (negate ns) p ↔ DenotesSome ns (p.map opposite) :=
  (denotesSome_canonical hbound hns.flatMap_negateOne.wellFormed
    (.inr hns.flatMap_negateOne.steady)).trans (denotesSome_flatMap_negateOne hns.wellFormed)

theorem SamePoints.negate (hbound : bound + 2 ≤ 2 ^ 53) (hns : SteadyUnion bound ns)
    (hms : SteadyUnion bound ms) (h : SamePoints ns ms) : SamePoints (negate ns) (negate ms) := by
  intro p
  rw [denotesSome_negate hbound hns, denotesSome_negate hbound hms, h]

theorem samePoints_negate_negate (hbound : bound + 2 ≤ 2 ^ 53) (hns : SteadyUnion bound ns) :
    SamePoints (negate (negate ns)) ns := by
  intro p
  have hmap : (p.map opposite).map opposite = p := by
    rw [Option.map_map, (funext opposite_opposite : opposite ∘ opposite = id), Option.map_id, id]
  rw [denotesSome_negate hbound (hns.negate hbound), denotesSome_negate hbound hns, hmap]

section Maximum

variable (hbound : bound + 4 ≤ 2 ^ 53) (hns : SteadyUnion bound ns) (hms : SteadyUnion bound ms)
include hbound hns hms

theorem SteadyUnion.maximum : SteadyUnion (bound + 1) (maximum ns ms) :=
  ((hns.negate (by omega)).minimum (by omega) (hms.negate (by omega))).negate (by omega)

theorem samePoints_maximum_comm : SamePoints (maximum ns ms) (maximum ms ns) := by
  have hns' := hns.negate (by omega)
  have hms' := hms.negate (by omega)
  exact (samePoints_minimum_comm (by omega) hns' hms').negate (by omega)
    (hns'.minimum (by omega) hms') (hms'.minimum (by omega) hns')

omit hms in
theorem samePoints_maximum_self : SamePoints (maximum ns ns) ns := by
  have hns' := hns.negate (by omega)
  exact ((samePoints_minimum_self (by omega) hns').negate (by omega)
    (hns'.minimum (by omega) hns') (hns'.mono (Nat.le_succ bound))).trans
      (samePoints_negate_negate (by omega) hns)

theorem samePoints_maximum_assoc (hks : SteadyUnion bound ks) :
    SamePoints (maximum (maximum ns ms) ks) (maximum ns (maximum ms ks)) := by
  have hns' := hns.negate (by omega)
  have hms' := hms.negate (by omega)
  have hks' := hks.negate (by omega)
  have hns'' := hns'.mono (Nat.le_succ bound)
  have hks'' := hks'.mono (Nat.le_succ bound)
  have hleft := hns'.minimum (by omega) hms'
  have hright := hms'.minimum (by omega) hks'
  have hleft' := (hleft.negate (by omega)).negate (by omega)
  have hright' := (hright.negate (by omega)).negate (by omega)
  -- The two changes of sign between the minima cancel.
  have hcancel := SamePoints.minimum (by omega) hleft' hks'' hleft hks''
    (samePoints_negate_negate (by omega) hleft) fun _ => Iff.rfl
  have hcancel' := SamePoints.minimum (by omega) hns'' hright' hns'' hright (fun _ => Iff.rfl)
    (samePoints_negate_negate (by omega) hright)
  have hassoc := samePoints_minimum_assoc hbound hns' hms' hks'
  exact (hcancel.trans (hassoc.trans hcancel'.symm)).negate (by omega)
    (hleft'.minimum (by omega) hks'') (hns''.minimum (by omega) hright')

end Maximum

end NumberSet

/-! ## Types -/

namespace Ty

open NumberSet

variable {a b c : Ty} {ns ms : List NumberSet} {bound : ℕ}

theorem admits_ofNumbers {v : Sample} :
    (ofNumbers ns).Admits v ↔ ∃ p, v = .number p ∧ DenotesSome ns p := by
  rw [ofNumbers, admits_oneOf]
  simp only [List.mem_map, exists_exists_and_eq_and, Shape.admits_number, DenotesSome]
  constructor
  · rintro ⟨n, hn, p, rfl, hp⟩
    exact ⟨p, rfl, n, hn, hp⟩
  · rintro ⟨p, rfl, n, hn, hp⟩
    exact ⟨n, hn, p, rfl, hp⟩

/-- Types of numbers are known by their points. -/
theorem same_ofNumbers_of_points (h : (ofNumbers ns).Regular isSteady)
    (h' : (ofNumbers ms).Regular isSteady) (hpoints : SamePoints ns ms) :
    (ofNumbers ns).same (ofNumbers ms) = true := by
  rw [same_iff_admits h h']
  intro v
  simp only [admits_ofNumbers, hpoints _]

theorem regular_ofNumbers_canonical (hbound : bound + 2 ≤ 2 ^ 53) (hns : SteadyUnion bound ns) :
    (ofNumbers (canonical ns)).Regular isSteady := by
  rw [ofNumbers, ← Shape.canonical_map_number]
  refine Shape.regular_oneOf_canonical kept_isSteady fun s hs => ?_
  obtain ⟨n, hn, rfl⟩ := List.mem_map.1 hs
  exact Shape.regular_number.2
    ⟨hns.wellFormed n hn, isSteady_of_isSteadyTo hbound (hns.steady n hn)⟩

/-- A type that is included in all numbers is made of sets of numbers. -/
theorem ofNumbers_numbers (h : a.subset number = true) : ofNumbers a.numbers = a := by
  cases a with
  | any => simp [subset, number, ofShape, isAny] at h
  | oneOf ss =>
    rw [number, ofShape, subset, Shape.allCovered_iff] at h
    have hmap : ∀ s ∈ ss, s.number?.map Shape.number = some s := by
      intro s hs
      cases s with
      | number n => rfl
      | text t => simpa [Shape.text?] using Shape.covered_text.1 (h _ hs)
      | record name fields => simpa using Shape.covered_record.1 (h _ hs)
    rw [ofNumbers, numbers, List.map_filterMap, List.filterMap_congr hmap, List.filterMap_some]

theorem steadyUnion_of_isSmall (ha : a.Built) (h : a.isSmall = true) :
    SteadyUnion (2 ^ 52) a.numbers := by
  refine ⟨ha.regular.allWellFormed_numbers, fun n hn => isSteadyTo_of_isSmall ?_⟩
  cases a with
  | any =>
    rw [List.mem_singleton.1 hn]
    rfl
  | oneOf ss =>
    rw [isSmall, Shape.allSmall_iff] at h
    simpa only [Shape.isSmall] using h _ (mem_filterMap_number?.1 hn)

section Laws

variable (hbound : bound + 4 ≤ 2 ^ 53) (ha : SteadyUnion bound a.numbers)
  (hb : SteadyUnion bound b.numbers)
include hbound ha

theorem same_minimum_self (hregular : a.Regular isSteady) (h : a.subset number = true) :
    (a.minimum a).same a = true := by
  rw [← ofNumbers_numbers h] at hregular
  have hsame := same_ofNumbers_of_points
    (regular_ofNumbers_canonical (by omega) (ha.pairs_minimumOne (by omega) ha)) hregular
    (samePoints_minimum_self (by omega) ha)
  rwa [ofNumbers_numbers h] at hsame

theorem same_maximum_self (hregular : a.Regular isSteady) (h : a.subset number = true) :
    (a.maximum a).same a = true := by
  rw [← ofNumbers_numbers h] at hregular
  have hneg := ha.negate (by omega)
  have hsame := same_ofNumbers_of_points
    (regular_ofNumbers_canonical (by omega) (hneg.minimum (by omega) hneg).flatMap_negateOne)
    hregular (samePoints_maximum_self hbound ha)
  rwa [ofNumbers_numbers h] at hsame

include hb

theorem regular_minimum : (a.minimum b).Regular isSteady :=
  regular_ofNumbers_canonical (by omega) (ha.pairs_minimumOne (by omega) hb)

theorem regular_maximum : (a.maximum b).Regular isSteady :=
  regular_ofNumbers_canonical (by omega)
    ((ha.negate (by omega)).minimum (by omega) (hb.negate (by omega))).flatMap_negateOne

theorem steadyUnion_minimum : SteadyUnion (bound + 1) (a.minimum b).numbers := by
  rw [minimum, numbers_ofNumbers]
  exact ha.minimum (by omega) hb

theorem steadyUnion_maximum : SteadyUnion (bound + 1) (a.maximum b).numbers := by
  rw [maximum, numbers_ofNumbers]
  exact ha.maximum hbound hb

theorem same_minimum_comm : (a.minimum b).same (b.minimum a) = true :=
  same_ofNumbers_of_points (regular_minimum hbound ha hb) (regular_minimum hbound hb ha)
    (samePoints_minimum_comm (by omega) ha hb)

theorem same_maximum_comm : (a.maximum b).same (b.maximum a) = true :=
  same_ofNumbers_of_points (regular_maximum hbound ha hb) (regular_maximum hbound hb ha)
    (samePoints_maximum_comm hbound ha hb)

end Laws

section Associativity

variable (hbound : bound + 5 ≤ 2 ^ 53) (ha : SteadyUnion bound a.numbers)
  (hb : SteadyUnion bound b.numbers) (hc : SteadyUnion bound c.numbers)
include hbound ha hb hc

theorem same_minimum_assoc :
    ((a.minimum b).minimum c).same (a.minimum (b.minimum c)) = true := by
  have hab := steadyUnion_minimum (by omega) ha hb
  have hbc := steadyUnion_minimum (by omega) hb hc
  refine same_ofNumbers_of_points (regular_minimum (by omega) hab (hc.mono (Nat.le_succ _)))
    (regular_minimum (by omega) (ha.mono (Nat.le_succ _)) hbc) ?_
  simpa only [minimum, numbers_ofNumbers] using samePoints_minimum_assoc (by omega) ha hb hc

theorem same_maximum_assoc :
    ((a.maximum b).maximum c).same (a.maximum (b.maximum c)) = true := by
  have hab := steadyUnion_maximum (by omega) ha hb
  have hbc := steadyUnion_maximum (by omega) hb hc
  refine same_ofNumbers_of_points (regular_maximum (by omega) hab (hc.mono (Nat.le_succ _)))
    (regular_maximum (by omega) (ha.mono (Nat.le_succ _)) hbc) ?_
  simpa only [maximum, numbers_ofNumbers] using samePoints_maximum_assoc (by omega) ha hb hc

end Associativity

/-- Minima and maxima of types with bounds and literals of at most 52 bits are commutative and
associative, and a type of numbers is its own minimum and maximum. -/
theorem extremes_semilattice (ha : a.Built) (hb : b.Built) (hc : c.Built)
    (ha' : a.isSmall = true) (hb' : b.isSmall = true) (hc' : c.isSmall = true) :
    ((a.minimum b).same (b.minimum a) = true ∧
      ((a.minimum b).minimum c).same (a.minimum (b.minimum c)) = true ∧
      (a.subset number = true → (a.minimum a).same a = true)) ∧
    ((a.maximum b).same (b.maximum a) = true ∧
      ((a.maximum b).maximum c).same (a.maximum (b.maximum c)) = true ∧
      (a.subset number = true → (a.maximum a).same a = true)) := by
  have hregular := ha.steady ha'
  have ha := steadyUnion_of_isSmall ha ha'
  have hb := steadyUnion_of_isSmall hb hb'
  have hc := steadyUnion_of_isSmall hc hc'
  have hbound : 2 ^ 52 + 4 ≤ 2 ^ 53 := by norm_num
  have hbound' : 2 ^ 52 + 5 ≤ 2 ^ 53 := by norm_num
  exact ⟨⟨same_minimum_comm hbound ha hb, same_minimum_assoc hbound' ha hb hc,
      same_minimum_self hbound ha hregular⟩,
    same_maximum_comm hbound ha hb, same_maximum_assoc hbound' ha hb hc,
    same_maximum_self hbound ha hregular⟩

/-- Integers without an upper bound, reals without one and NaN : the minimum of the first two has
positive infinity, on either side of associativity. -/
theorem extremes_semilattice_unbounded :
    let a := int
    let b := union [interval .half .posInf, literal .nan]
    let c := union [integers .zero .posInf, literal .posInf]
    ((a.minimum b).minimum c).same (a.minimum (b.minimum c)) = true ∧
      ((a.minimum b).minimum c).has (.number .posInf) = true ∧ a.has (.number .posInf) = false ∧
      (b.maximum b).same b = true := by
  intro a b c
  have hb : b.Built :=
    .union _ (List.forall_mem_cons.2 ⟨.interval _ _, List.forall_mem_singleton.2 (.literal _)⟩)
  have hc : c.Built :=
    .union _ (List.forall_mem_cons.2 ⟨.integers _ _, List.forall_mem_singleton.2 (.literal _)⟩)
  have ha' : a.isSmall = true := by decide +kernel
  have hb' : b.isSmall = true := by decide +kernel
  have hc' : c.isSmall = true := by decide +kernel
  obtain ⟨⟨-, hassoc, -⟩, -⟩ := extremes_semilattice .int hb hc ha' hb' hc'
  obtain ⟨-, -, -, hself⟩ := extremes_semilattice hb hb hb hb' hb' hb'
  exact ⟨hassoc, by decide +kernel, by decide +kernel, hself (by decide +kernel)⟩

end Ty

end FlowTypes
