import FlowTypes.Proofs.TypeUniqueness

/-!
# Canonical forms are their own canonical forms

Bringing a canonical form into canonical form leaves it as it is, and the union of a union with
itself is the union (`Ty.canonical_idempotent`). Normal unions of numbers cut nothing out of each
other and are known by their unpassed points, so the canonical form of their sets is made of the
same sets (`NumberSet.map_identity_canonical`). Texts ascend, each of them once. Separate records
are kept as they are (`Shape.canonicalRecords_eq_self`).

For the numbers, the steps by one from the cuts must lead out of the real intervals
(`NumberSet.stepsLeave`), as they do within 53 bits (`NumberSet.stepsLeave_of_within`). From `2^53`
a step up leads back to `2^53`, so that number is left beside a real interval that ends there, and
the next canonical form drops it (`Ty.not_canonical_idempotent_of_step`).
-/

namespace FlowTypes

open ExtendedRat Binary64

/-! ## Numbers -/

namespace NumberSet

variable {items : List NumberSet}

/-- Do the steps by one from the real intervals that begin or end among the integers of a range
lead out of them? -/
def stepsLeave (items : List NumberSet) : Bool :=
  items.all fun m => items.all fun n =>
    match m, n with
    | integers l h, interval lo hi =>
      (!(l < lo.ceil && lo.ceil ≤ h) || lo.ceil - .one < lo.ceil) &&
        (!(l ≤ hi.floor && hi.floor ≤ h) || hi.floor < hi.floor + .one || hi = .posInf)
    | _, _ => true

theorem stepsLeave_of_mem (h : stepsLeave items = true) {l u lo hi : Binary64}
    (hm : integers l u ∈ items) (hn : interval lo hi ∈ items) :
    (l < lo.ceil → lo.ceil ≤ u → lo.ceil - one < lo.ceil) ∧
      (l ≤ hi.floor → hi.floor ≤ u → hi.floor < hi.floor + one ∨ hi = .posInf) := by
  have h := List.all_eq_true.1 (List.all_eq_true.1 h _ hm) _ hn
  simp only [Bool.and_eq_true, Bool.or_eq_true, Bool.not_eq_true', Bool.and_eq_false_iff,
    decide_eq_true_eq, decide_eq_false_iff_not] at h
  tauto

/-- Within 53 bits the steps lead out. -/
theorem stepsLeave_of_within (hitems : ∀ n ∈ items, n.wellFormed = true)
    (h : ∀ lo hi, interval lo hi ∈ items →
      lo.within (2 ^ 53 - 1) = true ∧ hi.within (2 ^ 53 - 1) = true) :
    stepsLeave items = true := by
  simp only [stepsLeave, List.all_eq_true]
  intro m hm n hn
  split
  · next l u lo hi =>
    obtain ⟨hlo, hhi, hlt⟩ := lt_of_wellFormed_interval (hitems _ hn)
    obtain ⟨hwlo, hwhi⟩ := h lo hi hn
    rw [Bool.and_eq_true, Bool.or_eq_true, Bool.or_eq_true, Bool.or_eq_true]
    constructor
    · cases lo with
      | nan => cases hlo
      | infinity s =>
        cases s with
        | true =>
          have hbelow : ¬l < (infinity true).ceil := fun h => not_lt_bot (lt_iff_value.1 h).2.2
          exact Or.inl (by simp [hbelow])
        | false => exact absurd hlt not_top_lt
      | finite s m hm =>
        exact Or.inr (decide_eq_true (sub_one_lt_of_within (isInteger_ceil rfl) (within_ceil hwlo)))
    · cases hi with
      | nan => cases hhi
      | infinity s =>
        cases s with
        | true => exact absurd hlt not_lt_bot
        | false => exact Or.inr rfl
      | finite s m hm =>
        exact Or.inl (Or.inr (decide_eq_true
          (lt_add_one_of_within (isInteger_floor rfl) (within_floor hwhi))))
  · rfl

theorem cutsLeave_of_stepsLeave (hitems : ∀ n ∈ items, n.wellFormed = true)
    (h : stepsLeave items = true) : CutsLeave items := by
  intro z _ s hs
  have hintegers := mem_filterMap_integral?.1 hs
  obtain ⟨hlo, hhi, -⟩ := whole_of_wellFormed_integers (hitems _ hintegers)
  have hlon := isNaN_of_isWhole hlo
  have hhin := isNaN_of_isWhole hhi
  constructor
  · intro r hr _ hlt hle hz
    obtain ⟨⟨t, ht, he⟩, -⟩ := Range.bounds_of_mem_merge r hr
    have hinterval := mem_filterMap_reals?.1 ht
    have hfirst := isNaN_of_isWhole
      (isWhole_ceil (lt_of_wellFormed_interval (hitems _ hinterval)).1)
    rw [Range.first, he] at hlt hle hz ⊢
    have hstep := (stepsLeave_of_mem h hintegers hinterval).1
      (lt_iff_value.2 ⟨hlon, hfirst, hlt⟩) (le_iff_value.2 ⟨hfirst, hhin, hle⟩)
    exact hz.trans_lt (lt_iff_value.1 hstep).2.2
  · intro r hr _ hle hmore hz
    obtain ⟨-, t, ht, he⟩ := Range.bounds_of_mem_merge r hr
    have hinterval := mem_filterMap_reals?.1 ht
    have hwhole := isWhole_floor (lt_of_wellFormed_interval (hitems _ hinterval)).2.1
    have hlast := isNaN_of_isWhole hwhole
    rw [Range.last, he] at hle hmore hz ⊢
    rcases (stepsLeave_of_mem h hintegers hinterval).2 (le_iff_value.2 ⟨hlon, hlast, hle⟩)
      (le_iff_value.2 ⟨hlast, hhin, (le_value_add_one hwhole).trans hmore⟩) with hstep | htop
    · exact (lt_iff_value.1 hstep).2.2.trans_le hz
    · rw [htop] at hz
      exact absurd hz (not_le.2 (rat_lt_top _))

/-! ## Unions without cuts -/

/-- Does no unpassed point lie both in a range of integers and in a real interval? -/
def Uncut (items : List NumberSet) : Prop :=
  ∀ l u lo hi, integers l u ∈ items → interval lo hi ∈ items → ∀ p, Unpassed p →
    (integers l u).Denotes p → ¬(interval lo hi).Denotes p

/-- No double in a range of integers is one in a real range, but for infinities. -/
theorem Uncut.not_contains (huncut : Uncut items) (hitems : ∀ n ∈ items, n.wellFormed = true)
    {s r : Range} (hs : s ∈ items.filterMap integral?) (hr : r ∈ realRanges items) {v : Binary64}
    {k : ℤ} (hv : v.isNaN = false) (hk : v.value = int k) (hsv : s.Contains v.value) :
    ¬(r.first.value ≤ v.value ∧ v.value ≤ r.last.value) := by
  intro hrv
  rw [hk] at hsv hrv
  obtain ⟨lo, hi, hmem, hin⟩ :=
    (contains_realRanges hitems (int k)).1 ⟨r, hr, (Range.contains_int_iff r k).2 hrv⟩
  have hp : Unpassed (some (int k)) := exact_eq_some.2 ⟨hv, hk⟩ ▸ unpassed_exact v
  exact huncut s.lo s.hi lo hi (mem_filterMap_integral?.1 hs) hmem _ hp ⟨k, rfl, hsv⟩
    ⟨int k, rfl, hin⟩

theorem Uncut.cutsStop (huncut : Uncut items) (hitems : ∀ n ∈ items, n.wellFormed = true) :
    CutsStop items := by
  intro z _ s hs r hr hle hlt hhi hz
  have hwhole := ((parts_of_wellFormed hitems).reals_ordered r hr).isWhole_first
  rcases value_of_isWhole hwhole with he | he | ⟨-, k, hk⟩
  · rw [he] at hz
    exact absurd hz not_lt_bot
  · rw [he]
    exact le_top
  · exact absurd ⟨le_refl _, hle⟩ (huncut.not_contains hitems hs hr (isNaN_of_isWhole hwhole) hk
      ⟨hlt.le, hhi⟩)

theorem Uncut.cutsLeave (huncut : Uncut items) (hitems : ∀ n ∈ items, n.wellFormed = true) :
    CutsLeave items := by
  intro z _ s hs
  constructor
  · intro r hr hle hlt hhi _
    have hwhole := ((parts_of_wellFormed hitems).reals_ordered r hr).isWhole_first
    rcases value_of_isWhole hwhole with he | he | ⟨-, k, hk⟩
    · rw [he] at hlt
      exact absurd hlt not_lt_bot
    · rw [he]
      exact rat_lt_top _
    · exact absurd ⟨le_refl _, hle⟩ (huncut.not_contains hitems hs hr (isNaN_of_isWhole hwhole) hk
        ⟨hlt.le, hhi⟩)
  · intro r hr hle hlo hmore hz
    have hwhole := ((parts_of_wellFormed hitems).reals_ordered r hr).isWhole_last
    rcases value_of_isWhole hwhole with he | he | ⟨-, k, hk⟩
    · rw [he]
      exact bot_lt_rat _
    · rw [he] at hz
      exact absurd hz (not_le.2 (rat_lt_top _))
    · exact absurd ⟨hle, le_refl _⟩ (huncut.not_contains hitems hs hr (isNaN_of_isWhole hwhole) hk
        ⟨hlo, (le_value_add_one hwhole).trans hmore⟩)

/-- The sets of a normal union cut nothing out of each other. -/
theorem Normal.uncut {F : List NumberSet} (hF : Normal F)
    (hitems : ∀ n ∈ items, n.identity ∈ F) : Uncut items := by
  intro l u lo hi hm hn p hp hmp
  rcases hF with rfl | hF
  · cases List.mem_singleton.1 (hitems _ hm)
  · exact hF.avoidsReals _ (hitems _ hm) rfl lo hi (hitems _ hn) p hp hmp

/-- The canonical form of the sets of a normal union is the union, however often they are listed. -/
theorem map_identity_canonical {F : List NumberSet} (hF : Normal F)
    (hitems : ∀ n ∈ items, n.wellFormed = true)
    (hsame : ∀ n, n ∈ F ↔ ∃ m ∈ items, m.identity = n) : (canonical items).map identity = F := by
  have huncut := hF.uncut fun n hn => (hsame _).2 ⟨n, hn, rfl⟩
  refine (normal_canonical_of_cutsLeave hitems (huncut.cutsLeave hitems)).eq_of_unpassed hF ?_
  intro p hp
  have hpoints := sameUnpassed_canonical hitems (huncut.cutsStop hitems) p hp
  simp only [List.mem_map, exists_exists_and_eq_and, denotes_identity, hsame, hpoints]

/-- No zero of a union that is joined has a sign. -/
theorem identity_of_mem_joined (hitems : ∀ n ∈ items, n.wellFormed = true) {n : NumberSet}
    (hn : n ∈ joined items) : n.identity = n := by
  rw [joined] at hn
  split at hn
  · rw [List.mem_singleton.1 hn]
    rfl
  · refine identity_of_mem_assemble (fun r hr => ?_) hn
    exact unsigned_lo_of_mem_integral hitems hr

/-- The canonical form of a canonical form is the canonical form. -/
theorem canonical_canonical (hitems : ∀ n ∈ items, n.wellFormed = true)
    (h : stepsLeave items = true) : canonical (canonical items) = canonical items := by
  match items with
  | [] => rfl
  | [_] => rfl
  | a :: b :: rest =>
    have hwf := fun n (hn : n ∈ canonical (a :: b :: rest)) => wellFormed_of_mem_canonical hitems hn
    have hnormal := normal_canonical_of_cutsLeave hitems (cutsLeave_of_stepsLeave hitems h)
    have heq := map_identity_canonical hnormal hwf fun n => List.mem_map
    rw [@canonical_eq_joined (a :: b :: rest) (by simp)] at hwf heq ⊢
    have hid : (joined (a :: b :: rest)).map identity = joined (a :: b :: rest) := by
      rw [List.map_congr_left fun n hn => identity_of_mem_joined hitems hn, List.map_id']
    match hF : joined (a :: b :: rest), hwf with
    | [], _ => rfl
    | [_], _ => rfl
    | m :: n :: others, hwf =>
      rw [hF] at heq hid
      rw [hid, canonical_eq_joined (by simp)] at heq
      rw [canonical_eq_joined (by simp)]
      rwa [List.map_congr_left fun k hk => identity_of_mem_joined hwf hk, List.map_id'] at heq

/-- Twice the sets of a canonical form have the same one. -/
theorem canonical_append_self (hitems : ∀ n ∈ items, n.wellFormed = true)
    (h : stepsLeave items = true) :
    (canonical (canonical items ++ canonical items)).map identity =
      (canonical items).map identity := by
  have hnormal := normal_canonical_of_cutsLeave hitems (cutsLeave_of_stepsLeave hitems h)
  refine map_identity_canonical hnormal (fun n hn => ?_) fun n => ?_
  · rcases List.mem_append.1 hn with hn | hn <;> exact wellFormed_of_mem_canonical hitems hn
  · simp only [List.mem_map, List.mem_append, or_self]

end NumberSet

/-! ## Texts -/

theorem TextSet.canonical_canonical (items : List TextSet) :
    canonical (canonical items) = canonical items :=
  canonical_eq_of_has (has_canonical items)

theorem TextSet.canonical_append_self (items : List TextSet) :
    canonical (canonical items ++ canonical items) = canonical items := by
  refine canonical_eq_of_has fun s => ?_
  simp only [List.mem_append, or_self, has_canonical]

/-! ## Records -/

namespace Shape

variable {records items : List Shape}

theorem SeparateRecords.nodup (h : SeparateRecords records) : records.Nodup :=
  h.ascending.imp fun hlt he => (he ▸ hlt).ne rfl

/-- Records of separate ones are told apart by their texts. -/
theorem SeparateRecords.eq_of_describe (h : SeparateRecords records) {s t : Shape}
    (hs : s ∈ records) (ht : t ∈ records) (he : s.describe = t.describe) : s = t := by
  rcases StableSort.eq_or_of_pairwise h.ascending hs ht with heq | hlt | hlt
  · exact heq
  · exact absurd he hlt.ne
  · exact absurd he hlt.ne'

/-- Ascending records are listed as they are, however often they are given. -/
theorem distinctRecords_eq_self (h : SeparateRecords records)
    (hitems : ∀ s, s ∈ items ↔ s ∈ records) : distinctRecords items = records := by
  have hasc := ascending_distinctRecords items
  have hnodup : (distinctRecords items).Nodup := hasc.imp fun hlt he => (he ▸ hlt).ne rfl
  have hperm : (distinctRecords items).Perm records := by
    refine (List.perm_ext_iff_of_nodup hnodup h.nodup).2 fun s => ⟨fun hs => ?_, fun hs => ?_⟩
    · exact (hitems s).1 (mem_of_mem_distinctRecords hs)
    · obtain ⟨t, ht, he⟩ := (exists_mem_distinctRecords (p := fun t => s.describe = t.describe)
        (q := fun _ => True) (fun _ _ _ _ he h => h.trans he) fun _ _ => trivial).2
          ⟨s, (hitems s).2 hs, rfl⟩
      rwa [h.eq_of_describe hs ((hitems t).1 (mem_of_mem_distinctRecords ht)) he]
  exact hperm.eq_of_pairwise (fun a b _ _ hab hba => absurd (hab.trans hba) (lt_irrefl _)) hasc
    h.ascending

/-- Records that do not cover each other are all kept. -/
theorem foldl_addRecord_eq_append : ∀ items kept : List Shape,
    (kept ++ items).Pairwise (fun a b => a.subset b = false ∧ b.subset a = false) →
      items.foldl addRecord kept = kept ++ items
  | [], kept, _ => (List.append_nil kept).symm
  | item :: items, kept, h => by
    have hitem : ∀ k ∈ kept, k.subset item = false ∧ item.subset k = false := fun k hk =>
      (List.pairwise_append.1 h).2.2 k hk item List.mem_cons_self
    have hadd : addRecord kept item = kept ++ [item] := by
      have hnone : ¬kept.any (fun k => item.subset k) = true := by
        simpa using fun k hk => (hitem k hk).2
      have hall : kept.filter (fun k => !k.subset item) = kept :=
        List.filter_eq_self.2 fun k hk => by simp [(hitem k hk).1]
      rw [addRecord, if_neg hnone, hall]
    rw [List.append_cons] at h
    rw [List.foldl_cons, hadd, foldl_addRecord_eq_append items _ h, List.append_assoc]
    rfl

/-- Separate records are their own canonical form, however often they are listed. -/
theorem canonicalRecords_eq_self (h : SeparateRecords records)
    (hitems : ∀ s, s ∈ items ↔ s ∈ records) : canonicalRecords items = records := by
  match items, hitems with
  | [], hitems =>
    exact (List.eq_nil_iff_forall_not_mem.2 fun s hs => by simpa using (hitems s).2 hs).symm
  | [s], hitems =>
    have hperm : [s].Perm records :=
      (List.perm_ext_iff_of_nodup (List.nodup_singleton s) h.nodup).2 hitems
    exact (List.perm_singleton.1 hperm.symm).symm
  | a :: b :: rest, hitems =>
    rw [canonicalRecords_eq, distinctRecords_eq_self h hitems]
    exact foldl_addRecord_eq_append records [] h.antichain

/-! ## Shapes -/

/-- The canonical form of a canonical form is the canonical form. -/
theorem canonical_canonical (hitems : ∀ s ∈ items, s.wellFormed = true)
    (h : NumberSet.stepsLeave (items.filterMap number?) = true) :
    canonical (canonical items) = canonical items := by
  have hnumbers := NumberSet.canonical_canonical (wellFormed_of_mem_numbers hitems) h
  have hrecords := canonicalRecords_eq_self (separate_canonicalRecords (items.filter isRecord))
    fun _ => Iff.rfl
  rw [canonical, filterMap_number?_canonical, filterMap_text?_canonical, filter_isRecord_canonical,
    hnumbers, TextSet.canonical_canonical, hrecords]
  rfl

/-- Twice the shapes of a canonical form have the same one. -/
theorem identities_canonical_append_self (hitems : ∀ s ∈ items, s.wellFormed = true)
    (h : NumberSet.stepsLeave (items.filterMap number?) = true) :
    identities (canonical (canonical items ++ canonical items)) = identities (canonical items) := by
  have hnumbers := NumberSet.canonical_append_self (wellFormed_of_mem_numbers hitems) h
  have hrecords := @canonicalRecords_eq_self _
    (canonicalRecords (items.filter isRecord) ++ canonicalRecords (items.filter isRecord))
    (separate_canonicalRecords (items.filter isRecord)) fun s => by simp
  simp only [identities_canonical, List.filterMap_append, List.filter_append,
    filterMap_number?_canonical, filterMap_text?_canonical, filter_isRecord_canonical, hnumbers,
    TextSet.canonical_append_self, hrecords]

end Shape

/-! ## Types -/

namespace Ty

/-- The union of a union with itself is the union. -/
theorem same_union_self {ts : List Ty} (hts : ∀ t ∈ ts, t.wellFormed = true)
    (h : NumberSet.stepsLeave ((ts.flatMap shapes).filterMap Shape.number?) = true) :
    (union [union ts, union ts]).same (union ts) = true := by
  have hshapes : ∀ s ∈ ts.flatMap shapes, s.wellFormed = true := by
    intro s hs
    obtain ⟨t, ht, hs⟩ := List.mem_flatMap.1 hs
    exact wellFormed_of_mem_shapes (hts t ht) hs
  unfold same
  rw [decide_eq_true_eq, union.eq_def ts]
  split
  · rfl
  · have hself := Shape.identities_canonical_append_self hshapes h
    simpa [union, isAny, shapes, identity] using hself

/-- Canonical forms of well-formed shapes are their own canonical forms, and unions of well-formed
types are their unions with themselves, if the steps from the cuts in the ranges of integers lead
out of the real intervals. Fields of records may have any types. -/
theorem canonical_idempotent {items : List Shape} {ts : List Ty}
    (hitems : ∀ s ∈ items, s.wellFormed = true) (hts : ∀ t ∈ ts, t.wellFormed = true)
    (hleave : NumberSet.stepsLeave (items.filterMap Shape.number?) = true)
    (hleave' : NumberSet.stepsLeave ((ts.flatMap shapes).filterMap Shape.number?) = true) :
    Shape.canonical (Shape.canonical items) = Shape.canonical items ∧
      (union [union ts, union ts]).same (union ts) = true :=
  ⟨Shape.canonical_canonical hitems hleave, same_union_self hts hleave'⟩

/-- The integers with a real interval cut out of them, and a record. -/
theorem canonical_idempotent_point :
    let items := [Shape.number .everyInteger, .number (.interval .half .one),
      .record "point" [("x", int)]]
    let ts := [int, interval .half .one, ofShape (.record "point" [("x", int)])]
    Shape.canonical (Shape.canonical items) = Shape.canonical items ∧
      (union [union ts, union ts]).same (union ts) = true :=
  canonical_idempotent (by decide +kernel) (by decide +kernel) (by decide +kernel)
    (by decide +kernel)

/-- The step up from `2^53`, where the real interval ends, leads back to it. So this integer is
left as a literal inside the interval, and the next canonical form drops it. -/
theorem not_canonical_idempotent_of_step :
    let items := [Shape.number (.integers .zero (.ofNat (2 ^ 53))),
      .number (.interval .half (.ofNat (2 ^ 53)))]
    let t := union [integers .zero (.ofNat (2 ^ 53)), interval .half (.ofNat (2 ^ 53))]
    (∀ s ∈ items, s.wellFormed = true) ∧
      Shape.canonical (Shape.canonical items) ≠ Shape.canonical items ∧
        t.Built ∧ (union [t, t]).same t = false := by
  intro items t
  refine ⟨by decide +kernel, by decide +kernel, .union _ ?_, by decide +kernel⟩
  exact List.forall_mem_cons.2 ⟨.integers _ _, List.forall_mem_singleton.2 (.interval _ _)⟩

end Ty

end FlowTypes
