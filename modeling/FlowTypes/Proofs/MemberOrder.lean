import FlowTypes.Proofs.TypeUniqueness

/-!
# The order of members never matters

A canonical form depends on its members, not on the order in which they are given
(`Shape.identities_canonical_of_perm`). Nor does it depend on the signs of their zeros, so the
lemmas ask for lists of members whose identities are permutations of each other.

* Numbers : every step of `NumberSet.joined` either keeps permutations or sorts. The sorts go by
  positions, which do not show the sign of a zero; but no bound and no loose integer has one
  (`Range.sort_eq_of_perm`).
* Texts : canonical forms are known by their texts (`TextSet.canonical_eq_of_has`).
* Records : those that are distinct ascend by their texts, so they are the same records in the same
  order (`Shape.distinctRecords_of_perm`). The removal of covered ones goes through that list, and
  the test for cover does not see the sign of a zero (`Shape.subset_identity`).
-/

namespace FlowTypes

open Binary64

/-- A list of at most one element has one order. -/
theorem eq_of_perm_of_length_lt {α : Type} {xs ys : List α} (h : xs.Perm ys)
    (hlength : xs.length < 2) : xs = ys := by
  match xs, h, hlength with
  | [], h, _ => exact (List.nil_perm.1 h).symm
  | [_], h, _ => exact (List.perm_singleton.1 h.symm).symm
  | _ :: _ :: _, _, hlength => simp only [List.length_cons] at hlength; omega

namespace Binary64

theorem le_unsignedZero {v w : Binary64} : v ≤ w.unsignedZero ↔ v ≤ w := by
  rw [le_iff, le_iff, isNaN_unsignedZero, position_unsignedZero]

theorem unsignedZero_le {v w : Binary64} : v.unsignedZero ≤ w ↔ v ≤ w := by
  rw [le_iff, le_iff, isNaN_unsignedZero, position_unsignedZero]

end Binary64

/-! ## Ranges -/

namespace Range

/-- Bounds that are numbers, without a sign on a zero. -/
structure Unsigned (r : Range) : Prop where
  lo_number : r.lo.isNaN = false
  hi_number : r.hi.isNaN = false
  lo_unsigned : r.lo.unsignedZero = r.lo
  hi_unsigned : r.hi.unsignedZero = r.hi

/-- Ranges that begin and end at one place are equal. -/
theorem Unsigned.eq_of_startsFirst {a b : Range} (ha : a.Unsigned) (hb : b.Unsigned)
    (hab : a.startsFirst b = true) (hba : b.startsFirst a = true) : a = b := by
  simp only [startsFirst, Bool.or_eq_true, Bool.and_eq_true, decide_eq_true_eq] at hab hba
  have hlo : a.lo = b.lo := by
    rw [← ha.lo_unsigned, ← hb.lo_unsigned, unsignedZero_eq_iff, ha.lo_number, hb.lo_number]
    exact ⟨rfl, by omega⟩
  have hhi : a.hi = b.hi := by
    rw [← ha.hi_unsigned, ← hb.hi_unsigned, unsignedZero_eq_iff, ha.hi_number, hb.hi_number]
    exact ⟨rfl, by omega⟩
  cases a
  cases b
  simp_all

theorem merge_eq_of_perm {touches : Binary64 → Binary64 → Bool} {ranges others : List Range}
    (hranges : ∀ r ∈ ranges, r.Unsigned) (h : ranges.Perm others) :
    merge touches ranges = merge touches others := by
  have hsort := StableSort.sort_eq_of_perm startsFirst_total startsFirst_trans
    (fun a ha b hb => (hranges a ha).eq_of_startsFirst (hranges b hb)) h
  rw [merge, merge, hsort]

end Range

/-! ## Numbers -/

namespace NumberSet

variable {xs ys items : List NumberSet} {reals integral integral' : List Range}
  {literals literals' vs ws : List Binary64}

theorem points_eq_of_perm (h : vs.Perm ws) : points vs = points ws := by
  rw [points, points, StableSort.sort_eq_of_perm Binary64.compare_total Binary64.compare_trans ?_ h]
  simp only [Binary64.compare_ne_gt_iff]
  exact fun a _ b _ hab hba => rank_injective (le_antisymm hab hba)

/-- The bounds that `assemble` sorts its pieces by are unsigned. -/
theorem unsigned_of_mem_pieces (h : Parts reals integral)
    (hlo : ∀ r ∈ integral, r.lo.unsignedZero = r.lo)
    (hhi : ∀ r ∈ integral, r.hi.unsignedZero = r.hi) :
    ∀ r ∈ pieces reals integral literals, r.Unsigned := by
  intro r hr
  have hwhole := h.whole_of_mem_pieces r hr
  refine ⟨isNaN_of_isWhole hwhole.lo_whole, isNaN_of_isWhole hwhole.hi_whole, ?_, ?_⟩ <;>
    rcases mem_pieces.1 hr with ⟨s, hs, hr⟩ | ⟨v, -, -, rfl⟩
  · exact unsigned_lo_of_mem_outside (hlo s hs) r hr
  · exact unsignedZero_unsignedZero v
  · exact unsigned_hi_of_mem_outside (hhi s hs) r hr
  · exact unsignedZero_unsignedZero v

theorem assemble_eq (reals integral : List Range) (literals : List Binary64) :
    assemble reals integral literals = StableSort.sort (fun a b => a.compare b != .gt)
      ((runs reals integral literals).filterMap ofRun? ++
        reals.map (fun r => interval r.lo.unsignedZero r.hi.unsignedZero) ++
          points ((loose reals literals).filter (!·.isInteger) ++
            (runs reals integral literals).filterMap ofSingleRun?)) := rfl

theorem assemble_eq_of_perm (hpieces : ∀ r ∈ pieces reals integral literals, r.Unsigned)
    (hintegral : integral.Perm integral') (hliterals : literals.Perm literals') :
    assemble reals integral literals = assemble reals integral' literals' := by
  have hloose : (loose reals literals).Perm (loose reals literals') := hliterals.filter _
  have hruns : runs reals integral literals = runs reals integral' literals' :=
    Range.merge_eq_of_perm hpieces
      ((hintegral.flatMap_right _).append (((hloose.filter _).map _).map _))
  have hpoints := points_eq_of_perm ((hloose.filter (!·.isInteger)).append_right
    ((runs reals integral literals).filterMap ofSingleRun?))
  rw [assemble_eq, assemble_eq, hpoints, hruns]

/-- The bounds of well-formed intervals are unsigned. -/
theorem unsigned_of_mem_reals (hitems : ∀ n ∈ items, n.wellFormed = true) :
    ∀ r ∈ items.filterMap reals?, r.Unsigned := by
  intro r hr
  have hord := ordered_of_mem_reals hitems r hr
  obtain ⟨-, hlo, hhi⟩ := properBounds_iff.1 (hitems _ (mem_filterMap_reals?.1 hr))
  exact ⟨hord.lo_number, hord.hi_number, hlo, hhi⟩

theorem joined_eq_of_perm (hxs : ∀ n ∈ xs, n.wellFormed = true) (h : xs.Perm ys) :
    joined xs = joined ys := by
  have hreals : realRanges xs = realRanges ys :=
    Range.merge_eq_of_perm (unsigned_of_mem_reals hxs) (h.filterMap _)
  have hliterals := h.filterMap literal?
  have hevery : isEverything xs = isEverything ys := by
    rw [isEverything, isEverything, hreals, h.any_eq, hliterals.any_eq]
  have hpieces : ∀ r ∈ pieces (realRanges xs) (xs.filterMap integral?) (xs.filterMap literal?),
      r.Unsigned :=
    unsigned_of_mem_pieces (parts_of_wellFormed hxs)
      (fun r hr => unsigned_lo_of_mem_integral hxs hr)
      fun r hr => unsigned_hi_of_mem_integral hxs hr
  rw [joined, joined, hevery, assemble_eq_of_perm hpieces (h.filterMap _) hliterals, hreals]

/-! ### The sign of a zero -/

theorem filterMap_reals?_identity (items : List NumberSet) :
    (items.map identity).filterMap reals? = items.filterMap reals? := by
  rw [List.filterMap_map]
  exact List.filterMap_congr fun n _ => by cases n <;> rfl

theorem filterMap_integral?_identity (items : List NumberSet) :
    (items.map identity).filterMap integral? = items.filterMap integral? := by
  rw [List.filterMap_map]
  exact List.filterMap_congr fun n _ => by cases n <;> rfl

theorem filterMap_literal?_identity (items : List NumberSet) :
    (items.map identity).filterMap literal? = (items.filterMap literal?).map unsignedZero := by
  rw [List.filterMap_map, List.map_filterMap]
  exact List.filterMap_congr fun n _ => by cases n <;> rfl

theorem has_unsignedZero (n : NumberSet) (v : Binary64) : n.has v.unsignedZero = n.has v := by
  cases n with
  | all => rfl
  | literal w => simp only [has, Binary64.same, unsignedZero_unsignedZero]
  | interval lo hi => simp only [has, le_unsignedZero, unsignedZero_le]
  | integers lo hi => simp only [has, isInteger_unsignedZero, le_unsignedZero, unsignedZero_le]

theorem loose_unsignedZero (reals : List Range) (literals : List Binary64) :
    loose reals (literals.map unsignedZero) = (loose reals literals).map unsignedZero := by
  have hhas : ∀ (r : Range) v, r.has v.unsignedZero = r.has v :=
    fun r v => (interval r.lo r.hi).has_unsignedZero v
  rw [loose, loose, List.filter_map]
  simp only [Function.comp_def, hhas]

theorem filter_unsignedZero (vs : List Binary64) :
    ((vs.map unsignedZero).filter isInteger).map unsignedZero =
        (vs.filter isInteger).map unsignedZero ∧
      (vs.map unsignedZero).filter (!·.isInteger) = vs.filter (!·.isInteger) := by
  simp only [List.filter_map, Function.comp_def, isInteger_unsignedZero, List.map_map,
    unsignedZero_unsignedZero, true_and]
  refine (List.map_congr_left fun v hv => ?_).trans (List.map_id' _)
  exact unsignedZero_of_not_isInteger (by simpa using (List.mem_filter.1 hv).2)

theorem assemble_unsignedZero (reals integral : List Range) (literals : List Binary64) :
    assemble reals integral (literals.map unsignedZero) = assemble reals integral literals := by
  obtain ⟨hintegers, hfractions⟩ := filter_unsignedZero (loose reals literals)
  rw [assemble_eq, assemble_eq, runs, runs, pieces, pieces, loose_unsignedZero, hintegers,
    hfractions]

/-- The canonical form does not see the sign of a zero. -/
theorem joined_map_identity (items : List NumberSet) :
    joined (items.map identity) = joined items := by
  have hany : (items.map identity).any (· = all) = items.any (· = all) := by
    rw [List.any_map]
    congr 1
    funext n
    cases n <;> rfl
  have hnan : ((items.filterMap literal?).map unsignedZero).any (·.isNaN) =
      (items.filterMap literal?).any (·.isNaN) := by
    simp only [List.any_map, Function.comp_def, isNaN_unsignedZero]
  have hreals : realRanges (items.map identity) = realRanges items := by
    rw [realRanges, realRanges, filterMap_reals?_identity]
  have hevery : isEverything (items.map identity) = isEverything items := by
    rw [isEverything, isEverything, hreals, hany, filterMap_literal?_identity, hnan]
  rw [joined, joined, hevery, hreals, filterMap_integral?_identity, filterMap_literal?_identity,
    assemble_unsignedZero]

theorem canonical_eq_self (h : items.length < 2) : canonical items = items := by
  match items, h with
  | [], _ => rfl
  | [_], _ => rfl
  | _ :: _ :: _, h => simp only [List.length_cons] at h; omega

/-- The canonical form forgets the order of the sets, and the signs of their zeros. -/
theorem canonical_of_perm (hxs : ∀ n ∈ xs, n.wellFormed = true)
    (h : (xs.map identity).Perm (ys.map identity)) :
    (canonical xs).map identity = (canonical ys).map identity := by
  have hlength : xs.length = ys.length := by simpa using h.length_eq
  rcases Nat.lt_or_ge xs.length 2 with hshort | hlong
  · rw [canonical_eq_self hshort, canonical_eq_self (hlength ▸ hshort)]
    exact eq_of_perm_of_length_lt h (by simpa using hshort)
  · have hwf : ∀ n ∈ xs.map identity, n.wellFormed = true := by
      simpa [wellFormed_identity] using hxs
    rw [canonical_eq_joined hlong, canonical_eq_joined (hlength ▸ hlong), ← joined_map_identity xs,
      joined_eq_of_perm hwf h, joined_map_identity]

/-! ### Inclusion -/

theorem subset_identity (m n : NumberSet) : m.identity.subset n.identity = m.subset n := by
  cases m with
  | literal v =>
    have hv : n.identity.has v.unsignedZero = n.has v := by rw [has_identity, has_unsignedZero]
    cases n <;> exact hv
  | _ => cases n <;> rfl

/-- The parts of a range in some sets, but for the signs of their zeros. -/
theorem map_identity_meets {n : NumberSet} (hn : n.bounds?.isSome = true)
    (items : List NumberSet) :
    ((items.map identity).filterMap (meet .left · n)).map identity =
      (items.filterMap (meet .left · n)).map identity := by
  rw [List.filterMap_map, List.map_filterMap, List.map_filterMap]
  refine List.filterMap_congr fun m _ => ?_
  cases m with
  | literal v =>
    have hmeet : ∀ w, meet .left (literal w) n = if n.has w then some (literal w) else none := by
      cases n <;> first | exact fun _ => rfl | cases hn
    simp only [Function.comp_apply, identity, hmeet, has_unsignedZero]
    split <;> simp [identity, unsignedZero_unsignedZero]
  | _ => rfl

theorem identity_eq_iff_of_range {m n : NumberSet} (hn : n.bounds?.isSome = true) :
    m.identity = n ↔ m = n := by
  cases n with
  | all => cases hn
  | literal v => cases hn
  | interval lo hi => cases m <;> simp [identity]
  | integers lo hi => cases m <;> simp [identity]

/-- Is a canonical form a given range? The signs of zeros do not tell. -/
theorem canonical_eq_singleton_congr {n : NumberSet} (hn : n.bounds?.isSome = true)
    (h : xs.map identity = ys.map identity) : canonical xs = [n] ↔ canonical ys = [n] := by
  have hlength : xs.length = ys.length := by simpa using congrArg List.length h
  rcases Nat.lt_or_ge xs.length 2 with hshort | hlong
  · have hself : ∀ ns : List NumberSet, ns = [n] ↔ ns.map identity = [n] := by
      intro ns
      rcases ns with _ | ⟨m, _ | ⟨k, rest⟩⟩ <;> simp [identity_eq_iff_of_range hn]
    rw [canonical_eq_self hshort, canonical_eq_self (hlength ▸ hshort), hself, hself ys, h]
  · rw [canonical_eq_joined hlong, canonical_eq_joined (hlength ▸ hlong), ← joined_map_identity xs,
      h, joined_map_identity]

theorem joint_identity (n : NumberSet) (items : List NumberSet) :
    n.identity.joint (items.map identity) = n.joint items := by
  cases hn : n.bounds?.isSome with
  | false => cases n <;> first | rfl | cases hn
  | true =>
    rw [(identity_eq_iff_of_range hn).2 rfl, joint, joint, hn, Bool.true_and, Bool.true_and,
      decide_eq_decide]
    exact canonical_eq_singleton_congr hn (map_identity_meets hn items)

end NumberSet

/-! ## Texts -/

theorem TextSet.canonical_eq_of_perm {xs ys : List TextSet} (h : xs.Perm ys) :
    canonical xs = canonical ys :=
  canonical_eq_of_has fun s => by simp only [h.mem_iff]

/-! ## Inclusion does not see the sign of a zero -/

theorem Shape.filterMap_number?_identities (ss : List Shape) :
    (identities ss).filterMap number? = (ss.filterMap number?).map NumberSet.identity := by
  rw [identities_eq_map, List.filterMap_map, List.map_filterMap]
  exact List.filterMap_congr fun s _ => by cases s <;> simp [identity, number?]

theorem Shape.filterMap_text?_identities (ss : List Shape) :
    (identities ss).filterMap text? = ss.filterMap text? := by
  rw [identities_eq_map, List.filterMap_map]
  exact List.filterMap_congr fun s _ => by cases s <;> simp [identity, text?]

theorem Shape.filter_isRecord_identities (ss : List Shape) :
    (identities ss).filter isRecord = (ss.filter isRecord).map identity := by
  have hrecord : ∀ s : Shape, s.identity.isRecord = s.isRecord := by
    intro s
    cases s <;> simp only [identity, isRecord]
  rw [identities_eq_map, List.filter_map]
  simp only [Function.comp_def, hrecord]

theorem Shape.jointlyCovered_identity (x : Shape) (ys : List Shape) :
    x.identity.jointlyCovered (identities ys) = x.jointlyCovered ys := by
  cases x with
  | number n =>
    simp only [identity, jointlyCovered, filterMap_number?_identities, NumberSet.joint_identity]
  | _ => simp only [identity, jointlyCovered]

mutual

theorem Ty.subset_identity : ∀ a b : Ty, a.identity.subset b.identity = a.subset b
  | .any, .any => by simp only [Ty.identity]
  | .any, .oneOf _ => by simp only [Ty.identity, Ty.subset, Ty.isAny]
  | .oneOf _, .any => by simp only [Ty.identity, Ty.subset]
  | .oneOf xs, .oneOf ys => by
    simp only [Ty.identity, Ty.subset]
    exact Shape.allCovered_identities xs ys

theorem Shape.subset_identity : ∀ x y : Shape, x.identity.subset y.identity = x.subset y
  | .number m, .number n => by simp only [Shape.identity, Shape.subset, NumberSet.subset_identity]
  | .text _, .text _ => by simp only [Shape.identity]
  | .record a xs, .record b ys => by
    simp only [Shape.identity, Shape.subset, Ty.fieldsSubset_identities xs ys]
  | .number _, .text _ => by simp only [Shape.identity, Shape.subset]
  | .number _, .record .. => by simp only [Shape.identity, Shape.subset]
  | .text _, .number _ => by simp only [Shape.identity, Shape.subset]
  | .text _, .record .. => by simp only [Shape.identity, Shape.subset]
  | .record .., .number _ => by simp only [Shape.identity, Shape.subset]
  | .record .., .text _ => by simp only [Shape.identity, Shape.subset]

theorem Shape.allCovered_identities : ∀ xs ys : List Shape,
    Shape.allCovered (Shape.identities xs) (Shape.identities ys) = Shape.allCovered xs ys
  | [], _ => by simp only [Shape.identities, Shape.allCovered]
  | x :: xs, ys => by
    have hany : (Shape.identities ys).any (fun y => x.identity.subset y) =
        ys.any (fun y => x.subset y) := by
      rw [Shape.identities_eq_map, List.any_map]
      exact congrArg ys.any (funext fun y => Shape.subset_identity x y)
    rw [Shape.identities, Shape.allCovered, Shape.allCovered, hany, Shape.jointlyCovered_identity,
      Shape.allCovered_identities xs ys]

theorem Ty.fieldsSubset_identities : ∀ xs ys : List (String × Ty),
    Ty.fieldsSubset (Ty.fieldIdentities xs) (Ty.fieldIdentities ys) = Ty.fieldsSubset xs ys
  | [], [] => by simp only [Ty.fieldIdentities]
  | [], (_, _) :: _ => by simp only [Ty.fieldIdentities, Ty.fieldsSubset]
  | (_, _) :: _, [] => by simp only [Ty.fieldIdentities, Ty.fieldsSubset]
  | (m, x) :: xs, (n, y) :: ys => by
    simp only [Ty.fieldIdentities, Ty.fieldsSubset, Ty.subset_identity x y,
      Ty.fieldsSubset_identities xs ys]

end

/-! ## Records -/

namespace Shape

variable {xs ys : List Shape}

theorem addRecord_identity (kept : List Shape) (item : Shape) :
    (addRecord kept item).map identity = addRecord (kept.map identity) item.identity := by
  simp only [addRecord, List.any_map, List.filter_map, Function.comp_def, subset_identity]
  split
  · rfl
  · rw [List.map_append, List.map_singleton]

theorem foldl_addRecord_identity : ∀ items kept : List Shape,
    (items.foldl addRecord kept).map identity =
      (items.map identity).foldl addRecord (kept.map identity)
  | [], _ => rfl
  | item :: items, kept => by
    rw [List.foldl_cons, foldl_addRecord_identity items, addRecord_identity, List.map_cons,
      List.foldl_cons]

theorem canonicalRecords_eq_foldl {items : List Shape} (h : 2 ≤ items.length) :
    canonicalRecords items = (distinctRecords items).foldl addRecord [] := by
  match items, h with
  | _ :: _ :: _, _ => exact canonicalRecords_eq

theorem canonicalRecords_eq_of_length_lt {items : List Shape} (h : items.length < 2) :
    canonicalRecords items = items := by
  match items, h with
  | [], _ => rfl
  | [_], _ => rfl
  | _ :: _ :: _, h => simp only [List.length_cons] at h; omega

/-- What is written alike is listed once, so each record of a union has one of its identity. -/
theorem mem_distinctRecords_identity (hxs : ∀ s ∈ xs, s.wellFormed = true) (k : Shape) :
    k ∈ (distinctRecords xs).map identity ↔ k ∈ xs.map identity := by
  have h := exists_mem_distinctRecords (p := fun s => s.identity = k)
    (fun s t hs ht he hk => (identity_of_describe hs ht he).symm.trans hk) hxs
  simpa only [List.mem_map] using h

/-- Distinct records ascend by their texts, whatever the order in which they are given. -/
theorem distinctRecords_of_perm (hxs : ∀ s ∈ xs, s.wellFormed = true)
    (hys : ∀ s ∈ ys, s.wellFormed = true) (h : (xs.map identity).Perm (ys.map identity)) :
    (distinctRecords xs).map identity = (distinctRecords ys).map identity := by
  have hasc := ascending_map_identity (ascending_distinctRecords xs)
  have hasc' := ascending_map_identity (ascending_distinctRecords ys)
  have hnodup : ∀ {l : List Shape}, l.Pairwise (fun a b => a.describe < b.describe) → l.Nodup :=
    fun hl => hl.imp fun hlt he => (he ▸ hlt).ne rfl
  have hperm : ((distinctRecords xs).map identity).Perm ((distinctRecords ys).map identity) :=
    (List.perm_ext_iff_of_nodup (hnodup hasc) (hnodup hasc')).2 fun k => by
      rw [mem_distinctRecords_identity hxs, mem_distinctRecords_identity hys, h.mem_iff]
  exact hperm.eq_of_pairwise (fun a b _ _ hab hba => absurd (hab.trans hba) (lt_irrefl _))
    hasc hasc'

theorem canonicalRecords_of_perm (hxs : ∀ s ∈ xs, s.wellFormed = true)
    (hys : ∀ s ∈ ys, s.wellFormed = true) (h : (xs.map identity).Perm (ys.map identity)) :
    (canonicalRecords xs).map identity = (canonicalRecords ys).map identity := by
  have hlength : xs.length = ys.length := by simpa using h.length_eq
  rcases Nat.lt_or_ge xs.length 2 with hshort | hlong
  · rw [canonicalRecords_eq_of_length_lt hshort,
      canonicalRecords_eq_of_length_lt (hlength ▸ hshort)]
    exact eq_of_perm_of_length_lt h (by simpa using hshort)
  · rw [canonicalRecords_eq_foldl hlong, canonicalRecords_eq_foldl (hlength ▸ hlong),
      foldl_addRecord_identity, foldl_addRecord_identity, distinctRecords_of_perm hxs hys h]

/-! ## Shapes -/

/-- The canonical form forgets the order of the shapes, and the signs of their zeros. -/
theorem identities_canonical_of_perm (hxs : ∀ s ∈ xs, s.wellFormed = true)
    (hys : ∀ s ∈ ys, s.wellFormed = true) (h : (identities xs).Perm (identities ys)) :
    identities (canonical xs) = identities (canonical ys) := by
  have hnumbers := h.filterMap number?
  have htexts := h.filterMap text?
  have hrecords := h.filter isRecord
  rw [filterMap_number?_identities, filterMap_number?_identities] at hnumbers
  rw [filterMap_text?_identities, filterMap_text?_identities] at htexts
  rw [filter_isRecord_identities, filter_isRecord_identities] at hrecords
  rw [identities_canonical, identities_canonical,
    NumberSet.canonical_of_perm (wellFormed_of_mem_numbers hxs) hnumbers,
    TextSet.canonical_eq_of_perm htexts,
    canonicalRecords_of_perm (fun s hs => hxs s (List.mem_of_mem_filter hs))
      (fun s hs => hys s (List.mem_of_mem_filter hs)) hrecords]

/-- The order of the members of a union never matters : canonical forms of permuted lists are equal,
member by member. -/
theorem canonical_perm (hxs : ∀ s ∈ xs, s.wellFormed = true) (h : xs.Perm ys) :
    identities (canonical xs) = identities (canonical ys) := by
  refine identities_canonical_of_perm hxs (fun s hs => hxs s (h.mem_iff.2 hs)) ?_
  rw [identities_eq_map, identities_eq_map]
  exact h.map identity

/-- Zeros of both signs, touching intervals, integers that are cut, texts and records one of which
covers the others, in two orders. -/
theorem canonical_perm_mixed :
    let point (t : Ty) := record "P" [("x", t)]
    let negativeZero : Binary64 := .finite true 0 ⟨rfl, Nat.zero_le _⟩
    let xs := [number (.interval .zero .half), point (.literal negativeZero), text (.literal "a"),
      number (.integers (-.one) .posInf), point .int, number (.literal negativeZero),
      number (.interval .half .one), point (.literal .zero), text (.literal "")]
    (∀ s ∈ xs, s.wellFormed = true) ∧ xs.Perm xs.reverse ∧
      identities (canonical xs) = identities (canonical xs.reverse) ∧
        (canonical xs).length = 6 := by
  intro point negativeZero xs
  have hxs : ∀ s ∈ xs, s.wellFormed = true := by decide +kernel
  have hperm : xs.Perm xs.reverse := (List.reverse_perm xs).symm
  exact ⟨hxs, hperm, canonical_perm hxs hperm, by decide +kernel⟩

end Shape

end FlowTypes
