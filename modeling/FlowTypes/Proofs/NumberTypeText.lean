import FlowTypes.Proofs.Lattice
import FlowTypes.Proofs.PhraseText
import FlowTypes.Proofs.Queries

/-!
# The text of number types reads back

A type is written as the shapes it is made of, with bars between them. Each shape that is no record
is read as a type of its own, with a zero that has no sign (`Grammar.writes_shape`), and what is read
is their union. It admits the samples of the shapes, as the type does, so for a type with steady sets
of numbers it is the same type again (`Ty.same_union_shapes`).

`Ty.exists_parse_text` says so for all types without records, and `Ty.number_text_readsBack` for those
that are built of sets of numbers with bounds of at most 52 bits.
-/

namespace FlowTypes

open NumberSet (isSteady)

/-! ## Unions of types -/

theorem Expr.evaluate_type (t : Ty) (r : Registry) (b : Bindings) :
    (type t).evaluate r b = .ok t := by
  rw [evaluate, meaning]
  rfl

/-- The union of types is what their union means. -/
theorem Expr.evaluate_union_types (ts : List Ty) (r : Registry) (b : Bindings) :
    (union (ts.map type)).evaluate r b = .ok (Ty.union ts) := by
  have hmeanings : Expr.meanings r (r.resolve []) (ts.map type) = ts.map fun t _ => pure t := by
    rw [meanings_eq_map, List.map_map]
    exact List.map_congr_left fun t _ => by rw [Function.comp_apply, meaning]
  have hall : Meaning.all (ts.map fun t _ => pure t) b = pure ts := by
    rw [Meaning.all, List.mapM_map]
    exact List.mapM_pure.trans (congrArg pure (List.map_id' ts))
  rw [evaluate, meaning]
  simp only [hmeanings, hall, pure_bind]
  rfl

theorem NumberSet.isSteady_identity (n : NumberSet) : n.identity.isSteady = n.isSteady := by
  cases n with
  | literal v => exact Binary64.within_unsignedZero _ v
  | _ => rfl

/-- Without the sign of its zero, a shape that is no record is as regular as it was. -/
theorem Shape.Regular.identity {s : Shape} (h : s.Regular isSteady) (hs : s.isAtom = true) :
    s.identity.Regular isSteady := by
  cases s with
  | number n =>
    obtain ⟨hn, hsteady⟩ := Shape.regular_number.1 h
    rw [Shape.identity, Shape.regular_number, NumberSet.wellFormed_identity,
      NumberSet.isSteady_identity]
    exact ⟨hn, hsteady⟩
  | text t =>
    rw [Shape.identity]
    exact Shape.regular_text t
  | record => cases hs

namespace Ty

section Shapes

variable {ss : List Shape} (h : (oneOf ss).Regular isSteady) (hatoms : ∀ s ∈ ss, s.isAtom = true)
include h hatoms

/-- A type without records is the union of its shapes, with or without the signs of their zeros. -/
theorem same_union_shapes :
    (union (ss.map fun s => ofShape s.identity)).same (oneOf ss) = true := by
  have hshapes : ∀ t ∈ ss.map fun s => ofShape s.identity, t.Regular isSteady :=
    List.forall_mem_map.2 fun s hs => (((regular_oneOf.1 h).2 s hs).identity (hatoms s hs)).ofShape
  refine (same_iff_admits (regular_union NumberSet.kept_isSteady hshapes) h).2 fun v => ?_
  rw [admits_union hshapes, admits_oneOf]
  simp only [List.mem_map, exists_exists_and_eq_and, ofShape, admits_oneOf, List.mem_singleton,
    exists_eq_left, Shape.admits_identity]

/-- The text of a type of several shapes is read as the union of the shapes. -/
theorem parse_text_shapes (hss : 2 ≤ ss.length) : Expr.parse (oneOf ss).text =
    .ok (.union ((ss.map fun s => ofShape s.identity).map .type)) := by
  have htext : (oneOf ss).text = joinWith " | " (Shape.texts ss) := by
    cases ss with
    | nil => cases hss
    | cons s ss => rw [text]
  refine Expr.parse_of_writes ?_
  rw [htext]
  refine Grammar.writes_union ?_ (by simpa using hss)
  rw [texts_eq_map, List.map_map, List.forall₂_map_left_iff, List.forall₂_map_right_iff,
    List.forall₂_same]
  intro s hs
  have hwrites := Grammar.writes_shape ((regular_oneOf.1 h).2 s hs).wellFormed (hatoms s hs)
  exact hwrites.mono fun ws hws => .of_primary (.type hws)

end Shapes

/-- The text of a type of at most one shape is read as the type. -/
theorem parse_text_atom {t : Ty} (ht : t.wellFormed = true) (hatom : t.isAtom = true) :
    Expr.parse t.text = .ok (.type t.identity) :=
  Expr.parse_of_writes ((Grammar.writes_atom ht hatom).mono fun _ hws =>
    .one (.one (.of_primary (.type hws))))

/-- The text of a type without records is read, and evaluated to the type. -/
theorem exists_parse_text {t : Ty} (ht : t.Regular isSteady) (hatoms : ∀ s ∈ t.shapes, s.isAtom = true) :
    ∃ e, Expr.parse t.text = .ok e ∧ ∀ r b, ∃ t', e.evaluate r b = .ok t' ∧ t'.same t = true := by
  have hone (hatom : t.isAtom = true) : ∃ e, Expr.parse t.text = .ok e ∧
      ∀ r b, ∃ t', e.evaluate r b = .ok t' ∧ t'.same t = true :=
    ⟨_, parse_text_atom ht.wellFormed hatom,
      fun r b => ⟨_, Expr.evaluate_type _ r b, decide_eq_true t.identity_identity⟩⟩
  match t with
  | .any | .oneOf [] => exact hone rfl
  | .oneOf [s] => exact hone (hatoms s (List.mem_singleton_self s))
  | .oneOf (s :: s' :: ss) =>
    have hss : 2 ≤ (s :: s' :: ss).length := Nat.le_add_left 2 ss.length
    exact ⟨_, parse_text_shapes ht hatoms hss,
      fun r b => ⟨_, Expr.evaluate_union_types _ r b, same_union_shapes ht hatoms⟩⟩

/-- The text of a type that is built of sets of numbers, with bounds and literals of at most 52
bits, is read, and evaluated to the type, whatever is defined and bound. -/
theorem number_text_readsBack {t : Ty} (ht : t.Built) (hsmall : t.isSmall = true)
    (hnumbers : ∀ s ∈ t.shapes, s.number?.isSome = true) :
    ∃ e, Expr.parse t.text = .ok e ∧ ∀ r b, ∃ t', e.evaluate r b = .ok t' ∧ t'.same t = true := by
  refine exists_parse_text (ht.steady hsmall) fun s hs => ?_
  have hnumber := hnumbers s hs
  cases s with
  | number => rfl
  | text | record => cases hnumber

/-- Bounds with signs, a range of integers, a fraction, an infinity and NaN. -/
theorem number_text_readsBack_points :
    let t := union [literal .nan, integers .zero (.ofNat 10), literal .half, literal .posInf,
      interval (Binary64.ofNat 5).neg (Binary64.ofNat 2).neg]
    t.text = "-5..-2 | int(0..10) | 0.5 | inf | NaN" ∧
      ∃ e, Expr.parse t.text = .ok e ∧
        ∀ r b, ∃ t', e.evaluate r b = .ok t' ∧ t'.same t = true := by
  intro t
  have ht : t.Built := by
    refine .union _ ?_
    simp only [List.forall_mem_cons]
    exact ⟨.literal _, .integers _ _, .literal _, .literal _, .interval _ _, nofun⟩
  exact ⟨by decide +kernel, number_text_readsBack ht (by decide +kernel) (by decide +kernel)⟩

end Ty

end FlowTypes
