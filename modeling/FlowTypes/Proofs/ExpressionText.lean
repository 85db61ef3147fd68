import FlowTypes.Expr.Text
import FlowTypes.Proofs.NestingDepth
import FlowTypes.Proofs.WrittenExpressions

/-!
# The text of an expression reads back

The text of an expression that was read is itself read, as an equal expression, up to the sign of
zeros (`Expr.text_readsBack`). Two things are asked of the expression. It nests no deeper than the
parser allows, since every level of the tree is a level of the text : operands and records whose
field is taken stand in parentheses. And its text can be read (`Expr.isReadable`) : what is quoted
has no characters whose escapes the parser does not know, and no record with fields stands where a
brace opens the arms of a selection, since parentheses that were there in the source are not
written again (`Expr.not_text_readsBack_of_scrutinee`).

What was read is made as the parser makes it (`Expr.Written`). For such expressions the induction is
on the levels that are left (`Grammar.writes_expression`).
-/

namespace FlowTypes

open Syntax (Braces)

/-! ## Equality of expressions -/

mutual

/-- The expression with every literal zero made positive. -/
def Expr.identity : Expr → Expr
  | .type t => .type t.identity
  | .named name => .named name
  | .instantiate name fields => .instantiate name (Expr.fieldIdentities fields)
  | .union items => .union (Expr.identities items)
  | .intersection items => .intersection (Expr.identities items)
  | .call function args => .call function (Expr.identities args)
  | .select scrutinee arms => .select scrutinee.identity (Expr.armIdentities arms)
  | .access record field => .access record.identity field

/-- The arm with every literal zero made positive. -/
def Arm.identity : Arm → Arm
  | .mk pattern binding result => .mk pattern.identity binding result.identity

/-- The identities of some expressions. -/
def Expr.identities : List Expr → List Expr
  | [] => []
  | e :: es => e.identity :: Expr.identities es

/-- Some fields with the identities of their expressions. -/
def Expr.fieldIdentities : List (String × Expr) → List (String × Expr)
  | [] => []
  | (name, e) :: fields => (name, e.identity) :: Expr.fieldIdentities fields

/-- The identities of some arms. -/
def Expr.armIdentities : List Arm → List Arm
  | [] => []
  | arm :: arms => arm.identity :: Expr.armIdentities arms

end

/-- Are two expressions equal, zeros of either sign being one number? -/
def Expr.same (a b : Expr) : Bool := a.identity = b.identity

mutual

/-- The zeros of an identity have no sign. -/
theorem Expr.identity_identity : ∀ e : Expr, e.identity.identity = e.identity
  | .type t => by simp only [Expr.identity, t.identity_identity]
  | .named _ => by simp only [Expr.identity]
  | .instantiate _ fields => by simp only [Expr.identity, Expr.fieldIdentities_identities fields]
  | .union items | .intersection items | .call _ items => by
    simp only [Expr.identity, Expr.identities_identities items]
  | .select scrutinee arms => by
    simp only [Expr.identity, scrutinee.identity_identity, Expr.armIdentities_identities arms]
  | .access record _ => by simp only [Expr.identity, record.identity_identity]

theorem Arm.identity_identity : ∀ arm : Arm, arm.identity.identity = arm.identity
  | .mk pattern _ result => by
    simp only [Arm.identity, pattern.identity_identity, result.identity_identity]

theorem Expr.identities_identities (es : List Expr) :
    Expr.identities (Expr.identities es) = Expr.identities es := by
  cases es with
  | nil => simp only [Expr.identities]
  | cons e es => simp only [Expr.identities, e.identity_identity, Expr.identities_identities es]

theorem Expr.fieldIdentities_identities (fields : List (String × Expr)) :
    Expr.fieldIdentities (Expr.fieldIdentities fields) = Expr.fieldIdentities fields := by
  rcases fields with _ | ⟨⟨_, e⟩, fields⟩
  · simp only [Expr.fieldIdentities]
  · simp only [Expr.fieldIdentities, e.identity_identity, Expr.fieldIdentities_identities fields]

theorem Expr.armIdentities_identities (arms : List Arm) :
    Expr.armIdentities (Expr.armIdentities arms) = Expr.armIdentities arms := by
  cases arms with
  | nil => simp only [Expr.armIdentities]
  | cons arm arms =>
    simp only [Expr.armIdentities, arm.identity_identity, Expr.armIdentities_identities arms]

end

/-! ## Expressions whose text can be read -/

mutual

/-- Can what the expression quotes be read, and does no record with fields stand where a brace
opens the arms of a selection? -/
def Expr.isReadable : Braces → Expr → Bool
  | _, .type t => t.isReadable
  | _, .named _ => true
  | .openFields, .instantiate _ fields => Expr.fieldsReadable fields
  | .openArms, .instantiate _ _ => false
  | _, .union items | _, .intersection items => Expr.allReadable .openFields items
  | braces, .call _ args => Expr.allReadable braces args
  | braces, .select scrutinee arms =>
    Expr.isReadable .openArms scrutinee && Expr.armsReadable braces arms
  | _, .access record _ => Expr.isReadable .openFields record

/-- Can the text of the arm be read? -/
def Arm.isReadable : Braces → Arm → Bool
  | braces, .mk pattern _ result =>
    Expr.isReadable braces pattern && Expr.isReadable braces result

/-- Can the texts of the expressions be read? -/
def Expr.allReadable : Braces → List Expr → Bool
  | _, [] => true
  | braces, e :: es => Expr.isReadable braces e && Expr.allReadable braces es

/-- Can the texts of the fields be read? -/
def Expr.fieldsReadable : List (String × Expr) → Bool
  | [] => true
  | (_, e) :: fields => Expr.isReadable .openFields e && Expr.fieldsReadable fields

/-- Can the texts of the arms be read? -/
def Expr.armsReadable : Braces → List Arm → Bool
  | _, [] => true
  | braces, arm :: arms => Arm.isReadable braces arm && Expr.armsReadable braces arms

end

/-! ## Lists of expressions -/

namespace Expr

theorem texts_eq_map : ∀ es : List Expr, texts es = es.map text
  | [] => rfl
  | e :: es => by rw [texts, texts_eq_map es, List.map_cons]

theorem fieldTexts_eq_map : ∀ fields : List (String × Expr),
    fieldTexts fields = fields.map fun f => f.1 ++ ": " ++ f.2.text
  | [] => rfl
  | (_, _) :: fields => by rw [fieldTexts, fieldTexts_eq_map fields, List.map_cons]

theorem armTexts_eq_map : ∀ arms : List Arm, armTexts arms = arms.map Arm.text
  | [] => rfl
  | arm :: arms => by rw [armTexts, armTexts_eq_map arms, List.map_cons]

theorem identities_eq_map : ∀ es : List Expr, identities es = es.map identity
  | [] => rfl
  | e :: es => by rw [identities, identities_eq_map es, List.map_cons]

theorem fieldIdentities_eq_map : ∀ fields : List (String × Expr),
    fieldIdentities fields = fields.map fun f => (f.1, f.2.identity)
  | [] => rfl
  | (_, _) :: fields => by rw [fieldIdentities, fieldIdentities_eq_map fields, List.map_cons]

theorem armIdentities_eq_map : ∀ arms : List Arm, armIdentities arms = arms.map Arm.identity
  | [] => rfl
  | arm :: arms => by rw [armIdentities, armIdentities_eq_map arms, List.map_cons]

theorem allReadable_iff {braces : Braces} : ∀ {es : List Expr},
    allReadable braces es = true ↔ ∀ e ∈ es, e.isReadable braces = true
  | [] => by simp [allReadable]
  | e :: es => by rw [allReadable, Bool.and_eq_true, allReadable_iff, List.forall_mem_cons]

theorem fieldsReadable_iff : ∀ {fields : List (String × Expr)},
    fieldsReadable fields = true ↔ ∀ f ∈ fields, f.2.isReadable .openFields = true
  | [] => by simp [fieldsReadable]
  | (_, _) :: fields => by
    rw [fieldsReadable, Bool.and_eq_true, fieldsReadable_iff, List.forall_mem_cons]

theorem armsReadable_iff {braces : Braces} : ∀ {arms : List Arm},
    armsReadable braces arms = true ↔ ∀ arm ∈ arms, arm.isReadable braces = true
  | [] => by simp [armsReadable]
  | arm :: arms => by rw [armsReadable, Bool.and_eq_true, armsReadable_iff, List.forall_mem_cons]

end Expr

theorem Arm.isReadable_iff {braces : Braces} : ∀ {arm : Arm}, arm.isReadable braces = true ↔
    arm.pattern.isReadable braces = true ∧ arm.result.isReadable braces = true
  | .mk _ _ _ => by rw [isReadable, Bool.and_eq_true, pattern, result]

/-! ## What is written is read -/

/-- Texts of the members of a list are the text of the list. -/
theorem Phrase.forall₂_map {α β : Type} {phrase : Phrase β} {text : α → String} {f : α → β}
    {as : List α} (h : ∀ a ∈ as, phrase.Writes (text a).toList (f a)) :
    List.Forall₂ (fun t b => phrase.Writes t.toList b) (as.map text) (as.map f) := by
  rw [List.forall₂_map_left_iff, List.forall₂_map_right_iff, List.forall₂_same]
  exact h

namespace Grammar

/-- Operands are written in parentheses. -/
theorem writes_operands {inner : Braces → Phrase Expr} {braces : Braces} {items : List Expr}
    (h : ∀ e ∈ items, (inner .openFields).Writes e.text.toList e.identity) :
    List.Forall₂ (fun t e => Phrase.Writes (Accesses inner braces) t.toList e)
      ((Expr.texts items).map fun s => "(" ++ s ++ ")") (Expr.identities items) := by
  rw [Expr.texts_eq_map, List.map_map, Expr.identities_eq_map]
  exact Phrase.forall₂_map fun e he => (writes_parenthesized (h e he)).mono fun _ => .of_primary

theorem writes_arm_text {item : Phrase Expr} : ∀ {arm : FlowTypes.Arm},
    (∀ name ∈ arm.binding, isIdentifier name = true) →
      item.Writes arm.pattern.text.toList arm.pattern.identity →
        item.Writes arm.result.text.toList arm.result.identity →
          Phrase.Writes (Arm item) arm.text.toList arm.identity
  | .mk pattern none result, hbinding, hpattern, hresult => by
    rw [FlowTypes.Arm.text, FlowTypes.Arm.identity]
    exact @writes_arm _ _ _ none _ _ hbinding hpattern hresult
  | .mk pattern (some name) result, hbinding, hpattern, hresult => by
    rw [FlowTypes.Arm.text, FlowTypes.Arm.identity]
    exact @writes_arm _ _ _ (some name) _ _ hbinding hpattern hresult

/-- The arms of a selection, which are written after a blank. -/
theorem writes_arms {item : Phrase Expr} {arms : List FlowTypes.Arm}
    (harms : ∀ arm ∈ arms, Phrase.Writes (Arm item) arm.text.toList arm.identity) :
    ∃ cs, (∀ scrutinee, (Expr.select scrutinee arms).text.toList =
        "match ".toList ++ (scrutinee.text.toList ++ ' ' :: cs)) ∧
      Phrase.Writes (Enclosed .braceOpen .braceClose (Listed (Arm item))) (' ' :: cs)
        (Expr.armIdentities arms) := by
  cases arms with
  | nil =>
    refine ⟨['{', ' ', '}'], fun scrutinee => ?_, Phrase.writes_empty⟩
    rw [Expr.text]
    simp
  | cons arm arms =>
    have hbraced := (Phrase.writes_listed (Phrase.forall₂_map harms)).braced
    rw [← Expr.armTexts_eq_map, ← Expr.armIdentities_eq_map] at hbraced
    have htext : ∀ inside : String,
        (braced inside).toList = ' ' :: '{' :: ' ' :: (inside.toList ++ [' ', '}']) := fun inside => by
      simp [braced]
    rw [htext] at hbraced
    refine ⟨_, fun scrutinee => ?_, hbraced⟩
    rw [Expr.text, String.toList_append, htext, String.toList_append, List.append_assoc]

/-- The text of an expression is read as the expression, a zero without its sign. -/
theorem writes_expression : ∀ (depth : ℕ) (braces : Braces) (e : Expr),
    e.Written (isIdentifier · = true) → e.isReadable braces = true → e.height ≤ depth →
      Phrase.Writes (Expression depth braces) e.text.toList e.identity
  | 0, _, e, _, _, hheight => absurd hheight e.height_pos.not_ge
  | depth + 1, braces, e, hwritten, hreadable, hheight => by
    have hparts := Expr.height_le_iff.1 hheight
    have ih := writes_expression depth
    have hprimary : ∀ {cs e}, Phrase.Writes (Primary (Expression depth) braces) cs e →
        Phrase.Writes (Expression (depth + 1) braces) cs e :=
      fun h => h.mono fun _ hws => .one (.one (.of_primary hws))
    cases hwritten with
    | type ht hatom =>
      rw [Expr.text, Expr.identity]
      exact hprimary ((writes_atom ht.regular.wellFormed (hatom hreadable)).mono fun _ => .type)
    | named hname =>
      rw [Expr.text, Expr.identity]
      exact hprimary ((writes_name hname).mono fun _ => .named)
    | @instantiate name fields hname hnames hfields =>
      cases braces with
      | openArms => cases hreadable
      | openFields =>
        rw [Expr.isReadable, Expr.fieldsReadable_iff] at hreadable
        rw [Expr.text, Expr.identity, Expr.fieldTexts_eq_map, Expr.fieldIdentities_eq_map]
        exact hprimary (writes_instantiate hname (Phrase.forall₂_map fun f hf =>
          writes_field (hnames f hf) (ih .openFields f.2 (hfields f hf) (hreadable f hf)
            (hparts _ (List.mem_map_of_mem hf)))))
    | union htwo hitems =>
      rw [Expr.isReadable, Expr.allReadable_iff] at hreadable
      rw [Expr.text, Expr.identity]
      exact writes_union (writes_operands fun e he =>
        ih .openFields e (hitems e he) (hreadable e he) (hparts e he))
        (by rwa [Expr.identities_eq_map, List.length_map])
    | intersection htwo hitems =>
      rw [Expr.isReadable, Expr.allReadable_iff] at hreadable
      rw [Expr.text, Expr.identity]
      exact writes_intersection (writes_operands fun e he =>
        ih .openFields e (hitems e he) (hreadable e he) (hparts e he))
        (by rwa [Expr.identities_eq_map, List.length_map])
    | call hname hargs =>
      rw [Expr.isReadable, Expr.allReadable_iff] at hreadable
      rw [Expr.text, Expr.identity, Expr.texts_eq_map, Expr.identities_eq_map]
      exact hprimary (writes_call hname (Phrase.forall₂_map fun e he =>
        ih braces e (hargs e he) (hreadable e he) (hparts e he)))
    | @select scrutinee arms hscrutinee hpatterns hbindings hresults =>
      rw [Expr.isReadable, Bool.and_eq_true, Expr.armsReadable_iff] at hreadable
      have hscrutinee := ih .openArms scrutinee hscrutinee hreadable.1
        (hparts _ List.mem_cons_self)
      obtain ⟨cs, htext, hwrites⟩ := @writes_arms (Expression depth braces) arms fun arm harm => by
        have hmem : ∀ p ∈ [arm.pattern, arm.result], p ∈ (Expr.select scrutinee arms).parts :=
          fun p hp => List.mem_cons_of_mem _ (List.mem_flatMap.2 ⟨arm, harm, hp⟩)
        have hinside := Arm.isReadable_iff.1 (hreadable.2 arm harm)
        exact writes_arm_text (hbindings arm harm)
          (ih braces _ (hpatterns arm harm) hinside.1 (hparts _ (hmem _ (by simp))))
          (ih braces _ (hresults arm harm) hinside.2 (hparts _ (hmem _ (by simp))))
      rw [htext, Expr.identity]
      exact hprimary (writes_select hscrutinee hwrites)
    | @access record field hrecord hname =>
      rw [Expr.isReadable] at hreadable
      have htext : (Expr.access record field).text.toList =
          ("(" ++ record.text ++ ")").toList ++ dotted [field] := by
        rw [Expr.text]
        simp [dotted]
      have hrecord := ih .openFields record hrecord hreadable (hparts _ (List.mem_singleton_self _))
      rw [htext, Expr.identity]
      exact (writes_accesses (writes_parenthesized hrecord)
        (List.forall_mem_singleton.2 hname)).mono fun _ hws => .one (.one hws)

end Grammar

/-- The text of an expression that was read is read as an equal one, if its text can be read and it
is no deeper than the parser allows. -/
theorem Expr.text_readsBack {source : String} {e : Expr} (h : Expr.parse source = .ok e)
    (hreadable : e.isReadable .openFields = true) (hheight : e.height ≤ Syntax.maxDepth) :
    ∃ e', Expr.parse e.text = .ok e' ∧ e'.same e = true :=
  ⟨_, Expr.parse_of_writes (Grammar.writes_expression _ _ e (written_of_parse h) hreadable hheight),
    decide_eq_true e.identity_identity⟩

/-- A selection from a field of a record, with operators, a zero with a sign and an escape. -/
theorem Expr.text_readsBack_select :
    let source := "match (P \x7b x: -0 \x7d).x \x7b int(0..5) as n => add(n, 1) | Q \x7b\x7d, " ++
      "_ => \"a\\n\" & string \x7d"
    let e : Expr := .select (.access (.instantiate "P" [("x", .type (.literal Binary64.zero.neg))]) "x")
      [.mk (.type (.integers .zero (.ofNat 5))) (some "n")
          (.union [.call "add" [.named "n", .type (.literal .one)], .instantiate "Q" []]),
        .mk (.type .any) none (.intersection [.type (.textLiteral "a\n"), .type .string])]
    Expr.parse source = .ok e ∧
      e.text = "match (P \x7b x: 0 \x7d).x \x7b int(0..5) as n => (add(n, 1)) | (Q \x7b  \x7d), " ++
        "any => (\"a\\n\") & (string) \x7d" ∧
      ∃ e', Expr.parse e.text = .ok e' ∧ e'.same e = true := by
  intro source e
  have hparse : Expr.parse source = .ok e := by decide +kernel
  exact ⟨hparse, by decide +kernel,
    text_readsBack hparse (by decide +kernel) (by decide +kernel)⟩

/-- A record with fields can be selected from if it stands in parentheses. Its text has none. -/
theorem Expr.not_text_readsBack_of_scrutinee : ¬∀ source e, Expr.parse source = .ok e →
    ∃ e', Expr.parse e.text = .ok e' ∧ e'.same e = true := by
  intro h
  let e : Expr := .select (.instantiate "P" [("x", .type (.literal .one))])
    [.mk (.named "P") none (.type (.literal .one))]
  have hparse : Expr.parse "match (P \x7b x: 1 \x7d) \x7b P => 1 \x7d" = .ok e := by decide +kernel
  have hrefused : (Expr.parse e.text).toOption = none := by decide +kernel
  obtain ⟨e', hread, -⟩ := h _ _ hparse
  rw [hread] at hrefused
  cases hrefused

end FlowTypes
