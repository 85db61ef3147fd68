import FlowTypes.Proofs.NumberMembership
import FlowTypes.Token.Lexer
import FlowTypes.Ty.Basic

/-!
# The values of a type

A value is a double, a text or a record of named values. `Ty.has` is membership : numbers by
`NumberSet.has`, texts by `TextSet.has`, and records field by field, with the same names in the
same order. A union has the values of its shapes (`has_oneOf`).

`Ty.wellFormed` asks of a type what its constructors promise : well-formed sets of numbers, and
names that are read as one name. `Ty.noNeverField` says that no record in the type has a field
that is `never`. Such a type is `never` or has a value (`exists_has`).
-/

namespace FlowTypes

/-! ## Values -/

/-- What types are types of. -/
inductive Value
  | number (value : Binary64)
  | text (value : String)
  | record (name : String) (fields : List (String × Value))

/-! ## Membership -/

mutual

/-- Is the value one of the type? -/
def Ty.has : Ty → Value → Bool
  | .any, _ => true
  | .oneOf ss, v => Shape.anyHas ss v

/-- Is the value one of the shape? -/
def Shape.has : Shape → Value → Bool
  | .number n, .number x => n.has x
  | .text t, .text s => t.has s
  | .record a fields, .record b values => a = b && Ty.fieldsHave fields values
  | _, _ => false

/-- Is the value one of any of the shapes? -/
def Shape.anyHas : List Shape → Value → Bool
  | [], _ => false
  | s :: ss, v => s.has v || Shape.anyHas ss v

/-- Are these values of the fields, name by name and in the same order? -/
def Ty.fieldsHave : List (String × Ty) → List (String × Value) → Bool
  | [], [] => true
  | (m, t) :: fields, (n, v) :: values => m = n && t.has v && Ty.fieldsHave fields values
  | _, _ => false

end

theorem Shape.anyHas_iff {v : Value} :
    ∀ {ss : List Shape}, Shape.anyHas ss v = true ↔ ∃ s ∈ ss, s.has v = true
  | [] => by simp [Shape.anyHas]
  | s :: ss => by simp [Shape.anyHas, @anyHas_iff v ss]

theorem Ty.has_any (v : Value) : Ty.any.has v = true := by
  simp only [Ty.has]

/-- A union has the values of its shapes. -/
theorem Ty.has_oneOf {ss : List Shape} {v : Value} :
    (Ty.oneOf ss).has v = true ↔ ∃ s ∈ ss, s.has v = true := by
  rw [Ty.has, Shape.anyHas_iff]

theorem Ty.has_never (v : Value) : Ty.never.has v = false := by
  simp only [Ty.never, Ty.has, Shape.anyHas]

theorem Ty.fieldsHave_cons {name : String} {t : Ty} {fields : List (String × Ty)}
    {values : List (String × Value)} :
    Ty.fieldsHave ((name, t) :: fields) values = true ↔
      ∃ v rest, values = (name, v) :: rest ∧ t.has v = true ∧ Ty.fieldsHave fields rest = true := by
  cases values with
  | nil => simp [Ty.fieldsHave]
  | cons value rest =>
    obtain ⟨n, v⟩ := value
    simp only [Ty.fieldsHave, Bool.and_eq_true, decide_eq_true_eq, List.cons.injEq, Prod.mk.injEq]
    constructor
    · rintro ⟨⟨rfl, hv⟩, hrest⟩
      exact ⟨v, rest, ⟨⟨rfl, rfl⟩, rfl⟩, hv, hrest⟩
    · rintro ⟨_, _, ⟨⟨rfl, rfl⟩, rfl⟩, hv, hrest⟩
      exact ⟨⟨rfl, hv⟩, hrest⟩

/-- A shape of numbers has numbers only. -/
theorem Shape.has_number {n : NumberSet} {v : Value} :
    (Shape.number n).has v = true ↔ ∃ x, v = .number x ∧ n.has x = true := by
  cases v <;> simp [Shape.has]

theorem Shape.has_text {t : TextSet} {v : Value} :
    (Shape.text t).has v = true ↔ ∃ s, v = .text s ∧ t.has s = true := by
  cases v <;> simp [Shape.has]

theorem Shape.has_record {name : String} {fields : List (String × Ty)} {v : Value} :
    (Shape.record name fields).has v = true ↔
      ∃ values, v = .record name values ∧ Ty.fieldsHave fields values = true := by
  cases v with
  | record name' values =>
    simp only [Shape.has, Bool.and_eq_true, decide_eq_true_eq, Value.record.injEq]
    constructor
    · rintro ⟨rfl, h⟩
      exact ⟨values, ⟨rfl, rfl⟩, h⟩
    · rintro ⟨_, ⟨rfl, rfl⟩, h⟩
      exact ⟨rfl, h⟩
  | _ => simp [Shape.has]

/-! ## Identities -/

/-- The sign of a literal zero is not seen by membership. -/
theorem NumberSet.has_identity (n : NumberSet) (x : Binary64) : n.identity.has x = n.has x := by
  cases n with
  | literal v => simp only [NumberSet.identity, NumberSet.has, Binary64.same,
      Binary64.unsignedZero_unsignedZero]
  | _ => rfl

mutual

/-- The zeros of an identity have no sign. -/
theorem Ty.identity_identity : ∀ t : Ty, t.identity.identity = t.identity
  | .any => by simp only [Ty.identity]
  | .oneOf ss => by simp only [Ty.identity, Shape.identities_identities ss]

theorem Shape.identity_identity : ∀ s : Shape, s.identity.identity = s.identity
  | .number n => by simp only [Shape.identity, n.identity_identity]
  | .text _ => by simp only [Shape.identity]
  | .record name fields => by simp only [Shape.identity, Ty.fieldIdentities_identities fields]

theorem Shape.identities_identities (ss : List Shape) :
    Shape.identities (Shape.identities ss) = Shape.identities ss := by
  cases ss with
  | nil => simp only [Shape.identities]
  | cons s ss =>
    simp only [Shape.identities, Shape.identity_identity s, Shape.identities_identities ss]

theorem Ty.fieldIdentities_identities (fields : List (String × Ty)) :
    Ty.fieldIdentities (Ty.fieldIdentities fields) = Ty.fieldIdentities fields := by
  rcases fields with _ | ⟨⟨name, t⟩, fields⟩
  · simp only [Ty.fieldIdentities]
  · simp only [Ty.fieldIdentities, Ty.identity_identity t, Ty.fieldIdentities_identities fields]

end

/-! ## Well-formed types -/

/-- Is the text read as a single name? Keywords are not. -/
def isIdentifier (name : String) : Bool := Token.lex name = [⟨.ident, 0, name.toList⟩]

mutual

/-- Are all sets of numbers well-formed, and all names identifiers? -/
def Ty.wellFormed : Ty → Bool
  | .any => true
  | .oneOf ss => Shape.allWellFormed ss

/-- Is the set of numbers well-formed, or are the names and the fields? -/
def Shape.wellFormed : Shape → Bool
  | .number n => n.wellFormed
  | .text _ => true
  | .record name fields => isIdentifier name && Ty.fieldsWellFormed fields

/-- Are the shapes well-formed? -/
def Shape.allWellFormed : List Shape → Bool
  | [] => true
  | s :: ss => s.wellFormed && Shape.allWellFormed ss

/-- Are the fields well-formed? -/
def Ty.fieldsWellFormed : List (String × Ty) → Bool
  | [] => true
  | (name, t) :: fields => isIdentifier name && t.wellFormed && Ty.fieldsWellFormed fields

end

theorem Shape.allWellFormed_iff :
    ∀ {ss : List Shape}, Shape.allWellFormed ss = true ↔ ∀ s ∈ ss, s.wellFormed = true
  | [] => by simp [Shape.allWellFormed]
  | s :: ss => by simp [Shape.allWellFormed, @allWellFormed_iff ss]

theorem Ty.wellFormed_oneOf {ss : List Shape} :
    (Ty.oneOf ss).wellFormed = true ↔ ∀ s ∈ ss, s.wellFormed = true := by
  rw [Ty.wellFormed, Shape.allWellFormed_iff]

theorem Ty.fieldsWellFormed_cons {name : String} {t : Ty} {fields : List (String × Ty)} :
    Ty.fieldsWellFormed ((name, t) :: fields) = true ↔
      isIdentifier name = true ∧ t.wellFormed = true ∧ Ty.fieldsWellFormed fields = true := by
  simp only [Ty.fieldsWellFormed, Bool.and_eq_true, and_assoc]

theorem Ty.fieldsWellFormed_iff : ∀ {fields : List (String × Ty)},
    Ty.fieldsWellFormed fields = true ↔
      ∀ f ∈ fields, isIdentifier f.1 = true ∧ f.2.wellFormed = true
  | [] => by simp [Ty.fieldsWellFormed]
  | (_, _) :: fields => by
    rw [fieldsWellFormed_cons, @fieldsWellFormed_iff fields, List.forall_mem_cons, and_assoc]

theorem Shape.wellFormed_record {name : String} {fields : List (String × Ty)} :
    (Shape.record name fields).wellFormed = true ↔
      isIdentifier name = true ∧ Ty.fieldsWellFormed fields = true := by
  simp only [Shape.wellFormed, Bool.and_eq_true]

/-! ## Types without empty fields -/

mutual

/-- Has no record in the type a field that is `never`? -/
def Ty.noNeverField : Ty → Bool
  | .any => true
  | .oneOf ss => Shape.allNoNeverField ss

/-- Has no record in the shape a field that is `never`? -/
def Shape.noNeverField : Shape → Bool
  | .number _ | .text _ => true
  | .record _ fields => Ty.fieldsNoNever fields

/-- Has no record in the shapes a field that is `never`? -/
def Shape.allNoNeverField : List Shape → Bool
  | [] => true
  | s :: ss => s.noNeverField && Shape.allNoNeverField ss

/-- Is no field `never`, and no field of a record in these? -/
def Ty.fieldsNoNever : List (String × Ty) → Bool
  | [] => true
  | (_, t) :: fields => !t.isNever && t.noNeverField && Ty.fieldsNoNever fields

end

theorem Shape.allNoNeverField_iff :
    ∀ {ss : List Shape}, Shape.allNoNeverField ss = true ↔ ∀ s ∈ ss, s.noNeverField = true
  | [] => by simp [Shape.allNoNeverField]
  | s :: ss => by simp [Shape.allNoNeverField, @allNoNeverField_iff ss]

theorem Ty.noNeverField_oneOf {ss : List Shape} :
    (Ty.oneOf ss).noNeverField = true ↔ ∀ s ∈ ss, s.noNeverField = true := by
  rw [Ty.noNeverField, Shape.allNoNeverField_iff]

theorem Ty.fieldsNoNever_cons {name : String} {t : Ty} {fields : List (String × Ty)} :
    Ty.fieldsNoNever ((name, t) :: fields) = true ↔
      t.isNever = false ∧ t.noNeverField = true ∧ Ty.fieldsNoNever fields = true := by
  simp only [Ty.fieldsNoNever, Bool.and_eq_true, Bool.not_eq_true', and_assoc]

theorem Ty.fieldsNoNever_iff : ∀ {fields : List (String × Ty)},
    Ty.fieldsNoNever fields = true ↔
      ∀ f ∈ fields, f.2.isNever = false ∧ f.2.noNeverField = true
  | [] => by simp [Ty.fieldsNoNever]
  | (_, _) :: fields => by
    rw [fieldsNoNever_cons, @fieldsNoNever_iff fields, List.forall_mem_cons, and_assoc]

/-- Well-formed sets of numbers are not empty. -/
theorem NumberSet.exists_has {n : NumberSet} (hn : n.wellFormed = true) : ∃ x, n.has x = true := by
  cases n with
  | all => exact ⟨.zero, rfl⟩
  | literal v => exact ⟨v, by simp [NumberSet.has]⟩
  | interval lo hi =>
    obtain ⟨hlo, hhi, hlt⟩ := lt_of_wellFormed_interval hn
    exact ⟨lo, (has_iff_denotes hn lo).2
      ⟨lo.value, Binary64.exact_eq_some.2 ⟨hlo, rfl⟩, le_refl _, hlt.le⟩⟩
  | integers lo hi =>
    obtain ⟨hlo, hhi, hlt⟩ := whole_of_wellFormed_integers hn
    have hwhole : Range.Whole ⟨lo, hi⟩ := ⟨hlo, hhi, hlt.le, hlt.ne_top, hlt.ne_bot⟩
    obtain ⟨x, hx, h1, h2⟩ := hwhole.exists_integer
    obtain ⟨hf, z, hz⟩ := Binary64.isInteger_iff_value.1 hx
    exact ⟨x, (has_iff_denotes hn x).2 ⟨z, Binary64.exact_eq_some.2
      ⟨Binary64.isNaN_of_isFinite hf, hz⟩, hz ▸ h1, hz ▸ h2⟩⟩

mutual

/-- A type that is not `never`, and has no field that is, has a value. -/
theorem Ty.exists_has : ∀ (t : Ty), t.wellFormed = true → t.noNeverField = true →
    t.isNever = false → ∃ v, t.has v = true
  | .any, _, _, _ => ⟨.text "", rfl⟩
  | .oneOf [], _, _, h => by simp [Ty.isNever] at h
  | .oneOf (s :: ss), hw, hf, _ => by
    simp only [Ty.wellFormed, Ty.noNeverField, Shape.allWellFormed, Shape.allNoNeverField,
      Bool.and_eq_true] at hw hf
    obtain ⟨v, hv⟩ := Shape.exists_has s hw.1 hf.1
    exact ⟨v, by simp only [Ty.has, Shape.anyHas, hv, Bool.true_or]⟩

theorem Shape.exists_has : ∀ (s : Shape), s.wellFormed = true → s.noNeverField = true →
    ∃ v, s.has v = true
  | .number n, hw, _ => by
    obtain ⟨x, hx⟩ := NumberSet.exists_has (n := n) (by simpa only [Shape.wellFormed] using hw)
    exact ⟨.number x, by simpa only [Shape.has] using hx⟩
  | .text .all, _, _ => ⟨.text "", by simp [Shape.has, TextSet.has]⟩
  | .text (.literal s), _, _ => ⟨.text s, by simp [Shape.has, TextSet.has]⟩
  | .record name fields, hw, hf => by
    rw [Shape.wellFormed_record] at hw
    obtain ⟨values, hv⟩ := Ty.exists_fieldsHave fields hw.2 (by simpa only [Shape.noNeverField] using hf)
    exact ⟨.record name values, Shape.has_record.2 ⟨values, rfl, hv⟩⟩

theorem Ty.exists_fieldsHave : ∀ (fields : List (String × Ty)),
    Ty.fieldsWellFormed fields = true → Ty.fieldsNoNever fields = true →
      ∃ values, Ty.fieldsHave fields values = true
  | [], _, _ => ⟨[], rfl⟩
  | (name, t) :: fields, hw, hf => by
    obtain ⟨-, htw, hw⟩ := Ty.fieldsWellFormed_cons.1 hw
    obtain ⟨hne, htf, hf⟩ := Ty.fieldsNoNever_cons.1 hf
    obtain ⟨v, hv⟩ := Ty.exists_has t htw htf hne
    obtain ⟨rest, hrest⟩ := Ty.exists_fieldsHave fields hw hf
    exact ⟨(name, v) :: rest, Ty.fieldsHave_cons.2 ⟨v, rest, rfl, hv, hrest⟩⟩

end

end FlowTypes
