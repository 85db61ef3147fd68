import FlowTypes.NumberSet.Canonical
import FlowTypes.TextSet

/-!
# Types

A type is `any`, or one of a list of shapes: sets of numbers, sets of texts, and records with
named fields. No shape at all is `never`. Lists that stand in types built by the operations of
this library are in canonical form, which is why two types are equal when they are written alike.

Two equalities are in use. `=` tells the two zeros apart. `Ty.same` does not: it compares the
types' identities, in which every literal zero is positive.
-/

namespace FlowTypes

mutual

/-- A type: anything at all, or one of some shapes. -/
inductive Ty
  | any
  | oneOf (shapes : List Shape)

/-- One alternative of a type. -/
inductive Shape
  | number (set : NumberSet)
  | text (set : TextSet)
  | record (name : String) (fields : List (String × Ty))

end

namespace Shape

/-- The set of numbers of a shape that is one. -/
def number? : Shape → Option NumberSet
  | number n => some n
  | _ => none

/-- The set of texts of a shape that is one. -/
def text? : Shape → Option TextSet
  | text t => some t
  | _ => none

/-- Is this a record? -/
def isRecord : Shape → Bool
  | record .. => true
  | _ => false

end Shape

namespace Ty

/-- The empty type. -/
def never : Ty := oneOf []

/-- The type of one shape. -/
def ofShape (s : Shape) : Ty := oneOf [s]

/-- All numbers. -/
def number : Ty := ofShape (.number .all)

/-- All texts. -/
def string : Ty := ofShape (.text .all)

/-- All integers. -/
def int : Ty := ofShape (.number .everyInteger)

/-- One number. -/
def literal (v : Binary64) : Ty := ofShape (.number (.literal v))

/-- One text. -/
def textLiteral (s : String) : Ty := ofShape (.text (.literal s))

/-- A union of sets of numbers, already in canonical form. -/
def ofNumbers (ns : List NumberSet) : Ty := oneOf (ns.map .number)

/-- A union of sets of texts, already in canonical form. -/
def ofTexts (ts : List TextSet) : Ty := oneOf (ts.map .text)

/-- The numbers between two bounds. -/
def interval (lo hi : Binary64) : Ty := ofNumbers (NumberSet.interval? lo hi).toList

/-- The integers between two bounds. -/
def integers (lo hi : Binary64) : Ty := ofNumbers (NumberSet.integers? lo hi).toList

instance : Inhabited Ty := ⟨never⟩

/-- Has the type no shape at all? -/
def isNever : Ty → Bool
  | oneOf [] => true
  | _ => false

/-- Is the type `any`? -/
def isAny : Ty → Bool
  | any => true
  | oneOf _ => false

/-- The shapes of a type. `any` has none. -/
def shapes : Ty → List Shape
  | any => []
  | oneOf ss => ss

/-- A record of the given fields. One field that is `never` leaves no record at all. -/
def record (name : String) (fields : List (String × Ty)) : Ty :=
  if fields.any (·.2.isNever) then never else ofShape (.record name fields)

/-- The coarse kind of a type. -/
inductive Kind
  | never
  | any
  | number
  | text
  | record
  | union
  deriving DecidableEq

/-- The coarse kind of a type. -/
def kind : Ty → Kind
  | any => .any
  | oneOf [] => .never
  | oneOf [.number _] => .number
  | oneOf [.text _] => .text
  | oneOf [.record ..] => .record
  | oneOf _ => .union

end Ty

/-! ## Equality -/

mutual

/-- Decides equality of types. -/
def Ty.decEq : (a b : Ty) → Decidable (a = b)
  | .any, .any => isTrue rfl
  | .any, .oneOf _ => isFalse nofun
  | .oneOf _, .any => isFalse nofun
  | .oneOf xs, .oneOf ys =>
    match Shape.decEqList xs ys with
    | isTrue h => isTrue (h ▸ rfl)
    | isFalse h => isFalse fun e => h (Ty.oneOf.inj e)

/-- Decides equality of shapes. -/
def Shape.decEq : (a b : Shape) → Decidable (a = b)
  | .number m, .number n =>
    if h : m = n then isTrue (h ▸ rfl) else isFalse fun e => h (Shape.number.inj e)
  | .text s, .text t =>
    if h : s = t then isTrue (h ▸ rfl) else isFalse fun e => h (Shape.text.inj e)
  | .record a xs, .record b ys =>
    if h : a = b then
      match Ty.decEqFields xs ys with
      | isTrue h' => isTrue (h ▸ h' ▸ rfl)
      | isFalse h' => isFalse fun e => h' (Shape.record.inj e).2
    else isFalse fun e => h (Shape.record.inj e).1
  | .number _, .text _ => isFalse nofun
  | .number _, .record .. => isFalse nofun
  | .text _, .number _ => isFalse nofun
  | .text _, .record .. => isFalse nofun
  | .record .., .number _ => isFalse nofun
  | .record .., .text _ => isFalse nofun

/-- Decides equality of lists of shapes. -/
def Shape.decEqList : (xs ys : List Shape) → Decidable (xs = ys)
  | [], [] => isTrue rfl
  | [], _ :: _ => isFalse nofun
  | _ :: _, [] => isFalse nofun
  | x :: xs, y :: ys =>
    match Shape.decEq x y, Shape.decEqList xs ys with
    | isTrue h, isTrue h' => isTrue (h ▸ h' ▸ rfl)
    | isFalse h, _ => isFalse fun e => h (List.cons.inj e).1
    | _, isFalse h => isFalse fun e => h (List.cons.inj e).2

/-- Decides equality of lists of fields. -/
def Ty.decEqFields : (xs ys : List (String × Ty)) → Decidable (xs = ys)
  | [], [] => isTrue rfl
  | [], _ :: _ => isFalse nofun
  | _ :: _, [] => isFalse nofun
  | (m, x) :: xs, (n, y) :: ys =>
    if hn : m = n then
      match Ty.decEq x y, Ty.decEqFields xs ys with
      | isTrue h, isTrue h' => isTrue (hn ▸ h ▸ h' ▸ rfl)
      | isFalse h, _ => isFalse fun e => h (Prod.mk.inj (List.cons.inj e).1).2
      | _, isFalse h => isFalse fun e => h (List.cons.inj e).2
    else isFalse fun e => hn (Prod.mk.inj (List.cons.inj e).1).1

end

instance : DecidableEq Ty := Ty.decEq
instance : DecidableEq Shape := Shape.decEq

mutual

/-- The type with every literal zero made positive, at any depth. -/
def Ty.identity : Ty → Ty
  | .any => .any
  | .oneOf ss => .oneOf (Shape.identities ss)

/-- The shape with every literal zero made positive, at any depth. -/
def Shape.identity : Shape → Shape
  | .number n => .number n.identity
  | .text t => .text t
  | .record name fields => .record name (Ty.fieldIdentities fields)

/-- The identities of some shapes. -/
def Shape.identities : List Shape → List Shape
  | [] => []
  | s :: ss => s.identity :: Shape.identities ss

/-- Some fields with the identities of their types. -/
def Ty.fieldIdentities : List (String × Ty) → List (String × Ty)
  | [] => []
  | (name, t) :: fields => (name, t.identity) :: Ty.fieldIdentities fields

end

/-- Are two types equal, zeros of either sign being one number? -/
def Ty.same (a b : Ty) : Bool := a.identity = b.identity

end FlowTypes
