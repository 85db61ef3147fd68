import FlowTypes.Ty.Text

/-!
# Type expressions

An expression is a type that is still to be computed: concrete types, references to names, record
instances that narrow the fields of a declared struct, unions and intersections, calls of
functions, selections that treat each shape of a type by the first arm that covers it, and field
accesses. Equality of expressions is equality of their trees; it tells the two zeros apart, and a
bare name from an instance without fields.
-/

namespace FlowTypes

mutual

/-- A type expression. -/
inductive Expr
  | type (t : Ty)
  | named (name : String)
  | instantiate (name : String) (fields : List (String × Expr))
  | union (items : List Expr)
  | intersection (items : List Expr)
  | call (function : String) (args : List Expr)
  | select (scrutinee : Expr) (arms : List Arm)
  | access (record : Expr) (field : String)

/-- An arm of a selection: a pattern, a name for what it covers or none, and a result. -/
inductive Arm
  | mk (pattern : Expr) (binding : Option String) (result : Expr)

end

namespace Arm

/-- What the arm covers. -/
def pattern : Arm → Expr
  | mk p _ _ => p

/-- The name under which the result sees what was covered. -/
def binding : Arm → Option String
  | mk _ b _ => b

/-- What the arm gives. -/
def result : Arm → Expr
  | mk _ _ r => r

end Arm

instance : Inhabited Expr := ⟨.union []⟩

/-! ## Equality -/

mutual

/-- Decides equality of expressions. -/
def Expr.decEq : (a b : Expr) → Decidable (a = b)
  | .type s, .type t =>
    if h : s = t then isTrue (h ▸ rfl) else isFalse fun e => h (Expr.type.inj e)
  | .named m, .named n =>
    if h : m = n then isTrue (h ▸ rfl) else isFalse fun e => h (Expr.named.inj e)
  | .instantiate m xs, .instantiate n ys =>
    if h : m = n then
      match Expr.decEqFields xs ys with
      | isTrue h' => isTrue (h ▸ h' ▸ rfl)
      | isFalse h' => isFalse fun e => h' (Expr.instantiate.inj e).2
    else isFalse fun e => h (Expr.instantiate.inj e).1
  | .union xs, .union ys =>
    match Expr.decEqList xs ys with
    | isTrue h => isTrue (h ▸ rfl)
    | isFalse h => isFalse fun e => h (Expr.union.inj e)
  | .intersection xs, .intersection ys =>
    match Expr.decEqList xs ys with
    | isTrue h => isTrue (h ▸ rfl)
    | isFalse h => isFalse fun e => h (Expr.intersection.inj e)
  | .call m xs, .call n ys =>
    if h : m = n then
      match Expr.decEqList xs ys with
      | isTrue h' => isTrue (h ▸ h' ▸ rfl)
      | isFalse h' => isFalse fun e => h' (Expr.call.inj e).2
    else isFalse fun e => h (Expr.call.inj e).1
  | .select x xs, .select y ys =>
    match Expr.decEq x y, Expr.decEqArms xs ys with
    | isTrue h, isTrue h' => isTrue (h ▸ h' ▸ rfl)
    | isFalse h, _ => isFalse fun e => h (Expr.select.inj e).1
    | _, isFalse h => isFalse fun e => h (Expr.select.inj e).2
  | .access x m, .access y n =>
    if h : m = n then
      match Expr.decEq x y with
      | isTrue h' => isTrue (h ▸ h' ▸ rfl)
      | isFalse h' => isFalse fun e => h' (Expr.access.inj e).1
    else isFalse fun e => h (Expr.access.inj e).2
  | .type _, .named _ | .type _, .instantiate .. | .type _, .union _ | .type _, .intersection _
  | .type _, .call .. | .type _, .select .. | .type _, .access .. => isFalse nofun
  | .named _, .type _ | .named _, .instantiate .. | .named _, .union _ | .named _, .intersection _
  | .named _, .call .. | .named _, .select .. | .named _, .access .. => isFalse nofun
  | .instantiate .., .type _ | .instantiate .., .named _ | .instantiate .., .union _
  | .instantiate .., .intersection _ | .instantiate .., .call .. | .instantiate .., .select ..
  | .instantiate .., .access .. => isFalse nofun
  | .union _, .type _ | .union _, .named _ | .union _, .instantiate .. | .union _, .intersection _
  | .union _, .call .. | .union _, .select .. | .union _, .access .. => isFalse nofun
  | .intersection _, .type _ | .intersection _, .named _ | .intersection _, .instantiate ..
  | .intersection _, .union _ | .intersection _, .call .. | .intersection _, .select ..
  | .intersection _, .access .. => isFalse nofun
  | .call .., .type _ | .call .., .named _ | .call .., .instantiate .. | .call .., .union _
  | .call .., .intersection _ | .call .., .select .. | .call .., .access .. => isFalse nofun
  | .select .., .type _ | .select .., .named _ | .select .., .instantiate .. | .select .., .union _
  | .select .., .intersection _ | .select .., .call .. | .select .., .access .. => isFalse nofun
  | .access .., .type _ | .access .., .named _ | .access .., .instantiate .. | .access .., .union _
  | .access .., .intersection _ | .access .., .call .. | .access .., .select .. => isFalse nofun

/-- Decides equality of arms. -/
def Arm.decEq : (a b : Arm) → Decidable (a = b)
  | .mk p b r, .mk p' b' r' =>
    if hb : b = b' then
      match Expr.decEq p p', Expr.decEq r r' with
      | isTrue h, isTrue h' => isTrue (hb ▸ h ▸ h' ▸ rfl)
      | isFalse h, _ => isFalse fun e => h (Arm.mk.inj e).1
      | _, isFalse h => isFalse fun e => h (Arm.mk.inj e).2.2
    else isFalse fun e => hb (Arm.mk.inj e).2.1

/-- Decides equality of lists of expressions. -/
def Expr.decEqList : (xs ys : List Expr) → Decidable (xs = ys)
  | [], [] => isTrue rfl
  | [], _ :: _ => isFalse nofun
  | _ :: _, [] => isFalse nofun
  | x :: xs, y :: ys =>
    match Expr.decEq x y, Expr.decEqList xs ys with
    | isTrue h, isTrue h' => isTrue (h ▸ h' ▸ rfl)
    | isFalse h, _ => isFalse fun e => h (List.cons.inj e).1
    | _, isFalse h => isFalse fun e => h (List.cons.inj e).2

/-- Decides equality of lists of fields. -/
def Expr.decEqFields : (xs ys : List (String × Expr)) → Decidable (xs = ys)
  | [], [] => isTrue rfl
  | [], _ :: _ => isFalse nofun
  | _ :: _, [] => isFalse nofun
  | (m, x) :: xs, (n, y) :: ys =>
    if hn : m = n then
      match Expr.decEq x y, Expr.decEqFields xs ys with
      | isTrue h, isTrue h' => isTrue (hn ▸ h ▸ h' ▸ rfl)
      | isFalse h, _ => isFalse fun e => h (Prod.mk.inj (List.cons.inj e).1).2
      | _, isFalse h => isFalse fun e => h (List.cons.inj e).2
    else isFalse fun e => hn (Prod.mk.inj (List.cons.inj e).1).1

/-- Decides equality of lists of arms. -/
def Expr.decEqArms : (xs ys : List Arm) → Decidable (xs = ys)
  | [], [] => isTrue rfl
  | [], _ :: _ => isFalse nofun
  | _ :: _, [] => isFalse nofun
  | x :: xs, y :: ys =>
    match Arm.decEq x y, Expr.decEqArms xs ys with
    | isTrue h, isTrue h' => isTrue (h ▸ h' ▸ rfl)
    | isFalse h, _ => isFalse fun e => h (List.cons.inj e).1
    | _, isFalse h => isFalse fun e => h (List.cons.inj e).2

end

instance : DecidableEq Expr := Expr.decEq
instance : DecidableEq Arm := Arm.decEq

end FlowTypes
