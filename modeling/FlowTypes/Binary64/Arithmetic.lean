import FlowTypes.Binary64.Rounding

/-!
# Arithmetic

Sums, products and quotients of doubles: the exact result, rounded once. A sum that is exactly
zero is positive unless both operands are negative; products and quotients multiply the signs.
`add_comm` and `mul_comm` hold for all doubles, NaN and the infinities included.
-/

namespace FlowTypes.Binary64

/-- The sum, rounded to nearest. Infinities of different sign have none. -/
def add : Binary64 → Binary64 → Binary64
  | nan, _ => nan
  | _, nan => nan
  | infinity s, infinity t => if s = t then infinity s else nan
  | infinity s, finite .. => infinity s
  | finite .., infinity t => infinity t
  | a@(finite s ..), b@(finite t ..) =>
    let sum := a.position + b.position
    if sum = 0 then ofRatio (s && t) 0 1 else ofRatio (decide (sum < 0)) sum.natAbs 1

/-- The product, rounded to nearest. Zero times infinity is none. -/
def mul : Binary64 → Binary64 → Binary64
  | nan, _ => nan
  | _, nan => nan
  | infinity s, infinity t => infinity (s != t)
  | infinity s, finite t n _ => if n = 0 then nan else infinity (s != t)
  | finite s m _, infinity t => if m = 0 then nan else infinity (s != t)
  | finite s m _, finite t n _ => ofRatio (s != t) (m * n) unitsPerOne

/-- The quotient, rounded to nearest. A number over zero is infinite, zero over zero is none. -/
def div : Binary64 → Binary64 → Binary64
  | nan, _ => nan
  | _, nan => nan
  | infinity _, infinity _ => nan
  | infinity s, finite t _ _ => infinity (s != t)
  | finite s _ _, infinity t => ofRatio (s != t) 0 1
  | finite s m _, finite t n _ =>
    if n = 0 then (if m = 0 then nan else infinity (s != t))
    else ofRatio (s != t) (m * unitsPerOne) n

instance : Add Binary64 := ⟨add⟩
instance : Sub Binary64 := ⟨fun a b => add a (-b)⟩
instance : Mul Binary64 := ⟨mul⟩
instance : Div Binary64 := ⟨div⟩

theorem add_comm (a b : Binary64) : a + b = b + a := by
  show add a b = add b a
  cases a with
  | nan => cases b <;> rfl
  | infinity s =>
    cases b with
    | infinity t => cases s <;> cases t <;> rfl
    | _ => rfl
  | finite s m hm =>
    cases b with
    | finite t n hn => simp only [add, Int.add_comm, Bool.and_comm]
    | _ => rfl

theorem mul_comm (a b : Binary64) : a * b = b * a := by
  show mul a b = mul b a
  cases a with
  | nan => cases b <;> rfl
  | infinity s =>
    cases b with
    | infinity t => cases s <;> cases t <;> rfl
    | finite t n hn => simp only [mul, bne_comm]
    | nan => rfl
  | finite s m hm =>
    cases b with
    | finite t n hn => simp only [mul, Nat.mul_comm, bne_comm]
    | infinity t => simp only [mul, bne_comm]
    | nan => rfl

end FlowTypes.Binary64
