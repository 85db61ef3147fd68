import FlowTypes.Binary64.Arithmetic

/-!
# Integers among the doubles

`floor` and `ceil` round to an integer downwards and upwards and keep the sign of zero.
`roundHalfUp` rounds to the nearest integer and takes a tie upwards. Infinities and NaN are
returned unchanged, and are no integers.
-/

namespace FlowTypes.Binary64

/-- Is this a finite integer? -/
def isInteger : Binary64 → Bool
  | finite _ m _ => m % unitsPerOne = 0
  | _ => false

/-- The greatest integer at most `v`. -/
def floor : Binary64 → Binary64
  | finite s m _ =>
    let whole := m / unitsPerOne
    let away := s && m % unitsPerOne != 0
    ofRatio s ((if away then whole + 1 else whole) * unitsPerOne) 1
  | v => v

/-- The least integer at least `v`. -/
def ceil (v : Binary64) : Binary64 := -floor (-v)

/-- The nearest integer, ties toward positive infinity. -/
def roundHalfUp (v : Binary64) : Binary64 :=
  if half ≤ v - v.floor then v.floor + one else v.floor

end FlowTypes.Binary64
