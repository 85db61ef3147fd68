import FlowTypes.Binary64.Basic

/-!
# The canonical order

Canonical forms list numbers in one total order: the finite numbers ascending, with `-0` before
`0`, then `-inf`, `inf` and NaN. `rank` is an order embedding into the integers, and `compare`
compares ranks.

`minNumber` and `maxNumber` follow the numerical order, put `-0` below `0`, and answer NaN as soon
as one argument is NaN.
-/

namespace FlowTypes.Binary64

/-- The place of a double in the canonical order. Finite positions are doubled, which leaves
`-1` free for the negative zero. -/
def rank : Binary64 → Int
  | finite s m _ => if m = 0 then (if s then -1 else 0) else if s then -(2 * m) else 2 * m
  | infinity true => 2 * infinityPosition
  | infinity false => 2 * infinityPosition + 1
  | nan => 2 * infinityPosition + 2

/-- The canonical order. -/
def compare (a b : Binary64) : Ordering := Ord.compare a.rank b.rank

/-- The lesser number; `-0` is less than `0`, and NaN wins. -/
def minNumber (a b : Binary64) : Binary64 :=
  if a.isNaN || b.isNaN then nan
  else if a < b then a
  else if b < a then b
  else if a.isNegative then a else b

/-- The greater number; `0` is greater than `-0`, and NaN wins. -/
def maxNumber (a b : Binary64) : Binary64 :=
  if a.isNaN || b.isNaN then nan
  else if b < a then a
  else if a < b then b
  else if a.isNegative then b else a

end FlowTypes.Binary64
