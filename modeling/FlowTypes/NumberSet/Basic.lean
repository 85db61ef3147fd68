import FlowTypes.Binary64.Integral
import FlowTypes.Binary64.Order
import FlowTypes.Decimal.Text

/-!
# Sets of numbers

The four primitive sets of doubles: all of them, one number, the doubles between two bounds, and
the integers between two bounds. A real interval contains an infinite bound, an integer interval
does not. `interval?` and `integers?` build the ranges: an empty range is none, a range of one
number is that number, and zeros in bounds lose their sign.
-/

namespace FlowTypes

/-- A primitive set of doubles. -/
inductive NumberSet
  | all
  | literal (value : Binary64)
  | interval (lo hi : Binary64)
  | integers (lo hi : Binary64)
  deriving DecidableEq

namespace NumberSet

/-- Membership. Zeros of either sign are one number, and NaN is a number. -/
def has : NumberSet → Binary64 → Bool
  | all, _ => true
  | literal v, x => v.same x
  | interval lo hi, x => lo ≤ x && x ≤ hi
  | integers lo hi, x => x.isInteger && lo ≤ x && x ≤ hi

/-- The bounds of a range. -/
def bounds? : NumberSet → Option (Binary64 × Binary64)
  | interval lo hi | integers lo hi => some (lo, hi)
  | all | literal _ => none

/-- The doubles between two bounds. -/
def interval? (lo hi : Binary64) : Option NumberSet :=
  if lo ≤ hi then
    if hi ≤ lo then some (literal lo) else some (interval lo.unsignedZero hi.unsignedZero)
  else none

/-- The integers between two bounds, which need not be integers themselves. -/
def integers? (lo hi : Binary64) : Option NumberSet :=
  let lo := lo.ceil
  let hi := hi.floor
  if lo ≤ hi then
    if hi ≤ lo then if lo.isFinite then some (literal lo.unsignedZero) else none
    else some (integers lo.unsignedZero hi.unsignedZero)
  else none

/-- All integers. -/
def everyInteger : NumberSet := integers .negInf .posInf

/-- The same set with a literal zero made positive: equal primitives are those with equal
identity. -/
def identity : NumberSet → NumberSet
  | literal v => literal v.unsignedZero
  | n => n

/-- Equality of primitives: zeros of either sign are equal, and NaN equals NaN. -/
def same (a b : NumberSet) : Bool := a.identity = b.identity

/-- The source text of a primitive set. -/
def text : NumberSet → String
  | all => "number"
  | literal v => v.text
  | interval lo hi => lo.text ++ ".." ++ hi.text
  | integers lo hi => "int(" ++ lo.text ++ ".." ++ hi.text ++ ")"

/-! ## The canonical order -/

/-- The lower end in the canonical order. All doubles count as NaN, the last one. -/
def lower : NumberSet → Binary64
  | all => .nan
  | literal v => v
  | interval lo _ | integers lo _ => lo

/-- The upper end in the canonical order. -/
def upper : NumberSet → Binary64
  | all => .nan
  | literal v => v
  | interval _ hi | integers _ hi => hi

/-- Breaks ties between sets with the same ends. -/
def kindRank : NumberSet → Nat
  | literal _ => 0
  | integers .. => 1
  | interval .. => 2
  | all => 3

/-- The canonical order: by lower end, then by upper end, then by kind. -/
def compare (a b : NumberSet) : Ordering :=
  (a.lower.compare b.lower).then
    ((a.upper.compare b.upper).then (Ord.compare a.kindRank b.kindRank))

/-! ## Inclusion -/

/-- Is every number of `a` one of `b`, as far as the two primitives show? -/
def subset : NumberSet → NumberSet → Bool
  | _, all => true
  | all, _ => false
  | literal v, b => b.has v
  | _, literal _ => false
  | interval .., integers .. => false
  | interval lo hi, interval lo' hi' => lo' ≤ lo && hi ≤ hi'
  | integers lo hi, interval lo' hi' => lo' ≤ lo && hi ≤ hi'
  | integers lo hi, integers lo' hi' => lo' ≤ lo && hi ≤ hi'

end NumberSet

end FlowTypes
