import FlowTypes.Binary64.Integral
import FlowTypes.StableSort

/-!
# Ranges

Pairs of bounds, without a kind. `merge` joins the ranges of a list that touch each other, in
ascending order; what touches is the caller's choice, since neighbouring integers touch and
neighbouring reals do not. `outside` is what ranges of reals leave of a range of integers.
-/

namespace FlowTypes

/-- A lower and an upper bound. -/
structure Range where
  lo : Binary64
  hi : Binary64
  deriving DecidableEq

namespace Range

/-- Is the number between the bounds? -/
def has (r : Range) (x : Binary64) : Bool := r.lo ≤ x && x ≤ r.hi

/-- Ascending by lower bound, then by upper bound. -/
def startsFirst (a b : Range) : Bool :=
  a.lo.position < b.lo.position
    || (a.lo.position = b.lo.position && a.hi.position ≤ b.hi.position)

/-- Joins ranges in ascending order where `touches` holds between the end so far and the next
beginning. -/
def mergeFrom (touches : Binary64 → Binary64 → Bool) (current : Range) : List Range → List Range
  | [] => [current]
  | next :: rest =>
    if touches current.hi next.lo then
      mergeFrom touches
        (if current.hi < next.hi then { current with hi := next.hi } else current) rest
    else current :: mergeFrom touches next rest

/-- The ranges in ascending order, those that touch joined into one. -/
def merge (touches : Binary64 → Binary64 → Bool) (ranges : List Range) : List Range :=
  match StableSort.sort startsFirst ranges with
  | [] => []
  | first :: rest => mergeFrom touches first rest

/-- Real ranges touch where the next begins no later than the last ends. -/
def realsTouch (finish start : Binary64) : Bool := start ≤ finish

/-- Integer ranges touch also where the next begins one after the last ends. -/
def integersTouch (finish start : Binary64) : Bool := start ≤ finish + .one

/-- A range of integers, unless it holds none. An infinite bound alone is no integer. -/
def ofIntegers (lo hi : Binary64) : List Range :=
  if lo ≤ hi && lo != .posInf && hi != .negInf then [⟨lo, hi⟩] else []

/-- The integers from `lo` to `hi` that lie in none of the real ranges, which are in ascending
order and do not touch. -/
def outside (lo hi : Binary64) : List Range → List Range
  | [] => ofIntegers lo hi
  | real :: rest =>
    let first := real.lo.ceil
    let last := real.hi.floor
    if last < first || last < lo || hi < first then outside lo hi rest
    else
      let before := if lo < first then ofIntegers lo (first - .one) else []
      let next := last + .one
      before ++ if hi < next then [] else outside next hi rest

end Range

end FlowTypes
