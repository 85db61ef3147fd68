import FlowTypes.NumberSet.Basic
import FlowTypes.NumberSet.Range
import FlowTypes.Side

/-!
# Canonical unions of numbers

`NumberSet.canonical` brings a list of primitive sets into the form in which unions are kept.
Real intervals are joined where they touch; literals and integers that lie in a real interval
are dropped; the remaining integers are joined into runs, and a run of one is a literal. Every
double but NaN, with NaN, is `all`. The result ascends in the canonical order.

A list of at most one set is returned as it is. `joint` tells whether a range is covered by
several sets together, by comparing canonical forms.
-/

namespace FlowTypes.NumberSet

/-- The number of a literal. -/
def literal? : NumberSet → Option Binary64
  | literal v => some v
  | _ => none

/-- The bounds of a real interval. -/
def reals? : NumberSet → Option Range
  | interval lo hi => some ⟨lo, hi⟩
  | _ => none

/-- The bounds of an integer interval. -/
def integral? : NumberSet → Option Range
  | integers lo hi => some ⟨lo, hi⟩
  | _ => none

/-- A run of integers as a set, where it has more than one. -/
def ofRun? (run : Range) : Option NumberSet :=
  if run.lo ≤ run.hi && run.hi ≤ run.lo then none
  else some (integers run.lo.unsignedZero run.hi.unsignedZero)

/-- The number of a run that has only one. -/
def ofSingleRun? (run : Range) : Option Binary64 :=
  if run.lo ≤ run.hi && run.hi ≤ run.lo then some run.lo else none

/-- Literals in the canonical order, without repetitions. -/
def points (values : List Binary64) : List NumberSet :=
  (StableSort.dropRepeats Binary64.same
    (StableSort.sort (fun a b => a.compare b != .gt) values)).map literal

/-- The canonical form of integers, reals and literals, the reals already joined. -/
def assemble (reals : List Range) (integral : List Range) (literals : List Binary64) :
    List NumberSet :=
  let loose := literals.filter fun v => !reals.any (·.has v)
  let whole := (loose.filter Binary64.isInteger).map Binary64.unsignedZero
  let runs := Range.merge Range.integersTouch
    (integral.flatMap (fun r => Range.outside r.lo r.hi reals) ++ whole.map fun v => ⟨v, v⟩)
  StableSort.sort (fun a b => a.compare b != .gt)
    (runs.filterMap ofRun?
      ++ reals.map (fun r => interval r.lo.unsignedZero r.hi.unsignedZero)
      ++ points (loose.filter (!·.isInteger) ++ runs.filterMap ofSingleRun?))

/-- The canonical form of a union of primitive sets. -/
def canonical : List NumberSet → List NumberSet
  | [] => []
  | [n] => [n]
  | items =>
    let literals := items.filterMap literal?
    let reals := Range.merge Range.realsTouch (items.filterMap reals?)
    let everyReal := reals.any fun r => r.lo = .negInf && r.hi = .posInf
    if items.any (· = all) then [all]
    else if everyReal && literals.any (·.isNaN) then [all]
    else assemble reals (items.filterMap integral?) literals

/-! ## Intersection and cover -/

/-- The numbers of both sets. -/
def meet (lead : Side) : NumberSet → NumberSet → Option NumberSet
  | all, b => some b
  | a, all => some a
  | literal v, literal w => if v.same w then some (literal (lead.pick v w)) else none
  | literal v, b => if b.has v then some (literal v) else none
  | a, literal w => if a.has w then some (literal w) else none
  | interval lo hi, interval lo' hi' => interval? (lo.maxNumber lo') (hi.minNumber hi')
  | interval lo hi, integers lo' hi' => integers? (lo.maxNumber lo') (hi.minNumber hi')
  | integers lo hi, interval lo' hi' => integers? (lo.maxNumber lo') (hi.minNumber hi')
  | integers lo hi, integers lo' hi' => integers? (lo.maxNumber lo') (hi.minNumber hi')

/-- Is a range covered by several sets together? Canonical forms are unique, so the part of the
range in their union is compared with the range itself. -/
def joint (n : NumberSet) (items : List NumberSet) : Bool :=
  n.bounds?.isSome && canonical (items.filterMap (meet .left · n)) = [n]

end FlowTypes.NumberSet
