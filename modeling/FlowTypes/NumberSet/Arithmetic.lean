import FlowTypes.NumberSet.Canonical

/-!
# Arithmetic on sets of numbers

Each operation is given on two primitive sets and lifted to unions by `image` and `image₂`: the
results for all members, or all pairs of members, in canonical form. Ranges are computed from
their bounds. A result may hold more numbers than the exact image; it holds no fewer, but for
infinities that two finite operands overflow to.
-/

namespace FlowTypes.NumberSet

/-- The results for every member of a union. -/
def image (f : NumberSet → List NumberSet) (xs : List NumberSet) : List NumberSet :=
  canonical (xs.flatMap f)

/-- The results for every pair of members of two unions. -/
def image₂ (f : NumberSet → NumberSet → List NumberSet) (xs ys : List NumberSet) :
    List NumberSet :=
  canonical (xs.flatMap fun x => ys.flatMap (f x))

/-! ## Sign and rounding -/

/-- Changes the sign of every number. -/
def negateOne : NumberSet → List NumberSet
  | all => [all]
  | literal v => [literal (-v)]
  | interval lo hi => (interval? (-hi) (-lo)).toList
  | integers lo hi => (integers? (-hi) (-lo)).toList

/-- Rounds every number to the nearest integer, ties upwards. -/
def roundOne : NumberSet → List NumberSet
  | all => canonical [literal .nan, literal .negInf, literal .posInf, everyInteger]
  | literal v => [literal v.roundHalfUp]
  | integers lo hi => [integers lo hi]
  | interval lo hi =>
    let lo := lo.roundHalfUp
    let hi := hi.roundHalfUp
    canonical ((integers? lo hi).toList
      ++ (if lo = .negInf then [literal .negInf] else [])
      ++ (if hi = .posInf then [literal .posInf] else []))

/-! ## Sums -/

/-- A number plus every number of a set. -/
def addLiteral (v : Binary64) (other : NumberSet) : List NumberSet :=
  match v with
  | .nan => [literal .nan]
  | .infinity s =>
    if other.has (.infinity !s) then canonical [literal .nan, literal v] else [literal v]
  | .finite .. =>
    match other with
    | all => [all]
    | literal w => [literal (v + w)]
    | integers lo hi =>
      if v.isInteger then (integers? (v + lo) (v + hi)).toList
      else (interval? (v + lo) (v + hi)).toList
    | interval lo hi => (interval? (v + lo) (v + hi)).toList

/-- Opposite infinities, one in each set, have no sum. -/
def meetInfinities (a b : NumberSet) : Bool :=
  (a.has .negInf && b.has .posInf) || (a.has .posInf && b.has .negInf)

/-- The sum of two ranges, with NaN where opposite infinities meet. -/
def addRanges (a b : NumberSet) (sum : Option NumberSet) : List NumberSet :=
  if meetInfinities a b then canonical (sum.toList ++ [literal .nan]) else sum.toList

/-- Every sum of a number of `a` and a number of `b`. -/
def addOne (a b : NumberSet) : List NumberSet :=
  match a, b with
  | literal x, literal y => [literal (x + y)]
  | literal v, other => addLiteral v other
  | other, literal v => addLiteral v other
  | all, _ => [all]
  | _, all => [all]
  | integers lo hi, integers lo' hi' => addRanges a b (integers? (lo + lo') (hi + hi'))
  | integers lo hi, interval lo' hi' => addRanges a b (interval? (lo + lo') (hi + hi'))
  | interval lo hi, integers lo' hi' => addRanges a b (interval? (lo + lo') (hi + hi'))
  | interval lo hi, interval lo' hi' => addRanges a b (interval? (lo + lo') (hi + hi'))

/-! ## Reciprocals -/

/-- One over every number between `lo` and `hi`, of which those nearer to zero than `gap` are
left out. Zero has no sign here and has both infinities as reciprocals. -/
def reciprocalBetween (lo hi gap : Binary64) : List NumberSet :=
  let zero := Binary64.zero
  canonical
    ((if lo ≤ zero && zero ≤ hi then [literal .negInf, literal .posInf] else [])
      ++ (if lo < zero then
            let upper := if hi < zero then hi else -gap
            (interval? (.one / upper) (.one / lo)).toList
          else [])
      ++ (if zero < hi then
            let lower := if zero < lo then lo else gap
            (interval? (.one / hi) (.one / lower)).toList
          else []))

/-- One over every number. -/
def reciprocalOne : NumberSet → List NumberSet
  | all => [all]
  | literal v => if v.isNaN then [literal .nan] else reciprocalBetween v v .zero
  | interval lo hi => reciprocalBetween lo hi .zero
  | integers lo hi => reciprocalBetween lo hi .one

/-! ## Minima -/

/-- The minima of a number and the numbers of a set. -/
def minimumLiteral (v : Binary64) (other : NumberSet) : List NumberSet :=
  if v.isNaN then [literal .nan]
  else if v = .posInf then [other]
  else
    match other with
    | literal w => [literal (v.minNumber w)]
    | all => canonical (literal .nan :: (interval? .negInf v).toList)
    | interval lo hi =>
      if v ≤ lo then [literal v] else if hi ≤ v then [other] else (interval? lo v).toList
    | integers lo hi =>
      if v ≤ lo then [literal v]
      else if hi ≤ v then [other]
      else if v.isInteger then (integers? lo v).toList
      else canonical ((integers? lo v.floor).toList ++ [literal v])

/-- The minima of any number at all and the numbers of a set that is no literal. -/
def minimumAll (other : NumberSet) : List NumberSet :=
  match other.bounds? with
  | some (_, hi) =>
    if hi = .posInf then [all] else canonical (literal .nan :: (interval? .negInf hi).toList)
  | none => [all]

/-- The minima of two integer ranges. -/
def minimumIntegers (lo hi lo' hi' : Binary64) : List NumberSet :=
  if hi ≤ lo' then (integers? lo hi).toList
  else if hi' ≤ lo then (integers? lo' hi').toList
  else (integers? (lo.minNumber lo') (hi.minNumber hi')).toList

/-- The minima of an integer range and a real range. Where the integers reach below the reals,
small results are integers and the rest come from the reals. -/
def minimumMixed (lo hi lo' hi' : Binary64) : List NumberSet :=
  if hi ≤ lo' then (integers? lo hi).toList
  else if hi' ≤ lo then (interval? lo' hi').toList
  else if lo' ≤ lo then (interval? lo' (hi.minNumber hi')).toList
  else
    let last := if lo'.isInteger then lo' - .one else lo'.floor
    canonical ((integers? lo last).toList ++ (interval? lo' (hi.minNumber hi')).toList)

/-- Every minimum of a number of `a` and a number of `b`. -/
def minimumOne (a b : NumberSet) : List NumberSet :=
  match a, b with
  | literal v, other => minimumLiteral v other
  | other, literal v => minimumLiteral v other
  | all, other => minimumAll other
  | other, all => minimumAll other
  | integers lo hi, integers lo' hi' => minimumIntegers lo hi lo' hi'
  | integers lo hi, interval lo' hi' => minimumMixed lo hi lo' hi'
  | interval lo' hi', integers lo hi => minimumMixed lo hi lo' hi'
  | interval lo hi, interval lo' hi' => (interval? (lo.minNumber lo') (hi.minNumber hi')).toList

/-! ## Products -/

/-- The ends of a set that has two, a literal being both its ends. -/
def ends? : NumberSet → Option (Binary64 × Binary64)
  | literal v => some (v, v)
  | n => n.bounds?

/-- Does the set hold integers only, as far as its kind shows? -/
def isIntegral : NumberSet → Bool
  | literal v => v.isInteger
  | integers .. => true
  | _ => false

/-- The least of a list of numbers, the first of equal ones; at most positive infinity. -/
def least (vs : List Binary64) : Binary64 :=
  vs.foldl (fun m v => if v < m then v else m) .posInf

/-- The greatest of a list of numbers, the first of equal ones; at least negative infinity. -/
def greatest (vs : List Binary64) : Binary64 :=
  vs.foldl (fun m v => if m < v then v else m) .negInf

/-- The products of two sets with finite ends. -/
def multiplyEnds (a b : NumberSet) (lo hi lo' hi' : Binary64) : List NumberSet :=
  let corners := [lo * lo', lo * hi', hi * lo', hi * hi']
  if a.isIntegral && b.isIntegral then (integers? (least corners) (greatest corners)).toList
  else (interval? (least corners) (greatest corners)).toList

/-- Is this the literal zero? -/
def isZero (n : NumberSet) : Bool := n.same (literal .zero)

/-- Every product of a number of `a` and a number of `b`. -/
def multiplyOne (a b : NumberSet) : List NumberSet :=
  match a, b with
  | literal x, literal y => [literal (x * y)]
  | a, b =>
    if a = literal .nan || b = literal .nan then [literal .nan]
    else
      match a.ends?, b.ends? with
      | some (lo, hi), some (lo', hi') =>
        if [lo, hi, lo', hi'].all (·.isFinite) then
          if a.isZero || b.isZero then [literal .zero] else multiplyEnds a b lo hi lo' hi'
        else [all]
      | _, _ => [all]

/-! ## Operations on unions -/

/-- Changes the sign of every member. -/
def negate (xs : List NumberSet) : List NumberSet := image negateOne xs

/-- Rounds every member. -/
def round (xs : List NumberSet) : List NumberSet := image roundOne xs

/-- One over every member. -/
def reciprocal (xs : List NumberSet) : List NumberSet := image reciprocalOne xs

/-- All sums. -/
def add (xs ys : List NumberSet) : List NumberSet := image₂ addOne xs ys

/-- All differences, as sums with the other sign. -/
def subtract (xs ys : List NumberSet) : List NumberSet := add xs (negate ys)

/-- All products. -/
def multiply (xs ys : List NumberSet) : List NumberSet := image₂ multiplyOne xs ys

/-- All minima. -/
def minimum (xs ys : List NumberSet) : List NumberSet := image₂ minimumOne xs ys

/-- All maxima, as minima with the other sign. -/
def maximum (xs ys : List NumberSet) : List NumberSet :=
  negate (minimum (negate xs) (negate ys))

end FlowTypes.NumberSet
