import FlowTypes.NumberSet.Canonical

/-!
# Difference of sets of numbers

What one primitive set leaves of another. Not every difference is a union of primitive sets: a
real interval less a point would need an open bound. There the left side is returned unchanged,
and where an interval is cut the cut points stay, so the result may hold more than the exact
difference and never less.
-/

namespace FlowTypes.NumberSet

/-- An integer interval `lo` to `hi` less the integers from `first` to `last`. -/
def withoutIntegers (lo hi first last : Binary64) : List NumberSet :=
  if last < first || last < lo || hi < first then [integers lo hi]
  else canonical ((integers? lo (first - .one)).toList ++ (integers? (last + .one) hi).toList)

/-- The numbers of `a` that `b` does not cover. -/
def without (a b : NumberSet) : List NumberSet :=
  if a.subset b then []
  else
    match a, b with
    | all, literal v => if v.isNaN then [interval .negInf .posInf] else [a]
    | all, interval lo hi =>
      canonical (literal .nan
        :: (if Binary64.negInf < lo then (interval? .negInf lo).toList else [])
        ++ (if hi < Binary64.posInf then (interval? hi .posInf).toList else []))
    | integers lo hi, literal v => if a.has v then withoutIntegers lo hi v v else [a]
    | integers lo hi, interval lo' hi' => withoutIntegers lo hi lo'.ceil hi'.floor
    | integers lo hi, integers lo' hi' => withoutIntegers lo hi lo' hi'
    | interval lo hi, interval lo' hi' =>
      if hi' < lo || hi < lo' then [a]
      else
        canonical ((if lo < lo' then (interval? lo lo').toList else [])
          ++ (if hi' < hi then (interval? hi' hi).toList else []))
    | _, _ => [a]

end FlowTypes.NumberSet
