import Waymark.Search.PartitionPoint
import Waymark.Passage

/-!
# The range of elements equivalent to a value

Between its lower and its upper bound. With a known number of elements, bisection looks for one
equivalent element and then for the two ends on either side of it. With an unknown number, probes
run ahead in steps that double until one does not lie before the value; the elements since the last
probe are bisected, and what follows the probe is walked through.
-/

namespace Waymark

variable {α β κ : Type} [IntCast α] [Inhabited α]

/-- Bisects the `n` elements from `first` on for both ends. -/
def bisectEqual (n : Int) (first : Cursor α) (value : β) (comp : Relation κ β β)
    (proj : Projection κ α β) : Run α κ (Cursor α × Cursor α) :=
  if _hn : n ≤ 0 then return (first, first)
  else match _hh : Width.half n with
    | .error e => throw e
    | .ok half => do
      let middle ← first.advance half
      let y ← middle.project proj
      if ← comp y value then
        let next ← middle.step
        match _hr : first.width.behind n half with
        | .error e => throw e
        | .ok rest => bisectEqual rest next value comp proj
      else if ← comp value y then bisectEqual half first value comp proj
      else
        let rest ← first.width.behind n half
        let lower ← lowerBoundN first half value comp proj
        let upper ← upperBoundN (← middle.step) rest value comp proj
        return (lower, upper)
termination_by n.toNat
decreasing_by
  · have := Width.half_eq_ok_iff.1 _hh
    have := Width.behind_eq_ok_iff.1 _hr
    omega
  · have := Width.half_eq_ok_iff.1 _hh
    omega

/-- The equivalent ones of the `n` elements from `first` on. -/
def equalRangeN (first : Cursor α) (n : Int) (value : β) (comp : Relation κ β β)
    (proj : Projection κ α β) : Run α κ (Cursor α × Cursor α) :=
  if n < 0 then throw (.negativeCount .equalRange) else bisectEqual n first value comp proj

/-- Probes `dist` elements ahead of `first`, and twice as far from behind a probe that is ordered
before the value. A probe that the bound cuts short leaves the elements up to there. -/
def probe (dist : Int) (first : Cursor α) (last : Bound α) (value : β) (comp : Relation κ β β)
    (proj : Projection κ α β) : Run α κ (Cursor α × Cursor α) :=
  match _ha : last.advance first dist with
  | .error e => throw e
  | .ok (short, middle) =>
    if short < 0 then throw .negativeShortfall
    else if 0 < short ∨ last.isEnd middle then do
      equalRangeN first (← first.width.sub dist short) value comp proj
    else do
      let y ← middle.project proj
      if ← comp value y then equalRangeN first dist value comp proj
      else if ← comp y value then
        match _hs : middle.step with
        | .error e => throw e
        | .ok beyond => probe (first.width.double dist) beyond last value comp proj
      else
        let lower ← lowerBoundN first dist value comp proj
        let upper ← upperBound middle last value comp proj
        return (lower, upper)
termination_by first.ahead
decreasing_by
  exact Nat.lt_of_lt_of_le (Cursor.step_ahead _hs) (Bound.advance_ahead_le _ha)

/-- The equivalent ones of the elements up to a bound. -/
def equalRange (first : Cursor α) (last : Bound α) (value : β) (comp : Relation κ β β)
    (proj : Projection κ α β) : Run α κ (Cursor α × Cursor α) := do
  match ← last.measure first with
  | some n => equalRangeN first n value comp proj
  | none => probe 1 first last value comp proj

/-- The equivalent ones of a range, with the number of elements that it tells. -/
def Range.equalRange (r : Range α) (value : β) (comp : Relation κ β β)
    (proj : Projection κ α β) : Run α κ (Cursor α × Cursor α) := do
  match ← r.measure with
  | some n => equalRangeN r.first n value comp proj
  | none => Waymark.equalRange r.first r.last value comp proj

/-- The offsets of the equivalent elements of a list. -/
def equalRangeList (xs : List α) (value : β) (comp : Relation κ β β) (proj : Projection κ α β) :
    Run α κ (Dangling × Dangling) := do
  let r := Range.ofList xs
  let found ← equalRangeN r.first xs.length value comp proj
  let lower ← Dangling.between r.first found.1
  let upper ← Dangling.between r.first found.2
  return (lower, upper)

end Waymark
