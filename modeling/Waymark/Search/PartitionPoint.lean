import Waymark.Search.Find

/-!
# Partition points and bounds of a value

Where a predicate stops to hold. If the number of elements is known the point is found by bisection,
which tests one element for each halving; if not, the elements are tested one after the other. The
lower bound of a value is the point where elements stop to be ordered before it, the upper bound the
point where the value starts to be ordered before elements.
-/

namespace Waymark

variable {α β κ : Type} [IntCast α] [Inhabited α]

/-- Bisects the `n` elements from `first` on. -/
def bisect (n : Int) (first : Cursor α) (pred : Predicate κ β) (proj : Projection κ α β) :
    Run α κ (Cursor α) :=
  if _hn : n ≤ 0 then return first
  else match _hh : Width.half n with
    | .error e => throw e
    | .ok half => do
      let middle ← first.advance half
      if ← middle.test pred proj then
        let next ← middle.step
        match _hr : first.width.behind n half with
        | .error e => throw e
        | .ok rest => bisect rest next pred proj
      else bisect half first pred proj
termination_by n.toNat
decreasing_by
  · have := Width.half_eq_ok_iff.1 _hh
    have := Width.behind_eq_ok_iff.1 _hr
    omega
  · have := Width.half_eq_ok_iff.1 _hh
    omega

/-- The partition point of the `n` elements from `first` on. -/
def partitionPointN (first : Cursor α) (n : Int) (pred : Predicate κ β)
    (proj : Projection κ α β) : Run α κ (Cursor α) :=
  if n < 0 then throw (.negativeCount .partitionPoint) else bisect n first pred proj

/-- The partition point of the elements up to a bound. -/
def partitionPoint (first : Cursor α) (last : Bound α) (pred : Predicate κ β)
    (proj : Projection κ α β) : Run α κ (Cursor α) := do
  match ← last.measure first with
  | some n => partitionPointN first n pred proj
  | none => findIfNot first last pred proj

/-- Holds of what is ordered before the value. -/
def orderedBefore (value : β) (comp : Relation κ β β) : Predicate κ β := fun y => comp y value

/-- Holds of what the value is not ordered before. -/
def notOrderedAfter (value : β) (comp : Relation κ β β) : Predicate κ β :=
  fun y => do return !(← comp value y)

/-- The first of the `n` elements from `first` on that is not ordered before the value. -/
def lowerBoundN (first : Cursor α) (n : Int) (value : β) (comp : Relation κ β β)
    (proj : Projection κ α β) : Run α κ (Cursor α) :=
  partitionPointN first n (orderedBefore value comp) proj

/-- The first element up to the bound that is not ordered before the value. -/
def lowerBound (first : Cursor α) (last : Bound α) (value : β) (comp : Relation κ β β)
    (proj : Projection κ α β) : Run α κ (Cursor α) :=
  partitionPoint first last (orderedBefore value comp) proj

/-- The first of the `n` elements from `first` on that the value is ordered before. -/
def upperBoundN (first : Cursor α) (n : Int) (value : β) (comp : Relation κ β β)
    (proj : Projection κ α β) : Run α κ (Cursor α) :=
  partitionPointN first n (notOrderedAfter value comp) proj

/-- The first element up to the bound that the value is ordered before. -/
def upperBound (first : Cursor α) (last : Bound α) (value : β) (comp : Relation κ β β)
    (proj : Projection κ α β) : Run α κ (Cursor α) :=
  partitionPoint first last (notOrderedAfter value comp) proj

namespace Range

/-- The partition point, with the number of elements that the range tells. -/
def partitionPoint (r : Range α) (pred : Predicate κ β) (proj : Projection κ α β) :
    Run α κ (Cursor α) := do
  match ← r.measure with
  | some n => partitionPointN r.first n pred proj
  | none => Waymark.partitionPoint r.first r.last pred proj

def lowerBound (r : Range α) (value : β) (comp : Relation κ β β) (proj : Projection κ α β) :
    Run α κ (Cursor α) := do
  match ← r.measure with
  | some n => lowerBoundN r.first n value comp proj
  | none => Waymark.lowerBound r.first r.last value comp proj

def upperBound (r : Range α) (value : β) (comp : Relation κ β β) (proj : Projection κ α β) :
    Run α κ (Cursor α) := do
  match ← r.measure with
  | some n => upperBoundN r.first n value comp proj
  | none => Waymark.upperBound r.first r.last value comp proj

end Range

/-- The offset of the lower bound in a list. -/
def lowerBoundList (xs : List α) (value : β) (comp : Relation κ β β) (proj : Projection κ α β) :
    Run α κ Dangling := do
  let r := Range.ofList xs
  let found ← lowerBoundN r.first xs.length value comp proj
  Dangling.between r.first found

/-- The offset of the upper bound in a list. -/
def upperBoundList (xs : List α) (value : β) (comp : Relation κ β β) (proj : Projection κ α β) :
    Run α κ Dangling := do
  let r := Range.ofList xs
  let found ← upperBoundN r.first xs.length value comp proj
  Dangling.between r.first found

end Waymark
