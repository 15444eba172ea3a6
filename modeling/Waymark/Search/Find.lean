import Waymark.Callable.Basic
import Waymark.Cursor.Travel
import Waymark.Range

/-!
# Finding an element and counting elements

Linear searches. They pass each element once, test it once, and stop at the bound.
-/

namespace Waymark

variable {α β κ : Type} [IntCast α] [Inhabited α]

/-- Goes to the first element whose test gives `wanted`, or to the bound. -/
def findBy (wanted : Bool) (first : Cursor α) (last : Bound α) (pred : Predicate κ β)
    (proj : Projection κ α β) : Run α κ (Cursor α) := do
  if last.isEnd first then return first
  else if (← first.test pred proj) == wanted then return first
  else
    match _h : first.step with
    | .error e => throw e
    | .ok c => findBy wanted c last pred proj
termination_by first.ahead
decreasing_by exact Cursor.step_ahead _h

/-- Goes to the first element that satisfies the predicate, or to the bound. -/
def findIf (first : Cursor α) (last : Bound α) (pred : Predicate κ β) (proj : Projection κ α β) :
    Run α κ (Cursor α) :=
  findBy true first last pred proj

/-- Goes to the first element that does not satisfy the predicate, or to the bound. -/
def findIfNot (first : Cursor α) (last : Bound α) (pred : Predicate κ β)
    (proj : Projection κ α β) : Run α κ (Cursor α) :=
  findBy false first last pred proj

/-- Counts the elements whose projection equals `value`, on from `n`. -/
def countFrom [BEq β] (n : Int) (first : Cursor α) (last : Bound α) (value : β)
    (proj : Projection κ α β) : Run α κ (Int × Cursor α) := do
  if last.isEnd first then return (n, first)
  else
    let y ← first.project proj
    let m ← (if y == value then first.width.add n 1 else .ok n : Except Fault Int)
    match _h : first.step with
    | .error e => throw e
    | .ok c => countFrom m c last value proj
termination_by first.ahead
decreasing_by exact Cursor.step_ahead _h

/-- The number of elements whose projection equals `value`, and the cursor at the bound. -/
def count [BEq β] (first : Cursor α) (last : Bound α) (value : β) (proj : Projection κ α β) :
    Run α κ (Int × Cursor α) :=
  countFrom 0 first last value proj

namespace Range

def findIf (r : Range α) (pred : Predicate κ β) (proj : Projection κ α β) : Run α κ (Cursor α) :=
  Waymark.findIf r.first r.last pred proj

def findIfNot (r : Range α) (pred : Predicate κ β) (proj : Projection κ α β) :
    Run α κ (Cursor α) :=
  Waymark.findIfNot r.first r.last pred proj

def count [BEq β] (r : Range α) (value : β) (proj : Projection κ α β) :
    Run α κ (Int × Cursor α) :=
  Waymark.count r.first r.last value proj

end Range

/-- The number of elements of a list whose projection equals `value`. -/
def countList [BEq β] (xs : List α) (value : β) (proj : Projection κ α β) :
    Run α κ (Int × Cursor α) :=
  (Range.ofList xs).count value proj

end Waymark
