import Waymark.Search.PartitionPoint
import Waymark.Search.EqualRange
import Waymark.Rearrange.Partition

/-!
# Lists kept in order

Changes of a list that are made where a search says. Putting every value at its upper bound keeps a
list sorted, with equivalent values in the order in which they came; cutting out the range of a value
takes all of its equivalents, and removing by a predicate leaves the order of the rest.
-/

namespace Waymark

variable {α κ : Type} [IntCast α] [Inhabited α]

/-- Puts a value before the first element that it is ordered before. Also returns its index. -/
def insertSorted (xs : List α) (x : α) (comp : Relation κ α α) (proj : Projection κ α α) :
    Run α κ (Nat × List α) := do
  let r := Range.ofList xs
  let c ← r.upperBound x comp proj
  let i ← r.indexOf c
  return (i, xs.take i ++ x :: xs.drop i)

/-- Cuts out the elements equivalent to a value. Also returns where they were. -/
def eraseEqual (xs : List α) (x : α) (comp : Relation κ α α) (proj : Projection κ α α) :
    Run α κ ((Nat × Nat) × List α) := do
  let r := Range.ofList xs
  let (c, d) ← r.equalRange x comp proj
  let i ← r.indexOf c
  let j ← r.indexOf d
  return ((i, j), xs.take i ++ xs.drop j)

/-- Puts in front what the predicate does not hold of. Also returns how many elements that are. -/
def removeInList (xs : List α) (pred : Predicate κ α) (proj : Projection κ α α) :
    Run α κ (Nat × List α) :=
  Run.withList xs fun place => removeIfIn (.stored place xs.length) pred proj

/-- Puts in front what the predicate holds of. Also returns how many elements that are. -/
def partitionInList (xs : List α) (pred : Predicate κ α) (proj : Projection κ α α) :
    Run α κ (Nat × List α) :=
  Run.withList xs fun place => partitionIn (.stored place xs.length) pred proj

/-- Leaves out what the predicate holds of. -/
def eraseIf (xs : List α) (pred : Predicate κ α) (proj : Projection κ α α) :
    Run α κ (List α) := do
  let (n, ys) ← removeInList xs pred proj
  return ys.take n

end Waymark
