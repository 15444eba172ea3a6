import Waymark.Rearrange.RemoveIf
import Waymark.Passage

/-!
# Partitioning

The elements that a predicate holds of are put before the others. A cursor that only goes forward
keeps the former in their order. Any other one is met by a second cursor from the end: the first
element from the front that has to go back is exchanged with the first one from the end that has to
go to the front, so that no slot is touched that holds the right kind of element already.
-/

namespace Waymark

variable {α β κ : Type} [IntCast α] [Inhabited α]

/-- From which end the next element is tested. -/
inductive Side where
  | front
  | back
  deriving DecidableEq, Repr

/-- Partitions what lies between two cursors. From the back, `last` is at the element to be tested
and that at `first` has been refused. -/
def converge (side : Side) (first last : Cursor α) (pred : Predicate κ β)
    (proj : Projection κ α β) : Run α κ (Cursor α) := do
  if ← first.same last then return first
  else match side with
    | .front =>
      if ← first.test pred proj then
        match _h : first.step with
        | .error e => throw e
        | .ok c => converge .front c last pred proj
      else
        match _h : last.stepBack with
        | .error e => throw e
        | .ok d => converge .back first d pred proj
    | .back =>
      if ← last.test pred proj then
        first.swap last
        match _h : first.step with
        | .error e => throw e
        | .ok c => converge .front c last pred proj
      else
        match _h : last.stepBack with
        | .error e => throw e
        | .ok d => converge .back first d pred proj
termination_by (first.ahead, last.behind)
decreasing_by
  · exact .left _ _ (Cursor.step_ahead _h)
  · exact .right _ (Cursor.stepBack_behind _h)
  · exact .left _ _ (Cursor.step_ahead _h)
  · exact .right _ (Cursor.stepBack_behind _h)

/-- Partitions from both ends. -/
def partitionConverging (first : Cursor α) (last : Bound α) (pred : Predicate κ β)
    (proj : Projection κ α β) : Run α κ (Cursor α) := do
  let stop ← last.reach first
  converge .front first stop pred proj

/-- Partitions the elements up to a bound in the way that suits the cursor. Returns where those end
that the predicate holds of. -/
def partition (first : Cursor α) (last : Bound α) (pred : Predicate κ β)
    (proj : Projection κ α β) : Run α κ (Cursor α) :=
  if first.category.atLeast .bidirectional then partitionConverging first last pred proj
  else compact true first last pred proj

/-- Partitions a whole source. -/
def partitionIn (s : Source α) (pred : Predicate κ β) (proj : Projection κ α β) : Run α κ Nat := do
  let r := Range.ofSource s
  let stop ← partition r.first r.last pred proj
  r.indexOf stop

end Waymark
