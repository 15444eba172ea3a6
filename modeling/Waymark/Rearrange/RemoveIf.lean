import Waymark.Search.Find

/-!
# Removing elements

The elements that a predicate holds of are put behind the others, which keep their order. Every
element is tested once, from the first one on.
-/

namespace Waymark

variable {α β κ : Type} [IntCast α] [Inhabited α]

/-- Tests the elements from `c` on, and exchanges each one whose test gives `kept` with the one at
`gap`, which it fills. -/
def fillGap (kept : Bool) (gap c : Cursor α) (last : Bound α) (pred : Predicate κ β)
    (proj : Projection κ α β) : Run α κ (Cursor α) := do
  if last.isEnd c then return gap
  else
    let b ← c.test pred proj
    if b == kept then
      gap.swap c
      let gap' ← gap.step
      match _h : c.step with
      | .error e => throw e
      | .ok c' => fillGap kept gap' c' last pred proj
    else
      match _h : c.step with
      | .error e => throw e
      | .ok c' => fillGap kept gap c' last pred proj
termination_by c.ahead
decreasing_by all_goals exact Cursor.step_ahead _h

/-- Puts the elements whose test gives `kept` in front, in their order. Returns where they end. -/
def compact (kept : Bool) (first : Cursor α) (last : Bound α) (pred : Predicate κ β)
    (proj : Projection κ α β) : Run α κ (Cursor α) := do
  let gap ← findBy (!kept) first last pred proj
  if last.isEnd gap then return gap
  else fillGap kept gap (← gap.step) last pred proj

/-- Puts the elements in front that the predicate does not hold of. -/
def removeIf (first : Cursor α) (last : Bound α) (pred : Predicate κ β) (proj : Projection κ α β) :
    Run α κ (Cursor α) :=
  compact false first last pred proj

/-- Removes from a whole source. Returns how many elements stay. -/
def removeIfIn (s : Source α) (pred : Predicate κ β) (proj : Projection κ α β) : Run α κ Nat := do
  let r := Range.ofSource s
  let stop ← removeIf r.first r.last pred proj
  r.indexOf stop

end Waymark
