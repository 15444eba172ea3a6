import Waymark.Cursor.Access
import Waymark.Passage
import Waymark.Range

/-!
# Walks

A walk hands out the elements from a cursor to a bound, one at a time and in order. An element is
read before the cursor steps over it, and nothing happens at the bound.
-/

namespace Waymark

/-- A cursor on its way to a bound. -/
structure Walk (α : Type) where
  cursor : Cursor α
  last : Bound α

/-- What a walk is expected to hand out: at least the first number, at most the second. -/
abbrev SizeHint := Nat × Option Nat

namespace Walk

variable {α κ : Type} [IntCast α] [Inhabited α]

def ofRange (r : Range α) : Walk α := ⟨r.first, r.last⟩

/-- The next element, or nothing at the bound. -/
def next (w : Walk α) : Run α κ (Option α × Walk α) := do
  if w.last.isEnd w.cursor then return (none, w)
  else
    let x ← w.cursor.read
    let c ← w.cursor.step
    return (some x, { w with cursor := c })

/-- The number of elements to come as the bound tells it, as an index. -/
def sizeHint (w : Walk α) : Except Fault SizeHint := do
  match ← w.last.measure w.cursor with
  | some n =>
    let i ← Width.toIndex n
    return (i, some i)
  | none => return (0, none)

/-- Up to `n` elements. -/
def take : Nat → Walk α → Run α κ (List α × Walk α)
  | 0, w => return ([], w)
  | n + 1, w => do
    match ← w.next with
    | (none, w) => return ([], w)
    | (some x, w) =>
      let (xs, w) ← w.take n
      return (x :: xs, w)

/-- The elements up to the bound, or up to one for which `stop` holds; that one is passed too. -/
def takeUntil (stop : α → Bool) (w : Walk α) : Run α κ (List α × Walk α) := do
  if w.last.isEnd w.cursor then return ([], w)
  else
    let x ← w.cursor.read
    match _h : w.cursor.step with
    | .error e => throw e
    | .ok c =>
      if stop x then return ([], ⟨c, w.last⟩)
      else
        let (xs, ended) ← takeUntil stop ⟨c, w.last⟩
        return (x :: xs, ended)
termination_by w.cursor.ahead
decreasing_by exact Cursor.step_ahead _h

/-- All elements up to the bound. -/
def takeAll (w : Walk α) : Run α κ (List α × Walk α) := w.takeUntil fun _ => false

/-- The elements in a list. Room for the rest is made once the first one is there, so that a walk
with elements has to have a size hint. -/
def collect (w : Walk α) : Run α κ (List α) := do
  match ← w.next with
  | (none, _) => return []
  | (some x, w) =>
    let _ ← w.sizeHint
    let (xs, _) ← w.takeAll
    return x :: xs

end Walk

end Waymark
