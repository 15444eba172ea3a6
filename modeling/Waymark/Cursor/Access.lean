import Waymark.Cursor.Basic
import Waymark.World

/-!
# Reading, moving out and exchanging elements

Reading leaves the sequence alone, unless it goes through a `moving` cursor. Moving an element out
of a stored sequence leaves the default element in its slot; any other sequence hands out a copy.
Only slots of one stored sequence can be exchanged.
-/

namespace Waymark.Cursor

variable {α κ : Type}

/-- The element in a slot of a stored sequence of length `length`. -/
def storedElement (place length position : Nat) : Run α κ α := do
  match (← get).slot? place position with
  | some x => return x
  | none => throw (.accessPastSlice length)

/-- Takes the element out of its slot. -/
def moveOut [IntCast α] [Inhabited α] : Cursor α → Run α κ α
  | slice (.shared _ xs) p => match xs[p]? with
    | some x => return x
    | none => throw (.readPastSlice xs.length)
  | slice (.stored place n) p => do
    let x ← storedElement place n p
    modify (·.put place p default)
    return x
  | repeated _ x _ => return x
  | iota _ x => return x
  | stream _ => throw (.lacking .movable)
  | counted b _ => b.moveOut
  | moving b => b.moveOut
  | forwardOnly b => b.moveOut

/-- The element that the cursor stands at. -/
def read [IntCast α] [Inhabited α] : Cursor α → Run α κ α
  | slice (.shared _ xs) p => match xs[p]? with
    | some x => return x
    | none => throw (.readPastSlice xs.length)
  | slice (.stored place n) p => storedElement place n p
  | repeated _ x _ => return x
  | iota _ x => return x
  | stream s => do
    let b ← s.read
    return (b.toNat : Int)
  | counted b _ => b.read
  | moving b => b.moveOut
  | forwardOnly b => b.read

/-- Exchanges the elements of two slots. -/
def swap : Cursor α → Cursor α → Run α κ Unit
  | slice s p, slice t q =>
    if s.same t then
      match s with
      | .shared .. => throw (.lacking .swappable)
      | .stored place n => do
        let x ← storedElement place n p
        let y ← storedElement place n q
        modify fun w => (w.put place p y).put place q x
    else throw .differentSlices
  | counted a _, counted b _ => a.swap b
  | moving a, moving b => a.swap b
  | forwardOnly a, forwardOnly b => a.swap b
  | _, _ => throw (.lacking .swappable)

end Waymark.Cursor
