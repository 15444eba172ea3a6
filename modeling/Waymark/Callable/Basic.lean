import Waymark.Cursor.Access

/-!
# Callables

Algorithms are told what to look for by callables: a projection turns an element into what is looked
at, a predicate tests one value and a relation two. Callables may keep a state `κ` between calls,
so that the order of calls matters and is fixed: an element is read, then projected, then tested.
-/

namespace Waymark

/-- What of an element is looked at. -/
abbrev Projection (κ α β : Type) := α → StateM κ β

/-- A test of one value. -/
abbrev Predicate (κ β : Type) := β → StateM κ Bool

/-- A test of two values. -/
abbrev Relation (κ β γ : Type) := β → γ → StateM κ Bool

/-- Looks at the element itself. -/
def Projection.identity {κ α : Type} : Projection κ α α := fun x => pure x

namespace Cursor

variable {α β κ : Type} [IntCast α] [Inhabited α]

/-- Reads and projects the element at the cursor. -/
def project (proj : Projection κ α β) (c : Cursor α) : Run α κ β := do
  let x ← c.read
  proj x

/-- Tests the element at the cursor. -/
def test (pred : Predicate κ β) (proj : Projection κ α β) (c : Cursor α) : Run α κ Bool := do
  let y ← c.project proj
  pred y

end Cursor

end Waymark
