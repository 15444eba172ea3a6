import Waymark.Cursor.Basic

/-!
# Comparing cursors

Two cursors over one sequence are compared by their positions. Cursors over different slices or
different views have no order, and comparing them is a fault. Counted cursors are compared by what
they have left: the one with less left is further.
-/

namespace Waymark.Cursor

variable {α : Type}

/-- The cursors stand at one position. -/
def same : Cursor α → Cursor α → Except Fault Bool
  | slice s p, slice t q => if s.same t then .ok (p == q) else .error .differentSlices
  | repeated v _ p, repeated u _ q => if v = u then .ok (p == q) else .error .differentViews
  | iota _ x, iota _ y => .ok (x == y)
  | counted _ r, counted _ t => .ok (r == t)
  | moving a, moving b => a.same b
  | forwardOnly a, forwardOnly b => a.same b
  | _, _ => .error .mismatched

/-- Which cursor stands before the other. -/
def order : Cursor α → Cursor α → Except Fault Ordering
  | slice s p, slice t q => if s.same t then .ok (compare p q) else .error .differentSlices
  | repeated v _ p, repeated u _ q =>
    if v = u then .ok (compare p q) else .error .differentViews
  | iota _ x, iota _ y => .ok (compare x y)
  | counted _ r, counted _ t => .ok (compare t r)
  | moving a, moving b => a.order b
  | _, _ => .error .mismatched

/-- The number of steps from `origin` to the cursor. Positions in a slice are taken for distances, as
in `shifted`. -/
def offsetFrom : (c origin : Cursor α) → Except Fault Int
  | slice s p, slice t q => if s.same t then Width.w64.sub p q else .error .differentSlices
  | repeated v _ p, repeated u _ q =>
    if v = u then Width.w64.sub p q else .error .differentViews
  | iota w x, iota _ y => w.sub x y
  | counted b r, counted _ t => b.width.sub t r
  | moving a, moving b => a.offsetFrom b
  | _, _ => .error .mismatched

/-- The number of places between two cursors over elements that lie side by side. -/
def places : Cursor α → Cursor α → Except Fault Int
  | slice s p, slice t q => if s.same t then .ok (p - q) else .error .differentSlices
  | counted a _, counted b _ => a.places b
  | _, _ => .error (.lacking .contiguous)

end Waymark.Cursor
