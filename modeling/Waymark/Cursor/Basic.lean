import Waymark.Distance
import Waymark.Category
import Waymark.ByteStream

/-!
# Cursors

A cursor is a place in a sequence. Four kinds stand on a sequence of their own: a slice of elements,
a value that is repeated, the integers of a width, and a byte stream. Three kinds stand on another
cursor and change one thing about it: how far it goes (`counted`), what reading does (`moving`), and
what it promises (`forwardOnly`).
-/

namespace Waymark

/-- The sequence under a slice cursor. -/
inductive Source (α : Type) where
  /-- Elements that nobody changes, at a place that tells equal sequences apart. -/
  | shared (place : Nat) (elements : List α)
  /-- A sequence of the store, whose length is fixed. -/
  | stored (place : Nat) (length : Nat)

namespace Source

variable {α : Type}

def length : Source α → Nat
  | shared _ xs => xs.length
  | stored _ n => n

/-- The sources lie at one place and are equally long. An empty source is a whole sequence without
elements, which has no storage: all such sequences have one place. An empty part of a longer sequence,
which would lie at a place of its own, is not a source. -/
def same : Source α → Source α → Bool
  | shared p xs, shared q ys => xs.length == ys.length && (xs.isEmpty || p == q)
  | stored p m, stored q n => m == n && (m == 0 || p == q)
  | _, _ => false

end Source

/-- A place in a sequence. -/
inductive Cursor (α : Type) where
  /-- Before the element `position` of the source, or at its end. -/
  | slice (source : Source α) (position : Nat)
  /-- In a view that shows one value at every position. -/
  | repeated (view : Nat) (value : α) (position : Int)
  /-- At an integer, which is the element itself. -/
  | iota (width : Width) (value : Int)
  /-- At the byte in view of a stream. -/
  | stream (state : ByteStream)
  /-- Goes `remaining` steps further than where it stands. -/
  | counted (base : Cursor α) (remaining : Nat)
  /-- Reads by moving the element out. -/
  | moving (base : Cursor α)
  /-- Only steps forward, and does not know how far. -/
  | forwardOnly (base : Cursor α)

/-- Where a cursor stands, for whoever asks. -/
inductive Location where
  | index (value : Int)
  | counted (base : Location) (left : Nat)
  deriving DecidableEq, Repr

namespace Cursor

variable {α : Type}

/-- The width in which distances of the cursor are counted. -/
def width : Cursor α → Width
  | slice .. => .w64
  | repeated .. => .w64
  | iota w _ => w
  | stream _ => .w64
  | counted b _ => b.width
  | moving b => b.width
  | forwardOnly b => b.width

/-- What the cursor promises. Moving reads give up that elements lie side by side. -/
def category : Cursor α → Category
  | slice .. => .contiguous
  | repeated .. => .randomAccess
  | iota .. => .randomAccess
  | stream _ => .singlePass
  | counted b _ => b.category
  | moving b => b.category.upToRandomAccess
  | forwardOnly _ => .forward

/-- No more steps forward than this are possible. -/
def ahead : Cursor α → Nat
  | slice s p => s.length - p
  | repeated _ _ p => (Width.w64.max - p).toNat
  | iota w x => (w.max - x).toNat
  | stream s => s.unread
  | counted b _ => b.ahead
  | moving b => b.ahead
  | forwardOnly b => b.ahead

/-- No more steps back than this are possible. -/
def behind : Cursor α → Nat
  | slice _ p => p
  | repeated _ _ p => (p - Width.w64.min).toNat
  | iota w x => (x - w.min).toNat
  | stream _ => 0
  | counted b _ => b.behind
  | moving b => b.behind
  | forwardOnly _ => 0

/-- The kind of cursor has the capability. Whether a distance is known depends on the bound alone. -/
def can : Capability → Cursor α → Bool
  | .sized, _ => false
  | _, stream _ => false
  | .multipass, counted b _ => b.can .multipass
  | .multipass, moving b => b.can .multipass
  | .multipass, _ => true
  | .movable, counted b _ => b.can .movable
  | .movable, moving b => b.can .movable
  | .movable, forwardOnly b => b.can .movable
  | .movable, _ => true
  | .randomAccess, counted b _ => b.can .randomAccess
  | .randomAccess, moving b => b.can .randomAccess
  | .randomAccess, forwardOnly _ => false
  | .randomAccess, _ => true
  | .selfBound, counted .. => false
  | .selfBound, moving b => b.can .selfBound
  | .selfBound, forwardOnly _ => false
  | .selfBound, _ => true
  | .swappable, slice (.stored ..) _ => true
  | .swappable, counted b _ => b.can .swappable
  | .swappable, moving b => b.can .swappable
  | .swappable, forwardOnly b => b.can .swappable
  | .swappable, _ => false
  | .contiguous, slice .. => true
  | .contiguous, counted b _ => b.can .contiguous
  | .contiguous, _ => false

/-- The position in the sequence, and what a counted cursor has left beside it. -/
def location : Cursor α → Location
  | slice _ p => .index p
  | repeated _ _ p => .index p
  | iota _ x => .index x
  | stream s => .index s.position
  | counted b r => .counted b.location r
  | moving b => b.location
  | forwardOnly b => b.location

/-- The cursor at `position`, which may be the end but not beyond. -/
def inSlice (source : Source α) (position : Nat) : Except Fault (Cursor α) :=
  if position ≤ source.length then .ok (slice source position)
  else .error (.outOfBounds position source.length)

/-- The cursor of `n` steps from `base`. -/
def countedFrom (base : Cursor α) (n : Int) : Except Fault (Cursor α) :=
  if 0 ≤ n then .ok (counted base n.toNat) else .error (.negativeRemaining n)

end Cursor

end Waymark
