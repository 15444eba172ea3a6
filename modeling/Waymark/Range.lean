import Waymark.Cursor.Order
import Waymark.Cursor.Text
import Waymark.Bound

/-!
# Ranges

A range is a cursor with a bound. How many elements it has is told by its bound, unless the range
knows better or keeps it to itself. A dangling offset is what remains of a position when the
sequence under it is gone.
-/

namespace Waymark

/-- Who tells the number of elements of a range. -/
inductive Extent where
  /-- The bound, if it can. -/
  | ofBound
  /-- Nobody. -/
  | unknown
  /-- The range itself. -/
  | known (size : Int)
  deriving DecidableEq, Repr

/-- A cursor with a bound. A reference to a range is that range. So are the containers that hold their
elements side by side, whether their length is fixed or grows: each is the range of the slice of its
elements (`ofSource`), to which it passes on what it is asked. -/
structure Range (α : Type) where
  first : Cursor α
  last : Bound α
  extent : Extent

namespace Range

variable {α : Type}

/-- The elements from one cursor to a bound. -/
def of (first : Cursor α) (last : Bound α) : Range α := ⟨first, last, .ofBound⟩

/-- The elements between two cursors. -/
def between (first last : Cursor α) : Range α := .of first (.cursor last)

/-- The elements between two cursors, if they come in this order. -/
def ordered? (first last : Cursor α) : Except Fault (Option (Range α)) := do
  match ← first.order last with
  | .gt => return none
  | _ => return some (between first last)

/-- All elements of a source, which knows how many they are. -/
def ofSource (s : Source α) : Range α :=
  ⟨.slice s 0, .cursor (.slice s s.length), .known s.length⟩

/-- The elements of a list that nothing else refers to. -/
def ofList (xs : List α) : Range α := ofSource (.shared 0 xs)

/-- The number of elements, if someone tells it. -/
def measure (r : Range α) : Except Fault (Option Int) :=
  match r.extent with
  | .ofBound => r.last.measure r.first
  | .unknown => .ok none
  | .known n => .ok (some n)

/-- The index of a position in the range. -/
def indexOf (r : Range α) (c : Cursor α) : Except Fault Nat := do
  Width.toIndex (← c.offsetFrom r.first)

def isEmpty (r : Range α) : Bool := r.last.isEnd r.first

end Range

/-- The text that shows a range, from the texts of its ends. -/
def rangeText (first last : String) : String :=
  recordText "Range" [("first", first), ("last", last)]

/-- The offset of a position whose sequence is gone. -/
structure Dangling where
  offset : Int
  deriving DecidableEq, Repr

namespace Dangling

variable {α : Type}

/-- The offset of a position from an origin. -/
def between (origin position : Cursor α) : Except Fault Dangling :=
  return ⟨← position.offsetFrom origin⟩

def display (d : Dangling) : String := s!"dangling@{d.offset}"

def text (d : Dangling) : String := recordText "Dangling" [("offset", toString d.offset)]

/-- Offsets are ordered as the positions they stand for. -/
def order (a b : Dangling) : Ordering := compare a.offset b.offset

end Dangling

/-- The integers of a width from `start` to before `stop`. -/
def iotaRange {α : Type} (w : Width) (start stop : Int) : Except Fault (Range α) :=
  if start ≤ stop then .ok (.between (.iota w start) (.iota w stop))
  else .error (.reversedBounds start stop)

/-- A value that is shown `count` times. -/
structure Repeat (α : Type) where
  value : α
  count : Nat

namespace Repeat

variable {α : Type}

/-- The count has to be a distance. -/
def ofCount (value : α) (count : Nat) : Except Fault (Repeat α) :=
  if (count : Int) ≤ Width.w64.max then .ok ⟨value, count⟩ else .error (.repeatTooLong count)

/-- Before the first one, as seen in a view. -/
def first (r : Repeat α) (view : Nat) : Cursor α := .repeated view r.value 0

/-- After the last one, as seen in a view. -/
def last (r : Repeat α) (view : Nat) : Cursor α := .repeated view r.value r.count

/-- The repetition as a range that knows its size. -/
def range (r : Repeat α) (view : Nat) : Range α :=
  ⟨r.first view, .cursor (r.last view), .known r.count⟩

/-- The same value as often. -/
protected def beq [BEq α] (r s : Repeat α) : Bool := r.value == s.value && r.count == s.count

instance [BEq α] : BEq (Repeat α) := ⟨Repeat.beq⟩

end Repeat

end Waymark
