import Waymark.Cursor.Basic

/-!
# Bounds

A bound says where a walk ends. Any cursor over a sequence of its own can serve as one, and then it
only compares positions, whichever sequence the other cursor stands on. Some bounds also tell how
far it is to them.
-/

namespace Waymark

/-- Where a walk ends. A reference to a bound is that bound: it asks it everything it is asked. -/
inductive Bound (α : Type) where
  /-- At the position of a cursor. -/
  | cursor (c : Cursor α)
  /-- Nowhere. -/
  | unreachable
  /-- Where nothing is left to count. -/
  | countEnd
  /-- Where the stream ends. -/
  | endOfStream
  /-- For moving cursors, where the bound for the cursors under them is. -/
  | moving (base : Bound α)
  /-- For forward cursors, where the bound for the cursors under them is; it does not know how far. -/
  | forwardOnly (base : Bound α)

namespace Bound

variable {α : Type}

/-- The cursor has reached the bound. -/
def isEnd : Bound α → Cursor α → Bool
  | cursor (.slice _ p), .slice _ q => p == q
  | cursor (.repeated _ _ p), .repeated _ _ q => p == q
  | cursor (.iota _ x), .iota _ y => x == y
  | cursor (.moving b), .moving c => isEnd (cursor b) c
  | countEnd, .counted _ r => r == 0
  | endOfStream, .stream s => s.exhausted
  | moving b, .moving c => b.isEnd c
  | forwardOnly b, .forwardOnly c => b.isEnd c
  | _, _ => false

/-- The number of steps from the cursor to the bound, for a bound that tells it. Positions in a slice
are taken for distances, as in `shifted`. -/
def measure : Bound α → Cursor α → Except Fault (Option Int)
  | cursor (.slice _ p), .slice _ q => some <$> Width.w64.sub p q
  | cursor (.repeated _ _ p), .repeated _ _ q => some <$> Width.w64.sub p q
  | cursor (.iota w x), .iota _ y => some <$> w.sub x y
  | cursor (.moving b), .moving c => measure (cursor b) c
  | countEnd, .counted _ r => .ok (some r)
  | moving b, .moving c => b.measure c
  | _, _ => .ok none

/-- The bound tells distances. -/
def sized : Bound α → Bool
  | cursor _ => true
  | unreachable => false
  | countEnd => true
  | endOfStream => false
  | moving b => b.sized
  | forwardOnly _ => false

end Bound

end Waymark
