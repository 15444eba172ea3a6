/-!
# Categories

The five levels of what a cursor promises. Each level includes the ones below it, so that levels
compare by rank.
-/

namespace Waymark

/-- How freely a cursor moves. -/
inductive Category where
  /-- The elements pass by once. -/
  | singlePass
  /-- Copies of the cursor can be kept and walked again. -/
  | forward
  /-- Steps back as well. -/
  | bidirectional
  /-- Moves by any distance at once. -/
  | randomAccess
  /-- The elements lie side by side. -/
  | contiguous
  deriving DecidableEq, Repr

namespace Category

/-- The level, counted from zero. -/
def rank : Category → Nat
  | singlePass => 0
  | forward => 1
  | bidirectional => 2
  | randomAccess => 3
  | contiguous => 4

def name : Category → String
  | singlePass => "SinglePass"
  | forward => "Forward"
  | bidirectional => "Bidirectional"
  | randomAccess => "RandomAccess"
  | contiguous => "Contiguous"

instance : ToString Category := ⟨name⟩

/-- The category without the promise that elements lie side by side. -/
def upToRandomAccess : Category → Category
  | contiguous => randomAccess
  | c => c

/-- `a.atLeast b`: what needs the category `b` may be done with `a`. -/
def atLeast (a b : Category) : Bool := decide (b.rank ≤ a.rank)

end Category

end Waymark
