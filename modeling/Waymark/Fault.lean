/-!
# Faults

Everything that can go wrong while a cursor is moved, read or measured, as a cause that carries its
numbers. `Fault.message` is the one place where a cause is put into words.
-/

namespace Waymark

/-- The operations that take a count of steps and refuse a negative one. -/
inductive Counting where
  | advance
  | advanceBounded
  | partitionPoint
  | equalRange
  deriving DecidableEq, Repr

/-- The word a message uses for a counting operation. -/
def Counting.word : Counting → String
  | .advance => "advance"
  | .advanceBounded => "advance_bounded"
  | .partitionPoint => "partition_point_n"
  | .equalRange => "equal_range_n"

/-- What a kind of cursor, or the bound beside it, may be able to do beyond stepping and reading. -/
inductive Capability where
  /-- Copies may be walked independently and compared for equality. -/
  | multipass
  /-- Moves by any distance in either direction and is ordered. -/
  | randomAccess
  /-- A cursor of the kind serves as the bound of another one. -/
  | selfBound
  /-- The bound tells the distance in one operation. -/
  | sized
  /-- Elements can be moved out. -/
  | movable
  /-- Elements can be exchanged. -/
  | swappable
  /-- The elements lie side by side, so that two cursors have a difference of places. -/
  | contiguous
  deriving DecidableEq, Repr

/-- The causes of failure. -/
inductive Fault where
  | addOverflow
  | subOverflow
  | negativeCount (operation : Counting)
  | negativeHalf
  | negativeIndex
  | indexTooWide
  | outOfBounds (position length : Nat)
  | readPastSlice (length : Nat)
  | accessPastSlice (length : Nat)
  | stepPastSlice
  | stepBeforeSlice
  | movedOutside (position : Nat) (offset : Int) (length : Nat)
  | differentSlices
  | differentViews
  | negativeRemaining (count : Int)
  | stepPastCount
  | advancePastCount
  | jumpPastCount
  | stepPastStream
  | readPastStream (position : Nat)
  | boundBehind
  | negativeShortfall
  | repeatTooLong (count : Nat)
  | reversedBounds (start stop : Int)
  | lacking (capability : Capability)
  | mismatched
  deriving DecidableEq, Repr

/-- The words for a cause. -/
def Fault.message : Fault → String
  | .addOverflow => "attempt to add with overflow"
  | .subOverflow => "attempt to subtract with overflow"
  | .negativeCount op => "called `" ++ op.word ++ "` with a negative count"
  | .negativeHalf => "called `half` on a negative distance"
  | .negativeIndex => "called `to_index` on a negative distance"
  | .indexTooWide => "index does not fit into the distance type"
  | .outOfBounds p n => s!"cursor position {p} out of bounds for a slice of length {n}"
  | .readPastSlice n => s!"read past the end of a slice of length {n}"
  | .accessPastSlice n => s!"accessed past the end of a slice of length {n}"
  | .stepPastSlice => "stepped past the end of a slice"
  | .stepBeforeSlice => "stepped before the start of a slice"
  | .movedOutside p d n => s!"cursor moved outside of its slice: {p} + {d} not in [0, {n}]"
  | .differentSlices => "cursors belong to different slices"
  | .differentViews => "cursors belong to different views"
  | .negativeRemaining n => s!"a counted cursor needs a non-negative count, got {n}"
  | .stepPastCount => "stepped past the end of a counted sequence"
  | .advancePastCount => "advanced past the end of a counted sequence"
  | .jumpPastCount => "jumped past the end of a counted sequence"
  | .stepPastStream => "stepped past the end of a byte stream"
  | .readPastStream p => s!"read past the end of a byte stream at position {p}"
  | .boundBehind => "sentinel lies before the cursor"
  | .negativeShortfall => "assertion failed: missing >= zero"
  | .repeatTooLong n => s!"repeat count {n} exceeds isize::MAX"
  | .reversedBounds a b => s!"invalid iota bounds: {a} > {b}"
  | .lacking _ => "the cursor cannot do this"
  | .mismatched => "cursors of different kinds have no common order"

/-- A sequence of two actions succeeds if the first one does and the second one does from there. -/
theorem bind_eq_ok_iff {ε β γ : Type} {x : Except ε β} {f : β → Except ε γ} {c : γ} :
    x >>= f = .ok c ↔ ∃ b, x = .ok b ∧ f b = .ok c := by
  cases x with
  | error e => simp [bind, Except.bind]
  | ok b => simp [bind, Except.bind]

end Waymark
