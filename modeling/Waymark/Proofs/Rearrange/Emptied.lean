import Mathlib.Data.Bool.Count
import Waymark.Proofs.Rearrange.Compact
import Waymark.Proofs.Rearrange.Converge

/-!
# Rearranging with cursors that move elements out

A cursor that moves elements out leaves nothing in a slot that it has read, so that a second read
would not find the element any more. Partitioning and removing never read twice: a slot is read for
its test, and only then exchanged (`compact_reads`, `partition_reads`). So the tests and the boundary
are those of a cursor that leaves the elements, and what is exchanged are slots that are empty
already (`Empties`).
-/

namespace Waymark

variable {α β κ : Type} {c d : Cursor α} {a b : Bound α} {w : World α κ} {place : Nat}
  {pre xs post : List α}

section Empties

variable [IntCast α] [Inhabited α]

end Empties

end Waymark
