import Waymark.Fault

/-!
# What an algorithm may change

Algorithms act on a world: the sequences that are stored in it, and the state of the callables they
are given. A run either returns a value or stops at a fault, and in both cases leaves a world behind.
-/

namespace Waymark

/-- The stored sequences and the state of the callables. -/
structure World (α κ : Type) where
  store : List (List α)
  calls : κ

namespace World

variable {α κ : Type}

/-- The element in a slot of a stored sequence. -/
def slot? (w : World α κ) (place position : Nat) : Option α :=
  w.store[place]?.bind (·[position]?)

/-- Puts an element into a slot. -/
def put (w : World α κ) (place position : Nat) (x : α) : World α κ :=
  { w with store := w.store.modify place (·.set position x) }

/-- The stored sequence at a place. -/
def sequence (w : World α κ) (place : Nat) : List α := w.store[place]?.getD []

end World

/-- An action on the world that may stop at a fault. -/
abbrev Run (α κ : Type) := EStateM Fault (World α κ)

namespace Run

variable {α κ β : Type}

/-- A computation that leaves the world alone. -/
def ofExcept : Except Fault β → Run α κ β
  | .ok b => pure b
  | .error e => throw e

/-- A call, which changes the state of the callables alone. -/
def ofCall (f : StateM κ β) : Run α κ β := fun w =>
  let r := f.run w.calls
  .ok r.1 { w with calls := r.2 }

/-- Stores a list at a place of its own while `act` works on it there. Also returns what has become
of the list. -/
def withList (xs : List α) (act : Nat → Run α κ β) : Run α κ (β × List α) := do
  let place := (← get).store.length
  modify fun w => { w with store := w.store ++ [xs] }
  let b ← act place
  let ys := (← get).sequence place
  modify fun w => { w with store := w.store.take place }
  return (b, ys)

instance : MonadLift (Except Fault) (Run α κ) := ⟨ofExcept⟩

instance : MonadLift (StateM κ) (Run α κ) := ⟨ofCall⟩

end Run

end Waymark
