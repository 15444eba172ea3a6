import Waymark.Cursor.Travel
import Waymark.Bound

/-!
# Going to a bound

Going towards a bound, going all the way and counting the way. A bound that tells the distance is
reached at once, any other one step by step; both give the same answer wherever the distance told is
the number of steps.
-/

namespace Waymark.Bound

variable {α : Type}

/-- Steps at most `n` times, and never past the bound. Also returns the steps not taken. -/
def stepTowards (b : Bound α) : Nat → Cursor α → Except Fault (Nat × Cursor α)
  | 0, c => .ok (0, c)
  | n + 1, c => if b.isEnd c then .ok (n + 1, c) else do b.stepTowards n (← c.step)

/-- Goes `n` elements further, or to the bound if that is nearer. Also returns the number of
elements by which it fell short. -/
def advance (b : Bound α) (c : Cursor α) (n : Int) : Except Fault (Int × Cursor α) :=
  if n < 0 then .error (.negativeCount .advanceBounded)
  else do
    match ← b.measure c with
    | some available =>
      if available < 0 then .error .boundBehind
      else if available ≤ n then do
        let d ← c.advance available
        return (← c.width.workedOut n (n - available) .subOverflow, d)
      else return (0, ← c.advance n)
    | none =>
      let (short, d) ← b.stepTowards n.toNat c
      return (short, d)

theorem stepTowards_ahead_le {b : Bound α} {n m : Nat} {c d : Cursor α}
    (h : b.stepTowards n c = .ok (m, d)) : d.ahead ≤ c.ahead := by
  induction n generalizing c with
  | zero => cases h; exact Nat.le_refl _
  | succ n ih =>
    simp only [stepTowards] at h
    split at h
    · cases h; exact Nat.le_refl _
    · obtain ⟨t, ht, h⟩ := bind_eq_ok_iff.1 h
      exact Nat.le_trans (ih h) (Nat.le_of_lt (Cursor.step_ahead ht))

/-- Going towards a bound leaves no more ahead than before. -/
theorem advance_ahead_le {b : Bound α} {c d : Cursor α} {n m : Int}
    (h : b.advance c n = .ok (m, d)) : d.ahead ≤ c.ahead := by
  unfold advance at h
  split at h
  · cases h
  · next hn =>
    obtain ⟨x, -, h⟩ := bind_eq_ok_iff.1 h
    split at h
    · next available =>
      split at h
      · cases h
      · split at h
        · obtain ⟨t, ht, h⟩ := bind_eq_ok_iff.1 h
          obtain ⟨_, -, e⟩ := bind_eq_ok_iff.1 h
          cases e
          exact Cursor.advance_ahead_le (by omega) ht
        · obtain ⟨t, ht, e⟩ := bind_eq_ok_iff.1 h
          cases e
          exact Cursor.advance_ahead_le (by omega) ht
    · obtain ⟨t, ht, e⟩ := bind_eq_ok_iff.1 h
      cases e
      exact stepTowards_ahead_le ht

/-- Steps to the bound. -/
def stepAll (b : Bound α) (c : Cursor α) : Except Fault (Cursor α) :=
  if b.isEnd c then .ok c
  else match _h : c.step with
    | .error e => .error e
    | .ok d => b.stepAll d
termination_by c.ahead
decreasing_by exact Cursor.step_ahead _h

/-- Goes to the bound. -/
def reach (b : Bound α) (c : Cursor α) : Except Fault (Cursor α) := do
  match ← b.measure c with
  | some available => c.advance available
  | none => b.stepAll c

/-- Steps to the bound and counts the steps on from `n`. -/
def countSteps (b : Bound α) (n : Int) (c : Cursor α) : Except Fault (Int × Cursor α) :=
  if b.isEnd c then .ok (n, c)
  else match _h : c.step with
    | .error e => .error e
    | .ok d => do b.countSteps (← c.width.add n 1) d
termination_by c.ahead
decreasing_by exact Cursor.step_ahead _h

/-- The number of elements from the cursor to the bound. Also returns the cursor, which has moved to
the bound if the elements had to be counted. -/
def distance (b : Bound α) (c : Cursor α) : Except Fault (Int × Cursor α) := do
  match ← b.measure c with
  | some n => return (n, c)
  | none => b.countSteps 0 c

end Waymark.Bound
