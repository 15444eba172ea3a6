import Waymark.Cursor.Basic

/-!
# Moving a cursor

A step goes to the next element, `advance` and `jump` go several at once. Slices do not let a cursor
leave them, integers and repeated views end where the width does, a counted cursor ends with its
count. Steps forward use up `ahead` (`step_ahead`) and steps back use up `behind`
(`stepBack_behind`), which bounds every loop over a cursor.
-/

namespace Waymark

/-- The position `n` away from `p` in a slice of length `length`. Positions are distances as they are:
elements that take up space are never more than distances can tell, so only slices of empty values
have positions beyond, and those are left out here. -/
def shifted (p : Nat) (n : Int) (length : Nat) : Except Fault Nat := do
  let target ← Width.w64.add p n
  if 0 ≤ target ∧ target ≤ length then return target.toNat
  else throw (.movedOutside p n length)

namespace Cursor

variable {α : Type}

/-- Goes to the next element. -/
def step : Cursor α → Except Fault (Cursor α)
  | slice s p => if p < s.length then .ok (slice s (p + 1)) else .error .stepPastSlice
  | repeated v x p => return repeated v x (← Width.w64.add p 1)
  | iota w x => return iota w (← w.add x 1)
  | stream s => return stream (← s.bump)
  | counted b r =>
    if r = 0 then .error .stepPastCount else return counted (← b.step) (r - 1)
  | moving b => return moving (← b.step)
  | forwardOnly b => return forwardOnly (← b.step)

/-- Steps `n` times. -/
def stepTimes : Nat → Cursor α → Except Fault (Cursor α)
  | 0, c => .ok c
  | n + 1, c => do stepTimes n (← c.step)

/-- Goes `n` elements further: at once where the kind of cursor can, else step by step. -/
def advance : Cursor α → Int → Except Fault (Cursor α)
  | slice s p, n => return slice s (← shifted p n s.length)
  | repeated v x p, n => return repeated v x (← Width.w64.add p n)
  | iota w x, n => return iota w (← w.add x n)
  | counted b r, n =>
    if n ≤ r then do
      let moved ← b.advance n
      return counted moved (← b.width.sub r n).toNat
    else .error .advancePastCount
  | moving b, n => return moving (← b.advance n)
  | c, n => if n < 0 then .error (.negativeCount .advance) else c.stepTimes n.toNat

/-- Goes to the element before. -/
def stepBack : Cursor α → Except Fault (Cursor α)
  | slice s p => if 0 < p then .ok (slice s (p - 1)) else .error .stepBeforeSlice
  | repeated v x p => return repeated v x (← Width.w64.sub p 1)
  | iota w x => return iota w (← w.sub x 1)
  | counted b r => do
    let moved ← b.stepBack
    return counted moved (← b.width.add r 1).toNat
  | moving b => return moving (← b.stepBack)
  | _ => .error (.lacking .randomAccess)

/-- Goes `n` elements further, or back if `n` is negative. -/
def jump : Cursor α → Int → Except Fault (Cursor α)
  | slice s p, n => return slice s (← shifted p n s.length)
  | repeated v x p, n => return repeated v x (← Width.w64.add p n)
  | iota w x, n => return iota w (← w.add x n)
  | counted b r, n =>
    if n ≤ r then do
      let moved ← b.jump n
      return counted moved (← b.width.sub r n).toNat
    else .error .jumpPastCount
  | moving b, n => return moving (← b.jump n)
  | _, _ => .error (.lacking .randomAccess)

/-- A step forward uses up some of what is ahead. -/
theorem step_ahead {c d : Cursor α} (h : c.step = .ok d) : d.ahead < c.ahead := by
  induction c generalizing d with
  | slice s p =>
    simp only [step] at h
    split at h <;> cases h
    simp only [ahead]
    omega
  | repeated v x p =>
    obtain ⟨q, hq, e⟩ := bind_eq_ok_iff.1 h
    cases e
    obtain ⟨⟨_, _⟩, rfl⟩ := Width.add_eq_ok_iff.1 hq
    simp only [ahead]
    omega
  | iota w x =>
    obtain ⟨y, hy, e⟩ := bind_eq_ok_iff.1 h
    cases e
    obtain ⟨⟨_, _⟩, rfl⟩ := Width.add_eq_ok_iff.1 hy
    simp only [ahead]
    omega
  | stream s =>
    obtain ⟨t, ht, e⟩ := bind_eq_ok_iff.1 h
    cases e
    simp only [ahead, ByteStream.bump_unread ht]
    omega
  | counted b r ih =>
    simp only [step] at h
    split at h
    · cases h
    · obtain ⟨t, ht, e⟩ := bind_eq_ok_iff.1 h
      cases e
      exact @ih t ht
  | moving b ih =>
    obtain ⟨t, ht, e⟩ := bind_eq_ok_iff.1 h
    cases e
    exact @ih t ht
  | forwardOnly b ih =>
    obtain ⟨t, ht, e⟩ := bind_eq_ok_iff.1 h
    cases e
    exact @ih t ht

theorem stepTimes_ahead_le {n : Nat} {c d : Cursor α} (h : c.stepTimes n = .ok d) :
    d.ahead ≤ c.ahead := by
  induction n generalizing c with
  | zero => cases h; exact Nat.le_refl _
  | succ n ih =>
    obtain ⟨t, ht, h⟩ := bind_eq_ok_iff.1 h
    exact Nat.le_trans (ih h) (Nat.le_of_lt (step_ahead ht))

theorem shifted_eq_ok_iff {p q length : Nat} {n : Int} :
    shifted p n length = .ok q ↔ Width.w64.Fits (p + n) ∧ (q : Int) = p + n ∧ q ≤ length := by
  unfold shifted
  rw [bind_eq_ok_iff]
  simp only [Width.add_eq_ok_iff]
  constructor
  · rintro ⟨_, ⟨hf, rfl⟩, h⟩
    split at h
    · cases h
      exact ⟨hf, by omega, by omega⟩
    · cases h
  · rintro ⟨hf, hq, hl⟩
    refine ⟨_, ⟨hf, rfl⟩, ?_⟩
    simp [← hq, hl, pure, Except.pure]

/-- Going on by a count that is not negative leaves no more ahead than before. -/
theorem advance_ahead_le {c d : Cursor α} {n : Int} (hn : 0 ≤ n) (h : c.advance n = .ok d) :
    d.ahead ≤ c.ahead := by
  induction c generalizing d with
  | slice s p =>
    obtain ⟨q, hq, e⟩ := bind_eq_ok_iff.1 h
    cases e
    have := shifted_eq_ok_iff.1 hq
    simp only [ahead]
    omega
  | repeated v x p =>
    obtain ⟨q, hq, e⟩ := bind_eq_ok_iff.1 h
    cases e
    obtain ⟨-, rfl⟩ := Width.add_eq_ok_iff.1 hq
    simp only [ahead]
    omega
  | iota w x =>
    obtain ⟨y, hy, e⟩ := bind_eq_ok_iff.1 h
    cases e
    obtain ⟨-, rfl⟩ := Width.add_eq_ok_iff.1 hy
    simp only [ahead]
    omega
  | counted b r ih =>
    simp only [advance] at h
    split at h
    · obtain ⟨t, ht, h⟩ := bind_eq_ok_iff.1 h
      obtain ⟨_, _, e⟩ := bind_eq_ok_iff.1 h
      cases e
      exact @ih t ht
    · cases h
  | moving b ih =>
    obtain ⟨t, ht, e⟩ := bind_eq_ok_iff.1 h
    cases e
    exact @ih t ht
  | stream s =>
    simp only [advance] at h
    split at h
    · cases h
    · exact stepTimes_ahead_le h
  | forwardOnly b =>
    simp only [advance] at h
    split at h
    · cases h
    · exact stepTimes_ahead_le h

/-- A step back uses up some of what is behind. -/
theorem stepBack_behind {c d : Cursor α} (h : c.stepBack = .ok d) : d.behind < c.behind := by
  induction c generalizing d with
  | slice s p =>
    simp only [stepBack] at h
    split at h <;> cases h
    simp only [behind]
    omega
  | repeated v x p =>
    obtain ⟨q, hq, e⟩ := bind_eq_ok_iff.1 h
    cases e
    obtain ⟨⟨_, _⟩, rfl⟩ := Width.sub_eq_ok_iff.1 hq
    simp only [behind]
    omega
  | iota w x =>
    obtain ⟨y, hy, e⟩ := bind_eq_ok_iff.1 h
    cases e
    obtain ⟨⟨_, _⟩, rfl⟩ := Width.sub_eq_ok_iff.1 hy
    simp only [behind]
    omega
  | counted b r ih =>
    obtain ⟨t, ht, h⟩ := bind_eq_ok_iff.1 h
    obtain ⟨_, _, e⟩ := bind_eq_ok_iff.1 h
    cases e
    exact @ih t ht
  | moving b ih =>
    obtain ⟨t, ht, e⟩ := bind_eq_ok_iff.1 h
    cases e
    exact @ih t ht
  | stream s => cases h
  | forwardOnly b => cases h

end Cursor

end Waymark
