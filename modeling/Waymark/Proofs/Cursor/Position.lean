import Waymark.Cursor.Order
import Waymark.Cursor.Travel

/-!
# Positions along a cursor

Where a cursor comes to, without asking whether it may go there: `hop n` is the cursor `n` steps
ahead. Steps that succeed lead there (`step_eq_hop`, `stepTimes_eq_hop`), and so does going on at
once by a count that can be stepped, as long as the positions can be written (`advance_eq_hop`).
-/

namespace Waymark

namespace ByteStream

/-- The stream after `n` bytes have been passed, or all of them. -/
def skip : Nat → ByteStream → ByteStream
  | 0, s => s
  | n + 1, s => match s.bump with
    | .ok t => skip n t
    | .error _ => s

theorem skip_of_bump_error {s : ByteStream} {e : Fault} (h : s.bump = .error e) (n : Nat) :
    skip n s = s := by
  cases n with
  | zero => rfl
  | succ n => simp only [skip, h]

theorem skip_add (m n : Nat) (s : ByteStream) : skip (m + n) s = skip n (skip m s) := by
  induction m generalizing s with
  | zero => rw [Nat.zero_add, skip]
  | succ m ih =>
    rw [Nat.add_right_comm, skip, skip]
    cases h : s.bump with
    | ok t => exact ih t
    | error e => exact (skip_of_bump_error h n).symm

end ByteStream

namespace Cursor

variable {α : Type}

/-- The cursor `n` steps ahead, whether or not it can go there. -/
def hop : Cursor α → Nat → Cursor α
  | slice s p, n => slice s (p + n)
  | repeated v x p, n => repeated v x (p + n)
  | iota w x, n => iota w (x + n)
  | stream s, n => stream (s.skip n)
  | counted b r, n => counted (b.hop n) (r - n)
  | moving b, n => moving (b.hop n)
  | forwardOnly b, n => forwardOnly (b.hop n)

/-- The position is one of the sequence, and it and the steps left can be written. -/
def Valid : Cursor α → Prop
  | slice s p => p ≤ s.length ∧ (p : Int) ≤ Width.w64.max
  | repeated _ _ p => Width.w64.Fits p
  | iota w x => w.Fits x
  | stream _ => True
  | counted b r => b.Valid ∧ b.width.Fits r
  | moving b => b.Valid
  | forwardOnly b => b.Valid

@[simp] theorem hop_zero (c : Cursor α) : c.hop 0 = c := by
  induction c with
  | stream s => rfl
  | _ => simp_all [hop]

@[simp] theorem hop_hop (c : Cursor α) (m n : Nat) : (c.hop m).hop n = c.hop (m + n) := by
  induction c with
  | stream s => simp only [hop, ByteStream.skip_add]
  | _ => simp_all [hop] <;> omega

@[simp] theorem width_hop (c : Cursor α) (n : Nat) : (c.hop n).width = c.width := by
  induction c with
  | _ => simp_all [hop, width]

@[simp] theorem category_hop (c : Cursor α) (n : Nat) : (c.hop n).category = c.category := by
  induction c with
  | _ => simp_all [hop, category]

@[simp] theorem can_hop (c : Cursor α) (n : Nat) (cap : Capability) :
    (c.hop n).can cap = c.can cap := by
  induction c with
  | slice s p => cases s <;> cases cap <;> rfl
  | counted b r ih => cases cap <;> first | rfl | exact ih
  | moving b ih => cases cap <;> first | rfl | exact ih
  | forwardOnly b ih => cases cap <;> first | rfl | exact ih
  | _ => cases cap <;> rfl

/-- A step leads to the next position. -/
theorem step_eq_hop {c d : Cursor α} (h : c.step = .ok d) : d = c.hop 1 := by
  induction c generalizing d with
  | slice s p =>
    simp only [step] at h
    split at h <;> cases h
    rfl
  | repeated v x p =>
    obtain ⟨q, hq, e⟩ := bind_eq_ok_iff.1 h
    cases e
    obtain ⟨-, rfl⟩ := Width.add_eq_ok_iff.1 hq
    rfl
  | iota w x =>
    obtain ⟨y, hy, e⟩ := bind_eq_ok_iff.1 h
    cases e
    obtain ⟨-, rfl⟩ := Width.add_eq_ok_iff.1 hy
    rfl
  | stream s =>
    obtain ⟨t, ht, e⟩ := bind_eq_ok_iff.1 h
    cases e
    simp only [hop, ByteStream.skip, ht]
  | counted b r ih =>
    simp only [step] at h
    split at h
    · cases h
    · obtain ⟨t, ht, e⟩ := bind_eq_ok_iff.1 h
      cases e
      rw [ih ht, hop]
  | moving b ih =>
    obtain ⟨t, ht, e⟩ := bind_eq_ok_iff.1 h
    cases e
    rw [ih ht, hop]
  | forwardOnly b ih =>
    obtain ⟨t, ht, e⟩ := bind_eq_ok_iff.1 h
    cases e
    rw [ih ht, hop]

theorem stepTimes_succ_iff {c d : Cursor α} {n : Nat} :
    c.stepTimes (n + 1) = .ok d ↔ c.step = .ok (c.hop 1) ∧ (c.hop 1).stepTimes n = .ok d := by
  rw [stepTimes, bind_eq_ok_iff]
  constructor
  · rintro ⟨t, ht, h⟩
    obtain rfl := step_eq_hop ht
    exact ⟨ht, h⟩
  · rintro ⟨ht, h⟩
    exact ⟨_, ht, h⟩

/-- Steps lead to the position as many steps ahead. -/
theorem stepTimes_eq_hop {n : Nat} {c d : Cursor α} (h : c.stepTimes n = .ok d) : d = c.hop n := by
  induction n generalizing c with
  | zero => cases h; rw [hop_zero]
  | succ n ih =>
    rw [ih (stepTimes_succ_iff.1 h).2, hop_hop, Nat.add_comm]

theorem stepTimes_add {m n : Nat} {c : Cursor α} (h : c.stepTimes m = .ok (c.hop m)) :
    c.stepTimes (m + n) = (c.hop m).stepTimes n := by
  induction m generalizing c with
  | zero => rw [Nat.zero_add, hop_zero]
  | succ m ih =>
    obtain ⟨hs, ht⟩ := stepTimes_succ_iff.1 h
    rw [Nat.add_right_comm, stepTimes, hs]
    refine (ih (c := c.hop 1) ?_).trans ?_
    · rw [ht, hop_hop, Nat.add_comm]
    · rw [hop_hop, Nat.add_comm 1]

/-- One more step can be made from where the steps have led. -/
theorem stepTimes_succ {n : Nat} {c : Cursor α} (h : c.stepTimes n = .ok (c.hop n))
    (hs : (c.hop n).step = .ok ((c.hop n).hop 1)) :
    c.stepTimes (n + 1) = .ok (c.hop (n + 1)) := by
  rw [stepTimes_add h, stepTimes_succ_iff.2 ⟨hs, rfl⟩, hop_hop]

/-- Fewer steps can be made where more can. -/
theorem stepTimes_of_le {m n : Nat} {c : Cursor α} (h : c.stepTimes n = .ok (c.hop n))
    (hmn : m ≤ n) : c.stepTimes m = .ok (c.hop m) := by
  induction m generalizing c n with
  | zero => rw [hop_zero]; rfl
  | succ m ih =>
    obtain ⟨n, rfl⟩ : ∃ k, n = k + 1 := ⟨n - 1, by omega⟩
    obtain ⟨hs, ht⟩ := stepTimes_succ_iff.1 h
    refine stepTimes_succ_iff.2 ⟨hs, ?_⟩
    rw [ih (n := n) (by rw [ht, hop_hop, Nat.add_comm]) (by omega), hop_hop, Nat.add_comm]

/-- From a position on the way the steps that are left can be made. -/
theorem stepTimes_hop {m n : Nat} {c : Cursor α} (h : c.stepTimes (m + n) = .ok (c.hop (m + n))) :
    (c.hop m).stepTimes n = .ok ((c.hop m).hop n) := by
  rw [← stepTimes_add (stepTimes_of_le h (Nat.le_add_right m n)), h, hop_hop]

/-- Two positions go on together, one step each. -/
theorem stepTimes_follow {n : Nat} {c : Cursor α} (h : c.stepTimes n = .ok (c.hop n))
    (hs : (c.hop n).step = .ok ((c.hop n).hop 1)) :
    (c.hop 1).stepTimes n = .ok ((c.hop 1).hop n) := by
  have := stepTimes_succ h hs
  rw [Nat.add_comm] at this
  exact stepTimes_hop this

/-- A counted cursor steps as its base does, while steps are left. -/
theorem stepTimes_counted_iff {b d : Cursor α} {r n : Nat} :
    (counted b r).stepTimes n = .ok d ↔
      n ≤ r ∧ b.stepTimes n = .ok (b.hop n) ∧ d = counted (b.hop n) (r - n) := by
  induction n generalizing b r with
  | zero => simp [stepTimes, eq_comm]
  | succ n ih =>
    rw [stepTimes_succ_iff, stepTimes_succ_iff, hop, ih, hop_hop, Nat.add_comm 1 n, step]
    split
    · simp; omega
    · rw [bind_eq_ok_iff]
      constructor
      · rintro ⟨⟨t, ht, e⟩, hr, hn, rfl⟩
        obtain rfl := step_eq_hop ht
        exact ⟨by omega, ⟨ht, hn⟩, by rw [Nat.sub_sub, Nat.add_comm 1]⟩
      · rintro ⟨hr, ⟨ht, hn⟩, rfl⟩
        exact ⟨⟨_, ht, rfl⟩, by omega, hn, by rw [Nat.sub_sub, Nat.add_comm 1]⟩

/-- A moving cursor makes the steps that its base makes. -/
theorem stepTimes_moving_iff {b d : Cursor α} {n : Nat} :
    (moving b).stepTimes n = .ok (moving d) ↔ b.stepTimes n = .ok d := by
  induction n generalizing b with
  | zero => simp [stepTimes]
  | succ n ih =>
    rw [stepTimes, stepTimes, bind_eq_ok_iff, bind_eq_ok_iff]
    constructor
    · rintro ⟨t, ht, h⟩
      obtain ⟨u, hu, e⟩ := bind_eq_ok_iff.1 ht
      cases e
      exact ⟨u, hu, ih.1 h⟩
    · rintro ⟨t, ht, h⟩
      exact ⟨moving t, by rw [step, ht]; rfl, ih.2 h⟩

/-- Going on at once leads where the steps lead. -/
theorem advance_eq_hop {c : Cursor α} {n : Nat} (hc : c.Valid) (hd : (c.hop n).Valid)
    (h : c.stepTimes n = .ok (c.hop n)) : c.advance n = .ok (c.hop n) := by
  induction c with
  | slice s p =>
    obtain ⟨hl, hm⟩ := hd
    have hq : shifted p n s.length = .ok (p + n) := by
      refine shifted_eq_ok_iff.2 ⟨⟨?_, by simpa using hm⟩, by omega, hl⟩
      have := Width.min_eq .w64
      have := Width.le_max .w64
      omega
    simp only [advance, hq, hop]
    rfl
  | repeated v x p =>
    have hq : Width.w64.add p n = .ok (p + n) := Width.add_eq_ok_iff.2 ⟨hd, rfl⟩
    simp only [advance, hq, hop]
    rfl
  | iota w x =>
    have hq : w.add x n = .ok (x + n) := Width.add_eq_ok_iff.2 ⟨hd, rfl⟩
    simp only [advance, hq, hop]
    rfl
  | stream s => exact (if_neg (by omega)).trans h
  | counted b r ih =>
    obtain ⟨hn, hb, -⟩ := stepTimes_counted_iff.1 h
    have hr : b.width.sub r n = .ok ((r - n : Nat) : Int) := by
      refine Width.sub_eq_ok_iff.2 ⟨by simpa [hop] using hd.2, by omega⟩
    rw [advance, if_pos (by omega), ih hc.1 hd.1 hb]
    show (do return counted (b.hop n) (← b.width.sub r n).toNat) = _
    rw [hr]
    rfl
  | moving b ih =>
    rw [advance, ih hc hd (stepTimes_moving_iff.1 h)]
    rfl
  | forwardOnly b => exact (if_neg (by omega)).trans h

theorem atLeast_upToRandomAccess (k : Category) :
    k.upToRandomAccess.atLeast .bidirectional = k.atLeast .bidirectional := by
  cases k <;> rfl

/-- A step back takes a step back, for the kinds that can. -/
theorem stepBack_of_step {c d : Cursor α} (hb : c.category.atLeast .bidirectional = true)
    (hc : c.Valid) (h : c.step = .ok d) : d.stepBack = .ok c := by
  obtain rfl := step_eq_hop h
  induction c with
  | slice s p =>
    rw [hop, stepBack, if_pos (by omega)]
    rfl
  | repeated v x p =>
    have hq : Width.w64.sub (p + (1 : Nat)) 1 = .ok p :=
      Width.sub_eq_ok_iff.2 ⟨hc, by omega⟩
    rw [hop, stepBack, hq]
    rfl
  | iota w x =>
    have hq : w.sub (x + (1 : Nat)) 1 = .ok x := Width.sub_eq_ok_iff.2 ⟨hc, by omega⟩
    rw [hop, stepBack, hq]
    rfl
  | stream s => cases hb
  | counted b r ih =>
    simp only [step] at h
    split at h
    · cases h
    · rename_i hr
      obtain ⟨t, ht, e⟩ := bind_eq_ok_iff.1 h
      obtain rfl := step_eq_hop ht
      have hq : b.width.add ((r - 1 : Nat) : Int) 1 = .ok (r : Int) :=
        Width.add_eq_ok_iff.2 ⟨hc.2, by omega⟩
      rw [hop, stepBack, ih hb hc.1 ht, width_hop]
      show (do return counted b (← b.width.add ((r - 1 : Nat) : Int) 1).toNat) = _
      rw [hq]
      rfl
  | moving b ih =>
    obtain ⟨t, ht, e⟩ := bind_eq_ok_iff.1 h
    obtain rfl := step_eq_hop ht
    rw [category, atLeast_upToRandomAccess] at hb
    rw [hop, stepBack, ih hb hc ht]
    rfl
  | forwardOnly b => cases hb

/-- A cursor stands where one stands that is no steps ahead. -/
theorem same_hop {c : Cursor α} {n : Nat} (hb : c.category.atLeast .bidirectional = true)
    (h : c.stepTimes n = .ok (c.hop n)) : c.same (c.hop n) = .ok (decide (n = 0)) := by
  induction c with
  | slice s p =>
    have hs : s.same s = true := by cases s <;> simp [Source.same]
    rw [hop, same, if_pos hs, Bool.beq_eq_decide_eq]
    exact congrArg Except.ok (decide_eq_decide.2 (by omega))
  | repeated v x p =>
    rw [hop, same, if_pos rfl, Bool.beq_eq_decide_eq]
    exact congrArg Except.ok (decide_eq_decide.2 (by omega))
  | iota w x =>
    rw [hop, same, Bool.beq_eq_decide_eq]
    exact congrArg Except.ok (decide_eq_decide.2 (by omega))
  | stream s => cases hb
  | counted b r ih =>
    obtain ⟨hn, -⟩ := stepTimes_counted_iff.1 h
    rw [hop, same, Bool.beq_eq_decide_eq]
    exact congrArg Except.ok (decide_eq_decide.2 (by omega))
  | moving b ih =>
    rw [category, atLeast_upToRandomAccess] at hb
    exact ih hb (stepTimes_moving_iff.1 h)
  | forwardOnly b => cases hb

end Cursor

end Waymark
