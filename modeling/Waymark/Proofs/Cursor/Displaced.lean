import Waymark.Bound
import Waymark.Cursor.Order
import Waymark.Proofs.Cursor.Position

/-!
# How far apart two cursors stand

`Displaced n c d`: the two cursors are alike but for their positions, and `d` is `n` positions further
than `c`, or before it if `n` is negative. A count shrinks by what its base goes on.

Every move displaces a cursor by what it says, whatever is wrapped around it (`displaced_step`,
`displaced_stepBack`, `displaced_advance`, `displaced_jump`), and displacements add up (`trans`). What
two cursors can be asked about each other depends on the displacement alone: whether they are the
`same`, their `order`, the `offsetFrom` one to the other, and what one of them tells as a bound of the
other (`isEnd`, `measure`).
-/

namespace Waymark

/-- The position in the sequence, whatever is left to count. -/
def Location.position : Location → Int
  | index p => p
  | counted b _ => b.position

namespace Width

/-- A difference is all that matters of two distances. -/
theorem sub_eq_sub {w : Width} {a b c d : Int} (h : a - b = c - d) : w.sub a b = w.sub c d := by
  rw [sub, sub, h]

theorem sub_zero_eq_ok {w : Width} {n : Int} (h : w.Fits n) : w.sub n 0 = .ok n :=
  sub_eq_ok_iff.2 ⟨h, (Int.sub_zero n).symm⟩

end Width

theorem compare_eq_compare_zero {a b n : Int} (h : a = b + n) : compare a b = compare n 0 := by
  have hlt : a < b ↔ n < 0 := by omega
  have heq : a = b ↔ n = 0 := by omega
  simp only [compare, compareOfLessAndEq, hlt, heq]

theorem compare_natCast (p q : Nat) : compare p q = compare (p : Int) (q : Int) := by
  simp only [compare, compareOfLessAndEq, Int.ofNat_lt, Int.natCast_inj]

namespace Cursor

variable {α : Type} {c d e : Cursor α} {m n : Int}

/-- The second cursor is `n` positions further than the first one, and otherwise the same. -/
inductive Displaced (n : Int) : Cursor α → Cursor α → Prop where
  | slice {s : Source α} {p q : Nat} (h : (q : Int) = p + n) : Displaced n (.slice s p) (.slice s q)
  | repeated {v : Nat} {x : α} {p q : Int} (h : q = p + n) :
    Displaced n (.repeated v x p) (.repeated v x q)
  | iota {w : Width} {x y : Int} (h : y = x + n) : Displaced n (.iota w x) (.iota w y)
  | stream {s t : ByteStream} (h : (t.position : Int) = s.position + n) :
    Displaced n (.stream s) (.stream t)
  | counted {b c : Cursor α} {r t : Nat} (base : Displaced n b c) (h : (t : Int) = r - n) :
    Displaced n (.counted b r) (.counted c t)
  | moving {b c : Cursor α} (base : Displaced n b c) : Displaced n (.moving b) (.moving c)
  | forwardOnly {b c : Cursor α} (base : Displaced n b c) :
    Displaced n (.forwardOnly b) (.forwardOnly c)

/-- No stream is under the cursor, so that it can be copied and walked again. -/
def copyable : Cursor α → Bool
  | stream _ => false
  | counted b _ => b.copyable
  | moving b => b.copyable
  | forwardOnly b => b.copyable
  | _ => true

/-- The sequence under the cursor. -/
def source? : Cursor α → Option (Source α)
  | slice s _ => some s
  | counted b _ => b.source?
  | moving b => b.source?
  | forwardOnly b => b.source?
  | _ => none

namespace Displaced

theorem refl (c : Cursor α) : Displaced 0 c c := by
  induction c with
  | slice s p => exact .slice (by omega)
  | repeated v x p => exact .repeated (by omega)
  | iota w x => exact .iota (by omega)
  | stream s => exact .stream (by omega)
  | counted b r ih => exact .counted ih (by omega)
  | moving b ih => exact .moving ih
  | forwardOnly b ih => exact .forwardOnly ih

theorem symm (h : Displaced n c d) : Displaced (-n) d c := by
  induction h with
  | slice h => exact .slice (by omega)
  | repeated h => exact .repeated (by omega)
  | iota h => exact .iota (by omega)
  | stream h => exact .stream (by omega)
  | counted _ h ih => exact .counted ih (by omega)
  | moving _ ih => exact .moving ih
  | forwardOnly _ ih => exact .forwardOnly ih

theorem trans (h : Displaced m c d) (h' : Displaced n d e) : Displaced (m + n) c e := by
  induction h generalizing e with
  | slice h => cases h' with | slice h' => exact .slice (by omega)
  | repeated h => cases h' with | repeated h' => exact .repeated (by omega)
  | iota h => cases h' with | iota h' => exact .iota (by omega)
  | stream h => cases h' with | stream h' => exact .stream (by omega)
  | counted _ h ih => cases h' with | counted base h' => exact .counted (ih base) (by omega)
  | moving _ ih => cases h' with | moving base => exact .moving (ih base)
  | forwardOnly _ ih => cases h' with | forwardOnly base => exact .forwardOnly (ih base)

/-- Displacements from one cursor differ by what its displaced cursors are apart. -/
theorem between (h : Displaced m c d) (h' : Displaced n c e) : Displaced (n - m) d e := by
  have := h.symm.trans h'
  rwa [Int.add_comm, ← Int.sub_eq_add_neg] at this

theorem position (h : Displaced n c d) : d.location.position = c.location.position + n := by
  induction h with
  | slice h => exact h
  | repeated h => exact h
  | iota h => exact h
  | stream h => exact h
  | counted _ _ ih => exact ih
  | moving _ ih => exact ih
  | forwardOnly _ ih => exact ih

theorem width (h : Displaced n c d) : d.width = c.width := by
  induction h with
  | counted _ _ ih => exact ih
  | moving _ ih => exact ih
  | forwardOnly _ ih => exact ih
  | _ => rfl

theorem source? (h : Displaced n c d) : d.source? = c.source? := by
  induction h with
  | counted _ _ ih => exact ih
  | moving _ ih => exact ih
  | forwardOnly _ ih => exact ih
  | _ => rfl

theorem can (h : Displaced n c d) (k : Capability) : d.can k = c.can k := by
  induction h with
  | @slice s => cases s <;> cases k <;> rfl
  | counted _ _ ih => cases k <;> first | rfl | exact ih
  | moving _ ih => cases k <;> first | rfl | exact ih
  | forwardOnly _ ih => cases k <;> first | rfl | exact ih
  | _ => cases k <;> rfl

end Displaced

end Cursor

namespace ByteStream

theorem position_serve (p : Nat) (events : List Event) : (serve p events).position = p := by
  induction events with
  | nil => rfl
  | cons e events ih =>
    cases e with
    | chunk bytes => rfl
    | failure e =>
      rw [serve]
      split
      · exact ih
      · rfl

theorem position_bump {s t : ByteStream} (h : s.bump = .ok t) : t.position = s.position + 1 := by
  unfold bump at h
  split at h
  · cases h
  · cases h
    exact position_serve _ _
  · cases h
    rfl

end ByteStream

namespace Cursor

variable {α : Type} {c d : Cursor α} {n : Int}

theorem displaced_step (h : c.step = .ok d) : Displaced 1 c d := by
  induction c generalizing d with
  | slice s p =>
    simp only [step] at h
    split at h <;> cases h
    exact .slice (by omega)
  | repeated v x p =>
    obtain ⟨q, hq, e⟩ := bind_eq_ok_iff.1 h
    cases e
    exact .repeated (Width.add_eq_ok_iff.1 hq).2
  | iota w x =>
    obtain ⟨y, hy, e⟩ := bind_eq_ok_iff.1 h
    cases e
    exact .iota (Width.add_eq_ok_iff.1 hy).2
  | stream s =>
    obtain ⟨t, ht, e⟩ := bind_eq_ok_iff.1 h
    cases e
    exact .stream (by rw [ByteStream.position_bump ht]; omega)
  | counted b r ih =>
    simp only [step] at h
    split at h
    · cases h
    · obtain ⟨t, ht, e⟩ := bind_eq_ok_iff.1 h
      cases e
      exact .counted (ih ht) (by omega)
  | moving b ih =>
    obtain ⟨t, ht, e⟩ := bind_eq_ok_iff.1 h
    cases e
    exact .moving (ih ht)
  | forwardOnly b ih =>
    obtain ⟨t, ht, e⟩ := bind_eq_ok_iff.1 h
    cases e
    exact .forwardOnly (ih ht)

theorem displaced_stepTimes {n : Nat} {c d : Cursor α} (h : c.stepTimes n = .ok d) :
    Displaced n c d := by
  induction n generalizing c with
  | zero =>
    cases h
    exact .refl _
  | succ n ih =>
    obtain ⟨t, ht, h⟩ := bind_eq_ok_iff.1 h
    have := (displaced_step ht).trans (ih h)
    rwa [Int.add_comm 1] at this

theorem displaced_stepBack (h : c.stepBack = .ok d) : Displaced (-1) c d := by
  induction c generalizing d with
  | slice s p =>
    simp only [stepBack] at h
    split at h <;> cases h
    exact .slice (by omega)
  | repeated v x p =>
    obtain ⟨q, hq, e⟩ := bind_eq_ok_iff.1 h
    cases e
    exact .repeated (Width.sub_eq_ok_iff.1 hq).2
  | iota w x =>
    obtain ⟨y, hy, e⟩ := bind_eq_ok_iff.1 h
    cases e
    exact .iota (Width.sub_eq_ok_iff.1 hy).2
  | counted b r ih =>
    obtain ⟨t, ht, h⟩ := bind_eq_ok_iff.1 h
    obtain ⟨u, hu, e⟩ := bind_eq_ok_iff.1 h
    cases e
    obtain ⟨-, rfl⟩ := Width.add_eq_ok_iff.1 hu
    exact .counted (ih ht) (by omega)
  | moving b ih =>
    obtain ⟨t, ht, e⟩ := bind_eq_ok_iff.1 h
    cases e
    exact .moving (ih ht)
  | stream s => cases h
  | forwardOnly b => cases h

/-- By jumps and by single steps. A count never falls below zero, so that it is told exactly. -/
theorem displaced_advance (h : c.advance n = .ok d) : Displaced n c d := by
  induction c generalizing d with
  | slice s p =>
    obtain ⟨q, hq, e⟩ := bind_eq_ok_iff.1 h
    cases e
    exact .slice (shifted_eq_ok_iff.1 hq).2.1
  | repeated v x p =>
    obtain ⟨q, hq, e⟩ := bind_eq_ok_iff.1 h
    cases e
    exact .repeated (Width.add_eq_ok_iff.1 hq).2
  | iota w x =>
    obtain ⟨y, hy, e⟩ := bind_eq_ok_iff.1 h
    cases e
    exact .iota (Width.add_eq_ok_iff.1 hy).2
  | counted b r ih =>
    simp only [advance] at h
    split at h
    · obtain ⟨t, ht, h⟩ := bind_eq_ok_iff.1 h
      obtain ⟨u, hu, e⟩ := bind_eq_ok_iff.1 h
      cases e
      obtain ⟨-, rfl⟩ := Width.sub_eq_ok_iff.1 hu
      exact .counted (ih ht) (by omega)
    · cases h
  | moving b ih =>
    obtain ⟨t, ht, e⟩ := bind_eq_ok_iff.1 h
    cases e
    exact .moving (ih ht)
  | stream s =>
    simp only [advance] at h
    split at h
    · cases h
    · have := displaced_stepTimes h
      rwa [Int.toNat_of_nonneg (by omega)] at this
  | forwardOnly b =>
    simp only [advance] at h
    split at h
    · cases h
    · have := displaced_stepTimes h
      rwa [Int.toNat_of_nonneg (by omega)] at this

/-- A cursor that jumps goes on just so. -/
theorem advance_of_jump (h : c.jump n = .ok d) : c.advance n = .ok d := by
  induction c generalizing d with
  | counted b r ih =>
    simp only [jump] at h
    split at h
    · rename_i hn
      obtain ⟨t, ht, hr⟩ := bind_eq_ok_iff.1 h
      rw [advance, if_pos hn, ih ht]
      exact hr
    · cases h
  | moving b ih =>
    obtain ⟨t, ht, e⟩ := bind_eq_ok_iff.1 h
    rw [advance, ih ht]
    exact e
  | stream s => cases h
  | forwardOnly b => cases h
  | _ => exact h

theorem displaced_jump (h : c.jump n = .ok d) : Displaced n c d :=
  displaced_advance (advance_of_jump h)

namespace Displaced

/-- Copies are told apart by their displacement. -/
theorem same (h : Displaced n c d) (hc : c.copyable = true) : c.same d = .ok (decide (n = 0)) := by
  induction h with
  | @slice s p q h =>
    have hs : s.same s = true := by cases s <;> simp [Source.same]
    rw [Cursor.same, if_pos hs, Bool.beq_eq_decide_eq]
    exact congrArg Except.ok (decide_eq_decide.2 (by omega))
  | repeated h =>
    rw [Cursor.same, if_pos rfl, Bool.beq_eq_decide_eq]
    exact congrArg Except.ok (decide_eq_decide.2 (by omega))
  | iota h =>
    rw [Cursor.same, Bool.beq_eq_decide_eq]
    exact congrArg Except.ok (decide_eq_decide.2 (by omega))
  | stream h => cases hc
  | counted _ h ih =>
    rw [Cursor.same, Bool.beq_eq_decide_eq]
    exact congrArg Except.ok (decide_eq_decide.2 (by omega))
  | moving _ ih => exact ih hc
  | forwardOnly _ ih => exact ih hc

theorem order (h : Displaced n c d) (hc : c.can .randomAccess = true) :
    d.order c = .ok (compare n 0) := by
  induction h with
  | @slice s p q h =>
    have hs : s.same s = true := by cases s <;> simp [Source.same]
    rw [Cursor.order, if_pos hs, compare_natCast, compare_eq_compare_zero h]
  | repeated h => rw [Cursor.order, if_pos rfl, compare_eq_compare_zero h]
  | iota h => rw [Cursor.order, compare_eq_compare_zero h]
  | stream h => cases hc
  | @counted b c r t _ h ih =>
    have h : (r : Int) = t + n := by omega
    rw [Cursor.order, compare_natCast, compare_eq_compare_zero h]
  | moving _ ih => exact ih hc
  | forwardOnly _ ih => cases hc

theorem offsetFrom (h : Displaced n c d) (hc : c.can .randomAccess = true) :
    d.offsetFrom c = c.width.sub n 0 := by
  induction h with
  | @slice s p q h =>
    have hs : s.same s = true := by cases s <;> simp [Source.same]
    rw [Cursor.offsetFrom, if_pos hs]
    exact Width.sub_eq_sub (by omega)
  | repeated h =>
    rw [Cursor.offsetFrom, if_pos rfl]
    exact Width.sub_eq_sub (by omega)
  | iota h => exact Width.sub_eq_sub (by omega)
  | stream h => cases hc
  | @counted b c r t base h ih =>
    rw [Cursor.offsetFrom, base.width]
    exact Width.sub_eq_sub (by omega)
  | moving _ ih => exact ih hc
  | forwardOnly _ ih => cases hc

/-- As a bound, a cursor is met where there is no displacement. -/
theorem isEnd (h : Displaced n c d) (hc : c.can .selfBound = true) :
    (Bound.cursor d).isEnd c = decide (n = 0) := by
  induction h with
  | slice h =>
    rw [Bound.isEnd, Bool.beq_eq_decide_eq]
    exact decide_eq_decide.2 (by omega)
  | repeated h =>
    rw [Bound.isEnd, Bool.beq_eq_decide_eq]
    exact decide_eq_decide.2 (by omega)
  | iota h =>
    rw [Bound.isEnd, Bool.beq_eq_decide_eq]
    exact decide_eq_decide.2 (by omega)
  | moving _ ih => exact ih hc
  | _ => cases hc

/-- As a bound, it tells the displacement. -/
theorem measure (h : Displaced n c d) (hc : c.can .selfBound = true) :
    (Bound.cursor d).measure c = some <$> c.width.sub n 0 := by
  induction h with
  | slice h => exact congrArg _ (Width.sub_eq_sub (by omega))
  | repeated h => exact congrArg _ (Width.sub_eq_sub (by omega))
  | iota h => exact congrArg _ (Width.sub_eq_sub (by omega))
  | moving _ ih => exact ih hc
  | _ => cases hc

end Displaced

end Cursor

end Waymark
