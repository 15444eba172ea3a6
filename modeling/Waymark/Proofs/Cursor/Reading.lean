import Waymark.Callable.Basic
import Waymark.Proofs.Cursor.Position
import Waymark.Proofs.Run

/-!
# What a cursor reads, and what reading leaves

`look` is the element that a cursor reads in a store, and `drain` the store that reading leaves
behind: the same one, unless the element is moved out of a stored sequence. `read_eq` says that this
is what reading does, `look_drain_of_ne` that reading at one position leaves the others as they
are. A cursor that stands on a stored sequence, under whatever else, has a slot there (`slot?`), and
two cursors along one sequence exchange their slots (`swap_hop`).
-/

namespace Waymark

/-- The stored sequences. -/
abbrev Store (α : Type) := List (List α)

/-- The predicate of what a projection makes of an element. -/
def Predicate.on {κ α β : Type} (pred : Predicate κ β) (proj : Projection κ α β) : Predicate κ α :=
  fun x => proj x >>= pred

namespace Cursor

variable {α β κ : Type}

/-- The stored sequence under the cursor and the position in it. -/
def slot? : Cursor α → Option (Nat × Nat)
  | slice (.stored place _) p => some (place, p)
  | counted b _ => b.slot?
  | moving b => b.slot?
  | forwardOnly b => b.slot?
  | _ => none

/-- Reading leaves the sequence as it is: nothing is moved out of a stored one. -/
def keeps : Cursor α → Bool
  | counted b _ => b.keeps
  | moving b => b.slot?.isNone
  | forwardOnly b => b.keeps
  | _ => true

/-- The element that the cursor stands at. -/
def look [IntCast α] (s : Store α) : Cursor α → Option α
  | slice (.shared _ xs) p => xs[p]?
  | slice (.stored place _) p => s[place]?.bind (·[p]?)
  | repeated _ x _ => some x
  | iota _ x => some x
  | stream t => t.peek.map fun b => ((b.toNat : Int) : α)
  | counted b _ => b.look s
  | moving b => if b.can .movable then b.look s else none
  | forwardOnly b => b.look s

/-- The store without the element that the cursor stands at. -/
def clear [Inhabited α] (c : Cursor α) (s : Store α) : Store α :=
  match c.slot? with
  | some (place, p) => s.modify place (·.set p default)
  | none => s

/-- The store after reading. -/
def drain [Inhabited α] (c : Cursor α) (s : Store α) : Store α :=
  if c.keeps then s else c.clear s

/-- What stands in a slot after the cursor has read it. -/
def residue [Inhabited α] (c : Cursor α) (x : α) : α := if c.keeps then x else default

theorem slot?_hop {c : Cursor α} {place p : Nat} (h : c.slot? = some (place, p)) (n : Nat) :
    (c.hop n).slot? = some (place, p + n) := by
  induction c with
  | slice s q =>
    cases s with
    | shared q xs => cases h
    | stored q n => cases h; rfl
  | counted b r ih => exact ih h
  | moving b ih => exact ih h
  | forwardOnly b ih => exact ih h
  | _ => cases h

theorem slot?_hop_eq_none {c : Cursor α} (h : c.slot? = none) (n : Nat) :
    (c.hop n).slot? = none := by
  induction c with
  | slice s q =>
    cases s with
    | shared q xs => rfl
    | stored q n => cases h
  | counted b r ih => exact ih h
  | moving b ih => exact ih h
  | forwardOnly b ih => exact ih h
  | _ => rfl

@[simp] theorem keeps_hop (c : Cursor α) (n : Nat) : (c.hop n).keeps = c.keeps := by
  induction c with
  | moving b =>
    simp only [hop, keeps]
    cases h : b.slot? with
    | none => rw [slot?_hop_eq_none h]
    | some x => rw [slot?_hop h]; rfl
  | counted b r ih => exact ih
  | forwardOnly b ih => exact ih
  | _ => rfl

@[simp] theorem residue_hop [Inhabited α] (c : Cursor α) (n : Nat) :
    (c.hop n).residue = c.residue := by
  funext x
  rw [residue, residue, keeps_hop]

/-- What is moved out has a slot. -/
theorem exists_slot?_of_not_keeps {c : Cursor α} (h : c.keeps = false) : ∃ q, c.slot? = some q := by
  induction c with
  | counted b r ih => exact ih h
  | moving b =>
    rw [keeps, Option.isNone_eq_false_iff] at h
    exact Option.isSome_iff_exists.1 h
  | forwardOnly b ih => exact ih h
  | _ => cases h

theorem movable_of_slot? {c : Cursor α} {place p : Nat} (h : c.slot? = some (place, p)) :
    c.can .movable = true := by
  induction c with
  | slice t q => rfl
  | counted b r ih => exact ih h
  | moving b ih => exact ih h
  | forwardOnly b ih => exact ih h
  | _ => cases h

section Look

variable [IntCast α]

/-- A cursor with a slot looks into it. -/
theorem look_of_slot? {c : Cursor α} {place p : Nat} (h : c.slot? = some (place, p))
    (s : Store α) : c.look s = s[place]?.bind (·[p]?) := by
  induction c with
  | slice t q =>
    cases t with
    | shared q xs => cases h
    | stored q n => cases h; rfl
  | counted b r ih => exact ih h
  | moving b ih => exact (if_pos (movable_of_slot? (c := b) h)).trans (ih h)
  | forwardOnly b ih => exact ih h
  | _ => cases h

/-- A cursor without a slot looks past the store. -/
theorem look_of_slot?_eq_none {c : Cursor α} (h : c.slot? = none) (s t : Store α) :
    c.look s = c.look t := by
  induction c with
  | slice u q =>
    cases u with
    | shared q xs => rfl
    | stored q n => cases h
  | counted b r ih => exact ih h
  | moving b ih => simp only [look, ih h]
  | forwardOnly b ih => exact ih h
  | _ => rfl

end Look

section Clear

variable [Inhabited α]

theorem clear_of_slot? {c : Cursor α} {place p : Nat} (h : c.slot? = some (place, p))
    (s : Store α) : c.clear s = s.modify place (·.set p default) := by
  rw [clear, h]

theorem clear_of_slot?_eq_none {c : Cursor α} (h : c.slot? = none) (s : Store α) :
    c.clear s = s := by
  rw [clear, h]

theorem drain_of_keeps {c : Cursor α} (h : c.keeps = true) (s : Store α) : c.drain s = s :=
  if_pos h

end Clear

theorem storedElement_eq {w : World α κ} {place p : Nat} {x : α} (h : w.slot? place p = some x)
    (n : Nat) : storedElement place n p w = .ok x w := by
  rw [storedElement, Run.bind_ok (show (get : Run α κ _) w = .ok w w from rfl)]
  simp only [h]
  rfl

theorem storedElement_error {w : World α κ} {place p : Nat} (h : w.slot? place p = none) (n : Nat) :
    storedElement place n p w = .error (.accessPastSlice n) w := by
  rw [storedElement, Run.bind_ok (show (get : Run α κ _) w = .ok w w from rfl)]
  simp only [h]
  rfl

/-- Cursors along one stored sequence exchange their slots. -/
theorem swap_hop {c : Cursor α} {place p i j : Nat} {w : World α κ} {x y : α}
    (hc : c.slot? = some (place, p)) (hx : w.slot? place (p + i) = some x)
    (hy : w.slot? place (p + j) = some y) :
    (c.hop i).swap (c.hop j) w = .ok () ((w.put place (p + i) y).put place (p + j) x) := by
  induction c with
  | slice t q =>
    cases t with
    | shared q xs => cases hc
    | stored q n =>
      cases hc
      have hs : (Source.stored (α := α) place n).same (.stored place n) = true := by
        simp [Source.same]
      simp only [hop, swap, if_pos hs]
      rw [Run.bind_ok (storedElement_eq hx n), Run.bind_ok (storedElement_eq hy n)]
      rfl
  | counted b r ih => exact ih hc
  | moving b ih => exact ih hc
  | forwardOnly b ih => exact ih hc
  | _ => cases hc

section Access

variable [IntCast α] [Inhabited α]

/-- Moving an element out hands over what the cursor looks at, and clears its slot. -/
theorem moveOut_eq {c : Cursor α} {w : World α κ} {x : α} (hm : c.can .movable = true)
    (h : c.look w.store = some x) :
    c.moveOut w = .ok x { w with store := c.clear w.store } := by
  induction c with
  | slice t q =>
    cases t with
    | shared place xs =>
      have h : xs[q]? = some x := h
      simp only [moveOut, h]
      rfl
    | stored place n =>
      rw [moveOut, Run.bind_ok (storedElement_eq h n)]
      rfl
  | repeated v y p => cases h; rfl
  | iota v y => cases h; rfl
  | stream t => cases hm
  | counted b r ih => exact ih hm h
  | moving b ih => exact ih hm ((if_pos hm).symm.trans h)
  | forwardOnly b ih => exact ih hm h

/-- Reading hands over what the cursor looks at. -/
theorem read_eq {c : Cursor α} {w : World α κ} {x : α} (h : c.look w.store = some x) :
    c.read w = .ok x { w with store := c.drain w.store } := by
  induction c with
  | slice t q =>
    cases t with
    | shared place xs =>
      have h : xs[q]? = some x := h
      simp only [read, h]
      rfl
    | stored place n => exact storedElement_eq h n
  | repeated v y p => cases h; rfl
  | iota v y => cases h; rfl
  | stream t =>
    obtain ⟨b, hb, rfl⟩ := Option.map_eq_some_iff.1 h
    have hr : t.read = .ok b := by rw [ByteStream.read, hb]
    rw [read, Run.bind_ok (Run.lift_ok hr w)]
    rfl
  | counted b r ih => exact ih h
  | moving b =>
    rw [look] at h
    split at h
    · rename_i hm
      rw [read, moveOut_eq hm h, drain, keeps]
      cases hs : b.slot? with
      | none => rw [clear_of_slot?_eq_none hs]; rfl
      | some x => rfl
    · cases h
  | forwardOnly b ih => exact ih h

/-- There is nothing to move out where there is nothing to look at. -/
theorem moveOut_error {c : Cursor α} {w : World α κ}
    (h : c.can .movable = true → c.look w.store = none) : ∃ e, c.moveOut w = .error e w := by
  induction c with
  | slice t q =>
    cases t with
    | shared place xs =>
      have h : xs[q]? = none := h rfl
      exact ⟨_, by simp only [moveOut, h]; rfl⟩
    | stored place n => exact ⟨_, Run.bind_error (storedElement_error (h rfl) n)⟩
  | repeated v y p => cases h rfl
  | iota v y => cases h rfl
  | stream t => exact ⟨_, rfl⟩
  | counted b r ih => exact ih h
  | moving b ih => exact ih fun hm => (if_pos hm).symm.trans (h hm)
  | forwardOnly b ih => exact ih h

/-- There is nothing to read where there is nothing to look at. -/
theorem read_error {c : Cursor α} {w : World α κ} (h : c.look w.store = none) :
    ∃ e, c.read w = .error e w := by
  induction c with
  | slice t q =>
    cases t with
    | shared place xs =>
      have h : xs[q]? = none := h
      exact ⟨_, by simp only [read, h]; rfl⟩
    | stored place n => exact ⟨_, storedElement_error h n⟩
  | repeated v y p => cases h
  | iota v y => cases h
  | stream t =>
    have hr : t.read = .error (.readPastStream t.position) := by
      rw [ByteStream.read, Option.map_eq_none_iff.1 h]
    exact ⟨.readPastStream t.position, by rw [read, hr]; rfl⟩
  | counted b r ih => exact ih h
  | moving b => exact moveOut_error fun hm => (if_pos hm).symm.trans h
  | forwardOnly b ih => exact ih h

/-- Reading at one position leaves what stands at the others. -/
theorem look_drain_of_ne (c : Cursor α) {i j : Nat} (h : i ≠ j) (s : Store α) :
    (c.hop j).look ((c.hop i).drain s) = (c.hop j).look s := by
  rw [drain]
  split
  · rfl
  · cases hc : c.slot? with
    | none => exact look_of_slot?_eq_none (slot?_hop_eq_none hc j) _ _
    | some q =>
      obtain ⟨place, p⟩ := q
      rw [look_of_slot? (slot?_hop hc j), look_of_slot? (slot?_hop hc j),
        clear_of_slot? (slot?_hop hc i), List.getElem?_modify_eq]
      cases s[place]? with
      | none => rfl
      | some ys => exact List.getElem?_set_ne (by omega)

/-- Reading once more finds what the first time has left. -/
theorem look_drain_self {c : Cursor α} {s : Store α} {x : α} (h : c.look s = some x) :
    c.look (c.drain s) = some (c.residue x) := by
  rw [drain, residue]
  split
  · exact h
  · rename_i hk
    obtain ⟨⟨place, p⟩, hc⟩ := exists_slot?_of_not_keeps (Bool.eq_false_iff.2 hk)
    rw [look_of_slot? hc] at h ⊢
    obtain ⟨ys, hy, hp⟩ := Option.bind_eq_some_iff.1 h
    rw [clear_of_slot? hc, List.getElem?_modify_eq, hy]
    exact List.getElem?_set_self (List.getElem?_eq_some_iff.1 hp).1

/-- The element is read, then projected. -/
theorem project_eq {c : Cursor α} {w : World α κ} {x : α} (h : c.look w.store = some x)
    (proj : Projection κ α β) :
    c.project proj w =
      .ok (proj x w.calls).1 { store := c.drain w.store, calls := (proj x w.calls).2 } := by
  rw [project, Run.bind_ok (read_eq h)]
  rfl

/-- The element is read, then projected and tested. -/
theorem test_eq {c : Cursor α} {w : World α κ} {x : α} (h : c.look w.store = some x)
    (pred : Predicate κ β) (proj : Projection κ α β) :
    c.test pred proj w = .ok (pred.on proj x w.calls).1
      { store := c.drain w.store, calls := (pred.on proj x w.calls).2 } := by
  rw [test, Run.bind_ok (project_eq h proj)]
  rfl

end Access

end Cursor

end Waymark
