import Waymark.Proofs.Reads

/-!
# Slots of a stored sequence

What testing and exchanging do to the one sequence that a cursor stands on, told by what lies before
and behind the slots (`Reads.test_slot`, `swap_slots`). Everything else in the store stays as it is.
-/

namespace Waymark

variable {α β γ κ : Type} {s : Store α} {c : Cursor α} {place : Nat} {as bs zs : List α} {x : α}

theorem modify_set (hp : place < s.length) (f : List α → List α) :
    (s.set place zs).modify place f = s.set place (f zs) := by
  rw [List.modify_eq_set, List.getElem?_set_self hp, List.set_set]
  rfl

theorem set_append_cons (as bs : List α) (x y : α) :
    (as ++ x :: bs).set as.length y = as ++ y :: bs := by
  rw [List.set_append_right _ _ (Nat.le_refl _), Nat.sub_self, List.set_cons_zero]

/-- Exchanging two slots with what lies between them. -/
theorem set_set_append (as ms bs : List α) (x y : α) :
    ((as ++ x :: (ms ++ y :: bs)).set as.length y).set (as.length + (1 + ms.length)) x =
      as ++ y :: (ms ++ x :: bs) := by
  rw [set_append_cons, List.set_append_right _ _ (by omega), Nat.add_sub_cancel_left,
    Nat.add_comm 1, List.set_cons_succ, set_append_cons]

theorem map_residue [Inhabited α] (h : c.keeps = true) (xs : List α) : xs.map c.residue = xs := by
  rw [show c.residue = id from funext fun x => if_pos h, List.map_id]

theorem map_residue_of_not_keeps [Inhabited α] (h : c.keeps = false) (xs : List α) :
    xs.map c.residue = List.replicate xs.length default := by
  have hr : c.residue = fun _ => default := funext fun _ => if_neg (ne_true_of_eq_false h)
  rw [hr, List.map_const']

theorem set_of_getElem? (h : s[place]? = some zs) : place < s.length ∧ s.set place zs = s := by
  obtain ⟨hp, rfl⟩ := List.getElem?_eq_some_iff.1 h
  exact ⟨hp, List.set_getElem_self hp⟩

theorem slot?_set (hp : place < s.length) (as bs : List α) (x : α) (k : κ) :
    (World.mk (s.set place (as ++ x :: bs)) k).slot? place as.length = some x := by
  show ((s.set place (as ++ x :: bs))[place]?.bind (·[as.length]?)) = some x
  rw [List.getElem?_set_self hp, Option.bind_some, List.getElem?_append_right (Nat.le_refl _),
    Nat.sub_self, List.getElem?_cons_zero]

theorem put_set (hp : place < s.length) (zs : List α) (p : Nat) (x : α) (k : κ) :
    (World.mk (s.set place zs) k).put place p x = ⟨s.set place (zs.set p x), k⟩ := by
  rw [World.put, modify_set hp]

/-- A step takes what stood at the cursor to what lies before it. -/
theorem slot?_hop_one (hc : c.slot? = some (place, as.length)) (x : α) :
    (c.hop 1).slot? = some (place, (as ++ [x]).length) := by
  rw [Cursor.slot?_hop hc, List.length_append]
  rfl

/-- Cursors along one sequence exchange what stands at two of its slots. -/
theorem swap_slots {n : Nat} (hp : place < s.length) (hc : c.slot? = some (place, as.length))
    (ms bs : List α) (hn : n = 1 + ms.length) (x y : α) (k : κ) :
    c.swap (c.hop n) (World.mk (s.set place (as ++ x :: (ms ++ y :: bs))) k) =
      .ok () ⟨s.set place (as ++ y :: (ms ++ x :: bs)), k⟩ := by
  subst hn
  have hx := slot?_set hp as (ms ++ y :: bs) x k
  have hy := slot?_set hp (as ++ x :: ms) bs y k
  rw [List.append_assoc, List.cons_append, List.length_append, List.length_cons,
    Nat.add_comm ms.length] at hy
  have h := Cursor.swap_hop (i := 0) hc hx hy
  rw [Cursor.hop_zero, Nat.add_zero, put_set hp, put_set hp, set_set_append] at h
  exact h

theorem look_slot [IntCast α] (hp : place < s.length)
    (hc : c.slot? = some (place, as.length)) :
    c.look (s.set place (as ++ x :: bs)) = some x := by
  rw [Cursor.look_of_slot? hc]
  exact slot?_set hp as bs x ()

theorem drain_slot [Inhabited α] (hp : place < s.length)
    (hc : c.slot? = some (place, as.length)) :
    c.drain (s.set place (as ++ x :: bs)) = s.set place (as ++ c.residue x :: bs) := by
  rw [Cursor.drain, Cursor.residue]
  split
  · rfl
  · rw [Cursor.clear_of_slot? hc, modify_set hp, set_append_cons]

/-- A test reads what stands in the slot, and leaves there what the cursor does not take out. -/
theorem Run.Reads.test_slot [IntCast α] [Inhabited α] {pred : Predicate κ β}
    {proj : Projection κ α β} {f : Bool → Run α κ γ} {k : κ} {rs : List (Cursor α × α)} {b : γ}
    {v : World α κ} (hp : place < s.length) (hc : c.slot? = some (place, as.length))
    (h : (f (pred.on proj x k).1).Reads
      ⟨s.set place (as ++ c.residue x :: bs), (pred.on proj x k).2⟩ rs b v) :
    (c.test pred proj >>= f).Reads ⟨s.set place (as ++ x :: bs), k⟩ ((c, x) :: rs) b v := by
  refine .test (look_slot hp hc) ?_
  rwa [drain_slot hp hc]

end Waymark
