import Waymark.Proofs.Run

/-!
# Elements by the outcome of their test

Testing the elements of a list one after the other gives a list of outcomes, and `picked` are the
elements with one of the two outcomes, in their order.
-/

namespace Waymark

variable {α β κ : Type}

theorem mapM_cons_apply (t : α → StateM κ β) (x : α) (xs : List α) (k : κ) :
    (x :: xs).mapM t k =
      ((t x k).1 :: (xs.mapM t (t x k).2).1, (xs.mapM t (t x k).2).2) := by
  rw [List.mapM_cons]
  rfl

theorem length_mapM (t : α → StateM κ β) (xs : List α) (k : κ) :
    (xs.mapM t k).1.length = xs.length := by
  induction xs generalizing k with
  | nil => rfl
  | cons x xs ih => rw [mapM_cons_apply, List.length_cons, List.length_cons, ih]

/-- The elements whose outcome is `b`. -/
def picked (b : Bool) (bs : List Bool) (xs : List α) : List α :=
  ((xs.zip bs).filter fun z => z.2 == b).map Prod.fst

theorem picked_cons (b a : Bool) (bs : List Bool) (x : α) (xs : List α) :
    picked b (a :: bs) (x :: xs) = if a == b then x :: picked b bs xs else picked b bs xs := by
  rw [picked, List.zip_cons_cons, List.filter_cons]
  split <;> rfl

theorem picked_cons_self (b : Bool) (bs : List Bool) (x : α) (xs : List α) :
    picked b (b :: bs) (x :: xs) = x :: picked b bs xs := by
  rw [picked_cons, if_pos (beq_self_eq_true b)]

theorem picked_cons_of_ne {a b : Bool} (h : a ≠ b) (bs : List Bool) (x : α) (xs : List α) :
    picked b (a :: bs) (x :: xs) = picked b bs xs := by
  rw [picked_cons, if_neg fun he => h (eq_of_beq he)]

theorem picked_append {bs cs : List Bool} {xs ys : List α} (b : Bool) (h : xs.length = bs.length) :
    picked b (bs ++ cs) (xs ++ ys) = picked b bs xs ++ picked b cs ys := by
  rw [picked, List.zip_append h, List.filter_append, List.map_append]
  rfl

theorem length_picked {bs : List Bool} {xs : List α} (b : Bool) (h : xs.length = bs.length) :
    (picked b bs xs).length = bs.count b := by
  induction xs generalizing bs with
  | nil =>
    obtain rfl := List.eq_nil_of_length_eq_zero h.symm
    rfl
  | cons x xs ih =>
    cases bs with
    | nil => cases h
    | cons a bs =>
      rw [picked_cons, List.count_cons, ← ih (Nat.succ.inj h)]
      split <;> rfl

end Waymark
