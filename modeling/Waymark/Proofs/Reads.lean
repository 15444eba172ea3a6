import Waymark.Proofs.Cursor.Reading

/-!
# What a run reads

`act.Reads w rs b v` follows a run from `w` to `v` through everything it does: computations and calls,
exchanges of slots, and reads, which are those of `rs`, each with the element that is handed over. It
tells more than the result does. A slot that has been emptied can be read again without a trace in the
store or in the calls, but not without one in `rs`.

* `Reads.returns`: what is followed through is what the run does;
* `Reads.bind`: one run after the other reads what both read;
* `Cursor.visits`: the elements along a cursor, each with the cursor that stands at it. A run that has
  read each of them once has read a permutation of these.
-/

namespace Waymark

variable {α β γ δ κ : Type}

/-- The elements that a cursor comes to, each with the cursor where it stands. -/
def Cursor.visits : Cursor α → List α → List (Cursor α × α)
  | _, [] => []
  | c, x :: xs => (c, x) :: (c.hop 1).visits xs

theorem Cursor.visits_append (c : Cursor α) (xs ys : List α) :
    c.visits (xs ++ ys) = c.visits xs ++ (c.hop xs.length).visits ys := by
  induction xs generalizing c with
  | nil => rw [List.length_nil, hop_zero]; rfl
  | cons x xs ih =>
    rw [List.cons_append, visits, visits, ih, hop_hop, List.length_cons, Nat.add_comm 1,
      List.cons_append]

namespace Run

variable [IntCast α] [Inhabited α]

/-- From `w` the run reads at the cursors of `rs`, one after the other and nowhere else, and is handed
the elements beside them. It returns `b` in `v`. -/
inductive Reads : Run α κ γ → World α κ → List (Cursor α × α) → γ → World α κ → Prop where
  | pure (b : γ) (w : World α κ) : Reads (Pure.pure b) w [] b w
  | lift {δ : Type} {x : Except Fault δ} {d : δ} {f : δ → Run α κ γ} {w v : World α κ}
      {rs : List (Cursor α × α)} {b : γ} (hx : x = .ok d) (h : Reads (f d) w rs b v) :
      Reads (liftM x >>= f) w rs b v
  | call {δ : Type} {g : StateM κ δ} {f : δ → Run α κ γ} {w v : World α κ}
      {rs : List (Cursor α × α)} {b : γ}
      (h : Reads (f (g w.calls).1) ⟨w.store, (g w.calls).2⟩ rs b v) :
      Reads (liftM g >>= f) w rs b v
  | swap {c d : Cursor α} {f : Unit → Run α κ γ} {w w' v : World α κ}
      {rs : List (Cursor α × α)} {b : γ} (hs : c.swap d w = .ok () w') (h : Reads (f ()) w' rs b v) :
      Reads (c.swap d >>= f) w rs b v
  | read {c : Cursor α} {x : α} {f : α → Run α κ γ} {w v : World α κ} {rs : List (Cursor α × α)}
      {b : γ} (hx : c.look w.store = some x) (h : Reads (f x) ⟨c.drain w.store, w.calls⟩ rs b v) :
      Reads (c.read >>= f) w ((c, x) :: rs) b v

namespace Reads

variable {act : Run α κ γ} {w v u : World α κ} {rs rs' : List (Cursor α × α)} {b : γ}

/-- What is followed through is what the run does. -/
theorem returns (h : act.Reads w rs b v) : act w = .ok b v := by
  induction h with
  | pure b w => rfl
  | lift hx _ ih => exact (bind_ok (lift_ok hx _)).trans ih
  | call _ ih => exact (bind_ok (call_apply _ _)).trans ih
  | swap hs _ ih => exact (bind_ok hs).trans ih
  | read hx _ ih => exact (bind_ok (Cursor.read_eq hx)).trans ih

/-- What goes on from there reads what is left to read. -/
theorem bind {f : γ → Run α κ δ} {d : δ} (h : act.Reads w rs b v) (h' : (f b).Reads v rs' d u) :
    (act >>= f).Reads w (rs ++ rs') d u := by
  induction h with
  | pure b w =>
    rw [pure_bind]
    exact h'
  | lift hx _ ih =>
    rw [bind_assoc]
    exact .lift hx (ih h')
  | call _ ih =>
    rw [bind_assoc]
    exact .call (ih h')
  | swap hs _ ih =>
    rw [bind_assoc]
    exact .swap hs (ih h')
  | read hx _ ih =>
    rw [bind_assoc]
    exact .read hx (ih h')

/-- A test reads one element, which is projected and tested then. -/
theorem test {c : Cursor α} {x : α} {pred : Predicate κ β} {proj : Projection κ α β}
    {f : Bool → Run α κ γ} (hx : c.look w.store = some x)
    (h : (f (pred.on proj x w.calls).1).Reads ⟨c.drain w.store, (pred.on proj x w.calls).2⟩ rs b v) :
    (c.test pred proj >>= f).Reads w ((c, x) :: rs) b v := by
  rw [Cursor.test, Cursor.project, bind_assoc, bind_assoc]
  exact .read hx (.call (.call h))

end Reads

end Run

end Waymark
