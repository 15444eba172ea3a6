import Waymark.Proofs.Walk
import Waymark.Proofs.Rearrange.Slots

/-!
# What a walk has handed out and what it has left

A walk that is asked any number of times (`Walk.Delivers`) has read just the elements that it has
handed out, each of them once where it stands, and has the others still to come. With a cursor that
moves elements out, the slots behind it are empty then (`drains_emptied`) and those before it are not,
so that it can be left and taken up again anywhere (`Walk.nexts_deliver`).
-/

namespace Waymark

variable {α κ : Type} [Inhabited α]

section Slots

variable {s : Store α} {c : Cursor α} {place : Nat} {pre xs post : List α}

/-- Each of the slots that are read one after the other has what the cursor leaves there. -/
theorem drains_slots (hp : place < s.length) (hc : c.slot? = some (place, pre.length))
    (xs post : List α) :
    c.drains xs.length (s.set place (pre ++ (xs ++ post))) =
      s.set place (pre ++ (xs.map c.residue ++ post)) := by
  induction xs generalizing c pre with
  | nil => rfl
  | cons x xs ih =>
    have ih := ih (slot?_hop_one hc (c.residue x))
    rw [Cursor.residue_hop, List.append_assoc, List.append_assoc] at ih
    rw [List.length_cons, Cursor.drains, List.cons_append, drain_slot hp hc]
    exact ih

theorem drains_emptied (hk : c.keeps = false) (hc : c.slot? = some (place, pre.length))
    (hs : s[place]? = some (pre ++ xs ++ post)) (m : Nat) :
    c.drains (min m xs.length) s =
      s.set place (pre ++ List.replicate (min m xs.length) default ++ xs.drop m ++ post) := by
  obtain ⟨hp, hs⟩ := set_of_getElem? hs
  have h := drains_slots hp hc (xs.take m) (xs.drop m ++ post)
  rw [map_residue_of_not_keeps hk, List.length_take, ← List.append_assoc (xs.take m),
    List.take_append_drop, ← List.append_assoc, hs] at h
  rw [h, List.append_assoc, List.append_assoc]

end Slots

namespace Walk

variable [IntCast α] {c : Cursor α} {b : Bound α} {xs : List α} {w : World α κ}

/-- Asked `m` times in the world `w`, the walk from `c` to `b` hands out the first of the elements of
`xs`. It is left at `d` in the world `w'`, with the others to come. -/
structure Delivers (m : Nat) (c : Cursor α) (b : Bound α) (xs : List α) (w : World α κ)
    (d : Cursor α) (w' : World α κ) : Prop where
  answers : nexts m ⟨c, b⟩ w =
    .ok ((xs.take m).map some ++ List.replicate (m - xs.length) none, ⟨d, b⟩) w'
  /-- Nothing is read but what is handed out, and this once, where it stands. -/
  reads : ∃ r, (nexts m ⟨c, b⟩).Reads w (c.visits (xs.take m)) r w'
  calls : w'.calls = w.calls
  position : c.stepTimes (min m xs.length) = .ok d
  /-- A walk from there is one over the elements that are left. -/
  resumes : Presents w'.store d b (xs.drop m)
  rest : ∃ e v, takeAll ⟨d, b⟩ w' = .ok (xs.drop m, e) v
  fused : xs.length ≤ m → ∀ n, nexts n ⟨d, b⟩ w' = .ok (List.replicate n none, ⟨d, b⟩) w'
  kept : c.keeps = true → w'.store = w.store
  emptied {place : Nat} {pre post : List α} : c.keeps = false →
    c.slot? = some (place, pre.length) → w.store[place]? = some (pre ++ xs ++ post) →
    w'.store = w.store.set place
      (pre ++ List.replicate (min m xs.length) default ++ xs.drop m ++ post)

/-- However often it is asked, a walk hands out the elements in order until there are none, reads
nothing else, and can be taken up again where it has been left. If it is not left before the bound, it
hands out all of them. -/
theorem nexts_deliver (h : Presents w.store c b xs) :
    (∀ m, ∃ d w', Delivers m c b xs w d w') ∧ ∃ e v, takeAll ⟨c, b⟩ w = .ok (xs, e) v := by
  refine ⟨fun m => ?_, _, _, takeAll_ok h⟩
  have hr := nexts_reads h m
  have hp := h.drains_min m
  refine ⟨_, _, {
    answers := hr.returns
    reads := ⟨_, hr⟩
    calls := rfl
    position := h.shows.reach (Nat.min_le_right m xs.length)
    resumes := hp
    rest := ⟨_, _, takeAll_ok hp⟩
    fused := fun hm n => ?_
    kept := fun hk => Cursor.drains_of_keeps hk _ _
    emptied := fun hk hc hw => drains_emptied hk hc hw m }⟩
  rw [List.drop_of_length_le hm] at hp
  exact (nexts_nil hp n).returns

/-- A walk that moves three elements out of a sequence of five is left after two of them. -/
theorem nexts_deliver_moving :
    let w : World Int Unit := ⟨[[0], [1, 2, 3, 4, 5]], ()⟩
    let src : Source Int := .stored 1 5
    let last : Bound Int := .moving (.cursor (.slice src 4))
    (∃ d, nexts 2 ⟨.moving (.slice src 1), last⟩ w =
        .ok ([some 2, some 3], ⟨d, last⟩) ⟨[[0], [1, 0, 0, 4, 5]], ()⟩ ∧
      ∃ e v, takeAll ⟨d, last⟩ ⟨[[0], [1, 0, 0, 4, 5]], ()⟩ = .ok ([4], e) v) ∧
    ∃ e v, takeAll ⟨.moving (.slice src 1), last⟩ w = .ok ([2, 3, 4], e) v := by
  intro w src last
  have hs : src.Holds w.store ([1] ++ [2, 3, 4] ++ [5]) := ⟨rfl, rfl⟩
  have hp : Presents w.store (.moving (.slice src 1)) last [2, 3, 4] :=
    presents_moving (presents_middle hs (by decide)) rfl
  obtain ⟨hm, hall⟩ := nexts_deliver hp
  obtain ⟨d, ⟨s, k⟩, h⟩ := hm 2
  obtain rfl : s = [[0], [1, 0, 0, 4, 5]] := h.emptied rfl (by rfl) hs.1
  exact ⟨⟨d, h.answers, h.rest⟩, hall⟩

end Walk

end Waymark
