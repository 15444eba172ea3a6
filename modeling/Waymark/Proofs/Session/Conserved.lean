import Mathlib.Data.List.Perm.Basic
import Waymark.Session.Registers
import Waymark.Proofs.Cursor.Displaced
import Waymark.Proofs.Rearrange.Slots

/-!
# Elements are conserved

Any number of cursors stand on one stored sequence, each under what it may. A request to one of them
spares the sequence, takes one element out for the default one, or exchanges two slots
(`Session.conserves`), and a fault leaves everything as it was. So the elements of the sequence and
those that have been handed over stay together what they were, up to one default element for each of
these (`Session.requests_conserve`).
-/

namespace Waymark

variable {α κ : Type}

section Slots

variable {xs : List α} {p q : Nat} {x y : α}

/-- An element comes out for the one that is put in. -/
theorem cons_set_perm (h : xs[p]? = some x) (y : α) : (x :: xs.set p y).Perm (y :: xs) := by
  obtain ⟨hp, rfl⟩ := List.getElem?_eq_some_iff.1 h
  calc
    (xs[p] :: xs.set p y).Perm (xs[p] :: y :: xs.eraseIdx p) :=
      (List.set_perm_cons_eraseIdx hp y).cons _
    List.Perm _ (y :: xs[p] :: xs.eraseIdx p) := .swap ..
    List.Perm _ (y :: xs) := (List.getElem_cons_eraseIdx_perm hp).cons _

theorem exchange_perm (hx : xs[p]? = some x) (hy : xs[q]? = some y) (hpq : p ≠ q) :
    ((xs.set p y).set q x).Perm xs := by
  have hy' : (xs.set p y)[q]? = some y := by rwa [List.getElem?_set_ne hpq]
  exact ((cons_set_perm hy' x).trans (cons_set_perm hx y)).cons_inv

end Slots

namespace Cursor

variable {c d : Cursor α} {w : World α κ} {place length p q : Nat} {x y : α}

theorem slot?_of_source? (h : c.source? = some (.stored place length)) :
    ∃ p, c.slot? = some (place, p) := by
  induction c with
  | slice s p =>
    cases h
    exact ⟨p, rfl⟩
  | counted b r ih => exact ih h
  | moving b ih => exact ih h
  | forwardOnly b ih => exact ih h
  | _ => cases h

/-- An exchange finds both elements before it changes anything. -/
theorem swap_cases (hc : c.slot? = some (place, p)) (hd : d.slot? = some (place, q)) :
    (∃ e, c.swap d w = .error e w) ∨
      ∃ x y, w.slot? place p = some x ∧ w.slot? place q = some y ∧
        c.swap d w = .ok () ((w.put place p y).put place q x) := by
  induction c generalizing d with
  | slice s p =>
    cases s with
    | shared r xs => cases hc
    | stored r n =>
      cases hc
      cases d with
      | slice t q =>
        cases t with
        | shared r xs => cases hd
        | stored r m =>
          cases hd
          rw [swap]
          split
          · cases hx : w.slot? place p with
            | none => exact .inl ⟨_, Run.bind_error (storedElement_error hx n)⟩
            | some x =>
              simp only [Run.bind_ok (storedElement_eq hx n)]
              cases hy : w.slot? place q with
              | none => exact .inl ⟨_, Run.bind_error (storedElement_error hy n)⟩
              | some y =>
                refine .inr ⟨x, y, rfl, rfl, ?_⟩
                rw [Run.bind_ok (storedElement_eq hy n)]
                rfl
          · exact .inl ⟨_, rfl⟩
      | _ => exact .inl ⟨_, rfl⟩
  | counted a r ih =>
    cases d with
    | counted b r => exact ih hc hd
    | _ => exact .inl ⟨_, rfl⟩
  | moving a ih =>
    cases d with
    | moving b => exact ih hc hd
    | _ => exact .inl ⟨_, rfl⟩
  | forwardOnly a ih =>
    cases d with
    | forwardOnly b => exact ih hc hd
    | _ => exact .inl ⟨_, rfl⟩
  | _ => cases hc

end Cursor

section Place

variable {w : World α κ} {place p q : Nat} {xs : List α}

theorem slot?_of_getElem? (h : w.store[place]? = some xs) (p : Nat) : w.slot? place p = xs[p]? := by
  rw [World.slot?, h]
  rfl

theorem set_place (h : w.store[place]? = some xs) : World.mk (w.store.set place xs) w.calls = w := by
  rw [(set_of_getElem? h).2]

theorem put_place (h : w.store[place]? = some xs) (p : Nat) (x : α) :
    w.put place p x = ⟨w.store.set place (xs.set p x), w.calls⟩ := by
  conv_lhs => rw [← set_place h]
  exact put_set (set_of_getElem? h).1 xs p x w.calls

theorem put_put_place (h : w.store[place]? = some xs) (p q : Nat) (x y : α) :
    (w.put place p y).put place q x = ⟨w.store.set place ((xs.set p y).set q x), w.calls⟩ := by
  rw [put_place h]
  exact put_set (set_of_getElem? h).1 (xs.set p y) q x w.calls

theorem clear_place [Inhabited α] {c : Cursor α} (hc : c.slot? = some (place, p))
    (h : w.store[place]? = some xs) : c.clear w.store = w.store.set place (xs.set p default) := by
  rw [Cursor.clear_of_slot? hc, List.modify_eq_set, h]
  rfl

end Place

/-! ## Requests -/

/-- The request is to copy a cursor, to move it, or to work on the elements it stands at. -/
def Request.basic : Request → Bool
  | copy _ => true
  | step _ => true
  | stepBack _ => true
  | advance .. => true
  | jump .. => true
  | read _ => true
  | moveOut _ => true
  | swap .. => true
  | _ => false

/-- The element that is the answer. -/
def Reply.element? : Reply α → Option α
  | element x => some x
  | _ => none

namespace Session

/-- All cursors stand on one stored sequence. -/
def Over (place length : Nat) (s : Session α) : Prop :=
  ∀ c ∈ s.registers, c.source? = some (.stored place length)

/-- The request moves the element out that it reads. -/
def takes (s : Session α) : Request → Bool
  | .read r => s.registers[r]?.any fun c => !c.keeps
  | .moveOut _ => true
  | _ => false

/-- The elements that the answer hands over for good. -/
def handed (s : Session α) (q : Request) (r : Reply α) : List α :=
  if s.takes q then r.element?.toList else []

/-- The slot at which the cursor in a register stands. -/
def slot? (s : Session α) (r : Nat) : Option Nat := s.registers[r]?.bind fun c => c.slot?.map Prod.snd

/-- The slots that a request may change. -/
def touches (s : Session α) (q : Request) : List Nat :=
  match q with
  | .read r => if s.takes q then (s.slot? r).toList else []
  | .moveOut r => (s.slot? r).toList
  | .swap r t => if s.slot? r = s.slot? t then [] else (s.slot? r).toList ++ (s.slot? t).toList
  | _ => []

/-- What an answer makes of the elements, and which ones it hands over. -/
inductive Effect [Inhabited α] (s : Session α) (q : Request) (xs : List α) :
    List α → List α → Prop where
  | spared : Effect s q xs xs []
  | taken {p : Nat} {x : α} (hp : p ∈ s.touches q) (hx : xs[p]? = some x) :
    Effect s q xs (xs.set p default) [x]
  | exchanged {p t : Nat} {x y : α} (hp : p ∈ s.touches q) (ht : t ∈ s.touches q) (hpt : p ≠ t)
    (hx : xs[p]? = some x) (hy : xs[t]? = some y) : Effect s q xs ((xs.set p y).set t x) []

namespace Effect

variable [Inhabited α] {s : Session α} {q : Request} {xs ys handed : List α}

theorem length_eq (h : s.Effect q xs ys handed) : ys.length = xs.length := by
  cases h <;> simp only [List.length_set]

theorem perm (h : s.Effect q xs ys handed) :
    (ys ++ handed).Perm (xs ++ List.replicate handed.length default) := by
  cases h with
  | spared => exact .refl _
  | @taken p x hp hx =>
    calc
      (xs.set p default ++ [x]).Perm (x :: xs.set p default) := List.perm_append_singleton ..
      List.Perm _ (default :: xs) := cons_set_perm hx default
      List.Perm _ (xs ++ [default]) := (List.perm_append_singleton ..).symm
  | exchanged hp ht hpt hx hy =>
    simp only [List.append_nil, List.length_nil, List.replicate_zero]
    exact exchange_perm hx hy hpt

theorem untouched (h : s.Effect q xs ys handed) {j : Nat} (hj : j ∉ s.touches q) :
    ys[j]? = xs[j]? := by
  have hne {p : Nat} (hp : p ∈ s.touches q) : p ≠ j := fun e => hj (e ▸ hp)
  cases h with
  | spared => rfl
  | taken hp hx => exact List.getElem?_set_ne (hne hp)
  | exchanged hp ht hpt hx hy =>
    rw [List.getElem?_set_ne (hne ht), List.getElem?_set_ne (hne hp)]

end Effect

variable {s t u : Session α} {place n r : Nat} {xs : List α} {w v z : World α κ} {c : Cursor α}

theorem withRegister_none (h : s.registers[r]? = none)
    (answer : Cursor α → Run α κ (Reply α × Session α)) :
    s.withRegister r answer = return (.refused, s) := by
  rw [withRegister, h]

theorem withRegister_some (h : s.registers[r]? = some c)
    (answer : Cursor α → Run α κ (Reply α × Session α)) : s.withRegister r answer = answer c := by
  rw [withRegister, h]

theorem slot?_of_register {p : Nat} (hr : s.registers[r]? = some c)
    (hc : c.slot? = some (place, p)) : s.slot? r = some p := by
  rw [slot?, hr, Option.bind_some, hc]
  rfl

namespace Over

theorem register (h : s.Over place n) (hr : s.registers[r]? = some c) :
    c.source? = some (.stored place n) := h c (List.mem_of_getElem? hr)

theorem slot (h : s.Over place n) (hr : s.registers[r]? = some c) :
    ∃ p, c.slot? = some (place, p) := Cursor.slot?_of_source? (h.register hr)

theorem put (h : s.Over place n) (r : Nat) (hc : c.source? = some (.stored place n)) :
    (s.put r c).Over place n := fun _ hd =>
  (List.mem_or_eq_of_mem_set hd).elim (h _) fun e => e ▸ hc

theorem copy (h : s.Over place n) (hc : c.source? = some (.stored place n)) :
    Over place n { s with registers := s.registers ++ [c] } := fun _ hd =>
  (List.mem_append.1 hd).elim (h _) fun e => List.mem_singleton.1 e ▸ hc

end Over

/-- The request stops at a fault and leaves everything as it was, or it is answered with an effect on
the stored sequence alone. -/
def Conserves [IntCast α] [Inhabited α] (s : Session α) (place : Nat) (xs : List α)
    (w : World α κ) (q : Request) : Prop :=
  (∃ e, s.answer q w = .error e w) ∨
    ∃ l t ys, s.answer q w = .ok (l, t) ⟨w.store.set place ys, w.calls⟩ ∧
      t.Over place xs.length ∧ s.Effect q xs ys (s.handed q l)

namespace Conserves

variable [IntCast α] [Inhabited α] {q : Request} {l : Reply α}

theorem spared (hx : w.store[place]? = some xs) (ht : t.Over place xs.length)
    (hl : s.handed q l = []) (h : s.answer q w = .ok (l, t) w) : s.Conserves place xs w q := by
  refine .inr ⟨l, t, xs, ?_, ht, hl ▸ .spared⟩
  rw [h, set_place hx]

/-- A request to a register that is not there is refused. -/
theorem refused (hx : w.store[place]? = some xs) (hs : s.Over place xs.length)
    (h : s.answer q w = .ok (.refused, s) w) : s.Conserves place xs w q :=
  .spared hx hs (by rw [handed]; exact ite_self []) h

variable (hs : s.Over place xs.length) (hx : w.store[place]? = some xs)

include hs hx

theorem move {go : Cursor α → Except Fault (Cursor α)}
    (hg : ∀ {c d}, go c = .ok d → d.source? = c.source?) (ht : s.takes q = false)
    (h : s.answer (κ := κ) q = s.move r go) : s.Conserves place xs w q := by
  cases hr : s.registers[r]? with
  | none => exact .refused hx hs (by rw [h, Session.move, withRegister_none hr]; rfl)
  | some c =>
    rw [Session.move, withRegister_some hr] at h
    cases hd : go c with
    | error e => exact .inl ⟨e, by rw [h, hd]; rfl⟩
    | ok d =>
      refine .spared hx (hs.put r ((hg hd).trans (hs.register hr))) ?_ (by rw [h, hd]; rfl)
      rw [handed, ht]
      rfl

theorem copy (r : Nat) : s.Conserves place xs w (.copy r) := by
  cases hr : s.registers[r]? with
  | none => exact .refused hx hs (by rw [answer, withRegister_none hr]; rfl)
  | some c =>
    exact .spared hx (hs.copy (hs.register hr)) rfl (by rw [answer, withRegister_some hr]; rfl)

theorem read (r : Nat) : s.Conserves place xs w (.read r) := by
  cases hr : s.registers[r]? with
  | none => exact .refused hx hs (by rw [answer, withRegister_none hr]; rfl)
  | some c =>
    have ha : s.answer (.read r) w = (do return (Reply.element (← c.read), s)) w := by
      rw [answer, withRegister_some hr]
    have htake : s.takes (.read r) = !c.keeps := by rw [takes, hr]; rfl
    obtain ⟨p, hp⟩ := hs.slot hr
    have hw := slot?_of_getElem? hx p
    cases hxp : xs[p]? with
    | none =>
      obtain ⟨e, he⟩ := Cursor.read_error ((Cursor.look_of_slot? hp w.store).trans (hw.trans hxp))
      exact .inl ⟨e, ha.trans (Run.bind_error he)⟩
    | some x =>
      have hread := Cursor.read_eq ((Cursor.look_of_slot? hp w.store).trans (hw.trans hxp))
      rw [Run.bind_ok hread] at ha
      cases hk : c.keeps with
      | true =>
        rw [Cursor.drain_of_keeps hk] at ha
        exact .spared hx hs (by rw [handed, htake, hk]; rfl) ha
      | false =>
        rw [Cursor.drain, if_neg (by rw [hk]; decide), clear_place hp hx] at ha
        refine .inr ⟨_, s, _, ha, hs, ?_⟩
        rw [hk] at htake
        rw [handed, htake]
        refine .taken ?_ hxp
        rw [touches, htake, slot?_of_register hr hp]
        exact List.mem_singleton.2 rfl

theorem moveOut (r : Nat) : s.Conserves place xs w (.moveOut r) := by
  cases hr : s.registers[r]? with
  | none => exact .refused hx hs (by rw [answer, withRegister_none hr]; rfl)
  | some c =>
    have ha : s.answer (.moveOut r) w = (do return (Reply.element (← c.moveOut), s)) w := by
      rw [answer, withRegister_some hr]
    obtain ⟨p, hp⟩ := hs.slot hr
    have hw := slot?_of_getElem? hx p
    cases hxp : xs[p]? with
    | none =>
      obtain ⟨e, he⟩ := Cursor.moveOut_error (w := w) fun _ =>
        (Cursor.look_of_slot? hp w.store).trans (hw.trans hxp)
      exact .inl ⟨e, ha.trans (Run.bind_error he)⟩
    | some x =>
      have hmove := Cursor.moveOut_eq (Cursor.movable_of_slot? hp)
        ((Cursor.look_of_slot? hp w.store).trans (hw.trans hxp))
      rw [Run.bind_ok hmove, clear_place hp hx] at ha
      refine .inr ⟨_, s, _, ha, hs, .taken ?_ hxp⟩
      rw [touches, slot?_of_register hr hp]
      exact List.mem_singleton.2 rfl

theorem swap (r t : Nat) : s.Conserves place xs w (.swap r t) := by
  cases hr : s.registers[r]? with
  | none => exact .refused hx hs (by rw [answer, withRegisters, withRegister_none hr]; rfl)
  | some c =>
    cases ht : s.registers[t]? with
    | none =>
      refine .refused hx hs ?_
      rw [answer, withRegisters, withRegister_some hr, withRegister_none ht]
      rfl
    | some d =>
      have ha : s.answer (.swap r t) w = (do c.swap d; return (Reply.done, s)) w := by
        rw [answer, withRegisters, withRegister_some hr, withRegister_some ht]
      obtain ⟨p, hp⟩ := hs.slot hr
      obtain ⟨q, hq⟩ := hs.slot ht
      obtain ⟨e, he⟩ | ⟨x, y, hxp, hyq, hswap⟩ := Cursor.swap_cases (w := w) hp hq
      · exact .inl ⟨e, ha.trans (Run.bind_error he)⟩
      rw [slot?_of_getElem? hx] at hxp hyq
      rw [Run.bind_ok hswap, put_put_place hx] at ha
      by_cases hpq : p = q
      · subst hpq
        obtain rfl : x = y := Option.some_inj.1 (hxp.symm.trans hyq)
        obtain ⟨hlt, rfl⟩ := List.getElem?_eq_some_iff.1 hxp
        rw [List.set_set, List.set_getElem_self hlt, set_place hx] at ha
        exact .spared hx hs rfl ha
      · have htouch : s.touches (.swap r t) = [p, q] := by
          rw [touches, slot?_of_register hr hp, slot?_of_register ht hq, if_neg (by simpa using hpq)]
          rfl
        refine .inr ⟨_, s, _, ha, hs, .exchanged ?_ ?_ hpq hxp hyq⟩ <;> simp [htouch]

end Conserves

/-- Each of the requests does so. -/
theorem conserves [IntCast α] [Inhabited α] (hs : s.Over place xs.length)
    (hx : w.store[place]? = some xs) {q : Request} (hq : q.basic = true) :
    s.Conserves place xs w q := by
  cases q with
  | copy r => exact .copy hs hx r
  | step r => exact .move hs hx (fun h => (Cursor.displaced_step h).source?) rfl rfl
  | stepBack r => exact .move hs hx (fun h => (Cursor.displaced_stepBack h).source?) rfl rfl
  | advance r n => exact .move hs hx (fun h => (Cursor.displaced_advance h).source?) rfl rfl
  | jump r n => exact .move hs hx (fun h => (Cursor.displaced_jump h).source?) rfl rfl
  | read r => exact .read hs hx r
  | moveOut r => exact .moveOut hs hx r
  | swap r t => exact .swap hs hx r t
  | _ => cases hq

/-! ## Sequences of requests -/

/-- What comes out first and what comes out later is what comes out. -/
theorem perm_append_handed {xs ys zs as bs cs ds : List α} (h : (ys ++ as).Perm (xs ++ cs))
    (h' : (zs ++ bs).Perm (ys ++ ds)) : (zs ++ (as ++ bs)).Perm (xs ++ (cs ++ ds)) := by
  have hc (as bs cs : List α) : (as ++ (bs ++ cs)).Perm (as ++ cs ++ bs) := by
    rw [List.append_assoc]
    exact List.perm_append_comm.append_left as
  calc
    (zs ++ (as ++ bs)).Perm (zs ++ bs ++ as) := hc zs as bs
    List.Perm _ (ys ++ ds ++ as) := h'.append_right as
    List.Perm _ (ys ++ (as ++ ds)) := (hc ys as ds).symm
    List.Perm _ (ys ++ as ++ ds) := .of_eq (List.append_assoc ..).symm
    List.Perm _ (xs ++ cs ++ ds) := h.append_right ds
    List.Perm _ (xs ++ (cs ++ ds)) := .of_eq (List.append_assoc ..)

section Runs

variable [IntCast α] [Inhabited α]

/-- Requests are answered one after the other. Where one stops at a fault, the cursors may be left
anywhere on the sequence. `handed` has come out by then. -/
inductive Goes (place n : Nat) :
    Session α → World α κ → List α → Session α → World α κ → Prop where
  | here (s : Session α) (w : World α κ) : Goes place n s w [] s w
  | answered {s t u : Session α} {w v z : World α κ} {q : Request} {l : Reply α} {handed : List α}
    (hq : q.basic = true) (h : s.answer q w = .ok (l, t) v) (rest : Goes place n t v handed u z) :
    Goes place n s w (s.handed q l ++ handed) u z
  | faulted {s t u : Session α} {w v z : World α κ} {q : Request} {e : Fault} {handed : List α}
    (hq : q.basic = true) (h : s.answer q w = .error e v) (ht : t.Over place n)
    (rest : Goes place n t v handed u z) : Goes place n s w handed u z

theorem Goes.conserves {handed : List α} (h : Goes place n s w handed u v) (hs : s.Over place n)
    (hx : w.store[place]? = some xs) (hn : xs.length = n) :
    u.Over place n ∧ ∃ ys, v = ⟨w.store.set place ys, w.calls⟩ ∧ ys.length = n ∧
      (ys ++ handed).Perm (xs ++ List.replicate handed.length default) := by
  induction h generalizing xs with
  | here s w => exact ⟨hs, xs, (set_place hx).symm, hn, .refl _⟩
  | @answered s t u w v z q l handed hq h rest ih =>
    subst hn
    obtain ⟨e, he⟩ | ⟨l', t', ys, ha, ht, he⟩ := Session.conserves hs hx hq
    · cases h.symm.trans he
    · obtain ⟨⟨rfl, rfl⟩, rfl⟩ : (l = l' ∧ t = t') ∧ v = _ := by simpa using h.symm.trans ha
      obtain ⟨hu, zs, rfl, hz, hp⟩ :=
        ih ht (List.getElem?_set_self (set_of_getElem? hx).1) he.length_eq
      refine ⟨hu, zs, by rw [List.set_set], hz, ?_⟩
      rw [List.length_append, ← List.replicate_append_replicate]
      exact perm_append_handed he.perm hp
  | faulted hq h ht rest ih =>
    subst hn
    obtain ⟨e, he⟩ | ⟨l, t, ys, ha, -⟩ := Session.conserves hs hx hq
    · cases h.symm.trans he
      exact ih ht hx rfl
    · cases h.symm.trans ha

/-- At any time, in whatever order cursors on one sequence have been asked, its elements and those
that have come out are the elements that it had at first and one default element for each that has
come out. From there on, a request that stops at a fault leaves everything as it was, and one that is
answered changes nothing but the slots that it touches. -/
theorem requests_conserve {handed : List α} (hx : w.store[place]? = some xs)
    (hs : s.Over place xs.length) (h : Goes place xs.length s w handed u v) :
    ∃ ys, v = ⟨w.store.set place ys, w.calls⟩ ∧ ys.length = xs.length ∧
      (ys ++ handed).Perm (xs ++ List.replicate handed.length default) ∧
      ∀ q : Request, q.basic = true → match u.answer q v with
        | .error _ z => z = v
        | .ok _ z => ∃ zs, z = ⟨w.store.set place zs, w.calls⟩ ∧ zs.length = xs.length ∧
          ∀ j, j ∉ u.touches q → zs[j]? = ys[j]? := by
  obtain ⟨hu, ys, rfl, hy, hp⟩ := h.conserves hs hx rfl
  refine ⟨ys, rfl, hy, hp, fun q hq => ?_⟩
  have hv := List.getElem?_set_self (a := ys) (set_of_getElem? hx).1
  obtain ⟨e, he⟩ | ⟨l, t, zs, ha, -, he⟩ :=
    Session.conserves (w := ⟨w.store.set place ys, w.calls⟩) (hy.symm ▸ hu) hv hq
  · rw [he]
  · rw [ha]
    exact ⟨zs, by rw [List.set_set], he.length_eq.trans hy, fun j => he.untouched⟩

end Runs

/-- A bare cursor, a counted one that moves elements out and its copy, and one that only goes forward
and comes to a fault. -/
theorem requests_conserve_mixed :
    let source : Cursor Int := .slice (.stored 1 3) 0
    let s : Session Int :=
      ⟨[source, .moving (.counted source 3), .forwardOnly (.moving (.slice (.stored 1 3) 2))],
        .unreachable⟩
    let w : World Int Unit := ⟨[[7], [1, 2, 3]], ()⟩
    ∃ u v, Goes 1 3 s w [3, 0] u v ∧ v.store = [[7], [0, 2, 1]] ∧
      ([0, 2, 1, 3, 0] : List Int).Perm [1, 2, 3, 0, 0] := by
  intro source s w
  let t : Session Int :=
    ⟨[source, .moving (.counted source 3), .forwardOnly (.moving (.slice (.stored 1 3) 3)),
      .moving (.counted (.slice (.stored 1 3) 2) 1)], .unreachable⟩
  have hs : s.Over 1 3 := by simp [Over, s, source, Cursor.source?]
  have ht : t.Over 1 3 := by simp [Over, t, source, Cursor.source?]
  let v : World Int Unit := ⟨[[7], [0, 2, 1]], ()⟩
  have h : Goes 1 3 s w [3, 0] t v := by
    refine .answered (q := .swap 0 0) (l := .done) rfl rfl ?_
    refine .answered (q := .read 2) (l := .element 3) rfl rfl ?_
    refine .answered (q := .copy 1) (l := .register 3) rfl rfl ?_
    refine .answered (q := .jump 3 2) (l := .location (.counted (.index 2) 1)) rfl rfl ?_
    refine .answered (q := .swap 1 3) (l := .done) rfl rfl ?_
    refine .answered (q := .step 2) (l := .location (.index 3)) rfl rfl ?_
    refine .faulted (q := .read 2) rfl rfl ht ?_
    exact .answered (q := .moveOut 1) (l := .element 0) rfl rfl (.here t v)
  have hx : w.store[1]? = some [1, 2, 3] := rfl
  obtain ⟨ys, hv, -, hp, -⟩ := requests_conserve hx hs h
  obtain rfl : [0, 2, 1] = ys := by simpa [v, w] using hv
  exact ⟨t, v, h, rfl, hp⟩

end Session

end Waymark
