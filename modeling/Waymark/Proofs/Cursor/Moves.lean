import Waymark.Proofs.Cursor.Displaced
import Waymark.Proofs.Kinds

/-!
# Cursors as integers

The kinds of cursor that can serve as bounds (slices, repeated views, integers, and moving cursors
over these) go about as an integer does in an interval. `Room` is that interval: the positions of the
sequence, or the integers of the width. Whatever the move, it is a jump by its `span`
(`go_eq_ok_iff_jump`), and a jump succeeds just where its target is in the interval
(`jump_eq_ok_iff`), however large the distance is. So moves in a row come to the sum of their spans
(`displaced_travel`), and single steps come where a jump does, or fault as it does
(`stepTimes_eq_ok_iff_jump`).
-/

namespace Waymark

/-- The ways to move a cursor. -/
inductive Move where
  | step
  | stepBack
  | advance (n : Int)
  | jump (n : Int)
  deriving DecidableEq, Repr

namespace Move

variable {α : Type}

/-- Moves the cursor. -/
def go : Move → Cursor α → Except Fault (Cursor α)
  | step, c => c.step
  | stepBack, c => c.stepBack
  | advance n, c => c.advance n
  | jump n, c => c.jump n

/-- How far it goes. -/
def span : Move → Int
  | step => 1
  | stepBack => -1
  | advance n => n
  | jump n => n

/-- How far moves go that are made one after the other. -/
def net : List Move → Int
  | [] => 0
  | m :: ms => m.span + net ms

end Move

namespace Cursor

variable {α : Type} {c d e : Cursor α} {n : Int}

/-- Makes the moves one after the other. -/
def travel : List Move → Cursor α → Except Fault (Cursor α)
  | [], c => .ok c
  | m :: ms, c => do travel ms (← m.go c)

theorem displaced_go {m : Move} (h : m.go c = .ok d) : Displaced m.span c d := by
  cases m with
  | step => exact displaced_step h
  | stepBack => exact displaced_stepBack h
  | advance n => exact displaced_advance h
  | jump n => exact displaced_jump h

theorem displaced_travel {ms : List Move} (h : c.travel ms = .ok d) :
    Displaced (Move.net ms) c d := by
  induction ms generalizing c with
  | nil =>
    cases h
    exact .refl _
  | cons m ms ih =>
    obtain ⟨t, ht, h⟩ := bind_eq_ok_iff.1 h
    exact (displaced_go ht).trans (ih h)

/-- The positions at which a cursor of the kind may stand. -/
def Room : Cursor α → Int → Prop
  | slice s _, x => 0 ≤ x ∧ x ≤ s.length
  | repeated .., x => Width.w64.Fits x
  | iota w _, x => w.Fits x
  | moving b, x => b.Room x
  | _, _ => False

/-- The cursor can serve as a bound, stands where it may, and is on no longer a sequence than can be
measured. Every slice of elements that take up space is as short as that. -/
structure Settled (c : Cursor α) : Prop where
  kind : c.can .selfBound = true
  room : c.Room c.location.position
  short {s : Source α} : c.source? = some s → (s.length : Int) ≤ Width.w64.max

theorem Room.mid {x y z : Int} (hx : c.Room x) (hz : c.Room z) (hxy : x ≤ y) (hyz : y ≤ z) :
    c.Room y := by
  induction c with
  | slice s p => exact ⟨Int.le_trans hx.1 hxy, Int.le_trans hyz hz.2⟩
  | repeated v x p => exact ⟨Int.le_trans hx.1 hxy, Int.le_trans hyz hz.2⟩
  | iota w x => exact ⟨Int.le_trans hx.1 hxy, Int.le_trans hyz hz.2⟩
  | moving b ih => exact ih hx hz
  | _ => exact False.elim hx

namespace Displaced

theorem room (h : Displaced n c d) : d.Room = c.Room := by
  induction h with
  | moving _ ih => exact ih
  | _ => rfl

/-- What goes by its position alone is the same at the same position. -/
theorem eq_of_zero (h : Displaced 0 c d) (hc : c.can .selfBound = true) : c = d := by
  induction c generalizing d with
  | slice s p =>
    cases h with
    | @slice _ _ q hq =>
      obtain rfl : p = q := by omega
      rfl
  | repeated v x p =>
    cases h with
    | @repeated _ _ _ q hq =>
      obtain rfl : q = p := by omega
      rfl
  | iota w x =>
    cases h with
    | @iota _ _ y hy =>
      obtain rfl : y = x := by omega
      rfl
  | moving b ih =>
    cases h with
    | moving hd => rw [ih hd hc]
  | _ => cases hc

theorem settled (h : Displaced n c d) (hc : c.Settled) (hr : c.Room (c.location.position + n)) :
    d.Settled where
  kind := (h.can _).trans hc.kind
  room := by rwa [h.room, h.position]
  short hs := hc.short (h.source?.symm.trans hs)

end Displaced

namespace Settled

theorem base (h : (moving c).Settled) : c.Settled := ⟨h.kind, h.room, h.short⟩

/-- Where there is room, there is a cursor. -/
theorem exists_displaced (h : c.Settled) (hr : c.Room (c.location.position + n)) :
    ∃ d, Displaced n c d := by
  induction c with
  | slice s p => exact ⟨_, .slice (Int.toNat_of_nonneg hr.1)⟩
  | repeated v x p => exact ⟨_, .repeated rfl⟩
  | iota w x => exact ⟨_, .iota rfl⟩
  | moving b ih =>
    obtain ⟨d, hd⟩ := ih h.base hr
    exact ⟨_, .moving hd⟩
  | _ => cases h.kind

theorem room_of_jump (h : c.Settled) (hj : c.jump n = .ok d) :
    c.Room (c.location.position + n) := by
  induction c generalizing d with
  | slice s p =>
    obtain ⟨q, hq, -⟩ := bind_eq_ok_iff.1 hj
    obtain ⟨-, hq, hl⟩ := shifted_eq_ok_iff.1 hq
    show 0 ≤ (p : Int) + n ∧ (p : Int) + n ≤ s.length
    omega
  | repeated v x p =>
    obtain ⟨q, hq, -⟩ := bind_eq_ok_iff.1 hj
    obtain ⟨hf, rfl⟩ := Width.add_eq_ok_iff.1 hq
    exact hf
  | iota w x =>
    obtain ⟨y, hy, -⟩ := bind_eq_ok_iff.1 hj
    obtain ⟨hf, rfl⟩ := Width.add_eq_ok_iff.1 hy
    exact hf
  | moving b ih =>
    obtain ⟨t, ht, -⟩ := bind_eq_ok_iff.1 hj
    exact ih h.base ht
  | _ => cases h.kind

theorem jump_of_room (h : c.Settled) (hd : Displaced n c d)
    (hr : c.Room (c.location.position + n)) : c.jump n = .ok d := by
  induction hd with
  | @slice s p q hq =>
    -- the target can be written, for it is inside a sequence that can be measured
    have hf : Width.w64.Fits (p + n) := by
      have : (s.length : Int) ≤ Width.w64.max := h.short rfl
      have := Width.min_eq .w64
      obtain ⟨h0, hl⟩ : 0 ≤ (p : Int) + n ∧ (p : Int) + n ≤ s.length := hr
      exact ⟨by omega, by omega⟩
    exact bind_eq_ok_iff.2 ⟨q, shifted_eq_ok_iff.2 ⟨hf, hq, Int.ofNat_le.1 (hq ▸ hr.2)⟩, rfl⟩
  | @repeated v x p q hq => exact bind_eq_ok_iff.2 ⟨q, Width.add_eq_ok_iff.2 ⟨hq ▸ hr, hq⟩, rfl⟩
  | @iota w x y hy => exact bind_eq_ok_iff.2 ⟨y, Width.add_eq_ok_iff.2 ⟨hy ▸ hr, hy⟩, rfl⟩
  | moving _ ih => exact bind_eq_ok_iff.2 ⟨_, ih h.base hr, rfl⟩
  | _ => cases h.kind

/-- A jump goes wherever there is room, and nowhere else. -/
theorem jump_eq_ok_iff (h : c.Settled) :
    c.jump n = .ok d ↔ Displaced n c d ∧ c.Room (c.location.position + n) :=
  ⟨fun hj => ⟨displaced_jump hj, h.room_of_jump hj⟩, fun hd => h.jump_of_room hd.1 hd.2⟩

theorem advance_eq_jump (h : c.Settled) (n : Int) : c.advance n = c.jump n := by
  induction c with
  | moving b ih => rw [advance, jump, ih h.base]
  | stream s => cases h.kind
  | counted b r => cases h.kind
  | forwardOnly b => cases h.kind
  | _ => rfl

/-- What leads `n` positions further, and does so wherever there is room, is a jump. -/
theorem eq_ok_iff_jump (h : c.Settled) {act : Except Fault (Cursor α)}
    (hd : ∀ {e}, act = .ok e → Displaced n c e)
    (hr : (∃ e, act = .ok e) ↔ c.Room (c.location.position + n)) :
    act = .ok d ↔ c.jump n = .ok d := by
  rw [h.jump_eq_ok_iff]
  constructor
  · exact fun ha => ⟨hd ha, hr.1 ⟨d, ha⟩⟩
  · rintro ⟨hn, hroom⟩
    obtain ⟨e, he⟩ := hr.2 hroom
    have hz := (hd he).between hn
    rw [Int.sub_self] at hz
    rw [he, hz.eq_of_zero (((hd he).can _).trans h.kind)]

theorem step_eq_ok_iff_jump (h : c.Settled) : c.step = .ok d ↔ c.jump 1 = .ok d := by
  induction c generalizing d with
  | slice s p =>
    refine h.eq_ok_iff_jump displaced_step ?_
    show _ ↔ 0 ≤ (p : Int) + 1 ∧ (p : Int) + 1 ≤ s.length
    rw [step]
    split <;> simp <;> omega
  | repeated v x p => rfl
  | iota w x => rfl
  | moving b ih => simp only [step, jump, bind_eq_ok_iff, ih h.base]
  | _ => cases h.kind

theorem stepBack_eq_ok_iff_jump (h : c.Settled) : c.stepBack = .ok d ↔ c.jump (-1) = .ok d := by
  have hw {w : Width} {x y : Int} : w.sub x 1 = .ok y ↔ w.add x (-1) = .ok y := by
    rw [Width.sub_eq_ok_iff, Width.add_eq_ok_iff, Int.sub_eq_add_neg]
  induction c generalizing d with
  | slice s p =>
    have hp : 0 ≤ (p : Int) ∧ (p : Int) ≤ s.length := h.room
    refine h.eq_ok_iff_jump displaced_stepBack ?_
    show _ ↔ 0 ≤ (p : Int) + -1 ∧ (p : Int) + -1 ≤ s.length
    rw [stepBack]
    split <;> simp <;> omega
  | repeated v x p => simp only [stepBack, jump, bind_eq_ok_iff, hw]
  | iota w x => simp only [stepBack, jump, bind_eq_ok_iff, hw]
  | moving b ih => simp only [stepBack, jump, bind_eq_ok_iff, ih h.base]
  | _ => cases h.kind

/-- Every move is a jump. -/
theorem go_eq_ok_iff_jump (h : c.Settled) (m : Move) : m.go c = .ok d ↔ c.jump m.span = .ok d := by
  cases m with
  | step => exact h.step_eq_ok_iff_jump
  | stepBack => exact h.stepBack_eq_ok_iff_jump
  | advance n => rw [Move.go, h.advance_eq_jump, Move.span]
  | jump n => rfl

theorem go (h : c.Settled) {m : Move} (hm : m.go c = .ok d) : d.Settled :=
  have ⟨hd, hr⟩ := h.jump_eq_ok_iff.1 ((h.go_eq_ok_iff_jump m).1 hm)
  hd.settled h hr

theorem travel (h : c.Settled) {ms : List Move} (hm : c.travel ms = .ok d) : d.Settled := by
  induction ms generalizing c with
  | nil =>
    cases hm
    exact h
  | cons m ms ih =>
    obtain ⟨t, ht, hm⟩ := bind_eq_ok_iff.1 hm
    exact ih (h.go ht) hm

theorem go_error_iff (h : c.Settled) (m : Move) :
    (∃ e, m.go c = .error e) ↔ ¬c.Room (c.location.position + m.span) := by
  constructor
  · rintro ⟨e, he⟩ hr
    obtain ⟨d, hd⟩ := h.exists_displaced hr
    cases he.symm.trans ((h.go_eq_ok_iff_jump m).2 (h.jump_eq_ok_iff.2 ⟨hd, hr⟩))
  · intro hr
    cases hm : m.go c with
    | error e => exact ⟨e, rfl⟩
    | ok d => exact absurd (h.jump_eq_ok_iff.1 ((h.go_eq_ok_iff_jump m).1 hm)).2 hr

/-- Single steps go wherever there is room, for there is room on the way. -/
theorem stepTimes_eq_ok_iff_jump (h : c.Settled) {n : Nat} :
    c.stepTimes n = .ok d ↔ c.jump n = .ok d := by
  rw [h.jump_eq_ok_iff]
  induction n generalizing c with
  | zero =>
    constructor
    · rintro ⟨⟩
      exact ⟨.refl _, by simpa using h.room⟩
    · rintro ⟨hd, -⟩
      rw [hd.eq_of_zero h.kind]
      rfl
  | succ n ih =>
    have hcast : c.location.position + ((n + 1 : Nat) : Int) = c.location.position + 1 + n := by
      omega
    rw [stepTimes, bind_eq_ok_iff, hcast]
    constructor
    · rintro ⟨t, ht, hn⟩
      obtain ⟨hd, -⟩ := h.jump_eq_ok_iff.1 (h.step_eq_ok_iff_jump.1 ht)
      obtain ⟨hn, hr⟩ := (ih (h.go (m := .step) ht)).1 hn
      rw [hd.room, hd.position] at hr
      exact ⟨by simpa [Int.add_comm] using hd.trans hn, hr⟩
    · rintro ⟨hd, hr⟩
      have hr1 : c.Room (c.location.position + 1) := h.room.mid hr (by omega) (by omega)
      obtain ⟨t, ht⟩ := h.exists_displaced hr1
      have hs := ht.settled h hr1
      refine ⟨t, h.step_eq_ok_iff_jump.2 (h.jump_of_room ht hr1), (ih hs).2 ⟨?_, ?_⟩⟩
      · have := ht.between hd
        rwa [Int.natCast_add, Int.natCast_one, Int.add_sub_cancel] at this
      · rwa [ht.room, ht.position]

end Settled

theorem stepTimes_forwardOnly (n : Nat) (c : Cursor α) :
    (forwardOnly c).stepTimes n = forwardOnly <$> c.stepTimes n := by
  induction n generalizing c with
  | zero => rfl
  | succ n ih =>
    rw [stepTimes, stepTimes, step]
    cases c.step with
    | error e => rfl
    | ok d => exact ih d

theorem advance_forwardOnly (n : Nat) (c : Cursor α) :
    (forwardOnly c).advance n = forwardOnly <$> c.stepTimes n :=
  (if_neg (by omega)).trans (stepTimes_forwardOnly n c)

theorem room_iff_of_source? {s : Source α} (hk : c.can .selfBound = true)
    (hs : c.source? = some s) {x : Int} : c.Room x ↔ 0 ≤ x ∧ x ≤ s.length := by
  induction c with
  | slice t p =>
    cases hs
    rfl
  | moving b ih => exact ih hk hs
  | counted b r => cases hk
  | forwardOnly b => cases hk
  | _ => cases hs

/-- What serves as a bound can do more. -/
theorem can_of_selfBound (hk : c.can .selfBound = true) :
    c.can .movable = true ∧ c.can .randomAccess = true ∧ c.copyable = true := by
  induction c with
  | moving b ih => exact ih hk
  | stream s => cases hk
  | counted b r => cases hk
  | forwardOnly b => cases hk
  | _ => exact ⟨rfl, rfl, rfl⟩

/-- The element in the sequence at the position is looked at. -/
theorem look_of_source? [IntCast α] {s : Source α} {store : Store α} {xs : List α}
    (hk : c.can .selfBound = true) (hs : c.source? = some s) (hx : s.Holds store xs) :
    c.look store = xs[c.location.position.toNat]? := by
  induction c with
  | slice t p =>
    cases hs
    exact hx.look p
  | moving b ih => exact (if_pos (can_of_selfBound (c := b) hk).1).trans (ih hk hs)
  | counted b r => cases hk
  | forwardOnly b => cases hk
  | _ => cases hs

theorem Settled.read_error_iff {κ : Type} [IntCast α] [Inhabited α] (h : c.Settled) {s : Source α}
    {xs : List α} {w : World α κ} (hs : c.source? = some s) (hx : s.Holds w.store xs) :
    (∃ e v, c.read w = .error e v) ↔ c.location.position = s.length := by
  have hl := look_of_source? h.kind hs hx
  have hr := (room_iff_of_source? h.kind hs).1 h.room
  have hn := hx.length
  constructor
  · rintro ⟨e, v, he⟩
    -- short of the end there would be an element
    refine Decidable.byContradiction fun hp => ?_
    rw [List.getElem?_eq_getElem (by omega)] at hl
    cases he.symm.trans (read_eq hl)
  · intro hp
    rw [List.getElem?_eq_none (by omega)] at hl
    obtain ⟨e, he⟩ := read_error hl
    exact ⟨e, w, he⟩

/-- The cursor acts as the integer `x` does in its interval. -/
structure ActsAs [IntCast α] [Inhabited α] (c : Cursor α) (x : Int) : Prop where
  position : c.location.position = x
  room : c.Room x
  room_iff {s : Source α} {y : Int} : c.source? = some s → (c.Room y ↔ 0 ≤ y ∧ y ≤ s.length)
  /-- A move faults where it would leave the interval, and nowhere else. -/
  error_iff (m : Move) : (∃ e, m.go c = .error e) ↔ ¬c.Room (x + m.span)
  read_error_iff {κ : Type} {s : Source α} {xs : List α} {w : World α κ} :
    c.source? = some s → s.Holds w.store xs →
      ((∃ e v, c.read w = .error e v) ↔ x = s.length)
  advance_eq_jump (n : Int) : c.advance n = c.jump n
  stepTimes_iff_jump (n : Nat) {d : Cursor α} : c.stepTimes n = .ok d ↔ c.jump n = .ok d
  advance_forwardOnly (n : Nat) : (forwardOnly c).advance n = forwardOnly <$> c.stepTimes n

theorem Settled.actsAs [IntCast α] [Inhabited α] (h : c.Settled) :
    c.ActsAs c.location.position where
  position := rfl
  room := h.room
  room_iff hs := room_iff_of_source? h.kind hs
  error_iff := h.go_error_iff
  read_error_iff := h.read_error_iff
  advance_eq_jump := h.advance_eq_jump
  stepTimes_iff_jump _ := h.stepTimes_eq_ok_iff_jump
  advance_forwardOnly n := Cursor.advance_forwardOnly n c

/-- Asked about each other, two cursors tell that the second one is `n` further. -/
structure AheadBy (n : Int) (c d : Cursor α) : Prop where
  offsetFrom : d.offsetFrom c = .ok n
  same : d.same c = .ok (decide (n = 0))
  order : d.order c = .ok (compare n 0)
  /-- To jump by the offset is to go to the other cursor. -/
  jump : c.jump n = .ok d
  measure : (Bound.cursor d).measure c = .ok (some n)
  isEnd : (Bound.cursor d).isEnd c = decide (n = 0)

theorem Settled.aheadBy (hc : c.Settled) (hd : d.Settled) (h : Displaced n c d)
    (hn : c.width.Fits n) : AheadBy n c d := by
  have hs : c.width.sub n 0 = .ok n := Width.sub_zero_eq_ok hn
  obtain ⟨-, hr, -⟩ := can_of_selfBound hc.kind
  obtain ⟨-, -, hcopy⟩ := can_of_selfBound hd.kind
  have hroom := hd.room
  rw [h.room, h.position] at hroom
  exact {
    offsetFrom := (h.offsetFrom hr).trans hs
    same := by
      have he : decide (-n = 0) = decide (n = 0) := decide_eq_decide.2 (by omega)
      rw [h.symm.same (hcopy), he]
    order := h.order hr
    jump := hc.jump_of_room h hroom
    measure := by rw [h.measure hc.kind, hs]; rfl
    isEnd := h.isEnd hc.kind }

/-- After any moves that succeed, two copies of a cursor act as the integers to which the moves come,
and what they tell about each other is the difference, if it can be written. On a slice this needs one
whose length is a distance (`Settled.short`): beyond that, positions are no distances. -/
theorem travel_as_integers [IntCast α] [Inhabited α] (hc : c.Settled) {ms ns : List Move}
    (hd : c.travel ms = .ok d) (he : c.travel ns = .ok e) :
    d.ActsAs (c.location.position + Move.net ms) ∧
      (c.width.Fits (e.location.position - d.location.position) →
        AheadBy (e.location.position - d.location.position) d e) := by
  have hpd := (displaced_travel hd).position
  have hpe := (displaced_travel he).position
  refine ⟨hpd ▸ (hc.travel hd).actsAs, fun hf => ?_⟩
  have hn : e.location.position - d.location.position = Move.net ns - Move.net ms := by omega
  rw [hn] at hf ⊢
  have hde := (displaced_travel hd).between (displaced_travel he)
  refine (hc.travel hd).aheadBy (hc.travel he) hde ?_
  rwa [(displaced_travel hd).width]

/-- A cursor that moves elements out, in the middle of a sequence of five. -/
theorem travel_as_integers_moving :
    let c : Cursor Int := .moving (.slice (.stored 0 5) 1)
    ∃ d e, c.travel [.step, .jump 2, .stepBack] = .ok d ∧ c.travel [.advance 4, .jump (-5)] = .ok e ∧
      d.location.position = 3 ∧ (∃ f, (Move.jump Width.w64.max).go d = .error f) ∧
      e.offsetFrom d = .ok (-3) ∧ d.jump (-3) = .ok e := by
  intro c
  have hc : c.Settled :=
    ⟨rfl, show (0 : Int) ≤ 1 ∧ (1 : Int) ≤ 5 by decide, by rintro s ⟨⟩; decide⟩
  have hd : c.travel [.step, .jump 2, .stepBack] = .ok (.moving (.slice (.stored 0 5) 3)) := rfl
  have he : c.travel [.advance 4, .jump (-5)] = .ok (.moving (.slice (.stored 0 5) 0)) := rfl
  obtain ⟨hat, hahead⟩ := travel_as_integers hc hd he
  have hout : ¬(0 ≤ 3 + Width.w64.max ∧ 3 + Width.w64.max ≤ 5) := by decide
  have h := hahead (show Width.w64.Fits (-3) by decide)
  exact ⟨_, _, hd, he, hat.position, (hat.error_iff (.jump Width.w64.max)).2 hout, h.offsetFrom,
    h.jump⟩

end Cursor

end Waymark
