import Waymark.Proofs.Cursor.Moves
import Waymark.Proofs.Session.Conserved

/-!
# Counts are kept

A counted cursor is moved in two places: its base goes on, and the count goes down. `Counts` says
that the two agree: the base is as far from where it started as has been counted off. Every move
keeps it (`Counts.go`), so it holds of every copy at any time (`Performs.registers`). As two copies
are then as far apart as their bases are, whatever is asked about them may be answered from the
counts alone, as it is.
-/

namespace Waymark

variable {α κ : Type}

/-- The fault of a move that goes past the end of a count. -/
def Move.pastCount : Move → Option Fault
  | step => some .stepPastCount
  | stepBack => none
  | advance _ => some .advancePastCount
  | jump _ => some .jumpPastCount

namespace Cursor

variable {base b c d : Cursor α} {n : Int} {r t : Nat}

/-- A count has been started at `base` with `n`, and the base has gone on by what has been counted off
since. -/
structure Counts (base : Cursor α) (n : Int) (b : Cursor α) (r : Nat) : Prop where
  gone : Displaced (n - r) base b
  fits : base.width.Fits r

theorem fits_of_sub {w : Width} {moved : Except Fault (Cursor α)} (hn : n ≤ r)
    (h : (do return counted (← moved) (← w.sub r n).toNat) = Except.ok (counted c t)) :
    w.Fits t := by
  obtain ⟨u, -, h⟩ := bind_eq_ok_iff.1 h
  obtain ⟨x, hx, e⟩ := bind_eq_ok_iff.1 h
  cases e
  obtain ⟨hf, rfl⟩ := Width.sub_eq_ok_iff.1 hx
  rwa [Int.toNat_of_nonneg (by omega)]

/-- What is left after a move can be written: it is less than before, or has been checked. -/
theorem fits_go {m : Move} (h : m.go (counted b r) = .ok (counted c t)) (hr : b.width.Fits r) :
    b.width.Fits t := by
  cases m with
  | step =>
    simp only [Move.go, Cursor.step] at h
    split at h
    · cases h
    · obtain ⟨u, -, e⟩ := bind_eq_ok_iff.1 h
      cases e
      exact hr.of_le (Nat.sub_le r 1)
  | stepBack =>
    obtain ⟨u, -, h⟩ := bind_eq_ok_iff.1 h
    obtain ⟨x, hx, e⟩ := bind_eq_ok_iff.1 h
    cases e
    obtain ⟨hf, rfl⟩ := Width.add_eq_ok_iff.1 hx
    rwa [Int.toNat_of_nonneg (by omega)]
  | advance n =>
    simp only [Move.go, Cursor.advance] at h
    split at h
    · next hn => exact fits_of_sub hn h
    · cases h
  | jump n =>
    simp only [Move.go, Cursor.jump] at h
    split at h
    · next hn => exact fits_of_sub hn h
    · cases h

namespace Counts

theorem start (hn : base.width.Fits r) : Counts base r base r where
  gone := by
    rw [Int.sub_self]
    exact .refl base
  fits := hn

/-- Every move goes on as far as it counts off. -/
theorem go (h : Counts base n b r) {m : Move} (hm : m.go (counted b r) = .ok d) :
    ∃ c t, d = counted c t ∧ Counts base n c t := by
  obtain ⟨c, t, rfl, hc, ht⟩ : ∃ c t, d = counted c t ∧ Displaced m.span b c ∧
      (t : Int) = r - m.span := by
    cases displaced_go hm with
    | counted hc ht => exact ⟨_, _, rfl, hc, ht⟩
  have hsum : n - r + m.span = n - t := by omega
  refine ⟨c, t, rfl, hsum ▸ h.gone.trans hc, ?_⟩
  rw [← h.gone.width]
  exact fits_go hm (h.gone.width.symm ▸ h.fits)

/-- Copies are as far apart as their bases. -/
theorem between (h : Counts base n b r) (h' : Counts base n c t) : Displaced ((r : Int) - t) b c := by
  have hn : n - t - (n - r) = (r : Int) - t := by omega
  exact hn ▸ h.gone.between h'.gone

end Counts

/-- What a count of `n` steps from `base` comes to, at any time. -/
structure InCount (base : Cursor α) (n : Int) (b : Cursor α) (r : Nat) : Prop where
  /-- No count is cut off at zero: the sum is exact. -/
  sum : b.location.position + r = base.location.position + n
  measure : Bound.countEnd.measure (counted b r) = .ok (some (r : Int))
  isEnd_iff : Bound.countEnd.isEnd (counted b r) = true ↔ r = 0
  /-- So many steps further is the end, if the base can go there. -/
  ends {d : Cursor α} : b.stepTimes r = .ok d → Bound.countEnd.LiesAhead (counted b r) r
  /-- What would go past the end is refused, whatever the base might do. -/
  refused {m : Move} : r < m.span →
    ∃ e, m.pastCount = some e ∧ ∀ c : Cursor α, m.go (counted c r) = .error e

theorem Counts.inCount (h : Counts base n b r) : InCount base n b r where
  sum := by
    rw [h.gone.position]
    omega
  measure := rfl
  isEnd_iff := beq_iff_eq
  ends hd := Bound.liesAhead_countEnd_iff.2 ⟨rfl, stepTimes_eq_hop hd ▸ hd⟩
  refused {m} hm := by
    cases m with
    | step =>
      obtain rfl : r = 0 := by
        simp only [Move.span] at hm
        omega
      exact ⟨_, rfl, fun _ => rfl⟩
    | stepBack =>
      simp only [Move.span] at hm
      omega
    | advance k => exact ⟨_, rfl, fun _ => if_neg (Int.not_le.2 hm)⟩
    | jump k => exact ⟨_, rfl, fun _ => if_neg (Int.not_le.2 hm)⟩

/-- What counted cursors tell about each other is what their bases do. -/
structure Agreeing (b : Cursor α) (r : Nat) (c : Cursor α) (t : Nat) : Prop where
  same : b.copyable = true → b.same c = .ok (decide (r = t)) ∧
    (counted b r).same (counted c t) = .ok (decide (r = t))
  order : b.can .randomAccess = true → b.order c = .ok (compare t r) ∧
    (counted b r).order (counted c t) = .ok (compare t r)
  offsetFrom : b.can .randomAccess = true → b.offsetFrom c = .ok ((t : Int) - r) ∧
    (counted b r).offsetFrom (counted c t) = .ok ((t : Int) - r)

/-- Each question is answered by how far apart the cursors are, and the counted ones are as far apart
as their bases. The difference can be written if both counts can, with positions in a slice taken for
distances (`Cursor.offsetFrom`). -/
theorem Counts.agreeing (h : Counts base n b r) (h' : Counts base n c t) : Agreeing b r c t where
  same hb := by
    have hd := h.between h'
    have hc : Displaced ((r : Int) - t) (counted b r) (counted c t) := .counted hd (by omega)
    have he : decide ((r : Int) - t = 0) = decide (r = t) := decide_eq_decide.2 (by omega)
    exact he ▸ ⟨hd.same hb, hc.same hb⟩
  order hb := by
    have hd := h'.between h
    have hc : Displaced ((t : Int) - r) (counted c t) (counted b r) := .counted hd (by omega)
    have he : compare ((t : Int) - r) 0 = compare t r := by
      rw [compare_natCast]
      exact (compare_eq_compare_zero (by omega)).symm
    rw [hd.can] at hb
    exact he ▸ ⟨hd.order hb, hc.order hb⟩
  offsetFrom hb := by
    have hd := h'.between h
    have hc : Displaced ((t : Int) - r) (counted c t) (counted b r) := .counted hd (by omega)
    have hs : c.width.sub ((t : Int) - r) 0 = .ok ((t : Int) - r) := by
      rw [h'.gone.width]
      exact Width.sub_zero_eq_ok (Width.fits_sub_natCast h'.fits.2 h.fits.2)
    rw [hd.can] at hb
    exact ⟨(hd.offsetFrom hb).trans hs, (hc.offsetFrom hb).trans hs⟩

end Cursor

namespace Session

variable {s t u : Session α} {w v z : World α κ}

theorem withRegister_ok {answer : Cursor α → Run α κ (Reply α × Session α)} {r : Nat} {l : Reply α}
    (h : s.withRegister r answer w = .ok (l, t) v) :
    t = s ∨ ∃ c ∈ s.registers, answer c w = .ok (l, t) v := by
  cases hr : s.registers[r]? with
  | none =>
    rw [withRegister_none hr] at h
    cases h
    exact .inl rfl
  | some c =>
    rw [withRegister_some hr] at h
    exact .inr ⟨c, List.mem_of_getElem? hr, h⟩

theorem move_registers {P : Cursor α → Prop}
    (hP : ∀ {c d : Cursor α} {m : Move}, P c → m.go c = .ok d → P d) (m : Move) {r : Nat}
    {l : Reply α} (hs : ∀ c ∈ s.registers, P c) (h : s.move r m.go w = .ok (l, t) v) :
    ∀ c ∈ t.registers, P c := by
  obtain rfl | ⟨c, hc, h⟩ := withRegister_ok h
  · exact hs
  · obtain ⟨d, _, hd, h⟩ := Run.bind_ok_iff.1 h
    cases h
    intro e he
    obtain he | rfl := List.mem_or_eq_of_mem_set he
    · exact hs e he
    · exact hP (hs c hc) (Run.lift_ok_iff.1 hd).1

variable [IntCast α] [Inhabited α]

/-- Requests to copy cursors, to move them and to work on their elements are answered one after the
other. -/
inductive Performs : Session α → World α κ → Session α → World α κ → Prop where
  | here (s : Session α) (w : World α κ) : Performs s w s w
  | next {s t u : Session α} {w v z : World α κ} {q : Request} {l : Reply α}
    (hq : q.basic = true) (h : s.perform q w = .ok (l, t) v) (rest : Performs t v u z) :
    Performs s w u z

section Registers

variable {P : Cursor α → Prop}
  (hP : ∀ {c d : Cursor α} {m : Move}, P c → m.go c = .ok d → P d)

include hP

theorem answer_registers {q : Request} (hq : q.basic = true) {l : Reply α}
    (hs : ∀ c ∈ s.registers, P c) (h : s.answer q w = .ok (l, t) v) :
    ∀ c ∈ t.registers, P c := by
  cases q with
  | copy r =>
    obtain rfl | ⟨c, hc, h⟩ := withRegister_ok h
    · exact hs
    · cases h
      intro e he
      obtain he | he := List.mem_append.1 he
      · exact hs e he
      · exact List.mem_singleton.1 he ▸ hs c hc
  | step r => exact move_registers hP .step hs h
  | stepBack r => exact move_registers hP .stepBack hs h
  | advance r n => exact move_registers hP (.advance n) hs h
  | jump r n => exact move_registers hP (.jump n) hs h
  | read r =>
    obtain rfl | ⟨c, -, h⟩ := withRegister_ok h
    · exact hs
    · obtain ⟨x, _, -, h⟩ := Run.bind_ok_iff.1 h
      cases h
      exact hs
  | moveOut r =>
    obtain rfl | ⟨c, -, h⟩ := withRegister_ok h
    · exact hs
    · obtain ⟨x, _, -, h⟩ := Run.bind_ok_iff.1 h
      cases h
      exact hs
  | swap r k =>
    obtain rfl | ⟨c, -, h⟩ := withRegister_ok h
    · exact hs
    obtain rfl | ⟨d, -, h⟩ := withRegister_ok h
    · exact hs
    · obtain ⟨x, _, -, h⟩ := Run.bind_ok_iff.1 h
      cases h
      exact hs
  | _ => cases hq

/-- What every move keeps is so in all registers, at any time. -/
theorem Performs.registers (h : Performs s w u z) (hs : ∀ c ∈ s.registers, P c) :
    ∀ c ∈ u.registers, P c := by
  induction h with
  | here s w => exact hs
  | next hq h rest ih =>
    rw [perform] at h
    split at h
    · exact ih (answer_registers hP hq hs h)
    · cases h
      exact ih hs

end Registers

open Cursor in
/-- However a counted cursor and its copies have been moved. -/
theorem counted_throughout {base start : Cursor α} {n : Int} {last : Bound α}
    (hn : base.width.Fits n) (hc : countedFrom base n = .ok start)
    (h : Performs ⟨[start], last⟩ w u v) :
    (∀ d ∈ u.registers, ∃ b r, d = .counted b r ∧ InCount base n b r) ∧
      ∀ b r c t, counted b r ∈ u.registers → counted c t ∈ u.registers → Agreeing b r c t := by
  have hall : ∀ d ∈ u.registers, ∃ b r, d = .counted b r ∧ Counts base n b r := by
    refine h.registers (fun {c d m} hc hm => ?_) fun d hd => ?_
    · obtain ⟨b, r, rfl, hb⟩ := hc
      exact hb.go hm
    · obtain rfl := List.mem_singleton.1 hd
      unfold countedFrom at hc
      split at hc
      · rename_i h0
        cases hc
        obtain ⟨r, rfl⟩ := Int.eq_ofNat_of_zero_le h0
        exact ⟨base, r, rfl, .start hn⟩
      · cases hc
  constructor
  · intro d hd
    obtain ⟨b, r, rfl, hb⟩ := hall d hd
    exact ⟨b, r, rfl, hb.inCount⟩
  · intro b r c t hb hc
    obtain ⟨_, _, ⟨⟩, hb⟩ := hall _ hb
    obtain ⟨_, _, ⟨⟩, hc⟩ := hall _ hc
    exact hb.agreeing hc

/-- Two copies of a cursor that moves elements out: one is back where it was and before, the other one
is at the end of the count. -/
theorem counted_throughout_moving :
    let base : Cursor Int := .moving (.slice (.stored 0 5) 1)
    let there (p : Nat) : Cursor Int := .moving (.slice (.stored 0 5) p)
    let w : World Int Unit := ⟨[[1, 2, 3, 4, 5]], ()⟩
    ∃ u, Performs ⟨[.counted base 3], .countEnd⟩ w u w ∧
      u.registers = [.counted (there 0) 4, .counted (there 4) 0] ∧
      (there 4).offsetFrom (there 0) = .ok 4 ∧
      (Cursor.counted (there 4) 0).offsetFrom (.counted (there 0) 4) = .ok 4 ∧
      Bound.countEnd.LiesAhead (.counted (there 0) 4) 4 := by
  intro base there w
  let u : Session Int := ⟨[.counted (there 0) 4, .counted (there 4) 0], .countEnd⟩
  have h : Performs ⟨[.counted base 3], .countEnd⟩ w u w := by
    refine .next (q := .copy 0) (l := .register 1) rfl rfl ?_
    refine .next (q := .jump 1 2) (l := .location (.counted (.index 3) 1)) rfl rfl ?_
    refine .next (q := .stepBack 0) (l := .location (.counted (.index 0) 4)) rfl rfl ?_
    exact .next (q := .advance 1 1) (l := .location (.counted (.index 4) 0)) rfl rfl (.here u w)
  obtain ⟨hall, htwo⟩ := counted_throughout (n := 3) (by decide) rfl h
  obtain ⟨b, r, e, hb⟩ := hall _ (List.mem_cons_self ..)
  obtain ⟨rfl, rfl⟩ := Cursor.counted.inj e
  have ho := (htwo _ _ _ _ (List.mem_cons_of_mem _ (List.mem_cons_self ..))
    (List.mem_cons_self ..)).offsetFrom rfl
  exact ⟨u, h, rfl, ho.1, ho.2, hb.ends rfl⟩

end Session

end Waymark
