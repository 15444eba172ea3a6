import Waymark.Proofs.Sequence
import Waymark.Proofs.Cursor.Displaced

/-!
# Going to a bound at once and step by step

A bound that tells the distance is reached at once, any other one step by step. A cursor that stands
where it may (`Cursor.Placed`) and steps on still stands where it may, so that every position up to
the bound can be gone to at once as well. Hence both ways of going on, of going all the way and of
counting the way come to the same (`Bound.passages_agree`).
-/

namespace Waymark

variable {α : Type} {c d : Cursor α}

namespace Cursor

/-- The cursor stands at a position that there is, on no longer a sequence than can be measured. Every
slice of elements that take up space is as short as that. -/
structure Placed (c : Cursor α) : Prop where
  valid : c.Valid
  short {s : Source α} : c.source? = some s → (s.length : Int) ≤ Width.w64.max

namespace Placed

theorem valid_step (hc : c.Placed) (hs : c.step = .ok d) : d.Valid := by
  induction c generalizing d with
  | slice s p =>
    have hm : (s.length : Int) ≤ Width.w64.max := hc.short rfl
    simp only [Cursor.step] at hs
    split at hs <;> cases hs
    exact ⟨by omega, by omega⟩
  | repeated v x p =>
    obtain ⟨q, hq, e⟩ := bind_eq_ok_iff.1 hs
    cases e
    exact (Width.add_eq_ok_iff.1 hq).1
  | iota w x =>
    obtain ⟨y, hy, e⟩ := bind_eq_ok_iff.1 hs
    cases e
    exact (Width.add_eq_ok_iff.1 hy).1
  | stream s =>
    obtain ⟨t, -, e⟩ := bind_eq_ok_iff.1 hs
    cases e
    trivial
  | counted b r ih =>
    simp only [Cursor.step] at hs
    split at hs
    · cases hs
    · obtain ⟨t, ht, e⟩ := bind_eq_ok_iff.1 hs
      cases e
      have hr : b.width.Fits (r - 1 : Nat) := hc.valid.2.of_le (Nat.sub_le r 1)
      rw [← (displaced_step ht).width] at hr
      exact ⟨ih ⟨hc.valid.1, hc.short⟩ ht, hr⟩
  | moving b ih =>
    obtain ⟨t, ht, e⟩ := bind_eq_ok_iff.1 hs
    cases e
    exact @ih t ⟨hc.valid, hc.short⟩ ht
  | forwardOnly b ih =>
    obtain ⟨t, ht, e⟩ := bind_eq_ok_iff.1 hs
    cases e
    exact @ih t ⟨hc.valid, hc.short⟩ ht

theorem step (hc : c.Placed) (hs : c.step = .ok d) : d.Placed where
  valid := hc.valid_step hs
  short hd := hc.short ((displaced_step hs).source?.symm.trans hd)

theorem stepTimes {n : Nat} (hc : c.Placed) (hs : c.stepTimes n = .ok d) : d.Placed := by
  induction n generalizing c with
  | zero =>
    cases hs
    exact hc
  | succ n ih =>
    obtain ⟨t, ht, hs⟩ := bind_eq_ok_iff.1 hs
    exact ih (hc.step ht) hs

/-- Where steps lead, the cursor can go at once. -/
theorem advance {n : Nat} (hc : c.Placed) (hs : c.stepTimes n = .ok (c.hop n)) :
    c.advance n = .ok (c.hop n) :=
  advance_eq_hop hc.valid (hc.stepTimes hs).valid hs

end Placed

end Cursor

namespace Bound

variable {b : Bound α} {n : Nat}

/-- Counting goes on from a step to the next. -/
theorem countSteps_eq (b : Bound α) (m : Int) (c : Cursor α) :
    b.countSteps m c =
      if b.isEnd c then .ok (m, c)
      else (do
        let d ← c.step
        b.countSteps (← c.width.add m 1) d) := by
  rw [countSteps]
  refine ite_congr rfl (fun _ => rfl) fun _ => ?_
  split <;> rename_i h <;> rw [h] <;> rfl

/-- The steps to the bound are counted, if their number can be written. -/
theorem LiesAhead.countSteps (h : b.LiesAhead c n) {m : Nat} (hf : c.width.Fits (m + n : Nat)) :
    b.countSteps m c = .ok (((m + n : Nat) : Int), c.hop n) := by
  induction n generalizing c m with
  | zero => rw [countSteps_eq, if_pos (show b.isEnd c = true from h), Cursor.hop_zero, Nat.add_zero]
  | succ n ih =>
    obtain ⟨he, hs, h⟩ := liesAhead_succ_iff.1 h
    have ha : c.width.add m 1 = .ok ((m + 1 : Nat) : Int) :=
      Width.add_eq_ok_iff.2 ⟨hf.of_le (by omega), rfl⟩
    rw [countSteps_eq, if_neg (ne_true_of_eq_false he), hs, ok_bind, ha, ok_bind]
    have hmn : m + (n + 1) = m + 1 + n := by omega
    rw [hmn] at hf ⊢
    rw [ih h (by rwa [Cursor.width_hop]), Cursor.hop_hop, Nat.add_comm 1]

theorem isEnd_unreachable (c : Cursor α) : unreachable.isEnd c = false := by cases c <;> rfl

theorem measure_unreachable (c : Cursor α) : unreachable.measure c = .ok none := by
  cases c <;> rfl

theorem stepTowards_unreachable (n : Nat) (c : Cursor α) :
    unreachable.stepTowards n c = (fun d => (0, d)) <$> c.stepTimes n := by
  induction n generalizing c with
  | zero => rfl
  | succ n ih =>
    rw [stepTowards, Cursor.stepTimes, if_neg (by rw [isEnd_unreachable]; decide)]
    cases c.step with
    | error e => rfl
    | ok d => exact ih d

/-- Nothing stops a cursor on its way to nowhere but itself. -/
theorem advance_unreachable (n : Nat) (c : Cursor α) :
    unreachable.advance c n = (fun d => (0, d)) <$> c.stepTimes n := by
  rw [advance, if_neg (by omega), measure_unreachable, ok_bind]
  dsimp only
  rw [Int.toNat_natCast, stepTowards_unreachable]
  cases c.stepTimes n <;> rfl

theorem LiesAhead.distance (h : b.LiesAhead c n)
    (hm : b.measure c = .ok (if b.sized then some (n : Int) else none)) (hf : c.width.Fits n) :
    b.distance c = .ok ((n : Int), if b.sized then c else c.hop n) := by
  rw [Bound.distance, hm, ok_bind]
  cases b.sized with
  | true => rfl
  | false =>
    have := h.countSteps (m := 0) (by rwa [Nat.zero_add])
    rwa [Nat.zero_add] at this

/-- The bound is `d` steps ahead of the cursor, and every way to go there is one by so many steps. -/
structure Passage (b : Bound α) (c : Cursor α) (d : Nat) : Prop where
  steps : ∀ i ≤ d, c.stepTimes i = .ok (c.hop i)
  isEnd : ∀ i ≤ d, b.isEnd (c.hop i) = decide (i = d)
  measure : b.measure c = .ok (if b.sized then some (d : Int) else none)
  /-- What is left of a count can be written where the count can. -/
  advance (n : Nat) : c.width.Fits n → c.width.Fits (n - min n d : Nat) ∧
    b.advance c n = .ok (((n - min n d : Nat) : Int), c.hop (min n d))
  stepTowards (n : Nat) : b.stepTowards n c = .ok (n - min n d, c.hop (min n d))
  reach : b.reach c = .ok (c.hop d)
  stepAll : b.stepAll c = .ok (c.hop d)
  /-- The cursor has moved only if the steps had to be counted. -/
  distance : b.distance c = .ok ((d : Int), if b.sized then c else c.hop d)
  countSteps : b.countSteps 0 c = .ok ((d : Int), c.hop d)

theorem LiesAhead.passage (h : b.LiesAhead c n) (hs : b.Suits c) (hc : c.Placed)
    (hf : c.width.Fits n) : b.Passage c n := by
  have hm := h.measure hs fun _ => hf
  have hsteps (i : Nat) (hi : i ≤ n) : c.stepTimes i = .ok (c.hop i) :=
    Cursor.stepTimes_of_le h.stepTimes hi
  have hgo (i : Nat) (hi : i ≤ n) := hc.advance (hsteps i hi)
  have hleft (m : Nat) : m - min m n = m - n := by omega
  have hcount := h.countSteps (m := 0) (by rwa [Nat.zero_add])
  rw [Nat.zero_add] at hcount
  exact {
    steps := hsteps
    isEnd := fun i hi => h.isEnd hi
    measure := hm
    advance := fun m hfm => ⟨hfm.of_le (Nat.sub_le m _), by rw [hleft, h.advance hm hgo]⟩
    stepTowards := fun m => by rw [hleft, h.stepTowards]
    reach := h.reach hm (hgo n (Nat.le_refl n))
    stepAll := h.stepAll
    distance := h.distance hm hf
    countSteps := hcount }

/-- Whether a bound tells distances or is only met, a cursor comes to it in as many steps as it is
ahead, stops there, and counts them alike. Where there is no bound it goes as far as it can. A slice
has to be one whose length is a distance (`Placed.short`). -/
theorem passages_agree (hc : c.Placed) (h : b.LiesAhead c n) (hs : b.Suits c)
    (hf : c.width.Fits n) :
    b.Passage c n ∧ (forwardOnly b).Passage (.forwardOnly c) n ∧
    (∀ m : Nat, c.width.Fits m → (forwardOnly b).advance (.forwardOnly c) m =
      Prod.map id Cursor.forwardOnly <$> b.advance c m) ∧
    (forwardOnly b).reach (.forwardOnly c) = Cursor.forwardOnly <$> b.reach c ∧
    Prod.fst <$> (forwardOnly b).distance (.forwardOnly c) = Prod.fst <$> b.distance c ∧
    ∀ m : Nat, unreachable.advance c m = (fun d => (0, d)) <$> c.stepTimes m := by
  have hp := h.passage hs hc hf
  have h' : (forwardOnly b).LiesAhead (.forwardOnly c) n := liesAhead_forwardOnly_iff.2 h
  have hp' : (forwardOnly b).Passage (.forwardOnly c) n := h'.passage hs ⟨hc.valid, hc.short⟩ hf
  refine ⟨hp, hp', fun m hm => ?_, ?_, ?_, fun m => advance_unreachable m c⟩
  · rw [(hp.advance m hm).2, (hp'.advance m hm).2]
    rfl
  · rw [hp.reach, hp'.reach]
    rfl
  · rw [hp.distance, hp'.distance]
    rfl

/-- Four of five elements are counted and moved out, towards the end and by the largest distance. -/
theorem passages_agree_counted :
    let c : Cursor Int := .counted (.moving (.slice (.stored 0 5) 1)) 4
    let d : Cursor Int := .counted (.moving (.slice (.stored 0 5) 5)) 0
    countEnd.advance c Width.w64.max = .ok (Width.w64.max - 4, d) ∧
      (forwardOnly countEnd).advance (.forwardOnly c) Width.w64.max =
        .ok (Width.w64.max - 4, .forwardOnly d) ∧
      (forwardOnly countEnd).distance (.forwardOnly c) = .ok (4, .forwardOnly d) ∧
      unreachable.advance c 4 = .ok (0, d) ∧ ∃ e, unreachable.advance c 5 = .error e := by
  intro c d
  have hc : c.Placed := by
    refine ⟨⟨⟨by decide, by decide⟩, by decide⟩, ?_⟩
    rintro s ⟨⟩
    decide
  have hl : countEnd.LiesAhead c 4 := liesAhead_countEnd_iff.2 ⟨rfl, rfl⟩
  have hm : Width.w64.max = (Width.w64.max.toNat : Int) := rfl
  obtain ⟨hp, hp', -, -, -, hu⟩ := passages_agree hc hl trivial (by decide)
  refine ⟨?_, ?_, hp'.distance, hu 4, _, hu 5⟩
  · rw [hm]
    exact (hp.advance _ (by decide)).2
  · rw [hm]
    exact (hp'.advance _ (by decide)).2

end Bound

end Waymark
