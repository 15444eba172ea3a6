import Waymark.Passage
import Waymark.Proofs.Cursor.Reading

/-!
# The sequence from a cursor to a bound

`Shows s c xs`: the elements of `xs` are what the cursor comes to, one after the other. `LiesAhead`:
the bound is so many steps ahead. Together (`Presents`) they say that a cursor and a bound present
the elements of a list, whatever kind of cursor it is and however it is wrapped. Both are told by
single steps, reads and questions to the bound. What follows from them is told by positions: every
one on the way is reached at once as well as step by step (`Shows.advance`), a bound that tells
distances tells the length (`LiesAhead.measure`), and one that does not is reached alike
(`LiesAhead.advance`, `LiesAhead.reach`).
-/

namespace Waymark

variable {α κ : Type}

namespace Cursor

/-- The elements are those that the cursor comes to next, at positions that can be written. -/
def Shows [IntCast α] (s : Store α) : Cursor α → List α → Prop
  | c, [] => c.Valid
  | c, x :: xs => c.Valid ∧ c.look s = some x ∧ ∃ d, c.step = .ok d ∧ Shows s d xs

section Shows

variable [IntCast α] {s : Store α} {c : Cursor α} {xs : List α}

theorem Shows.valid (h : Shows s c xs) : c.Valid := by
  cases xs with
  | nil => exact h
  | cons x xs => exact h.1

theorem shows_cons_iff {x : α} :
    Shows s c (x :: xs) ↔
      c.Valid ∧ c.look s = some x ∧ c.step = .ok (c.hop 1) ∧ Shows s (c.hop 1) xs := by
  constructor
  · rintro ⟨hv, hx, d, hs, h⟩
    obtain rfl := step_eq_hop hs
    exact ⟨hv, hx, hs, h⟩
  · rintro ⟨hv, hx, hs, h⟩
    exact ⟨hv, hx, _, hs, h⟩

/-- The elements from a position on. -/
theorem Shows.drop (h : Shows s c xs) {n : Nat} (hn : n ≤ xs.length) :
    Shows s (c.hop n) (xs.drop n) := by
  induction n generalizing c xs with
  | zero => rwa [hop_zero]
  | succ n ih =>
    cases xs with
    | nil => exact absurd hn (Nat.not_succ_le_zero n)
    | cons x xs =>
      rw [Nat.add_comm, ← hop_hop, Nat.add_comm, List.drop_succ_cons]
      exact ih (shows_cons_iff.1 h).2.2.2 (Nat.le_of_succ_le_succ hn)

/-- The elements up to a position. -/
theorem Shows.take (h : Shows s c xs) (n : Nat) : Shows s c (xs.take n) := by
  induction n generalizing c xs with
  | zero => exact h.valid
  | succ n ih =>
    cases xs with
    | nil => exact h
    | cons x xs =>
      obtain ⟨hv, hx, d, hs, h⟩ := h
      exact ⟨hv, hx, d, hs, ih h⟩

theorem Shows.stepTimes (h : Shows s c xs) : c.stepTimes xs.length = .ok (c.hop xs.length) := by
  induction xs generalizing c with
  | nil => rw [List.length_nil, hop_zero]; rfl
  | cons x xs ih =>
    obtain ⟨-, -, hs, h⟩ := shows_cons_iff.1 h
    rw [List.length_cons, stepTimes_succ_iff, ih h, hop_hop, Nat.add_comm 1]
    exact ⟨hs, rfl⟩

/-- Every position can be stepped to. -/
theorem Shows.reach (h : Shows s c xs) {n : Nat} (hn : n ≤ xs.length) :
    c.stepTimes n = .ok (c.hop n) :=
  stepTimes_of_le h.stepTimes hn

theorem Shows.valid_hop (h : Shows s c xs) {n : Nat} (hn : n ≤ xs.length) : (c.hop n).Valid :=
  (h.drop hn).valid

/-- Every position can be gone to at once. -/
theorem Shows.advance (h : Shows s c xs) {n : Nat} (hn : n ≤ xs.length) :
    c.advance n = .ok (c.hop n) :=
  advance_eq_hop h.valid (h.valid_hop hn) (h.reach hn)

theorem Shows.look (h : Shows s c xs) {n : Nat} (hn : n < xs.length) :
    (c.hop n).look s = some xs[n] := by
  have hd := h.drop (Nat.le_of_lt hn)
  rw [List.drop_eq_getElem_cons hn] at hd
  exact hd.2.1

theorem Shows.step (h : Shows s c xs) {n : Nat} (hn : n < xs.length) :
    (c.hop n).step = .ok (c.hop (n + 1)) := by
  have hd := h.drop (Nat.le_of_lt hn)
  rw [List.drop_eq_getElem_cons hn] at hd
  rw [(shows_cons_iff.1 hd).2.2.1, hop_hop]

/-- What a cursor shows depends on the store only in what it looks at on the way. -/
theorem Shows.congr {t : Store α} (h : Shows s c xs)
    (ht : ∀ i < xs.length, (c.hop i).look t = (c.hop i).look s) : Shows t c xs := by
  induction xs generalizing c with
  | nil => exact h
  | cons x xs ih =>
    obtain ⟨hv, hx, hs, h⟩ := shows_cons_iff.1 h
    refine shows_cons_iff.2 ⟨hv, ?_, hs, ih h fun i hi => ?_⟩
    · have := ht 0 (by simp)
      rwa [hop_zero, hx] at this
    · have := ht (1 + i) (by simpa [Nat.add_comm] using hi)
      rwa [← hop_hop] at this

/-- Reading an element leaves those before it. -/
theorem Shows.take_drain [Inhabited α] (h : Shows s c xs) (n : Nat) :
    Shows ((c.hop n).drain s) c (xs.take n) := by
  refine (h.take n).congr fun i hi => look_drain_of_ne c ?_ s
  rw [List.length_take] at hi
  omega

/-- Reading an element leaves those behind it. -/
theorem Shows.drop_drain [Inhabited α] (h : Shows s c xs) {n : Nat} (hn : n < xs.length) :
    Shows ((c.hop n).drain s) (c.hop (n + 1)) (xs.drop (n + 1)) := by
  refine (h.drop hn).congr fun i _ => ?_
  rw [hop_hop]
  exact look_drain_of_ne c (by omega) s

end Shows

end Cursor

namespace Bound

/-- The bound is one for cursors of this kind. -/
def Suits : Bound α → Cursor α → Prop
  | cursor (.slice ..), .slice .. => True
  | cursor (.repeated ..), .repeated .. => True
  | cursor (.iota v _), .iota w _ => v = w
  | cursor (.moving b), .moving c => Suits (cursor b) c
  | unreachable, _ => True
  | countEnd, .counted .. => True
  | endOfStream, .stream _ => True
  | moving b, .moving c => b.Suits c
  | forwardOnly b, .forwardOnly c => b.Suits c
  | _, _ => False

/-- The bound is `n` steps ahead of the cursor. -/
def LiesAhead (b : Bound α) : Cursor α → Nat → Prop
  | c, 0 => b.isEnd c = true
  | c, n + 1 => b.isEnd c = false ∧ ∃ d, c.step = .ok d ∧ b.LiesAhead d n

theorem liesAhead_succ_iff {b : Bound α} {c : Cursor α} {n : Nat} :
    b.LiesAhead c (n + 1) ↔
      b.isEnd c = false ∧ c.step = .ok (c.hop 1) ∧ b.LiesAhead (c.hop 1) n := by
  constructor
  · rintro ⟨he, d, hs, h⟩
    obtain rfl := Cursor.step_eq_hop hs
    exact ⟨he, hs, h⟩
  · rintro ⟨he, hs, h⟩
    exact ⟨he, _, hs, h⟩

/-- From a position on the way the bound is as many steps nearer. -/
theorem LiesAhead.hop {b : Bound α} {c : Cursor α} {m n : Nat} (h : b.LiesAhead c (m + n)) :
    b.LiesAhead (c.hop m) n := by
  induction m generalizing c with
  | zero => rwa [Nat.zero_add, ← Cursor.hop_zero c] at h
  | succ m ih =>
    rw [Nat.add_right_comm] at h
    rw [Nat.add_comm, ← Cursor.hop_hop]
    exact ih (liesAhead_succ_iff.1 h).2.2

/-- The bound is met where it lies, and nowhere before. -/
theorem LiesAhead.isEnd {b : Bound α} {c : Cursor α} {n i : Nat} (h : b.LiesAhead c n)
    (hi : i ≤ n) : b.isEnd (c.hop i) = decide (i = n) := by
  obtain ⟨k, rfl⟩ := Nat.exists_eq_add_of_le hi
  have h := h.hop
  cases k with
  | zero => exact h.trans (decide_eq_true rfl).symm
  | succ k => rw [(liesAhead_succ_iff.1 h).1]; simp

theorem LiesAhead.stepTimes {b : Bound α} {c : Cursor α} {n : Nat} (h : b.LiesAhead c n) :
    c.stepTimes n = .ok (c.hop n) := by
  induction n generalizing c with
  | zero => rw [Cursor.hop_zero]; rfl
  | succ n ih =>
    obtain ⟨-, hs, h⟩ := liesAhead_succ_iff.1 h
    rw [Cursor.stepTimes_succ_iff, ih h, Cursor.hop_hop, Nat.add_comm 1]
    exact ⟨hs, rfl⟩

/-- Steps towards a bound end there, or as many steps further. -/
theorem LiesAhead.stepTowards {b : Bound α} {c : Cursor α} {n : Nat} (h : b.LiesAhead c n)
    (m : Nat) : b.stepTowards m c = .ok (m - n, c.hop (min m n)) := by
  induction m generalizing c n with
  | zero => rw [Bound.stepTowards, Nat.zero_sub, Nat.zero_min, Cursor.hop_zero]
  | succ m ih =>
    cases n with
    | zero =>
      have he : b.isEnd c = true := h
      rw [Bound.stepTowards, if_pos he, Nat.min_zero, Cursor.hop_zero, Nat.sub_zero]
    | succ n =>
      obtain ⟨he, hs, h⟩ := liesAhead_succ_iff.1 h
      rw [Bound.stepTowards, he, if_neg Bool.false_ne_true, hs, Nat.add_sub_add_right,
        Nat.add_min_add_right, Nat.add_comm (min m n), ← Cursor.hop_hop]
      exact ih h

theorem stepAll_eq (b : Bound α) (c : Cursor α) :
    b.stepAll c = if b.isEnd c then .ok c else (do b.stepAll (← c.step)) := by
  rw [stepAll]
  refine ite_congr rfl (fun _ => rfl) fun _ => ?_
  split <;> rename_i h <;> rw [h] <;> rfl

/-- Steps to the bound end there. -/
theorem LiesAhead.stepAll {b : Bound α} {c : Cursor α} {n : Nat} (h : b.LiesAhead c n) :
    b.stepAll c = .ok (c.hop n) := by
  induction n generalizing c with
  | zero => rw [stepAll_eq, if_pos (show b.isEnd c = true from h), Cursor.hop_zero]
  | succ n ih =>
    obtain ⟨he, hs, h⟩ := liesAhead_succ_iff.1 h
    rw [stepAll_eq, if_neg (ne_true_of_eq_false he), hs, ok_bind, ih h, Cursor.hop_hop,
      Nat.add_comm]

/-- A bound that meets wrapped cursors where another one meets what is in them is as far from
them. -/
theorem liesAhead_wrapped_iff {f : Cursor α → Cursor α} {a b : Bound α}
    (hf : ∀ c : Cursor α, (f c).step = return f (← c.step)) (he : ∀ c, a.isEnd (f c) = b.isEnd c)
    {c : Cursor α} {n : Nat} : a.LiesAhead (f c) n ↔ b.LiesAhead c n := by
  induction n generalizing c with
  | zero => rw [LiesAhead, LiesAhead, he]
  | succ n ih =>
    rw [LiesAhead, LiesAhead, he, hf]
    refine and_congr_right fun _ => ⟨?_, ?_⟩
    · rintro ⟨d, hs, h⟩
      obtain ⟨t, ht, e⟩ := bind_eq_ok_iff.1 hs
      cases e
      exact ⟨t, ht, ih.1 h⟩
    · rintro ⟨t, ht, h⟩
      exact ⟨f t, by rw [ht]; rfl, ih.2 h⟩

theorem liesAhead_moving_iff {b : Bound α} {c : Cursor α} {n : Nat} :
    (moving b).LiesAhead (.moving c) n ↔ b.LiesAhead c n :=
  liesAhead_wrapped_iff (f := Cursor.moving) (fun _ => rfl) fun _ => rfl

theorem liesAhead_cursor_moving_iff {b c : Cursor α} {n : Nat} :
    (cursor (.moving b)).LiesAhead (.moving c) n ↔ (cursor b).LiesAhead c n :=
  liesAhead_wrapped_iff (f := Cursor.moving) (fun _ => rfl) fun _ => rfl

theorem liesAhead_forwardOnly_iff {b : Bound α} {c : Cursor α} {n : Nat} :
    (forwardOnly b).LiesAhead (.forwardOnly c) n ↔ b.LiesAhead c n :=
  liesAhead_wrapped_iff (f := Cursor.forwardOnly) (fun _ => rfl) fun _ => rfl

/-- A counted cursor ends when its count does, if its base can go so far. -/
theorem liesAhead_countEnd_iff {c : Cursor α} {r n : Nat} :
    countEnd.LiesAhead (.counted c r) n ↔ r = n ∧ c.stepTimes n = .ok (c.hop n) := by
  constructor
  · intro h
    obtain ⟨hn, hc, -⟩ := Cursor.stepTimes_counted_iff.1 h.stepTimes
    have he := h.isEnd (Nat.le_refl n)
    simp only [Cursor.hop, Bound.isEnd, decide_true, beq_iff_eq] at he
    exact ⟨by omega, hc⟩
  · rintro ⟨rfl, hc⟩
    induction r generalizing c with
    | zero => rfl
    | succ r ih =>
      obtain ⟨hs, hr⟩ := Cursor.stepTimes_succ_iff.1 hc
      refine liesAhead_succ_iff.2 ⟨rfl, ?_, ih (by rw [hr, Cursor.hop_hop, Nat.add_comm])⟩
      rw [Cursor.step, if_neg (Nat.succ_ne_zero r), hs]
      rfl

theorem measure_of_eq_add {w : Width} {p q : Int} {n : Nat} (hq : q = p + n) (hn : w.Fits n) :
    some <$> w.sub q p = .ok (some (n : Int)) := by
  have hs : w.sub q p = .ok (n : Int) := Width.sub_eq_ok_iff.2 ⟨hn, by omega⟩
  rw [hs]
  rfl

/-- A bound that tells distances tells the number of steps, if it can be written. -/
theorem LiesAhead.measure {b : Bound α} {c : Cursor α} {n : Nat} (h : b.LiesAhead c n)
    (hs : b.Suits c) (hn : b.sized = true → c.width.Fits n) :
    b.measure c = .ok (if b.sized then some (n : Int) else none) := by
  have he := h.isEnd (Nat.le_refl n)
  induction c generalizing b with
  | slice s p => cases b with
    | cursor d => cases d with
      | slice t q =>
        simp only [Cursor.hop, Bound.isEnd, decide_true, beq_iff_eq] at he
        exact measure_of_eq_add (by omega) (hn rfl)
      | _ => exact False.elim hs
    | unreachable => rfl
    | _ => exact False.elim hs
  | repeated v x p => cases b with
    | cursor d => cases d with
      | repeated u y q =>
        simp only [Cursor.hop, Bound.isEnd, decide_true, beq_iff_eq] at he
        exact measure_of_eq_add he (hn rfl)
      | _ => exact False.elim hs
    | unreachable => rfl
    | _ => exact False.elim hs
  | iota w x => cases b with
    | cursor d => cases d with
      | iota v y =>
        obtain rfl : v = w := hs
        simp only [Cursor.hop, Bound.isEnd, decide_true, beq_iff_eq] at he
        exact measure_of_eq_add he (hn rfl)
      | _ => exact False.elim hs
    | unreachable => rfl
    | _ => exact False.elim hs
  | stream t => cases b with
    | cursor d => cases d with
      | _ => exact False.elim hs
    | unreachable => rfl
    | endOfStream => rfl
    | _ => exact False.elim hs
  | counted c r => cases b with
    | cursor d => cases d with
      | _ => exact False.elim hs
    | unreachable => rfl
    | countEnd =>
      obtain ⟨rfl, -⟩ := liesAhead_countEnd_iff.1 h
      rfl
    | _ => exact False.elim hs
  | moving c ih => cases b with
    | cursor d => cases d with
      | moving d => exact ih (b := cursor d) (liesAhead_cursor_moving_iff.1 h) hs hn he
      | _ => exact False.elim hs
    | unreachable => rfl
    | moving b => exact ih (liesAhead_moving_iff.1 h) hs hn he
    | _ => exact False.elim hs
  | forwardOnly c => cases b with
    | cursor d => cases d with
      | _ => exact False.elim hs
    | unreachable => rfl
    | forwardOnly b => rfl
    | _ => exact False.elim hs

/-- Going on by a count ends there or at the bound, if every position on the way can be gone to at
once. -/
theorem LiesAhead.advance {b : Bound α} {c : Cursor α} {n : Nat} (h : b.LiesAhead c n)
    (hm : b.measure c = .ok (if b.sized then some (n : Int) else none))
    (ha : ∀ i ≤ n, c.advance i = .ok (c.hop i)) (m : Nat) :
    b.advance c m = .ok (((m - n : Nat) : Int), c.hop (min m n)) := by
  rw [Bound.advance, if_neg (by omega), hm, ok_bind]
  cases b.sized with
  | true =>
    simp only [if_true]
    rw [if_neg (by omega)]
    split
    · rw [ha n (Nat.le_refl n), Nat.min_eq_right (by omega), ok_bind,
        Width.workedOut_sub _ (by omega)]
      rfl
    · rw [ha m (by omega), Nat.min_eq_left (by omega), Nat.sub_eq_zero_of_le (by omega)]
      rfl
  | false =>
    simp only [Bool.false_eq_true, if_false]
    rw [Int.toNat_natCast, h.stepTowards]
    rfl

/-- All the way is gone at once or step by step. -/
theorem LiesAhead.reach {b : Bound α} {c : Cursor α} {n : Nat} (h : b.LiesAhead c n)
    (hm : b.measure c = .ok (if b.sized then some (n : Int) else none))
    (ha : c.advance n = .ok (c.hop n)) : b.reach c = .ok (c.hop n) := by
  rw [Bound.reach, hm, ok_bind]
  cases b.sized with
  | true => exact ha
  | false => exact h.stepAll

theorem Suits.hop {b : Bound α} {c : Cursor α} (h : b.Suits c) (n : Nat) : b.Suits (c.hop n) := by
  induction c generalizing b with
  | moving c ih => cases b with
    | cursor d => cases d with
      | moving d => exact ih (b := cursor d) h
      | _ => exact False.elim h
    | unreachable => trivial
    | moving b => exact ih (b := b) h
    | _ => exact False.elim h
  | forwardOnly c ih => cases b with
    | cursor d => cases d with
      | _ => exact False.elim h
    | unreachable => trivial
    | forwardOnly b => exact ih (b := b) h
    | _ => exact False.elim h
  | _ => cases b with
    | cursor d => cases d with
      | _ => exact h
    | _ => exact h

end Bound

/-- From the cursor to the bound lie the elements of the list. -/
structure Presents [IntCast α] (s : Store α) (c : Cursor α) (b : Bound α) (xs : List α) : Prop where
  shows : c.Shows s xs
  ends : b.LiesAhead c xs.length
  suits : b.Suits c

namespace Presents

variable [IntCast α] {s : Store α} {c : Cursor α} {b : Bound α} {xs : List α}

theorem isEnd (h : Presents s c b xs) {n : Nat} (hn : n ≤ xs.length) :
    b.isEnd (c.hop n) = decide (n = xs.length) :=
  h.ends.isEnd hn

/-- The elements from a position on lie between it and the bound. -/
theorem drop (h : Presents s c b xs) {n : Nat} (hn : n ≤ xs.length) :
    Presents s (c.hop n) b (xs.drop n) where
  shows := h.shows.drop hn
  ends := by
    have := h.ends
    rw [← Nat.add_sub_cancel' hn] at this
    rw [List.length_drop]
    exact this.hop
  suits := h.suits.hop n

/-- A bound that tells distances tells the length of the list, if it can be written. -/
theorem measure (h : Presents s c b xs) (hn : b.sized = true → c.width.Fits xs.length) :
    b.measure c = .ok (if b.sized then some (xs.length : Int) else none) :=
  h.ends.measure h.suits hn

/-- Going on by a count ends there or at the bound. -/
theorem advance (h : Presents s c b xs) (hn : b.sized = true → c.width.Fits xs.length) (m : Nat) :
    b.advance c m = .ok (((m - xs.length : Nat) : Int), c.hop (min m xs.length)) :=
  h.ends.advance (h.measure hn) (fun _ hi => h.shows.advance hi) m

/-- The bound is reached at once or step by step. -/
theorem reach (h : Presents s c b xs) (hn : b.sized = true → c.width.Fits xs.length) :
    b.reach c = .ok (c.hop xs.length) :=
  h.ends.reach (h.measure hn) (h.shows.advance (Nat.le_refl _))

end Presents

end Waymark
