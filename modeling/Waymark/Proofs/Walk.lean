import Waymark.Walk
import Waymark.Proofs.Kinds
import Waymark.Proofs.Reads
import Waymark.Proofs.Search.Listed

/-!
# What a walk hands out

A walk is asked for its elements one at a time. It hands out those between its cursor and its bound in
order, leaves each one as reading leaves it (`Cursor.drains`), and has nothing left from then on, however
often it is asked (`nexts_ok`). Asked for all of them, it hands out what is left (`takeAll_ok`).

Its hint is the distance to a bound that tells one, as an index. A distance of up to 64 bits is an index,
so that the hint is exact; of a wider one the index keeps the low bits alone, and then the walk hands out
more than the hint allows for (`sizeHint_remaining`).
-/

namespace Waymark

variable {α κ : Type}

/-- The store after the next `n` elements have been read. -/
def Cursor.drains [Inhabited α] : Nat → Cursor α → Store α → Store α
  | 0, _, s => s
  | n + 1, c, s => (c.hop 1).drains n (c.drain s)

theorem Cursor.drains_of_keeps [Inhabited α] {c : Cursor α} (h : c.keeps = true) (n : Nat)
    (s : Store α) : c.drains n s = s := by
  induction n generalizing c with
  | zero => rfl
  | succ n ih => rw [drains, drain_of_keeps h, ih ((c.keeps_hop 1).trans h)]

/-- Reading the elements before a position leaves those behind it where they are. -/
theorem Presents.drains [IntCast α] [Inhabited α] {s : Store α} {c : Cursor α} {b : Bound α}
    {xs : List α} (h : Presents s c b xs) {n : Nat} (hn : n ≤ xs.length) :
    Presents (c.drains n s) (c.hop n) b (xs.drop n) := by
  induction n generalizing s c xs with
  | zero => rwa [Cursor.hop_zero]
  | succ n ih =>
    cases xs with
    | nil => exact absurd hn (Nat.not_succ_le_zero n)
    | cons x xs =>
      rw [Nat.add_comm, ← Cursor.hop_hop, Nat.add_comm, List.drop_succ_cons]
      exact ih h.tail (Nat.le_of_succ_le_succ hn)

/-- Reading as many as there are, if these are fewer. -/
theorem Presents.drains_min [IntCast α] [Inhabited α] {s : Store α} {c : Cursor α} {b : Bound α}
    {xs : List α} (h : Presents s c b xs) (n : Nat) :
    Presents (c.drains (min n xs.length) s) (c.hop (min n xs.length)) b (xs.drop n) := by
  have hd : xs.drop n = xs.drop (min n xs.length) := by
    rw [List.drop_eq_drop_iff, Nat.min_assoc, Nat.min_self]
  rw [hd]
  exact h.drains (Nat.min_le_right n xs.length)

/-! ## Indices -/

namespace Width

theorem toIndex_natCast (n : Nat) : toIndex n = .ok (n % indexCount) := by
  rw [toIndex, if_neg (by omega), Int.toNat_natCast]

/-- Only the widest distances are too large for an index. -/
theorem lt_indexCount_of_fits {v : Width} {n : Nat} (hv : v ≠ .w128) (h : v.Fits n) :
    n < indexCount := by
  have hm : v.max < indexCount := by cases v <;> first | exact absurd rfl hv | decide
  have := h.2
  omega

end Width

/-- What the walk tells of `n` elements to come. The bound has their number. The hint is exact if the
number is an index, and says that there are fewer if it is larger. -/
structure Walk.Tells (v : Walk α) (n : Nat) : Prop where
  measure : v.last.measure v.cursor = .ok (some (n : Int))
  exact : n < Width.indexCount → v.sizeHint = .ok (n, some n)
  short : Width.indexCount ≤ n → n % Width.indexCount < n ∧
    v.sizeHint = .ok (n % Width.indexCount, some (n % Width.indexCount))

namespace Walk

theorem sizeHint_of_measure {v : Walk α} {n : Nat}
    (h : v.last.measure v.cursor = .ok (some (n : Int))) :
    v.sizeHint = .ok (n % Width.indexCount, some (n % Width.indexCount)) := by
  rw [sizeHint, h, ok_bind]
  dsimp only
  rw [Width.toIndex_natCast]
  rfl

theorem Tells.of_measure {v : Walk α} {n : Nat}
    (h : v.last.measure v.cursor = .ok (some (n : Int))) : v.Tells n where
  measure := h
  exact hn := by rw [sizeHint_of_measure h, Nat.mod_eq_of_lt hn]
  short hn :=
    ⟨Nat.lt_of_lt_of_le (Nat.mod_lt n (Nat.two_pow_pos 64)) hn, sizeHint_of_measure h⟩

variable [IntCast α] [Inhabited α]

/-- The answers to `n` requests for the next element. -/
def nexts : Nat → Walk α → Run α κ (List (Option α) × Walk α)
  | 0, v => return ([], v)
  | n + 1, v => do
    let (x, v) ← v.next
    let (xs, v) ← v.nexts n
    return (x :: xs, v)

/-- A walk up to a last element goes on from a step to the next. -/
theorem takeUntil_eq (stop : α → Bool) (c : Cursor α) (last : Bound α) :
    (takeUntil stop ⟨c, last⟩ : Run α κ _) = (do
      if last.isEnd c then return ([], ⟨c, last⟩)
      else
        let x ← c.read
        let d ← c.step
        if stop x then return ([], ⟨d, last⟩)
        else
          let (xs, ended) ← takeUntil stop ⟨d, last⟩
          return (x :: xs, ended)) := by
  rw [takeUntil]
  refine ite_congr rfl (fun _ => rfl) fun _ => bind_congr fun x => ?_
  split <;> rename_i h <;> rw [h] <;> rfl

variable {c : Cursor α} {b : Bound α} {x : α} {xs : List α} {w : World α κ}

theorem next_nil (h : Presents w.store c b []) : (next ⟨c, b⟩).Reads w [] (none, ⟨c, b⟩) w := by
  rw [next, if_pos (show b.isEnd c = true from h.ends)]
  exact .pure _ _

theorem next_cons (h : Presents w.store c b (x :: xs)) :
    (next ⟨c, b⟩).Reads w [(c, x)] (some x, ⟨c.hop 1, b⟩) { w with store := c.drain w.store } := by
  obtain ⟨he, -⟩ := h.ends
  obtain ⟨-, hx, hs, -⟩ := Cursor.shows_cons_iff.1 h.shows
  rw [next, if_neg (ne_true_of_eq_false he)]
  exact .read hx (.lift hs (.pure _ _))

/-- Nothing happens at the bound. -/
theorem nexts_nil (h : Presents w.store c b []) (n : Nat) :
    (nexts n ⟨c, b⟩).Reads w [] (List.replicate n none, ⟨c, b⟩) w := by
  induction n with
  | zero => exact .pure _ _
  | succ n ih => exact (next_nil h).bind (ih.bind (.pure _ _))

/-- The elements come in order, each of them read once where it stands, and then nothing. -/
theorem nexts_reads (h : Presents w.store c b xs) (n : Nat) :
    (nexts n ⟨c, b⟩).Reads w (c.visits (xs.take n))
      ((xs.take n).map some ++ List.replicate (n - xs.length) none, ⟨c.hop (min n xs.length), b⟩)
      { w with store := c.drains (min n xs.length) w.store } := by
  induction n generalizing c xs w with
  | zero =>
    rw [Nat.zero_min, Cursor.hop_zero, Nat.zero_sub, List.take_zero]
    exact .pure _ _
  | succ n ih =>
    cases xs with
    | nil =>
      rw [List.length_nil, Nat.min_zero, Cursor.hop_zero]
      exact nexts_nil h (n + 1)
    | cons x xs =>
      have hv : c.visits ((x :: xs).take (n + 1)) =
          [(c, x)] ++ ((c.hop 1).visits (xs.take n) ++ []) := by
        rw [List.append_nil]
        rfl
      rw [hv, List.length_cons, Nat.add_min_add_right, Nat.add_sub_add_right,
        Nat.add_comm (min n _), ← Cursor.hop_hop, Nat.add_comm 1]
      exact (next_cons h).bind ((ih h.tail).bind (.pure _ _))

theorem nexts_ok (h : Presents w.store c b xs) (n : Nat) :
    nexts n ⟨c, b⟩ w =
      .ok ((xs.take n).map some ++ List.replicate (n - xs.length) none,
          ⟨c.hop (min n xs.length), b⟩)
        { w with store := c.drains (min n xs.length) w.store } :=
  (nexts_reads h n).returns

/-- A walk to the bound hands out the elements before it. -/
theorem takeAll_ok (h : Presents w.store c b xs) :
    takeAll ⟨c, b⟩ w =
      .ok (xs, ⟨c.hop xs.length, b⟩) { w with store := c.drains xs.length w.store } := by
  induction xs generalizing c w with
  | nil =>
    rw [takeAll, takeUntil_eq, if_pos (show b.isEnd c = true from h.ends), List.length_nil,
      Cursor.hop_zero]
    rfl
  | cons x xs ih =>
    obtain ⟨he, -⟩ := h.ends
    obtain ⟨-, hx, hs, -⟩ := Cursor.shows_cons_iff.1 h.shows
    rw [takeAll, takeUntil_eq, if_neg (ne_true_of_eq_false he), List.length_cons, Nat.add_comm,
      ← Cursor.hop_hop, Nat.add_comm 1]
    exact (Run.bind_ok (Cursor.read_eq hx)).trans
      ((Run.bind_ok (Run.lift_ok hs _)).trans (Run.bind_ok (ih h.tail)))

/-- After any number of requests the walk hands out what is left, and tells how much this is, up to
what an index can count. Only in the widest distances there may be more. -/
theorem sizeHint_remaining (h : Presents w.store c b xs) (hs : b.sized = true)
    (hn : c.width.Fits xs.length) (m : Nat) :
    ∃ v w' w'', nexts m ⟨c, b⟩ w =
        .ok ((xs.take m).map some ++ List.replicate (m - xs.length) none, v) w' ∧
      takeAll v w' = .ok (xs.drop m, ⟨c.hop xs.length, b⟩) w'' ∧
      v.Tells (xs.length - m) ∧ (c.width ≠ .w128 → xs.length - m < Width.indexCount) := by
  have hd := h.drains_min m
  have hl : (xs.drop m).length = xs.length - m := List.length_drop
  have hf : c.width.Fits (xs.length - m : Nat) := hn.of_le (Nat.sub_le _ _)
  have ha := takeAll_ok (w := ⟨c.drains (min m xs.length) w.store, w.calls⟩) hd
  rw [Cursor.hop_hop, hl, show min m xs.length + (xs.length - m) = xs.length by omega] at ha
  have hb := hd.measure fun _ => by rwa [Cursor.width_hop, hl]
  rw [if_pos hs, hl] at hb
  exact ⟨_, _, _, nexts_ok h m, ha, .of_measure hb, fun hv => Width.lt_indexCount_of_fits hv hf⟩

/-- Over as many integers as there are indices the hint is, before the first one, that there are none. -/
theorem sizeHint_remaining_wide :
    let v : Walk Int := ⟨.iota .w128 0, .cursor (.iota .w128 Width.indexCount)⟩
    v.sizeHint = .ok (0, some 0) ∧
      ∃ xs ended w', v.takeAll ⟨[], ()⟩ = .ok (xs, ended) w' ∧ xs.length = Width.indexCount := by
  intro v
  have h : Presents ([] : Store Int) v.cursor v.last
      ((List.range Width.indexCount).map fun i : Nat => ((0 + i : Int) : Int)) := by
    have := presents_iota (α := Int) (s := []) (w := .w128) (n := Width.indexCount) (x := 0)
      (by decide) (by decide)
    rwa [Int.zero_add] at this
  have hl : ((List.range Width.indexCount).map fun i : Nat => ((0 + i : Int) : Int)).length =
      Width.indexCount := by rw [List.length_map, List.length_range]
  generalize (List.range Width.indexCount).map _ = xs at h hl
  obtain ⟨v', w', w'', hv, ha, ht, -⟩ := sizeHint_remaining (w := ⟨[], ()⟩) h rfl
    (by rw [hl]; decide) 0
  injection hv with hv hw
  obtain rfl : v = v' := congrArg Prod.snd hv
  obtain rfl : ⟨[], ()⟩ = w' := hw
  rw [Nat.sub_zero, hl] at ht
  exact ⟨(ht.short (Nat.le_refl _)).2, xs, _, w'', ha, hl⟩

end Walk

end Waymark
