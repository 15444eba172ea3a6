import Waymark.Search.EqualRange
import Waymark.Proofs.Sequence

/-!
# Searches on lists

The searches once more, on a list instead of a cursor: they answer with offsets and ask the
callables in the same order. A run on a cursor that shows a list does what the search on the list
does (`seek_follows`, `bisect_follows`, `bisectEqual_follows`, `probe_follows`), so that what a
search finds, and what it asks, is a question about lists alone.
-/

namespace Waymark

variable {α β γ δ κ ν : Type}

section Steps

variable [IntCast α] [Inhabited α] (first : Cursor α) (last : Bound α)

/-- A linear search goes on from a step to the next. -/
theorem findBy_eq (wanted : Bool) (pred : Predicate κ β) (proj : Projection κ α β) :
    findBy wanted first last pred proj = (do
      if last.isEnd first then return first
      else if (← first.test pred proj) == wanted then return first
      else findBy wanted (← first.step) last pred proj) := by
  rw [findBy]
  refine ite_congr rfl (fun _ => rfl) fun _ => bind_congr fun b => ?_
  refine ite_congr rfl (fun _ => rfl) fun _ => ?_
  split <;> rename_i h <;> rw [h] <;> rfl

/-- Counting goes on from a step to the next. -/
theorem countFrom_eq [BEq β] (n : Int) (value : β) (proj : Projection κ α β) :
    countFrom n first last value proj = (do
      if last.isEnd first then return (n, first)
      else
        let y ← first.project proj
        let m ← (if y == value then first.width.add n 1 else .ok n : Except Fault Int)
        countFrom m (← first.step) last value proj) := by
  rw [countFrom]
  refine ite_congr rfl (fun _ => rfl) fun _ => bind_congr fun y => bind_congr fun m => ?_
  split <;> rename_i h <;> rw [h] <;> rfl

/-- Bisecting goes on with the elements on one side of the middle one. No number that it works out on
the way leaves the width, and none that it halves is negative. -/
theorem bisect_eq (n : Nat) (pred : Predicate κ β) (proj : Projection κ α β) :
    bisect n first pred proj = (do
      if n = 0 then return first
      else
        let middle ← first.advance (n / 2 : Nat)
        if ← middle.test pred proj then
          bisect (n - (n / 2 + 1) : Nat) (← middle.step) pred proj
        else bisect (n / 2 : Nat) first pred proj) := by
  rw [bisect]
  by_cases hn : n = 0
  · rw [dif_pos (by omega), if_pos hn]
  · rw [dif_neg (by omega), if_neg hn]
    split
    · rename_i h
      rw [Width.half_natCast] at h
      cases h
    · rename_i half h
      rw [Width.half_natCast] at h
      cases h
      refine bind_congr fun middle => bind_congr fun b => ite_congr rfl (fun _ => ?_) fun _ => rfl
      refine bind_congr fun next => ?_
      split <;> rename_i h <;> rw [Width.behind_half _ (Nat.pos_of_ne_zero hn)] at h <;> cases h
      rfl

/-- So does bisecting for both ends, up to an equivalent element. -/
theorem bisectEqual_eq (n : Nat) (value : β) (comp : Relation κ β β) (proj : Projection κ α β) :
    bisectEqual n first value comp proj = (do
      if n = 0 then return (first, first)
      else
        let middle ← first.advance (n / 2 : Nat)
        let y ← middle.project proj
        if ← comp y value then
          bisectEqual (n - (n / 2 + 1) : Nat) (← middle.step) value comp proj
        else if ← comp value y then bisectEqual (n / 2 : Nat) first value comp proj
        else
          let lower ← lowerBoundN first (n / 2 : Nat) value comp proj
          let upper ← upperBoundN (← middle.step) (n - (n / 2 + 1) : Nat) value comp proj
          return (lower, upper)) := by
  rw [bisectEqual]
  by_cases hn : n = 0
  · rw [dif_pos (by omega), if_pos hn]
  · have hb := Width.behind_half first.width (Nat.pos_of_ne_zero hn)
    rw [dif_neg (by omega), if_neg hn]
    split
    · rename_i h
      rw [Width.half_natCast] at h
      cases h
    · rename_i half h
      rw [Width.half_natCast] at h
      cases h
      refine bind_congr fun middle => bind_congr fun y => bind_congr fun before => ?_
      refine ite_congr rfl (fun _ => bind_congr fun next => ?_) fun _ => bind_congr fun after => ?_
      · split <;> rename_i h <;> rw [hb] at h <;> cases h
        rfl
      · refine ite_congr rfl (fun _ => rfl) fun _ => ?_
        rw [hb]
        rfl

/-- A search by probes goes on from one probe to the next. -/
theorem probe_eq (dist : Int) (value : β) (comp : Relation κ β β) (proj : Projection κ α β) :
    probe dist first last value comp proj = (do
      let (short, middle) ← last.advance first dist
      if short < 0 then throw .negativeShortfall
      else if 0 < short ∨ last.isEnd middle then
        equalRangeN first (← first.width.sub dist short) value comp proj
      else
        let y ← middle.project proj
        if ← comp value y then equalRangeN first dist value comp proj
        else if ← comp y value then
          probe (first.width.double dist) (← middle.step) last value comp proj
        else
          let lower ← lowerBoundN first dist value comp proj
          let upper ← upperBound middle last value comp proj
          return (lower, upper)) := by
  rw [probe]
  split
  · rename_i h
    rw [h]
    rfl
  · rename_i short middle h
    rw [h]
    refine ite_congr rfl (fun _ => rfl) fun _ => ite_congr rfl (fun _ => rfl) fun _ => ?_
    refine bind_congr fun y => bind_congr fun b => ?_
    refine ite_congr rfl (fun _ => rfl) fun _ => bind_congr fun b => ?_
    refine ite_congr rfl (fun _ => ?_) fun _ => rfl
    split <;> rename_i h <;> rw [h] <;> rfl

end Steps

section Probe

variable [IntCast α] [Inhabited α] {first middle : Cursor α} {last : Bound α} {value : β}
  {comp : Relation κ β β} {proj : Projection κ α β}

/-- A probe short of the end looks at an element. -/
theorem probe_within {d : Int}
    (h : last.advance first d = .ok (0, middle) ∧ last.isEnd middle = false) :
    probe d first last value comp proj = (do
      let y ← middle.project proj
      if ← comp value y then equalRangeN first d value comp proj
      else if ← comp y value then
        probe (first.width.double d) (← middle.step) last value comp proj
      else
        let lower ← lowerBoundN first d value comp proj
        let upper ← upperBound middle last value comp proj
        return (lower, upper)) := by
  rw [probe_eq, h.1, Run.ok_bind]
  dsimp only
  rw [if_neg (Int.lt_irrefl 0), if_neg (by simp [h.2])]

/-- A probe that the bound cuts short leaves the elements up to there. -/
theorem probe_short {d m : Nat} (hf : first.width.Fits d) (hm : m ≤ d)
    (h : last.advance first d = .ok ((d - m : Nat), middle) ∧ last.isEnd middle = true) :
    probe d first last value comp proj = equalRangeN first m value comp proj := by
  rw [probe_eq, h.1, Run.ok_bind]
  dsimp only
  rw [if_neg (by omega), if_pos (.inr h.2), Width.sub_shortfall hf hm, Run.ok_bind]

end Probe

namespace Listed

/-- The offset of the first element whose test gives `wanted`, or the length. -/
def seek (wanted : Bool) (t : Predicate κ α) : List α → StateM κ Nat
  | [] => return 0
  | x :: xs => do
    if (← t x) == wanted then return 0
    else
      let i ← seek wanted t xs
      return 1 + i

/-- The number of elements whose projection equals `value`. -/
def count [BEq β] (value : β) (proj : Projection κ α β) : List α → StateM κ Nat
  | [] => return 0
  | x :: xs => do
    let y ← proj x
    let n ← count value proj xs
    return (if y == value then 1 + n else n)

/-- Bisects a list. -/
def bisect (t : Predicate κ α) (xs : List α) : StateM κ Nat :=
  if h : xs.length / 2 < xs.length then do
    if ← t xs[xs.length / 2] then
      let i ← bisect t (xs.drop (xs.length / 2 + 1))
      return xs.length / 2 + 1 + i
    else bisect t (xs.take (xs.length / 2))
  else return 0
termination_by xs.length
decreasing_by all_goals simp; omega

section EqualRange

variable (value : β) (comp : Relation κ β β) (proj : Projection κ α β)

/-- Bisects a list for both ends of the elements equivalent to a value. -/
def bisectEqual (xs : List α) : StateM κ (Nat × Nat) :=
  if h : xs.length / 2 < xs.length then do
    let y ← proj xs[xs.length / 2]
    if ← comp y value then
      let r ← bisectEqual (xs.drop (xs.length / 2 + 1))
      return (xs.length / 2 + 1 + r.1, xs.length / 2 + 1 + r.2)
    else if ← comp value y then bisectEqual (xs.take (xs.length / 2))
    else
      let lower ← bisect ((orderedBefore value comp).on proj) (xs.take (xs.length / 2))
      let upper ← bisect ((notOrderedAfter value comp).on proj) (xs.drop (xs.length / 2 + 1))
      return (lower, xs.length / 2 + 1 + upper)
  else return (0, 0)
termination_by xs.length
decreasing_by all_goals simp; omega

/-- Probes a list for both ends, the next probe being `dist` elements ahead and distances doubling
as far as they can be written. -/
def probe (width : Width) (dist : Nat) (xs : List α) : StateM κ (Nat × Nat) :=
  if h : dist < xs.length then do
    let y ← proj xs[dist]
    if ← comp value y then bisectEqual value comp proj (xs.take dist)
    else if ← comp y value then
      let r ← probe width (width.double dist).toNat (xs.drop (dist + 1))
      return (dist + 1 + r.1, dist + 1 + r.2)
    else
      let lower ← bisect ((orderedBefore value comp).on proj) (xs.take dist)
      let upper ← seek false ((notOrderedAfter value comp).on proj) (xs.drop dist)
      return (lower, dist + upper)
  else bisectEqual value comp proj xs
termination_by xs.length
decreasing_by simp; omega

end EqualRange

end Listed

namespace Cursor

/-- Both ends of a part of the sequence. -/
def hops (c : Cursor α) (r : Nat × Nat) : Cursor α × Cursor α := (c.hop r.1, c.hop r.2)

theorem hops_hop (c : Cursor α) (m : Nat) (r : Nat × Nat) :
    (c.hop m).hops r = c.hops (m + r.1, m + r.2) := by
  rw [hops, hop_hop, hop_hop, hops]

variable [IntCast α] {c : Cursor α} {s t u : Store α} {m n : Nat}

/-- From one store to the other the cursor has not been read at positions `n` steps ahead or
further. -/
def Spares (c : Cursor α) (n : Nat) (s t : Store α) : Prop :=
  (c.keeps = true → t = s) ∧ ∀ j, n ≤ j → (c.hop j).look t = (c.hop j).look s

theorem Spares.refl (c : Cursor α) (n : Nat) (s : Store α) : c.Spares n s s :=
  ⟨fun _ => rfl, fun _ _ => rfl⟩

theorem Spares.trans (h : c.Spares n s t) (h' : c.Spares n t u) : c.Spares n s u :=
  ⟨fun hk => (h'.1 hk).trans (h.1 hk), fun j hj => (h'.2 j hj).trans (h.2 j hj)⟩

theorem Spares.mono (h : c.Spares m s t) (hmn : m ≤ n) : c.Spares n s t :=
  ⟨h.1, fun j hj => h.2 j (Nat.le_trans hmn hj)⟩

/-- What spares the positions from further on spares them from here. -/
theorem Spares.of_hop (h : (c.hop m).Spares n s t) : c.Spares (m + n) s t := by
  refine ⟨fun hk => h.1 (by rwa [keeps_hop]), fun j hj => ?_⟩
  have := h.2 (j - m) (by omega)
  rwa [hop_hop, Nat.add_sub_cancel' (by omega)] at this

theorem spares_drain [Inhabited α] (c : Cursor α) (h : m < n) (s : Store α) :
    c.Spares n s ((c.hop m).drain s) :=
  ⟨fun hk => drain_of_keeps (by rwa [keeps_hop]) s, fun _ hj => look_drain_of_ne c (by omega) s⟩

/-- The elements at positions that have been spared are shown as before. -/
theorem Shows.spared {xs : List α} (h : Shows s (c.hop n) xs) (hs : c.Spares n s t) :
    Shows t (c.hop n) xs := by
  refine h.congr fun i _ => ?_
  rw [hop_hop]
  exact hs.2 _ (Nat.le_add_right n i)

end Cursor

namespace Presents

variable [IntCast α] {s t : Store α} {c : Cursor α} {b : Bound α} {x : α} {xs : List α} {n : Nat}

/-- The elements behind the first one, when that has been read. -/
theorem tail [Inhabited α] (h : Presents s c b (x :: xs)) :
    Presents (c.drain s) (c.hop 1) b xs := by
  have hd := h.drop (Nat.le_add_left 1 xs.length)
  have hr := h.shows.drop_drain (Nat.succ_pos xs.length)
  rw [Cursor.hop_zero, Nat.zero_add] at hr
  exact ⟨hr, hd.ends, hd.suits⟩

/-- The first element has become what reading leaves of it. -/
theorem reread [Inhabited α] (h : Presents s c b (x :: xs)) :
    Presents (c.drain s) c b (c.residue x :: xs) := by
  obtain ⟨hv, hx, hs, -⟩ := Cursor.shows_cons_iff.1 h.shows
  exact ⟨Cursor.shows_cons_iff.2 ⟨hv, Cursor.look_drain_self hx, hs, h.tail.shows⟩, h.ends, h.suits⟩

theorem spared (h : Presents s (c.hop n) b xs) (hs : c.Spares n s t) : Presents t (c.hop n) b xs :=
  ⟨h.shows.spared hs, h.ends, h.suits⟩

/-- Short of the end a bound that does not tell distances is not met. -/
theorem advance_of_lt (h : Presents s c b xs) (hb : b.sized = false) (hn : n < xs.length) :
    b.advance c n = .ok (0, c.hop n) ∧ b.isEnd (c.hop n) = false := by
  have ha := h.advance (fun hs => absurd (hb.symm.trans hs) Bool.false_ne_true) n
  rw [Nat.min_eq_left (Nat.le_of_lt hn), Nat.sub_eq_zero_of_le (Nat.le_of_lt hn)] at ha
  exact ⟨ha, (h.isEnd (Nat.le_of_lt hn)).trans (decide_eq_false (Nat.ne_of_lt hn))⟩

theorem advance_of_le (h : Presents s c b xs) (hb : b.sized = false) (hn : xs.length ≤ n) :
    b.advance c n = .ok ((n - xs.length : Nat), c.hop xs.length) ∧
      b.isEnd (c.hop xs.length) = true := by
  have ha := h.advance (fun hs => absurd (hb.symm.trans hs) Bool.false_ne_true) n
  rw [Nat.min_eq_right hn] at ha
  exact ⟨ha, (h.isEnd (Nat.le_refl _)).trans (decide_eq_true rfl)⟩

end Presents

namespace Run

variable [IntCast α]

/-- The run does what `f` does on a list, with its answer put in place by `place`, and reads the
cursor at no position `n` steps ahead or further. -/
def Follows (act : Run α κ γ) (f : StateM κ ν) (place : ν → γ) (c : Cursor α) (n : Nat)
    (w : World α κ) : Prop :=
  ∃ s, act w = .ok (place (f w.calls).1) ⟨s, (f w.calls).2⟩ ∧ c.Spares n w.store s

namespace Follows

variable {act act' : Run α κ γ} {f f' : StateM κ ν} {place : ν → γ} {c d : Cursor α}
  {k m n : Nat} {w : World α κ}

theorem pure {x : γ} {b : ν} (hp : place b = x) :
    (Pure.pure x : Run α κ γ).Follows (Pure.pure b) place c n w := by
  subst hp
  exact ⟨w.store, rfl, .refl c n w.store⟩

theorem mono (h : act.Follows f place c m w) (hmn : m ≤ n) : act.Follows f place c n w := by
  obtain ⟨s, ha, hs⟩ := h
  exact ⟨s, ha, hs.mono hmn⟩

/-- A run on the elements from a position on is one on the elements from here on. -/
theorem of_hop {place' : ν → γ} (h : act.Follows f place' (c.hop m) k w)
    (hp : ∀ b, place' b = place b) (hn : m + k ≤ n) : act.Follows f place c n w := by
  obtain ⟨s, ha, hs⟩ := h
  rw [hp] at ha
  exact ⟨s, ha, hs.of_hop.mono hn⟩

/-- It answers from there. -/
theorem behind {g : δ → ν} {f : StateM κ δ} {place' : δ → γ}
    (h : act.Follows f place' (c.hop m) k w) (hp : ∀ b, place' b = place (g b))
    (hn : m + k ≤ n) : act.Follows (do let b ← f; return g b) place c n w :=
  show act.Follows f (fun b => place (g b)) c n w from h.of_hop hp hn

theorem ite {b : Bool} (ht : b = true → act.Follows f place c n w)
    (hf : b = false → act'.Follows f' place c n w) :
    (if b = true then act else act').Follows (if b = true then f else f') place c n w := by
  cases b with
  | true => exact ht rfl
  | false => exact hf rfl

theorem lift {x : Except Fault δ} {b : δ} {act : δ → Run α κ γ} (hx : x = .ok b)
    (h : (act b).Follows f place c n w) : (liftM x >>= act).Follows f place c n w := by
  obtain ⟨s, ha, hs⟩ := h
  exact ⟨s, (bind_ok (lift_ok hx w)).trans ha, hs⟩

theorem call {g : StateM κ δ} {act : δ → Run α κ γ} {f : δ → StateM κ ν}
    (h : (act (g w.calls).1).Follows (f (g w.calls).1) place c n ⟨w.store, (g w.calls).2⟩) :
    (liftM g >>= act).Follows (g >>= f) place c n w := by
  obtain ⟨s, ha, hs⟩ := h
  exact ⟨s, (bind_ok (call_apply g w)).trans ha, hs⟩

theorem bind {g : StateM κ δ} {p : δ → β} {act : Run α κ β} {act' : β → Run α κ γ}
    {f : δ → StateM κ ν} (h : act.Follows g p c m w) (hmn : m ≤ n)
    (h' : ∀ s, c.Spares m w.store s →
      (act' (p (g w.calls).1)).Follows (f (g w.calls).1) place c n ⟨s, (g w.calls).2⟩) :
    (act >>= act').Follows (g >>= f) place c n w := by
  obtain ⟨s, ha, hs⟩ := h
  obtain ⟨t, ha', ht⟩ := h' s hs
  exact ⟨t, (bind_ok ha).trans ha', (hs.mono hmn).trans ht⟩

variable [Inhabited α]

theorem project {proj : Projection κ α δ} {act : δ → Run α κ γ} {f : δ → StateM κ ν} {x : α}
    (hd : c.hop m = d) (hx : d.look w.store = some x) (hmn : m < n)
    (h : (act (proj x w.calls).1).Follows (f (proj x w.calls).1) place c n
      ⟨d.drain w.store, (proj x w.calls).2⟩) :
    (d.project proj >>= act).Follows (proj x >>= f) place c n w := by
  subst hd
  obtain ⟨s, ha, hs⟩ := h
  exact ⟨s, (bind_ok (Cursor.project_eq hx proj)).trans ha, (Cursor.spares_drain c hmn _).trans hs⟩

theorem test {pred : Predicate κ δ} {proj : Projection κ α δ} {act : Bool → Run α κ γ}
    {f : Bool → StateM κ ν} {x : α} (hd : c.hop m = d) (hx : d.look w.store = some x) (hmn : m < n)
    (h : (act (pred.on proj x w.calls).1).Follows (f (pred.on proj x w.calls).1) place c n
      ⟨d.drain w.store, (pred.on proj x w.calls).2⟩) :
    (d.test pred proj >>= act).Follows (pred.on proj x >>= f) place c n w := by
  subst hd
  obtain ⟨s, ha, hs⟩ := h
  exact ⟨s, (bind_ok (Cursor.test_eq hx pred proj)).trans ha,
    (Cursor.spares_drain c hmn _).trans hs⟩

end Follows

end Run

namespace Listed

open Cursor Run

variable [IntCast α] [Inhabited α] {c : Cursor α} {b : Bound α} {xs : List α}
  {s : Store α} {k : κ}

theorem bisect_follows {n : Nat} (h : c.Shows s xs) (hn : xs.length = n)
    (pred : Predicate κ β) (proj : Projection κ α β) :
    (Waymark.bisect n c pred proj).Follows (bisect (pred.on proj) xs) c.hop c n ⟨s, k⟩ := by
  induction xs using bisect.induct generalizing c s k n with
  | case1 xs hm ihr ihl =>
    subst hn
    rw [bisect_eq, if_neg (by omega), bisect, dif_pos hm]
    refine .lift (h.advance (Nat.le_of_lt hm)) ?_
    refine .test rfl (h.look hm) hm (.ite (fun _ => ?_) fun _ => ?_)
    · refine .lift (h.step hm) ?_
      exact .behind (ihr (h.drop_drain hm) List.length_drop) (hop_hop c _) (by omega)
    · exact .mono (ihl (h.take_drain _) (List.length_take_of_le (by omega))) (by omega)
  | case2 xs hm =>
    rw [bisect_eq, if_pos (by omega), bisect, dif_neg hm]
    exact .pure (hop_zero c)

theorem partitionPointN_follows {n : Nat} (h : c.Shows s xs) (hn : xs.length = n)
    (pred : Predicate κ β) (proj : Projection κ α β) :
    (partitionPointN c n pred proj).Follows (bisect (pred.on proj) xs) c.hop c n ⟨s, k⟩ := by
  rw [partitionPointN, if_neg (by omega)]
  exact bisect_follows h hn pred proj

theorem seek_follows (wanted : Bool) (h : Presents s c b xs) (pred : Predicate κ β)
    (proj : Projection κ α β) :
    (findBy wanted c b pred proj).Follows (seek wanted (pred.on proj) xs) c.hop c xs.length ⟨s, k⟩ := by
  induction xs generalizing c s k with
  | nil =>
    rw [findBy, if_pos (show b.isEnd c = true from h.ends)]
    exact .pure (hop_zero c)
  | cons x xs ih =>
    obtain ⟨he, -⟩ := h.ends
    obtain ⟨-, hx, hs, -⟩ := shows_cons_iff.1 h.shows
    rw [findBy_eq, if_neg (ne_true_of_eq_false he), seek]
    refine .test (hop_zero c) hx (Nat.succ_pos _) (.ite (fun _ => .pure (hop_zero c)) fun _ => ?_)
    exact .lift hs (.behind (ih h.tail) (hop_hop c _) (by rw [List.length_cons]; omega))

/-- No more elements are counted than there are, so that the count can be written if their number
can. -/
theorem countFrom_follows [BEq β] {n : Nat} (h : Presents s c b xs)
    (hn : c.width.Fits (n + xs.length : Nat)) (value : β) (proj : Projection κ α β) :
    (countFrom n c b value proj).Follows (count value proj xs)
      (fun m => ((n + m : Nat), c.hop xs.length)) c xs.length ⟨s, k⟩ := by
  induction xs generalizing c s k n with
  | nil =>
    rw [countFrom, if_pos (show b.isEnd c = true from h.ends)]
    exact .pure (by rw [List.length_nil, hop_zero, Nat.add_zero])
  | cons x xs ih =>
    obtain ⟨he, -⟩ := h.ends
    obtain ⟨-, hx, hs, -⟩ := shows_cons_iff.1 h.shows
    have hl : 1 + xs.length = (x :: xs).length := by rw [List.length_cons, Nat.add_comm]
    rw [← hl] at hn
    rw [countFrom_eq, if_neg (ne_true_of_eq_false he), count]
    refine .project (hop_zero c) hx (Nat.succ_pos _) ?_
    cases (proj x k).1 == value with
    | true =>
      have hn1 : c.width.Fits (n + 1 : Nat) := hn.of_le (by omega)
      refine .lift (Width.add_eq_ok_iff.2 ⟨hn1, by omega⟩) (.lift hs ?_)
      refine .behind (ih (n := n + 1) h.tail ?_) (fun m => ?_) (Nat.le_of_eq hl)
      · rwa [width_hop, Nat.add_assoc]
      · rw [hop_hop, hl, Nat.add_assoc]
        rfl
    | false =>
      refine .lift rfl (.lift hs ?_)
      refine .behind (ih (n := n) h.tail ?_) (fun m => ?_) (Nat.le_of_eq hl)
      · rw [width_hop]
        exact hn.of_le (by omega)
      · rw [hop_hop, hl]
        rfl

theorem bisectEqual_follows {n : Nat} (h : c.Shows s xs) (hn : xs.length = n) (value : β)
    (comp : Relation κ β β) (proj : Projection κ α β) :
    (Waymark.bisectEqual n c value comp proj).Follows (bisectEqual value comp proj xs)
      c.hops c n ⟨s, k⟩ := by
  induction xs using bisectEqual.induct generalizing c s k n with
  | case1 xs hm ihr ihl =>
    subst hn
    rw [bisectEqual_eq, if_neg (by omega), bisectEqual, dif_pos hm]
    refine .lift (h.advance (Nat.le_of_lt hm)) ?_
    refine .project rfl (h.look hm) hm (.call (.ite (fun _ => ?_) fun _ => .call
      (.ite (fun _ => ?_) fun _ => ?_)))
    · refine .lift (h.step hm) ?_
      exact .behind (ihr (h.drop_drain hm) List.length_drop) (hops_hop c _) (by omega)
    · exact .mono (ihl (h.take_drain _) (List.length_take_of_le (by omega))) (by omega)
    · refine .bind (partitionPointN_follows (h.take_drain _) (List.length_take_of_le (by omega))
        _ _) (by omega) fun t ht => .lift (h.step hm) ?_
      have hu := (h.drop_drain hm).spared (ht.mono (Nat.le_succ _))
      exact .bind (.of_hop (partitionPointN_follows hu List.length_drop _ _) (hop_hop c _)
        (Nat.le_refl _)) (by omega) fun t _ => .pure rfl
  | case2 xs hm =>
    rw [bisectEqual_eq, if_pos (by omega), bisectEqual, dif_neg hm]
    exact .pure (by rw [hops, hop_zero])

theorem equalRangeN_follows {n : Nat} (h : c.Shows s xs) (hn : xs.length = n) (value : β)
    (comp : Relation κ β β) (proj : Projection κ α β) :
    (equalRangeN c n value comp proj).Follows (bisectEqual value comp proj xs) c.hops c n ⟨s, k⟩ := by
  rw [equalRangeN, if_neg (by omega)]
  exact bisectEqual_follows h hn value comp proj

theorem partitionPoint_follows (h : Presents s c b xs) (hb : b.sized = false)
    (pred : Predicate κ β) (proj : Projection κ α β) :
    (partitionPoint c b pred proj).Follows (seek false (pred.on proj) xs) c.hop c xs.length ⟨s, k⟩ := by
  have hm := h.measure fun hs => absurd (hb.symm.trans hs) Bool.false_ne_true
  rw [hb] at hm
  exact .lift hm (seek_follows false h pred proj)

theorem toNat_double (v : Width) (n : Nat) : ((v.double n).toNat : Int) = v.double n := by
  have := v.le_max
  have := v.min_eq
  unfold Width.double
  grind

theorem fits_toNat_double (v : Width) (n : Nat) : v.Fits ((v.double n).toNat : Nat) := by
  rw [toNat_double]
  exact v.double_fits n

/-- The element of the last probe may be read once more, so that reading has to keep it. -/
theorem probe_follows {dist : Nat} {width : Width} (h : Presents s c b xs)
    (hw : c.width = width) (hf : width.Fits dist) (hb : b.sized = false) (hk : c.keeps = true)
    (value : β) (comp : Relation κ β β) (proj : Projection κ α β) :
    (Waymark.probe dist c b value comp proj).Follows (probe value comp proj width dist xs)
      c.hops c xs.length ⟨s, k⟩ := by
  induction dist, xs using probe.induct width generalizing c s k with
  | case1 dist xs hd ih =>
    rw [probe_within (h.advance_of_lt hb hd), probe, dif_pos hd]
    have hl := List.length_take_of_le (Nat.le_of_lt hd)
    refine .project rfl (h.shows.look hd) hd ?_
    rw [drain_of_keeps (by rwa [keeps_hop])]
    refine .call (.ite (fun _ => ?_) fun _ => .call (.ite (fun _ => ?_) fun _ => ?_))
    · exact .mono (equalRangeN_follows (h.shows.take _) hl value comp proj) (by omega)
    · rw [hw, ← toNat_double]
      refine .lift (h.shows.step hd) (.behind (ih (h.drop hd) ?_ ?_ ?_) (hops_hop c _) ?_)
      · rwa [width_hop]
      · exact fits_toNat_double width dist
      · rwa [keeps_hop]
      · rw [List.length_drop]; omega
    · refine .bind (partitionPointN_follows (h.shows.take _) hl _ _) (Nat.le_of_lt hd)
        fun t ht => ?_
      obtain rfl := ht.1 hk
      exact .bind (.of_hop (partitionPoint_follows (h.drop (Nat.le_of_lt hd)) hb _ _) (hop_hop c _)
        (Nat.le_refl _)) (by rw [List.length_drop]; omega) fun t _ => .pure rfl
  | case2 dist xs hd =>
    rw [probe_short (hw ▸ hf) (by omega) (h.advance_of_le hb (by omega)), probe, dif_neg hd]
    exact equalRangeN_follows h.shows rfl value comp proj

end Listed

end Waymark
