import Waymark.Compare.Includes
import Waymark.Proofs.Search.Listed

/-!
# Comparisons of lists

Equality and inclusion once more, on two lists instead of two cursors. A run on cursors that show the
lists does what the comparison of the lists does (`equalByBoth_yields`, `includes_yields`), provided
that reading the one sequence leaves the other (`Cursor.Apart`).

On sequences of one length it does not matter whether the end of the second one is looked for
(`equalByFirst_eq_equalByBoth`): the two loops are the same action.
-/

namespace Waymark

variable {α β γ δ κ ν : Type}

section Steps

variable [IntCast α] [Inhabited α] (c : Cursor α) (last₁ : Bound α) (d : Cursor α)
  (last₂ : Bound α) (proj₁ : Projection κ α β)

/-- Comparing by the first sequence goes on from a step to the next. -/
theorem equalByFirst_eq (rel : Relation κ β γ) (proj₂ : Projection κ α γ) :
    equalByFirst c last₁ d rel proj₁ proj₂ = (do
      if last₁.isEnd c then return ⟨true, c, d⟩
      else if ← related c d rel proj₁ proj₂ then
        let c' ← c.step
        equalByFirst c' last₁ (← d.step) rel proj₁ proj₂
      else return ⟨false, c, d⟩) := by
  rw [equalByFirst]
  refine ite_congr rfl (fun _ => rfl) fun _ => bind_congr fun b => ?_
  refine ite_congr rfl (fun _ => ?_) fun _ => rfl
  split <;> rename_i h <;> rw [h] <;> rfl

/-- Comparing until one of the sequences ends goes on from a step to the next. -/
theorem equalByBoth_eq (rel : Relation κ β γ) (proj₂ : Projection κ α γ) :
    equalByBoth c last₁ d last₂ rel proj₁ proj₂ = (do
      match last₁.isEnd c, last₂.isEnd d with
      | true, true => return ⟨true, c, d⟩
      | false, false =>
        if ← related c d rel proj₁ proj₂ then
          let c' ← c.step
          equalByBoth c' last₁ (← d.step) last₂ rel proj₁ proj₂
        else return ⟨false, c, d⟩
      | _, _ => return ⟨false, c, d⟩) := by
  rw [equalByBoth]
  cases last₁.isEnd c <;> cases last₂.isEnd d <;> try rfl
  refine bind_congr fun b => ite_congr rfl (fun _ => ?_) fun _ => rfl
  split <;> rename_i h <;> rw [h] <;> rfl

/-- Looking for the elements of the second sequence goes on from a step to the next. -/
theorem includes_eq (comp : Relation κ β β) (proj₂ : Projection κ α β) :
    includes c last₁ d last₂ comp proj₁ proj₂ = (do
      if last₂.isEnd d then return ⟨true, c, d⟩
      else if last₁.isEnd c then return ⟨false, c, d⟩
      else
        let y ← c.project proj₁
        let z ← d.project proj₂
        if ← comp z y then return ⟨false, c, d⟩
        else
          let skipped ← comp y z
          let d' ← (if skipped then .ok d else d.step : Except Fault (Cursor α))
          includes (← c.step) last₁ d' last₂ comp proj₁ proj₂) := by
  rw [includes]
  refine ite_congr rfl (fun _ => rfl) fun _ => ite_congr rfl (fun _ => rfl) fun _ => ?_
  refine bind_congr fun y => bind_congr fun z => bind_congr fun b => ?_
  refine ite_congr rfl (fun _ => rfl) fun _ => bind_congr fun skipped => bind_congr fun d' => ?_
  split <;> rename_i h <;> rw [h] <;> rfl

end Steps

/-! ## Two loops for one comparison -/

/-- If both sequences end after as many steps, only the first one need be asked whether it has. -/
theorem equalByFirst_eq_equalByBoth [IntCast α] [Inhabited α] {c d : Cursor α} {last₁ last₂ : Bound α}
    {n : Nat} (hc : last₁.LiesAhead c n) (hd : last₂.LiesAhead d n) (rel : Relation κ β γ)
    (proj₁ : Projection κ α β) (proj₂ : Projection κ α γ) :
    equalByFirst c last₁ d rel proj₁ proj₂ = equalByBoth c last₁ d last₂ rel proj₁ proj₂ := by
  induction n generalizing c d with
  | zero =>
    have hc : last₁.isEnd c = true := hc
    have hd : last₂.isEnd d = true := hd
    rw [equalByFirst_eq, equalByBoth_eq, hc, hd]
    rfl
  | succ n ih =>
    obtain ⟨hce, hcs, hc⟩ := Bound.liesAhead_succ_iff.1 hc
    obtain ⟨hde, hds, hd⟩ := Bound.liesAhead_succ_iff.1 hd
    rw [equalByFirst_eq, equalByBoth_eq, hce, hde, if_neg Bool.false_ne_true, hcs, hds]
    refine bind_congr fun b => ite_congr rfl (fun _ => ?_) fun _ => rfl
    exact ih hc hd

/-! ## Two sequences that leave each other alone -/

section Apart

variable [IntCast α] [Inhabited α] {c d : Cursor α} {m n : Nat}

/-- Reading one of the first `m` elements of the one sequence leaves the first `n` elements of the
other, and the other way round. -/
def Cursor.Apart (c : Cursor α) (m : Nat) (d : Cursor α) (n : Nat) : Prop :=
  ∀ i < m, ∀ j < n, ∀ s : Store α, (d.hop j).look ((c.hop i).drain s) = (d.hop j).look s ∧
    (c.hop i).look ((d.hop j).drain s) = (c.hop i).look s

namespace Cursor

/-- Sequences that reading leaves as they are leave each other, even if they overlap. -/
theorem apart_of_keeps (hc : c.keeps = true) (hd : d.keeps = true) (m n : Nat) :
    c.Apart m d n := by
  intro i _ j _ s
  rw [drain_of_keeps ((keeps_hop c i).trans hc), drain_of_keeps ((keeps_hop d j).trans hd)]
  exact ⟨rfl, rfl⟩

/-- A sequence outside the store is left by all others. -/
theorem apart_of_slot?_eq_none (hc : c.slot? = none) (hk : c.keeps = true) (m n : Nat) :
    c.Apart m d n := by
  intro i _ j _ s
  rw [drain_of_keeps ((keeps_hop c i).trans hk)]
  exact ⟨rfl, look_of_slot?_eq_none (slot?_hop_eq_none hc i) _ _⟩

/-- Sequences at different places of the store leave each other. -/
theorem apart_of_place_ne {p q i j : Nat} (hc : c.slot? = some (p, i)) (hd : d.slot? = some (q, j))
    (h : p ≠ q) (m n : Nat) : c.Apart m d n := by
  have hl {b e : Cursor α} {p q i j : Nat} (hb : b.slot? = some (p, i))
      (he : e.slot? = some (q, j)) (h : p ≠ q) (s : Store α) : e.look (b.drain s) = e.look s := by
    unfold drain
    split
    · rfl
    · rw [look_of_slot? he, look_of_slot? he, clear_of_slot? hb, List.getElem?_modify_ne _ _ h]
  intro k _ l _ s
  exact ⟨hl (slot?_hop hc k) (slot?_hop hd l) h s,
    hl (slot?_hop hd l) (slot?_hop hc k) (Ne.symm h) s⟩

theorem Apart.symm (h : c.Apart m d n) : d.Apart n c m :=
  fun i hi j hj s => (h j hj i hi s).symm

/-- So do the elements from later positions on. -/
theorem Apart.hop {a b : Nat} (h : c.Apart (a + m) d (b + n)) : (c.hop a).Apart m (d.hop b) n := by
  intro i hi j hj s
  rw [hop_hop, hop_hop]
  exact h (a + i) (by omega) (b + j) (by omega) s

theorem Apart.step (h : c.Apart (m + 1) d (n + 1)) : (c.hop 1).Apart m (d.hop 1) n := by
  rw [Nat.add_comm m, Nat.add_comm n] at h
  exact h.hop

/-- Reading at one of the two leaves the other. -/
theorem Apart.look_second (h : c.Apart (m + 1) d n) {j : Nat} (hj : j < n) (s : Store α) :
    (d.hop j).look (c.drain s) = (d.hop j).look s := by
  have := (h 0 (Nat.succ_pos m) j hj s).1
  rwa [hop_zero] at this

theorem Apart.look_first (h : c.Apart m d (n + 1)) {i : Nat} (hi : i < m) (s : Store α) :
    (c.hop i).look (d.drain s) = (c.hop i).look s := by
  have := (h i hi 0 (Nat.succ_pos n) s).2
  rwa [hop_zero] at this

end Cursor

end Apart

/-- What is presented depends on the store only in what the cursor looks at on the way. -/
theorem Presents.congr [IntCast α] {s t : Store α} {c : Cursor α} {b : Bound α} {xs : List α}
    (h : Presents s c b xs) (ht : ∀ i < xs.length, (c.hop i).look t = (c.hop i).look s) :
    Presents t c b xs :=
  ⟨h.shows.congr ht, h.ends, h.suits⟩

/-! ## Runs that answer as on lists -/

namespace Run

/-- The run answers and calls as `f` does, with the answer put in place by `place`. -/
def Yields (act : Run α κ γ) (f : StateM κ ν) (place : ν → γ) (w : World α κ) : Prop :=
  ∃ s, act w = .ok (place (f w.calls).1) ⟨s, (f w.calls).2⟩

theorem Follows.yields [IntCast α] {act : Run α κ γ} {f : StateM κ ν} {place : ν → γ} {c : Cursor α}
    {n : Nat} {w : World α κ} (h : act.Follows f place c n w) : act.Yields f place w := by
  obtain ⟨s, ha, -⟩ := h
  exact ⟨s, ha⟩

namespace Yields

variable {act act' : Run α κ γ} {f f' : StateM κ ν} {place : ν → γ} {w : World α κ}

theorem pure {x : γ} {b : ν} (hp : place b = x) :
    (Pure.pure x : Run α κ γ).Yields (Pure.pure b) place w := by
  subst hp
  exact ⟨w.store, rfl⟩

/-- The answer may be changed first and put in place afterwards. -/
theorem behind {g : δ → ν} {f : StateM κ δ} {place' : δ → γ} (h : act.Yields f place' w)
    (hp : ∀ b, place' b = place (g b)) :
    act.Yields (do let b ← f; return g b) place w := by
  obtain ⟨s, ha⟩ := h
  rw [hp] at ha
  exact ⟨s, ha⟩

theorem ite {b : Bool} (ht : b = true → act.Yields f place w)
    (hf : b = false → act'.Yields f' place w) :
    (if b = true then act else act').Yields (if b = true then f else f') place w := by
  cases b with
  | true => exact ht rfl
  | false => exact hf rfl

theorem lift {x : Except Fault δ} {b : δ} {act : δ → Run α κ γ} (hx : x = .ok b)
    (h : (act b).Yields f place w) : (liftM x >>= act).Yields f place w := by
  obtain ⟨s, ha⟩ := h
  exact ⟨s, (bind_ok (lift_ok hx w)).trans ha⟩

theorem call {g : StateM κ δ} {act : δ → Run α κ γ} {f : δ → StateM κ ν}
    (h : (act (g w.calls).1).Yields (f (g w.calls).1) place ⟨w.store, (g w.calls).2⟩) :
    (liftM g >>= act).Yields (g >>= f) place w := by
  obtain ⟨s, ha⟩ := h
  exact ⟨s, (bind_ok (call_apply g w)).trans ha⟩

theorem project [IntCast α] [Inhabited α] {c : Cursor α} {proj : Projection κ α δ}
    {act : δ → Run α κ γ} {f : δ → StateM κ ν} {x : α} (hx : c.look w.store = some x)
    (h : (act (proj x w.calls).1).Yields (f (proj x w.calls).1) place
      ⟨c.drain w.store, (proj x w.calls).2⟩) :
    (c.project proj >>= act).Yields (proj x >>= f) place w := by
  obtain ⟨s, ha⟩ := h
  exact ⟨s, (bind_ok (Cursor.project_eq hx proj)).trans ha⟩

end Yields

end Run

namespace Listed

open Cursor

section Functions

variable (proj₁ : Projection κ α β)

/-- Compares two lists, and tells how many pairs have been passed. -/
def equal (rel : Relation κ β γ) (proj₂ : Projection κ α γ) : List α → List α → StateM κ (Bool × Nat)
  | [], [] => return (true, 0)
  | x :: xs, y :: ys => do
    let a ← proj₁ x
    let b ← proj₂ y
    if ← rel a b then
      let r ← equal rel proj₂ xs ys
      return (r.1, 1 + r.2)
    else return (false, 0)
  | _, _ => return (false, 0)

/-- Looks for the elements of the second list among those of the first, and tells how many elements
of each have been passed. -/
def includes (comp : Relation κ β β) (proj₂ : Projection κ α β) :
    List α → List α → StateM κ (Bool × Nat × Nat)
  | _, [] => return (true, 0, 0)
  | [], _ :: _ => return (false, 0, 0)
  | x :: xs, y :: ys => do
    let a ← proj₁ x
    let b ← proj₂ y
    if ← comp b a then return (false, 0, 0)
    else if ← comp a b then
      let r ← includes comp proj₂ xs (y :: ys)
      return (r.1, 1 + r.2.1, r.2.2)
    else
      let r ← includes comp proj₂ xs ys
      return (r.1, 1 + r.2.1, 1 + r.2.2)

end Functions

/-- Where nothing has been passed on either side. -/
theorem verdict_hop_zero (b : Bool) (c d : Cursor α) :
    Verdict.mk b (c.hop 0) (d.hop 0) = ⟨b, c, d⟩ := by
  rw [hop_zero, hop_zero]

variable [IntCast α] [Inhabited α] {c d : Cursor α} {last₁ last₂ : Bound α} {xs ys : List α}
  {s : Store α} {k : κ}

/-- Comparing until one of the sequences ends compares the lists. -/
theorem equalByBoth_yields (hc : Presents s c last₁ xs) (hd : Presents s d last₂ ys)
    (ha : c.Apart xs.length d ys.length) (rel : Relation κ β γ) (proj₁ : Projection κ α β)
    (proj₂ : Projection κ α γ) :
    (equalByBoth c last₁ d last₂ rel proj₁ proj₂).Yields (equal proj₁ rel proj₂ xs ys)
      (fun r => ⟨r.1, c.hop r.2, d.hop r.2⟩) ⟨s, k⟩ := by
  induction xs generalizing ys c d s k with
  | nil =>
    have hce : last₁.isEnd c = true := hc.ends
    cases ys with
    | nil =>
      have hde : last₂.isEnd d = true := hd.ends
      simp only [equalByBoth_eq, hce, hde, equal]
      exact .pure (verdict_hop_zero _ c d)
    | cons y ys =>
      simp only [equalByBoth_eq, hce, hd.ends.1, equal]
      exact .pure (verdict_hop_zero _ c d)
  | cons x xs ih =>
    cases ys with
    | nil =>
      have hde : last₂.isEnd d = true := hd.ends
      simp only [equalByBoth_eq, hc.ends.1, hde, equal]
      exact .pure (verdict_hop_zero _ c d)
    | cons y ys =>
      obtain ⟨-, hx, hcs, -⟩ := Cursor.shows_cons_iff.1 hc.shows
      have hc' := hc.tail
      have hd' := hd.congr (t := c.drain s) fun j hj => ha.look_second hj s
      obtain ⟨-, hy, hds, -⟩ := Cursor.shows_cons_iff.1 hd'.shows
      have hc'' := hc'.congr (t := d.drain (c.drain s)) fun i hi => by
        rw [Cursor.hop_hop]
        exact ha.look_first (by rw [List.length_cons]; omega) _
      rw [equalByBoth_eq, hc.ends.1, hd.ends.1, equal]
      simp only [related, bind_assoc]
      refine .project hx (.project hy (.call (.ite (fun _ => ?_) fun _ => ?_)))
      · refine .lift hcs (.lift hds (.behind (ih hc'' hd'.tail ha.step) fun r => ?_))
        rw [Cursor.hop_hop, Cursor.hop_hop]
      · exact .pure (verdict_hop_zero _ c d)

/-- An element of the second sequence is read again for every element that is passed over, so that
reading has to keep it. -/
theorem includes_yields (hc : Presents s c last₁ xs) (hd : Presents s d last₂ ys)
    (ha : c.Apart xs.length d ys.length) (hk : d.keeps = true) (comp : Relation κ β β)
    (proj₁ proj₂ : Projection κ α β) :
    (Waymark.includes c last₁ d last₂ comp proj₁ proj₂).Yields (includes proj₁ comp proj₂ xs ys)
      (fun r => ⟨r.1, c.hop r.2.1, d.hop r.2.2⟩) ⟨s, k⟩ := by
  induction xs generalizing ys c d s k with
  | nil =>
    have hce : last₁.isEnd c = true := hc.ends
    cases ys with
    | nil =>
      rw [includes_eq, if_pos (show last₂.isEnd d = true from hd.ends), includes]
      exact .pure (verdict_hop_zero _ c d)
    | cons y ys =>
      rw [includes_eq, if_neg (ne_true_of_eq_false hd.ends.1), if_pos hce, includes]
      exact .pure (verdict_hop_zero _ c d)
  | cons x xs ih =>
    cases ys with
    | nil =>
      rw [includes_eq, if_pos (show last₂.isEnd d = true from hd.ends), includes]
      exact .pure (verdict_hop_zero _ c d)
    | cons y ys =>
      obtain ⟨-, hx, hcs, -⟩ := Cursor.shows_cons_iff.1 hc.shows
      have hd' := hd.congr (t := c.drain s) fun j hj => ha.look_second hj s
      obtain ⟨-, hy, hds, -⟩ := Cursor.shows_cons_iff.1 hd'.shows
      have ht := hd'.tail
      rw [drain_of_keeps hk] at ht
      rw [includes_eq, if_neg (ne_true_of_eq_false hd.ends.1),
        if_neg (ne_true_of_eq_false hc.ends.1), includes]
      refine .project hx (.project hy ?_)
      rw [drain_of_keeps hk]
      refine .call (.ite (fun _ => ?_) fun _ => .call ?_)
      · exact .pure (verdict_hop_zero _ c d)
      · generalize (comp _ _ _).1 = skipped
        cases skipped with
        | true =>
          have ha' : (c.hop 1).Apart xs.length d (y :: ys).length := by
            have := ha
            rw [List.length_cons, Nat.add_comm, ← Nat.zero_add (y :: ys).length] at this
            simpa using this.hop
          refine .lift rfl (.lift hcs (.behind (ih hc.tail hd' ha' hk) fun r => ?_))
          rw [Cursor.hop_hop]
        | false =>
          refine .lift hds (.lift hcs (.behind (ih hc.tail ht ha.step ?_) fun r => ?_))
          · rwa [keeps_hop]
          · rw [Cursor.hop_hop, Cursor.hop_hop]

end Listed

end Waymark
