import Waymark.Proofs.Search.Boundary

/-!
# The elements equivalent to a value

On a separated sequence, bisecting for both ends and probing for them come to the same two positions
(`equalRangeN_reaches`, `probe_reaches`): the numbers of elements before the value and of those not
after it. They are the lower and the upper bound (`equalRange_reached`).

A search by probes that meets an equivalent element reads it once more, and finds what reading has left
of it. That must not be ordered after the value (`Cursor.Rereadable`), or the search ends there
(`equalRange_emptied`).
-/

namespace Waymark

namespace Separated

variable {α : Type} {p q : α → Bool} {xs : List α}

/-- The offsets at which the elements before a value end and those after it start. -/
def ends (p q : α → Bool) (xs : List α) : Nat × Nat := (xs.countP p, xs.countP fun x => !q x)

/-- Both ends lie behind an element before the value. -/
theorem ends_of_before (h : Separated p q xs) {n : Nat} (hn : n < xs.length)
    (hx : p xs[n] = true) :
    ends p q xs =
      (n + 1 + (ends p q (xs.drop (n + 1))).1, n + 1 + (ends p q (xs.drop (n + 1))).2) := by
  have hq : (!q xs[n]) = true := by rw [h.exclusive _ (List.getElem_mem hn) hx]; rfl
  rw [ends, h.before.countP_drop_succ hn hx, h.notAfter.countP_drop_succ hn hq]
  rfl

/-- Both ends lie before an element after the value. -/
theorem ends_of_after (h : Separated p q xs) {n : Nat} (hn : n < xs.length)
    (hx : q xs[n] = true) : ends p q xs = ends p q (xs.take n) := by
  have hp : p xs[n] = false := by
    cases hp : p xs[n] with
    | false => rfl
    | true => rw [← hx, h.exclusive _ (List.getElem_mem hn) hp]
  rw [ends, h.before.countP_take hn hp, h.notAfter.countP_take hn (by rw [hx]; rfl)]
  rfl

end Separated

variable {α β κ : Type} {xs : List α} {value : β} {comp : Relation κ β β} {r : β → β → Bool}
  {proj : Projection κ α β} {g : α → β}

namespace Listed

open Separated

/-- The lower bound of the elements before an equivalent one. -/
theorem lower_answers (hr : ∀ y, Answers (comp y) (r y)) (hg : Answers proj g)
    (h : Separated (fun x => r (g x) value) (fun x => r value (g x)) xs) {n : Nat}
    (hn : n < xs.length) (hx : r (g xs[n]) value = false) (k : κ) :
    (bisect ((orderedBefore value comp).on proj) (xs.take n) k).1 =
      xs.countP fun x => r (g x) value := by
  rw [h.before.countP_take hn hx]
  exact bisect_answers ((answers_orderedBefore hr value).on hg) (h.before.take n) k

theorem bisectEqual_answers (hr : ∀ y, Answers (comp y) (r y)) (hg : Answers proj g)
    (h : Separated (fun x => r (g x) value) (fun x => r value (g x)) xs) (k : κ) :
    (bisectEqual value comp proj xs k).1 =
      ends (fun x => r (g x) value) (fun x => r value (g x)) xs := by
  induction xs using bisectEqual.induct generalizing k with
  | case1 xs hm ihr ihl =>
    rw [bisectEqual, dif_pos hm, callBind_apply, hg, callBind_apply, hr]
    cases hb : r (g xs[xs.length / 2]) value with
    | true =>
      rw [h.ends_of_before hm hb, ← ihr (h.drop _)]
      rfl
    | false =>
      rw [if_neg Bool.false_ne_true, callBind_apply, hr]
      cases ha : r value (g xs[xs.length / 2]) with
      | true =>
        rw [h.ends_of_after hm ha, ← ihl (h.take _)]
        rfl
      | false =>
        rw [if_neg Bool.false_ne_true, callBind_apply, callBind_apply, lower_answers hr hg h hm hb]
        rw [bisect_answers ((answers_notOrderedAfter hr value).on hg) (h.notAfter.drop _), ends,
          h.notAfter.countP_drop_succ hm (by rw [ha]; rfl)]
        rfl
  | case2 xs hm =>
    obtain rfl : xs = [] := List.eq_nil_of_length_eq_zero (by omega)
    rw [bisectEqual, dif_neg hm]
    rfl

end Listed

/-- The run returns the two positions that are so many steps ahead of the cursor. -/
def Run.ReachesBoth (act : Run α κ (Cursor α × Cursor α)) (w : World α κ) (c : Cursor α)
    (l u : Nat) : Prop :=
  ∃ d e w', act w = .ok (d, e) w' ∧ c.stepTimes l = .ok d ∧ c.stepTimes u = .ok e

theorem Run.ReachesBoth.lift {γ : Type} {x : Except Fault γ} {b : γ}
    {f : γ → Run α κ (Cursor α × Cursor α)} {w : World α κ} {c : Cursor α} {l u : Nat}
    (hx : x = .ok b) (h : (f b).ReachesBoth w c l u) : Run.ReachesBoth (do f (← x)) w c l u := by
  obtain ⟨d, e, w', ha, hd⟩ := h
  exact ⟨d, e, w', (Run.bind_ok (Run.lift_ok hx w)).trans ha, hd⟩

namespace Run.ReachesBoth

variable {γ : Type} {c : Cursor α} {w : World α κ} {l u n : Nat}

theorem call {f : StateM κ γ} {act : γ → Run α κ (Cursor α × Cursor α)}
    (h : (act (f w.calls).1).ReachesBoth ⟨w.store, (f w.calls).2⟩ c l u) :
    Run.ReachesBoth (liftM f >>= act) w c l u := by
  obtain ⟨d, e, w', ha, hd⟩ := h
  exact ⟨d, e, w', (bind_ok (call_apply f w)).trans ha, hd⟩

theorem project [IntCast α] [Inhabited α] {proj : Projection κ α γ} {b : Cursor α} {x : α}
    {act : γ → Run α κ (Cursor α × Cursor α)} (hx : b.look w.store = some x)
    (h : (act (proj x w.calls).1).ReachesBoth ⟨b.drain w.store, (proj x w.calls).2⟩ c l u) :
    Run.ReachesBoth (b.project proj >>= act) w c l u := by
  obtain ⟨d, e, w', ha, hd⟩ := h
  exact ⟨d, e, w', (bind_ok (Cursor.project_eq hx proj)).trans ha, hd⟩

/-- Positions ahead of a position on the way are further ahead from where the way starts. -/
theorem of_hop {act : Run α κ (Cursor α × Cursor α)} (h : act.ReachesBoth w (c.hop n) l u)
    (hn : c.stepTimes n = .ok (c.hop n)) : act.ReachesBoth w c (n + l) (n + u) := by
  obtain ⟨d, e, w', ha, hd, he⟩ := h
  exact ⟨d, e, w', ha, (Cursor.stepTimes_add hn).trans hd, (Cursor.stepTimes_add hn).trans he⟩

end Run.ReachesBoth

/-- Read once more, an element that is equivalent to a value is still not ordered after it. -/
def Cursor.Rereadable [Inhabited α] (c : Cursor α) (before after : α → Bool) (xs : List α) : Prop :=
  ∀ x ∈ xs, before x = false → after x = false → after (c.residue x) = false

instance [Inhabited α] (c : Cursor α) (before after : α → Bool) (xs : List α) :
    Decidable (c.Rereadable before after xs) :=
  inferInstanceAs (Decidable (∀ x ∈ xs, _))

/-- Reading that leaves the elements in place finds them again. -/
theorem Cursor.rereadable_of_keeps [Inhabited α] {c : Cursor α} (h : c.keeps = true)
    (before after : α → Bool) (xs : List α) : c.Rereadable before after xs := by
  intro x _ _ hx
  rwa [Cursor.residue, if_pos h]

section Reaches

variable [IntCast α] {first : Cursor α} {last : Bound α} {extent : Extent} {w : World α κ}

theorem Run.Follows.reachesBoth {act : Run α κ (Cursor α × Cursor α)} {f : StateM κ (Nat × Nat)}
    {p q : α → Bool} {c : Cursor α} {n : Nat} (h : act.Follows f c.hops c n w)
    (hs : c.Shows w.store xs) (hf : ∀ k, (f k).1 = Separated.ends p q xs) :
    act.ReachesBoth w c (xs.countP p) (xs.countP fun x => !q x) := by
  obtain ⟨s, ha, -⟩ := h
  rw [hf] at ha
  exact ⟨_, _, _, ha, hs.reach List.countP_le_length, hs.reach List.countP_le_length⟩

variable [Inhabited α]

theorem equalRangeN_reaches (h : first.Shows w.store xs) (hr : ∀ y, Answers (comp y) (r y))
    (hg : Answers proj g)
    (hs : Separated (fun x => r (g x) value) (fun x => r value (g x)) xs) :
    (equalRangeN first xs.length value comp proj).ReachesBoth w first
      (xs.countP fun x => r (g x) value) (xs.countP fun x => !r value (g x)) :=
  (Listed.equalRangeN_follows h rfl value comp proj).reachesBoth h
    (Listed.bisectEqual_answers hr hg hs)

/-- A lower bound before a position, and an upper bound from there on. -/
theorem bounds_reach {n l u : Nat} {y : α} {ys : List α} (hs : first.Shows w.store xs)
    (hn : xs.length = n) (hp : Presents w.store (first.hop n) last (y :: ys))
    (hb : last.sized = false) (hl : l ≤ xs.length) (hu : u ≤ (y :: ys).length)
    (hlower : ∀ k : κ, (Listed.bisect ((orderedBefore value comp).on proj) xs k).1 = l)
    (hupper : ∀ k : κ, (Listed.seek false ((notOrderedAfter value comp).on proj) (y :: ys) k).1 = u) :
    Run.ReachesBoth (do
      let lower ← lowerBoundN first n value comp proj
      let upper ← upperBound (first.hop n) last value comp proj
      return (lower, upper)) w first l (n + u) := by
  obtain ⟨s, ha, hs'⟩ := Listed.partitionPointN_follows (k := w.calls) hs hn _ proj
  have hp := hp.spared hs'
  obtain ⟨e, w', he, hr⟩ := (Listed.partitionPoint_follows hp hb _ proj).reaches hp.shows hupper hu
  rw [hlower] at ha
  refine ⟨_, e, w', (Run.bind_ok ha).trans (Run.bind_ok he), hs.reach hl, ?_⟩
  exact (Cursor.stepTimes_add (hs.reach (Nat.le_of_eq hn.symm))).trans hr

/-- Where a probe has met an equivalent element, that element is read again for the upper bound. -/
theorem bounds_reach_probed {n : Nat} {k : κ} (h : Presents w.store first last xs)
    (hb : last.sized = false)
    (hk : first.Rereadable (fun x => r (g x) value) (fun x => r value (g x)) xs)
    (hr : ∀ y, Answers (comp y) (r y)) (hg : Answers proj g)
    (hs : Separated (fun x => r (g x) value) (fun x => r value (g x)) xs) (hn : n < xs.length)
    (hx : r (g xs[n]) value = false) (ha : r value (g xs[n]) = false) :
    Run.ReachesBoth (do
      let lower ← lowerBoundN first n value comp proj
      let upper ← upperBound (first.hop n) last value comp proj
      return (lower, upper)) ⟨(first.hop n).drain w.store, k⟩ first
      (xs.countP fun x => r (g x) value) (xs.countP fun x => !r value (g x)) := by
  have hrest := h.drop (Nat.le_of_lt hn)
  rw [List.drop_eq_getElem_cons hn] at hrest
  have hleft : (!r value (g ((first.hop n).residue xs[n]))) = true := by
    have : r value (g (first.residue xs[n])) = false := hk _ (List.getElem_mem hn) hx ha
    rw [Cursor.residue_hop, this]
    rfl
  have hupper := Listed.seek_answers ((answers_notOrderedAfter hr value).on hg)
    ((hs.notAfter.drop (n + 1)).cons hleft)
  rw [List.countP_cons_of_pos (p := fun x => !r value (g x)) hleft] at hupper
  rw [hs.before.countP_take hn hx, hs.notAfter.countP_drop_succ hn (by rw [ha]; rfl),
    Nat.add_right_comm, Nat.add_assoc]
  refine bounds_reach (h.shows.take_drain n) (List.length_take_of_le (Nat.le_of_lt hn)) hrest.reread
    hb List.countP_le_length (Nat.succ_le_succ List.countP_le_length) ?_ hupper
  exact Listed.bisect_answers ((answers_orderedBefore hr value).on hg) (hs.before.take n)

/-- The induction is on the elements behind the probes that lie before the value. -/
theorem probe_reaches {v : Width} {dist : Nat} (h : Presents w.store first last xs)
    (hv : first.width = v) (hf : v.Fits dist) (hb : last.sized = false)
    (hk : first.Rereadable (fun x => r (g x) value) (fun x => r value (g x)) xs)
    (hr : ∀ y, Answers (comp y) (r y)) (hg : Answers proj g)
    (hs : Separated (fun x => r (g x) value) (fun x => r value (g x)) xs) :
    (probe dist first last value comp proj).ReachesBoth w first
      (xs.countP fun x => r (g x) value) (xs.countP fun x => !r value (g x)) := by
  induction dist, xs using Listed.probe.induct v generalizing first w with
  | case1 dist xs hd ih =>
    have hl := List.length_take_of_le (Nat.le_of_lt hd)
    have htake := h.shows.take_drain dist
    rw [probe_within (h.advance_of_lt hb hd)]
    refine .project (h.shows.look hd) (.call ?_)
    rw [hg, hr]
    cases ha : r value (g xs[dist]) with
    | true =>
      obtain ⟨hp, hq⟩ := Prod.mk.inj (hs.ends_of_after hd ha)
      rw [hp, hq]
      exact (Listed.equalRangeN_follows htake hl value comp proj).reachesBoth htake
        (Listed.bisectEqual_answers hr hg (hs.take dist))
    | false =>
      rw [if_neg Bool.false_ne_true]
      refine .call ?_
      rw [hr]
      cases hx : r (g xs[dist]) value with
      | true =>
        have hrest := h.drop (n := dist + 1) hd
        have hkeep : (first.hop (dist + 1)).Rereadable (fun x => r (g x) value)
            (fun x => r value (g x)) (xs.drop (dist + 1)) := by
          rw [Cursor.Rereadable, Cursor.residue_hop]
          exact fun x hm => hk x (List.mem_of_mem_drop hm)
        obtain ⟨hp, hq⟩ := Prod.mk.inj (hs.ends_of_before hd hx)
        rw [hp, hq, if_pos rfl, hv, ← Listed.toNat_double]
        refine .lift (h.shows.step hd) (.of_hop ?_ (h.shows.reach hd))
        exact ih ⟨h.shows.drop_drain hd, hrest.ends, hrest.suits⟩ ((Cursor.width_hop _ _).trans hv)
          (Listed.fits_toNat_double v dist) hkeep (hs.drop _)
      | false =>
        rw [if_neg Bool.false_ne_true]
        exact bounds_reach_probed h hb hk hr hg hs hd hx ha
  | case2 dist xs hd =>
    rw [probe_short (hv ▸ hf) (by omega) (h.advance_of_le hb (by omega))]
    exact equalRangeN_reaches h.shows hr hg hs

/-- By bisection if the bound tells the number of elements, by probes if not. -/
theorem equalRange_reaches (h : Presents w.store first last xs)
    (hn : last.sized = true → first.width.Fits xs.length)
    (hk : last.sized = false →
      first.Rereadable (fun x => r (g x) value) (fun x => r value (g x)) xs)
    (hr : ∀ y, Answers (comp y) (r y)) (hg : Answers proj g)
    (hs : Separated (fun x => r (g x) value) (fun x => r value (g x)) xs) :
    (equalRange first last value comp proj).ReachesBoth w first
      (xs.countP fun x => r (g x) value) (xs.countP fun x => !r value (g x)) := by
  have hm := h.measure hn
  cases hb : last.sized with
  | true =>
    rw [hb] at hm
    exact .lift hm (equalRangeN_reaches h.shows hr hg hs)
  | false =>
    rw [hb] at hm
    exact .lift hm (probe_reaches h rfl first.width.fits_one hb (hk hb) hr hg hs)

theorem Range.equalRange_reaches (h : Presents w.store first last xs)
    (hn : last.sized = true → first.width.Fits xs.length)
    (he : ∀ n : Int, extent = .known n → n = xs.length)
    (hk : (Range.mk first last extent).tells = false →
      first.Rereadable (fun x => r (g x) value) (fun x => r value (g x)) xs)
    (hr : ∀ y, Answers (comp y) (r y)) (hg : Answers proj g)
    (hs : Separated (fun x => r (g x) value) (fun x => r value (g x)) xs) :
    (Range.equalRange ⟨first, last, extent⟩ value comp proj).ReachesBoth w first
      (xs.countP fun x => r (g x) value) (xs.countP fun x => !r value (g x)) := by
  rcases h.rangeMeasure hn he with hm | hm
  · exact .lift hm (equalRangeN_reaches h.shows hr hg hs)
  · refine .lift hm (Waymark.equalRange_reaches h hn (fun hb => hk ?_) hr hg hs)
    rw [Range.tells_of_measure hm, hb]

theorem equalRangeList_answers (hm : (xs.length : Int) ≤ Width.w64.max)
    (hr : ∀ y, Answers (comp y) (r y)) (hg : Answers proj g)
    (hs : Separated (fun x => r (g x) value) (fun x => r value (g x)) xs) (w : World α κ) :
    ∃ w', equalRangeList xs value comp proj w =
      .ok (⟨(xs.countP fun x => r (g x) value : Nat)⟩,
        ⟨(xs.countP fun x => !r value (g x) : Nat)⟩) w' := by
  obtain ⟨d, e, w', ha, hd, he⟩ := equalRangeN_reaches (presents_ofList hm w.store).shows hr hg hs
  refine ⟨w', (Run.bind_ok ha).trans ?_⟩
  rw [Run.bind_ok (Run.lift_ok (between_ofList (countP_le_max _ hm) hd) w'),
    Run.bind_ok (Run.lift_ok (between_ofList (countP_le_max _ hm) he) w')]
  rfl

/-- On a separated sequence each form of the search comes to the two bounds, whoever tells the number
of elements. If nobody does, the element of the last probe may be read twice. -/
theorem equalRange_reached (h : Presents w.store first last xs)
    (hn : last.sized = true → first.width.Fits xs.length)
    (he : ∀ n : Int, extent = .known n → n = xs.length) (hr : ∀ y, Answers (comp y) (r y))
    (hg : Answers proj g)
    (hs : Separated (fun x => r (g x) value) (fun x => r value (g x)) xs) :
    let before := fun x => r (g x) value
    let after := fun x => r value (g x)
    let l := xs.countP before
    let u := xs.countP fun x => !after x
    let range : Range α := ⟨first, last, extent⟩
    ((last.sized = false → first.Rereadable before after xs) →
        (equalRange first last value comp proj).ReachesBoth w first l u) ∧
      (equalRangeN first xs.length value comp proj).ReachesBoth w first l u ∧
      ((range.tells = false → first.Rereadable before after xs) →
        (range.equalRange value comp proj).ReachesBoth w first l u) ∧
      ((xs.length : Int) ≤ Width.w64.max →
        ∃ w', equalRangeList xs value comp proj w = .ok (⟨l⟩, ⟨u⟩) w') ∧
      (lowerBound first last value comp proj).Reaches w first l ∧
      (upperBound first last value comp proj).Reaches w first u :=
  ⟨fun hk => equalRange_reaches h hn hk hr hg hs, equalRangeN_reaches h.shows hr hg hs,
    fun hk => Range.equalRange_reaches h hn he hk hr hg hs,
    fun hm => equalRangeList_answers hm hr hg hs w,
    partitionPoint_reaches h hn ((answers_orderedBefore hr value).on hg) hs.before,
    partitionPoint_reaches h hn ((answers_notOrderedAfter hr value).on hg) hs.notAfter⟩

end Reaches

theorem strictWeakOrder_lt : StrictWeakOrder fun a b : Int => decide (a < b) where
  irrefl a := decide_eq_false (Int.lt_irrefl a)
  trans a b c hab hbc :=
    decide_eq_true (Int.lt_trans (of_decide_eq_true hab) (of_decide_eq_true hbc))
  incomparable a b c hab hba hbc hcb := by
    rw [decide_eq_false_iff_not] at *
    omega

/-- By bisection and by probes, through a wrapper that moves the elements out: what is left of one that
is equivalent to 3 is 0, which is not after it. -/
theorem equalRange_reached_moving :
    let w : World Int Nat := ⟨[[1, 2, 3, 3, 3, 5, 8, 8, 9]], 0⟩
    let first : Cursor Int := .moving (.slice (.stored 0 9) 0)
    let last : Bound Int := .moving (.cursor (.slice (.stored 0 9) 9))
    let less : Relation Nat Int Int := fun a b k => (decide (a < b), k + 1)
    (equalRange first last 3 less .identity).ReachesBoth w first 2 5 ∧
      (equalRange (.forwardOnly first) (.forwardOnly last) 3 less .identity).ReachesBoth w
        (.forwardOnly first) 2 5 := by
  intro w first last less
  have hm : Presents w.store first last [1, 2, 3, 3, 3, 5, 8, 8, 9] :=
    presents_moving (presents_ofSource (show (Source.stored 0 9).Holds _ _ from ⟨rfl, rfl⟩)
      (by decide)) rfl
  have hg : Answers (Projection.identity (κ := Nat)) (id : Int → Int) := fun _ _ => rfl
  have hr (y : Int) : Answers (less y) fun x => decide (y < x) := fun _ _ => rfl
  have hs : Separated (fun x : Int => decide (id x < 3)) (fun x => decide (3 < id x))
      [1, 2, 3, 3, 3, 5, 8, 8, 9] := strictWeakOrder_lt.separated (g := id) (by decide) 3
  have he (n : Int) (h : Extent.ofBound = .known n) : n = 9 := by cases h
  have hl := equalRange_reached hm (fun _ => by decide) he hr hg hs
  have hu := equalRange_reached (presents_forwardOnly hm) (fun _ => by decide) he hr hg hs
  exact ⟨hl.1 (fun hb => nomatch hb), hu.1 fun _ => by decide⟩

/-- An element that is moved out by the last probe may be ordered after the value when it is read once
more: the search by probes ends before the elements equivalent to -3, which bisection finds. -/
theorem equalRange_emptied :
    let w : World Int Unit := ⟨[[-5, -3, -3, -1]], ()⟩
    let place : Nat → Cursor Int := fun i => .moving (.slice (.stored 0 4) i)
    let first : Cursor Int := .forwardOnly (place 0)
    let last : Bound Int := .forwardOnly (.cursor (place 4))
    let less : Relation Unit Int Int := fun a b k => (decide (a < b), k)
    Presents w.store first last [-5, -3, -3, -1] ∧
      Separated (fun x : Int => decide (x < -3)) (fun x => decide (-3 < x)) [-5, -3, -3, -1] ∧
      (∀ y, Answers (less y) fun x => decide (y < x)) ∧
      (equalRange (place 0) (.cursor (place 4)) (-3) less .identity).ReachesBoth w (place 0) 1 3 ∧
      (equalRange first last (-3) less .identity).ReachesBoth w first 1 1 ∧
      ¬(equalRange first last (-3) less .identity).ReachesBoth w first 1 3 := by
  intro w place first last less
  have hm : Presents w.store (place 0) (.cursor (place 4)) [-5, -3, -3, -1] :=
    presents_moving_cursor (presents_ofSource (show (Source.stored 0 4).Holds _ _ from ⟨rfl, rfl⟩)
      (by decide)) rfl
  have hp : Presents w.store first last [-5, -3, -3, -1] := presents_forwardOnly hm
  have hg : Answers (Projection.identity (κ := Unit)) (id : Int → Int) := fun _ _ => rfl
  have hr (y : Int) : Answers (less y) fun x => decide (y < x) := fun _ _ => rfl
  have hs : Separated (fun x : Int => decide (id x < -3)) (fun x => decide (-3 < id x))
      [-5, -3, -3, -1] := strictWeakOrder_lt.separated (g := id) (by decide) (-3)
  have hbisected := equalRange_reaches hm (fun _ => by decide) (fun h => nomatch h) hr hg hs
  have hprobed : (equalRange first last (-3) less .identity).ReachesBoth w first 1 1 := by
    refine .lift (b := none) rfl ?_
    show (probe (1 : Nat) first last (-3) less .identity).ReachesBoth w first 1 (1 + 0)
    rw [probe_within (hp.advance_of_lt rfl (by decide))]
    refine .project (x := -3) (hp.shows.look (n := 1) (by decide)) (.call ?_)
    refine .call ?_
    refine bounds_reach (hp.shows.take_drain 1) rfl (hp.drop (n := 1) (by decide)).reread rfl
      (by decide) (Nat.zero_le _) (fun k => ?_) fun k => rfl
    exact Listed.bisect_answers ((answers_orderedBefore hr (-3)).on hg) (hs.before.take 1) k
  refine ⟨hp, hs, hr, hbisected, hprobed, ?_⟩
  rintro ⟨d, e, v, ha, -, he⟩
  obtain ⟨d', e', v', ha', -, he'⟩ := hprobed
  obtain ⟨⟨rfl, rfl⟩, -⟩ := by simpa using ha.symm.trans ha'
  cases show Except.ok (first.hop 3) = Except.ok (first.hop 1) from he.trans he'.symm

end Waymark
