import Waymark.Range
import Waymark.Proofs.Sequence

/-!
# What the kinds of cursors present

The list between a cursor and a bound, for each kind on a sequence of its own: a part of a slice
(`presents_slice`), a value as often as there are positions (`presents_repeated`), the integers from
one to another (`presents_iota`). A counted cursor presents what its base shows, a moving and a
forward one what theirs presents. How cursors are wrapped in one another does not matter.
-/

namespace Waymark

variable {α : Type} {s : Store α} {c d : Cursor α} {b : Bound α} {xs : List α}

/-- The elements of the source, which a stored one has in the store. -/
def Source.Holds (s : Store α) : Source α → List α → Prop
  | .shared _ ys, xs => ys = xs
  | .stored place n, xs => s[place]? = some xs ∧ xs.length = n

theorem Source.Holds.length {src : Source α} (h : src.Holds s xs) : src.length = xs.length := by
  cases src with
  | shared place ys => exact congrArg List.length h
  | stored place n => exact h.2.symm

theorem Bound.LiesAhead.intro {n : Nat} (he : ∀ i ≤ n, b.isEnd (c.hop i) = decide (i = n))
    (hs : c.stepTimes n = .ok (c.hop n)) : b.LiesAhead c n := by
  induction n generalizing c with
  | zero =>
    have he := he 0 (Nat.le_refl 0)
    rwa [Cursor.hop_zero, decide_eq_true rfl] at he
  | succ n ih =>
    have he0 := he 0 (Nat.zero_le _)
    rw [Cursor.hop_zero, decide_eq_false (Nat.succ_ne_zero n).symm] at he0
    obtain ⟨h, ht⟩ := Cursor.stepTimes_succ_iff.1 hs
    refine Bound.liesAhead_succ_iff.2 ⟨he0, h, ih (fun i hi => ?_) ?_⟩
    · rw [Cursor.hop_hop, Nat.add_comm, he _ (Nat.succ_le_succ hi)]
      simp
    · rw [ht, Cursor.hop_hop, Nat.add_comm]

/-- A position in a source is as far from its start as steps lead there. -/
theorem offsetFrom_ofSource {src : Source α} {n : Nat} {d : Cursor α}
    (hm : (n : Int) ≤ Width.w64.max) (hd : (Range.ofSource src).first.stepTimes n = .ok d) :
    d.offsetFrom (Range.ofSource src).first = .ok (n : Int) := by
  obtain rfl := Cursor.stepTimes_eq_hop hd
  have hs : Width.w64.sub (0 + n : Nat) (0 : Nat) = .ok (n : Int) := by
    have := Width.min_eq .w64
    have := Width.le_max .w64
    exact Width.sub_eq_ok_iff.2 ⟨⟨by omega, hm⟩, by omega⟩
  have hr : src.same src = true := by cases src <;> simp [Source.same]
  exact (if_pos hr).trans hs

theorem indexOf_ofSource {src : Source α} {n : Nat} {d : Cursor α}
    (hm : (n : Int) ≤ Width.w64.max) (hd : (Range.ofSource src).first.stepTimes n = .ok d) :
    (Range.ofSource src).indexOf d = .ok n := by
  have hi : Width.toIndex n = .ok n := by
    rw [Width.toIndex, if_neg (by omega), Int.toNat_natCast, Nat.mod_eq_of_lt]
    have : Width.w64.max < Width.indexCount := by decide
    omega
  rw [Range.indexOf, offsetFrom_ofSource hm hd]
  exact hi

variable [IntCast α]

theorem Cursor.Shows.intro (hv : ∀ i ≤ xs.length, (c.hop i).Valid)
    (hx : ∀ i (h : i < xs.length), (c.hop i).look s = some xs[i])
    (hs : ∀ i < xs.length, (c.hop i).step = .ok (c.hop (i + 1))) : c.Shows s xs := by
  induction xs generalizing c with
  | nil =>
    have hv := hv 0 (Nat.le_refl 0)
    rwa [Cursor.hop_zero] at hv
  | cons x xs ih =>
    have hv0 := hv 0 (Nat.zero_le _)
    have hx0 := hx 0 (Nat.succ_pos _)
    have hs0 := hs 0 (Nat.succ_pos _)
    rw [Cursor.hop_zero] at hv0 hx0 hs0
    refine Cursor.shows_cons_iff.2 ⟨hv0, hx0, hs0, ih (fun i hi => ?_) (fun i hi => ?_)
      fun i hi => ?_⟩
    · rw [Cursor.hop_hop]
      exact hv _ (by rw [List.length_cons]; omega)
    · rw [Cursor.hop_hop, Nat.add_comm]
      exact hx (i + 1) (Nat.succ_lt_succ hi)
    · rw [Cursor.hop_hop, Cursor.hop_hop, Nat.add_comm 1, Nat.add_comm 1]
      exact hs (i + 1) (Nat.succ_lt_succ hi)

/-- The positions, the elements and the end, one after the other. -/
theorem Presents.intro (hv : ∀ i ≤ xs.length, (c.hop i).Valid)
    (hx : ∀ i (h : i < xs.length), (c.hop i).look s = some xs[i])
    (hs : ∀ i < xs.length, (c.hop i).step = .ok (c.hop (i + 1)))
    (he : ∀ i ≤ xs.length, b.isEnd (c.hop i) = decide (i = xs.length)) (hb : b.Suits c) :
    Presents s c b xs :=
  have h := Cursor.Shows.intro hv hx hs
  ⟨h, .intro he h.stepTimes, hb⟩

theorem Source.Holds.look {src : Source α} (h : src.Holds s xs) (p : Nat) :
    (Cursor.slice src p).look s = xs[p]? := by
  cases src with
  | shared place ys => exact congrArg (·[p]?) h
  | stored place n => rw [Cursor.look, h.1]; rfl

/-- A part of a slice, whichever slice the cursor is in that bounds it. -/
theorem presents_slice {src t : Source α} {p q : Nat} (h : src.Holds s xs) (hpq : p ≤ q)
    (hq : q ≤ xs.length) (hm : (xs.length : Int) ≤ Width.w64.max) :
    Presents s (.slice src p) (.cursor (.slice t q)) ((xs.drop p).take (q - p)) := by
  have hl : ((xs.drop p).take (q - p)).length = q - p := by
    rw [List.length_take, List.length_drop]
    omega
  have hs := h.length
  refine .intro (fun i hi => ?_) (fun i hi => ?_) (fun i hi => ?_) (fun i hi => ?_) trivial
  · exact ⟨by omega, by omega⟩
  · rw [Cursor.hop, h.look, List.getElem_take, List.getElem_drop, List.getElem?_eq_getElem]
  · rw [Cursor.hop, Cursor.step, if_pos (by omega)]
    rfl
  · rw [Cursor.hop, Bound.isEnd, hl, Bool.eq_iff_iff]
    simp
    omega

theorem presents_middle {src t : Source α} {as bs : List α} (h : src.Holds s (as ++ xs ++ bs))
    (hm : ((as ++ xs ++ bs).length : Int) ≤ Width.w64.max) :
    Presents s (.slice src as.length) (.cursor (.slice t (as.length + xs.length))) xs := by
  have hq : as.length + xs.length ≤ (as ++ xs ++ bs).length := by
    rw [List.length_append, List.length_append]
    omega
  have := presents_slice (t := t) h (Nat.le_add_right _ xs.length) hq hm
  rwa [List.append_assoc, List.drop_left, Nat.add_sub_cancel_left, List.take_left] at this

/-- A source as a range. -/
theorem presents_ofSource {src : Source α} (h : src.Holds s xs)
    (hm : (xs.length : Int) ≤ Width.w64.max) :
    Presents s (Range.ofSource src).first (Range.ofSource src).last xs := by
  have := presents_slice (t := src) h (Nat.zero_le _) (Nat.le_refl _) hm
  rwa [List.drop_zero, Nat.sub_zero, List.take_length, ← h.length] at this

/-- A value at each position of a view. -/
theorem presents_repeated {v u n : Nat} {x y : α} {p : Int} (hp : Width.w64.Fits p)
    (hq : Width.w64.Fits (p + n)) :
    Presents s (.repeated v x p) (.cursor (.repeated u y (p + n))) (List.replicate n x) := by
  obtain ⟨hp, -⟩ := hp
  obtain ⟨-, hq⟩ := hq
  refine .intro (fun i hi => ?_) (fun i hi => ?_) (fun i hi => ?_) (fun i hi => ?_) trivial <;>
    rw [List.length_replicate] at hi
  · exact ⟨by omega, by omega⟩
  · rw [List.getElem_replicate]
    rfl
  · have ha : Width.w64.add (p + i) 1 = .ok (p + (i + 1 : Nat)) :=
      Width.add_eq_ok_iff.2 ⟨⟨by omega, by omega⟩, by omega⟩
    rw [Cursor.hop, Cursor.step, ha]
    rfl
  · rw [Cursor.hop, Bound.isEnd, List.length_replicate, Bool.eq_iff_iff]
    simp
    omega

/-- The integers from one to before another. -/
theorem presents_iota {w : Width} {n : Nat} {x : Int} (hx : w.Fits x) (hy : w.Fits (x + n)) :
    Presents s (.iota w x) (.cursor (.iota w (x + n)))
      ((List.range n).map fun i : Nat => ((x + i : Int) : α)) := by
  obtain ⟨hx, -⟩ := hx
  obtain ⟨-, hy⟩ := hy
  refine .intro (fun i hi => ?_) (fun i hi => ?_) (fun i hi => ?_) (fun i hi => ?_) rfl <;>
    rw [List.length_map, List.length_range] at hi
  · exact ⟨by omega, by omega⟩
  · rw [List.getElem_map, List.getElem_range]
    rfl
  · have ha : w.add (x + i) 1 = .ok (x + (i + 1 : Nat)) :=
      Width.add_eq_ok_iff.2 ⟨⟨by omega, by omega⟩, by omega⟩
    rw [Cursor.hop, Cursor.step, ha]
    rfl
  · rw [Cursor.hop, Bound.isEnd, List.length_map, List.length_range, Bool.eq_iff_iff]
    simp
    omega

/-- A counted cursor has as many elements as it counts. -/
theorem presents_counted (h : c.Shows s xs) (hn : c.width.Fits xs.length) :
    Presents s (.counted c xs.length) .countEnd xs := by
  refine ⟨?_, Bound.liesAhead_countEnd_iff.2 ⟨rfl, h.stepTimes⟩, trivial⟩
  refine .intro (fun i hi => ?_) (fun i hi => ?_) fun i hi => ?_
  · obtain ⟨hl, hr⟩ := hn
    have := Width.min_eq c.width
    exact ⟨h.valid_hop hi, by rw [Cursor.width_hop]; exact ⟨by omega, by omega⟩⟩
  · exact h.look hi
  · rw [Cursor.hop, Cursor.step, if_neg (by omega), h.step hi]
    rfl

/-- A moving cursor has the elements that the cursor under it has. -/
theorem shows_moving (h : c.Shows s xs) (hm : c.can .movable = true) :
    (Cursor.moving c).Shows s xs := by
  refine .intro (fun i hi => h.valid_hop hi) (fun i hi => ?_) fun i hi => ?_
  · rw [Cursor.hop, Cursor.look, if_pos (by rwa [Cursor.can_hop]), h.look hi]
  · rw [Cursor.hop, Cursor.step, h.step hi]
    rfl

theorem presents_moving (h : Presents s c b xs) (hm : c.can .movable = true) :
    Presents s (.moving c) (.moving b) xs :=
  ⟨shows_moving h.shows hm, Bound.liesAhead_moving_iff.2 h.ends, h.suits⟩

theorem presents_moving_cursor (h : Presents s c (.cursor d) xs) (hm : c.can .movable = true) :
    Presents s (.moving c) (.cursor (.moving d)) xs :=
  ⟨shows_moving h.shows hm, Bound.liesAhead_cursor_moving_iff.2 h.ends, h.suits⟩

/-- A forward cursor has the elements that the cursor under it has. -/
theorem presents_forwardOnly (h : Presents s c b xs) :
    Presents s (.forwardOnly c) (.forwardOnly b) xs := by
  refine ⟨?_, Bound.liesAhead_forwardOnly_iff.2 h.ends, h.suits⟩
  refine .intro (fun i hi => h.shows.valid_hop hi) (fun i hi => h.shows.look hi) fun i hi => ?_
  rw [Cursor.hop, Cursor.step, h.shows.step hi]
  rfl

end Waymark
