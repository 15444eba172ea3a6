import Waymark.Proofs.Kinds
import Waymark.Proofs.Search.Listed
import Waymark.Proofs.Search.Partitioned

/-!
# Where a partitioned sequence changes

On a partitioned sequence, bisection and linear search both come to the number of elements that the
test holds of (`bisect_answers`, `seek_answers`), so that `partitionPoint`, `lowerBound` and
`upperBound` do not depend on who tells the number of elements (`boundaries_reached`).
-/

namespace Waymark

variable {α β κ ν : Type} {p : α → Bool} {t : Predicate κ α} {xs : List α}

namespace Listed

theorem bisect_answers (ht : Answers t p) (h : Partitioned p xs) (k : κ) :
    (bisect t xs k).1 = xs.countP p := by
  induction xs using bisect.induct generalizing k with
  | case1 xs hm ihr ihl =>
    rw [bisect, dif_pos hm, callBind_apply, ht]
    cases hx : p xs[xs.length / 2] with
    | true =>
      rw [h.countP_drop_succ hm hx, ← ihr (h.drop _)]
      rfl
    | false =>
      rw [h.countP_take hm hx, ← ihl (h.take _)]
      rfl
  | case2 xs hm =>
    obtain rfl : xs = [] := List.eq_nil_of_length_eq_zero (by omega)
    rw [bisect, dif_neg hm]
    rfl

theorem seek_answers (ht : Answers t p) (h : Partitioned p xs) (k : κ) :
    (seek false t xs k).1 = xs.countP p := by
  induction xs generalizing k with
  | nil => rfl
  | cons x xs ih =>
    rw [seek, callBind_apply, ht]
    cases hx : p x with
    | true =>
      rw [List.countP_cons_of_pos hx, ← ih h.of_cons, Nat.add_comm]
      rfl
    | false =>
      rw [h.countP_take (Nat.succ_pos _) hx]
      rfl

end Listed

/-- The run returns the position that is `n` steps ahead of the cursor. -/
def Run.Reaches (act : Run α κ (Cursor α)) (w : World α κ) (c : Cursor α) (n : Nat) : Prop :=
  ∃ d w', act w = .ok d w' ∧ c.stepTimes n = .ok d

/-- Asking for a number first, which leaves the world as it is, comes to the same position. -/
theorem Run.Reaches.lift {γ : Type} {x : Except Fault γ} {b : γ} {f : γ → Run α κ (Cursor α)}
    {w : World α κ} {c : Cursor α} {n : Nat} (hx : x = .ok b) (h : (f b).Reaches w c n) :
    Run.Reaches (do f (← x)) w c n := by
  obtain ⟨d, w', ha, hd⟩ := h
  exact ⟨d, w', (Run.bind_ok (Run.lift_ok hx w)).trans ha, hd⟩

/-- The number of elements of the range is told by the range or by its bound. -/
def Range.tells (r : Range α) : Bool :=
  match r.extent with
  | .known _ => true
  | _ => r.last.sized

section Reaches

variable [IntCast α] {first : Cursor α} {last : Bound α} {extent : Extent} {w : World α κ}
  {pred : Predicate κ β} {proj : Projection κ α β}

theorem Run.Follows.reaches {act : Run α κ (Cursor α)} {f : StateM κ Nat} {c : Cursor α}
    {n i : Nat} (h : act.Follows f c.hop c n w) (hs : c.Shows w.store xs)
    (hf : ∀ k, (f k).1 = i) (hi : i ≤ xs.length) : act.Reaches w c i := by
  obtain ⟨s, ha, -⟩ := h
  rw [hf] at ha
  exact ⟨_, _, ha, hs.reach hi⟩

omit [IntCast α] in
/-- A range that cannot be measured leaves it to its bound to tell. -/
theorem Range.tells_of_measure (h : (Range.mk first last extent).measure = .ok none) :
    (Range.mk first last extent).tells = last.sized := by
  cases extent with
  | known n => cases h
  | _ => rfl

/-- A range tells the number of its elements or nothing. -/
theorem Presents.rangeMeasure {s : Store α} (h : Presents s first last xs)
    (hn : last.sized = true → first.width.Fits xs.length)
    (he : ∀ n : Int, extent = .known n → n = xs.length) :
    (Range.mk first last extent).measure = .ok (some (xs.length : Int)) ∨
      (Range.mk first last extent).measure = .ok none := by
  cases extent with
  | ofBound =>
    show last.measure first = _ ∨ last.measure first = _
    rw [h.measure hn]
    cases last.sized with
    | true => exact .inl rfl
    | false => exact .inr rfl
  | unknown => exact .inr rfl
  | known n =>
    obtain rfl := he n rfl
    exact .inl rfl

variable [Inhabited α]

theorem partitionPointN_reaches (h : first.Shows w.store xs) (ht : Answers (pred.on proj) p)
    (hp : Partitioned p xs) :
    (partitionPointN first xs.length pred proj).Reaches w first (xs.countP p) :=
  (Listed.partitionPointN_follows h rfl pred proj).reaches h (Listed.bisect_answers ht hp)
    List.countP_le_length

/-- Whether the bound tells the number of elements or not. -/
theorem partitionPoint_reaches (h : Presents w.store first last xs)
    (hn : last.sized = true → first.width.Fits xs.length) (ht : Answers (pred.on proj) p)
    (hp : Partitioned p xs) :
    (partitionPoint first last pred proj).Reaches w first (xs.countP p) := by
  cases hb : last.sized with
  | true =>
    have hm := h.measure hn
    rw [hb] at hm
    exact .lift hm (partitionPointN_reaches h.shows ht hp)
  | false =>
    exact (Listed.partitionPoint_follows h hb pred proj).reaches h.shows
      (Listed.seek_answers ht hp) List.countP_le_length

/-- Whether the range tells it, leaves it to its bound or keeps it to itself. -/
theorem Range.partitionPoint_reaches (h : Presents w.store first last xs)
    (hn : last.sized = true → first.width.Fits xs.length)
    (he : ∀ n : Int, extent = .known n → n = xs.length) (ht : Answers (pred.on proj) p)
    (hp : Partitioned p xs) :
    (Range.partitionPoint ⟨first, last, extent⟩ pred proj).Reaches w first (xs.countP p) := by
  rcases h.rangeMeasure hn he with hm | hm
  · exact .lift hm (partitionPointN_reaches h.shows ht hp)
  · exact .lift hm (Waymark.partitionPoint_reaches h hn ht hp)

end Reaches

section List

theorem presents_ofList [IntCast α] (hm : (xs.length : Int) ≤ Width.w64.max) (s : Store α) :
    Presents s (Range.ofList xs).first (Range.ofList xs).last xs :=
  presents_ofSource (show (Source.shared 0 xs).Holds s xs from rfl) hm

/-- A position in a list has its offset. -/
theorem between_ofList {n : Nat} {d : Cursor α} (hm : (n : Int) ≤ Width.w64.max)
    (hd : (Range.ofList xs).first.stepTimes n = .ok d) :
    Dangling.between (Range.ofList xs).first d = .ok ⟨n⟩ := by
  have ho : d.offsetFrom (Range.ofList xs).first = .ok (n : Int) := offsetFrom_ofSource hm hd
  rw [Dangling.between, ho]
  rfl

theorem countP_le_max (p : α → Bool) (hm : (xs.length : Int) ≤ Width.w64.max) :
    (xs.countP p : Int) ≤ Width.w64.max :=
  Int.le_trans (Int.ofNat_le.2 List.countP_le_length) hm

/-- The run answers with an offset. -/
theorem Run.Reaches.dangling {act : Run α κ (Cursor α)} {w : World α κ} {n : Nat}
    (h : act.Reaches w (Range.ofList xs).first n) (hm : (n : Int) ≤ Width.w64.max) :
    ∃ w', (do
      let d ← act
      Dangling.between (Range.ofList xs).first d : Run α κ Dangling) w = .ok ⟨n⟩ w' := by
  obtain ⟨d, w', ha, hd⟩ := h
  refine ⟨w', (Run.bind_ok ha).trans ?_⟩
  exact Run.lift_ok (between_ofList hm hd) w'

end List

section Forms

variable [IntCast α] [Inhabited α] {first : Cursor α} {w : World α κ} {proj : Projection κ α β}

/-- A search comes to the position `n` in each of its forms: for the elements of `xs` by their
number, up to a bound behind them, and as a range. -/
structure Reached (w : World α κ) (first : Cursor α) (xs : List α) (n : Nat)
    (byNumber : Run α κ (Cursor α)) (upTo : Bound α → Run α κ (Cursor α))
    (asRange : Range α → Run α κ (Cursor α)) : Prop where
  byNumber : byNumber.Reaches w first n
  upTo : ∀ last, Presents w.store first last xs →
    (last.sized = true → first.width.Fits xs.length) → (upTo last).Reaches w first n
  asRange : ∀ last extent, Presents w.store first last xs →
    (last.sized = true → first.width.Fits xs.length) →
    (∀ m : Int, extent = .known m → m = xs.length) → (asRange ⟨first, last, extent⟩).Reaches w first n

theorem partitionPoint_reached {pred : Predicate κ β} (h : first.Shows w.store xs)
    (ht : Answers (pred.on proj) p) (hp : Partitioned p xs) :
    Reached w first xs (xs.countP p) (partitionPointN first xs.length pred proj)
      (fun last => partitionPoint first last pred proj) (fun r => r.partitionPoint pred proj) where
  byNumber := partitionPointN_reaches h ht hp
  upTo _ hl hn := partitionPoint_reaches hl hn ht hp
  asRange _ _ hl hn he := Range.partitionPoint_reaches hl hn he ht hp

/-- On a partitioned sequence every form of each search comes to the number of elements that it
leaves behind, and on a list it answers with that number. -/
theorem boundaries_reached {g : α → β} (h : first.Shows w.store xs) (hg : Answers proj g) :
    (∀ (pred : Predicate κ β) (q : β → Bool), Answers pred q → Partitioned (fun x => q (g x)) xs →
      Reached w first xs (xs.countP fun x => q (g x)) (partitionPointN first xs.length pred proj)
        (fun last => partitionPoint first last pred proj)
        (fun r => r.partitionPoint pred proj)) ∧
    (∀ value (comp : Relation κ β β) (r : β → β → Bool), (∀ y, Answers (comp y) (r y)) →
      Partitioned (fun x => r (g x) value) xs →
      Reached w first xs (xs.countP fun x => r (g x) value)
        (lowerBoundN first xs.length value comp proj)
        (fun last => lowerBound first last value comp proj)
        (fun r => r.lowerBound value comp proj) ∧
      ((xs.length : Int) ≤ Width.w64.max → ∃ w', lowerBoundList xs value comp proj w =
        .ok ⟨(xs.countP fun x => r (g x) value : Nat)⟩ w')) ∧
    (∀ value (comp : Relation κ β β) (r : β → β → Bool), (∀ y, Answers (comp y) (r y)) →
      Partitioned (fun x => !r value (g x)) xs →
      Reached w first xs (xs.countP fun x => !r value (g x))
        (upperBoundN first xs.length value comp proj)
        (fun last => upperBound first last value comp proj)
        (fun r => r.upperBound value comp proj) ∧
      ((xs.length : Int) ≤ Width.w64.max → ∃ w', upperBoundList xs value comp proj w =
        .ok ⟨(xs.countP fun x => !r value (g x) : Nat)⟩ w')) := by
  refine ⟨fun pred q hq hp => partitionPoint_reached h (hq.on hg) hp,
    fun value comp r hr hp => ?_, fun value comp r hr hp => ?_⟩
  · have ht := (answers_orderedBefore hr value).on hg
    refine ⟨partitionPoint_reached h ht hp, fun hm => ?_⟩
    exact (partitionPointN_reaches (presents_ofList hm w.store).shows ht hp).dangling
      (countP_le_max _ hm)
  · have ht := (answers_notOrderedAfter hr value).on hg
    refine ⟨partitionPoint_reached h ht hp, fun hm => ?_⟩
    exact (partitionPointN_reaches (presents_ofList hm w.store).shows ht hp).dangling
      (countP_le_max _ hm)

end Forms

/-- Moving elements out on the way, over a bound that tells distances and one that does not. -/
theorem boundaries_reached_moving :
    let w : World Int Nat := ⟨[[1, 3, 3, 7]], 0⟩
    let first : Cursor Int := .moving (.slice (.stored 0 4) 0)
    let last : Bound Int := .cursor (.moving (.slice (.stored 0 4) 4))
    let less : Relation Nat Int Int := fun a b k => (decide (a < b), k + 1)
    (lowerBound first last 3 less .identity).Reaches w first 1 ∧
      (upperBound (.forwardOnly first) (.forwardOnly last) 3 less .identity).Reaches w
        (.forwardOnly first) 3 := by
  intro w first last less
  have hm : Presents w.store first last [1, 3, 3, 7] :=
    presents_moving_cursor (presents_ofSource (show (Source.stored 0 4).Holds _ _ from ⟨rfl, rfl⟩)
      (by decide)) rfl
  have hf : Presents w.store (.forwardOnly first) (.forwardOnly last) [1, 3, 3, 7] :=
    presents_forwardOnly hm
  have hg : Answers (Projection.identity (κ := Nat)) (id : Int → Int) := fun _ _ => rfl
  have hr (y : Int) : Answers (less y) fun x => decide (y < x) := fun _ _ => rfl
  have hl := ((boundaries_reached (w := w) hm.shows hg).2.1 3 less _ hr (by decide)).1
  have hu := ((boundaries_reached (w := w) hf.shows hg).2.2 3 less _ hr (by decide)).1
  exact ⟨hl.upTo last hm fun _ => by decide, hu.upTo _ hf fun _ => by decide⟩

end Waymark
