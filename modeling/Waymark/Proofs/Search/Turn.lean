import Waymark.Proofs.Search.EqualRange

/-!
# Where a test turns

Bisection of a list that nothing is known of. The test may hold of any of its elements, so that where
the search stops is not told by how many these are; but the test turns there (`TurnsAt`): it holds of
the element before, if there is one, and fails of the element behind, if there is one.

What is left to search keeps to its neighbours. An element that the test holds of stands before it, and
one that the test fails of behind it, so that a turn in what is left is a turn of the whole list
(`TurnsAt.of_drop`, `TurnsAt.of_take`). The middles of a bisection are these neighbours
(`bisect_turns`), also those of a bisection for both ends: an equivalent middle, which is neither before
the value nor after it, bounds the lower part from behind and the upper part from before
(`bisectEqual_turns`). `turns_reached` says so of the searches.
-/

namespace Waymark

variable {α β κ : Type} {p q : α → Bool} {xs : List α}

/-- The test holds of the element before the position and fails of the one at it, as far as there are
such elements. -/
structure TurnsAt (p : α → Bool) (xs : List α) (i : Nat) : Prop where
  le : i ≤ xs.length
  holds : ∀ j (h : j < xs.length), i = j + 1 → p xs[j] = true
  fails : ∀ h : i < xs.length, p xs[i] = false

namespace TurnsAt

variable {m i : Nat}

theorem nil : TurnsAt p [] 0 :=
  ⟨Nat.le_refl 0, fun j h => absurd h (Nat.not_lt_zero j), fun h => absurd h (Nat.not_lt_zero 0)⟩

/-- A turn behind an element that the test holds of. -/
theorem of_drop (hm : m < xs.length) (hx : p xs[m] = true) (h : TurnsAt p (xs.drop (m + 1)) i) :
    TurnsAt p xs (m + 1 + i) := by
  have hle := h.le
  have hl : (xs.drop (m + 1)).length = xs.length - (m + 1) := List.length_drop
  refine ⟨by omega, fun j hj hij => ?_, fun hi => ?_⟩
  · cases i with
    | zero =>
      obtain rfl : m = j := by omega
      exact hx
    | succ i =>
      obtain rfl : m + 1 + i = j := by omega
      have := h.holds i (by omega) rfl
      rwa [List.getElem_drop] at this
  · have := h.fails (by omega)
    rwa [List.getElem_drop] at this

/-- A turn before an element that the test fails of. -/
theorem of_take (hm : m < xs.length) (hx : p xs[m] = false) (h : TurnsAt p (xs.take m) i) :
    TurnsAt p xs i := by
  have hle := h.le
  have hl := List.length_take_of_le (Nat.le_of_lt hm)
  refine ⟨by omega, fun j hj hij => ?_, fun hi => ?_⟩
  · have := h.holds j (by omega) hij
    rwa [List.getElem_take] at this
  · rcases Nat.lt_or_eq_of_le hle with hlt | heq
    · have := h.fails hlt
      rwa [List.getElem_take] at this
    · obtain rfl : i = m := by omega
      exact hx

end TurnsAt

/-- The tests for what is before a value and for what is not after it both turn, the first one no later
than the second one. -/
structure TurnsBoth (p q : α → Bool) (xs : List α) (l u : Nat) : Prop where
  le : l ≤ u
  lower : TurnsAt p xs l
  upper : TurnsAt (fun x => !q x) xs u

namespace Listed

theorem bisect_turns {t : Predicate κ α} (ht : Answers t p) (xs : List α) (k : κ) :
    TurnsAt p xs (bisect t xs k).1 := by
  induction xs using bisect.induct generalizing k with
  | case1 xs hm ihr ihl =>
    rw [bisect, dif_pos hm, callBind_apply, ht]
    cases hx : p xs[xs.length / 2] with
    | true => exact .of_drop hm hx (ihr _)
    | false => exact .of_take hm hx (ihl _)
  | case2 xs hm =>
    obtain rfl : xs = [] := List.eq_nil_of_length_eq_zero (by omega)
    rw [bisect, dif_neg hm]
    exact .nil

variable {value : β} {comp : Relation κ β β} {r : β → β → Bool} {proj : Projection κ α β} {g : α → β}

/-- No element may be both before the value and after it. -/
theorem bisectEqual_turns (hr : ∀ y, Answers (comp y) (r y)) (hg : Answers proj g)
    (h : ∀ x ∈ xs, r (g x) value = true → r value (g x) = false) (k : κ) :
    TurnsBoth (fun x => r (g x) value) (fun x => r value (g x)) xs
      (bisectEqual value comp proj xs k).1.1 (bisectEqual value comp proj xs k).1.2 := by
  induction xs using bisectEqual.induct generalizing k with
  | case1 xs hm ihr ihl =>
    rw [bisectEqual, dif_pos hm, callBind_apply, hg, callBind_apply, hr]
    cases hb : r (g xs[xs.length / 2]) value with
    | true =>
      have ha := h _ (List.getElem_mem hm) hb
      obtain ⟨hle, hl, hu⟩ := ihr (fun x hx => h x (List.mem_of_mem_drop hx))
        (comp (g xs[xs.length / 2]) value (proj xs[xs.length / 2] k).2).2
      exact ⟨Nat.add_le_add_left hle _, .of_drop hm hb hl, .of_drop hm (by rw [ha]; rfl) hu⟩
    | false =>
      rw [if_neg Bool.false_ne_true, callBind_apply, hr]
      cases ha : r value (g xs[xs.length / 2]) with
      | true =>
        obtain ⟨hle, hl, hu⟩ := ihl (fun x hx => h x (List.mem_of_mem_take hx)) _
        exact ⟨hle, .of_take hm hb hl, .of_take hm (by rw [ha]; rfl) hu⟩
      | false =>
        -- the middle is equivalent: the lower end is sought before it, the upper one behind it
        have hl (k : κ) := bisect_turns ((answers_orderedBefore hr value).on hg)
          (xs.take (xs.length / 2)) k
        have hu (k : κ) := bisect_turns ((answers_notOrderedAfter hr value).on hg)
          (xs.drop (xs.length / 2 + 1)) k
        have hle (k : κ) := Nat.le_trans (hl k).le (List.length_take_le _ xs)
        rw [if_neg Bool.false_ne_true, callBind_apply, callBind_apply]
        refine ⟨Nat.le_trans (hle _) ?_, .of_take hm hb (hl _), .of_drop hm (by rw [ha]; rfl) (hu _)⟩
        exact Nat.le_trans (Nat.le_succ _) (Nat.le_add_right _ _)
  | case2 xs hm =>
    obtain rfl : xs = [] := List.eq_nil_of_length_eq_zero (by omega)
    rw [bisectEqual, dif_neg hm]
    exact ⟨Nat.le_refl 0, .nil, .nil⟩

end Listed

section Searches

variable [IntCast α] [Inhabited α] {first : Cursor α} {w : World α κ} {proj : Projection κ α β}
  {g : α → β}

/-- Whatever the elements are, bisection comes to a position where the predicate turns. Looking for the
elements equivalent to a value, it comes to two of them in order, if the comparator puts no element both
before the value and after it. -/
theorem turns_reached (h : first.Shows w.store xs) (hg : Answers proj g) :
    (∀ (pred : Predicate κ β) (q : β → Bool), Answers pred q →
      ∃ i, TurnsAt (fun x => q (g x)) xs i ∧
        (partitionPointN first xs.length pred proj).Reaches w first i) ∧
    (∀ value (comp : Relation κ β β) (r : β → β → Bool), (∀ y, Answers (comp y) (r y)) →
      (∀ x ∈ xs, r (g x) value = true → r value (g x) = false) →
      ∃ l u, TurnsBoth (fun x => r (g x) value) (fun x => r value (g x)) xs l u ∧
        (equalRangeN first xs.length value comp proj).ReachesBoth w first l u) := by
  refine ⟨fun pred q hq => ?_, fun value comp r hr hx => ?_⟩
  · have ht := Listed.bisect_turns (hq.on hg) xs w.calls
    obtain ⟨s, ha, -⟩ := Listed.partitionPointN_follows (k := w.calls) h rfl pred proj
    exact ⟨_, ht, _, _, ha, h.reach ht.le⟩
  · have ht := Listed.bisectEqual_turns hr hg hx w.calls
    obtain ⟨s, ha, -⟩ := Listed.equalRangeN_follows (k := w.calls) h rfl value comp proj
    exact ⟨_, _, ht, _, _, _, ha, h.reach ht.lower.le, h.reach ht.upper.le⟩

end Searches

/-- Among elements in no order, which are moved out as they are looked at, and with a comparator that
goes by the last digit. -/
theorem turns_reached_scrambled :
    let w : World Int Nat := ⟨[[14, 3, 25, 11, 38, 23, 40]], 0⟩
    let first : Cursor Int := .moving (.slice (.stored 0 7) 0)
    let xs : List Int := [14, 3, 25, 11, 38, 23, 40]
    let byDigit : Relation Nat Int Int := fun a b k => (decide (a % 10 < b % 10), k + 1)
    (∃ i, TurnsAt (fun x => decide (x < 20)) xs i ∧
      (partitionPointN first 7 (fun x k => (decide (x < 20), k + 1)) .identity).Reaches w first i) ∧
    (∃ l u, TurnsBoth (fun x => decide (x % 10 < 3)) (fun x => decide (3 < x % 10)) xs l u ∧
      (equalRangeN first 7 53 byDigit .identity).ReachesBoth w first l u) := by
  intro w first xs byDigit
  have hs : first.Shows w.store xs := shows_moving (presents_ofSource
    (show (Source.stored 0 7).Holds w.store xs from ⟨rfl, rfl⟩) (by decide)).shows rfl
  have hg : Answers (Projection.identity (κ := Nat)) (id : Int → Int) := fun _ _ => rfl
  have h := turns_reached hs hg
  exact ⟨h.1 _ (fun x => decide (x < 20)) fun _ _ => rfl,
    h.2 53 byDigit (fun a b => decide (a % 10 < b % 10)) (fun _ _ _ => rfl) (by decide)⟩

end Waymark
