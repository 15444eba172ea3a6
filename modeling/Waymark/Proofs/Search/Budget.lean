import Waymark.Proofs.Kinds
import Waymark.Proofs.Spending

/-!
# The call budget of bisection

Bisection tests one element for each halving, whatever the test answers: of `n` elements, `n / 2` or
`n - (n / 2 + 1)` are left. So the number of tests lies between the two logarithms of
`Calls.Halving` (`bisect_costs`), and bisecting for both ends, which may start over on either side of
an equivalent element, takes at most twice the larger one (`bisectEqual_costs`). Nothing is assumed of
the callables or of the elements (`bisection_budgets`).
-/

namespace Waymark

variable {α β κ : Type}

theorem log2_le_log2 {m n : Nat} (h : m ≤ n) : m.log2 ≤ n.log2 := by
  by_cases hm : m = 0
  · simp [hm]
  · exact (Nat.le_log2 (by omega)).2 (Nat.le_trans (Nat.log2_self_le hm) h)

theorem log2_half {n : Nat} (h : 2 ≤ n) : n.log2 = (n / 2).log2 + 1 := by
  rw [Nat.log2_def, if_pos h]

/-- The larger part of a split, without its middle, has one halving less. -/
theorem log2_upper_half {n : Nat} (h : 0 < n) : (n - (n / 2 + 1) + 1).log2 + 1 = (n + 1).log2 := by
  rw [log2_half (show 2 ≤ n + 1 by omega), show n - (n / 2 + 1) + 1 = (n + 1) / 2 by omega]

/-- How often `n` can be halved until nothing is left. -/
def halvings (n : Nat) : Nat := if n = 0 then 0 else n.log2 + 1

theorem halvings_zero : halvings 0 = 0 := rfl

theorem halvings_of_pos {n : Nat} (h : 0 < n) : halvings n = n.log2 + 1 := if_neg (by omega)

theorem halvings_half {n : Nat} (h : 0 < n) : halvings n = halvings (n / 2) + 1 := by
  rw [halvings_of_pos h]
  by_cases h2 : 2 ≤ n
  · rw [halvings_of_pos (by omega), log2_half h2]
  · obtain rfl : n = 1 := by omega
    rfl

theorem halvings_mono {m n : Nat} (h : m ≤ n) : halvings m ≤ halvings n := by
  by_cases hm : m = 0
  · simp [hm, halvings_zero]
  · have := log2_le_log2 h
    rw [halvings_of_pos (by omega), halvings_of_pos (by omega)]
    omega

namespace Calls

/-- The calls of a bisection of `n` elements. Each test has a projection of its own. -/
structure Halving (n : Nat) (m : Calls) : Prop where
  projections : m.projections = m.tests
  secondProjections : m.secondProjections = 0
  least : (n + 1).log2 ≤ m.tests
  most : m.tests ≤ halvings n

/-- The calls of a bisection of `n` elements for both ends. Nothing is projected without a test. -/
structure HalvingTwice (n : Nat) (m : Calls) : Prop where
  secondProjections : m.secondProjections = 0
  tested : m.projections ≤ m.tests
  tests : m.tests ≤ 2 * halvings n
  projections : m.projections ≤ 2 * halvings n - 1

end Calls

namespace Listed

/-- Bisection projects and tests an element for each halving. -/
theorem bisect_costs {t : Predicate (κ × Calls) α} (ht : ∀ x, Costs (t x) (· = .look))
    (xs : List α) : Costs (bisect t xs) (Calls.Halving xs.length) := by
  induction xs using bisect.induct with
  | case1 xs hm ihr ihl =>
    have hn : 0 < xs.length := by omega
    have hl := log2_upper_half hn
    have hh := halvings_half hn
    rw [List.length_drop] at ihr
    rw [List.length_take_of_le (Nat.le_of_lt hm)] at ihl
    rw [bisect, dif_pos hm]
    refine (ht _).bind fun held m hm => ?_
    subst hm
    refine .ite (ihr.bind fun i n hn => .pure ?_) (ihl.mono fun n hn => ?_)
    · have hr := halvings_mono (show xs.length - (xs.length / 2 + 1) ≤ xs.length / 2 by omega)
      obtain ⟨hp, hs, hleast, hmost⟩ := hn
      constructor <;> simp <;> omega
    · have hr := log2_le_log2 (show xs.length - (xs.length / 2 + 1) + 1 ≤ xs.length / 2 + 1 by omega)
      obtain ⟨hp, hs, hleast, hmost⟩ := hn
      constructor <;> simp <;> omega
  | case2 xs hm =>
    obtain rfl : xs = [] := List.eq_nil_of_length_eq_zero (by omega)
    rw [bisect, dif_neg hm]
    exact .pure (show Calls.Halving 0 .none from ⟨rfl, rfl, by decide, by decide⟩)

section EqualRange

variable (value : β) (comp : Relation κ β β) (proj : Projection κ α β)

theorem lower_costs (xs : List α) :
    Costs (bisect ((orderedBefore value comp.counted).on proj.counted) xs)
      (Calls.Halving xs.length) :=
  bisect_costs (costs_on (orderedBefore value comp) proj) xs

theorem upper_costs (xs : List α) :
    Costs (bisect ((notOrderedAfter value comp.counted).on proj.counted) xs)
      (Calls.Halving xs.length) :=
  bisect_costs (costs_on (notOrderedAfter value comp) proj) xs

/-- An element that is not before the value is asked about twice. If it is after it, only the lower
half is left, and if it is equivalent, a bisection of each half. -/
theorem bisectEqual_costs (xs : List α) :
    Costs (bisectEqual value comp.counted proj.counted xs) (Calls.HalvingTwice xs.length) := by
  induction xs using bisectEqual.induct with
  | case1 xs hm ihr ihl =>
    have hn : 0 < xs.length := by omega
    have hh := halvings_half hn
    have hr := halvings_mono (show xs.length - (xs.length / 2 + 1) ≤ xs.length / 2 by omega)
    have hlower := lower_costs value comp proj (xs.take (xs.length / 2))
    have hupper := upper_costs value comp proj (xs.drop (xs.length / 2 + 1))
    rw [List.length_drop] at ihr hupper
    rw [List.length_take_of_le (Nat.le_of_lt hm)] at ihl hlower
    rw [bisectEqual, dif_pos hm]
    refine .call fun y => .call fun before => .ite (ihr.bind fun r n hn => .pure ?_)
      (.call fun after => .ite (ihl.mono fun n hn => ?_)
        (hlower.bind fun l m hm => hupper.bind fun u n hn => .pure ?_))
    · obtain ⟨hs, hle, ht, hp⟩ := hn
      constructor <;> simp <;> omega
    · obtain ⟨hs, hle, ht, hp⟩ := hn
      constructor <;> simp <;> omega
    · obtain ⟨hpm, hsm, -, hmm⟩ := hm
      obtain ⟨hpn, hsn, -, hmn⟩ := hn
      constructor <;> simp <;> omega
  | case2 xs hm =>
    rw [bisectEqual, dif_neg hm]
    exact .pure ⟨rfl, Nat.le_refl _, Nat.zero_le _, Nat.zero_le _⟩

end EqualRange

end Listed

section Runs

variable [IntCast α] [Inhabited α] {first : Cursor α} {n : Nat} {xs : List α}
  {w : World α (κ × Calls)}

open Listed

/-- By the number of elements, whatever the callables answer: a search for one position makes as many
tests as projections, and both logarithms bound them; a search for both ends makes at most twice as
many tests, and one projection less. Of no elements none of them asks anything. -/
theorem bisection_budgets (h : first.Shows w.store xs) (hn : n ≤ xs.length) (pred : Predicate κ β)
    (value : β) (comp : Relation κ β β) (proj : Projection κ α β) :
    let search : Calls → Prop := fun m =>
      m.projections = m.tests ∧ m.secondProjections = 0 ∧ (n = 0 → m.tests = 0) ∧
        (0 < n → (n + 1).log2 ≤ m.tests ∧ m.tests ≤ n.log2 + 1)
    let searchBoth : Calls → Prop := fun m =>
      m.secondProjections = 0 ∧ (n = 0 → m = .none) ∧
        (0 < n → m.tests ≤ 2 * (n.log2 + 1) ∧ m.projections ≤ 2 * (n.log2 + 1) - 1)
    (partitionPointN first n pred.counted proj.counted).Spends w search ∧
      (lowerBoundN first n value comp.counted proj.counted).Spends w search ∧
      (upperBoundN first n value comp.counted proj.counted).Spends w search ∧
      (equalRangeN first n value comp.counted proj.counted).Spends w searchBoth := by
  intro search searchBoth
  have hs := h.take n
  have hl := List.length_take_of_le hn
  have hone {m : Calls} (hm : m.Halving (xs.take n).length) : search m := by
    obtain ⟨hp, hs, hleast, hmost⟩ := hm
    rw [hl] at hleast hmost
    refine ⟨hp, hs, fun h0 => ?_, fun h0 => ⟨hleast, ?_⟩⟩
    · rw [h0, halvings_zero] at hmost
      omega
    · rwa [halvings_of_pos h0] at hmost
  refine ⟨?_, ?_, ?_, ?_⟩
  · exact (partitionPointN_follows hs hl _ _).spends
      ((bisect_costs (costs_on pred proj) _).mono fun _ => hone)
  · exact (partitionPointN_follows hs hl _ _).spends
      ((lower_costs value comp proj _).mono fun _ => hone)
  · exact (partitionPointN_follows hs hl _ _).spends
      ((upper_costs value comp proj _).mono fun _ => hone)
  · refine (equalRangeN_follows hs hl _ _ _).spends
      ((bisectEqual_costs value comp proj _).mono fun m hm => ?_)
    obtain ⟨hs, -, ht, hp⟩ := hm
    rw [hl] at ht hp
    refine ⟨hs, fun h0 => ?_, fun h0 => ?_⟩
    · rw [h0, halvings_zero] at ht hp
      show Calls.mk _ _ _ = _
      rw [Nat.le_zero.1 ht, Nat.le_zero.1 hp, hs]
      rfl
    · rw [halvings_of_pos h0] at ht hp
      exact ⟨ht, hp⟩

end Runs

/-- Elements that are moved out of the store, a predicate that holds of every second call and a
comparator that contradicts itself. -/
theorem bisection_budgets_fickle :
    let w : World Int (Nat × Calls) := ⟨[[5, 1, 4, 1, 5, 9]], 0, .none⟩
    let first : Cursor Int := .moving (.slice (.stored 0 6) 0)
    let fickle : Relation Nat Int Int := fun _ _ k => (k % 3 == 0, k + 1)
    let second : Predicate Nat Int := fun _ k => (k % 2 == 1, k + 1)
    let shift : Projection Nat Int Int := fun x k => (x + k, k)
    (partitionPointN first 5 second.counted shift.counted).Spends w (fun m =>
        m.projections = m.tests ∧ 2 ≤ m.tests ∧ m.tests ≤ 3) ∧
      (equalRangeN first 5 3 fickle.counted shift.counted).Spends w fun m =>
        m.tests ≤ 6 ∧ m.projections ≤ 5 := by
  intro w first fickle second shift
  have hp : Presents w.store first (.cursor (.moving (.slice (.stored 0 6) 6))) [5, 1, 4, 1, 5, 9] :=
    presents_moving_cursor
      (presents_ofSource (show (Source.stored 0 6).Holds _ _ from ⟨rfl, rfl⟩) (by decide)) rfl
  have hb := bisection_budgets (n := 5) hp.shows (by decide) second 3 fickle shift
  refine ⟨hb.1.mono fun m hm => ?_, hb.2.2.2.mono fun m hm => ?_⟩
  · exact ⟨hm.1, hm.2.2.2 (by decide)⟩
  · exact hm.2.2 (by decide)

end Waymark
