import Waymark.Proofs.Search.Partitioned

/-!
# Sorted lists by their classes

A strict weak order cuts the elements into classes, those that it puts neither before nor after one
another. A sorted list is told by its classes, each in its order (`Ordered.ext`). The stable sort
leaves every class in the order in which it stood, so that it is the only sorted list with the classes
of the list (`eq_stableSort`).

What changes a sorted list is told by classes as well: filters (`Ordered.filter`), and a new value
between the elements that it is not ordered before and the others (`ordered_insertion`,
`filter_insertion`).
-/

namespace Waymark

variable {α : Type} {r : α → α → Bool} {x y z : α} {xs ys : List α}

/-- The order puts the two values neither way. -/
def equivalent (r : α → α → Bool) (x y : α) : Bool := !r x y && !r y x

/-- No element is ordered before one that it stands behind. -/
def Ordered (r : α → α → Bool) (xs : List α) : Prop := xs.Pairwise fun x y => r y x = false

instance (r : α → α → Bool) (xs : List α) : Decidable (Ordered r xs) :=
  inferInstanceAs (Decidable (List.Pairwise _ _))

/-- Sorted, with equivalent elements in the order in which they stood. -/
def stableSort (r : α → α → Bool) (xs : List α) : List α := xs.mergeSort fun x y => !r y x

/-- The list with a new value behind the elements that it is not ordered before. -/
def insertion (r : α → α → Bool) (x : α) (xs : List α) : List α :=
  xs.filter (fun y => !r x y) ++ x :: xs.filter (r x)

theorem equivalent_iff : equivalent r x y = true ↔ r x y = false ∧ r y x = false := by
  simp [equivalent]

theorem equivalent_comm : equivalent r x y = equivalent r y x := Bool.and_comm _ _

namespace StrictWeakOrder

variable (h : StrictWeakOrder r)

include h

theorem equivalent_self (x : α) : equivalent r x x = true :=
  equivalent_iff.2 ⟨h.irrefl x, h.irrefl x⟩

/-- Two values of one class are equivalent. -/
theorem equivalent_of_class (hy : equivalent r x y = true) (hz : equivalent r x z = true) :
    equivalent r y z = true := by
  obtain ⟨hxy, hyx⟩ := equivalent_iff.1 hy
  obtain ⟨hxz, hzx⟩ := equivalent_iff.1 hz
  exact equivalent_iff.2 ⟨h.incomparable y x z hyx hxy hxz hzx, h.incomparable z x y hzx hxz hxy hyx⟩

/-- A value is not ordered before the others of its class. -/
theorem not_before_of_class (hx : equivalent r x z = true) (hy : equivalent r x y = true) :
    r z y = false :=
  (equivalent_iff.1 (h.equivalent_of_class hx hy)).1

end StrictWeakOrder

/-! ## Sorted lists with the same classes -/

theorem Ordered.filter (hs : Ordered r xs) (p : α → Bool) : Ordered r (xs.filter p) :=
  List.Pairwise.filter p hs

/-- The first element is before all those that are not equivalent to it. -/
theorem Ordered.head_before (hs : Ordered r (x :: xs)) (hy : y ∈ xs)
    (hxy : equivalent r x y = false) : r x y = true := by
  have hyx : r y x = false := List.rel_of_pairwise_cons hs hy
  simpa [equivalent, hyx] using hxy

/-- Sorted lists with the same classes start with the same element. -/
theorem Ordered.head_eq (h : StrictWeakOrder r) (hx : Ordered r (x :: xs)) (hy : Ordered r (y :: ys))
    (hc : ∀ v, (x :: xs).filter (equivalent r v) = (y :: ys).filter (equivalent r v)) : x = y := by
  by_cases he : equivalent r x y = true
  · have hx := hc x
    rw [List.filter_cons_of_pos (h.equivalent_self x), List.filter_cons_of_pos he] at hx
    exact (List.cons.inj hx).1
  · have he : equivalent r x y = false := Bool.eq_false_iff.2 he
    -- each of the two stands behind the other
    have hmx : x ∈ (y :: ys).filter (equivalent r x) := by
      rw [← hc, List.filter_cons_of_pos (h.equivalent_self x)]
      exact List.mem_cons_self
    have hmy : y ∈ (x :: xs).filter (equivalent r y) := by
      rw [hc, List.filter_cons_of_pos (h.equivalent_self y)]
      exact List.mem_cons_self
    rcases List.mem_cons.1 (List.mem_filter.1 hmx).1 with rfl | hmx
    · rfl
    · rcases List.mem_cons.1 (List.mem_filter.1 hmy).1 with rfl | hmy
      · rfl
      · have hxy := hx.head_before hmy he
        have hyx := hy.head_before hmx (equivalent_comm.trans he)
        rw [h.asymm hxy] at hyx
        cases hyx

/-- A sorted list is told by its classes. -/
theorem Ordered.ext (h : StrictWeakOrder r) (hx : Ordered r xs) (hy : Ordered r ys)
    (hc : ∀ v, xs.filter (equivalent r v) = ys.filter (equivalent r v)) : xs = ys := by
  induction xs generalizing ys with
  | nil =>
    refine (List.eq_nil_iff_forall_not_mem.2 fun y hm => ?_).symm
    exact List.filter_eq_nil_iff.1 (hc y).symm y hm (h.equivalent_self y)
  | cons x xs ih =>
    cases ys with
    | nil => exact absurd (h.equivalent_self x) (List.filter_eq_nil_iff.1 (hc x) x List.mem_cons_self)
    | cons y ys =>
      obtain rfl := hx.head_eq h hy hc
      refine congrArg (x :: ·) (ih hx.of_cons hy.of_cons fun v => ?_)
      have hv := hc v
      by_cases hx : equivalent r v x = true
      · rw [List.filter_cons_of_pos hx, List.filter_cons_of_pos hx] at hv
        exact (List.cons.inj hv).2
      · rwa [List.filter_cons_of_neg hx, List.filter_cons_of_neg hx] at hv

/-! ## The stable sort -/

section StableSort

variable (h : StrictWeakOrder r)

include h

theorem not_after_trans (a b c : α) (hab : (!r b a) = true) (hbc : (!r c b) = true) :
    (!r c a) = true := by
  rw [Bool.not_eq_true'] at *
  cases hca : r c a with
  | false => rfl
  | true => rw [← hab, h.between hca hbc]

theorem not_after_total (a b : α) : (!r b a || !r a b) = true := by
  cases hba : r b a with
  | false => rfl
  | true => rw [h.asymm hba]; rfl

theorem ordered_stableSort (xs : List α) : Ordered r (stableSort r xs) :=
  (List.pairwise_mergeSort (not_after_trans h) (not_after_total h) xs).imp
    fun {_ _} hxy => by simpa using hxy

/-- Sorting leaves every class as it stood. -/
theorem filter_stableSort (xs : List α) (v : α) :
    (stableSort r xs).filter (equivalent r v) = xs.filter (equivalent r v) := by
  have hp : (xs.filter (equivalent r v)).Pairwise fun x y => (!r y x) = true := by
    refine List.pairwise_of_forall_mem_list fun y hy z hz => ?_
    rw [h.not_before_of_class (List.mem_filter.1 hz).2 (List.mem_filter.1 hy).2]
    rfl
  have hs := (List.sublist_mergeSort (not_after_trans h) (not_after_total h) hp
    List.filter_sublist).filter (equivalent r v)
  rw [List.filter_filter] at hs
  simp only [Bool.and_self] at hs
  exact (hs.eq_of_length ((List.mergeSort_perm xs _).filter _).length_eq.symm).symm

/-- The only sorted list with the classes of the list is its stable sort. -/
theorem eq_stableSort (hy : Ordered r ys)
    (hc : ∀ v, ys.filter (equivalent r v) = xs.filter (equivalent r v)) : ys = stableSort r xs :=
  hy.ext h (ordered_stableSort h xs) fun v => (hc v).trans (filter_stableSort h xs v).symm

end StableSort

/-! ## A new value -/

section Insertion

variable (h : StrictWeakOrder r) (hs : Ordered r xs)

include h hs

theorem ordered_insertion (x : α) : Ordered r (insertion r x xs) := by
  refine List.pairwise_append.2 ⟨hs.filter _, List.pairwise_cons.2 ⟨fun z hz => ?_, hs.filter _⟩,
    fun y hy z hz => ?_⟩
  · exact h.asymm (List.mem_filter.1 hz).2
  · have hxy : r x y = false := by simpa using (List.mem_filter.1 hy).2
    rcases List.mem_cons.1 hz with rfl | hz
    · exact hxy
    · cases hzy : r z y with
      | false => rfl
      | true => rw [← hxy, h.trans x z y (List.mem_filter.1 hz).2 hzy]

/-- The new value comes last in its class, and all other classes are left. -/
theorem filter_insertion (x v : α) :
    (insertion r x xs).filter (equivalent r v) = (xs ++ [x]).filter (equivalent r v) := by
  have hp : Partitioned (fun y => !r x y) xs := (h.separated (g := id) hs x).notAfter
  have hf := congrArg (List.filter (equivalent r v)) hp.filter_append_filter
  simp only [Bool.not_not, List.filter_append] at hf
  rw [insertion, List.filter_append, List.filter_append, ← hf]
  by_cases hx : equivalent r v x = true
  · -- what the value is ordered before is in another class
    have hn : (xs.filter (r x)).filter (equivalent r v) = [] := by
      refine List.filter_eq_nil_iff.2 fun y hy hv => ?_
      have hxy := h.not_before_of_class hx hv
      rw [(List.mem_filter.1 hy).2] at hxy
      cases hxy
    rw [List.filter_cons_of_pos hx, hn, List.append_nil]
    simp [hx]
  · rw [List.filter_cons_of_neg hx]
    simp [hx]

end Insertion

end Waymark
