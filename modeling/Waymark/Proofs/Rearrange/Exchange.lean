import Waymark.Proofs.Rearrange.Picked
import Waymark.Proofs.Search.Partitioned

/-!
# Exchanging what stands on the wrong side

Of a list of outcomes, `refused` are the offsets of those on the true side that are false, from the
front, and `accepted` those on the false side that are true, from the end. `exchanged` exchanges the
elements of a list at these offsets, one pair after the other. Outcomes that are taken off at the
ends leave the exchanges of the rest (`exchanged_cons_true`, `exchanged_append_false`,
`exchanged_ends`), and every list of outcomes can be taken apart so (`outcomes_induction`). So the
elements of a pair take the place of each other (`exchanged_pair`) and no other one moves
(`getElem?_exchanged`).
-/

namespace Waymark

variable {α : Type}

/-- The offsets before the number of true outcomes whose outcome is false. -/
def refused (bs : List Bool) : List Nat :=
  (List.range (bs.count true)).filter fun i => bs[i]? == some false

/-- The offsets from the number of true outcomes on whose outcome is true, from the last one. -/
def accepted (bs : List Bool) : List Nat :=
  ((List.range bs.length).filter fun i => decide (bs.count true ≤ i) && bs[i]? == some true).reverse

/-- The list with two of its elements exchanged. -/
def swapAt (xs : List α) (z : Nat × Nat) : List α :=
  match xs[z.1]?, xs[z.2]? with
  | some x, some y => (xs.set z.1 y).set z.2 x
  | _, _ => xs

/-- The list with all pairs of elements exchanged that stand on the wrong side. -/
def exchanged (bs : List Bool) (xs : List α) : List α :=
  ((refused bs).zip (accepted bs)).foldl swapAt xs

theorem refused_cons_true (bs : List Bool) :
    refused (true :: bs) = (refused bs).map (· + 1) := by
  rw [refused, List.count_cons_self, List.range_succ_eq_map, List.filter_cons_of_neg (by simp),
    List.filter_map]
  rfl

theorem accepted_cons_true (bs : List Bool) :
    accepted (true :: bs) = (accepted bs).map (· + 1) := by
  rw [accepted, List.count_cons_self, List.length_cons, List.range_succ_eq_map,
    List.filter_cons_of_neg (by simp), List.filter_map, ← List.map_reverse, accepted]
  simp [Function.comp_def]

theorem count_true_le (bs : List Bool) : bs.count true ≤ bs.length := List.count_le_length

theorem count_append_false (bs : List Bool) : (bs ++ [false]).count true = bs.count true := by
  rw [List.count_append]
  rfl

theorem refused_append_false (bs : List Bool) : refused (bs ++ [false]) = refused bs := by
  rw [refused, count_append_false, refused]
  refine List.filter_congr fun i hi => ?_
  have := List.mem_range.1 hi
  rw [List.getElem?_append_left (Nat.lt_of_lt_of_le this (count_true_le bs))]

theorem accepted_append_false (bs : List Bool) : accepted (bs ++ [false]) = accepted bs := by
  rw [accepted, count_append_false, List.length_append, List.length_singleton, List.range_succ,
    List.filter_append, List.filter_cons_of_neg (by simp), List.filter_nil, List.append_nil,
    accepted]
  refine congrArg List.reverse (List.filter_congr fun i hi => ?_)
  rw [List.getElem?_append_left (List.mem_range.1 hi)]

section Ends

variable (bs : List Bool)

theorem count_ends : (false :: (bs ++ [true])).count true = bs.count true + 1 := by
  rw [List.count_cons_of_ne (by decide), List.count_append]
  rfl

theorem getElem?_ends {i : Nat} (hi : i < bs.length) :
    (false :: (bs ++ [true]))[i + 1]? = bs[i]? := by
  rw [List.getElem?_cons_succ, List.getElem?_append_left hi]

theorem refused_ends : refused (false :: (bs ++ [true])) = 0 :: (refused bs).map (· + 1) := by
  rw [refused, count_ends, List.range_succ_eq_map, List.filter_cons_of_pos (by simp),
    List.filter_map, refused]
  refine congrArg (fun l => 0 :: l.map Nat.succ) (List.filter_congr fun i hi => ?_)
  rw [Function.comp, Nat.succ_eq_add_one,
    getElem?_ends bs (Nat.lt_of_lt_of_le (List.mem_range.1 hi) (count_true_le bs))]

theorem accepted_ends :
    accepted (false :: (bs ++ [true])) = (bs.length + 1) :: (accepted bs).map (· + 1) := by
  have hl : (false :: (bs ++ [true])).length = bs.length + 1 + 1 := by
    rw [List.length_cons, List.length_append]
    rfl
  have ht : (false :: (bs ++ [true]))[bs.length + 1]? = some true := by
    rw [List.getElem?_cons_succ, List.getElem?_append_right (Nat.le_refl _), Nat.sub_self]
    rfl
  have hc := count_true_le bs
  rw [accepted, count_ends, hl, List.range_succ, List.filter_append, List.reverse_append,
    List.filter_cons_of_pos (by rw [ht]; simp; omega), List.filter_nil, List.reverse_singleton,
    List.singleton_append, List.range_succ_eq_map, List.filter_cons_of_neg (by simp),
    List.filter_map, ← List.map_reverse, accepted]
  refine congrArg (fun l => (bs.length + 1) :: (l.reverse.map Nat.succ))
    (List.filter_congr fun i hi => ?_)
  rw [Function.comp, Nat.succ_eq_add_one, getElem?_ends bs (List.mem_range.1 hi),
    decide_eq_decide.2 Nat.add_le_add_iff_right]

end Ends

/-- What holds of no outcomes and stays true when outcomes are put to the ends, holds of all. -/
theorem outcomes_induction {P : List Bool → Prop} (nil : P [])
    (cons_true : ∀ bs, P bs → P (true :: bs)) (append_false : ∀ bs, P bs → P (bs ++ [false]))
    (ends : ∀ bs, P bs → P (false :: (bs ++ [true]))) (bs : List Bool) : P bs := by
  generalize hn : bs.length = n
  induction n using Nat.strongRecOn generalizing bs with
  | ind n ih =>
    cases bs with
    | nil => exact nil
    | cons b bs =>
      cases b with
      | true => exact cons_true bs (ih _ (by rw [← hn, List.length_cons]; omega) bs rfl)
      | false =>
        rcases List.eq_nil_or_concat bs with rfl | ⟨bs, b, rfl⟩
        · exact append_false [] nil
        · rw [List.concat_eq_append] at hn ⊢
          rw [List.length_cons, List.length_append, List.length_singleton] at hn
          cases b with
          | true => exact ends bs (ih _ (by omega) bs rfl)
          | false =>
            rw [← List.cons_append]
            exact append_false _ (ih _ (by omega) _ List.length_cons)

theorem length_refused (bs : List Bool) : (refused bs).length = (accepted bs).length := by
  induction bs using outcomes_induction with
  | nil => rfl
  | cons_true bs ih =>
    rw [refused_cons_true, accepted_cons_true, List.length_map, List.length_map, ih]
  | append_false bs ih => rw [refused_append_false, accepted_append_false, ih]
  | ends bs ih =>
    rw [refused_ends, accepted_ends, List.length_cons, List.length_cons, List.length_map,
      List.length_map, ih]

/-- All offsets are those of outcomes. -/
theorem lt_length_of_mem_zip {bs : List Bool} {z : Nat × Nat}
    (hz : z ∈ (refused bs).zip (accepted bs)) : z.1 < bs.length ∧ z.2 < bs.length := by
  obtain ⟨hr, ha⟩ := List.of_mem_zip hz
  rw [refused, List.mem_filter, List.mem_range] at hr
  rw [accepted, List.mem_reverse, List.mem_filter, List.mem_range] at ha
  exact ⟨Nat.lt_of_lt_of_le hr.1 (count_true_le bs), ha.1⟩

section SwapAt

theorem length_swapAt (xs : List α) (z : Nat × Nat) : (swapAt xs z).length = xs.length := by
  rw [swapAt]
  split
  · rw [List.length_set, List.length_set]
  · rfl

theorem getElem?_swapAt {z : Nat × Nat} {i : Nat} (h1 : i ≠ z.1) (h2 : i ≠ z.2) (xs : List α) :
    (swapAt xs z)[i]? = xs[i]? := by
  rw [swapAt]
  split
  · rw [List.getElem?_set_ne h2.symm, List.getElem?_set_ne h1.symm]
  · rfl

theorem swapAt_cons (x : α) (xs : List α) (i j : Nat) :
    swapAt (x :: xs) (i + 1, j + 1) = x :: swapAt xs (i, j) := by
  simp only [swapAt, List.getElem?_cons_succ]
  split <;> rfl

theorem swapAt_append {xs : List α} {z : Nat × Nat} (h : z.1 < xs.length ∧ z.2 < xs.length)
    (ys : List α) : swapAt (xs ++ ys) z = swapAt xs z ++ ys := by
  obtain ⟨hi, hj⟩ := h
  simp only [swapAt, List.getElem?_append_left hi, List.getElem?_append_left hj]
  split
  · rw [List.set_append_left _ _ hi, List.set_append_left _ _ (by rwa [List.length_set])]
  · rfl

theorem swapAt_ends (x y : α) (xs : List α) :
    swapAt (x :: (xs ++ [y])) (0, xs.length + 1) = y :: (xs ++ [x]) := by
  have hy : (x :: (xs ++ [y]))[xs.length + 1]? = some y := by
    rw [List.getElem?_cons_succ, List.getElem?_append_right (Nat.le_refl _), Nat.sub_self]
    rfl
  simp only [swapAt, List.getElem?_cons_zero, hy]
  rw [List.set_cons_zero, List.set_cons_succ, List.set_append_right _ _ (Nat.le_refl _),
    Nat.sub_self]
  rfl

theorem foldl_swapAt_cons (x : α) (xs : List α) (is js : List Nat) :
    ((is.map (· + 1)).zip (js.map (· + 1))).foldl swapAt (x :: xs) =
      x :: (is.zip js).foldl swapAt xs := by
  induction is generalizing js xs with
  | nil => rfl
  | cons i is ih =>
    cases js with
    | nil => rfl
    | cons j js =>
      rw [List.map_cons, List.map_cons, List.zip_cons_cons, List.zip_cons_cons, List.foldl_cons,
        List.foldl_cons, swapAt_cons, ih]

theorem foldl_swapAt_append {zs : List (Nat × Nat)} {xs : List α} (ys : List α)
    (h : ∀ z ∈ zs, z.1 < xs.length ∧ z.2 < xs.length) :
    zs.foldl swapAt (xs ++ ys) = zs.foldl swapAt xs ++ ys := by
  induction zs generalizing xs with
  | nil => rfl
  | cons z zs ih =>
    rw [List.foldl_cons, List.foldl_cons, swapAt_append (h z List.mem_cons_self)]
    refine ih fun y hy => ?_
    rw [length_swapAt]
    exact h y (List.mem_cons_of_mem z hy)

theorem getElem?_foldl_swapAt {zs : List (Nat × Nat)} {i : Nat}
    (h : ∀ z ∈ zs, i ≠ z.1 ∧ i ≠ z.2) (xs : List α) : (zs.foldl swapAt xs)[i]? = xs[i]? := by
  induction zs generalizing xs with
  | nil => rfl
  | cons z zs ih =>
    obtain ⟨h1, h2⟩ := h z List.mem_cons_self
    rw [List.foldl_cons, ih fun y hy => h y (List.mem_cons_of_mem z hy), getElem?_swapAt h1 h2]

end SwapAt

section Exchanged

variable {bs : List Bool} {xs : List α}

theorem exchanged_cons_true (bs : List Bool) (x : α) (xs : List α) :
    exchanged (true :: bs) (x :: xs) = x :: exchanged bs xs := by
  rw [exchanged, refused_cons_true, accepted_cons_true, foldl_swapAt_cons]
  rfl

theorem exchanged_append (h : xs.length = bs.length) (ys : List α) :
    ((refused bs).zip (accepted bs)).foldl swapAt (xs ++ ys) = exchanged bs xs ++ ys :=
  foldl_swapAt_append ys fun z hz => by rw [h]; exact lt_length_of_mem_zip hz

theorem exchanged_append_false (h : xs.length = bs.length) (x : α) :
    exchanged (bs ++ [false]) (xs ++ [x]) = exchanged bs xs ++ [x] := by
  rw [exchanged, refused_append_false, accepted_append_false, exchanged_append h]

theorem exchanged_ends (h : xs.length = bs.length) (x y : α) :
    exchanged (false :: (bs ++ [true])) (x :: (xs ++ [y])) = y :: (exchanged bs xs ++ [x]) := by
  rw [exchanged, refused_ends, accepted_ends, List.zip_cons_cons, List.foldl_cons, ← h,
    swapAt_ends, foldl_swapAt_cons, exchanged_append h]

theorem exists_append_singleton {n : Nat} (h : xs.length = n + 1) :
    ∃ ys y, xs = ys ++ [y] ∧ ys.length = n := by
  rcases List.eq_nil_or_concat xs with rfl | ⟨ys, y, rfl⟩
  · cases h
  · rw [List.concat_eq_append] at h ⊢
    rw [List.length_append] at h
    exact ⟨ys, y, rfl, Nat.succ.inj h⟩

/-- The same for outcomes with their elements. -/
theorem tested_induction {P : List Bool → List α → Prop} (nil : P [] [])
    (cons_true : ∀ bs x xs, xs.length = bs.length → P bs xs → P (true :: bs) (x :: xs))
    (append_false : ∀ bs xs x, xs.length = bs.length → P bs xs → P (bs ++ [false]) (xs ++ [x]))
    (ends : ∀ bs x xs y, xs.length = bs.length → P bs xs →
      P (false :: (bs ++ [true])) (x :: (xs ++ [y])))
    (h : xs.length = bs.length) : P bs xs := by
  induction bs using outcomes_induction generalizing xs with
  | nil =>
    obtain rfl := List.eq_nil_of_length_eq_zero h
    exact nil
  | cons_true bs ih =>
    obtain ⟨x, xs, rfl⟩ := List.exists_cons_of_length_eq_add_one h
    exact cons_true bs x xs (Nat.succ.inj h) (ih (Nat.succ.inj h))
  | append_false bs ih =>
    rw [List.length_append] at h
    obtain ⟨xs, x, rfl, hx⟩ := exists_append_singleton h
    exact append_false bs xs x hx (ih hx)
  | ends bs ih =>
    obtain ⟨x, xs, rfl⟩ := List.exists_cons_of_length_eq_add_one h
    rw [List.length_cons, List.length_cons, List.length_append] at h
    obtain ⟨xs, y, rfl, hx⟩ := exists_append_singleton (Nat.succ.inj h)
    exact ends bs x xs y hx (ih hx)

theorem length_exchanged (h : xs.length = bs.length) : (exchanged bs xs).length = bs.length := by
  refine tested_induction (P := fun bs xs => (exchanged bs xs).length = bs.length) rfl
    (fun bs x xs _ ih => ?_) (fun bs xs x h ih => ?_) (fun bs x xs y h ih => ?_) h
  · rw [exchanged_cons_true, List.length_cons, ih, List.length_cons]
  · rw [exchanged_append_false h, List.length_append, ih, List.length_append]
    rfl
  · simp only [exchanged_ends h, List.length_cons, List.length_append, ih, List.length_nil]

theorem count_le_length_exchanged (h : xs.length = bs.length) :
    bs.count true ≤ (exchanged bs xs).length := by
  rw [length_exchanged h]
  exact count_true_le bs

/-- An element that stands on the right side stays where it is. -/
theorem getElem?_exchanged {i : Nat} (hr : i ∉ refused bs) (ha : i ∉ accepted bs) (xs : List α) :
    (exchanged bs xs)[i]? = xs[i]? := by
  refine getElem?_foldl_swapAt (fun z hz => ?_) xs
  obtain ⟨h1, h2⟩ := List.of_mem_zip hz
  exact ⟨fun h => hr (h ▸ h1), fun h => ha (h ▸ h2)⟩

/-- The elements of a pair take the place of each other. -/
theorem exchanged_pair (h : xs.length = bs.length) :
    ∀ z ∈ (refused bs).zip (accepted bs),
      (exchanged bs xs)[z.1]? = xs[z.2]? ∧ (exchanged bs xs)[z.2]? = xs[z.1]? := by
  refine tested_induction (P := fun bs xs => ∀ z ∈ (refused bs).zip (accepted bs),
    (exchanged bs xs)[z.1]? = xs[z.2]? ∧ (exchanged bs xs)[z.2]? = xs[z.1]?)
    (fun z hz => absurd hz List.not_mem_nil) (fun bs x xs _ ih z hz => ?_)
    (fun bs xs x h ih z hz => ?_) (fun bs x xs y h ih z hz => ?_) h
  · rw [refused_cons_true, accepted_cons_true, List.zip_map, List.mem_map] at hz
    obtain ⟨z, hz, rfl⟩ := hz
    rw [exchanged_cons_true]
    exact ih z hz
  · rw [refused_append_false, accepted_append_false] at hz
    obtain ⟨h1, h2⟩ := lt_length_of_mem_zip hz
    have hl := length_exchanged h
    rw [exchanged_append_false h, List.getElem?_append_left (by omega),
      List.getElem?_append_left (by omega), List.getElem?_append_left (by omega),
      List.getElem?_append_left (by omega)]
    exact ih z hz
  · have hl := length_exchanged h
    rw [refused_ends, accepted_ends, List.zip_cons_cons, List.zip_map] at hz
    rw [exchanged_ends h]
    rcases List.mem_cons.1 hz with rfl | hz
    · constructor
      · rw [List.getElem?_cons_zero, List.getElem?_cons_succ, ← h, List.getElem?_concat_length]
      · rw [List.getElem?_cons_zero, List.getElem?_cons_succ, ← hl, List.getElem?_concat_length]
    · obtain ⟨y, hy, rfl⟩ := List.mem_map.1 hz
      obtain ⟨h1, h2⟩ := lt_length_of_mem_zip hy
      rw [Prod.map_fst, Prod.map_snd, List.getElem?_cons_succ, List.getElem?_cons_succ,
        List.getElem?_cons_succ, List.getElem?_cons_succ, List.getElem?_append_left (by omega),
        List.getElem?_append_left (by omega), List.getElem?_append_left (by omega),
        List.getElem?_append_left (by omega)]
      exact ih y hy

example : exchanged [false, true, false, true] [1, 2, 3, 4] = [4, 2, 3, 1] := by decide

/-- The elements with true outcomes come to the front. -/
theorem take_exchanged (h : xs.length = bs.length) :
    ((exchanged bs xs).take (bs.count true)).Perm (picked true bs xs) := by
  refine tested_induction
    (P := fun bs xs => ((exchanged bs xs).take (bs.count true)).Perm (picked true bs xs))
    (.refl []) (fun bs x xs _ ih => ?_) (fun bs xs x h ih => ?_) (fun bs x xs y h ih => ?_) h
  · rw [exchanged_cons_true, List.count_cons_self, List.take_succ_cons, picked_cons_self]
    exact ih.cons x
  · have hl := count_le_length_exchanged h
    rw [exchanged_append_false h, count_append_false, List.take_append_of_le_length hl,
      picked_append true h]
    exact (List.append_nil _).symm ▸ ih
  · have hl := count_le_length_exchanged h
    rw [exchanged_ends h, count_ends, List.take_succ_cons, List.take_append_of_le_length hl,
      picked_cons_of_ne (by decide), picked_append true h]
    exact (ih.cons y).trans (List.perm_append_singleton y _).symm

/-- The elements with false outcomes come behind them. -/
theorem drop_exchanged (h : xs.length = bs.length) :
    ((exchanged bs xs).drop (bs.count true)).Perm (picked false bs xs) := by
  refine tested_induction
    (P := fun bs xs => ((exchanged bs xs).drop (bs.count true)).Perm (picked false bs xs))
    (.refl []) (fun bs x xs _ ih => ?_) (fun bs xs x h ih => ?_) (fun bs x xs y h ih => ?_) h
  · rw [exchanged_cons_true, List.count_cons_self, List.drop_succ_cons,
      picked_cons_of_ne (by decide)]
    exact ih
  · have hl := count_le_length_exchanged h
    rw [exchanged_append_false h, count_append_false, List.drop_append_of_le_length hl,
      picked_append false h]
    exact ih.append_right [x]
  · have hl := count_le_length_exchanged h
    rw [exchanged_ends h, count_ends, List.drop_succ_cons, List.drop_append_of_le_length hl,
      picked_cons_self, picked_append false h]
    refine (List.perm_append_singleton x _).trans ?_
    exact (List.append_nil (picked false bs xs)).symm ▸ ih.cons x

/-- Where no element stands on the wrong side, nothing is exchanged. -/
theorem exchanged_of_partitioned (h : Partitioned id bs) (xs : List α) : exchanged bs xs = xs := by
  have hc : bs.count true = bs.countP id := by
    refine List.countP_congr fun b _ => ?_
    cases b <;> decide
  have hr : refused bs = [] := by
    refine List.filter_eq_nil_iff.2 fun i hi hb => ?_
    have hi := List.mem_range.1 hi
    have hl := Nat.lt_of_lt_of_le hi (count_true_le bs)
    have hg : bs[i] = decide (i < bs.countP id) := h.getElem hl
    rw [List.getElem?_eq_getElem hl, hg, decide_eq_true (by omega)] at hb
    cases hb
  rw [exchanged, hr]
  rfl

end Exchanged

end Waymark
