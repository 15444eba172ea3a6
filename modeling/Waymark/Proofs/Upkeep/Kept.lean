import Waymark.Upkeep
import Waymark.Proofs.Rearrange.Compact
import Waymark.Proofs.Search.EqualRange
import Waymark.Proofs.Upkeep.Classes

/-!
# Changes of a list that is kept in order

`Kept r came xs` relates the list to the values that have come in and are left: it is sorted, and its
classes are theirs. On a sorted list the three changes are an insertion before what is ordered after
the value, the filter that refuses the equivalents, and the filter that refuses what the predicate
holds of (`insertSorted_gives`, `eraseEqual_gives`, `eraseIf_gives`), so that each keeps the relation
(`Change.perform_gives`), and with it every run of changes (`performAll_sorts`).
-/

namespace Waymark

variable {α β κ γ : Type}

/-- The run returns `b` and changes nothing but the state of the callables. -/
def Run.Gives (act : Run α κ γ) (w : World α κ) (b : γ) : Prop := ∃ k, act w = .ok b ⟨w.store, k⟩

namespace Run.Gives

variable {act : Run α κ β} {f : β → Run α κ γ} {w : World α κ} {b : β} {c : γ}

theorem bind (h : act.Gives w b) (hf : ∀ k, (f b).Gives ⟨w.store, k⟩ c) : (act >>= f).Gives w c := by
  obtain ⟨k, ha⟩ := h
  obtain ⟨k', hb⟩ := hf k
  exact ⟨k', (bind_ok ha).trans hb⟩

theorem lift {x : Except Fault β} (hx : x = .ok b) (h : (f b).Gives w c) :
    (liftM x >>= f).Gives w c := by
  obtain ⟨k, ha⟩ := h
  exact ⟨k, (bind_ok (lift_ok hx w)).trans ha⟩

/-- What a search on a list does to a cursor that keeps what it reads. -/
theorem of_follows [IntCast α] {ν : Type} {act : Run α κ γ} {g : StateM κ ν} {place : ν → γ}
    {c : Cursor α} {n : Nat} (h : act.Follows g place c n w) (hk : c.keeps = true) {i : ν}
    (hi : ∀ k, (g k).1 = i) : act.Gives w (place i) := by
  obtain ⟨s, ha, hs⟩ := h
  rw [hs.1 hk, hi] at ha
  exact ⟨_, ha⟩

end Run.Gives

theorem Run.withList_ok {act : Nat → Run α κ β} {xs ys : List α} {w : World α κ} {b : β} {k : κ}
    (h : act w.store.length ⟨w.store ++ [xs], w.calls⟩ = .ok b ⟨w.store ++ [ys], k⟩) :
    Run.withList xs act w = .ok (b, ys) ⟨w.store, k⟩ := by
  have hy : (World.mk (w.store ++ [ys]) k).sequence w.store.length = ys := by
    simp [World.sequence]
  have ht : (w.store ++ [ys]).take w.store.length = w.store := List.take_left
  rw [withList, bind_ok (show (get : Run α κ _) w = .ok w w from rfl)]
  rw [bind_ok (show (modify _ : Run α κ _) w = .ok () ⟨w.store ++ [xs], w.calls⟩ from rfl), bind_ok h]
  show EStateM.Result.ok (b, (World.mk (w.store ++ [ys]) k).sequence w.store.length)
    (World.mk ((w.store ++ [ys]).take w.store.length) k) = _
  rw [ht, hy]

/-! ## Changes -/

/-- A change of a list that is kept in order. -/
inductive Change (κ α : Type) where
  /-- Puts the value at its upper bound. -/
  | insert (x : α)
  /-- Cuts out the range of the value. -/
  | eraseEqual (x : α)
  /-- Leaves out what the predicate holds of, which answers each element in one way only. -/
  | remove (pred : Predicate κ α) (holds : α → Bool) (answers : Answers pred holds)

namespace Change

/-- The values that are left of those that have come in so far, in the order in which they came. -/
def leaves (r : α → α → Bool) (came : List α) : Change κ α → List α
  | insert x => came ++ [x]
  | eraseEqual x => came.filter fun y => !equivalent r y x
  | remove _ holds _ => came.filter fun y => !holds y

variable [IntCast α] [Inhabited α]

/-- The list after the change. -/
def perform (comp : Relation κ α α) (proj : Projection κ α α) (xs : List α) :
    Change κ α → Run α κ (List α)
  | insert x => return (← insertSorted xs x comp proj).2
  | eraseEqual x => return (← Waymark.eraseEqual xs x comp proj).2
  | remove pred _ _ => eraseIf xs pred proj

end Change

/-- The values that are left after the changes. -/
def survivors (r : α → α → Bool) (came : List α) (changes : List (Change κ α)) : List α :=
  changes.foldl (fun came c => c.leaves r came) came

/-- The list after the changes. -/
def performAll [IntCast α] [Inhabited α] (comp : Relation κ α α) (proj : Projection κ α α)
    (xs : List α) (changes : List (Change κ α)) : Run α κ (List α) :=
  changes.foldlM (fun xs c => c.perform comp proj xs) xs

/-- Each change adds at most one value. -/
theorem length_survivors_le (r : α → α → Bool) (came : List α) (changes : List (Change κ α)) :
    (survivors r came changes).length ≤ came.length + changes.length := by
  induction changes generalizing came with
  | nil => exact Nat.le_refl _
  | cons c changes ih =>
    have hc : (c.leaves r came).length ≤ came.length + 1 := by
      cases c with
      | insert x => simp [Change.leaves]
      | eraseEqual x => exact Nat.le_succ_of_le (List.length_filter_le _ came)
      | remove pred p hp => exact Nat.le_succ_of_le (List.length_filter_le _ came)
    have := ih (c.leaves r came)
    rw [survivors, List.foldl_cons, List.length_cons]
    rw [survivors] at this
    omega

/-- The list is sorted and has the classes of `came`. -/
structure Kept (r : α → α → Bool) (came xs : List α) : Prop where
  ordered : Ordered r xs
  classes : ∀ v, xs.filter (equivalent r v) = came.filter (equivalent r v)

namespace Kept

variable {r : α → α → Bool} {came xs : List α}

theorem eq_stableSort (h : StrictWeakOrder r) (hk : Kept r came xs) : xs = stableSort r came :=
  Waymark.eq_stableSort h hk.ordered hk.classes

theorem perm (h : StrictWeakOrder r) (hk : Kept r came xs) : xs.Perm came := by
  rw [hk.eq_stableSort h]
  exact List.mergeSort_perm came _

theorem insertion (h : StrictWeakOrder r) (hk : Kept r came xs) (x : α) :
    Kept r (came ++ [x]) (insertion r x xs) where
  ordered := ordered_insertion h hk.ordered x
  classes v := by
    rw [filter_insertion h hk.ordered, List.filter_append, List.filter_append, hk.classes]

/-- Leaving out elements leaves the classes of the others. -/
theorem filter (hk : Kept r came xs) (p : α → Bool) : Kept r (came.filter p) (xs.filter p) where
  ordered := hk.ordered.filter p
  classes v := by
    have hc (l : List α) :
        (l.filter p).filter (equivalent r v) = (l.filter (equivalent r v)).filter p := by
      simp only [List.filter_filter, Bool.and_comm]
    rw [hc, hk.classes, hc]

end Kept

/-! ## Changes of a sorted list -/

section Searches

variable [IntCast α] {xs : List α} {comp : Relation κ α α} {proj : Projection κ α α}
  {r : α → α → Bool}

theorem indexOf_ofList (hm : (xs.length : Int) ≤ Width.w64.max) {n : Nat} (hn : n ≤ xs.length) :
    (Range.ofList xs).indexOf ((Range.ofList xs).first.hop n) = .ok n :=
  indexOf_ofSource (Int.le_trans (Int.ofNat_le.2 hn) hm) ((presents_ofList hm []).shows.reach hn)

variable [Inhabited α]

theorem partitionPoint_ofList {pred : Predicate κ β} {proj : Projection κ α β} {p : α → Bool}
    (hm : (xs.length : Int) ≤ Width.w64.max) (ht : Answers (pred.on proj) p)
    (hp : Partitioned p xs) (w : World α κ) :
    ((Range.ofList xs).partitionPoint pred proj).Gives w
      ((Range.ofList xs).first.hop (xs.countP p)) :=
  .of_follows (Listed.partitionPointN_follows (presents_ofList hm w.store).shows rfl pred proj) rfl
    (Listed.bisect_answers ht hp)

theorem equalRange_ofList (hm : (xs.length : Int) ≤ Width.w64.max)
    (hr : ∀ y, Answers (comp y) (r y)) (hg : Answers proj id) {x : α}
    (hs : Separated (fun y => r y x) (fun y => r x y) xs) (w : World α κ) :
    ((Range.ofList xs).equalRange x comp proj).Gives w
      ((Range.ofList xs).first.hops (Separated.ends (fun y => r y x) (fun y => r x y) xs)) :=
  .of_follows (Listed.equalRangeN_follows (presents_ofList hm w.store).shows rfl x comp proj) rfl
    (Listed.bisectEqual_answers hr hg hs)

variable (h : StrictWeakOrder r) (hr : ∀ y, Answers (comp y) (r y)) (hg : Answers proj id)
  (hs : Ordered r xs) (hm : (xs.length : Int) ≤ Width.w64.max)

include h hr hg hs hm

theorem insertSorted_gives (x : α) (w : World α κ) :
    (insertSorted xs x comp proj).Gives w (xs.countP fun y => !r x y, insertion r x xs) := by
  have hp : Partitioned (fun y => !r x y) xs := (h.separated (g := id) hs x).notAfter
  have ht : Answers ((notOrderedAfter x comp).on proj) fun y => !r x y :=
    (answers_notOrderedAfter hr x).on hg
  obtain ⟨htake, hdrop⟩ := hp.take_drop_countP
  refine .bind (partitionPoint_ofList hm ht hp w) fun k =>
    .lift (indexOf_ofList hm List.countP_le_length) ?_
  rw [htake, hdrop]
  simp only [Bool.not_not]
  exact ⟨k, rfl⟩

theorem eraseEqual_gives (x : α) (w : World α κ) :
    (eraseEqual xs x comp proj).Gives w
      (Separated.ends (fun y => r y x) (fun y => r x y) xs,
        xs.filter fun y => !equivalent r y x) := by
  have hp : Separated (fun y => r y x) (fun y => r x y) xs := h.separated (g := id) hs x
  have hf : xs.filter (fun y => r y x || r x y) = xs.filter fun y => !equivalent r y x := by
    simp [equivalent]
  refine .bind (equalRange_ofList hm hr hg hp w) fun k => .lift (indexOf_ofList hm
    List.countP_le_length) (.lift (indexOf_ofList hm List.countP_le_length) ⟨k, ?_⟩)
  rw [← hf, ← hp.take_append_drop]
  rfl

end Searches

section Remove

variable {t : Predicate κ α} {p : α → Bool}

theorem mapM_answers (ht : Answers t p) (xs : List α) (k : κ) : (xs.mapM t k).1 = xs.map p := by
  induction xs generalizing k with
  | nil => rfl
  | cons x xs ih => rw [mapM_cons_apply, ht, ih, List.map_cons]

/-- The elements with one outcome, if the outcome is told by the element. -/
theorem picked_map (b : Bool) (p : α → Bool) (xs : List α) :
    picked b (xs.map p) xs = xs.filter fun y => p y == b := by
  induction xs with
  | nil => rfl
  | cons x xs ih => rw [List.map_cons, picked_cons, List.filter_cons, ih]

variable [IntCast α] [Inhabited α] {pred : Predicate κ α} {proj : Projection κ α α} {xs : List α}

theorem removeInList_gives (ht : Answers (pred.on proj) p) (hm : (xs.length : Int) ≤ Width.w64.max)
    (w : World α κ) :
    ∃ rest, (removeInList xs pred proj).Gives w
      ((xs.filter fun y => !p y).length, (xs.filter fun y => !p y) ++ rest) := by
  let place := w.store.length
  let v : World α κ := ⟨w.store ++ [xs], w.calls⟩
  have hx : v.store[place]? = some xs := by simp [v, place]
  have hp := presents_ofSource (show (Source.stored place xs.length).Holds v.store xs from
    ⟨hx, rfl⟩) hm
  have hv : v.store[place]? = some ([] ++ xs ++ []) := by
    rwa [List.nil_append, List.append_nil]
  obtain ⟨d, rest, ha, hd, -⟩ := compact_compacts (by rfl) rfl hp.ends hv false pred proj
  have hf : picked false (xs.map p) xs = xs.filter fun y => !p y := by
    simp [picked_map]
  have hc : (xs.map p).count false = (xs.filter fun y => !p y).length := by
    rw [← hf, length_picked false (List.length_map p).symm]
  have hs (ys : List α) : v.store.set place ys = w.store ++ [ys] := by simp [v, place]
  rw [mapM_answers ht, List.nil_append, List.append_nil, hf, hs] at ha
  rw [mapM_answers ht, hc] at hd
  have hl : ((xs.filter fun y => !p y).length : Int) ≤ Width.w64.max :=
    Int.le_trans (Int.ofNat_le.2 (List.length_filter_le _ xs)) hm
  exact ⟨rest, _, Run.withList_ok ((Run.bind_ok ha).trans (Run.lift_ok (indexOf_ofSource hl hd) _))⟩

theorem eraseIf_gives (ht : Answers (pred.on proj) p) (hm : (xs.length : Int) ≤ Width.w64.max)
    (w : World α κ) : (eraseIf xs pred proj).Gives w (xs.filter fun y => !p y) := by
  obtain ⟨rest, hr⟩ := removeInList_gives ht hm w
  refine .bind hr fun k => ?_
  dsimp only
  rw [List.take_left]
  exact ⟨k, rfl⟩

end Remove

/-! ## Runs of changes -/

section Runs

variable [IntCast α] [Inhabited α] {comp : Relation κ α α} {proj : Projection κ α α}
  {r : α → α → Bool} {came xs : List α}

/-- One change keeps the list sorted and takes the classes along. -/
theorem Change.perform_gives (h : StrictWeakOrder r) (hr : ∀ y, Answers (comp y) (r y))
    (hg : Answers proj id) (hk : Kept r came xs) (hm : (came.length : Int) ≤ Width.w64.max)
    (c : Change κ α) (w : World α κ) :
    ∃ ys, (c.perform comp proj xs).Gives w ys ∧ Kept r (c.leaves r came) ys := by
  rw [← (hk.perm h).length_eq] at hm
  cases c with
  | insert x =>
    exact ⟨_, .bind (insertSorted_gives h hr hg hk.ordered hm x w) fun k => ⟨k, rfl⟩,
      hk.insertion h x⟩
  | eraseEqual x =>
    exact ⟨_, .bind (eraseEqual_gives h hr hg hk.ordered hm x w) fun k => ⟨k, rfl⟩, hk.filter _⟩
  | remove pred p hp =>
    exact ⟨_, eraseIf_gives (hp.on hg) hm w, hk.filter _⟩

theorem performAll_gives (h : StrictWeakOrder r) (hr : ∀ y, Answers (comp y) (r y))
    (hg : Answers proj id) (changes : List (Change κ α)) (hk : Kept r came xs)
    (hm : ∀ n, ((survivors r came (changes.take n)).length : Int) ≤ Width.w64.max)
    (w : World α κ) :
    ∃ ys, (performAll comp proj xs changes).Gives w ys ∧ Kept r (survivors r came changes) ys := by
  induction changes generalizing came xs w with
  | nil => exact ⟨xs, ⟨w.calls, rfl⟩, hk⟩
  | cons c changes ih =>
    obtain ⟨ys, ⟨k, hc⟩, hk⟩ := c.perform_gives h hr hg hk (hm 0) w
    obtain ⟨zs, ⟨k', hz⟩, hk⟩ := ih hk (fun n => hm (n + 1)) ⟨w.store, k⟩
    exact ⟨zs, ⟨k', (Run.bind_ok hc).trans hz⟩, hk⟩

/-- A list that is only changed at the bounds of values, from the empty one on, is at any time the
stable sort of the values that are left, taken in the order in which they came, and is searched as
such. It must not grow longer than its positions can be written. -/
theorem performAll_sorts (h : StrictWeakOrder r) (hr : ∀ y, Answers (comp y) (r y))
    (hg : Answers proj id) (changes : List (Change κ α))
    (hm : ∀ n, ((survivors r [] (changes.take n)).length : Int) ≤ Width.w64.max)
    (w : World α κ) :
    let left := survivors r [] changes
    ∃ xs, (performAll comp proj [] changes).Gives w xs ∧ Ordered r xs ∧ xs = stableSort r left ∧
      ∀ (v : α) (w : World α κ),
        let range := Range.ofList xs
        let lower := left.countP fun y => r y v
        let upper := left.countP fun y => !r v y
        (do range.indexOf (← range.lowerBound v comp proj) : Run α κ Nat).Gives w lower ∧
        (do range.indexOf (← range.upperBound v comp proj) : Run α κ Nat).Gives w upper ∧
        (do
          let (c, d) ← range.equalRange v comp proj
          let i ← range.indexOf c
          return (i, ← range.indexOf d) : Run α κ (Nat × Nat)).Gives w (lower, upper) := by
  intro left
  obtain ⟨xs, hx, hk⟩ := performAll_gives h hr hg changes ⟨List.Pairwise.nil, fun _ => rfl⟩ hm w
  have hperm : xs.Perm left := hk.perm h
  have hl : (xs.length : Int) ≤ Width.w64.max := by
    have := hm changes.length
    rw [List.take_length] at this
    rwa [hperm.length_eq]
  have hc (p : α → Bool) : xs.countP p ≤ xs.length := List.countP_le_length
  refine ⟨xs, hx, hk.ordered, hk.eq_stableSort h, fun v w => ?_⟩
  have hs : Separated (fun y => r y v) (fun y => r v y) xs := h.separated (g := id) hk.ordered v
  simp only [← hperm.countP_eq]
  refine ⟨?_, ?_, ?_⟩
  · have ht := (answers_orderedBefore hr v).on hg
    exact .bind (partitionPoint_ofList hl ht hs.before w) fun k =>
      ⟨k, Run.lift_ok (indexOf_ofList hl (hc _)) _⟩
  · have ht := (answers_notOrderedAfter hr v).on hg
    exact .bind (partitionPoint_ofList hl ht hs.notAfter w) fun k =>
      ⟨k, Run.lift_ok (indexOf_ofList hl (hc _)) _⟩
  · exact .bind (equalRange_ofList hl hr hg hs w) fun k =>
      .lift (indexOf_ofList hl (hc _)) (.lift (indexOf_ofList hl (hc _)) ⟨k, rfl⟩)

end Runs

/-- By absolute values: equivalent ones stay in the order in which they came, one class is cut out and
the odd ones are removed. -/
theorem performAll_sorts_magnitudes :
    let r : Int → Int → Bool := fun a b => decide (a.natAbs < b.natAbs)
    let comp : Relation Nat Int Int := fun a b k => (r a b, k + 1)
    let odd : Change Nat Int := .remove (fun a k => (a % 2 == 1, k)) (fun a => a % 2 == 1) fun _ _ => rfl
    let changes : List (Change Nat Int) :=
      [.insert 4, .insert 2, .insert (-6), .insert (-2), .insert 7, .insert 4, .eraseEqual (-4), odd,
        .insert 2]
    let w : World Int Nat := ⟨[], 0⟩
    (performAll comp .identity [] changes).Gives w [2, -2, 2, -6] := by
  intro r comp odd changes w
  have h : StrictWeakOrder r := by
    refine ⟨fun a => ?_, fun a b c => ?_, fun a b c => ?_⟩ <;> simp only [r] <;> grind
  have hr (y : Int) : Answers (comp y) (r y) := fun _ _ => rfl
  have hg : Answers (Projection.identity (κ := Nat)) (id : Int → Int) := fun _ _ => rfl
  have hm : ∀ n, ((survivors r [] (changes.take n)).length : Int) ≤ Width.w64.max := by
    intro n
    have hn := length_survivors_le r [] (changes.take n)
    have ht : (changes.take n).length ≤ 9 := List.length_take_le' n changes
    have := Width.w64.le_max
    rw [List.length_nil] at hn
    omega
  obtain ⟨xs, hx, -, hs, -⟩ := performAll_sorts h hr hg changes hm w
  have hl : survivors r [] changes = [2, -6, -2, 2] := by decide
  have ho : stableSort r [2, -6, -2, 2] = [2, -2, 2, -6] := by
    simp [stableSort, r, List.mergeSort, List.MergeSort.Internal.splitInTwo]
  rwa [hs, hl, ho] at hx

end Waymark
