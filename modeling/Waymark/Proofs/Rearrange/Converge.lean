import Waymark.Rearrange.Partition
import Waymark.Proofs.Kinds
import Waymark.Proofs.Rearrange.Exchange
import Waymark.Proofs.Rearrange.Slots

/-!
# Partitioning from both ends

`converge` on a list gives the outcomes of the tests, in the order of the elements, though they are
made from both ends in turn; each element is tested once (`Listed.converge_tests`). A run over a
stored sequence makes the same tests, reads each slot once for them, and exchanges the elements that
stand on the wrong side (`converge_reads`, `partition_exchanges`).
-/

namespace Waymark

variable {α β γ κ : Type}

namespace Listed

/-- The outcomes of the elements, which are tested from one side until one of them has to go to the
other side, and then from there. -/
def converge (t : Predicate κ α) : Side → List α → StateM κ (List Bool)
  | _, [] => return []
  | .front, x :: xs => do
    if ← t x then
      let bs ← converge t .front xs
      return true :: bs
    else
      let bs ← converge t .back xs
      return false :: bs
  | .back, x :: xs => do
    if ← t ((x :: xs).getLast (List.cons_ne_nil x xs)) then
      let bs ← converge t .front (x :: xs).dropLast
      return bs ++ [true]
    else
      let bs ← converge t .back (x :: xs).dropLast
      return bs ++ [false]
termination_by _ xs => xs.length
decreasing_by all_goals simp

theorem converge_nil (t : Predicate κ α) (side : Side) (k : κ) :
    converge t side [] k = ([], k) := by
  rw [converge]
  rfl

theorem converge_front (t : Predicate κ α) (x : α) (xs : List α) (k : κ) :
    converge t .front (x :: xs) k =
      let r := converge t (if (t x k).1 then .front else .back) xs (t x k).2
      ((t x k).1 :: r.1, r.2) := by
  rw [converge, callBind_apply]
  cases (t x k).1 <;> rfl

theorem converge_back (t : Predicate κ α) (xs : List α) (x : α) (k : κ) :
    converge t .back (xs ++ [x]) k =
      let r := converge t (if (t x k).1 then .front else .back) xs (t x k).2
      (r.1 ++ [(t x k).1], r.2) := by
  obtain ⟨z, zs, h⟩ : ∃ z zs, xs ++ [x] = z :: zs :=
    List.exists_cons_of_ne_nil (List.append_ne_nil_of_right_ne_nil xs (List.cons_ne_nil x []))
  have hg : (z :: zs).getLast (List.cons_ne_nil z zs) = x := by
    simp only [← h, List.getLast_concat]
  have hd : (z :: zs).dropLast = xs := by rw [← h, List.dropLast_concat]
  rw [h, converge, hg, hd, callBind_apply]
  cases (t x k).1 <;> rfl

/-- What holds of no elements, and of more elements if it holds of those that the tests go on with,
holds of all, from either side. -/
theorem side_induction {P : Side → List α → Prop} (nil : ∀ side, P side [])
    (front : ∀ x xs, (∀ side, P side xs) → P .front (x :: xs))
    (back : ∀ xs x, (∀ side, P side xs) → P .back (xs ++ [x])) (side : Side) (xs : List α) :
    P side xs := by
  generalize hn : xs.length = n
  induction n generalizing side xs with
  | zero =>
    obtain rfl := List.eq_nil_of_length_eq_zero hn
    exact nil side
  | succ n ih =>
    cases side with
    | front =>
      obtain ⟨x, xs, rfl⟩ := List.exists_cons_of_length_eq_add_one hn
      exact front x xs fun side => ih side xs (Nat.succ.inj hn)
    | back =>
      obtain ⟨xs, x, rfl, hx⟩ := exists_append_singleton hn
      exact back xs x fun side => ih side xs hx

theorem length_converge (t : Predicate κ α) (side : Side) (xs : List α) (k : κ) :
    (converge t side xs k).1.length = xs.length := by
  induction side, xs using side_induction generalizing k with
  | nil side => rw [converge_nil]; rfl
  | front x xs ih =>
    rw [converge_front]
    exact congrArg (· + 1) (ih _ _)
  | back xs x ih =>
    rw [converge_back, List.length_append, List.length_append, ih]
    rfl

/-- Each element is tested once, and its outcome is put where the element stands. -/
theorem converge_tests (t : Predicate κ α) (side : Side) (xs : List α) (i : Nat) (k : κ) :
    ∃ l : List ((α × Nat) × Bool), l.Perm ((xs.zipIdx i).zip (converge t side xs k).1) ∧
      (l.map fun z => z.1.1).mapM t k = (l.map Prod.snd, (converge t side xs k).2) := by
  induction side, xs using side_induction generalizing i k with
  | nil side =>
    rw [converge_nil]
    exact ⟨[], .refl [], rfl⟩
  | front x xs ih =>
    obtain ⟨l, hl, ht⟩ := ih (if (t x k).1 then .front else .back) (i + 1) (t x k).2
    rw [converge_front]
    refine ⟨((x, i), (t x k).1) :: l, hl.cons _, ?_⟩
    rw [List.map_cons, mapM_cons_apply, ht]
    rfl
  | back xs x ih =>
    obtain ⟨l, hl, ht⟩ := ih (if (t x k).1 then .front else .back) i (t x k).2
    have hz : (xs.zipIdx i).length =
        (converge t (if (t x k).1 then .front else .back) xs (t x k).2).1.length := by
      rw [List.length_zipIdx, length_converge]
    rw [converge_back]
    refine ⟨((x, i + xs.length), (t x k).1) :: l, ?_, ?_⟩
    · rw [List.zipIdx_append]
      dsimp only
      rw [List.zip_append hz]
      exact (hl.cons _).trans (List.perm_append_singleton _ _).symm
    · rw [List.map_cons, mapM_cons_apply, ht]
      rfl

end Listed

/-- The cursor can take `n` steps, and back again. -/
structure Cursor.Passable (c : Cursor α) (n : Nat) : Prop where
  bidirectional : c.category.atLeast .bidirectional = true
  valid : ∀ i ≤ n, (c.hop i).Valid
  step : ∀ i < n, (c.hop i).step = .ok (c.hop (i + 1))

namespace Cursor.Passable

variable {c : Cursor α} {m n : Nat}

theorem mono (h : c.Passable n) (hmn : m ≤ n) : c.Passable m :=
  ⟨h.bidirectional, fun i hi => h.valid i (Nat.le_trans hi hmn),
    fun i hi => h.step i (Nat.lt_of_lt_of_le hi hmn)⟩

theorem hop_one (h : c.Passable (n + 1)) : (c.hop 1).Passable n where
  bidirectional := by rw [category_hop]; exact h.bidirectional
  valid i hi := by
    rw [hop_hop]
    exact h.valid _ (by omega)
  step i hi := by
    rw [hop_hop, hop_hop]
    exact h.step _ (by omega)

theorem step_first (h : c.Passable (n + 1)) : c.step = .ok (c.hop 1) := by
  have := h.step 0 (Nat.succ_pos n)
  rwa [hop_zero] at this

theorem stepTimes (h : c.Passable n) : c.stepTimes n = .ok (c.hop n) := by
  induction n with
  | zero => rw [hop_zero]; rfl
  | succ n ih =>
    refine stepTimes_succ (ih (h.mono (Nat.le_succ n))) ?_
    rw [hop_hop]
    exact h.step n (Nat.lt_succ_self n)

theorem stepBack (h : c.Passable (n + 1)) : (c.hop (n + 1)).stepBack = .ok (c.hop n) :=
  stepBack_of_step (by rw [category_hop]; exact h.bidirectional) (h.valid n (Nat.le_succ n))
    (h.step n (Nat.lt_succ_self n))

theorem same (h : c.Passable n) : c.same (c.hop n) = .ok (decide (n = 0)) :=
  same_hop h.bidirectional h.stepTimes

end Cursor.Passable

theorem Presents.passable [IntCast α] {s : Store α} {c : Cursor α} {b : Bound α} {xs : List α}
    (h : Presents s c b xs) (hb : c.category.atLeast .bidirectional = true) :
    c.Passable xs.length :=
  ⟨hb, fun _ hi => h.shows.valid_hop hi, fun _ hi => h.shows.step hi⟩

/-- The number of refused elements that wait at the front for one to be exchanged with. -/
def Side.waiting : Side → Nat
  | .front => 0
  | .back => 1

section Runs

variable [IntCast α] [Inhabited α] {first : Cursor α} {last : Bound α} {s : Store α} {k : κ}
  {place : Nat} {pre held xs post : List α}

/-- From one test to the next. -/
theorem converge_eq (side : Side) (first last : Cursor α) (pred : Predicate κ β)
    (proj : Projection κ α β) :
    converge side first last pred proj = (do
      if ← first.same last then return first
      else match side with
        | .front =>
          if ← first.test pred proj then converge .front (← first.step) last pred proj
          else converge .back first (← last.stepBack) pred proj
        | .back =>
          if ← last.test pred proj then
            first.swap last
            converge .front (← first.step) last pred proj
          else converge .back first (← last.stepBack) pred proj) := by
  rw [converge.eq_def]
  refine bind_congr fun b => ite_congr rfl (fun _ => rfl) fun _ => ?_
  cases side with
  | front =>
    refine bind_congr fun b => ite_congr rfl (fun _ => ?_) fun _ => ?_
    · split <;> rename_i h <;> rw [h] <;> rfl
    · split <;> rename_i h <;> rw [h] <;> rfl
  | back =>
    refine bind_congr fun b => ite_congr rfl (fun _ => bind_congr fun _ => ?_) fun _ => ?_
    · split <;> rename_i h <;> rw [h] <;> rfl
    · split <;> rename_i h <;> rw [h] <;> rfl

section Steps

variable {stop d : Cursor α} {side : Side} {w v : World α κ} {x : α} {zs : List α} {b : Bool}
  {rs : List (Cursor α × α)} {pred : Predicate κ β} {proj : Projection κ α β}

theorem converge_done (hs : first.same stop = .ok true) :
    (converge side first stop pred proj).Reads w [] first w := by
  rw [converge_eq]
  exact .lift hs (.pure first w)

/-- The element at the front, which stands behind those of `pre`, is tested. -/
theorem converge_from_front (hs : first.same stop = .ok false) (hp : place < s.length)
    (hc : first.slot? = some (place, pre.length)) (hb : (pred.on proj x k).1 = b)
    (h : (if b then (do converge .front (← first.step) stop pred proj)
        else (do converge .back first (← stop.stepBack) pred proj) : Run α κ (Cursor α)).Reads
      ⟨s.set place (pre ++ first.residue x :: zs), (pred.on proj x k).2⟩ rs d v) :
    (converge .front first stop pred proj).Reads ⟨s.set place (pre ++ x :: zs), k⟩
      ((first, x) :: rs) d v := by
  subst hb
  rw [converge_eq]
  exact .lift hs (.test_slot hp hc h)

/-- The element at the end, which stands behind those of `pre`, is tested. -/
theorem converge_from_back (hs : first.same stop = .ok false) (hp : place < s.length)
    (hc : stop.slot? = some (place, pre.length)) (hb : (pred.on proj x k).1 = b)
    (h : (if b then (do
          first.swap stop
          converge .front (← first.step) stop pred proj)
        else (do converge .back first (← stop.stepBack) pred proj) : Run α κ (Cursor α)).Reads
      ⟨s.set place (pre ++ stop.residue x :: zs), (pred.on proj x k).2⟩ rs d v) :
    (converge .back first stop pred proj).Reads ⟨s.set place (pre ++ x :: zs), k⟩
      ((stop, x) :: rs) d v := by
  subst hb
  rw [converge_eq]
  exact .lift hs (.test_slot hp hc h)

end Steps

/-- From either side, a run over slots does what `Listed.converge` tells and exchanges what stands on
the wrong side. `held` is the refused element at the front, if one waits there. The others are read,
each of them once. -/
theorem converge_reads (hp : place < s.length) (hc : first.slot? = some (place, pre.length))
    (side : Side) (hh : held.length = side.waiting) (hn : first.Passable (xs.length + held.length))
    (post : List α) (pred : Predicate κ β) (proj : Projection κ α β) :
    let r := Listed.converge (pred.on proj) side xs k
    let bs := held.map (fun _ => false) ++ r.1
    ∃ rs, (converge side first (first.hop xs.length) pred proj).Reads
        ⟨s.set place (pre ++ (held.map first.residue ++ (xs ++ post))), k⟩ rs
        (first.hop (bs.count true))
        ⟨s.set place (pre ++ ((exchanged bs (held ++ xs)).map first.residue ++ post)), r.2⟩ ∧
      rs.Perm ((first.hop held.length).visits xs) := by
  induction side, xs using Listed.side_induction generalizing first pre held post k with
  | nil side =>
    have hs : first.same (first.hop 0) = .ok true := (hn.mono (Nat.zero_le _)).same
    refine ⟨[], ?_, .refl []⟩
    rw [List.length_nil, Listed.converge_nil]
    cases side with
    | front =>
      obtain rfl := List.eq_nil_of_length_eq_zero hh
      show Run.Reads _ _ [] (first.hop 0) _
      rw [Cursor.hop_zero] at hs ⊢
      exact converge_done hs
    | back =>
      obtain ⟨x, rfl⟩ := List.length_eq_one_iff.1 hh
      show Run.Reads _ _ [] (first.hop 0) _
      rw [Cursor.hop_zero] at hs ⊢
      exact converge_done hs
  | front x xs ih =>
    obtain rfl := List.eq_nil_of_length_eq_zero hh
    have hn : first.Passable (xs.length + 1) := hn
    rw [Listed.converge_front, List.length_nil, Cursor.hop_zero, Cursor.visits]
    cases hb : (pred.on proj x k).1 with
    | true =>
      obtain ⟨rs, hr, hrs⟩ := ih .front (k := (pred.on proj x k).2)
        (slot?_hop_one hc (first.residue x)) (show ([] : List α).length = _ from rfl) hn.hop_one post
      simp only [List.map_nil, List.nil_append, Cursor.hop_hop, Nat.add_comm 1, Cursor.residue_hop,
        List.append_assoc, List.singleton_append] at hr
      rw [List.length_nil, Cursor.hop_zero] at hrs
      refine ⟨(first, x) :: rs, converge_from_front hn.same hp hc hb ?_, hrs.cons _⟩
      refine .lift hn.step_first ?_
      dsimp only
      rw [if_pos rfl, List.map_nil, List.nil_append, List.nil_append, exchanged_cons_true,
        List.count_cons_self, List.map_cons, List.cons_append]
      exact hr
    | false =>
      -- the refused element stays at the front and waits
      obtain ⟨rs, hr, hrs⟩ := ih .back (k := (pred.on proj x k).2) hc
        (show [x].length = _ from rfl) hn post
      exact ⟨(first, x) :: rs, converge_from_front hn.same hp hc hb (.lift hn.stepBack hr),
        hrs.cons _⟩
  | back xs y ih =>
    obtain ⟨x, rfl⟩ := List.length_eq_one_iff.1 hh
    rw [List.length_append] at hn ⊢
    have hn : first.Passable (xs.length + 1 + 1) := hn
    have hs : (first.hop (xs.length + 1)).slot? =
        some (place, (pre ++ first.residue x :: xs).length) := by
      rw [Cursor.slot?_hop hc, List.length_append]
      rfl
    have hl (side : Side) :=
      Listed.length_converge (pred.on proj) side xs (pred.on proj y k).2
    -- what is tested stands behind what is held and all that is left
    have hw : pre ++ ([x].map first.residue ++ (xs ++ [y] ++ post)) =
        (pre ++ first.residue x :: xs) ++ y :: post := by simp
    have hv : ((first.hop (xs.length + 1), y) :: (first.hop 1).visits xs).Perm
        ((first.hop [x].length).visits (xs ++ [y])) := by
      rw [List.length_singleton, Cursor.visits_append, Cursor.hop_hop, Nat.add_comm 1]
      exact (List.perm_append_singleton _ _).symm
    rw [Listed.converge_back, hw]
    cases hb : (pred.on proj y k).1 with
    | true =>
      -- the one that waits goes to the end, behind all that are left
      have hx := swap_slots hp hc xs post (Nat.add_comm xs.length 1) (first.residue x)
        (first.residue y) (pred.on proj y k).2
      obtain ⟨rs, hr, hrs⟩ := ih .front (k := (pred.on proj y k).2)
        (slot?_hop_one hc (first.residue y)) (show ([] : List α).length = _ from rfl)
        (hn.mono (Nat.le_succ _)).hop_one (first.residue x :: post)
      simp only [List.map_nil, List.nil_append, Cursor.hop_hop, Nat.add_comm 1, Cursor.residue_hop,
        List.append_assoc, List.singleton_append] at hr
      rw [List.length_nil, Cursor.hop_zero] at hrs
      refine ⟨_ :: rs, converge_from_back (hn.mono (Nat.le_succ _)).same hp hs hb ?_,
        (hrs.cons _).trans hv⟩
      rw [List.append_assoc, List.cons_append, Cursor.residue_hop]
      refine .swap hx (.lift hn.step_first ?_)
      dsimp only
      rw [if_pos rfl, List.map_singleton, List.singleton_append, List.singleton_append,
        exchanged_ends (hl .front).symm, count_ends, List.map_cons, List.map_append,
        List.cons_append, List.append_assoc]
      exact hr
    | false =>
      obtain ⟨rs, hr, hrs⟩ := ih .back (k := (pred.on proj y k).2) hc
        (show [x].length = _ from rfl) (hn.mono (Nat.le_succ _)) (first.residue y :: post)
      have hx : (x :: xs).length = (false ::
          (Listed.converge (pred.on proj) .back xs (pred.on proj y k).2).1).length := by
        rw [List.length_cons, List.length_cons, hl]
      have he := exchanged_append_false hx y
      have hcount := count_append_false (false ::
        (Listed.converge (pred.on proj) .back xs (pred.on proj y k).2).1)
      simp only [List.cons_append] at he hcount
      refine ⟨_ :: rs, converge_from_back (hn.mono (Nat.le_succ _)).same hp hs hb ?_,
        (hrs.cons _).trans hv⟩
      rw [List.append_assoc, List.cons_append, Cursor.residue_hop]
      refine .lift (hn.mono (Nat.le_succ _)).stepBack ?_
      dsimp only
      rw [if_neg Bool.false_ne_true, List.map_singleton, List.singleton_append,
        List.singleton_append, he, hcount, List.map_append, List.append_assoc]
      exact hr

end Runs

/-- The tests `t` of the elements of `xs`, which stand between `pre` and `post` at a place, and the
exchanges that follow from the outcomes `bs`, lead from one world to the other. -/
structure Exchanges (t : Predicate κ α) (w w' : World α κ) (place : Nat) (pre xs post : List α)
    (bs : List Bool) : Prop where
  /-- Each element is tested once, as it is before. -/
  tests : ∃ l : List ((α × Nat) × Bool), l.Perm (xs.zipIdx.zip bs) ∧
    (l.map fun z => z.1.1).mapM t w.calls = (l.map Prod.snd, w'.calls)
  outcomes : bs.length = xs.length
  store : w'.store = w.store.set place (pre ++ exchanged bs xs ++ post)
  /-- As many elements are exchanged from the one side as from the other. -/
  even : (refused bs).length = (accepted bs).length
  pairs : ∀ z ∈ (refused bs).zip (accepted bs),
    (exchanged bs xs)[z.1]? = xs[z.2]? ∧ (exchanged bs xs)[z.2]? = xs[z.1]?
  others : ∀ i, i ∉ refused bs → i ∉ accepted bs → (exchanged bs xs)[i]? = xs[i]?
  front : ((exchanged bs xs).take (bs.count true)).Perm (picked true bs xs)
  back : ((exchanged bs xs).drop (bs.count true)).Perm (picked false bs xs)
  settled : Partitioned id bs → w'.store = w.store

theorem converge_exchanges {w : World α κ} {place : Nat} {pre xs post : List α}
    (hw : w.store[place]? = some (pre ++ xs ++ post)) (t : Predicate κ α) :
    let r := Listed.converge t .front xs w.calls
    Exchanges t w ⟨w.store.set place (pre ++ exchanged r.1 xs ++ post), r.2⟩ place pre xs post r.1 := by
  have hl := (Listed.length_converge t .front xs w.calls).symm
  exact {
    tests := Listed.converge_tests t .front xs 0 w.calls
    outcomes := hl.symm
    store := rfl
    even := length_refused _
    pairs := exchanged_pair hl
    others := fun _ hr ha => getElem?_exchanged hr ha xs
    front := take_exchanged hl
    back := drop_exchanged hl
    settled := fun h => by
      dsimp only
      rw [exchanged_of_partitioned h]
      exact (set_of_getElem? hw).2 }

section Partition

variable [IntCast α] [Inhabited α] {first : Cursor α} {last : Bound α} {w : World α κ}
  {place : Nat} {pre xs post : List α}

/-- Up to any bound, with a cursor of any kind. What it does not leave in the slots is exchanged as
what it leaves there. -/
theorem partition_reads (h : Presents w.store first last xs)
    (hn : last.sized = true → first.width.Fits xs.length)
    (hb : first.category.atLeast .bidirectional = true)
    (hc : first.slot? = some (place, pre.length))
    (hw : w.store[place]? = some (pre ++ xs ++ post)) (pred : Predicate κ β)
    (proj : Projection κ α β) :
    let r := Listed.converge (pred.on proj) .front xs w.calls
    ∃ rs, (partition first last pred proj).Reads w rs (first.hop (r.1.count true))
        ⟨w.store.set place (pre ++ (exchanged r.1 xs).map first.residue ++ post), r.2⟩ ∧
      rs.Perm (first.visits xs) := by
  obtain ⟨hp, hs⟩ := set_of_getElem? hw
  obtain ⟨rs, hr, hrs⟩ := converge_reads (k := w.calls) hp hc .front
    (show ([] : List α).length = _ from rfl) (h.passable hb) post pred proj
  simp only [List.map_nil, List.nil_append, ← List.append_assoc] at hr
  rw [hs] at hr
  rw [List.length_nil, Cursor.hop_zero] at hrs
  rw [partition, if_pos hb, partitionConverging]
  exact ⟨rs, .lift (h.reach hn) hr, hrs⟩

/-- With a cursor that leaves what it reads. -/
theorem partition_runs (h : Presents w.store first last xs)
    (hn : last.sized = true → first.width.Fits xs.length)
    (hb : first.category.atLeast .bidirectional = true)
    (hc : first.slot? = some (place, pre.length)) (hk : first.keeps = true)
    (hw : w.store[place]? = some (pre ++ xs ++ post)) (pred : Predicate κ β)
    (proj : Projection κ α β) :
    partition first last pred proj w =
      let r := Listed.converge (pred.on proj) .front xs w.calls
      .ok (first.hop (r.1.count true))
        ⟨w.store.set place (pre ++ exchanged r.1 xs ++ post), r.2⟩ := by
  obtain ⟨rs, hr, -⟩ := partition_reads h hn hb hc hw pred proj
  rw [map_residue hk] at hr
  exact hr.returns

/-- Partitioning from both ends tests each element once and exchanges those on the wrong side, pair
by pair, whatever the predicate remembers. It does not matter how the end is given. -/
theorem partition_exchanges (hw : w.store[place]? = some (pre ++ xs ++ post))
    (hm : ((pre ++ xs ++ post).length : Int) ≤ Width.w64.max) (pred : Predicate κ β)
    (proj : Projection κ α β) :
    let src : Source α := .stored place (pre ++ xs ++ post).length
    ∃ bs w', Exchanges (pred.on proj) w w' place pre xs post bs ∧
      (∀ t, partition (.slice src pre.length) (.cursor (.slice t (pre.length + xs.length))) pred
        proj w = .ok (.slice src (pre.length + bs.count true)) w') ∧
      partition (.counted (.slice src pre.length) xs.length) .countEnd pred proj w =
        .ok (.counted (.slice src (pre.length + bs.count true)) (xs.length - bs.count true)) w' ∧
      (pre = [] → post = [] → partitionIn src pred proj w = .ok (bs.count true) w') := by
  intro src
  have h (t : Source α) : Presents w.store (.slice src pre.length)
      (.cursor (.slice t (pre.length + xs.length))) xs :=
    presents_middle (show src.Holds w.store _ from ⟨hw, rfl⟩) hm
  have hn : Width.w64.Fits xs.length := by
    have := Width.min_eq .w64
    rw [List.length_append, List.length_append] at hm
    exact ⟨by omega, by omega⟩
  have hr (t : Source α) := partition_runs (h t) (fun _ => hn) (by rfl) rfl rfl hw pred proj
  refine ⟨_, _, converge_exchanges hw (pred.on proj), hr, ?_, ?_⟩
  · exact partition_runs (presents_counted (h src).shows hn) (fun _ => hn) (by rfl) rfl rfl hw pred
      proj
  · rintro rfl rfl
    have hl := Listed.length_converge (pred.on proj) .front xs w.calls
    have hc := count_true_le (Listed.converge (pred.on proj) .front xs w.calls).1
    rw [hl] at hc
    have hs : src.length = 0 + xs.length := by
      show ([] ++ xs ++ []).length = _
      rw [List.append_nil, List.nil_append, Nat.zero_add]
    rw [partitionIn, Range.ofSource, hs]
    refine (Run.bind_ok (hr src)).trans (Run.lift_ok (indexOf_ofSource ?_ ?_) _)
    · exact Int.le_trans (Int.ofNat_le.2 hc) hn.2
    · exact Cursor.stepTimes_of_le (h src).shows.stepTimes hc

end Partition

/-- A predicate that holds of every second element it is asked about holds of two out of four, in
whichever order it is asked. -/
theorem partition_exchanges_alternating :
    let w : World Int Nat := ⟨[[0], [1, 2, 3, 4]], 0⟩
    let src : Source Int := .stored 1 4
    let second : Predicate Nat Int := fun _ k => (k % 2 == 1, k + 1)
    ∃ bs w', Exchanges second w w' 1 [] [1, 2, 3, 4] [] bs ∧
      partition (.slice src 0) (.cursor (.slice src 4)) second .identity w =
        .ok (.slice src 2) w' ∧
      partition (.counted (.slice src 0) 4) .countEnd second .identity w =
        .ok (.counted (.slice src 2) 2) w' ∧
      partitionIn src second .identity w = .ok 2 w' := by
  intro w src second
  obtain ⟨bs, w', h, h1, h2, h3⟩ := partition_exchanges (w := ⟨[[0], [1, 2, 3, 4]], 0⟩)
    (show [[(0 : Int)], [1, 2, 3, 4]][1]? = some ([] ++ [1, 2, 3, 4] ++ []) from rfl) (by decide)
    second .identity
  obtain ⟨l, hl, ht⟩ := h.tests
  have hs : (l.map Prod.snd).Perm bs := by
    have := hl.map Prod.snd
    rwa [List.map_snd_zip (by rw [h.outcomes]; decide)] at this
  have hb : bs.count true = 2 := by
    have hn : l.length = 4 := by rw [← List.length_map Prod.snd, hs.length_eq, h.outcomes]; rfl
    obtain ⟨a, b, c, d, rfl⟩ : ∃ a b c d, l = [a, b, c, d] := by
      match l, hn with
      | [a, b, c, d], _ => exact ⟨a, b, c, d, rfl⟩
    have ht : [false, true, false, true] = [a, b, c, d].map Prod.snd := congrArg Prod.fst ht
    rw [← hs.count_eq true, ← ht]
    rfl
  rw [hb] at h1 h2 h3
  exact ⟨bs, w', h, h1 src, h2, h3 rfl rfl⟩

end Waymark
