import Waymark.Rearrange.Partition
import Waymark.Proofs.Kinds
import Waymark.Proofs.Search.Listed
import Waymark.Proofs.Rearrange.Picked
import Waymark.Proofs.Rearrange.Slots

/-!
# Putting elements in front

`compact` on a list: each element is tested once, from the first one on, and the block of refused
elements turns by one whenever an element passes it. The passed elements keep their order and the
refused ones stay (`Listed.compact_spec`). A run over a stored sequence does the same to its slots
(`compact_reads`, `compact_compacts`).
-/

namespace Waymark

variable {α β κ : Type}

namespace Listed

/-- The passed elements of `xs`, and the block behind them, which was `block` before. -/
def fill (kept : Bool) (t : Predicate κ α) : List α → List α → StateM κ (List α × List α)
  | block, [] => return ([], block)
  | block, x :: xs => do
    if (← t x) == kept then
      let r ← fill kept t (block.tail ++ block.take 1) xs
      return (x :: r.1, r.2)
    else fill kept t (block ++ [x]) xs

/-- The passed elements, and the refused ones behind them. -/
def compact (kept : Bool) (t : Predicate κ α) : List α → StateM κ (List α × List α)
  | [] => return ([], [])
  | x :: xs => do
    if (← t x) == !kept then fill kept t [x] xs
    else
      let r ← compact kept t xs
      return (x :: r.1, r.2)

variable (kept : Bool) (t : Predicate κ α)

theorem fill_spec (block xs : List α) (k : κ) :
    (fill kept t block xs k).1.1 = picked kept (xs.mapM t k).1 xs ∧
      (fill kept t block xs k).1.2.Perm (block ++ picked (!kept) (xs.mapM t k).1 xs) ∧
      (fill kept t block xs k).2 = (xs.mapM t k).2 := by
  induction xs generalizing block k with
  | nil => exact ⟨rfl, (List.append_nil block).symm ▸ .refl block, rfl⟩
  | cons x xs ih =>
    rw [fill, callBind_apply, mapM_cons_apply]
    by_cases hb : (t x k).1 = kept
    · obtain ⟨h1, h2, h3⟩ := ih (block.tail ++ block.take 1) (t x k).2
      rw [hb, if_pos (beq_self_eq_true kept), picked_cons_self,
        picked_cons_of_ne (Bool.eq_not_self kept).1]
      have hr : (block.tail ++ block.take 1).Perm block := by
        rw [← List.drop_one]
        exact List.perm_append_comm.trans (.of_eq (List.take_append_drop 1 block))
      exact ⟨congrArg (x :: ·) h1, h2.trans (hr.append_right _), h3⟩
    · have hb : (t x k).1 = !kept := by rwa [Bool.eq_not]
      obtain ⟨h1, h2, h3⟩ := ih (block ++ [x]) (t x k).2
      rw [hb, if_neg (by cases kept <;> decide), picked_cons_self,
        picked_cons_of_ne (Bool.not_eq_self kept).1]
      rw [List.append_assoc] at h2
      exact ⟨h1, h2, h3⟩

theorem compact_spec (xs : List α) (k : κ) :
    (compact kept t xs k).1.1 = picked kept (xs.mapM t k).1 xs ∧
      (compact kept t xs k).1.2.Perm (picked (!kept) (xs.mapM t k).1 xs) ∧
      (compact kept t xs k).2 = (xs.mapM t k).2 := by
  induction xs generalizing k with
  | nil => exact ⟨rfl, .refl _, rfl⟩
  | cons x xs ih =>
    rw [compact, callBind_apply, mapM_cons_apply]
    by_cases hb : (t x k).1 = kept
    · obtain ⟨h1, h2, h3⟩ := ih (t x k).2
      rw [hb, if_neg (by cases kept <;> decide), picked_cons_self,
        picked_cons_of_ne (Bool.eq_not_self kept).1]
      exact ⟨congrArg (x :: ·) h1, h2, h3⟩
    · have hb : (t x k).1 = !kept := by rwa [Bool.eq_not]
      obtain ⟨h1, h2, h3⟩ := fill_spec kept t [x] xs (t x k).2
      rw [hb, if_pos (beq_self_eq_true _), picked_cons_self,
        picked_cons_of_ne (Bool.not_eq_self kept).1]
      exact ⟨h1, h2, h3⟩

end Listed

section Runs

variable [IntCast α] [Inhabited α] {first gap : Cursor α} {last : Bound α} {s : Store α} {k : κ}
  {place : Nat} {pre block xs post : List α} {kept : Bool}

/-- Filling the gap goes on from a step to the next. -/
theorem fillGap_eq (kept : Bool) (gap c : Cursor α) (last : Bound α) (pred : Predicate κ β)
    (proj : Projection κ α β) :
    fillGap kept gap c last pred proj = (do
      if last.isEnd c then return gap
      else if (← c.test pred proj) == kept then
        gap.swap c
        let gap' ← gap.step
        fillGap kept gap' (← c.step) last pred proj
      else fillGap kept gap (← c.step) last pred proj) := by
  rw [fillGap]
  refine ite_congr rfl (fun _ => rfl) fun _ => bind_congr fun b => ?_
  refine ite_congr rfl (fun _ => bind_congr fun _ => bind_congr fun gap' => ?_) fun _ => ?_
  · split <;> rename_i h <;> rw [h] <;> rfl
  · split <;> rename_i h <;> rw [h] <;> rfl

/-- An element at the front that is passed stays where it is. -/
theorem compact_eq (kept : Bool) (first : Cursor α) (last : Bound α) (pred : Predicate κ β)
    (proj : Projection κ α β) :
    compact kept first last pred proj = (do
      if last.isEnd first then return first
      else if (← first.test pred proj) == !kept then
        fillGap kept first (← first.step) last pred proj
      else compact kept (← first.step) last pred proj) := by
  rw [compact, findBy_eq]
  by_cases he : last.isEnd first = true
  · rw [if_pos he, if_pos he, pure_bind, if_pos he]
  · rw [if_neg he, if_neg he, bind_assoc]
    refine bind_congr fun b => ?_
    split
    · rw [pure_bind, if_neg he]
    · rw [bind_assoc]
      rfl

theorem fillGap_reads {n : Nat} (hp : place < s.length)
    (hc : gap.slot? = some (place, pre.length)) (hb : block.length = n + 1)
    (hs : gap.stepTimes (n + 1) = .ok (gap.hop (n + 1)))
    (hl : last.LiesAhead (gap.hop (n + 1)) xs.length) (pred : Predicate κ β)
    (proj : Projection κ α β) :
    let r := Listed.fill kept (pred.on proj) block xs k
    (fillGap kept gap (gap.hop (n + 1)) last pred proj).Reads
      ⟨s.set place (pre ++ (block.map gap.residue ++ (xs ++ post))), k⟩
      ((gap.hop (n + 1)).visits xs) (gap.hop r.1.1.length)
      ⟨s.set place (pre ++ (r.1.1.map gap.residue ++ (r.1.2.map gap.residue ++ post))), r.2⟩ := by
  induction xs generalizing gap pre block n k with
  | nil =>
    rw [fillGap_eq, if_pos (show last.isEnd _ = true from hl)]
    show Run.Reads _ _ [] (gap.hop 0) _
    rw [Cursor.hop_zero]
    exact .pure _ _
  | cons x xs ih =>
    obtain ⟨he, hstep, hl⟩ := Bound.liesAhead_succ_iff.1 hl
    have hx : (gap.hop (n + 1)).slot? =
        some (place, (pre ++ block.map gap.residue).length) := by
      rw [Cursor.slot?_hop hc, List.length_append, List.length_map, hb]
    rw [fillGap_eq, if_neg (ne_true_of_eq_false he), List.cons_append, ← List.append_assoc pre,
      Cursor.visits, Listed.fill, callBind_apply]
    refine .test_slot hp hx ?_
    rw [List.append_assoc, Cursor.residue_hop]
    by_cases hk : (pred.on proj x k).1 = kept
    · -- the passed element goes to the gap, and the first refused one to the end of the block
      obtain ⟨g, block, rfl⟩ := List.exists_cons_of_length_eq_add_one hb
      rw [hk, if_pos (beq_self_eq_true kept), if_pos (beq_self_eq_true kept)]
      have hm : n + 1 = 1 + (block.map gap.residue).length := by
        rw [List.length_map, ← Nat.succ.inj hb, Nat.add_comm]
      have hw := swap_slots hp hc _ (xs ++ post) hm (gap.residue g) (gap.residue x)
        (pred.on proj x k).2
      rw [List.map_cons, List.cons_append]
      refine .swap hw (.lift (Cursor.stepTimes_succ_iff.1 hs).1 (.lift hstep ?_))
      have hh : (gap.hop (n + 1)).hop 1 = (gap.hop 1).hop (n + 1) := by
        rw [Cursor.hop_hop, Cursor.hop_hop, Nat.add_comm]
      rw [hh] at hl ⊢
      have hb' : (block ++ [g]).length = n + 1 := by
        rw [List.length_append]
        exact hb
      have ih := ih (k := (pred.on proj x k).2) (slot?_hop_one hc (gap.residue x)) hb'
        (Cursor.stepTimes_follow hs hstep) hl
      simp only [Cursor.residue_hop, List.map_append, List.append_assoc, List.cons_append,
        List.nil_append, List.map_cons, List.map_nil, Cursor.hop_hop, Nat.add_comm 1] at ih ⊢
      exact ih
    · rw [if_neg fun h => hk (eq_of_beq h), if_neg fun h => hk (eq_of_beq h)]
      refine .lift hstep ?_
      rw [Cursor.hop_hop] at hl ⊢
      have hb' : (block ++ [x]).length = n + 1 + 1 := by
        rw [List.length_append, hb]
        rfl
      have ih := ih (k := (pred.on proj x k).2) hc hb' (Cursor.stepTimes_succ hs hstep) hl
      rw [List.map_append, List.append_assoc] at ih
      exact ih

/-- Each element is read once, from the first one on. What the cursor does not leave in the slots is
compacted as what it leaves there. -/
theorem compact_reads (hp : place < s.length) (hc : first.slot? = some (place, pre.length))
    (hl : last.LiesAhead first xs.length) (post : List α) (kept : Bool) (pred : Predicate κ β)
    (proj : Projection κ α β) :
    let r := Listed.compact kept (pred.on proj) xs k
    (compact kept first last pred proj).Reads ⟨s.set place (pre ++ (xs ++ post)), k⟩
      (first.visits xs) (first.hop r.1.1.length)
      ⟨s.set place (pre ++ (r.1.1.map first.residue ++ (r.1.2.map first.residue ++ post))), r.2⟩ := by
  induction xs generalizing first pre k with
  | nil =>
    rw [compact_eq, if_pos (show last.isEnd _ = true from hl)]
    show Run.Reads _ _ [] (first.hop 0) _
    rw [Cursor.hop_zero]
    exact .pure _ _
  | cons x xs ih =>
    obtain ⟨he, hstep, hl⟩ := Bound.liesAhead_succ_iff.1 hl
    rw [compact_eq, if_neg (ne_true_of_eq_false he), List.cons_append, Cursor.visits,
      Listed.compact, callBind_apply]
    refine .test_slot hp hc ?_
    by_cases hk : (pred.on proj x k).1 = !kept
    · rw [hk, if_pos (beq_self_eq_true _), if_pos (beq_self_eq_true _)]
      have hs : first.stepTimes (0 + 1) = .ok (first.hop (0 + 1)) :=
        Cursor.stepTimes_succ_iff.2 ⟨hstep, rfl⟩
      exact .lift hstep
        (fillGap_reads hp hc (show [x].length = 0 + 1 from rfl) hs hl pred proj)
    · rw [if_neg fun h => hk (eq_of_beq h), if_neg fun h => hk (eq_of_beq h)]
      have ih := ih (k := (pred.on proj x k).2) (slot?_hop_one hc (first.residue x)) hl
      simp only [Cursor.residue_hop, List.append_assoc, List.cons_append, List.nil_append,
        Cursor.hop_hop, Nat.add_comm 1] at ih ⊢
      exact .lift hstep ih

end Runs

/-- The run tests the elements of `xs`, which stand between `pre` and `post` at a place, from the
first one on, puts those whose outcome is `kept` in front, in their order, and the others behind
them. It returns the position between the two, and changes nothing else but the calls. -/
def Compacts (act : Run α κ (Cursor α)) (kept : Bool) (t : Predicate κ α) (w : World α κ)
    (first : Cursor α) (place : Nat) (pre xs post : List α) : Prop :=
  let bs := (xs.mapM t w.calls).1
  ∃ d rest, act w = .ok d
      ⟨w.store.set place (pre ++ picked kept bs xs ++ rest ++ post), (xs.mapM t w.calls).2⟩ ∧
    first.stepTimes (bs.count kept) = .ok d ∧ rest.Perm (picked (!kept) bs xs)

/-- Holds where the predicate does not. -/
def Predicate.negation (pred : Predicate κ β) : Predicate κ β := fun y => do return !(← pred y)

namespace Listed

theorem not_beq_not (a b : Bool) : ((!a) == !b) = (a == b) := by cases a <;> cases b <;> rfl

/-- Filling with what a predicate does not hold of is filling with what its negation holds of. -/
theorem fill_negation (kept : Bool) (pred : Predicate κ β) (proj : Projection κ α β)
    (block xs : List α) (k : κ) :
    fill (!kept) (pred.negation.on proj) block xs k = fill kept (pred.on proj) block xs k := by
  induction xs generalizing block k with
  | nil => rfl
  | cons x xs ih =>
    have hn : pred.negation.on proj x k = (!(pred.on proj x k).1, (pred.on proj x k).2) := rfl
    rw [fill, fill, callBind_apply, callBind_apply, hn, not_beq_not]
    cases (pred.on proj x k).1 == kept with
    | true =>
      rw [if_pos rfl, if_pos rfl, callBind_apply, callBind_apply, ih]
    | false => exact ih _ _

theorem compact_negation (kept : Bool) (pred : Predicate κ β) (proj : Projection κ α β)
    (xs : List α) (k : κ) :
    compact (!kept) (pred.negation.on proj) xs k = compact kept (pred.on proj) xs k := by
  induction xs generalizing k with
  | nil => rfl
  | cons x xs ih =>
    have hn : pred.negation.on proj x k = (!(pred.on proj x k).1, (pred.on proj x k).2) := rfl
    rw [compact, compact, callBind_apply, callBind_apply, hn, not_beq_not]
    cases (pred.on proj x k).1 == !kept with
    | true => exact fill_negation kept pred proj [x] xs _
    | false =>
      rw [if_neg Bool.false_ne_true, if_neg Bool.false_ne_true, callBind_apply, callBind_apply, ih]

end Listed

section Compacts

variable [IntCast α] [Inhabited α] {first : Cursor α} {last : Bound α} {w : World α κ}
  {place : Nat} {pre xs post : List α}

/-- Nothing is taken out of the slots by a cursor that keeps what it reads. -/
theorem compact_runs_of_keeps (hc : first.slot? = some (place, pre.length))
    (hk : first.keeps = true) (hl : last.LiesAhead first xs.length)
    (hw : w.store[place]? = some (pre ++ xs ++ post)) (kept : Bool) (pred : Predicate κ β)
    (proj : Projection κ α β) :
    compact kept first last pred proj w =
      let r := Listed.compact kept (pred.on proj) xs w.calls
      .ok (first.hop r.1.1.length) ⟨w.store.set place (pre ++ (r.1.1 ++ (r.1.2 ++ post))), r.2⟩ := by
  obtain ⟨hp, hw⟩ := set_of_getElem? hw
  have h := (compact_reads (k := w.calls) hp hc hl post kept pred proj).returns
  rw [← List.append_assoc, hw] at h
  dsimp only at h ⊢
  rw [map_residue hk, map_residue hk] at h
  exact h

theorem compact_compacts (hc : first.slot? = some (place, pre.length)) (hk : first.keeps = true)
    (hl : last.LiesAhead first xs.length) (hw : w.store[place]? = some (pre ++ xs ++ post))
    (kept : Bool) (pred : Predicate κ β) (proj : Projection κ α β) :
    Compacts (compact kept first last pred proj) kept (pred.on proj) w first place pre xs post := by
  have h := compact_runs_of_keeps hc hk hl hw kept pred proj
  obtain ⟨h1, h2, h3⟩ := Listed.compact_spec kept (pred.on proj) xs w.calls
  have hn := (length_mapM (pred.on proj) xs w.calls).symm
  have hs : (xs.mapM (pred.on proj) w.calls).1.count kept ≤ xs.length := by
    rw [hn]
    exact List.count_le_length
  dsimp only at h
  rw [h1, h3, length_picked kept hn] at h
  rw [← List.append_assoc, ← List.append_assoc] at h
  exact ⟨_, _, h, Cursor.stepTimes_of_le hl.stepTimes hs, h2⟩

theorem partition_of_forward (hf : first.category = .forward) (pred : Predicate κ β)
    (proj : Projection κ α β) :
    partition first last pred proj = compact true first last pred proj := by
  rw [partition, hf, if_neg (by decide)]

/-- Removing puts the elements that stay in front, and so does partitioning with a cursor that only
goes forward, whatever the predicate remembers. The one does to the store what the other does by the
negated predicate. -/
theorem removeIf_compacts (hc : first.slot? = some (place, pre.length)) (hk : first.keeps = true)
    (hl : last.LiesAhead first xs.length) (hw : w.store[place]? = some (pre ++ xs ++ post))
    (pred : Predicate κ β) (proj : Projection κ α β) :
    Compacts (removeIf first last pred proj) false (pred.on proj) w first place pre xs post ∧
    (first.category = .forward →
      Compacts (partition first last pred proj) true (pred.on proj) w first place pre xs post) ∧
    (∀ c b, c.slot? = first.slot? → c.keeps = true → Bound.LiesAhead b c xs.length →
      c.category = .forward → ∃ d e w', removeIf first last pred proj w = .ok d w' ∧
        partition c b pred.negation proj w = .ok e w') ∧
    (∀ zs, w.store[place]? = some zs → (zs.length : Int) ≤ Width.w64.max →
      let bs := (zs.mapM (pred.on proj) w.calls).1
      ∃ rest, removeIfIn (.stored place zs.length) pred proj w = .ok (bs.count false)
          ⟨w.store.set place (picked false bs zs ++ rest),
            (zs.mapM (pred.on proj) w.calls).2⟩ ∧
        rest.Perm (picked true bs zs)) := by
  refine ⟨compact_compacts hc hk hl hw false pred proj, fun hf => ?_, fun c b hs hk' hl' hf => ?_,
    fun zs hz hm => ?_⟩
  · rw [partition_of_forward hf]
    exact compact_compacts hc hk hl hw true pred proj
  · have h := compact_runs_of_keeps hc hk hl hw false pred proj
    have h' := compact_runs_of_keeps (hs.trans hc) hk' hl' hw true pred.negation proj
    have hn : Listed.compact true (pred.negation.on proj) xs w.calls = _ :=
      Listed.compact_negation false pred proj xs w.calls
    rw [hn] at h'
    rw [partition_of_forward hf]
    exact ⟨_, _, _, h, h'⟩
  · have hp := presents_ofSource (show (Source.stored place zs.length).Holds w.store zs from
      ⟨hz, rfl⟩) hm
    have hw' : w.store[place]? = some ([] ++ zs ++ []) := by
      rwa [List.nil_append, List.append_nil]
    obtain ⟨d, rest, h, hd, hr⟩ := compact_compacts (by rfl) rfl hp.ends hw' false pred proj
    have hn : ((zs.mapM (pred.on proj) w.calls).1.count false : Int) ≤ Width.w64.max := by
      have := List.count_le_length (a := false) (l := (zs.mapM (pred.on proj) w.calls).1)
      rw [length_mapM] at this
      omega
    rw [List.nil_append, List.append_nil] at h
    refine ⟨rest, (Run.bind_ok h).trans ?_, hr⟩
    exact Run.lift_ok (indexOf_ofSource hn hd) _

end Compacts

/-- With a predicate that holds of every second element it is asked about. -/
theorem removeIf_compacts_alternating :
    let w : World Int Nat := ⟨[[0], [1, 2, 3, 4, 5, 6]], 0⟩
    let first : Cursor Int := .forwardOnly (.slice (.stored 1 6) 1)
    let last : Bound Int := .forwardOnly (.cursor (.slice (.stored 1 6) 5))
    let second : Predicate Nat Int := fun _ k => (k % 2 == 1, k + 1)
    (∃ d rest, removeIf first last second .identity w =
        .ok d ⟨[[0], 1 :: 2 :: 4 :: (rest ++ [6])], 4⟩ ∧ rest.Perm [3, 5]) ∧
      (∃ d rest, partition first last second .identity w =
        .ok d ⟨[[0], 1 :: 3 :: 5 :: (rest ++ [6])], 4⟩ ∧ rest.Perm [2, 4]) ∧
      (∃ d e w', removeIf first last second .identity w = .ok d w' ∧
        partition first last second.negation .identity w = .ok e w') ∧
      ∃ rest, removeIfIn (.stored 1 6) second .identity w = .ok 3 ⟨[[0], 1 :: 3 :: 5 :: rest], 6⟩ ∧
        rest.Perm [2, 4, 6] := by
  intro w first last second
  have hh : (Source.stored 1 6).Holds [[(0 : Int)], [1, 2, 3, 4, 5, 6]] [1, 2, 3, 4, 5, 6] :=
    ⟨rfl, rfl⟩
  have hs : Presents [[0], [1, 2, 3, 4, 5, 6]] first last [2, 3, 4, 5] :=
    presents_forwardOnly (presents_slice (p := 1) (q := 5) hh (by decide) (by decide) (by decide))
  obtain ⟨⟨d, rest, h, -, hr⟩, hf, hn, hi⟩ :=
    removeIf_compacts (w := ⟨[[0], [1, 2, 3, 4, 5, 6]], 0⟩) (by rfl) rfl hs.ends
      (show _ = some ([1] ++ [2, 3, 4, 5] ++ [6]) from rfl) second .identity
  obtain ⟨e, rest', h', -, hr'⟩ := hf rfl
  exact ⟨⟨d, rest, h, hr⟩, ⟨e, rest', h', hr'⟩, hn first last rfl rfl hs.ends rfl,
    hi [1, 2, 3, 4, 5, 6] rfl (by decide)⟩

end Waymark
