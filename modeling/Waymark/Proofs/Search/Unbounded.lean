import Waymark.Proofs.Search.Probes

/-!
# Probing the integers of a width

Where integers go on without a bound, a search by probes comes to the value if its last probe, the
first one that is not before the value (`LastProbe`), is at an integer that can be written. The probes
overshoot: if that integer is too large, the search stops at an overflow, although the value and the
integer behind it could be written (`equalRange_unbounded`).
-/

namespace Waymark

variable {α β γ δ κ : Type}

/-! ## Results -/

namespace Run

variable {act : Run α κ γ} {w : World α κ}

theorem result_lift (x : Except Fault γ) (w : World α κ) : (liftM x : Run α κ γ).result w = x := by
  cases x <;> rfl

/-- Whatever world an action leaves, the rest goes on from its value. -/
theorem result_bind {b : γ} {f : γ → Run α κ δ} {x : Except Fault δ} (h : act.result w = .ok b)
    (hf : ∀ w', (f b).result w' = x) : (act >>= f).result w = x := by
  obtain ⟨w', hw⟩ := result_eq_ok_iff.1 h
  rw [← hf w', result, result, bind_ok hw]

theorem result_bind_error {e : Fault} (h : act.result w = .error e) (f : γ → Run α κ δ) :
    (act >>= f).result w = .error e := by
  unfold result at h
  split at h <;> cases h
  rename_i hw
  rw [result, bind_error hw]

/-- A callable that answers in one way only. -/
theorem result_call {f : δ → StateM κ γ} {g : δ → γ} (h : Answers f g) (x : δ) (w : World α κ) :
    (liftM (f x) : Run α κ γ).result w = .ok (g x) :=
  result_eq_ok_iff.2 ⟨_, (call_apply (f x) w).trans (by rw [h])⟩

theorem Reaches.result {act : Run α κ (Cursor α)} {c : Cursor α} {n : Nat}
    (h : act.Reaches w c n) : act.result w = .ok (c.hop n) := by
  obtain ⟨d, w', ha, hd⟩ := h
  obtain rfl := Cursor.stepTimes_eq_hop hd
  exact result_eq_ok_iff.2 ⟨w', ha⟩

theorem ReachesBoth.result {act : Run α κ (Cursor α × Cursor α)} {c : Cursor α} {l u : Nat}
    (h : act.ReachesBoth w c l u) : act.result w = .ok (c.hop l, c.hop u) := by
  obtain ⟨d, e, w', ha, hd, he⟩ := h
  obtain rfl := Cursor.stepTimes_eq_hop hd
  obtain rfl := Cursor.stepTimes_eq_hop he
  exact result_eq_ok_iff.2 ⟨w', ha⟩

section Read

variable [IntCast α] [Inhabited α] {c : Cursor α} {x : α} {proj : Projection κ α β}

theorem result_project {g : α → β} (hg : Answers proj g) (hx : c.look w.store = some x) :
    (c.project proj).result w = .ok (g x) :=
  result_eq_ok_iff.2 ⟨_, (Cursor.project_eq hx proj).trans (by rw [hg])⟩

theorem result_test {pred : Predicate κ β} {p : α → Bool} (ht : Answers (pred.on proj) p)
    (hx : c.look w.store = some x) : (c.test pred proj).result w = .ok (p x) :=
  result_eq_ok_iff.2 ⟨_, (Cursor.test_eq hx pred proj).trans (by rw [ht])⟩

end Read

end Run

/-! ## Positions -/

section Positions

variable {v : Width} {x : Int}

/-- Steps towards no bound go on as long as positions can be written. -/
theorem stepTowards_iota (h : v.Fits x) (n : Nat) :
    Bound.unreachable.stepTowards n (.iota v x : Cursor α) =
      if x + n ≤ v.max then .ok (0, .iota v (x + n)) else .error .addOverflow := by
  induction n generalizing x with
  | zero =>
    rw [if_pos (by have := h.2; omega), Int.natCast_zero, Int.add_zero]
    rfl
  | succ n ih =>
    have hstep : Bound.unreachable.stepTowards (n + 1) (.iota v x : Cursor α) = (do
      Bound.unreachable.stepTowards n (.iota v (← v.add x 1))) := by
      show ((do return Cursor.iota v (← v.add x 1)) >>= _) = _
      rw [bind_assoc]
      rfl
    rw [hstep, Width.add]
    by_cases hx : x + 1 ≤ v.max
    · have hf : v.Fits (x + 1) := ⟨by have := h.1; omega, hx⟩
      rw [if_pos hf, ok_bind, ih hf, show x + 1 + n = x + (n + 1 : Nat) by omega]
    · rw [if_neg fun hf => hx hf.2, if_neg (by omega)]
      rfl

theorem advance_iota (h : v.Fits x) (n : Nat) :
    Bound.unreachable.advance (.iota v x : Cursor α) n =
      if x + n ≤ v.max then .ok (0, .iota v (x + n)) else .error .addOverflow := by
  have hm : Bound.unreachable.measure (.iota v x : Cursor α) = .ok none := rfl
  rw [Bound.advance, if_neg (by omega), hm, ok_bind]
  simp only []
  rw [Int.toNat_natCast, stepTowards_iota h]
  split <;> rfl

end Positions

/-! ## Searches on integers -/

theorem countP_range_lt (m n : Nat) : (List.range n).countP (fun i => decide (i < m)) = min m n := by
  induction n with
  | zero => rw [Nat.min_zero]; rfl
  | succ n ih =>
    rw [List.range_succ, List.countP_append, ih, List.countP_singleton]
    simp only [decide_eq_true_eq]
    split <;> omega

/-- The `n` integers from `x` on. -/
def integers (x : Int) (n : Nat) : List Int := (List.range n).map fun i : Nat => ((x + i : Int) : Int)

theorem length_integers (x : Int) (n : Nat) : (integers x n).length = n := by
  rw [integers, List.length_map, List.length_range]

theorem integers_separated (x value : Int) (n : Nat) :
    Separated (fun y => decide (id y < value)) (fun y => decide (value < id y)) (integers x n) := by
  refine strictWeakOrder_lt.separated (g := id) ?_ value
  rw [integers, List.pairwise_map]
  refine List.pairwise_lt_range.imp fun {i j} hij => decide_eq_false ?_
  show ¬ x + j < x + i
  omega

theorem countP_integers_lt (x value : Int) (n : Nat) :
    (integers x n).countP (fun y => decide (id y < value)) = min (value - x).toNat n := by
  rw [integers, List.countP_map, ← countP_range_lt]
  refine List.countP_congr fun i _ => ?_
  show decide (x + i < value) = true ↔ _
  simp only [decide_eq_true_eq]
  omega

theorem countP_integers_le (x value : Int) (n : Nat) :
    (integers x n).countP (fun y => !decide (value < id y)) = min (value + 1 - x).toNat n := by
  rw [← countP_integers_lt]
  refine List.countP_congr fun y _ => ?_
  simp only [Bool.not_eq_true', decide_eq_false_iff_not, decide_eq_true_eq]
  omega

section Search

variable {v : Width} {x value : Int} {comp : Relation κ Int Int} {proj : Projection κ Int Int}
  (hr : ∀ y, Answers (comp y) fun x => decide (y < x)) (hg : Answers proj id) {w : World Int κ}

include hr hg

/-- Integers on both sides of the value are bisected. -/
theorem equalRangeN_integers {n : Nat} (hx : v.Fits x) (hn : x + n ≤ v.max) (hv : x ≤ value)
    (hvn : value < x + n) :
    (equalRangeN (.iota v x) n value comp proj).result w =
      .ok (.iota v value, .iota v (value + 1)) := by
  have hy : v.Fits (x + n) := ⟨by have := hx.1; omega, hn⟩
  have hs : Cursor.Shows w.store (.iota v x) (integers x n) := (presents_iota hx hy).shows
  have h := equalRangeN_reaches hs hr hg (integers_separated x value n)
  rw [length_integers, countP_integers_lt, countP_integers_le] at h
  rw [h.result, Cursor.hop, Cursor.hop, show x + (min (value - x).toNat n : Nat) = value by omega,
    show x + (min (value + 1 - x).toNat n : Nat) = value + 1 by omega]

/-- Integers before the value are bisected to their end. -/
theorem lowerBoundN_integers {n : Nat} (hx : v.Fits x) (hv : v.Fits value) (hn : x + n = value) :
    (lowerBoundN (.iota v x) n value comp proj).result w = .ok (.iota v value) := by
  have hs : Cursor.Shows w.store (.iota v x) (integers x n) := (presents_iota hx (hn ▸ hv)).shows
  have h := partitionPointN_reaches hs ((answers_orderedBefore hr value).on hg)
    (integers_separated x value n).before
  rw [length_integers, countP_integers_lt] at h
  rw [lowerBoundN, h.result, Cursor.hop, show x + (min (value - x).toNat n : Nat) = value by omega]

/-- From the value on, two integers are looked at. -/
theorem upperBound_iota (hv : v.Fits value) (hlt : value < v.max) :
    (upperBound (.iota v value) .unreachable value comp proj).result w =
      .ok (.iota v (value + 1)) := by
  have ht := (answers_notOrderedAfter hr value).on hg
  have htest {y : Int} {b : Bool} (hb : decide (value < y) = b) (w : World Int κ) :
      ((Cursor.iota v y).test (notOrderedAfter value comp) proj).result w = .ok !b :=
    hb ▸ Run.result_test ht rfl
  have hstep : (Cursor.iota v value : Cursor Int).step = .ok (.iota v (value + 1)) := by
    have ha : v.add value 1 = .ok (value + 1) :=
      Width.add_eq_ok_iff.2 ⟨⟨by have := hv.1; omega, hlt⟩, rfl⟩
    rw [Cursor.step, ha]
    rfl
  refine Run.result_bind (Run.result_lift _ w) fun w => ?_
  show (findBy false (.iota v value) .unreachable (notOrderedAfter value comp) proj).result w = _
  rw [findBy_eq]
  refine Run.result_bind (htest (decide_eq_false (Int.lt_irrefl value)) w) fun w => ?_
  rw [if_neg (by decide)]
  refine Run.result_bind ((Run.result_lift _ w).trans hstep) fun w => ?_
  rw [findBy_eq]
  refine Run.result_bind (htest (decide_eq_true (Int.lt_succ value)) w) fun w => ?_
  rw [if_pos (by decide)]
  rfl

/-! ## Probes -/

omit hr in
theorem project_iota : ((Cursor.iota v x : Cursor Int).project proj).result w = .ok x :=
  Run.result_project hg rfl

omit hg in
theorem compare_result {a b : Int} {t : Bool} (h : decide (a < b) = t) :
    (liftM (comp a b) : Run Int κ Bool).result w = .ok t :=
  (Run.result_call (hr a) b w).trans (congrArg Except.ok h)

omit hr hg in
/-- A probe beyond what can be written is an overflow. -/
theorem probe_beyond {d : Nat} (hx : v.Fits x) (hd : v.max < x + d) :
    (probe d (.iota v x) .unreachable value comp proj).result w = .error .addOverflow := by
  have ha := advance_iota (α := Int) hx d
  rw [if_neg (by omega)] at ha
  rw [probe_eq]
  exact Run.result_bind_error ((Run.result_lift _ w).trans ha) _

/-- A probe before the value is followed by the next one. -/
theorem probe_before {d : Nat} {r : Except Fault (Cursor Int × Cursor Int)} (hx : v.Fits x)
    (hd : x + d < value) (hv : value < v.max)
    (h : ∀ w : World Int κ, (probe (v.double d) (.iota v (x + d + 1)) .unreachable value comp
      proj).result w = r) :
    (probe d (.iota v x) .unreachable value comp proj).result w = r := by
  have ha := advance_iota (α := Int) hx d
  rw [if_pos (by omega)] at ha
  have hstep : (Cursor.iota v (x + d) : Cursor Int).step = .ok (.iota v (x + d + 1)) := by
    have ha : v.add (x + d) 1 = .ok (x + d + 1) :=
      Width.add_eq_ok_iff.2 ⟨⟨by have := hx.1; omega, by omega⟩, rfl⟩
    rw [Cursor.step, ha]
    rfl
  rw [probe_within ⟨ha, rfl⟩]
  refine Run.result_bind (project_iota hg) fun w => ?_
  refine Run.result_bind (compare_result hr (decide_eq_false (by omega))) fun w => ?_
  rw [if_neg Bool.false_ne_true]
  refine Run.result_bind (compare_result hr (decide_eq_true hd)) fun w => ?_
  rw [if_pos rfl]
  exact Run.result_bind ((Run.result_lift _ w).trans hstep) h

/-- The first probe that is not before the value ends the search. -/
theorem probe_last {d : Nat} (hx : v.Fits x) (hd : x + d ≤ v.max) (hxv : x ≤ value)
    (hvd : value ≤ x + d) (hv : value < v.max) :
    (probe d (.iota v x) .unreachable value comp proj).result w =
      .ok (.iota v value, .iota v (value + 1)) := by
  have ha := advance_iota (α := Int) hx d
  rw [if_pos hd] at ha
  rw [probe_within ⟨ha, rfl⟩]
  refine Run.result_bind (project_iota hg) fun w => ?_
  by_cases hlt : value < x + d
  · refine Run.result_bind (compare_result hr (decide_eq_true hlt)) fun w => ?_
    rw [if_pos rfl]
    exact equalRangeN_integers hr hg hx hd hxv hlt
  · have hf : v.Fits value := ⟨by have := hx.1; omega, by omega⟩
    refine Run.result_bind (compare_result hr (decide_eq_false hlt)) fun w => ?_
    rw [if_neg Bool.false_ne_true]
    refine Run.result_bind (compare_result hr (decide_eq_false (by omega))) fun w => ?_
    rw [if_neg Bool.false_ne_true]
    refine Run.result_bind (lowerBoundN_integers hr hg hx hf (by omega)) fun w => ?_
    rw [show x + d = value by omega]
    exact Run.result_bind (upperBound_iota hr hg hf hv) fun w => rfl

end Search

/-- The position of a probe that follows `k` others, from where the search starts. -/
def probed (k : Nat) : Nat := passed k + leap k

theorem passed_succ (k : Nat) : passed (k + 1) = probed k + 1 := rfl

theorem probed_add_one (k : Nat) : probed k + 1 = leap (k + 1) + k := by
  have := passed_add_one k
  rw [probed, leap_succ]
  omega

/-- The probe that follows `k` others is the first one that is not before the value. -/
structure LastProbe (start value : Int) (k : Nat) : Prop where
  before : ∀ j < k, start + probed j < value
  notBefore : value ≤ start + probed k

/-- Probes go ahead of every value. -/
theorem exists_lastProbe (start value : Int) : ∃ k, LastProbe start value k := by
  have hfirst (k : Nat) (hk : value ≤ start + probed k) : ∃ k, LastProbe start value k := by
    induction k using Nat.strongRecOn with
    | ind k ih =>
      by_cases h : ∃ j < k, value ≤ start + probed j
      · obtain ⟨j, hj, hn⟩ := h
        exact ih j hj hn
      · exact ⟨k, fun j hj => Int.lt_of_not_ge fun hn => h ⟨j, hj, hn⟩, hk⟩
  refine hfirst (value - start).toNat ?_
  have := probed_add_one (value - start).toNat
  have := leap_pos ((value - start).toNat + 1)
  omega

namespace LastProbe

variable {start value : Int} {j k : Nat}

theorem unique (hj : LastProbe start value j) (hk : LastProbe start value k) : j = k := by
  have hj' := hj.notBefore
  have hk' := hk.notBefore
  rcases Nat.lt_trichotomy j k with h | h | h
  · have := hk.before j h
    omega
  · exact h
  · have := hj.before k h
    omega

/-- The last probe goes no further than twice the way to the value, or one step. -/
theorem probed_le (h : LastProbe start value k) : (probed k : Int) ≤ max (2 * (value - start)) 1 := by
  cases k with
  | zero => exact Int.le_max_right _ 1
  | succ j =>
    have hj := h.before j (Nat.lt_succ_self j)
    have hle : leap (j + 1) ≤ passed (j + 1) := leap_le_passed (Nat.succ_pos j)
    rw [passed_succ] at hle
    rw [probed, passed_succ]
    omega

end LastProbe

section Unbounded

variable {v : Width} {start value : Int} {comp : Relation κ Int Int} {proj : Projection κ Int Int}
  {w : World Int κ}

/-- The induction is on the probes before the value that are still to come. -/
theorem probes_result {k n d : Nat} (hr : ∀ y, Answers (comp y) fun x => decide (y < x))
    (hg : Answers proj id) (hs : v.min ≤ start) (hv : value < v.max)
    (hp : LastProbe start value (k + n)) (hk : start + passed k ≤ value)
    (hd : (d : Int) = min (leap k : Int) v.max) :
    (probe d (.iota v (start + passed k)) .unreachable value comp proj).result w =
      if start + probed (k + n) ≤ v.max then .ok (.iota v value, .iota v (value + 1))
      else .error .addOverflow := by
  have hx : v.Fits (start + passed k) := ⟨by omega, by omega⟩
  have hmin := v.min_eq
  induction n generalizing k d w with
  | zero =>
    have hlast := hp.notBefore
    rw [Nat.add_zero, probed] at hlast ⊢
    by_cases hfits : start + passed k + d ≤ v.max
    · obtain rfl := Width.eq_leap hd (by omega)
      rw [if_pos (by omega)]
      exact probe_last hr hg hx hfits hk (by omega) hv
    · rw [if_neg (by omega)]
      exact probe_beyond hx (by omega)
  | succ n ih =>
    have hb := hp.before k (by omega)
    rw [probed] at hb
    obtain rfl := Width.eq_leap hd (by omega)
    have hnext : start + passed k + leap k + 1 = start + passed (k + 1) := by
      rw [passed_succ, probed]
      omega
    refine probe_before hr hg hx (by omega) hv fun w => ?_
    rw [← Listed.toNat_double, hnext]
    rw [show k + (n + 1) = k + 1 + n by omega] at hp ⊢
    refine ih hp (by omega) ?_ ⟨by omega, by omega⟩
    rw [Listed.toNat_double, Width.double_leap hd]

/-- From a start that is not after the value, with a value that is not the largest integer: the search
comes to the value and to the integer behind it if its last probe can be written, and stops at an
overflow if not. It can be written if twice the way to the value can be gone. -/
theorem equalRange_unbounded (hs : v.Fits start) (hsv : start ≤ value) (hv : value < v.max)
    (hr : ∀ y, Answers (comp y) fun x => decide (y < x)) (hg : Answers proj id) :
    ∃ k, LastProbe start value k ∧
      (equalRange (.iota v start) .unreachable value comp proj).result w =
        (if start + probed k ≤ v.max then .ok (.iota v value, .iota v (value + 1))
        else .error .addOverflow) ∧
      (start + 2 * (value - start) ≤ v.max → start + probed k ≤ v.max) := by
  obtain ⟨k, hp⟩ := exists_lastProbe start value
  refine ⟨k, hp, ?_, fun hfits => ?_⟩
  · have hp : LastProbe start value (0 + k) := by rwa [Nat.zero_add]
    refine Run.result_bind (Run.result_lift _ w) fun w => ?_
    have h := probes_result (w := w) (d := 1) hr hg hs.1 hv hp
    simp only [Nat.zero_add, passed, Int.natCast_zero, Int.add_zero] at h
    exact h hsv v.first_leap
  · have := hp.probed_le
    omega

end Unbounded

/-- Among the integers of eight bits from zero on, 68 is found by the last probe that can be written,
which stands at it. From 69 on the next one, at 133, is an overflow. -/
theorem equalRange_unbounded_narrow :
    let less : Relation Nat Int Int := fun a b k => (decide (a < b), k + 1)
    let search : Int → Except Fault (Cursor Int × Cursor Int) := fun value =>
      (equalRange (.iota .w8 0) .unreachable value less .identity).result ⟨[], 0⟩
    search 68 = .ok (.iota .w8 68, .iota .w8 69) ∧ search 100 = .error .addOverflow := by
  intro less search
  have hg : Answers (Projection.identity (κ := Nat)) (id : Int → Int) := fun _ _ => rfl
  have hr (y : Int) : Answers (less y) fun x => decide (y < x) := fun _ _ => rfl
  have hs : Width.w8.Fits 0 := by decide
  constructor
  · obtain ⟨k, hp, h, -⟩ := equalRange_unbounded (w := ⟨[], 0⟩) hs
      (show (0 : Int) ≤ 68 by decide) (by decide) hr hg
    obtain rfl := LastProbe.unique (j := 5) ⟨by decide, by decide⟩ hp
    exact h
  · obtain ⟨k, hp, h, -⟩ := equalRange_unbounded (w := ⟨[], 0⟩) hs
      (show (0 : Int) ≤ 100 by decide) (by decide) hr hg
    obtain rfl := LastProbe.unique (j := 6) ⟨by decide, by decide⟩ hp
    exact h

end Waymark
