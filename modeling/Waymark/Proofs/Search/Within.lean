import Waymark.Proofs.Confined
import Waymark.Proofs.Kinds
import Waymark.Proofs.Search.Listed

/-!
# Searches stay within their sequence

What the searches do on any sequence and with any callables, whether or not these order anything and
whatever they remember from call to call. The lengths alone keep every middle and every probe inside:
`n / 2` elements before a middle and `n - (n / 2 + 1)` behind it, and a probe at `dist` elements or at
the bound. `searches_within` puts together that all searches return, read only elements of the
sequence, and answer with positions in it, the lower end before the upper one.
-/

namespace Waymark

variable {α β κ : Type} [IntCast α] [Inhabited α] {c : Cursor α} {b : Bound α} {s : Store α}
  {xs : List α} {value : β} {comp : Relation κ β β}

/-! ## By the number of elements -/

section ByNumber

variable (pred : Predicate κ β) (proj : Projection κ α β)

theorem bisect_confined {n : Nat} (h : c.Shows s xs) (hn : xs.length = n) :
    (bisect n c pred proj).Confined (c.Before n) (c.UpTo n) := by
  induction xs using Listed.bisect.induct generalizing c n with
  | case1 xs hm ihr ihl =>
    subst hn
    have hr := h.reach hm
    rw [bisect_eq, if_neg (by omega)]
    refine .lift (h.advance (Nat.le_of_lt hm)) (.test ⟨_, hm, h.reach (Nat.le_of_lt hm)⟩ fun b => ?_)
    refine .ite (fun _ => ?_) fun _ => ?_
    · refine .lift (h.step hm) ((ihr (h.drop hm) List.length_drop).mono ?_ ?_)
      · exact fun d hd => hd.of_hop hr (by omega)
      · exact fun d hd => hd.of_hop hr (by omega)
    · refine (ihl (h.take _) (List.length_take_of_le (by omega))).mono ?_ ?_
      · exact fun d hd => hd.mono (by omega)
      · exact fun d hd => hd.mono (by omega)
  | case2 xs hm =>
    rw [bisect_eq, if_pos (by omega)]
    exact .pure ⟨0, Nat.zero_le _, rfl⟩

theorem partitionPointN_confined {n : Nat} (h : c.Shows s xs) (hn : xs.length = n) :
    (partitionPointN c n pred proj).Confined (c.Before n) (c.UpTo n) := by
  rw [partitionPointN, if_neg (by omega)]
  exact bisect_confined pred proj h hn

theorem bisectEqual_confined {n : Nat} (h : c.Shows s xs) (hn : xs.length = n) :
    (bisectEqual n c value comp proj).Confined (c.Before n) (c.Spans n) := by
  induction xs using Listed.bisectEqual.induct generalizing c n with
  | case1 xs hm ihr ihl =>
    subst hn
    have hr := h.reach hm
    have hl := List.length_take_of_le (Nat.le_of_lt hm)
    rw [bisectEqual_eq, if_neg (by omega)]
    refine .lift (h.advance (Nat.le_of_lt hm))
      (.project ⟨_, hm, h.reach (Nat.le_of_lt hm)⟩ fun y => .call fun before => ?_)
    refine .ite (fun _ => ?_) fun _ => .call fun after => .ite (fun _ => ?_) fun _ => ?_
    · refine .lift (h.step hm) ((ihr (h.drop hm) List.length_drop).mono ?_ ?_)
      · exact fun d hd => hd.of_hop hr (by omega)
      · exact fun r hd => hd.of_hop hr (by omega)
    · refine (ihl (h.take _) hl).mono ?_ ?_
      · exact fun d hd => hd.mono (by omega)
      · exact fun r hd => hd.mono (by omega)
    · -- the two ends lie on either side of the middle
      have hlower := partitionPointN_confined (orderedBefore value comp) proj
        (h.take _) hl
      have hupper := partitionPointN_confined (notOrderedAfter value comp) proj
        (h.drop hm) List.length_drop
      refine (hlower.mono (fun d hd => hd.mono (by omega)) fun d hd => hd).bind fun lower hd => ?_
      refine .lift (h.step hm) ((hupper.mono ?_ fun e he => he).bind fun upper he => ?_)
      · exact fun e he => he.of_hop hr (by omega)
      · exact .pure ((hd.mono (Nat.le_succ _)).spans hr he (by omega))
  | case2 xs hm =>
    rw [bisectEqual_eq, if_pos (by omega)]
    exact .pure ⟨0, 0, Nat.le_refl _, Nat.zero_le _, rfl, rfl⟩

theorem equalRangeN_confined {n : Nat} (h : c.Shows s xs) (hn : xs.length = n) :
    (equalRangeN c n value comp proj).Confined (c.Before n) (c.Spans n) := by
  rw [equalRangeN, if_neg (by omega)]
  exact bisectEqual_confined proj h hn

end ByNumber

/-! ## Up to a bound -/

section UpToBound

variable (pred : Predicate κ β) (proj : Projection κ α β)

theorem findBy_confined (wanted : Bool) (h : Presents s c b xs) :
    (findBy wanted c b pred proj).Confined (c.Before xs.length) (c.UpTo xs.length) := by
  induction xs generalizing c with
  | nil =>
    rw [findBy, if_pos (show b.isEnd c = true from h.ends)]
    exact .pure ⟨0, Nat.le_refl _, rfl⟩
  | cons x xs ih =>
    obtain ⟨he, -⟩ := h.ends
    obtain ⟨-, -, hs, -⟩ := Cursor.shows_cons_iff.1 h.shows
    have hl : 1 + xs.length ≤ (x :: xs).length := by rw [List.length_cons]; omega
    have h1 := h.shows.reach (Nat.le_add_left 1 xs.length)
    rw [findBy_eq, if_neg (ne_true_of_eq_false he)]
    refine .test ⟨0, Nat.succ_pos _, rfl⟩ fun found => .ite (fun _ => ?_) fun _ => ?_
    · exact .pure ⟨0, Nat.zero_le _, rfl⟩
    · refine .lift hs ((ih (h.drop (Nat.le_add_left 1 xs.length))).mono ?_ ?_)
      · exact fun d hd => hd.of_hop h1 hl
      · exact fun d hd => hd.of_hop h1 hl

theorem partitionPoint_confined (h : Presents s c b xs)
    (hn : b.sized = true → c.width.Fits xs.length) :
    (partitionPoint c b pred proj).Confined (c.Before xs.length) (c.UpTo xs.length) := by
  refine .lift (h.measure hn) ?_
  cases b.sized with
  | true => exact partitionPointN_confined pred proj h.shows rfl
  | false => exact findBy_confined pred proj false h

theorem probe_confined {dist : Nat} {width : Width} (h : Presents s c b xs) (hw : c.width = width)
    (hf : width.Fits dist) (hb : b.sized = false) :
    (probe dist c b value comp proj).Confined (c.Before xs.length) (c.Spans xs.length) := by
  have hn {p : Prop} (hs : b.sized = true) : p := absurd (hb.symm.trans hs) Bool.false_ne_true
  induction dist, xs using Listed.probe.induct width generalizing c with
  | case1 dist xs hd ih =>
    have hr := h.shows.reach hd
    have hl := List.length_take_of_le (Nat.le_of_lt hd)
    rw [probe_within (h.advance_of_lt hb hd)]
    refine .project ⟨_, hd, h.shows.reach (Nat.le_of_lt hd)⟩ fun y => .call fun after => ?_
    refine .ite (fun _ => ?_) fun _ => .call fun before => .ite (fun _ => ?_) fun _ => ?_
    · refine (equalRangeN_confined proj (h.shows.take _) hl).mono ?_ ?_
      · exact fun d hd => hd.mono (by omega)
      · exact fun r hd => hd.mono (by omega)
    · rw [hw, ← Listed.toNat_double]
      have hf := Listed.fits_toNat_double width dist
      refine .lift (h.shows.step hd) ((ih (h.drop hd) (by rwa [Cursor.width_hop]) hf).mono ?_ ?_)
      · exact fun d hd => hd.of_hop hr (by rw [List.length_drop]; omega)
      · exact fun r hd => hd.of_hop hr (by rw [List.length_drop]; omega)
    · -- the lower end comes before the probe, the upper end from it on
      have hr := h.shows.reach (Nat.le_of_lt hd)
      have hlower := partitionPointN_confined (orderedBefore value comp) proj
        (h.shows.take _) hl
      have hupper := partitionPoint_confined (notOrderedAfter value comp) proj
        (h.drop (Nat.le_of_lt hd)) hn
      rw [List.length_drop] at hupper
      refine (hlower.mono (fun d hd => hd.mono (by omega)) fun d hd => hd).bind fun lower hl => ?_
      refine (hupper.mono (fun e he => he.of_hop hr (by omega)) fun e he => he).bind fun upper hu => ?_
      exact .pure (hl.spans hr hu (by omega))
  | case2 dist xs hd =>
    rw [probe_short (hw ▸ hf) (by omega) (h.advance_of_le hb (by omega))]
    exact equalRangeN_confined proj h.shows rfl

theorem equalRange_confined (h : Presents s c b xs)
    (hn : b.sized = true → c.width.Fits xs.length) :
    (equalRange c b value comp proj).Confined (c.Before xs.length) (c.Spans xs.length) := by
  refine .lift (h.measure hn) ?_
  cases hb : b.sized with
  | true => exact equalRangeN_confined proj h.shows rfl
  | false => exact probe_confined proj h rfl c.width.fits_one hb

end UpToBound

/-! ## All searches -/

/-- The run reads only the `n` elements from the cursor on, and returns a value that satisfies
`Q`. -/
def Run.Within {γ : Type} (act : Run α κ γ) (w : World α κ) (c : Cursor α) (n : Nat)
    (Q : γ → Prop) : Prop :=
  act.Confined (c.Before n) Q ∧ ∃ x w', act w = .ok x w' ∧ Q x

omit [Inhabited α] in
theorem Cursor.Shows.look_before {d : Cursor α} (h : c.Shows s xs) (hd : c.Before xs.length d) :
    (d.look s).isSome := by
  obtain ⟨i, hi, hd⟩ := hd
  rw [Cursor.stepTimes_eq_hop hd, h.look hi]
  rfl

theorem Run.Confined.within {γ : Type} {act : Run α κ γ} {w : World α κ} {Q : γ → Prop}
    (ha : act.Confined (c.Before xs.length) Q) (h : c.Shows w.store xs) :
    act.Within w c xs.length Q :=
  ⟨ha, ha.returns fun _ => h.look_before⟩

/-- Whatever the callables answer, every search returns, reads nothing but the elements between the
cursor and the bound, and comes to positions between them; the two ends of a range come in order. -/
theorem searches_within {w : World α κ} (h : Presents w.store c b xs)
    (hn : b.sized = true → c.width.Fits xs.length) (value : β) (comp : Relation κ β β)
    (pred : Predicate κ β) (proj : Projection κ α β) :
    let n := xs.length
    (partitionPoint c b pred proj).Within w c n (c.UpTo n) ∧
      (partitionPointN c n pred proj).Within w c n (c.UpTo n) ∧
      (lowerBound c b value comp proj).Within w c n (c.UpTo n) ∧
      (lowerBoundN c n value comp proj).Within w c n (c.UpTo n) ∧
      (upperBound c b value comp proj).Within w c n (c.UpTo n) ∧
      (upperBoundN c n value comp proj).Within w c n (c.UpTo n) ∧
      (equalRange c b value comp proj).Within w c n (c.Spans n) ∧
      (equalRangeN c n value comp proj).Within w c n (c.Spans n) := by
  refine ⟨?_, ?_, ?_, ?_, ?_, ?_, ?_, ?_⟩
  · exact (partitionPoint_confined pred proj h hn).within h.shows
  · exact (partitionPointN_confined pred proj h.shows rfl).within h.shows
  · exact (partitionPoint_confined _ proj h hn).within h.shows
  · exact (partitionPointN_confined _ proj h.shows rfl).within h.shows
  · exact (partitionPoint_confined _ proj h hn).within h.shows
  · exact (partitionPointN_confined _ proj h.shows rfl).within h.shows
  · exact (equalRange_confined proj h hn).within h.shows
  · exact (equalRangeN_confined proj h.shows rfl).within h.shows

/-- A comparator that contradicts itself, on as many integers as the width can count, and with
probes that find only what reading has left. -/
theorem searches_within_fickle :
    let w : World Int Nat := ⟨[[5, 1, 4]], 0⟩
    let first : Cursor Int := .iota .w8 (-1)
    let moved : Cursor Int := .forwardOnly (.moving (.slice (.stored 0 3) 0))
    let bound : Bound Int := .forwardOnly (.moving (.cursor (.slice (.stored 0 3) 3)))
    let fickle : Relation Nat Int Int := fun _ _ k => (k % 3 == 0, k + 1)
    (lowerBound first (.cursor (.iota .w8 126)) 3 fickle .identity).Within w first 127
        (first.UpTo 127) ∧
      (equalRange moved bound 3 fickle .identity).Within w moved 3 (moved.Spans 3) := by
  intro w first moved bound fickle
  have hi : Presents w.store first (.cursor (.iota .w8 126))
      ((List.range 127).map fun i : Nat => ((-1 + i : Int) : Int)) :=
    presents_iota (n := 127) (w := .w8) (x := -1) (by decide) (by decide)
  have hm : Presents w.store moved bound [5, 1, 4] :=
    presents_forwardOnly (presents_moving
      (presents_ofSource (show (Source.stored 0 3).Holds _ _ from ⟨rfl, rfl⟩) (by decide)) rfl)
  have hl : ((List.range 127).map fun i : Nat => ((-1 + i : Int) : Int)).length = 127 := by
    rw [List.length_map, List.length_range]
  have hwi := searches_within hi (fun _ => by rw [hl]; decide) 3 fickle (fickle 3) .identity
  have hwm := searches_within hm (fun hs => nomatch hs) 3 fickle (fickle 3) .identity
  rw [hl] at hwi
  exact ⟨hwi.2.2.1, hwm.2.2.2.2.2.2.1⟩

end Waymark
