import Waymark.Proofs.Confined
import Waymark.Proofs.Cursor.Displaced
import Waymark.Proofs.Search.Budget
import Waymark.Proofs.Search.EqualRange

/-!
# What a search by probes costs

The distances of the probes are the powers of two (`leap`), so that the elements passed by `k` of them
are at least as many as the distance of the next one (`leap_le_passed`). A sequence ends before the
distances stop to double (`Width.eq_leap`, `Cursor.length_le`). So each probe that lies before the
value costs two tests and is paid for by the logarithm of the elements before the value, and so is the
bisection that ends the search; only the walk through the equivalent elements is linear
(`probe_spends`). The length of the sequence does not enter (`equalRange_probe_budget`).
-/

namespace Waymark

variable {α β κ : Type}

/-! ## Distances -/

/-- The distance of a probe that follows `k` others. -/
def leap (k : Nat) : Nat := Nat.pow 2 k

/-- The number of elements passed by `k` probes, each of which is followed by a step. -/
def passed : Nat → Nat
  | 0 => 0
  | k + 1 => passed k + (leap k + 1)

theorem leap_pos (k : Nat) : 0 < leap k := Nat.pow_pos Nat.two_pos

theorem leap_succ (k : Nat) : leap (k + 1) = 2 * leap k := Nat.pow_succ'

theorem passed_add_one (k : Nat) : passed k + 1 = leap k + k := by
  induction k with
  | zero => rfl
  | succ k ih => rw [passed, leap_succ]; omega

theorem leap_le_passed {k : Nat} (h : 0 < k) : leap k ≤ passed k := by
  have := passed_add_one k
  omega

/-- Passing `k` probes and more takes `k` doublings. -/
theorem le_log2_passed (k l : Nat) : k ≤ (max (passed k + l) 1).log2 := by
  rw [Nat.le_log2 (by omega)]
  by_cases hk : 0 < k
  · exact Nat.le_trans (leap_le_passed hk) (by omega)
  · rw [show k = 0 by omega]
    exact Nat.le_max_right _ 1

theorem halvings_le {n k : Nat} (h : n ≤ leap k) : halvings n ≤ k + 1 := by
  refine Nat.le_trans (halvings_mono h) ?_
  rw [halvings_of_pos (leap_pos k)]
  exact Nat.succ_le_succ (Nat.le_of_eq Nat.log2_two_pow)

/-- Distances double as long as positions are left: when they stop to, more than half of the positions
of a width are passed, and the distance is as large as the others. -/
theorem Width.eq_leap {v : Width} {k d : Nat} (h : (d : Int) = Min.min (leap k : Int) v.max)
    (hk : (passed k + d : Nat) ≤ 2 * v.max + 1) : d = leap k := by
  have := v.le_max
  by_cases hk2 : k < 2
  · have : ∀ j < 2, leap j ≤ 2 := by decide
    have := this k hk2
    omega
  · have := passed_add_one k
    omega

theorem Width.first_leap (v : Width) : ((1 : Nat) : Int) = Min.min (leap 0 : Int) v.max := by
  have := v.le_max
  show ((1 : Nat) : Int) = Min.min ((1 : Nat) : Int) v.max
  omega

/-- They double as far as they can be written. -/
theorem Width.double_leap {v : Width} {k d : Nat} (h : (d : Int) = Min.min (leap k : Int) v.max) :
    v.double d = Min.min (leap (k + 1) : Int) v.max := by
  have := v.le_max
  have := v.min_eq
  rw [leap_succ, double]
  grind

/-- No more positions can be written than there are numbers in the width. -/
theorem Cursor.length_le {c : Cursor α} {n : Nat} (hc : c.copyable = true) (hv : c.Valid)
    (hn : (c.hop n).Valid) : (n : Int) ≤ 2 * c.width.max + 1 := by
  induction c with
  | slice s p =>
    obtain ⟨-, hn⟩ := hn
    simp only [width]
    omega
  | repeated v x p =>
    obtain ⟨hv, -⟩ := hv
    obtain ⟨-, hn⟩ := hn
    have := Width.min_eq .w64
    simp only [width]
    omega
  | iota w x =>
    obtain ⟨hv, -⟩ := hv
    obtain ⟨-, hn⟩ := hn
    have := w.min_eq
    simp only [width]
    omega
  | stream s => cases hc
  | counted b r ih => exact ih hc hv.1 hn.1
  | moving b ih => exact ih hc hv hn
  | forwardOnly b ih => exact ih hc hv hn

/-! ## Searching from the last probe on -/

theorem Answers.counted {β : Type} {f : α → StateM κ β} {g : α → β} (h : Answers f g) (e : Calls) :
    Answers (fun x => counting e (f x)) g :=
  fun x k => h x k.1

/-- A linear search tests the elements that the test holds of and at most one more. -/
theorem Listed.seek_costs {t : Predicate (κ × Calls) α} {p : α → Bool}
    (ht : ∀ x, Costs (t x) (· = .look)) (hp : Answers t p) (xs : List α) :
    Costs (seek false t xs) fun m =>
      m.projections = m.tests ∧ m.secondProjections = 0 ∧ m.tests ≤ xs.countP p + 1 := by
  induction xs with
  | nil => exact .pure ⟨rfl, rfl, Nat.zero_le _⟩
  | cons x xs ih =>
    rw [seek]
    refine (ht x).bind_answers (hp x) fun m hm => ?_
    subst hm
    cases hx : p x with
    | true =>
      refine ih.bind fun i n hn => .pure ?_
      obtain ⟨hp, hs, ht⟩ := hn
      rw [List.countP_cons_of_pos hx]
      refine ⟨?_, ?_, ?_⟩ <;> simp <;> omega
    | false => exact .pure ⟨rfl, rfl, Nat.succ_le_succ (Nat.zero_le _)⟩

namespace Calls

/-- The calls of a search that goes on after `k` probes before the value, of `l` elements before it
and `n` equivalent ones in all. Nothing is projected without a test. -/
structure Probing (k l n : Nat) (m : Calls) : Prop where
  secondProjections : m.secondProjections = 0
  tested : m.projections ≤ m.tests
  tests : 2 * k + m.tests ≤ 4 * (max l 1).log2 + n + 4

/-- One more probe before the value is projected once and tested twice. -/
theorem Probing.before {k l n : Nat} {m : Calls} (h : m.Probing (k + 1) (passed (k + 1) + l) n) :
    (projection + (test + (test + m))).Probing k (passed k + (leap k + 1 + l)) n := by
  obtain ⟨hs, hp, ht⟩ := h
  rw [passed, Nat.add_assoc (passed k)] at ht
  constructor <;> simp <;> omega

end Calls

section Probe

variable [IntCast α] [Inhabited α] {c : Cursor α} {b : Bound α} {xs : List α}
  {w : World α (κ × Calls)} {value : β} {comp : Relation κ β β} {r : β → β → Bool}
  {proj : Projection κ α β} {g : α → β}

open Listed

/-- Bisecting what a probe leaves costs two tests for each probe before it, and two more. -/
theorem equalRangeN_spends {k n : Nat} (h : c.Shows w.store xs) (hn : xs.length = n)
    (hk : n ≤ leap k) :
    (equalRangeN c n value comp.counted proj.counted).Spends w fun m =>
      m.secondProjections = 0 ∧ m.projections ≤ m.tests ∧ m.tests ≤ 2 * k + 2 := by
  refine (equalRangeN_follows h hn _ _ _).spends
    ((bisectEqual_costs value comp proj xs).mono fun m hm => ?_)
  have hl := halvings_le (hn ▸ hk)
  have ht := hm.tests
  exact ⟨hm.secondProjections, hm.tested, by omega⟩

/-- A probe at an equivalent element leaves a bisection before it and a walk from it on. That element
may have been moved out, so that the walk may end at once. -/
theorem bounds_spend {k n : Nat} {y : α} {ys : List α} (hs : c.Shows w.store xs)
    (hn : xs.length = n) (hk : n ≤ leap k) (hp : Presents w.store (c.hop n) b (y :: ys))
    (hb : b.sized = false) (hr : ∀ y, Answers (comp y) (r y)) (hg : Answers proj g) :
    Run.Spends (do
      let lower ← lowerBoundN c n value comp.counted proj.counted
      let upper ← upperBound (c.hop n) b value comp.counted proj.counted
      return (lower, upper)) w fun m =>
        m.secondProjections = 0 ∧ m.projections = m.tests ∧
          m.tests ≤ k + 3 + ys.countP fun x => !r value (g x) := by
  have hhalvings := halvings_le (hn ▸ hk)
  have hr (y : β) : Answers (comp.counted y) (r y) := (hr y).counted .test
  have ht := (answers_notOrderedAfter hr value).on (hg.counted .projection)
  refine (partitionPointN_follows hs hn _ _).bind_spends (lower_costs value comp proj xs)
    fun lower s calls m hs hm => ?_
  refine (partitionPoint_follows (hp.spared hs) hb _ _).bind_spends
    (seek_costs (costs_on (notOrderedAfter value comp) proj) ht _) fun upper s calls l _ hl => .pure ?_
  obtain ⟨hpm, hsm, -, hm⟩ := hm
  obtain ⟨hpl, hsl, hl⟩ := hl
  have hy : (y :: ys).countP (fun x => !r value (g x)) ≤ 1 + ys.countP fun x => !r value (g x) := by
    rw [List.countP_cons]
    split <;> omega
  refine ⟨?_, ?_, ?_⟩ <;> simp <;> omega

/-- The induction is on the probes that lie before the value. -/
theorem probe_spends {v : Width} {k dist l u : Nat} (h : Presents w.store c b xs) (hv : c.width = v)
    (hb : b.sized = false) (hd : (dist : Int) = min (leap k : Int) v.max)
    (hlen : (passed k + xs.length : Nat) ≤ 2 * v.max + 1) (hr : ∀ y, Answers (comp y) (r y))
    (hg : Answers proj g)
    (hs : Separated (fun x => r (g x) value) (fun x => r value (g x)) xs)
    (hl : xs.countP (fun x => r (g x) value) = l) (hu : xs.countP (fun x => !r value (g x)) = u) :
    (Waymark.probe dist c b value comp.counted proj.counted).Spends w
      (Calls.Probing k (passed k + l) (u - l)) := by
  induction dist, xs using Listed.probe.induct v generalizing c k w l u with
  | case1 dist xs hdx ih =>
    have hk := le_log2_passed k l
    have hdist : dist ≤ leap k := by omega
    have htake := List.length_take_of_le (Nat.le_of_lt hdx)
    rw [probe_within (h.advance_of_lt hb hdx)]
    refine .project (h.shows.look hdx) (.call ?_)
    rw [hg, hr]
    cases hafter : r value (g xs[dist]) with
    | true =>
      refine (equalRangeN_spends (h.shows.take_drain _) htake hdist).mono fun m hm => ?_
      obtain ⟨hms, hmp, hmt⟩ := hm
      constructor <;> simp <;> omega
    | false =>
      rw [if_neg Bool.false_ne_true]
      refine .call ?_
      rw [hr]
      cases hbefore : r (g xs[dist]) value with
      | true =>
        have hdist : dist = leap k := Width.eq_leap hd (by omega)
        rw [hs.before.countP_drop_succ hdx hbefore] at hl
        rw [hs.notAfter.countP_drop_succ hdx (by rw [hafter]; rfl)] at hu
        rw [← hl, ← hu, Nat.add_sub_add_left, hv, ← toNat_double]
        have hrest := h.drop (n := dist + 1) hdx
        refine .lift (h.shows.step hdx) ((ih (k := k + 1)
          ⟨h.shows.drop_drain hdx, hrest.ends, hrest.suits⟩ ((Cursor.width_hop c _).trans hv) ?_ ?_
          (hs.drop _) rfl rfl).mono fun m hm => ?_)
        · rw [toNat_double, Width.double_leap hd]
        · rw [List.length_drop, passed]
          omega
        · rw [hdist] at hm ⊢
          exact hm.before
      | false =>
        rw [if_neg Bool.false_ne_true]
        have hbelow := hs.before.getElem hdx
        rw [hbefore, hl, eq_comm, decide_eq_false_iff_not] at hbelow
        rw [hs.notAfter.countP_drop_succ hdx (by rw [hafter]; rfl)] at hu
        have hrest := h.drop (Nat.le_of_lt hdx)
        rw [List.drop_eq_getElem_cons hdx] at hrest
        refine (bounds_spend (h.shows.take_drain _) htake hdist hrest.reread hb hr hg).mono
          fun m hm => ?_
        obtain ⟨hms, hmp, hmt⟩ := hm
        constructor <;> simp <;> omega
  | case2 dist xs hdx =>
    have hk := le_log2_passed k l
    have hf : c.width.Fits dist := Width.fits_natCast (by rw [hv]; omega)
    rw [probe_short hf (by omega) (h.advance_of_le hb (by omega))]
    refine (equalRangeN_spends (k := k) h.shows rfl (by omega)).mono fun m hm => ?_
    obtain ⟨hms, hmp, hmt⟩ := hm
    constructor <;> omega

/-- However long the sequence is that a bound ends without telling how far it goes: a search by probes
makes at most four tests for each doubling up to the number of elements before the value, one for each
equivalent element and four more, and projects no more than it tests. The cursor has to be one that can
be walked again. A range that does not tell its length is searched in the same way. -/
theorem equalRange_probe_budget {first : Cursor α} {last : Bound α} {extent : Extent}
    (h : Presents w.store first last xs) (hc : first.copyable = true) (hb : last.sized = false)
    (he : ∀ n : Int, extent ≠ .known n) (hr : ∀ y, Answers (comp y) (r y)) (hg : Answers proj g)
    (hs : Separated (fun x => r (g x) value) (fun x => r value (g x)) xs) :
    let l := xs.countP fun x => r (g x) value
    let u := xs.countP fun x => !r value (g x)
    let B : Calls → Prop := fun m =>
      m.tests ≤ 4 * (max l 1).log2 + (u - l) + 4 ∧ m.projections ≤ m.tests ∧
        m.secondProjections = 0
    (equalRange first last value comp.counted proj.counted).Spends w B ∧
      (Range.equalRange ⟨first, last, extent⟩ value comp.counted proj.counted).Spends w B := by
  intro l u B
  have hm := h.measure fun hs => absurd (hb.symm.trans hs) Bool.false_ne_true
  rw [hb] at hm
  have hlen : (passed 0 + xs.length : Nat) ≤ 2 * first.width.max + 1 := by
    rw [passed, Nat.zero_add]
    exact first.length_le hc h.shows.valid (h.shows.valid_hop (Nat.le_refl _))
  have hspent : (equalRange first last value comp.counted proj.counted).Spends w B := by
    refine .lift hm ((probe_spends h rfl hb (Width.first_leap _) hlen hr hg hs rfl rfl).mono fun m hm => ?_)
    obtain ⟨hm2, hmp, hmt⟩ := hm
    simp only [passed, Nat.mul_zero, Nat.zero_add] at hmt
    exact ⟨hmt, hmp, hm2⟩
  have hmeasure : (Range.mk first last extent).measure = .ok none := by
    cases extent with
    | ofBound => exact hm
    | unknown => rfl
    | known n => exact absurd rfl (he n)
  exact ⟨hspent, .lift hmeasure hspent⟩

end Probe

/-- The bound is met where one element comes before the value and three are equivalent to it. The
elements are moved out as they are read. -/
theorem equalRange_probe_budget_moving :
    let w : World Int (Nat × Calls) := ⟨[[1, 2, 2, 2, 3, 5]], 0, .none⟩
    let first : Cursor Int := .forwardOnly (.moving (.slice (.stored 0 6) 0))
    let last : Bound Int := .forwardOnly (.moving (.cursor (.slice (.stored 0 6) 6)))
    let less : Relation Nat Int Int := fun a b k => (decide (a < b), k + 1)
    (equalRange first last 2 less.counted (Projection.counted .identity)).Spends w fun m =>
      m.tests ≤ 7 ∧ m.projections ≤ m.tests := by
  intro w first last less
  have hp : Presents w.store first last [1, 2, 2, 2, 3, 5] :=
    presents_forwardOnly (presents_moving
      (presents_ofSource (show (Source.stored 0 6).Holds _ _ from ⟨rfl, rfl⟩) (by decide)) rfl)
  have hg : Answers (Projection.identity (κ := Nat)) (id : Int → Int) := fun _ _ => rfl
  have hr (y : Int) : Answers (less y) fun x => decide (y < x) := fun _ _ => rfl
  have hs : Separated (fun x : Int => decide (id x < 2)) (fun x => decide (2 < id x))
      [1, 2, 2, 2, 3, 5] := strictWeakOrder_lt.separated (g := id) (by decide) 2
  have he (n : Int) : Extent.unknown ≠ .known n := nofun
  have hb := equalRange_probe_budget hp rfl rfl he hr hg hs
  exact hb.1.mono fun m hm => ⟨hm.1, hm.2.1⟩

end Waymark
