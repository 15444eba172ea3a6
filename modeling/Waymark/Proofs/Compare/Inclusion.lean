import Waymark.Proofs.Compare.Listed
import Waymark.Proofs.Confined
import Waymark.Proofs.Search.EqualRange
import Waymark.Proofs.Spending
import Waymark.Proofs.Upkeep.Classes

/-!
# What inclusion means

Callables that answer in one way only make a pass over two lists that `covers` tells. A pass that
succeeds has found an element of its own for every element of the second list, in their order
(`Embeds`, `covers_embeds`), whether or not the lists are sorted. On sorted lists it succeeds exactly
if no class has more members in the second list than in the first (`covers_iff_countP_le`): where an
element of the second list is missing, all that is left of the first list is ordered after it, and an
element that is passed over is ordered before all that is left of the second list.

Each round of a pass takes an element of the first sequence, whatever the callables answer and
whatever reading leaves (`includes_spends`). What a pass answers is another matter: it reads an element
of the second sequence once more after each round that has skipped one, so that reading must leave the
second sequence as it is, and each sequence must leave the other (`inclusion_decided`). Moving the
elements out makes it fail either way (`inclusion_emptied`).
-/

namespace Waymark

variable {α β κ : Type}

/-! ## On lists -/

/-- Each element of the second list has an element of its own in the first one that `p` relates to it,
in their order. -/
def Embeds (p : α → α → Bool) (xs ys : List α) : Prop :=
  ∃ f : Fin ys.length → Fin xs.length,
    (∀ i j, i < j → f i < f j) ∧ ∀ j, p xs[f j] ys[j] = true

namespace Embeds

variable {p : α → α → Bool} {x y : α} {xs ys : List α}

theorem nil : Embeds p xs [] := ⟨fun j => j.elim0, fun i => i.elim0, fun j => j.elim0⟩

theorem skip (h : Embeds p xs ys) : Embeds p (x :: xs) ys := by
  obtain ⟨f, hf, hp⟩ := h
  exact ⟨fun j => (f j).succ, fun i j hij => Fin.succ_lt_succ_iff.2 (hf i j hij), hp⟩

theorem cons (hxy : p x y = true) (h : Embeds p xs ys) : Embeds p (x :: xs) (y :: ys) := by
  obtain ⟨f, hf, hp⟩ := h
  refine ⟨Fin.cases 0 fun j => (f j).succ, fun i j hij => ?_, fun j => ?_⟩
  · cases j using Fin.cases with
    | zero => exact absurd hij (Fin.not_lt_zero i)
    | succ j =>
      cases i using Fin.cases with
      | zero => exact Fin.succ_pos _
      | succ i => exact Fin.succ_lt_succ_iff.2 (hf i j (Fin.succ_lt_succ_iff.1 hij))
  · cases j using Fin.cases with
    | zero => exact hxy
    | succ j => exact hp j

end Embeds

section Covers

variable (r : β → β → Bool) (g₁ g₂ : α → β)

/-- A pass over both lists finds an element of the first one for each of the second. -/
def covers : List α → List α → Bool
  | _, [] => true
  | [], _ :: _ => false
  | x :: xs, y :: ys =>
    if r (g₂ y) (g₁ x) then false
    else if r (g₁ x) (g₂ y) then covers xs (y :: ys)
    else covers xs ys

variable {r g₁ g₂} {x y : α} {xs ys : List α}

theorem covers_embeds (h : covers r g₁ g₂ xs ys = true) :
    Embeds (fun x y => equivalent r (g₁ x) (g₂ y)) xs ys := by
  induction xs generalizing ys with
  | nil =>
    cases ys with
    | nil => exact .nil
    | cons y ys => cases h
  | cons x xs ih =>
    cases ys with
    | nil => exact .nil
    | cons y ys =>
      rw [covers] at h
      cases hyx : r (g₂ y) (g₁ x) with
      | true => simp [hyx] at h
      | false =>
        cases hxy : r (g₁ x) (g₂ y) with
        | true => exact (ih (by simpa [hyx, hxy] using h)).skip
        | false => exact (ih (by simpa [hyx, hxy] using h)).cons (equivalent_iff.2 ⟨hxy, hyx⟩)

end Covers

section Classes

variable {r : β → β → Bool} {a b v : β} {bs : List β}

/-- What comes before the first element of a sorted list comes before all of them. -/
theorem Ordered.before (h : StrictWeakOrder r) (hs : Ordered r (b :: bs)) (hab : r a b = true) :
    ∀ c ∈ b :: bs, r a c = true := by
  intro c hc
  rcases List.mem_cons.1 hc with rfl | hc
  · exact hab
  · cases hac : r a c with
    | true => rfl
    | false => rw [← List.rel_of_pairwise_cons hs hc, h.between hab hac]

/-- No member of a class is found where all elements come behind one of it. -/
theorem countP_eq_zero_of_before (h : StrictWeakOrder r) (hv : equivalent r v a = true)
    (hb : ∀ c ∈ bs, r a c = true) : bs.countP (equivalent r v) = 0 := by
  refine List.countP_eq_zero.2 fun c hc he => ?_
  have hac := (equivalent_iff.1 (h.equivalent_of_class hv he)).1
  rw [hb c hc] at hac
  cases hac

/-- Equivalent elements are members of the same classes. -/
theorem equivalent_congr (h : StrictWeakOrder r) (hab : equivalent r a b = true) (v : β) :
    equivalent r v a = equivalent r v b := by
  rw [Bool.eq_iff_iff]
  exact ⟨fun hv => h.equivalent_of_class (equivalent_comm.trans hv) hab,
    fun hv => h.equivalent_of_class (equivalent_comm.trans hv) (equivalent_comm.trans hab)⟩

end Classes

/-- On sorted lists a pass decides whether the first one has as many members of each class. -/
theorem covers_iff_countP_le {r : β → β → Bool} {g₁ g₂ : α → β} {xs ys : List α}
    (h : StrictWeakOrder r) (hx : Ordered r (xs.map g₁)) (hy : Ordered r (ys.map g₂)) :
    covers r g₁ g₂ xs ys = true ↔
      ∀ v, (ys.map g₂).countP (equivalent r v) ≤ (xs.map g₁).countP (equivalent r v) := by
  induction xs generalizing ys with
  | nil =>
    cases ys with
    | nil => simp [covers]
    | cons y ys =>
      refine ⟨fun hc => absurd hc Bool.false_ne_true, fun hv => ?_⟩
      have := hv (g₂ y)
      rw [List.map_cons, List.countP_cons_of_pos (h.equivalent_self _)] at this
      exact absurd this (Nat.not_succ_le_zero _)
  | cons x xs ih =>
    cases ys with
    | nil => simp [covers]
    | cons y ys =>
      rw [covers]
      rw [List.map_cons] at hx hy ⊢
      rw [List.map_cons]
      cases hyx : r (g₂ y) (g₁ x) with
      | true =>
        have h0 := countP_eq_zero_of_before h (h.equivalent_self (g₂ y)) (hx.before h hyx)
        rw [if_pos rfl]
        refine ⟨fun hc => absurd hc Bool.false_ne_true, fun hv => ?_⟩
        have := hv (g₂ y)
        rw [h0, List.countP_cons_of_pos (h.equivalent_self _)] at this
        exact absurd this (Nat.not_succ_le_zero _)
      | false =>
        rw [if_neg Bool.false_ne_true]
        cases hxy : r (g₁ x) (g₂ y) with
        | true =>
          rw [if_pos rfl, ih hx.of_cons (show Ordered r ((y :: ys).map g₂) from hy), List.map_cons]
          refine forall_congr' fun v => ?_
          by_cases hv : equivalent r v (g₁ x) = true
          · rw [countP_eq_zero_of_before h hv (hy.before h hxy)]
            simp
          · rw [List.countP_cons_of_neg hv]
        | false =>
          rw [if_neg Bool.false_ne_true, ih hx.of_cons hy.of_cons]
          refine forall_congr' fun v => ?_
          rw [List.countP_cons, List.countP_cons,
            equivalent_congr h (equivalent_iff.2 ⟨hxy, hyx⟩) v, Nat.add_le_add_iff_right]

/-- Callables that answer in one way only make the pass that `covers` tells. -/
theorem Listed.includes_answers {comp : Relation κ β β} {proj₁ proj₂ : Projection κ α β}
    {r : β → β → Bool} {g₁ g₂ : α → β} (hr : ∀ y, Answers (comp y) (r y)) (hg₁ : Answers proj₁ g₁)
    (hg₂ : Answers proj₂ g₂) (xs ys : List α) (k : κ) :
    (includes proj₁ comp proj₂ xs ys k).1.1 = covers r g₁ g₂ xs ys := by
  induction xs generalizing ys k with
  | nil => cases ys <;> rfl
  | cons x xs ih =>
    cases ys with
    | nil => rfl
    | cons y ys =>
      rw [includes, covers, callBind_apply, hg₁, callBind_apply, hg₂, callBind_apply, hr]
      cases r (g₂ y) (g₁ x) with
      | true => rfl
      | false =>
        rw [if_neg Bool.false_ne_true, if_neg Bool.false_ne_true, callBind_apply, hr]
        cases r (g₁ x) (g₂ y) with
        | true => exact ih (y :: ys) _
        | false => exact ih ys _

/-! ## Rounds -/

section Runs

variable [IntCast α] [Inhabited α]

/-- Wherever something is read, a sequence has as many elements as before. -/
theorem Presents.drained {s : Store α} {c : Cursor α} {b : Bound α} {xs : List α}
    (h : Presents s c b xs) (e : Cursor α) :
    ∃ ys, ys.length = xs.length ∧ Presents (e.drain s) c b ys := by
  induction xs generalizing c with
  | nil => exact ⟨[], rfl, h.shows, h.ends, h.suits⟩
  | cons x xs ih =>
    obtain ⟨hv, hx, hs, -⟩ := Cursor.shows_cons_iff.1 h.shows
    obtain ⟨y, hy⟩ := Cursor.exists_look_drain hx e
    obtain ⟨ys, hl, ht⟩ := ih (h.drop (n := 1) (Nat.le_add_left 1 xs.length))
    have hl : (y :: ys).length = (x :: xs).length := congrArg (· + 1) hl
    exact ⟨y :: ys, hl, Cursor.shows_cons_iff.2 ⟨hv, hy, hs, ht.shows⟩, hl ▸ h.ends, h.suits⟩

/-- The calls of at most `n` rounds. Each projects an element of either sequence, and tests them once
or twice. -/
structure Calls.Rounds (n : Nat) (m : Calls) : Prop where
  projections : m.projections ≤ n
  secondProjections : m.secondProjections = m.projections
  tests : m.tests ≤ 2 * m.projections

/-- The induction is on the elements of the first sequence, one of which is taken in each round. -/
theorem includes_spends {c d : Cursor α} {last₁ last₂ : Bound α} {xs ys : List α}
    {w : World α (κ × Calls)} (hc : Presents w.store c last₁ xs) (hd : Presents w.store d last₂ ys)
    (comp : Relation κ β β) (proj₁ proj₂ : Projection κ α β) :
    (includes c last₁ d last₂ comp.counted proj₁.counted proj₂.countedSecond).Spends w
      (Calls.Rounds xs.length) := by
  have hnone (n : Nat) : Calls.Rounds n .none := ⟨Nat.zero_le n, rfl, Nat.le_refl 0⟩
  induction hn : xs.length generalizing c d xs ys w with
  | zero =>
    obtain rfl := List.eq_nil_of_length_eq_zero hn
    rw [includes_eq]
    split
    · exact .pure (hnone 0)
    · rw [if_pos (show last₁.isEnd c = true from hc.ends)]
      exact .pure (hnone 0)
  | succ n ih =>
    obtain ⟨x, xs, rfl⟩ := List.exists_cons_of_length_eq_add_one hn
    rw [List.length_cons, Nat.add_right_cancel_iff] at hn
    obtain ⟨-, hx, hstep, -⟩ := Cursor.shows_cons_iff.1 hc.shows
    rw [includes_eq, if_neg (ne_true_of_eq_false hc.ends.1)]
    obtain ⟨ys, -, hd⟩ := hd.drained c
    cases ys with
    | nil =>
      rw [if_pos (show last₂.isEnd d = true from hd.ends)]
      exact .pure (hnone _)
    | cons y ys =>
      obtain ⟨-, hy, hdstep, -⟩ := Cursor.shows_cons_iff.1 hd.shows
      obtain ⟨xs', hxs', hc'⟩ := hc.tail.drained d
      rw [if_neg (ne_true_of_eq_false hd.ends.1)]
      refine .project hx (.project hy (.call ?_))
      split
      · exact .pure ⟨by simp, rfl, by simp⟩
      · refine .call ?_
        have hround {m : Calls} (h : m.Rounds n) :
            (Calls.projection + (.secondProjection + (.test + (.test + m)))).Rounds (n + 1) := by
          obtain ⟨hp, hs, ht⟩ := h
          constructor <;> simp <;> omega
        split
        · obtain ⟨ys', -, hd'⟩ := hd.drained d
          exact .lift rfl (.lift hstep ((ih hc' hd' (hxs'.trans hn)).mono fun m => hround))
        · exact .lift hdstep (.lift hstep ((ih hc' hd.tail (hxs'.trans hn)).mono fun m => hround))

/-- What a form of the comparison comes to on two sequences. `left` is what it asks of them so that
reading leaves the elements that are read later. -/
structure Inclusion (s : Store α) (xs ys : List α) (left : Prop)
    (act : ∀ {κ : Type}, Relation κ β β → Projection κ α β → Projection κ α β →
      Run α κ (Verdict α)) : Prop where
  /-- It ends whatever the callables answer, and no element of the first sequence is looked at in two
  rounds. -/
  ends : ∀ {κ : Type} (comp : Relation κ β β) (proj₁ proj₂ : Projection κ α β) (k : κ × Calls),
    (act comp.counted proj₁.counted proj₂.countedSecond).Spends ⟨s, k⟩ fun m =>
      m.projections ≤ xs.length ∧ m.secondProjections = m.projections ∧ m.tests ≤ 2 * xs.length
  decides : left → ∀ {κ : Type} {comp : Relation κ β β} {proj₁ proj₂ : Projection κ α β}
    {r : β → β → Bool} {g₁ g₂ : α → β}, (∀ y, Answers (comp y) (r y)) → Answers proj₁ g₁ →
    Answers proj₂ g₂ → ∀ k : κ, ∃ v w, act comp proj₁ proj₂ ⟨s, k⟩ = .ok v w ∧
      (v.holds = true → Embeds (fun x y => equivalent r (g₁ x) (g₂ y)) xs ys) ∧
      (StrictWeakOrder r → Ordered r (xs.map g₁) → Ordered r (ys.map g₂) →
        (v.holds = true ↔
          ∀ a, (ys.map g₂).countP (equivalent r a) ≤ (xs.map g₁).countP (equivalent r a)))

theorem includes_inclusion {s : Store α} {c d : Cursor α} {last₁ last₂ : Bound α} {xs ys : List α}
    (hc : Presents s c last₁ xs) (hd : Presents s d last₂ ys) :
    Inclusion s xs ys (c.Apart xs.length d ys.length ∧ d.keeps = true)
      fun (comp : Relation _ β β) proj₁ proj₂ => includes c last₁ d last₂ comp proj₁ proj₂ where
  ends comp proj₁ proj₂ k := by
    refine (includes_spends hc hd comp proj₁ proj₂).mono fun m hm => ?_
    obtain ⟨hp, hs, ht⟩ := hm
    exact ⟨hp, hs, by omega⟩
  decides := by
    rintro ⟨ha, hk⟩ κ comp proj₁ proj₂ r g₁ g₂ hr hg₁ hg₂ k
    obtain ⟨t, h⟩ := Listed.includes_yields (k := k) hc hd ha hk comp proj₁ proj₂
    refine ⟨_, _, h, ?_, ?_⟩ <;> dsimp only <;> rw [Listed.includes_answers hr hg₁ hg₂]
    · exact covers_embeds
    · exact covers_iff_countP_le

/-- Up to bounds, on ranges and with a list as the first sequence, the comparison ends after as many
rounds as the first sequence has elements, and decides inclusion. An element of the second sequence is
read again when one of the first is passed over: the cursor must not move it out. -/
theorem inclusion_decided {s : Store α} {c d : Cursor α} {last₁ last₂ : Bound α} {xs ys : List α}
    (hc : Presents s c last₁ xs) (hd : Presents s d last₂ ys) (e₁ e₂ : Extent) :
    (Inclusion s xs ys (c.Apart xs.length d ys.length ∧ d.keeps = true)
      fun (comp : Relation _ β β) proj₁ proj₂ => includes c last₁ d last₂ comp proj₁ proj₂) ∧
    (Inclusion s xs ys (c.Apart xs.length d ys.length ∧ d.keeps = true)
      fun (comp : Relation _ β β) proj₁ proj₂ =>
        Range.includes ⟨c, last₁, e₁⟩ ⟨d, last₂, e₂⟩ comp proj₁ proj₂) ∧
    ∀ zs : List α, (zs.length : Int) ≤ Width.w64.max →
      Inclusion s zs ys (d.keeps = true)
        fun (comp : Relation _ β β) proj₁ proj₂ =>
          includesList zs ⟨d, last₂, e₂⟩ comp proj₁ proj₂ := by
  refine ⟨includes_inclusion hc hd, includes_inclusion hc hd, fun zs hz => ?_⟩
  have h := includes_inclusion (β := β) (presents_ofList hz s) hd
  exact ⟨h.ends, fun hk => h.decides ⟨Cursor.apart_of_slot?_eq_none rfl rfl _ _, hk⟩⟩

end Runs

/-- Two of the elements that are moved out have the tens digit 2, and three are not included. -/
theorem inclusion_decided_tens :
    let store : Store Int := [[10, 21, 22, 35]]
    let first : Cursor Int := .moving (.slice (.stored 0 4) 0)
    let last : Bound Int := .moving (.cursor (.slice (.stored 0 4) 4))
    let less : Relation Nat Int Int := fun a b k => (decide (a < b), k + 1)
    let tens : Projection Nat Int Int := fun x k => (x / 10, k)
    let asked : Nat → Range Int := fun n => .ofSource (.shared 7 (List.replicate n 2))
    (∃ v w, (Range.mk first last .unknown).includes (asked 2) less tens .identity ⟨store, 0⟩ =
      .ok v w ∧ v.holds = true) ∧
    ∃ v w, (Range.mk first last .unknown).includes (asked 3) less tens .identity ⟨store, 0⟩ =
      .ok v w ∧ v.holds = false := by
  intro store first last less tens asked
  have hc : Presents store first last [10, 21, 22, 35] :=
    presents_moving (presents_ofSource (show (Source.stored 0 4).Holds _ _ from ⟨rfl, rfl⟩)
      (by decide)) rfl
  have hd (n : Nat) (hn : (n : Int) ≤ Width.w64.max) :
      Presents store (asked n).first (asked n).last (List.replicate n 2) :=
    presents_ofSource (show (Source.shared 7 _).Holds _ _ from rfl)
      (by rwa [List.length_replicate])
  have hr (y : Int) : Answers (less y) fun x => decide (y < x) := fun _ _ => rfl
  have hg₁ : Answers tens fun x => x / 10 := fun _ _ => rfl
  have hg₂ : Answers (Projection.identity (κ := Nat)) (id : Int → Int) := fun _ _ => rfl
  have ha (n : Nat) : first.Apart 4 (asked n).first (List.replicate n (2 : Int)).length :=
    (Cursor.apart_of_slot?_eq_none rfl rfl _ _).symm
  constructor
  · obtain ⟨v, w, h, -, hdecides⟩ := (inclusion_decided hc (hd 2 (by decide)) .unknown
      (asked 2).extent).2.1.decides ⟨ha 2, rfl⟩ hr hg₁ hg₂ 0
    refine ⟨v, w, h, (hdecides strictWeakOrder_lt (by decide) (by decide)).2 fun a => ?_⟩
    exact List.Sublist.countP_le (by decide)
  · obtain ⟨v, w, h, -, hdecides⟩ := (inclusion_decided hc (hd 3 (by decide)) .unknown
      (asked 3).extent).2.1.decides ⟨ha 3, rfl⟩ hr hg₁ hg₂ 0
    refine ⟨v, w, h, Bool.eq_false_iff.2 fun hv => ?_⟩
    exact absurd ((hdecides strictWeakOrder_lt (by decide) (by decide)).1 hv 2) (by decide)

/-- An element that is moved out is not found again when one of the first sequence has been passed
over. So 3 is missing from 1 and 3, although it is there, and 5 is not missing from -1 and 0, since what
is left of it is 0. Nor is 3 found in its own sequence if the first one moves it out. -/
theorem inclusion_emptied :
    let lt : Int → Int → Bool := fun a b => decide (a < b)
    let less : Relation Unit Int Int := fun a b k => (lt a b, k)
    let bare : Nat → Cursor Int := fun i => .slice (.stored 0 1) i
    let moved : Nat → Cursor Int := fun i => .moving (bare i)
    let included : Range Int → (Nat → Cursor Int) → Int → Option Bool := fun first second y =>
      let act := includes first.first first.last (second 0) (.cursor (second 1)) less .identity
        .identity
      (act.result ⟨[[y]], ()⟩).toOption.map Verdict.holds
    (∀ y, Presents [[y]] (bare 0) (.cursor (bare 1)) [y] ∧
      Presents [[y]] (moved 0) (.cursor (moved 1)) [y]) ∧
      StrictWeakOrder lt ∧ (∀ y, Answers (less y) (lt y)) ∧ Ordered lt [1, 3] ∧ Ordered lt [-1, 0] ∧
      (included (.ofList [1, 3]) moved 3 = some false ∧
        ∀ a, [3].countP (equivalent lt a) ≤ [1, 3].countP (equivalent lt a)) ∧
      (included (.ofList [-1, 0]) moved 5 = some true ∧
        ¬Embeds (fun x y => equivalent lt x y) [-1, 0] [5]) ∧
      included (.between (moved 0) (moved 1)) bare 3 = some false := by
  intro lt less bare moved included
  have hp (y : Int) : Presents [[y]] (bare 0) (.cursor (bare 1)) [y] :=
    presents_ofSource (show (Source.stored 0 1).Holds _ _ from ⟨rfl, rfl⟩)
      (by rw [List.length_singleton]; decide)
  have hmissed : included (.ofList [1, 3]) moved 3 = some false := by decide +kernel
  have hfound : included (.ofList [-1, 0]) moved 5 = some true := by decide +kernel
  have hlost : included (.between (moved 0) (moved 1)) bare 3 = some false := by decide +kernel
  have hnone : ∀ i : Fin 2, equivalent lt [-1, 0][i] 5 = false := by decide
  refine ⟨fun y => ⟨hp y, presents_moving_cursor (hp y) rfl⟩, strictWeakOrder_lt, fun _ _ _ => rfl,
    by decide, by decide, ⟨hmissed, fun a => List.Sublist.countP_le (by decide)⟩, ⟨hfound, ?_⟩, hlost⟩
  rintro ⟨f, -, hf⟩
  exact Bool.false_ne_true ((hnone (f 0)).symm.trans (hf 0))

end Waymark
