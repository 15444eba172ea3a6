import Waymark.Proofs.Compare.Listed
import Waymark.Proofs.Confined
import Waymark.Proofs.Search.Boundary

/-!
# Equality of two sequences

`equal` on callables that answer each question in one way only: it holds exactly if the lists are
equally long and all pairs are related (`Listed.equal_holds`), and it asks about the pairs up to the
first one that is not related (`Listed.equal_calls`). Lengths that are known on both sides and differ
answer without a call (`equalMeasured_eq`). `equal_exact` says so of every way to pose the question.

Elements that are moved out are gone for whoever reads them next. So two sequences have to leave each
other alone (`Cursor.Apart`) if a single pair is looked at: cursors that move the elements out of one
sequence find it unequal to itself (`equal_emptied`). A list shares nothing, and needs no condition.
-/

namespace Waymark

variable {α β γ κ : Type}

/-- The state of the callables after each of the pairs has been projected, the first element before
the second one, and related. -/
def relateEach (rel : Relation κ β γ) (proj₁ : Projection κ α β) (proj₂ : Projection κ α γ) :
    List (α × α) → κ → κ
  | [], k => k
  | (x, y) :: zs, k =>
    relateEach rel proj₁ proj₂ zs ((do rel (← proj₁ x) (← proj₂ y) : StateM κ Bool) k).2

/-- The number of leading pairs that are related. -/
def leading (p : α → α → Bool) (xs ys : List α) : Nat :=
  ((xs.zip ys).takeWhile fun z => p z.1 z.2).length

/-- The number of pairs that are looked at: none if the lengths are told and differ, else those up to
the first one that is not related. -/
def compared (told : Bool) (p : α → α → Bool) (xs ys : List α) : Nat :=
  if told = true ∧ xs.length ≠ ys.length then 0
  else min (leading p xs ys + 1) (min xs.length ys.length)

/-- The lists are equally long, and the elements at the same places are related. -/
def Matching (p : α → α → Bool) (xs ys : List α) : Prop :=
  xs.length = ys.length ∧
    ∀ i (hx : i < xs.length) (hy : i < ys.length), p xs[i] ys[i] = true

theorem matching_cons_iff {p : α → α → Bool} {x y : α} {xs ys : List α} :
    Matching p (x :: xs) (y :: ys) ↔ p x y = true ∧ Matching p xs ys := by
  constructor
  · rintro ⟨hl, h⟩
    refine ⟨h 0 (Nat.succ_pos _) (Nat.succ_pos _), Nat.succ.inj hl, fun i hx hy => ?_⟩
    exact h (i + 1) (Nat.succ_lt_succ hx) (Nat.succ_lt_succ hy)
  · rintro ⟨h0, hl, h⟩
    refine ⟨congrArg Nat.succ hl, fun i hx hy => ?_⟩
    cases i with
    | zero => exact h0
    | succ i => exact h i (Nat.lt_of_succ_lt_succ hx) (Nat.lt_of_succ_lt_succ hy)

/-! ## On lists -/

namespace Listed

variable {rel : Relation κ β γ} {proj₁ : Projection κ α β} {proj₂ : Projection κ α γ}
  {r : β → γ → Bool} {g₁ : α → β} {g₂ : α → γ} {xs ys : List α}

theorem equal_holds (hr : ∀ a, Answers (rel a) (r a)) (hg₁ : Answers proj₁ g₁)
    (hg₂ : Answers proj₂ g₂) (xs ys : List α) (k : κ) :
    (equal proj₁ rel proj₂ xs ys k).1.1 = true ↔ Matching (fun x y => r (g₁ x) (g₂ y)) xs ys := by
  induction xs generalizing ys k with
  | nil =>
    cases ys with
    | nil => exact iff_of_true rfl ⟨rfl, fun i hx => absurd hx (Nat.not_lt_zero i)⟩
    | cons y ys => exact iff_of_false Bool.false_ne_true fun h => nomatch h.1
  | cons x xs ih =>
    cases ys with
    | nil => exact iff_of_false Bool.false_ne_true fun h => nomatch h.1
    | cons y ys =>
      rw [equal, callBind_apply, hg₁, callBind_apply, hg₂, callBind_apply, hr, matching_cons_iff]
      cases hb : r (g₁ x) (g₂ y) with
      | true => exact (ih ys _).trans (and_iff_right rfl).symm
      | false => exact iff_of_false Bool.false_ne_true fun h => Bool.false_ne_true h.1

theorem equal_calls (hr : ∀ a, Answers (rel a) (r a)) (hg₁ : Answers proj₁ g₁)
    (hg₂ : Answers proj₂ g₂) (xs ys : List α) (k : κ) :
    (equal proj₁ rel proj₂ xs ys k).2 = relateEach rel proj₁ proj₂
      ((xs.zip ys).take (leading (fun x y => r (g₁ x) (g₂ y)) xs ys + 1)) k := by
  induction xs generalizing ys k with
  | nil => cases ys <;> rfl
  | cons x xs ih =>
    cases ys with
    | nil => rfl
    | cons y ys =>
      have hp (k : κ) : ((do rel (← proj₁ x) (← proj₂ y) : StateM κ Bool) k).2 =
          (rel (g₁ x) (g₂ y) (proj₂ y (proj₁ x k).2).2).2 := by
        rw [callBind_apply, callBind_apply, hg₁, hg₂]
      rw [equal, callBind_apply, callBind_apply, callBind_apply, hg₁, hg₂, hr, leading,
        List.zip_cons_cons, List.takeWhile_cons, List.take_succ_cons, relateEach, hp]
      cases hb : r (g₁ x) (g₂ y) with
      | true => exact ih ys _
      | false => rfl

end Listed

/-! ## On sequences -/

/-- A length, if it is told. -/
def toldLength (told : Bool) (n : Nat) : Option Int := if told then some n else none

/-- The run returns a verdict that holds exactly if `truth` does, and leaves the callables in the
state `k`. -/
def Run.Decides (act : Run α κ (Verdict α)) (w : World α κ) (truth : Prop) (k : κ) : Prop :=
  ∃ v w', act w = .ok v w' ∧ (v.holds = true ↔ truth) ∧ w'.calls = k

section Sequences

variable [IntCast α] {c d : Cursor α} {last₁ last₂ : Bound α} {xs ys : List α} {e₁ e₂ : Extent}
  {s : Store α} {w : World α κ}

/-- A range tells its length, or leaves it to its bound, or nobody tells it. -/
theorem Presents.sizeOr (h : Presents s c last₁ xs) (hn : last₁.sized = true → c.width.Fits xs.length)
    (he : ∀ n : Int, e₁ = .known n → n = xs.length) :
    let r : Range α := ⟨c, last₁, e₁⟩
    ∃ told, r.measure = .ok told ∧ r.sizeOr told = .ok (toldLength r.tells xs.length) := by
  have hm := h.measure hn
  cases e₁ with
  | ofBound =>
    refine ⟨_, hm, ?_⟩
    cases hb : last₁.sized with
    | true => simp [Range.sizeOr, Range.tells, toldLength, hb]
    | false =>
      rw [hb] at hm
      simpa [Range.sizeOr, Range.tells, toldLength, hb] using hm
  | unknown => exact ⟨none, rfl, hm⟩
  | known n =>
    obtain rfl := he n rfl
    exact ⟨_, rfl, rfl⟩

variable [Inhabited α] {rel : Relation κ β γ} {proj₁ : Projection κ α β}
  {proj₂ : Projection κ α γ} {r : β → γ → Bool} {g₁ : α → β} {g₂ : α → γ}

theorem equal_eq (hc : Presents s c last₁ xs) (hd : Presents s d last₂ ys)
    (hn₁ : last₁.sized = true → c.width.Fits xs.length)
    (hn₂ : last₂.sized = true → d.width.Fits ys.length) :
    equal c last₁ d last₂ rel proj₁ proj₂ = equalMeasured c last₁ (toldLength last₁.sized xs.length)
      d last₂ (toldLength last₂.sized ys.length) rel proj₁ proj₂ := by
  rw [equal, hc.measure hn₁, hd.measure hn₂]
  rfl

theorem Range.equal_eq (hc : Presents s c last₁ xs) (hd : Presents s d last₂ ys)
    (hn₁ : last₁.sized = true → c.width.Fits xs.length)
    (hn₂ : last₂.sized = true → d.width.Fits ys.length)
    (he₁ : ∀ n : Int, e₁ = .known n → n = xs.length)
    (he₂ : ∀ n : Int, e₂ = .known n → n = ys.length) :
    let r₁ : Range α := ⟨c, last₁, e₁⟩
    let r₂ : Range α := ⟨d, last₂, e₂⟩
    r₁.equal r₂ rel proj₁ proj₂ = equalMeasured c last₁ (toldLength r₁.tells xs.length)
      d last₂ (toldLength r₂.tells ys.length) rel proj₁ proj₂ := by
  intro r₁ r₂
  obtain ⟨told₁, hm₁, hs₁⟩ := hc.sizeOr hn₁ he₁
  obtain ⟨told₂, hm₂, hs₂⟩ := hd.sizeOr hn₂ he₂
  rw [Range.equal, hm₁, hm₂]
  show (do
    let size₁ ← r₁.sizeOr told₁
    let size₂ ← r₂.sizeOr told₂
    equalMeasured c last₁ size₁ d last₂ size₂ rel proj₁ proj₂ : Run α κ (Verdict α)) = _
  rw [hs₁, hs₂]
  rfl

/-- Lengths that are told on both sides and differ decide at once; all else is left to the
elements. -/
theorem equalMeasured_eq {m n : Nat} (hc : last₁.LiesAhead c m) (hd : last₂.LiesAhead d n)
    (t₁ t₂ : Bool) :
    equalMeasured c last₁ (toldLength t₁ m) d last₂ (toldLength t₂ n) rel proj₁ proj₂ =
      if (t₁ && t₂) = true ∧ m ≠ n then return ⟨false, c, d⟩
      else equalByBoth c last₁ d last₂ rel proj₁ proj₂ := by
  cases t₁ with
  | false => rfl
  | true =>
    cases t₂ with
    | false => rfl
    | true =>
      by_cases hmn : m = n
      · subst hmn
        simp only [toldLength, equalMeasured, if_true]
        rw [if_neg (by simp)]
        exact equalByFirst_eq_equalByBoth hc hd rel proj₁ proj₂
      · simp only [toldLength, equalMeasured, if_true]
        rw [if_neg (by omega), if_pos ⟨rfl, hmn⟩]

/-- Whoever tells the lengths, two sequences are equal exactly if their lists match, and the
callables are asked about the pairs that are looked at. Where these are looked at, reading the one
sequence has to leave the other. -/
theorem equalMeasured_decides (hc : Presents w.store c last₁ xs) (hd : Presents w.store d last₂ ys)
    (hr : ∀ a, Answers (rel a) (r a)) (hg₁ : Answers proj₁ g₁) (hg₂ : Answers proj₂ g₂)
    (t₁ t₂ : Bool)
    (ha : (t₁ && t₂) = true ∧ xs.length ≠ ys.length ∨ c.Apart xs.length d ys.length) :
    (equalMeasured c last₁ (toldLength t₁ xs.length) d last₂ (toldLength t₂ ys.length) rel proj₁
      proj₂).Decides w (Matching (fun x y => r (g₁ x) (g₂ y)) xs ys)
        (relateEach rel proj₁ proj₂ ((xs.zip ys).take
          (compared (t₁ && t₂) (fun x y => r (g₁ x) (g₂ y)) xs ys)) w.calls) := by
  rw [equalMeasured_eq hc.ends hd.ends, compared]
  split
  · next h =>
    refine ⟨_, w, rfl, ?_, rfl⟩
    simp [Matching, h.2]
  · next h =>
    have ha := ha.resolve_left h
    obtain ⟨t, he⟩ := Listed.equalByBoth_yields (k := w.calls) hc hd ha rel proj₁ proj₂
    refine ⟨_, _, he, Listed.equal_holds hr hg₁ hg₂ xs ys w.calls, ?_⟩
    rw [← List.length_zip, ← List.take_eq_take_min]
    exact Listed.equal_calls hr hg₁ hg₂ xs ys w.calls

theorem equalByBoth_confined (hc : Presents s c last₁ xs) (hd : Presents s d last₂ ys)
    (rel : Relation κ β γ) (proj₁ : Projection κ α β) (proj₂ : Projection κ α γ) :
    (equalByBoth c last₁ d last₂ rel proj₁ proj₂).Confined
      (fun e => c.Before xs.length e ∨ d.Before ys.length e) fun _ => True := by
  induction xs generalizing ys c d with
  | nil =>
    have hce : last₁.isEnd c = true := hc.ends
    rw [equalByBoth_eq, hce]
    cases last₂.isEnd d <;> exact .pure trivial
  | cons x xs ih =>
    cases ys with
    | nil =>
      have hde : last₂.isEnd d = true := hd.ends
      rw [equalByBoth_eq, hc.ends.1, hde]
      exact .pure trivial
    | cons y ys =>
      have hc1 := hc.shows.reach (Nat.le_add_left 1 xs.length)
      have hd1 := hd.shows.reach (Nat.le_add_left 1 ys.length)
      have ih := ih (hc.drop (Nat.le_add_left 1 xs.length)) (hd.drop (Nat.le_add_left 1 ys.length))
      rw [equalByBoth_eq, hc.ends.1, hd.ends.1]
      simp only [related, bind_assoc]
      refine .project (.inl ⟨0, Nat.succ_pos _, rfl⟩) fun a =>
        .project (.inr ⟨0, Nat.succ_pos _, rfl⟩) fun b => .call fun held => .ite (fun _ => ?_) fun _ => ?_
      · refine .lift (Cursor.shows_cons_iff.1 hc.shows).2.2.1
          (.lift (Cursor.shows_cons_iff.1 hd.shows).2.2.1 (ih.mono ?_ fun _ h => h))
        rintro e (he | he)
        · exact .inl (he.of_hop hc1 (by simp; omega))
        · exact .inr (he.of_hop hd1 (by simp; omega))
      · exact .pure trivial

theorem equalMeasured_confined (hc : Presents s c last₁ xs) (hd : Presents s d last₂ ys)
    (t₁ t₂ : Bool) :
    (equalMeasured c last₁ (toldLength t₁ xs.length) d last₂ (toldLength t₂ ys.length) rel proj₁
      proj₂).Confined (fun e => c.Before xs.length e ∨ d.Before ys.length e) fun _ => True := by
  rw [equalMeasured_eq hc.ends hd.ends]
  split
  · exact .pure trivial
  · exact equalByBoth_confined hc hd rel proj₁ proj₂

/-- Two sequences are equal exactly if they match, however the question is posed, unless reading one
of them changes the other before that is read as well. For each of the pairs that are looked at every
callable is called once, for no other pair any. With callables of any kind, both loops are the same
action on sequences of one length, and nothing is read behind the end of either sequence. -/
theorem equal_exact (hc : Presents w.store c last₁ xs) (hd : Presents w.store d last₂ ys)
    (hn₁ : last₁.sized = true → c.width.Fits xs.length)
    (hn₂ : last₂.sized = true → d.width.Fits ys.length) (hr : ∀ a, Answers (rel a) (r a))
    (hg₁ : Answers proj₁ g₁) (hg₂ : Answers proj₂ g₂)
    (he₁ : ∀ n : Int, e₁ = .known n → n = xs.length)
    (he₂ : ∀ n : Int, e₂ = .known n → n = ys.length) :
    let p := fun x y => r (g₁ x) (g₂ y)
    let asked := fun told =>
      relateEach rel proj₁ proj₂ ((xs.zip ys).take (compared told p xs ys)) w.calls
    let left := fun told =>
      told = true ∧ xs.length ≠ ys.length ∨ c.Apart xs.length d ys.length
    let r₁ : Range α := ⟨c, last₁, e₁⟩
    let r₂ : Range α := ⟨d, last₂, e₂⟩
    let inside := fun act : Run α κ (Verdict α) =>
      act.Confined (fun e => c.Before xs.length e ∨ d.Before ys.length e) fun _ => True
    (left (last₁.sized && last₂.sized) →
        (equal c last₁ d last₂ rel proj₁ proj₂).Decides w (Matching p xs ys)
          (asked (last₁.sized && last₂.sized))) ∧
      (left (r₁.tells && r₂.tells) →
        (r₁.equal r₂ rel proj₁ proj₂).Decides w (Matching p xs ys) (asked (r₁.tells && r₂.tells))) ∧
      ((xs.length : Int) ≤ Width.w64.max →
        (equalList xs r₂ rel proj₁ proj₂).Decides w (Matching p xs ys) (asked r₂.tells)) ∧
      ∀ (rel : Relation κ β γ) (proj₁ : Projection κ α β) (proj₂ : Projection κ α γ),
        (xs.length = ys.length → equalByFirst c last₁ d rel proj₁ proj₂ =
          equalByBoth c last₁ d last₂ rel proj₁ proj₂) ∧
        inside (equalByBoth c last₁ d last₂ rel proj₁ proj₂) ∧
        inside (equal c last₁ d last₂ rel proj₁ proj₂) ∧ inside (r₁.equal r₂ rel proj₁ proj₂) := by
  intro p asked left r₁ r₂ inside
  refine ⟨fun ha => ?_, fun ha => ?_, fun hm => ?_, fun rel proj₁ proj₂ => ⟨fun hl => ?_, ?_, ?_, ?_⟩⟩
  · rw [equal_eq hc hd hn₁ hn₂]
    exact equalMeasured_decides hc hd hr hg₁ hg₂ _ _ ha
  · rw [Range.equal_eq hc hd hn₁ hn₂ he₁ he₂]
    exact equalMeasured_decides hc hd hr hg₁ hg₂ _ _ ha
  · have hl := presents_ofList hm w.store
    have hla := Cursor.apart_of_slot?_eq_none (c := (Range.ofList xs).first) (d := d) rfl rfl
      xs.length ys.length
    have hle (n : Int) (h : Extent.ofBound = .known n) : n = xs.length := nomatch h
    rw [equalList, Range.of, Range.equal_eq hl hd (fun _ => ?_) hn₂ hle he₂]
    · exact equalMeasured_decides hl hd hr hg₁ hg₂ _ _ (.inr hla)
    · exact Width.fits_natCast hm
  · have he := hd.ends
    rw [← hl] at he
    exact equalByFirst_eq_equalByBoth hc.ends he rel proj₁ proj₂
  · exact equalByBoth_confined hc hd rel proj₁ proj₂
  · show Run.Confined _ _ (equal _ _ _ _ _ _ _)
    rw [equal_eq hc hd hn₁ hn₂]
    exact equalMeasured_confined hc hd _ _
  · show Run.Confined _ _ (Range.equal _ _ _ _ _)
    rw [Range.equal_eq hc hd hn₁ hn₂ he₁ he₂]
    exact equalMeasured_confined hc hd _ _

end Sequences

/-- Integers of 8 bits against elements that are moved out of the store: the third pair decides, and
a range that hides its length changes nothing. Nor does it if the other elements are moved out of a
sequence of their own. -/
theorem equal_exact_iota :
    let w : World Int (Nat × Nat × Nat) := ⟨[[1, 2, 5, 6], [1, 2, 3, 4]], (0, 0, 0)⟩
    let integers : Range Int := ⟨.iota .w8 1, .cursor (.iota .w8 5), .ofBound⟩
    let stored : Nat → Nat → Cursor Int := fun p i => .moving (.slice (.stored p 4) i)
    let hidden : Range Int := ⟨stored 0 0, .cursor (stored 0 4), .unknown⟩
    let eq : Relation (Nat × Nat × Nat) Int Int := fun a b k => (a == b, (k.1 + 1, k.2))
    let proj₁ : Projection (Nat × Nat × Nat) Int Int := fun x k => (x, (k.1, k.2.1 + 1, k.2.2))
    let proj₂ : Projection (Nat × Nat × Nat) Int Int := fun x k => (x, (k.1, k.2.1, k.2.2 + 1))
    let matching := Matching (fun x y : Int => x == y) [1, 2, 3, 4] [1, 2, 5, 6]
    (integers.equal hidden eq proj₁ proj₂).Decides w matching (3, 3, 3) ∧
      (equal (stored 1 0) (.cursor (stored 1 4)) (stored 0 0) (.cursor (stored 0 4)) eq proj₁
        proj₂).Decides w matching (3, 3, 3) := by
  intro w integers stored hidden eq proj₁ proj₂ matching
  have hi : Presents w.store integers.first integers.last [1, 2, 3, 4] :=
    presents_iota (x := 1) (n := 4) (by decide) (by decide)
  have hs {p : Nat} {xs : List Int} (h : (Source.stored p 4).Holds w.store xs)
      (hl : (xs.length : Int) ≤ Width.w64.max) :
      Presents w.store (stored p 0) (.cursor (stored p 4)) xs :=
    presents_moving_cursor (presents_ofSource h hl) rfl
  have h₁ : Presents w.store (stored 1 0) (.cursor (stored 1 4)) [1, 2, 3, 4] :=
    hs ⟨rfl, rfl⟩ (by decide)
  have h₂ : Presents w.store (stored 0 0) (.cursor (stored 0 4)) [1, 2, 5, 6] :=
    hs ⟨rfl, rfl⟩ (by decide)
  have hr (a : Int) : Answers (eq a) fun b => a == b := fun _ _ => rfl
  have hg₁ : Answers proj₁ id := fun _ _ => rfl
  have hg₂ : Answers proj₂ id := fun _ _ => rfl
  have hb (n : Int) (h : Extent.ofBound = .known n) : n = 4 := nomatch h
  have hu (n : Int) (h : Extent.unknown = .known n) : n = 4 := nomatch h
  exact ⟨(equal_exact hi h₂ (fun _ => by decide) (fun _ => by decide) hr hg₁ hg₂ hb hu).2.1
      (.inr (Cursor.apart_of_slot?_eq_none rfl rfl _ _)),
    (equal_exact h₁ h₂ (fun _ => by decide) (fun _ => by decide) hr hg₁ hg₂ hb hu).1
      (.inr (Cursor.apart_of_place_ne rfl rfl Nat.one_ne_zero _ _))⟩

/-- Two cursors that move the elements out of one sequence both present 1 and 2. The second one finds
what the first one has left of them, so that they are not equal. -/
theorem equal_emptied :
    let w : World Int Nat := ⟨[[1, 2]], 0⟩
    let place : Nat → Cursor Int := fun i => .moving (.slice (.stored 0 2) i)
    let last : Bound Int := .cursor (place 2)
    let eq : Relation Nat Int Int := fun a b k => (a == b, k + 1)
    Presents w.store (place 0) last [1, 2] ∧ (∀ a, Answers (eq a) fun b => a == b) ∧
      Matching (fun x y : Int => x == y) [1, 2] [1, 2] ∧
      ((equal (place 0) last (place 0) last eq .identity .identity).result w).toOption.map
        Verdict.holds = some false := by
  intro w place last eq
  have hp : Presents w.store (place 0) last [1, 2] :=
    presents_moving_cursor (presents_ofSource (show (Source.stored 0 2).Holds _ _ from ⟨rfl, rfl⟩)
      (by decide)) rfl
  have hm : Matching (fun x y : Int => x == y) [1, 2] [1, 2] := ⟨rfl, by decide⟩
  exact ⟨hp, fun _ _ _ => rfl, hm, by decide +kernel⟩

end Waymark
