import Waymark.Proofs.Cursor.Moves
import Waymark.Proofs.Search.Within
import Waymark.Proofs.Rearrange.Compact
import Waymark.Proofs.Rearrange.Converge
import Waymark.Proofs.Alongside

/-!
# The ways to ask for one thing

A search can be asked for by the number of elements, up to a bound, and of a range that tells its
length, leaves that to its bound or keeps it to itself; some are asked of a list. Wherever the lengths
that are told are right, these are one and the same action on the world (`OneSearch`), and so they are
for comparisons (`OneComparison`): whatever the callables remember, they cannot tell which way was
taken. A list form works on a sequence of its own, so that it is not the same action as a search of a
slice that has the same elements, but it goes alongside it (`ListForms`). The forms for storage return
the index of the position where the others stop (`indexOf_runs`).
-/

namespace Waymark

variable {α β γ δ κ : Type}

/-- A range that says how many elements it has says so rightly, and its bound would as well. -/
def Extent.Honest (e : Extent) (b : Bound α) (n : Nat) : Prop :=
  ∀ m : Int, e = .known m → b.sized = true ∧ m = n

theorem Extent.Honest.tells {e : Extent} {b : Bound α} {n : Nat} (h : e.Honest b n) (c : Cursor α) :
    Range.tells ⟨c, b, e⟩ = b.sized := by
  cases e with
  | known m => exact (h m rfl).1.symm
  | _ => rfl

/-! ## Searches -/

/-- Goes by the number of elements, if it is told. -/
def byMeasure (size : Except Fault (Option Int)) (byNumber : Int → Run α κ γ)
    (otherwise : Run α κ γ) : Run α κ γ := do
  match ← size with
  | some n => byNumber n
  | none => otherwise

/-- The forms of a search of the `n` elements from `c` to `b` are one action, which returns. -/
structure OneSearch (s : Store α) (c : Cursor α) (b : Bound α) (n : Nat) (byNumber : Int → Run α κ γ)
    (upTo : Run α κ γ) (asRange : Range α → Run α κ γ) : Prop where
  byNumber : b.sized = true → byNumber n = upTo
  asRange {e : Extent} : e.Honest b n → asRange ⟨c, b, e⟩ = upTo
  returns (k : κ) : ∃ r w, upTo ⟨s, k⟩ = .ok r w

section Searches

variable [IntCast α] {s : Store α} {c : Cursor α} {b : Bound α} {xs : List α}

/-- A search that goes by the number of elements wherever it is told. The range is asked first, then
the bound, and both tell the same or nothing. -/
theorem oneSearch (h : Presents s c b xs) (hn : b.sized = true → c.width.Fits xs.length)
    {byNumber : Int → Run α κ γ} {unmeasured upTo : Run α κ γ} {asRange : Range α → Run α κ γ}
    (hu : upTo = byMeasure (b.measure c) byNumber unmeasured)
    (hr : ∀ e, asRange ⟨c, b, e⟩ = byMeasure (Range.measure ⟨c, b, e⟩) byNumber upTo)
    (hret : ∀ k, ∃ r w, upTo ⟨s, k⟩ = .ok r w) : OneSearch s c b xs.length byNumber upTo asRange := by
  have hm := h.measure hn
  have hsized (hb : b.sized = true) : byNumber xs.length = upTo := by
    rw [hu, hm, hb]
    rfl
  refine ⟨hsized, fun {e} he => ?_, hret⟩
  rw [hr]
  cases e with
  | ofBound =>
    rw [Range.measure, hm]
    cases hb : b.sized with
    | true => exact hsized hb
    | false => rfl
  | unknown => rfl
  | known m =>
    obtain ⟨hb, rfl⟩ := he m rfl
    exact hsized hb

variable [Inhabited α]

/-- All searches of a sequence. -/
structure SearchForms (s : Store α) (c : Cursor α) (b : Bound α) (n : Nat) : Prop where
  partitionPoint : ∀ {κ β : Type} (pred : Predicate κ β) (proj : Projection κ α β),
    OneSearch s c b n (partitionPointN c · pred proj) (partitionPoint c b pred proj)
      (·.partitionPoint pred proj)
  lowerBound : ∀ {κ β : Type} (value : β) (comp : Relation κ β β) (proj : Projection κ α β),
    OneSearch s c b n (lowerBoundN c · value comp proj) (lowerBound c b value comp proj)
      (·.lowerBound value comp proj)
  upperBound : ∀ {κ β : Type} (value : β) (comp : Relation κ β β) (proj : Projection κ α β),
    OneSearch s c b n (upperBoundN c · value comp proj) (upperBound c b value comp proj)
      (·.upperBound value comp proj)
  equalRange : ∀ {κ β : Type} (value : β) (comp : Relation κ β β) (proj : Projection κ α β),
    OneSearch s c b n (equalRangeN c · value comp proj) (equalRange c b value comp proj)
      (·.equalRange value comp proj)
  count : ∀ {κ β : Type} [BEq β] (value : β) (proj : Projection κ α β) (e : Extent),
    Range.count ⟨c, b, e⟩ value proj = count c b value proj

theorem searchForms (h : Presents s c b xs) (hn : b.sized = true → c.width.Fits xs.length) :
    SearchForms s c b xs.length := by
  have hreturns {κ γ : Type} {act : Run α κ γ} {Q : γ → Prop}
      (ha : act.Confined (c.Before xs.length) Q) (k : κ) : ∃ r w, act ⟨s, k⟩ = .ok r w :=
    have ⟨_, r, w, hr, _⟩ := ha.within (w := ⟨s, k⟩) h.shows
    ⟨r, w, hr⟩
  exact {
    partitionPoint := fun pred proj => oneSearch h hn rfl (fun _ => rfl)
      (hreturns (partitionPoint_confined pred proj h hn))
    lowerBound := fun value comp proj => oneSearch h hn rfl (fun _ => rfl)
      (hreturns (partitionPoint_confined _ proj h hn))
    upperBound := fun value comp proj => oneSearch h hn rfl (fun _ => rfl)
      (hreturns (partitionPoint_confined _ proj h hn))
    equalRange := fun value comp proj => oneSearch h hn rfl (fun _ => rfl)
      (hreturns (equalRange_confined proj h hn))
    count := fun _ _ _ => rfl }

end Searches

/-! ## Comparisons -/

section Comparisons

variable [IntCast α] [Inhabited α] {s : Store α} {c d : Cursor α} {b e : Bound α} {xs ys : List α}

/-- The forms of a comparison of two sequences are one action. -/
structure OneComparison (c : Cursor α) (b : Bound α) (m : Nat) (d : Cursor α) (e : Bound α)
    (n : Nat) : Prop where
  equal : ∀ {κ β γ : Type} (rel : Relation κ β γ) (proj₁ : Projection κ α β)
    (proj₂ : Projection κ α γ) {x y : Extent}, x.Honest b m → y.Honest e n →
      Range.equal ⟨c, b, x⟩ ⟨d, e, y⟩ rel proj₁ proj₂ = equal c b d e rel proj₁ proj₂
  includes : ∀ {κ β : Type} (comp : Relation κ β β) (proj₁ proj₂ : Projection κ α β) (x y : Extent),
    Range.includes ⟨c, b, x⟩ ⟨d, e, y⟩ comp proj₁ proj₂ = includes c b d e comp proj₁ proj₂

/-- Lengths that are told before the bounds are asked are those that they would tell. -/
theorem oneComparison (h : Presents s c b xs) (hd : Presents s d e ys)
    (hn : b.sized = true → c.width.Fits xs.length) (hm : e.sized = true → d.width.Fits ys.length) :
    OneComparison c b xs.length d e ys.length where
  equal rel proj₁ proj₂ x y hx hy := by
    rw [Range.equal_eq h hd hn hm (fun n he => (hx n he).2) (fun n he => (hy n he).2),
      equal_eq h hd hn hm, hx.tells, hy.tells]
  includes _ _ _ _ _ := rfl

end Comparisons

/-! ## Lists -/

section Lists

variable {s s' : Store α} {src : Source α} {xs ys : List α}

/-- What is told about results side by side, without another call. -/
theorem Run.Alongside.tell {act act' : Run α κ γ} {f f' : γ → Run α κ δ} {R : γ → γ → Prop}
    (h : act.Alongside s act' s' R)
    (hf : ∀ r r', R r r' → ∃ o, (∀ w, f r w = .ok o w) ∧ ∀ w, f' r' w = .ok o w) :
    (act >>= f).Alongside s (act' >>= f') s' Eq := by
  intro k
  obtain ⟨r, r', k', t, t', ha, ha', hR⟩ := h k
  obtain ⟨o, ho, ho'⟩ := hf r r' hR
  exact ⟨o, o, k', t, t', (Run.bind_ok ha).trans (ho _), (Run.bind_ok ha').trans (ho' _), rfl⟩

theorem le_length_of_stepTimes {n : Nat} {d : Cursor α} (hm : (src.length : Int) ≤ Width.w64.max)
    (h : (Range.ofSource src).first.stepTimes n = .ok d) : n ≤ src.length := by
  have hs : (Range.ofSource src).first.Settled :=
    ⟨by cases src <;> rfl, ⟨Int.le_refl 0, Int.natCast_nonneg _⟩, by rintro _ ⟨⟩; exact hm⟩
  obtain ⟨-, -, hl⟩ := hs.jump_eq_ok_iff.1 (hs.stepTimes_eq_ok_iff_jump.1 h)
  have hl : 0 + (n : Int) ≤ src.length := hl
  omega

/-- Positions at one offset have one distance from where they are counted. -/
theorem between_of_sameOffset {d d' : Cursor α}
    (hm : (xs.length : Int) ≤ Width.w64.max)
    (h : (Range.ofSource src).first.SameOffset (Range.ofList xs).first d d') :
    ∃ o, Dangling.between (Range.ofSource src).first d = .ok o ∧
      Dangling.between (Range.ofList xs).first d' = .ok o := by
  obtain ⟨n, hd, hd'⟩ := h
  have hn : n ≤ (Source.shared 0 xs).length := le_length_of_stepTimes hm hd'
  have hnm : (n : Int) ≤ Width.w64.max := Int.le_trans (Int.ofNat_le.2 hn) hm
  refine ⟨⟨n⟩, ?_, between_ofList hnm hd'⟩
  rw [Dangling.between, offsetFrom_ofSource hnm hd]
  rfl

theorem Run.Alongside.dangling {act act' : Run α κ (Cursor α)}
    (hm : (xs.length : Int) ≤ Width.w64.max)
    (h : act.Alongside s act' s' ((Range.ofSource src).first.SameOffset (Range.ofList xs).first)) :
    (do Dangling.between (Range.ofSource src).first (← act) : Run α κ Dangling).Alongside s
      (do Dangling.between (Range.ofList xs).first (← act') : Run α κ Dangling) s' Eq :=
  h.tell fun _ _ hR =>
    have ⟨o, ho, ho'⟩ := between_of_sameOffset hm hR
    ⟨o, Run.lift_ok ho, Run.lift_ok ho'⟩

variable [IntCast α] [Inhabited α]

/-- What is asked of a list is what is asked of a slice that holds it. -/
structure ListForms (s : Store α) (src : Source α) (xs : List α) (s' : Store α) : Prop where
  /-- The slice as a whole is one of the ranges that tell their length. -/
  container : (Range.ofSource src).extent.Honest (Range.ofSource src).last xs.length
  lowerBound : ∀ {κ β : Type} (value : β) (comp : Relation κ β β) (proj : Projection κ α β),
    let r := Range.ofSource src
    (do Dangling.between r.first (← lowerBound r.first r.last value comp proj) :
      Run α κ Dangling).Alongside s (lowerBoundList xs value comp proj) s' Eq
  upperBound : ∀ {κ β : Type} (value : β) (comp : Relation κ β β) (proj : Projection κ α β),
    let r := Range.ofSource src
    (do Dangling.between r.first (← upperBound r.first r.last value comp proj) :
      Run α κ Dangling).Alongside s (upperBoundList xs value comp proj) s' Eq
  equalRange : ∀ {κ β : Type} (value : β) (comp : Relation κ β β) (proj : Projection κ α β),
    let r := Range.ofSource src
    (do
      let found ← equalRange r.first r.last value comp proj
      let lower ← Dangling.between r.first found.1
      let upper ← Dangling.between r.first found.2
      return (lower, upper) : Run α κ (Dangling × Dangling)).Alongside s
        (equalRangeList xs value comp proj) s' Eq
  count : ∀ {κ β : Type} [BEq β] (value : β) (proj : Projection κ α β),
    let r := Range.ofSource src
    (count r.first r.last value proj).Alongside s (countList xs value proj) s' fun n n' => n.1 = n'.1

theorem listForms (hs : src.Holds s xs) (hm : (xs.length : Int) ≤ Width.w64.max) (s' : Store α) :
    ListForms s src xs s' := by
  have h := presents_ofSource hs hm
  have hl := presents_ofList hm s'
  have hn : Width.w64.Fits xs.length := Width.fits_natCast hm
  have hforms := searchForms hl fun _ => hn
  have halong := searchedAlongside h hl hn hn
  exact {
    container := by
      rintro m ⟨⟩
      exact ⟨rfl, congrArg Int.ofNat hs.length⟩
    lowerBound := fun value comp proj => by
      have he := (hforms.lowerBound value comp proj).byNumber rfl
      dsimp only [lowerBoundList]
      rw [he]
      exact (halong.lowerBound rfl value comp proj).dangling hm
    upperBound := fun value comp proj => by
      have he := (hforms.upperBound value comp proj).byNumber rfl
      dsimp only [upperBoundList]
      rw [he]
      exact (halong.upperBound rfl value comp proj).dangling hm
    equalRange := fun value comp proj => by
      have he := (hforms.equalRange value comp proj).byNumber rfl
      dsimp only [equalRangeList]
      rw [he]
      refine (halong.equalRange rfl (fun hb => nomatch hb) value comp proj).tell fun r r' hR => ?_
      obtain ⟨l, hl, hl'⟩ := between_of_sameOffset hm hR.1
      obtain ⟨u, hu, hu'⟩ := between_of_sameOffset hm hR.2
      refine ⟨(l, u), fun w => ?_, fun w => ?_⟩
      · rw [Run.bind_ok (Run.lift_ok hl w), Run.bind_ok (Run.lift_ok hu w)]
        rfl
      · rw [Run.bind_ok (Run.lift_ok hl' w), Run.bind_ok (Run.lift_ok hu' w)]
        rfl
    count := fun value proj k =>
      have ⟨n, n', k', t, t', ha, ha', hR⟩ := halong.count value proj k
      ⟨n, n', k', t, t', ha, ha', hR.1⟩ }

/-- A comparison with a list is one with a slice that holds it, if the second sequence is left by
reading the first one, and kept where it is read twice. -/
structure ListComparison (s : Store α) (src : Source α) (xs : List α) (d : Cursor α) (e : Bound α)
    (n : Nat) : Prop where
  equal : (Range.ofSource src).first.Apart xs.length d n → ∀ {κ β γ : Type} (rel : Relation κ β γ)
    (proj₁ : Projection κ α β) (proj₂ : Projection κ α γ) {y : Extent}, y.Honest e n →
      let r := Range.ofSource src
      (equal r.first r.last d e rel proj₁ proj₂).Alongside s
        (equalList xs ⟨d, e, y⟩ rel proj₁ proj₂) s fun v v' => v.holds = v'.holds
  includes : d.keeps = true → ∀ {κ β : Type} (comp : Relation κ β β) (proj₁ proj₂ : Projection κ α β)
    (y : Extent),
      let r := Range.ofSource src
      (includes r.first r.last d e comp proj₁ proj₂).Alongside s
        (includesList xs ⟨d, e, y⟩ comp proj₁ proj₂) s fun v v' => v.holds = v'.holds

theorem listComparison {d : Cursor α} {e : Bound α} (hs : src.Holds s xs)
    (hm : (xs.length : Int) ≤ Width.w64.max) (hd : Presents s d e ys)
    (hn : e.sized = true → d.width.Fits ys.length) : ListComparison s src xs d e ys.length := by
  have h := presents_ofSource hs hm
  have hl := presents_ofList hm s
  have hw : Width.w64.Fits xs.length := Width.fits_natCast hm
  have hla := Cursor.apart_of_slot?_eq_none (c := (Range.ofList xs).first) (d := d) rfl rfl
    xs.length ys.length
  exact {
    equal := fun ha {κ β γ} rel proj₁ proj₂ y hy => by
      have he : Extent.ofBound.Honest (Range.ofList xs).last xs.length := fun _ h => nomatch h
      have heq := (oneComparison hl hd (fun _ => hw) hn).equal rel proj₁ proj₂ he hy
      dsimp only [equalList, Range.of]
      rw [heq]
      exact .of_yields (fun _ => Listed.equal_yields h hd (fun _ => hw) hn ha rel proj₁ proj₂)
        (fun _ => Listed.equal_yields hl hd (fun _ => hw) hn hla rel proj₁ proj₂)
        (Listed.equalMeasured_gives _ _ _ _ _ _) fun _ _ => rfl
    includes := fun hk {κ β} comp proj₁ proj₂ y =>
      .of_yields (fun _ => Listed.includes_yields h hd
          (Cursor.apart_of_keeps rfl hk _ _) hk comp proj₁ proj₂)
        (fun _ => Listed.includes_yields hl hd hla hk comp proj₁ proj₂)
        (Listed.includes_gives _ _ _ _ _) fun _ _ => rfl }

end Lists

/-! ## Storage -/

/-- A form that works on the whole of a stored sequence and tells an index does what the form does
that tells the position, which has that index. -/
theorem indexOf_runs {src : Source α} {act : Run α κ (Cursor α)} {w w' : World α κ} {n : Nat}
    (hm : (src.length : Int) ≤ Width.w64.max) (ha : act w = .ok ((Range.ofSource src).first.hop n) w')
    (hn : (Range.ofSource src).first.stepTimes n = .ok ((Range.ofSource src).first.hop n)) :
    ∃ i w', act w = .ok (.slice src i) w' ∧
      (do (Range.ofSource src).indexOf (← act) : Run α κ Nat) w = .ok i w' := by
  have hl := le_length_of_stepTimes hm hn
  have hi := indexOf_ofSource (by omega) hn
  refine ⟨n, w', ?_, (Run.bind_ok ha).trans (Run.lift_ok hi _)⟩
  rw [ha, Range.ofSource, Cursor.hop, Nat.zero_add]

section Storage

variable [IntCast α] [Inhabited α] {s : Store α} {place : Nat} {xs : List α}

/-- The rearrangements of the whole of a stored sequence. -/
structure StorageForms (s : Store α) (src : Source α) : Prop where
  partition : ∀ {κ β : Type} (pred : Predicate κ β) (proj : Projection κ α β) (k : κ),
    let r := Range.ofSource src
    ∃ i w', partition r.first r.last pred proj ⟨s, k⟩ = .ok (.slice src i) w' ∧
      partitionIn src pred proj ⟨s, k⟩ = .ok i w'
  removeIf : ∀ {κ β : Type} (pred : Predicate κ β) (proj : Projection κ α β) (k : κ),
    let r := Range.ofSource src
    ∃ i w', removeIf r.first r.last pred proj ⟨s, k⟩ = .ok (.slice src i) w' ∧
      removeIfIn src pred proj ⟨s, k⟩ = .ok i w'

theorem storageForms (hs : s[place]? = some xs) (hm : (xs.length : Int) ≤ Width.w64.max) :
    StorageForms s (.stored place xs.length) := by
  have h := presents_ofSource (show (Source.stored place xs.length).Holds s xs from ⟨hs, rfl⟩) hm
  have hw : s[place]? = some ([] ++ xs ++ []) := by rwa [List.nil_append, List.append_nil]
  refine ⟨fun {κ β} pred proj k => ?_, fun {κ β} pred proj k => ?_⟩
  · have hr := partition_runs (w := ⟨s, k⟩) h (fun _ => Width.fits_natCast hm) (by rfl) rfl rfl hw
      pred proj
    have hc := count_true_le (Listed.converge (pred.on proj) .front xs k).1
    rw [Listed.length_converge] at hc
    exact indexOf_runs hm hr (h.shows.reach hc)
  · obtain ⟨d, rest, hr, hd, -⟩ :=
      compact_compacts (w := ⟨s, k⟩) (by rfl) rfl h.ends hw false pred proj
    obtain rfl := Cursor.stepTimes_eq_hop hd
    exact indexOf_runs hm hr hd

end Storage

section Entries

variable [IntCast α] [Inhabited α] {s : Store α} {c d : Cursor α} {b e : Bound α} {xs ys : List α}

/-- Whichever way one thing is asked for, the callables are called in the same way and the answer is
the same: of any two sequences, of a list, and of a stored sequence as a whole. -/
theorem entries_agree (h : Presents s c b xs) (hd : Presents s d e ys)
    (hn : b.sized = true → c.width.Fits xs.length) (hm : e.sized = true → d.width.Fits ys.length) :
    SearchForms s c b xs.length ∧ OneComparison c b xs.length d e ys.length ∧
      (∀ src zs, src.Holds s zs → (zs.length : Int) ≤ Width.w64.max →
        (∀ s', ListForms s src zs s') ∧ ListComparison s src zs d e ys.length) ∧
      ∀ place zs, s[place]? = some zs → (zs.length : Int) ≤ Width.w64.max →
        StorageForms s (.stored place zs.length) :=
  ⟨searchForms h hn, oneComparison h hd hn hm,
    fun _ _ hs hl => ⟨listForms hs hl, listComparison hs hl hd hm⟩, fun _ _ => storageForms⟩

end Entries

/-- A part of a slice and integers that are stepped through, with a relation that counts its calls,
and the whole of the slice. -/
theorem entries_agree_part :
    let s : Store Int := [[1, 3, 3, 7]]
    let first : Cursor Int := .slice (.stored 0 4) 1
    let last : Bound Int := .cursor (.slice (.stored 0 4) 4)
    let ints : Cursor Int := .forwardOnly (.iota .w8 1)
    let stop : Bound Int := .forwardOnly (.cursor (.iota .w8 4))
    let less : Relation Nat Int Int := fun a b k => (decide (a < b), k + 1)
    let big : Predicate Nat Int := fun a k => (decide (2 < a), k + 1)
    lowerBoundN first 3 7 less .identity = lowerBound first last 7 less .identity ∧
      Range.equalRange ⟨first, last, .unknown⟩ 3 less .identity =
        equalRange first last 3 less .identity ∧
      Range.equal ⟨first, last, .known 3⟩ ⟨ints, stop, .unknown⟩ less .identity .identity =
        equal first last ints stop less .identity .identity ∧
      (∃ o w w', (do
          let found ← lowerBound (.slice (.stored 0 4) 0) last 3 less .identity
          Dangling.between (.slice (.stored 0 4) 0) found : Run Int Nat Dangling) ⟨s, 0⟩ = .ok o w ∧
        lowerBoundList [1, 3, 3, 7] 3 less .identity ⟨[], 0⟩ = .ok o w' ∧ w.calls = w'.calls) ∧
      ∃ i w', partitionIn (.stored 0 4) big .identity ⟨s, 0⟩ = .ok i w' := by
  intro s first last ints stop less big
  have hs : (Source.stored 0 4).Holds s [1, 3, 3, 7] := ⟨rfl, rfl⟩
  have h : Presents s first last [3, 3, 7] :=
    presents_slice (p := 1) (q := 4) hs (by decide) (by decide) (by decide)
  have hd : Presents s ints stop [1, 2, 3] :=
    presents_forwardOnly (presents_iota (x := 1) (n := 3) (by decide) (by decide))
  obtain ⟨hsearch, hcompare, hlist, hstorage⟩ :=
    entries_agree h hd (fun _ => by decide) fun he => nomatch he
  have hfirst : (Extent.known 3).Honest last 3 := by
    rintro m ⟨⟩
    exact ⟨rfl, rfl⟩
  have hunknown {b : Bound Int} : Extent.unknown.Honest b 3 := fun m he => nomatch he
  obtain ⟨i, w', -, hp⟩ := (hstorage 0 [1, 3, 3, 7] rfl (by decide)).partition big .identity 0
  obtain ⟨o, o', k, t, t', ho, ho', rfl⟩ :=
    ((hlist _ _ hs (by decide)).1 []).lowerBound 3 less .identity 0
  exact ⟨(hsearch.lowerBound 7 less .identity).byNumber rfl,
    (hsearch.equalRange 3 less .identity).asRange hunknown,
    hcompare.equal less .identity .identity hfirst hunknown, ⟨o, _, _, ho, ho', rfl⟩, ⟨i, w', hp⟩⟩

end Waymark
