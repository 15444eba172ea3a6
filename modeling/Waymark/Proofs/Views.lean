import Waymark.Proofs.Entries
import Waymark.Proofs.Search.Unbounded
import Waymark.Proofs.Walk

/-!
# Views of integers and their lengths

Two integers of a width bound a view of those between them, provided that they come in this order. It
can be walked through, and has as many elements as steps lead from one end to the other. The length of
the view is their difference, which is asked for as a distance: from -1 to 127 there are 128 integers of
eight bits, but no distance of eight bits is larger than 127.

Whatever goes by the length of a range asks its bound for it before anything else. So it ends as this
question does (`GoesBy`): it returns if there is an answer (`Presents.goesBy`), and stops at the fault if
there is none (`goesBy_error`), whatever else can be done with the range. `iotaRange_measured` tells
which views of integers have a length.
-/

namespace Waymark

variable {α β γ κ : Type}

/-- The action ends as the computation does: it returns, or stops at the same fault before it has
changed anything. -/
def Run.EndsAs (act : Run α κ γ) (x : Except Fault β) (w : World α κ) : Prop :=
  match x with
  | .ok _ => ∃ r w', act w = .ok r w'
  | .error e => act w = .error e w

section Searches

variable {s : Store α} {c : Cursor α} {b : Bound α}

/-- A search up to a bound and the one of a range end as `length` does. -/
def SearchesBy (r : Range α) (s : Store α) (length : Except Fault Nat) (upTo : Run α κ γ)
    (asRange : Range α → Run α κ γ) : Prop :=
  ∀ k, upTo.EndsAs length ⟨s, k⟩ ∧ (asRange r).EndsAs length ⟨s, k⟩

theorem OneSearch.searchesBy {n : Nat} {byNumber : Int → Run α κ γ} {upTo : Run α κ γ}
    {asRange : Range α → Run α κ γ} (h : OneSearch s c b n byNumber upTo asRange) :
    SearchesBy (.of c b) s (.ok n) upTo asRange := fun k => by
  have hr : asRange (.of c b) = upTo := h.asRange fun _ he => nomatch he
  exact ⟨h.returns k, hr ▸ h.returns k⟩

/-- A search that goes by the length wherever it is told does not start without it. -/
theorem searchesBy_error {e : Fault} {byNumber : Int → Run α κ γ} {unmeasured upTo : Run α κ γ}
    {asRange : Range α → Run α κ γ} (hm : b.measure c = .error e)
    (hu : upTo = byMeasure (b.measure c) byNumber unmeasured)
    (hr : asRange (.of c b) = byMeasure (b.measure c) byNumber upTo) :
    SearchesBy (.of c b) s (.error e) upTo asRange := fun k => by
  rw [hm] at hu hr
  exact ⟨congrFun hu ⟨s, k⟩, congrFun hr ⟨s, k⟩⟩

end Searches

section Comparisons

variable [IntCast α] [Inhabited α] {s : Store α} {c d : Cursor α} {b e : Bound α} {xs ys : List α}

/-- The comparison of the elements up to two bounds and the one of two ranges end as `length` does. -/
def ComparesBy (r t : Range α) (s : Store α) (length : Except Fault Nat) : Prop :=
  ∀ {κ β γ : Type} (rel : Relation κ β γ) (proj₁ : Projection κ α β) (proj₂ : Projection κ α γ)
    (k : κ), (equal r.first r.last t.first t.last rel proj₁ proj₂).EndsAs length ⟨s, k⟩ ∧
    (r.equal t rel proj₁ proj₂).EndsAs length ⟨s, k⟩

theorem Presents.comparesBy (n : Nat) (h : Presents s c b xs)
    (hd : Presents s d e ys) (hn : b.sized = true → c.width.Fits xs.length)
    (hm : e.sized = true → d.width.Fits ys.length) :
    ComparesBy (.of c b) (.of d e) s (.ok n) := by
  intro κ β γ rel proj₁ proj₂ k
  have hr : (Range.of c b).equal (.of d e) rel proj₁ proj₂ = equal c b d e rel proj₁ proj₂ :=
    (oneComparison h hd hn hm).equal rel proj₁ proj₂ (fun _ he => nomatch he) fun _ he => nomatch he
  have hread (f : Cursor α) (hf : c.Before xs.length f ∨ d.Before ys.length f) :
      (f.look s).isSome :=
    hf.elim h.shows.look_before hd.shows.look_before
  have ha : ∃ v w', equal c b d e rel proj₁ proj₂ ⟨s, k⟩ = .ok v w' ∧ True := by
    rw [equal_eq h hd hn hm]
    exact (equalMeasured_confined h hd b.sized e.sized).returns hread
  obtain ⟨v, w', hv, -⟩ := ha
  rw [hr]
  exact ⟨⟨v, w', hv⟩, ⟨v, w', hv⟩⟩

theorem comparesBy_error {f : Fault} (hm : b.measure c = .error f) (r : Range α) :
    ComparesBy (.of c b) r s (.error f) := by
  intro κ β γ rel proj₁ proj₂ k
  constructor
  · rw [Range.of, equal, hm]
    rfl
  · rw [Range.equal, Range.measure, Range.of, hm]
    rfl

theorem Presents.comparesBy_error {f : Fault} (h : Presents s d e ys)
    (hn : e.sized = true → d.width.Fits ys.length) (hm : b.measure c = .error f) :
    ComparesBy (.of d e) (.of c b) s (.error f) := by
  intro κ β γ rel proj₁ proj₂ k
  constructor
  · rw [Range.of, Range.of, equal, h.measure hn, hm]
    rfl
  · rw [Range.equal, Range.measure, Range.measure, Range.of, Range.of, h.measure hn, hm]
    rfl

end Comparisons

section GoesBy

variable [IntCast α] [Inhabited α] {s : Store α} {c : Cursor α} {b : Bound α} {xs : List α}

/-- Whatever asks for the length of the range goes by `length`. It comes to it, goes as far as it says,
or returns; or it stops at the fault. -/
structure GoesBy (r : Range α) (s : Store α) (length : Except Fault Nat) : Prop where
  measure : r.measure = (fun n : Nat => some (n : Int)) <$> length
  distance : r.last.distance r.first = (fun n : Nat => ((n : Int), r.first)) <$> length
  advance : ∀ m : Nat, r.last.advance r.first m =
    (fun n => (((m - n : Nat) : Int), r.first.hop (min m n))) <$> length
  reach : r.last.reach r.first = r.first.hop <$> length
  partitionPoint : ∀ {κ β : Type} (pred : Predicate κ β) (proj : Projection κ α β),
    SearchesBy r s length (partitionPoint r.first r.last pred proj) (·.partitionPoint pred proj)
  lowerBound : ∀ {κ β : Type} (value : β) (comp : Relation κ β β) (proj : Projection κ α β),
    SearchesBy r s length (lowerBound r.first r.last value comp proj)
      (·.lowerBound value comp proj)
  upperBound : ∀ {κ β : Type} (value : β) (comp : Relation κ β β) (proj : Projection κ α β),
    SearchesBy r s length (upperBound r.first r.last value comp proj)
      (·.upperBound value comp proj)
  equalRange : ∀ {κ β : Type} (value : β) (comp : Relation κ β β) (proj : Projection κ α β),
    SearchesBy r s length (equalRange r.first r.last value comp proj)
      (·.equalRange value comp proj)
  equal : ∀ {d : Cursor α} {e : Bound α} {ys : List α}, Presents s d e ys →
    (e.sized = true → d.width.Fits ys.length) →
    ComparesBy r (.of d e) s length ∧ ComparesBy (.of d e) r s length

/-- A bound that tells the length, and has room for it. -/
theorem Presents.goesBy (h : Presents s c b xs) (hs : b.sized = true)
    (hn : c.width.Fits xs.length) : GoesBy (.of c b) s (.ok xs.length) := by
  have hf := searchForms h fun _ => hn
  have hm := h.measure fun _ => hn
  rw [if_pos hs] at hm
  exact {
    measure := hm
    distance := by rw [Bound.distance, Range.of, hm]; rfl
    advance := h.advance fun _ => hn
    reach := h.reach fun _ => hn
    partitionPoint := fun pred proj => (hf.partitionPoint pred proj).searchesBy
    lowerBound := fun value comp proj => (hf.lowerBound value comp proj).searchesBy
    upperBound := fun value comp proj => (hf.upperBound value comp proj).searchesBy
    equalRange := fun value comp proj => (hf.equalRange value comp proj).searchesBy
    equal := fun hd hm => ⟨h.comparesBy _ hd (fun _ => hn) hm, hd.comparesBy _ h hm fun _ => hn⟩ }

/-- A bound that stops at a fault when it is asked. -/
theorem goesBy_error {e : Fault} (hm : b.measure c = .error e) :
    GoesBy (.of c b) s (.error e) where
  measure := hm
  distance := by rw [Bound.distance, Range.of, hm]; rfl
  advance m := by rw [Bound.advance, if_neg (by omega), Range.of, hm]; rfl
  reach := by rw [Bound.reach, Range.of, hm]; rfl
  partitionPoint _ _ := searchesBy_error hm rfl rfl
  lowerBound _ _ _ := searchesBy_error hm rfl rfl
  upperBound _ _ _ := searchesBy_error hm rfl rfl
  equalRange _ _ _ := searchesBy_error hm rfl rfl
  equal hd hn := ⟨comparesBy_error hm _, hd.comparesBy_error hn hm⟩

end GoesBy

/-! ## Integers -/

variable {v : Width} {start stop : Int}

/-- The number of steps from one integer to another one behind it, if it is a distance. -/
def iotaLength (v : Width) (start stop : Int) : Except Fault Nat :=
  if stop - start ≤ v.max then .ok (stop - start).toNat else .error .subOverflow

theorem sub_eq_iotaLength (hle : start ≤ stop) :
    v.sub stop start = (fun n : Nat => (n : Int)) <$> iotaLength v start stop := by
  have := v.min_eq
  have := v.le_max
  rw [iotaLength, Width.sub]
  by_cases h : stop - start ≤ v.max
  · have hf : v.Fits (stop - start) := ⟨by omega, h⟩
    have hn : ((stop - start).toNat : Int) = stop - start := by omega
    rw [if_pos h, if_pos hf, ← hn]
    rfl
  · rw [if_neg h, if_neg fun hf => h hf.2]
    rfl

theorem ordered?_iota (hle : start ≤ stop) :
    Range.ordered? (α := α) (.iota v start) (.iota v stop) =
      .ok (some (.between (.iota v start) (.iota v stop))) := by
  rw [Range.ordered?, Cursor.order, ok_bind]
  cases hc : compare start stop with
  | gt => exact absurd (Int.compare_eq_gt.1 hc) (by omega)
  | _ => rfl

/-- A view of the integers between two is accepted wherever they come in this order, and walking through
it hands out as many as there are steps from one to the other. Wherever this number is a distance the
view has a length; otherwise whatever asks for the length stops at the overflow. -/
theorem iotaRange_measured (hs : v.Fits start) (he : v.Fits stop) (hle : start ≤ stop) :
    let first : Cursor Int := .iota v start
    let last : Cursor Int := .iota v stop
    let r := Range.between first last
    let n := (stop - start).toNat
    iotaRange v start stop = .ok r ∧ Range.ordered? first last = .ok (some r) ∧
      first.stepTimes n = .ok last ∧
      (∀ {κ : Type} (w : World Int κ),
        (Walk.ofRange r).takeAll w = .ok (integers start n, ⟨last, r.last⟩) w) ∧
      last.offsetFrom first = (fun n : Nat => (n : Int)) <$> iotaLength v start stop ∧
      ∀ s : Store Int, GoesBy r s (iotaLength v start stop) := by
  intro first last r n
  have hn : start + n = stop := by omega
  have hp (s : Store Int) : Presents s first r.last (integers start n) := by
    have := presents_iota (s := s) (α := Int) hs (show v.Fits (start + n) from hn ▸ he)
    rwa [hn] at this
  have hh : first.hop n = last := by rw [Cursor.hop, hn]
  refine ⟨if_pos hle, ordered?_iota hle, ?_, fun w => ?_, sub_eq_iotaLength hle, fun s => ?_⟩
  · have := (hp []).shows.stepTimes
    rwa [length_integers, hh] at this
  · have := Walk.takeAll_ok (hp w.store)
    rwa [length_integers, hh, Cursor.drains_of_keeps rfl] at this
  · have hm : r.last.measure first = some <$> v.sub stop start := rfl
    rw [sub_eq_iotaLength hle, iotaLength] at hm
    rw [iotaLength]
    by_cases h : stop - start ≤ v.max
    · have hf : first.width.Fits (integers start n).length := by
        rw [length_integers]
        exact Width.fits_natCast (show (n : Int) ≤ v.max by omega)
      have hg := (hp s).goesBy rfl hf
      rw [length_integers] at hg
      rwa [if_pos h]
    · rw [if_neg h] at hm ⊢
      exact goesBy_error hm

/-- From 0 to 127 there are as many integers as eight bits can count. From -1 on there is one more, and
the view that has it hands it out but has no length. -/
theorem iotaRange_measured_narrow :
    let view : Int → Range Int := fun start => .between (.iota .w8 start) (.iota .w8 127)
    iotaRange .w8 0 127 = .ok (view 0) ∧ (view 0).measure = .ok (some 127) ∧
      iotaRange .w8 (-1) 127 = .ok (view (-1)) ∧
      (Walk.ofRange (view (-1))).takeAll (⟨[], ()⟩ : World Int Unit) =
        .ok (integers (-1) 128, ⟨.iota .w8 127, .cursor (.iota .w8 127)⟩) ⟨[], ()⟩ ∧
      (view (-1)).measure = .error .subOverflow := by
  intro view
  have hs : Width.w8.Fits 0 := by decide
  have ht : Width.w8.Fits (-1) := by decide
  have he : Width.w8.Fits 127 := by decide
  obtain ⟨h0, -, -, -, -, hg0⟩ := iotaRange_measured hs he (by decide)
  obtain ⟨h1, -, -, hw, -, hg1⟩ := iotaRange_measured ht he (by decide)
  exact ⟨h0, (hg0 []).measure, h1, hw _, (hg1 []).measure⟩

end Waymark
