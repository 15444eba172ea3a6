import Mathlib.Algebra.GroupWithZero.Nat
import Mathlib.Data.List.SplitLengths
import Waymark.Session.Stream
import Waymark.Walk
import Waymark.Proofs.Alongside
import Waymark.Proofs.Compare.Passed
import Waymark.Proofs.Search.Boundary
import Waymark.Proofs.Stream.Passes

/-!
# A stream that is lent

An algorithm may be lent a stream, to its end or for a number of bytes, and leaves it where it has
stopped. What it is lent presents the bytes that are left (`Span.presents`), so that it does what it
does on a list: it answers from those bytes alone, and passes as many as `Use.passes` says, which for
each algorithm is told by the outcomes of its calls (`Use.perform_ok`). The next one goes on from
there, as a session on the stream does (`Use.OfStep.goes_on`). So no byte is lost between two loans
and none is seen twice (`Loan.lent_in_turn`).
-/

namespace Waymark

variable {α κ : Type}

/-! ## What a stream presents -/

namespace ByteStream

open Event

/-- The bytes before the first event that ends the stream, as elements. -/
def shown (α : Type) [IntCast α] (es : List Event) : List α :=
  (contents es).map fun b => ((b.toNat : Int) : α)

theorem length_shown [IntCast α] (es : List Event) : (shown α es).length = (contents es).length :=
  List.length_map _

variable {es : List Event} {k n : Nat} {s : ByteStream}

/-- A stream presents the bytes that are left. -/
theorem After.presents [IntCast α] (h : After es k s) (store : Store α) :
    Presents store (.stream s) .endOfStream ((shown α es).drop k) := by
  rw [shown, ← List.map_drop]
  generalize hr : (contents es).drop k = rest
  induction rest generalizing k s with
  | nil =>
    have hk : k = (contents es).length :=
      Nat.le_antisymm h.stands.le (List.drop_eq_nil_iff.1 hr)
    exact ⟨trivial, h.stands.exhausted.trans (decide_eq_true hk), trivial⟩
  | cons b rest ih =>
    have hk : k < (contents es).length := by
      have := congrArg List.length hr
      rw [List.length_drop, List.length_cons] at this
      omega
    obtain ⟨t, ht, -⟩ := h.stands.bump hk
    have hp : s.peek = some b := by rw [h.stands.peek, ← List.head?_drop, hr]; rfl
    have hs : (Cursor.stream s : Cursor α).step = .ok (.stream t) := by rw [Cursor.step, ht]; rfl
    have hx : s.exhausted = false := h.stands.exhausted.trans (decide_eq_false (by omega))
    have hi := ih (h.step ht) (by rw [← List.tail_drop, hr]; rfl)
    exact ⟨⟨trivial, by rw [Cursor.look, hp]; rfl, _, hs, hi.shows⟩, ⟨hx, _, hs, hi.ends⟩, trivial⟩

/-- The stream behind bytes that are left. -/
theorem After.skip (h : After es k s) (hn : k + n ≤ (contents es).length) :
    After es (k + n) (s.skip n) := by
  induction n generalizing k s with
  | zero => exact h
  | succ n ih =>
    obtain ⟨t, ht, -⟩ := h.stands.bump (by omega)
    have hi := ih (h.step ht) (by omega)
    rw [Nat.add_assoc, Nat.add_comm 1] at hi
    simpa only [ByteStream.skip, ht] using hi

end ByteStream

/-! ## Loans -/

/-- How far a stream is lent: to its end or for a number of bytes. -/
inductive Span where
  | whole
  | first (n : Nat)

namespace Span

/-- The cursor that is lent. -/
def cursor (s : ByteStream) : Span → Cursor α
  | whole => .stream s
  | first n => .counted (.stream s) n

def bound : Span → Bound α
  | whole => .endOfStream
  | first _ => .countEnd

/-- The number of bytes that are lent is told. -/
def told : Span → Bool
  | whole => false
  | first _ => true

/-- The part of what is left that is lent. -/
def window (xs : List α) : Span → List α
  | whole => xs
  | first n => xs.take n

/-- No more bytes are promised than are left, and their number can be written. -/
def Honest (left : Nat) : Span → Prop
  | whole => True
  | first n => n ≤ left ∧ (n : Int) ≤ Width.w64.max

instance (left : Nat) : (s : Span) → Decidable (s.Honest left)
  | whole => .isTrue trivial
  | first n => inferInstanceAs (Decidable (n ≤ left ∧ (n : Int) ≤ Width.w64.max))

end Span

/-- The stream under a cursor that has been lent. -/
def Cursor.returned (s : ByteStream) : Cursor α → ByteStream
  | stream t => t
  | counted b _ => b.returned s
  | _ => s

/-- It is where a session on the stream goes on. -/
theorem Cursor.returned_eq_streamUnder (s : ByteStream) (c : Cursor Value) :
    c.returned s = (StreamSession.streamUnder c).getD s := by
  induction c with
  | counted b r ih => exact ih
  | _ => rfl

namespace Span

theorem returned_hop (span : Span) (s t : ByteStream) (n : Nat) :
    ((span.cursor s : Cursor α).hop n).returned t = s.skip n := by
  cases span <;> rfl

theorem sized_bound (span : Span) : (span.bound : Bound α).sized = span.told := by
  cases span <;> rfl

theorem width_cursor (span : Span) (s : ByteStream) : (span.cursor s : Cursor α).width = .w64 := by
  cases span <;> rfl

theorem length_window_le (span : Span) (xs : List α) : (span.window xs).length ≤ xs.length := by
  cases span with
  | whole => exact Nat.le_refl _
  | first n => exact List.length_take_le' n xs

theorem keeps_cursor (span : Span) (s : ByteStream) : (span.cursor s : Cursor α).keeps = true := by
  cases span <;> rfl

end Span

/-- A slice, which is not longer than distances can tell. -/
structure Slice (α : Type) where
  elements : List α
  fits : (elements.length : Int) ≤ Width.w64.max

namespace Slice

def first (ys : Slice α) : Cursor α := (Range.ofList ys.elements).first

def last (ys : Slice α) : Bound α := (Range.ofList ys.elements).last

end Slice

/-- What a stream is lent for. The other sequence, if there is one, is a slice. -/
inductive Use (κ α : Type) : Type 1 where
  /-- Goes to the first match. -/
  | find {β : Type} (wanted : Bool) (pred : Predicate κ β) (proj : Projection κ α β)
  | count {β : Type} [BEq β] (value : β) (proj : Projection κ α β)
  /-- Compares the stream with the slice. -/
  | equalFirst {β γ : Type} (other : Slice α) (rel : Relation κ β γ) (proj₁ : Projection κ α β)
    (proj₂ : Projection κ α γ)
  /-- Compares the slice with the stream. -/
  | equalSecond {β γ : Type} (other : Slice α) (rel : Relation κ β γ) (proj₁ : Projection κ α β)
    (proj₂ : Projection κ α γ)
  /-- Looks for the elements of the slice in the stream. -/
  | includesFirst {β : Type} (other : Slice α) (comp : Relation κ β β) (proj₁ : Projection κ α β)
    (proj₂ : Projection κ α β)
  /-- Looks for the bytes in the slice. -/
  | includesSecond {β : Type} (other : Slice α) (comp : Relation κ β β) (proj₁ : Projection κ α β)
    (proj₂ : Projection κ α β)
  | walk

/-- What comes of a use, beside where it leaves the stream. -/
inductive Use.Answer (α : Type) where
  | found
  | number (n : Int)
  | truth (b : Bool)
  | items (xs : List α)
  deriving DecidableEq

namespace Use

/-- The answer, from the elements that are lent alone, with the calls it takes. -/
def answer (told : Bool) (xs : List α) : Use κ α → StateM κ (Answer α)
  | find wanted pred proj => do
    let _ ← Listed.seek wanted (pred.on proj) xs
    return .found
  | count value proj => do
    let n ← Listed.count value proj xs
    return .number n
  | equalFirst other rel proj₁ proj₂ => do
    let r ← Listed.equalMeasured told proj₁ rel proj₂ xs other.elements
    return .truth r.1
  | equalSecond other rel proj₁ proj₂ => do
    let r ← Listed.equalMeasured told proj₁ rel proj₂ other.elements xs
    return .truth r.1
  | includesFirst other comp proj₁ proj₂ => do
    let rs ← Listed.rounds proj₁ comp proj₂ xs other.elements
    return .truth (rs.count .matched == other.elements.length)
  | includesSecond other comp proj₁ proj₂ => do
    let rs ← Listed.rounds proj₁ comp proj₂ other.elements xs
    return .truth (rs.count .matched == xs.length)
  | walk => return .items xs

/-- The number of bytes that are passed: those before the first match, all of them, the leading pairs
that are related, the rounds without a miss, or the matches. Lengths that are both told and differ
decide a comparison at once. -/
def passes (told : Bool) (xs : List α) (k : κ) : Use κ α → Nat
  | find wanted pred proj => streak (!wanted) (pred.on proj) xs k
  | count .. => xs.length
  | equalFirst other rel proj₁ proj₂ =>
    if told = true ∧ xs.length ≠ other.elements.length then 0
    else streak true (rel.onPairs proj₁ proj₂) (xs.zip other.elements) k
  | equalSecond other rel proj₁ proj₂ =>
    if told = true ∧ other.elements.length ≠ xs.length then 0
    else streak true (rel.onPairs proj₁ proj₂) (other.elements.zip xs) k
  | includesFirst other comp proj₁ proj₂ =>
    (Listed.rounds proj₁ comp proj₂ xs other.elements k).1.countP (· != .missing)
  | includesSecond other comp proj₁ proj₂ =>
    (Listed.rounds proj₁ comp proj₂ other.elements xs k).1.count .matched
  | walk => xs.length

/-- No use passes more than it is lent. -/
theorem passes_le (u : Use κ α) (told : Bool) (xs : List α) (k : κ) :
    u.passes told xs k ≤ xs.length := by
  have hz {ys zs : List α} (t : Predicate κ (α × α)) (k : κ) :
      streak true t (ys.zip zs) k ≤ min ys.length zs.length := by
    rw [← List.length_zip]
    exact streak_le true t _ k
  cases u with
  | find wanted pred proj => exact streak_le _ _ xs k
  | count value proj => exact Nat.le_refl _
  | equalFirst other rel proj₁ proj₂ =>
    rw [passes]
    split
    · exact Nat.zero_le _
    · exact Nat.le_trans (hz _ k) (Nat.min_le_left ..)
  | equalSecond other rel proj₁ proj₂ =>
    rw [passes]
    split
    · exact Nat.zero_le _
    · exact Nat.le_trans (hz _ k) (Nat.min_le_right ..)
  | includesFirst other comp proj₁ proj₂ =>
    have h := Listed.includes_gives proj₁ comp proj₂ xs other.elements k
    rw [Listed.includes_eq] at h
    exact h.1
  | includesSecond other comp proj₁ proj₂ =>
    have h := Listed.includes_gives proj₁ comp proj₂ other.elements xs k
    rw [Listed.includes_eq] at h
    exact h.2
  | walk => exact Nat.le_refl _

/-- A count of so many bytes can be written. -/
def Counts (length : Nat) : Use κ α → Prop
  | count .. => (length : Int) ≤ Width.w64.max
  | _ => True

instance (length : Nat) : (u : Use κ α) → Decidable (u.Counts length)
  | count .. => inferInstanceAs (Decidable ((length : Int) ≤ Width.w64.max))
  | find .. => .isTrue trivial
  | equalFirst .. => .isTrue trivial
  | equalSecond .. => .isTrue trivial
  | includesFirst .. => .isTrue trivial
  | includesSecond .. => .isTrue trivial
  | walk => .isTrue trivial

variable [IntCast α] [Inhabited α]

/-- Lends the stream, and takes it back from where it has been left. -/
def perform (s : ByteStream) (span : Span) : Use κ α → Run α κ (Answer α × ByteStream)
  | find wanted pred proj => do
    let c ← findBy wanted (span.cursor s) span.bound pred proj
    return (.found, c.returned s)
  | count value proj => do
    let (n, c) ← Waymark.count (span.cursor s) span.bound value proj
    return (.number n, c.returned s)
  | equalFirst other rel proj₁ proj₂ => do
    let v ← equal (span.cursor s) span.bound other.first other.last rel proj₁ proj₂
    return (.truth v.holds, v.first.returned s)
  | equalSecond other rel proj₁ proj₂ => do
    let v ← equal other.first other.last (span.cursor s) span.bound rel proj₁ proj₂
    return (.truth v.holds, v.second.returned s)
  | includesFirst other comp proj₁ proj₂ => do
    let v ← includes (span.cursor s) span.bound other.first other.last comp proj₁ proj₂
    return (.truth v.holds, v.first.returned s)
  | includesSecond other comp proj₁ proj₂ => do
    let v ← includes other.first other.last (span.cursor s) span.bound comp proj₁ proj₂
    return (.truth v.holds, v.second.returned s)
  | walk => do
    let (xs, w) ← Walk.takeAll ⟨span.cursor s, span.bound⟩
    return (.items xs, w.cursor.returned s)

/-- The steps of a session on a stream that lend it to its end. -/
inductive OfStep : StreamSession.Step → Use Record Value → Prop where
  | element (wanted : Bool) (pred : Form.Predicate) (proj : Form.Projection) :
    OfStep (.search ⟨.element wanted pred, proj⟩) (.find wanted pred.recorded proj.recorded)
  | count (value : Value) (proj : Form.Projection) :
    OfStep (.search ⟨.count value, proj⟩) (.count value proj.recorded)
  | equality (other : Slice Value) (rel : Form.Relation) (proj₁ proj₂ : Form.Projection) :
    OfStep (.compare ⟨.equality rel, proj₁, proj₂⟩ other.elements)
      (.equalFirst other rel.recorded proj₁.recorded proj₂.recordedSecond)
  | inclusion (other : Slice Value) (comp : Form.Relation) (proj₁ proj₂ : Form.Projection) :
    OfStep (.compare ⟨.inclusion comp, proj₁, proj₂⟩ other.elements)
      (.includesFirst other comp.recorded proj₁.recorded proj₂.recordedSecond)

/-- The session goes on with the stream that such a loan gives back. -/
theorem OfStep.goes_on {q : StreamSession.Step} {u : Use Record Value} (h : OfStep q u)
    (s : ByteStream) : Prod.snd <$> q.perform s = Prod.snd <$> u.perform s .whole := by
  cases h with
  | element wanted pred proj =>
    cases wanted <;>
      simp only [StreamSession.Step.perform, Search.inPair, Search.atCursor, findIf, findIfNot,
        perform, StreamSession.after, Cursor.returned_eq_streamUnder, map_bind, bind_assoc, pure_bind,
        map_pure] <;> rfl
  | count value proj =>
    simp only [StreamSession.Step.perform, Search.inPair, Search.byNumber, perform,
      StreamSession.after, Cursor.returned_eq_streamUnder, map_bind, bind_assoc, pure_bind, map_pure]
    rfl
  | equality | inclusion =>
    simp only [StreamSession.Step.perform, Comparison.inPairs, Comparison.byVerdict, perform,
      StreamSession.after, Cursor.returned_eq_streamUnder, map_bind, bind_assoc, pure_bind, map_pure]
    rfl

end Use

section Loans

variable [IntCast α] {es : List Event} {k : Nat} {s : ByteStream} {span : Span} {xs : List α}

open ByteStream Event in
theorem Span.presents (h : After es k s) (hs : span.Honest ((shown α es).drop k).length)
    (store : Store α) :
    Presents store (span.cursor s) span.bound (span.window ((shown α es).drop k)) := by
  have hp := h.presents store
  cases span with
  | whole => exact hp
  | first n =>
    obtain ⟨hn, hm⟩ := hs
    have hl : (((shown α es).drop k).take n).length = n := List.length_take_of_le hn
    have hc := presents_counted (hp.shows.take n) (by rw [hl]; exact Width.fits_natCast hm)
    rwa [hl] at hc

theorem Slice.presents (ys : Slice α) (store : Store α) :
    Presents store ys.first ys.last ys.elements := presents_ofList ys.fits store

variable [Inhabited α]

theorem Slice.apart (ys : Slice α) (c : Cursor α) (m n : Nat) : ys.first.Apart m c n :=
  Cursor.apart_of_slot?_eq_none rfl rfl m n

theorem Span.apart (span : Span) (s : ByteStream) (c : Cursor α) (m n : Nat) :
    (span.cursor s).Apart m c n := by
  cases span <;> exact Cursor.apart_of_slot?_eq_none rfl rfl m n

/-- A use answers from what it is lent, and leaves the stream behind what it passes. -/
theorem Use.perform_ok (u : Use κ α) (store : Store α) (k : κ)
    (hp : Presents store (span.cursor s) span.bound xs)
    (hn : span.told = true → Width.w64.Fits xs.length) (hc : u.Counts xs.length) :
    ∃ st, u.perform s span ⟨store, k⟩ =
      .ok ((u.answer span.told xs k).1, s.skip (u.passes span.told xs k))
        ⟨st, (u.answer span.told xs k).2⟩ := by
  have hb := span.sized_bound (α := α)
  have hw := span.width_cursor (α := α) s
  rw [← hb, ← hw] at hn
  have hf (ys : Slice α) (_ : ys.last.sized = true) : ys.first.width.Fits ys.elements.length :=
    Width.fits_natCast ys.fits
  cases u with
  | find wanted pred proj =>
    obtain ⟨st, ha⟩ := (Listed.seek_follows (k := k) wanted hp pred proj).yields
    refine ⟨st, (Run.bind_ok ha).trans ?_⟩
    rw [Span.returned_hop, Listed.seek_passed]
    rfl
  | count value proj =>
    have hl : (span.cursor s : Cursor α).width.Fits (0 + xs.length : Nat) := by
      rw [hw, Nat.zero_add]
      exact Width.fits_natCast hc
    obtain ⟨st, ha⟩ := (Listed.countFrom_follows (k := k) hp hl value proj).yields
    refine ⟨st, (Run.bind_ok ha).trans ?_⟩
    dsimp only
    rw [Span.returned_hop, Nat.zero_add]
    rfl
  | equalFirst other rel proj₁ proj₂ =>
    obtain ⟨st, ha⟩ := Listed.equal_yields (k := k) hp (other.presents store) hn (hf other)
      (span.apart s _ _ _) rel proj₁ proj₂
    rw [hb, show other.last.sized = true from rfl, Bool.and_true] at ha
    refine ⟨st, (Run.bind_ok ha).trans ?_⟩
    rw [Span.returned_hop, Listed.equalMeasured_passed]
    rfl
  | equalSecond other rel proj₁ proj₂ =>
    obtain ⟨st, ha⟩ := Listed.equal_yields (k := k) (other.presents store) hp (hf other) hn
      (other.apart _ _ _) rel proj₁ proj₂
    rw [hb, show other.last.sized = true from rfl, Bool.true_and] at ha
    refine ⟨st, (Run.bind_ok ha).trans ?_⟩
    rw [Span.returned_hop, Listed.equalMeasured_passed]
    rfl
  | includesFirst other comp proj₁ proj₂ =>
    obtain ⟨st, ha⟩ := Listed.includes_yields (k := k) hp (other.presents store)
      (span.apart s _ _ _) rfl comp proj₁ proj₂
    rw [Listed.includes_eq] at ha
    refine ⟨st, (Run.bind_ok ha).trans ?_⟩
    rw [Span.returned_hop]
    rfl
  | includesSecond other comp proj₁ proj₂ =>
    obtain ⟨st, ha⟩ := Listed.includes_yields (k := k) (other.presents store) hp
      (other.apart _ _ _) (span.keeps_cursor s) comp proj₁ proj₂
    rw [Listed.includes_eq] at ha
    refine ⟨st, (Run.bind_ok ha).trans ?_⟩
    rw [Span.returned_hop]
    rfl
  | walk =>
    have ha := Walk.takeAll_ok (w := ⟨store, k⟩) hp
    refine ⟨(span.cursor s).drains xs.length store, (Run.bind_ok ha).trans ?_⟩
    dsimp only
    rw [Span.returned_hop]
    rfl

end Loans

/-! ## One loan after the other -/

/-- A use of a stream that is lent so far. -/
structure Loan (κ α : Type) where
  span : Span
  use : Use κ α

namespace Loan

/-- The answer, if these bytes are left. -/
def answer (l : Loan κ α) (left : List α) : StateM κ (Use.Answer α) :=
  l.use.answer l.span.told (l.span.window left)

/-- The number of bytes that are passed, if these are left. -/
def passes (l : Loan κ α) (left : List α) (k : κ) : Nat :=
  l.use.passes l.span.told (l.span.window left) k

/-- The stream has the bytes that are lent, and a count of them can be written. -/
def Fair (l : Loan κ α) (left : List α) : Prop :=
  l.span.Honest left.length ∧ l.use.Counts (l.span.window left).length

instance (l : Loan κ α) (left : List α) : Decidable (l.Fair left) :=
  inferInstanceAs (Decidable (_ ∧ _))

/-- What loans come to, from a position on: the answers and the position in the end. -/
def tour (bytes : List α) : Nat → List (Loan κ α) → κ → (List (Use.Answer α) × Nat) × κ
  | p, [], k => (([], p), k)
  | p, l :: ls, k =>
    let a := l.answer (bytes.drop p) k
    let r := tour bytes (p + l.passes (bytes.drop p) k) ls a.2
    ((a.1 :: r.1.1, r.1.2), r.2)

/-- Each loan is fair where it comes. -/
def FairAll (bytes : List α) : Nat → List (Loan κ α) → κ → Prop
  | _, [], _ => True
  | p, l :: ls, k => l.Fair (bytes.drop p) ∧
    FairAll bytes (p + l.passes (bytes.drop p) k) ls (l.answer (bytes.drop p) k).2

instance decidableFairAll (bytes : List α) : (p : Nat) → (ls : List (Loan κ α)) → (k : κ) →
    Decidable (FairAll bytes p ls k)
  | _, [], _ => .isTrue trivial
  | _, _ :: ls, _ => @instDecidableAnd _ _ _ (decidableFairAll bytes _ ls _)

/-- A walk over so many bytes. -/
def walk (n : Nat) : Loan κ α := ⟨.first n, .walk⟩

theorem passes_walk {bytes : List α} {p n : Nat} (hn : p + n ≤ bytes.length) (k : κ) :
    (walk n).passes (bytes.drop p) k = n := by
  show ((bytes.drop p).take n).length = n
  rw [List.length_take, List.length_drop]
  omega

theorem fairAll_walks (bytes : List α) (p : Nat) (ns : List Nat) (k : κ)
    (hn : p + ns.sum ≤ bytes.length) (hm : ∀ n ∈ ns, (n : Int) ≤ Width.w64.max) :
    FairAll bytes p (ns.map walk) k := by
  induction ns generalizing p k with
  | nil => trivial
  | cons n ns ih =>
    rw [List.sum_cons] at hn
    rw [List.map_cons, FairAll, passes_walk (by omega)]
    refine ⟨⟨⟨?_, hm n (List.mem_cons_self ..)⟩, trivial⟩, ih (p + n) _ (by omega) fun m h => ?_⟩
    · rw [List.length_drop]
      omega
    · exact hm m (List.mem_cons_of_mem n h)

/-- Walks hand out the parts of what is left. -/
theorem tour_walks (bytes : List α) (p : Nat) (ns : List Nat) (k : κ)
    (hn : p + ns.sum ≤ bytes.length) :
    tour bytes p (ns.map walk) k =
      (((ns.splitLengths (bytes.drop p)).map .items, p + ns.sum), k) := by
  induction ns generalizing p with
  | nil => rfl
  | cons n ns ih =>
    rw [List.sum_cons] at hn
    have ha : (walk n).answer (bytes.drop p) k = (.items ((bytes.drop p).take n), k) := rfl
    rw [List.map_cons, tour, passes_walk (by omega), ha, ih (p + n) (by omega),
      List.splitLengths_cons, List.map_cons, List.drop_drop, List.sum_cons, Nat.add_assoc]

/-- The parts of a list, one after the other, are its front. -/
theorem flatten_splitLengths_eq (ns : List Nat) (xs : List α) :
    (ns.splitLengths xs).flatten = xs.take ns.sum := by
  induction ns generalizing xs with
  | nil => rw [List.splitLengths_nil, List.sum_nil, List.take_zero]; rfl
  | cons n ns ih =>
    rw [List.splitLengths_cons, List.flatten_cons, ih, List.sum_cons, List.take_add]

/-- Lends the stream again and again. -/
def performAll [IntCast α] [Inhabited α] (s : ByteStream) :
    List (Loan κ α) → Run α κ (List (Use.Answer α) × ByteStream)
  | [] => return ([], s)
  | l :: ls => do
    let (a, t) ← l.use.perform s l.span
    let (as, u) ← performAll t ls
    return (a :: as, u)

variable [IntCast α] [Inhabited α] {es : List Event} {p : Nat} {s : ByteStream}

open ByteStream Event

/-- A loan leaves the stream as many bytes on as it passes. -/
theorem perform_ok (l : Loan κ α) (h : After es p s) (hf : l.Fair ((shown α es).drop p))
    (w : World α κ) :
    ∃ t st, l.use.perform s l.span w =
        .ok ((l.answer ((shown α es).drop p) w.calls).1, t)
          ⟨st, (l.answer ((shown α es).drop p) w.calls).2⟩ ∧
      After es (p + l.passes ((shown α es).drop p) w.calls) t := by
  obtain ⟨hs, hc⟩ := hf
  have hn (ht : l.span.told = true) :
      Width.w64.Fits (l.span.window ((shown α es).drop p)).length := by
    cases hl : l.span with
    | whole => rw [hl] at ht; cases ht
    | first n =>
      rw [hl] at hs
      exact (Width.fits_natCast hs.2).of_le (List.length_take_le n _)
  obtain ⟨st, ha⟩ := l.use.perform_ok w.store w.calls (l.span.presents h hs w.store) hn hc
  refine ⟨_, st, ha, h.skip ?_⟩
  have hw : l.passes ((shown α es).drop p) w.calls ≤ _ := l.use.passes_le l.span.told _ w.calls
  have hl := l.span.length_window_le ((shown α es).drop p)
  have := h.stands.le
  rw [List.length_drop, length_shown] at hl
  omega

theorem performAll_ok (h : After es p s) (ls : List (Loan κ α)) (w : World α κ)
    (hf : FairAll (shown α es) p ls w.calls) :
    let r := tour (shown α es) p ls w.calls
    ∃ t st, performAll s ls w = .ok (r.1.1, t) ⟨st, r.2⟩ ∧ After es r.1.2 t := by
  induction ls generalizing p s w with
  | nil => exact ⟨s, w.store, rfl, h⟩
  | cons l ls ih =>
    obtain ⟨t, st, ha, ht⟩ := l.perform_ok h hf.1 w
    obtain ⟨u, st, hb, hu⟩ := ih ht ⟨st, _⟩ hf.2
    exact ⟨u, st, (Run.bind_ok ha).trans (Run.bind_ok hb), hu⟩

/-- At any position, loans answer from the bytes that are left there, whatever has been asked before,
and pass as many as their uses do. So walks over counts of bytes cut the stream into parts that lie
side by side. -/
theorem lent_in_turn (h : After es p s) (w : World α κ) :
    (∀ ls : List (Loan κ α), FairAll (shown α es) p ls w.calls →
      let r := tour (shown α es) p ls w.calls
      ∃ t st, performAll s ls w = .ok (r.1.1, t) ⟨st, r.2⟩ ∧ After es r.1.2 t ∧
        t.position = r.1.2 ∧ t.peek = (contents es)[r.1.2]?) ∧
    ∀ ns : List Nat, (∀ n ∈ ns, (n : Int) ≤ Width.w64.max) → p + ns.sum ≤ (contents es).length →
      let parts := ns.splitLengths ((shown α es).drop p)
      parts.flatten = ((shown α es).drop p).take ns.sum ∧ parts.map List.length = ns ∧
        ∃ t st, performAll s (ns.map walk) w = .ok (parts.map .items, t) ⟨st, w.calls⟩ ∧
          After es (p + ns.sum) t := by
  refine ⟨fun ls hf => ?_, fun ns hm hn => ⟨flatten_splitLengths_eq ns _, ?_, ?_⟩⟩
  · obtain ⟨t, st, ha, ht⟩ := performAll_ok h ls w hf
    exact ⟨t, st, ha, ht, ht.stands.position, ht.stands.peek⟩
  · refine List.map_splitLengths_length _ ns ?_
    rw [List.length_drop, length_shown]
    omega
  · rw [← length_shown (α := α)] at hn
    have := performAll_ok h (ns.map walk) w (fairAll_walks _ p ns _ hn hm)
    rwa [tour_walks _ p ns _ hn] at this

end Loan

open ByteStream Event in
/-- Five bytes in two chunks with an interruption between them: one is walked over, a search stops at
the third, a comparison leaves the stream at the first pair that differs, and the last two are matched
by elements of a slice. -/
theorem lent_in_turn_five :
    let es := [.chunk [3, 1], .failure ⟨.interrupted, ""⟩, .chunk [4, 1, 5]]
    let same : Projection Nat Int Int := fun x k => (x, k + 1)
    let four : Predicate Nat Int := fun x k => (x == 4, k)
    let eq : Relation Nat Int Int := fun x y k => (x == y, k)
    let less : Relation Nat Int Int := fun x y k => (decide (x < y), k)
    let ls : List (Loan Nat Int) :=
      [.walk 1, ⟨.whole, .find true four same⟩,
        ⟨.first 2, .equalFirst ⟨[4, 9], by decide⟩ eq same same⟩,
        ⟨.whole, .includesSecond ⟨[1, 5, 7], by decide⟩ less same same⟩,
        ⟨.whole, .count 0 same⟩]
    ∃ t st, Loan.performAll (ofEvents es) ls ⟨[], 0⟩ =
        .ok ([.items [3], .found, .truth false, .truth true, .number 0], t) ⟨st, 10⟩ ∧
      After es 5 t ∧ t.position = 5 ∧ t.peek = none := by
  intro es same four eq less ls
  have hf : Loan.FairAll (shown Int es) 0 ls 0 := by decide +kernel
  have ht : Loan.tour (shown Int es) 0 ls 0 =
      (([.items [3], .found, .truth false, .truth true, .number 0], 5), 10) := by
    decide +kernel
  have hs : After es 0 (ofEvents es) := .start
  have := (Loan.lent_in_turn hs ⟨[], 0⟩).1 ls hf
  rwa [ht] at this

end Waymark
