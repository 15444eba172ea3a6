import Waymark.Proofs.Compare.Equal

/-!
# One list under two cursors

Two cursors of whatever kinds that present one list are not told apart by the algorithms, as long as
the lengths are told on both or on neither: the callables are asked the same in the same order, and the
positions that come out are as many steps from where each began.

Nearly all of this is already said by the algorithms on lists, which know nothing of cursors
(`Run.Alongside.of_yields`). What is left is that their answers are positions in the list
(`Listed.bisect_gives` and the like), and that probing does not depend on the width in which distances
are counted, if the length can be written in it (`Listed.probe_width`).
-/

namespace Waymark

variable {α β γ κ ν : Type}

/-! ## Answers that are positions -/

/-- Whatever the state of the callables, the answer satisfies `Q`. -/
def Gives (f : StateM κ ν) (Q : ν → Prop) : Prop := ∀ k, Q (f k).1

namespace Gives

variable {f : StateM κ ν} {Q Q' : ν → Prop}

theorem pure {b : ν} (h : Q b) : Gives (Pure.pure b : StateM κ ν) Q := fun _ => h

theorem mono (h : Gives f Q) (hQ : ∀ b, Q b → Q' b) : Gives f Q' := fun k => hQ _ (h k)

theorem bind {g : ν → StateM κ γ} {R : γ → Prop} (h : Gives f Q) (hg : ∀ b, Q b → Gives (g b) R) :
    Gives (f >>= g) R :=
  fun k => hg _ (h k) _

/-- Whatever is answered first. -/
theorem after {g : ν → StateM κ γ} {R : γ → Prop} (h : ∀ b, Gives (g b) R) : Gives (f >>= g) R :=
  fun _ => h _ _

theorem ite {p : Prop} [Decidable p] {g : StateM κ ν} (hf : Gives f Q) (hg : Gives g Q) :
    Gives (if p then f else g) Q := by
  split
  · exact hf
  · exact hg

end Gives

namespace Listed

variable {value : β} {comp : Relation κ β β} {proj : Projection κ α β} {xs : List α}

theorem seek_gives (wanted : Bool) (t : Predicate κ α) (xs : List α) :
    Gives (seek wanted t xs) (· ≤ xs.length) := by
  induction xs with
  | nil => exact .pure (Nat.le_refl _)
  | cons x xs ih =>
    refine .after fun found => .ite (.pure (Nat.zero_le _)) (ih.bind fun i hi => .pure ?_)
    rw [List.length_cons]
    omega

theorem bisect_gives (t : Predicate κ α) (xs : List α) : Gives (bisect t xs) (· ≤ xs.length) := by
  induction xs using bisect.induct with
  | case1 xs hm ihr ihl =>
    rw [List.length_drop] at ihr
    rw [bisect, dif_pos hm]
    refine .after fun held => .ite (ihr.bind fun i hi => .pure ?_) (ihl.mono fun i hi => ?_)
    · omega
    · rw [List.length_take] at hi
      omega
  | case2 xs hm =>
    rw [bisect, dif_neg hm]
    exact .pure (Nat.zero_le _)

theorem bisectEqual_gives (xs : List α) :
    Gives (bisectEqual value comp proj xs) fun r => r.1 ≤ xs.length ∧ r.2 ≤ xs.length := by
  induction xs using bisectEqual.induct with
  | case1 xs hm ihr ihl =>
    have hlower := bisect_gives ((orderedBefore value comp).on proj) (xs.take (xs.length / 2))
    have hupper := bisect_gives ((notOrderedAfter value comp).on proj) (xs.drop (xs.length / 2 + 1))
    rw [List.length_take] at ihl hlower
    rw [List.length_drop] at ihr hupper
    rw [bisectEqual, dif_pos hm]
    refine .after fun y => .after fun before => .ite (ihr.bind fun r hr => .pure ?_)
      (.after fun after => .ite (ihl.mono fun r hr => ?_)
        (hlower.bind fun l hl => hupper.bind fun u hu => .pure ?_))
    · dsimp only
      omega
    · omega
    · dsimp only
      omega
  | case2 xs hm =>
    rw [bisectEqual, dif_neg hm]
    exact .pure ⟨Nat.zero_le _, Nat.zero_le _⟩

theorem probe_gives (width : Width) (dist : Nat) (xs : List α) :
    Gives (probe value comp proj width dist xs) fun r => r.1 ≤ xs.length ∧ r.2 ≤ xs.length := by
  induction dist, xs using probe.induct width with
  | case1 dist xs hd ih =>
    have hequal : Gives (bisectEqual value comp proj (xs.take dist)) _ := bisectEqual_gives _
    have hlower := bisect_gives ((orderedBefore value comp).on proj) (xs.take dist)
    have hupper := seek_gives false ((notOrderedAfter value comp).on proj) (xs.drop dist)
    rw [List.length_take] at hequal hlower
    rw [List.length_drop] at ih hupper
    rw [probe, dif_pos hd]
    refine .after fun y => .after fun after => .ite (hequal.mono fun r hr => ?_)
      (.after fun before => .ite (ih.bind fun r hr => .pure ?_)
        (hlower.bind fun l hl => hupper.bind fun u hu => .pure ?_))
    · omega
    · dsimp only
      omega
    · dsimp only
      omega
  | case2 dist xs hd =>
    rw [probe, dif_neg hd]
    exact bisectEqual_gives xs

theorem equal_gives (proj₁ : Projection κ α β) (rel : Relation κ β γ) (proj₂ : Projection κ α γ)
    (xs ys : List α) :
    Gives (equal proj₁ rel proj₂ xs ys) fun r => r.2 ≤ xs.length ∧ r.2 ≤ ys.length := by
  induction xs generalizing ys with
  | nil => cases ys <;> exact .pure ⟨Nat.zero_le _, Nat.zero_le _⟩
  | cons x xs ih =>
    cases ys with
    | nil => exact .pure ⟨Nat.zero_le _, Nat.zero_le _⟩
    | cons y ys =>
      refine .after fun a => .after fun b => .after fun held => .ite ((ih ys).bind fun r hr => .pure ?_)
        (.pure ⟨Nat.zero_le _, Nat.zero_le _⟩)
      rw [List.length_cons, List.length_cons]
      dsimp only
      omega

theorem includes_gives (proj₁ : Projection κ α β) (comp : Relation κ β β) (proj₂ : Projection κ α β)
    (xs ys : List α) :
    Gives (includes proj₁ comp proj₂ xs ys) fun r => r.2.1 ≤ xs.length ∧ r.2.2 ≤ ys.length := by
  induction xs generalizing ys with
  | nil => cases ys <;> exact .pure ⟨Nat.zero_le _, Nat.zero_le _⟩
  | cons x xs ih =>
    cases ys with
    | nil => exact .pure ⟨Nat.zero_le _, Nat.zero_le _⟩
    | cons y ys =>
      refine .after fun a => .after fun b => .after fun missing =>
        .ite (.pure ⟨Nat.zero_le _, Nat.zero_le _⟩) (.after fun skipped =>
          .ite ((ih (y :: ys)).bind fun r hr => .pure ?_) ((ih ys).bind fun r hr => .pure ?_)) <;>
        simp only [List.length_cons] at * <;> omega

/-! ## Probes in any width -/

/-- A list whose length can be written is probed at distances that double exactly. -/
theorem probe_width {v w : Width} {dist : Nat} {xs : List α}
    (hv : (dist + xs.length : Nat) ≤ v.max + 1) (hw : (dist + xs.length : Nat) ≤ w.max + 1) :
    probe value comp proj v dist xs = probe value comp proj w dist xs := by
  induction dist, xs using probe.induct v with
  | case1 dist xs hd ih =>
    have hv2 : (2 * dist : Nat) ≤ v.max := by omega
    have hw2 : (2 * dist : Nat) ≤ w.max := by omega
    rw [List.length_drop, Width.double_of_le hv2, Int.toNat_natCast] at ih
    conv => lhs; rw [probe, dif_pos hd, Width.double_of_le hv2, Int.toNat_natCast]
    conv => rhs; rw [probe, dif_pos hd, Width.double_of_le hw2, Int.toNat_natCast]
    rw [ih (by omega) (by omega)]
  | case2 dist xs hd =>
    conv => lhs; rw [probe, dif_neg hd]
    conv => rhs; rw [probe, dif_neg hd]

/-- The partition point, by bisection if the length is told and else by looking at one element after
the other. -/
def partitionPoint (told : Bool) (t : Predicate κ α) (xs : List α) : StateM κ Nat :=
  if told then bisect t xs else seek false t xs

theorem partitionPoint_gives (told : Bool) (t : Predicate κ α) (xs : List α) :
    Gives (partitionPoint told t xs) (· ≤ xs.length) :=
  .ite (bisect_gives t xs) (seek_gives false t xs)

/-- Both ends of the elements equivalent to a value, by bisection if the length is told and else by
probes. -/
def equalRange (told : Bool) (width : Width) (value : β) (comp : Relation κ β β)
    (proj : Projection κ α β) (xs : List α) : StateM κ (Nat × Nat) :=
  if told then bisectEqual value comp proj xs else probe value comp proj width 1 xs

theorem equalRange_gives (told : Bool) (width : Width) (xs : List α) :
    Gives (equalRange told width value comp proj xs) fun r => r.1 ≤ xs.length ∧ r.2 ≤ xs.length :=
  .ite (bisectEqual_gives xs) (probe_gives width 1 xs)

/-- Compares two lists. Lengths that are told on both sides are compared first. -/
def equalMeasured (told : Bool) (proj₁ : Projection κ α β) (rel : Relation κ β γ)
    (proj₂ : Projection κ α γ) (xs ys : List α) : StateM κ (Bool × Nat) :=
  if told = true ∧ xs.length ≠ ys.length then return (false, 0) else equal proj₁ rel proj₂ xs ys

theorem equalMeasured_gives (told : Bool) (proj₁ : Projection κ α β) (rel : Relation κ β γ)
    (proj₂ : Projection κ α γ) (xs ys : List α) :
    Gives (equalMeasured told proj₁ rel proj₂ xs ys) fun r => r.2 ≤ xs.length ∧ r.2 ≤ ys.length :=
  .ite (.pure ⟨Nat.zero_le _, Nat.zero_le _⟩) (equal_gives proj₁ rel proj₂ xs ys)

variable [IntCast α] [Inhabited α] {c : Cursor α} {b : Bound α} {s : Store α} {k : κ}

theorem partitionPoint_yields (h : Presents s c b xs) (hn : c.width.Fits xs.length)
    (pred : Predicate κ β) (proj : Projection κ α β) :
    (Waymark.partitionPoint c b pred proj).Yields (partitionPoint b.sized (pred.on proj) xs) c.hop
      ⟨s, k⟩ := by
  cases hb : b.sized with
  | true =>
    have hm := h.measure fun _ => hn
    rw [hb] at hm
    exact .lift hm (partitionPointN_follows h.shows rfl pred proj).yields
  | false => exact (partitionPoint_follows h hb pred proj).yields

/-- Probes of any width that the length can be written in are probes of all of them. -/
theorem equalRange_yields (h : Presents s c b xs) (hn : c.width.Fits xs.length)
    (hk : b.sized = false → c.keeps = true) {width : Width} (hw : width.Fits xs.length) (value : β)
    (comp : Relation κ β β) (proj : Projection κ α β) :
    (Waymark.equalRange c b value comp proj).Yields (equalRange b.sized width value comp proj xs)
      c.hops ⟨s, k⟩ := by
  have hm := h.measure fun _ => hn
  cases hb : b.sized with
  | true =>
    rw [hb] at hm
    exact .lift hm (equalRangeN_follows h.shows rfl value comp proj).yields
  | false =>
    rw [hb] at hm
    have hn2 := hn.2
    have hw2 := hw.2
    have hp : probe value comp proj c.width 1 xs = probe value comp proj width 1 xs :=
      probe_width (by omega) (by omega)
    refine .lift hm ?_
    show (Waymark.probe 1 c b value comp proj).Yields (probe value comp proj width 1 xs) c.hops _
    rw [← hp]
    exact (probe_follows h rfl c.width.fits_one hb (hk hb) value comp proj).yields

theorem equal_yields {d : Cursor α} {last₁ last₂ : Bound α} {ys : List α}
    (hc : Presents s c last₁ xs) (hd : Presents s d last₂ ys)
    (hn : last₁.sized = true → c.width.Fits xs.length)
    (hm : last₂.sized = true → d.width.Fits ys.length) (ha : c.Apart xs.length d ys.length)
    (rel : Relation κ β γ) (proj₁ : Projection κ α β) (proj₂ : Projection κ α γ) :
    (Waymark.equal c last₁ d last₂ rel proj₁ proj₂).Yields
      (equalMeasured (last₁.sized && last₂.sized) proj₁ rel proj₂ xs ys)
      (fun r => ⟨r.1, c.hop r.2, d.hop r.2⟩) ⟨s, k⟩ := by
  rw [equal_eq hc hd hn hm, equalMeasured_eq hc.ends hd.ends, equalMeasured]
  split
  · exact .pure (verdict_hop_zero _ c d)
  · exact equalByBoth_yields hc hd ha rel proj₁ proj₂

end Listed

/-! ## Two runs side by side -/

/-- `d` is as many steps from `c` as `d'` is from `c'`. -/
def Cursor.SameOffset (c c' d d' : Cursor α) : Prop :=
  ∃ n, c.stepTimes n = .ok d ∧ c'.stepTimes n = .ok d'

/-- Whatever state the callables are in, both runs return, with results that `R` relates, and leave
the callables in one state. The stored sequences may be different ones. -/
def Run.Alongside (act : Run α κ γ) (s : Store α) (act' : Run α κ γ) (s' : Store α)
    (R : γ → γ → Prop) : Prop :=
  ∀ k, ∃ b b' k' t t', act ⟨s, k⟩ = .ok b ⟨t, k'⟩ ∧ act' ⟨s', k⟩ = .ok b' ⟨t', k'⟩ ∧ R b b'

/-- Runs that do the same on lists do the same side by side. -/
theorem Run.Alongside.of_yields {act act' : Run α κ γ} {s s' : Store α} {f : StateM κ ν}
    {place place' : ν → γ} {Q : ν → Prop} {R : γ → γ → Prop} (h : ∀ k, act.Yields f place ⟨s, k⟩)
    (h' : ∀ k, act'.Yields f place' ⟨s', k⟩) (hf : Gives f Q)
    (hR : ∀ b, Q b → R (place b) (place' b)) : act.Alongside s act' s' R := by
  intro k
  obtain ⟨t, ha⟩ := h k
  obtain ⟨t', ha'⟩ := h' k
  exact ⟨_, _, _, t, t', ha, ha', hR _ (hf k)⟩

section Sequences

variable [IntCast α] {s s' : Store α} {c c' : Cursor α} {b b' : Bound α} {xs : List α}

/-- Positions in one list are at the same offset under both cursors. -/
theorem Presents.sameOffset (h : Presents s c b xs) (h' : Presents s' c' b' xs) {n : Nat}
    (hn : n ≤ xs.length) : c.SameOffset c' (c.hop n) (c'.hop n) :=
  ⟨n, h.shows.reach hn, h'.shows.reach hn⟩

variable [Inhabited α]

/-- The searches along the two sequences, from one state of the callables each: they make the same
calls and come to the same offsets. What is known of the length decides how some of them search, so
that it has to be known on both sides or on neither. A search by probes reads one element twice. -/
structure SearchedAlongside (s : Store α) (c : Cursor α) (b : Bound α) (s' : Store α) (c' : Cursor α)
    (b' : Bound α) : Prop where
  findIf : ∀ {κ β : Type} (pred : Predicate κ β) (proj : Projection κ α β),
    (findIf c b pred proj).Alongside s (findIf c' b' pred proj) s' (c.SameOffset c')
  findIfNot : ∀ {κ β : Type} (pred : Predicate κ β) (proj : Projection κ α β),
    (findIfNot c b pred proj).Alongside s (findIfNot c' b' pred proj) s' (c.SameOffset c')
  count : ∀ {κ β : Type} [BEq β] (value : β) (proj : Projection κ α β),
    (count c b value proj).Alongside s (count c' b' value proj) s' fun r r' =>
      r.1 = r'.1 ∧ c.SameOffset c' r.2 r'.2
  partitionPoint : b.sized = b'.sized → ∀ {κ β : Type} (pred : Predicate κ β)
    (proj : Projection κ α β), (partitionPoint c b pred proj).Alongside s
      (partitionPoint c' b' pred proj) s' (c.SameOffset c')
  lowerBound : b.sized = b'.sized → ∀ {κ β : Type} (value : β) (comp : Relation κ β β)
    (proj : Projection κ α β), (lowerBound c b value comp proj).Alongside s
      (lowerBound c' b' value comp proj) s' (c.SameOffset c')
  upperBound : b.sized = b'.sized → ∀ {κ β : Type} (value : β) (comp : Relation κ β β)
    (proj : Projection κ α β), (upperBound c b value comp proj).Alongside s
      (upperBound c' b' value comp proj) s' (c.SameOffset c')
  equalRange : b.sized = b'.sized → (b.sized = false → c.keeps = true ∧ c'.keeps = true) →
    ∀ {κ β : Type} (value : β) (comp : Relation κ β β) (proj : Projection κ α β),
      (equalRange c b value comp proj).Alongside s (equalRange c' b' value comp proj) s' fun r r' =>
        c.SameOffset c' r.1 r'.1 ∧ c.SameOffset c' r.2 r'.2

/-- The comparisons of two sequences with each other and of two others. An inclusion may read elements
of the second sequence twice. -/
structure ComparedAlongside (s : Store α) (c : Cursor α) (b : Bound α) (d : Cursor α) (e : Bound α)
    (s' : Store α) (c' : Cursor α) (b' : Bound α) (d' : Cursor α) (e' : Bound α) : Prop where
  equal : b.sized = b'.sized → e.sized = e'.sized → ∀ {κ β γ : Type} (rel : Relation κ β γ)
    (proj₁ : Projection κ α β) (proj₂ : Projection κ α γ),
    (equal c b d e rel proj₁ proj₂).Alongside s (equal c' b' d' e' rel proj₁ proj₂) s' fun v v' =>
      v.holds = v'.holds ∧ c.SameOffset c' v.first v'.first ∧ d.SameOffset d' v.second v'.second
  includes : d.keeps = true → d'.keeps = true → ∀ {κ β : Type} (comp : Relation κ β β)
    (proj₁ proj₂ : Projection κ α β),
    (includes c b d e comp proj₁ proj₂).Alongside s (includes c' b' d' e' comp proj₁ proj₂) s'
      fun v v' => v.holds = v'.holds ∧ c.SameOffset c' v.first v'.first ∧
        d.SameOffset d' v.second v'.second

section Searches

variable (h : Presents s c b xs) (h' : Presents s' c' b' xs)

include h h'

theorem findBy_alongside (wanted : Bool) (pred : Predicate κ β) (proj : Projection κ α β) :
    (findBy wanted c b pred proj).Alongside s (findBy wanted c' b' pred proj) s'
      (c.SameOffset c') :=
  .of_yields (fun _ => (Listed.seek_follows wanted h pred proj).yields)
    (fun _ => (Listed.seek_follows wanted h' pred proj).yields) (Listed.seek_gives _ _ _)
    fun _ hi => h.sameOffset h' hi

variable (hn : c.width.Fits xs.length) (hn' : c'.width.Fits xs.length)

include hn hn'

theorem count_alongside [BEq β] (value : β) (proj : Projection κ α β) :
    (count c b value proj).Alongside s (count c' b' value proj) s' fun r r' =>
      r.1 = r'.1 ∧ c.SameOffset c' r.2 r'.2 := by
  have hl : 0 + xs.length = xs.length := Nat.zero_add _
  rw [← hl] at hn hn'
  have hg : Gives (Listed.count value proj xs) fun _ => True := fun _ => trivial
  exact .of_yields (fun _ => (Listed.countFrom_follows h hn value proj).yields)
    (fun _ => (Listed.countFrom_follows h' hn' value proj).yields) hg
    fun _ _ => ⟨rfl, h.sameOffset h' (Nat.le_refl _)⟩

variable (hb : b.sized = b'.sized)

include hb

/-- Both bisect, or both look at one element after the other. -/
theorem partitionPoint_alongside (pred : Predicate κ β) (proj : Projection κ α β) :
    (partitionPoint c b pred proj).Alongside s (partitionPoint c' b' pred proj) s'
      (c.SameOffset c') := by
  have hy' (k : κ) := Listed.partitionPoint_yields (k := k) h' hn' pred proj
  rw [← hb] at hy'
  exact .of_yields (fun _ => Listed.partitionPoint_yields h hn pred proj) hy'
    (Listed.partitionPoint_gives _ _ _) fun _ hi => h.sameOffset h' hi

/-- Both bisect, or both probe at the same distances. -/
theorem equalRange_alongside (hk : b.sized = false → c.keeps = true ∧ c'.keeps = true) (value : β)
    (comp : Relation κ β β) (proj : Projection κ α β) :
    (equalRange c b value comp proj).Alongside s (equalRange c' b' value comp proj) s' fun r r' =>
      c.SameOffset c' r.1 r'.1 ∧ c.SameOffset c' r.2 r'.2 := by
  have hk' (hs : b'.sized = false) : c'.keeps = true := (hk (hb.trans hs)).2
  have hy' (k : κ) := Listed.equalRange_yields (k := k) h' hn' hk' hn value comp proj
  rw [← hb] at hy'
  exact .of_yields
    (fun _ => Listed.equalRange_yields h hn (fun hs => (hk hs).1) hn value comp proj) hy'
    (Listed.equalRange_gives _ _ _) fun _ hi => ⟨h.sameOffset h' hi.1, h.sameOffset h' hi.2⟩

end Searches

theorem searchedAlongside (h : Presents s c b xs) (h' : Presents s' c' b' xs)
    (hn : c.width.Fits xs.length) (hn' : c'.width.Fits xs.length) :
    SearchedAlongside s c b s' c' b' where
  findIf := findBy_alongside h h' true
  findIfNot := findBy_alongside h h' false
  count := count_alongside h h' hn hn'
  partitionPoint hb := partitionPoint_alongside h h' hn hn' hb
  lowerBound hb _ _ _ _ := partitionPoint_alongside h h' hn hn' hb _
  upperBound hb _ _ _ _ := partitionPoint_alongside h h' hn hn' hb _
  equalRange hb hk := equalRange_alongside h h' hn hn' hb hk

section Comparisons

variable {d d' : Cursor α} {e e' : Bound α} {ys : List α} (h : Presents s c b xs)
  (h' : Presents s' c' b' xs) (hd : Presents s d e ys) (hd' : Presents s' d' e' ys)
  (ha : c.Apart xs.length d ys.length) (ha' : c'.Apart xs.length d' ys.length)

include h h' hd hd' ha ha'

theorem equal_alongside (hn : c.width.Fits xs.length) (hn' : c'.width.Fits xs.length)
    (hm : d.width.Fits ys.length) (hm' : d'.width.Fits ys.length) (hb : b.sized = b'.sized)
    (he : e.sized = e'.sized) (rel : Relation κ β γ) (proj₁ : Projection κ α β)
    (proj₂ : Projection κ α γ) :
    (equal c b d e rel proj₁ proj₂).Alongside s (equal c' b' d' e' rel proj₁ proj₂) s' fun v v' =>
      v.holds = v'.holds ∧ c.SameOffset c' v.first v'.first ∧ d.SameOffset d' v.second v'.second := by
  have hy' (k : κ) :=
    Listed.equal_yields (k := k) h' hd' (fun _ => hn') (fun _ => hm') ha' rel proj₁ proj₂
  rw [← hb, ← he] at hy'
  exact .of_yields
    (fun _ => Listed.equal_yields h hd (fun _ => hn) (fun _ => hm) ha rel proj₁ proj₂) hy'
    (Listed.equalMeasured_gives _ _ _ _ _ _)
    fun _ hi => ⟨rfl, h.sameOffset h' hi.1, hd.sameOffset hd' hi.2⟩

theorem includes_alongside (hk : d.keeps = true) (hk' : d'.keeps = true) (comp : Relation κ β β)
    (proj₁ proj₂ : Projection κ α β) :
    (includes c b d e comp proj₁ proj₂).Alongside s (includes c' b' d' e' comp proj₁ proj₂) s'
      fun v v' => v.holds = v'.holds ∧ c.SameOffset c' v.first v'.first ∧
        d.SameOffset d' v.second v'.second :=
  .of_yields (fun _ => Listed.includes_yields h hd ha hk comp proj₁ proj₂)
    (fun _ => Listed.includes_yields h' hd' ha' hk' comp proj₁ proj₂)
    (Listed.includes_gives _ _ _ _ _)
    fun _ hi => ⟨rfl, h.sameOffset h' hi.1, hd.sameOffset hd' hi.2⟩

end Comparisons

theorem comparedAlongside {d d' : Cursor α} {e e' : Bound α} {ys : List α}
    (h : Presents s c b xs) (h' : Presents s' c' b' xs) (hd : Presents s d e ys)
    (hd' : Presents s' d' e' ys) (hn : c.width.Fits xs.length) (hn' : c'.width.Fits xs.length)
    (hm : d.width.Fits ys.length) (hm' : d'.width.Fits ys.length)
    (ha : c.Apart xs.length d ys.length) (ha' : c'.Apart xs.length d' ys.length) :
    ComparedAlongside s c b d e s' c' b' d' e' where
  equal hb he := equal_alongside h h' hd hd' ha ha' hn hn' hm hm' hb he
  includes hk hk' := includes_alongside h h' hd hd' ha ha' hk hk'

/-- Two cursors that present one list, of whatever kinds, are searched alike, and compared alike with
others that present one list. Reading the one sequence has to leave the other, as it does wherever
nothing is moved out of a stored one (`Cursor.apart_of_keeps`). In particular a cursor that only steps
forward, but counts, is searched as one that knows all positions. -/
theorem kinds_alongside (h : Presents s c b xs) (h' : Presents s' c' b' xs)
    (hn : c.width.Fits xs.length) (hn' : c'.width.Fits xs.length) :
    SearchedAlongside s c b s' c' b' ∧
    (∀ d e d' e' ys, Presents s d e ys → Presents s' d' e' ys → d.width.Fits ys.length →
      d'.width.Fits ys.length → c.Apart xs.length d ys.length → c'.Apart xs.length d' ys.length →
      ComparedAlongside s c b d e s' c' b' d' e') ∧
    SearchedAlongside s (.counted (.forwardOnly c) xs.length) .countEnd s' c' b' :=
  ⟨searchedAlongside h h' hn hn',
    fun _ _ _ _ _ hd hd' hm hm' ha ha' => comparedAlongside h h' hd hd' hn hn' hm hm' ha ha',
    searchedAlongside (presents_counted (presents_forwardOnly h).shows hn) h' hn hn'⟩

end Sequences

/-- The integers from 2 to 5 in 8 bits and the same ones in a slice, stepped through and counted, are
asked for the range of 4 with the same calls. So are a value shown twice and two elements moved out of
a shared slice for whether the others include them. -/
theorem kinds_alongside_counted :
    let slice : Cursor Int := .slice (.shared 0 [2, 3, 4, 5]) 0
    let last : Bound Int := .cursor (.slice (.shared 0 [2, 3, 4, 5]) 4)
    let counted : Cursor Int := .counted (.forwardOnly slice) 4
    let ints : Cursor Int := .iota .w8 2
    let end6 : Bound Int := .cursor (.iota .w8 6)
    let moved : Cursor Int := .moving (.slice (.shared 1 [3, 3]) 0)
    let moved2 : Bound Int := .moving (.cursor (.slice (.shared 1 [3, 3]) 2))
    let twice : Cursor Int := .repeated 0 3 0
    let end2 : Bound Int := .cursor (.repeated 0 3 2)
    let less : Relation (List (Int × Int)) Int Int := fun a b k => (decide (a < b), (a, b) :: k)
    ((equalRange counted .countEnd 4 less .identity).Alongside []
      (equalRange ints end6 4 less .identity) [] fun r r' =>
        counted.SameOffset ints r.1 r'.1 ∧ counted.SameOffset ints r.2 r'.2) ∧
    (includes slice last moved moved2 less .identity .identity).Alongside []
      (includes ints end6 twice end2 less .identity .identity) [] fun v v' =>
        v.holds = v'.holds ∧ slice.SameOffset ints v.first v'.first ∧
          moved.SameOffset twice v.second v'.second := by
  intro slice last counted ints end6 moved moved2 twice end2 less
  have hc : Presents [] slice last [2, 3, 4, 5] :=
    presents_ofSource (show (Source.shared 0 [2, 3, 4, 5]).Holds _ _ from rfl) (by decide)
  have hc' : Presents [] ints end6 [2, 3, 4, 5] :=
    presents_iota (x := 2) (n := 4) (by decide) (by decide)
  have hd : Presents [] moved moved2 [3, 3] :=
    presents_moving
      (presents_ofSource (show (Source.shared 1 [3, 3]).Holds _ _ from rfl) (by decide)) rfl
  have hd' : Presents [] twice end2 [3, 3] :=
    presents_repeated (n := 2) (p := 0) (by decide) (by decide)
  obtain ⟨-, hcompared, hcounted⟩ := kinds_alongside hc hc' (by decide) (by decide)
  refine ⟨hcounted.equalRange rfl (fun hs => nomatch hs) 4 less .identity, ?_⟩
  exact (hcompared _ _ _ _ _ hd hd' (by decide) (by decide)
    (Cursor.apart_of_keeps rfl rfl _ _) (Cursor.apart_of_keeps rfl rfl _ _)).includes rfl rfl less
      .identity .identity

end Waymark
