import Waymark.Proofs.Stream.Alike
import Waymark.Proofs.Walk

/-!
# Passing over a stream

Every algorithm that passes over a sequence once does the same over two streams that come to the same
bytes and the same end, whether it stands on them directly or through counts, on either side of a
comparison, and up to any bound: it makes the same calls, returns the same and leaves alike cursors
behind, or stops at the same fault. `streams_pass` puts this together with what a stream shows on the
way (`ByteStream.Stands`).
-/

namespace Waymark

variable {α β γ κ : Type} [IntCast α] [Inhabited α]

/-! ## What is asked of alike cursors -/

namespace Cursor.Alike

variable {c d : Cursor α}

theorem read_eq (h : c.Alike d) : (c.read : Run α κ α) = d.read := by
  induction h with
  | same c => rfl
  | stream h => rw [Cursor.read, Cursor.read, h.shows.2.2.1]
  | counted h r ih => exact ih

theorem project_eq (h : c.Alike d) (proj : Projection κ α β) : c.project proj = d.project proj := by
  rw [Cursor.project, Cursor.project, h.read_eq]

theorem test_eq (h : c.Alike d) (pred : Predicate κ β) (proj : Projection κ α β) :
    c.test pred proj = d.test pred proj := by
  rw [Cursor.test, Cursor.test, h.project_eq]

theorem related_eq {c' d' : Cursor α} (h : c.Alike d) (h' : c'.Alike d') (rel : Relation κ β γ)
    (proj₁ : Projection κ α β) (proj₂ : Projection κ α γ) :
    related c c' rel proj₁ proj₂ = related d d' rel proj₁ proj₂ := by
  rw [related, related, h.project_eq, h'.project_eq]

end Cursor.Alike

/-! ## The passes -/

open Run (Agree)

section Find

variable {c d : Cursor α} (last : Bound α)

theorem findBy_agree (h : c.Alike d) (wanted : Bool) (pred : Predicate κ β)
    (proj : Projection κ α β) :
    Agree Cursor.Alike (findBy wanted c last pred proj) (findBy wanted d last pred proj) := by
  induction h using Cursor.Alike.step_induction with
  | step c d h ih =>
    rw [findBy_eq, findBy_eq, h.isEnd_eq, h.test_eq]
    refine .ite (fun _ => .pure h) fun _ => .after _ fun found => ?_
    exact .ite (fun _ => .pure h) fun _ => .step h ih

/-- The counts are the same, and the cursors alike. -/
theorem countFrom_agree [BEq β] (h : c.Alike d) (n : Int) (value : β) (proj : Projection κ α β) :
    Agree (fun r r' => r.1 = r'.1 ∧ r.2.Alike r'.2) (countFrom n c last value proj)
      (countFrom n d last value proj) := by
  induction h using Cursor.Alike.step_induction generalizing n with
  | step c d h ih =>
    rw [countFrom_eq, countFrom_eq, h.isEnd_eq, h.project_eq, h.width_eq]
    refine .ite (fun _ => .pure ⟨rfl, h⟩) fun _ => .after _ fun y => .after _ fun m => ?_
    exact .step h fun c' d' hc hd h' => ih c' d' hc hd h' m

end Find

section Compare

variable {c c' d d' : Cursor α} (last₁ last₂ : Bound α) (proj₁ : Projection κ α β)

theorem equalByFirst_agree (hc : c.Alike c') (hd : d.Alike d') (rel : Relation κ β γ)
    (proj₂ : Projection κ α γ) :
    Agree Verdict.Alike (equalByFirst c last₁ d rel proj₁ proj₂)
      (equalByFirst c' last₁ d' rel proj₁ proj₂) := by
  induction hc using Cursor.Alike.step_induction generalizing d d' with
  | step c c' hc ih =>
    rw [equalByFirst_eq, equalByFirst_eq, hc.isEnd_eq, hc.related_eq hd]
    refine .ite (fun _ => .pure ⟨rfl, hc, hd⟩) fun _ => .after _ fun held => ?_
    refine .ite (fun _ => ?_) fun _ => .pure ⟨rfl, hc, hd⟩
    exact .step hc fun _ _ hcs hcs' hc' => .step hd fun _ _ _ _ hd' => ih _ _ hcs hcs' hc' hd'

theorem equalByBoth_agree (hc : c.Alike c') (hd : d.Alike d') (rel : Relation κ β γ)
    (proj₂ : Projection κ α γ) :
    Agree Verdict.Alike (equalByBoth c last₁ d last₂ rel proj₁ proj₂)
      (equalByBoth c' last₁ d' last₂ rel proj₁ proj₂) := by
  induction hc using Cursor.Alike.step_induction generalizing d d' with
  | step c c' hc ih =>
    rw [equalByBoth_eq, equalByBoth_eq, hc.isEnd_eq, hd.isEnd_eq, hc.related_eq hd]
    cases last₁.isEnd c' <;> cases last₂.isEnd d'
    · refine .after _ fun held => .ite (fun _ => ?_) fun _ => .pure ⟨rfl, hc, hd⟩
      exact .step hc fun _ _ hcs hcs' hc' => .step hd fun _ _ _ _ hd' => ih _ _ hcs hcs' hc' hd'
    all_goals exact .pure ⟨rfl, hc, hd⟩

theorem equalMeasured_agree (hc : c.Alike c') (hd : d.Alike d') (size₁ size₂ : Option Int)
    (rel : Relation κ β γ) (proj₂ : Projection κ α γ) :
    Agree Verdict.Alike (equalMeasured c last₁ size₁ d last₂ size₂ rel proj₁ proj₂)
      (equalMeasured c' last₁ size₁ d' last₂ size₂ rel proj₁ proj₂) := by
  unfold equalMeasured
  split
  · refine .ite (fun _ => ?_) fun _ => .pure ⟨rfl, hc, hd⟩
    exact equalByFirst_agree last₁ proj₁ hc hd rel proj₂
  · exact equalByBoth_agree last₁ last₂ proj₁ hc hd rel proj₂

theorem equal_agree (hc : c.Alike c') (hd : d.Alike d') (rel : Relation κ β γ)
    (proj₂ : Projection κ α γ) :
    Agree Verdict.Alike (equal c last₁ d last₂ rel proj₁ proj₂)
      (equal c' last₁ d' last₂ rel proj₁ proj₂) := by
  rw [equal, equal, hc.measure_eq, hd.measure_eq]
  refine .after _ fun size₁ => .after _ fun size₂ => ?_
  exact equalMeasured_agree last₁ last₂ proj₁ hc hd size₁ size₂ rel proj₂

theorem Range.equal_agree (e₁ e₂ : Extent) (hc : c.Alike c') (hd : d.Alike d')
    (rel : Relation κ β γ) (proj₂ : Projection κ α γ) :
    Agree Verdict.Alike (Range.equal ⟨c, last₁, e₁⟩ ⟨d, last₂, e₂⟩ rel proj₁ proj₂)
      (Range.equal ⟨c', last₁, e₁⟩ ⟨d', last₂, e₂⟩ rel proj₁ proj₂) := by
  rw [Range.equal, Range.equal, hc.rangeMeasure_eq, hd.rangeMeasure_eq]
  simp only [hc.sizeOr_eq, hd.sizeOr_eq]
  refine .after _ fun told₁ => .after _ fun told₂ => .after _ fun size₁ => .after _ fun size₂ => ?_
  exact equalMeasured_agree last₁ last₂ proj₁ hc hd size₁ size₂ rel proj₂

theorem includes_agree (hc : c.Alike c') (hd : d.Alike d') (comp : Relation κ β β)
    (proj₂ : Projection κ α β) :
    Agree Verdict.Alike (includes c last₁ d last₂ comp proj₁ proj₂)
      (includes c' last₁ d' last₂ comp proj₁ proj₂) := by
  induction hc using Cursor.Alike.step_induction generalizing d d' with
  | step c c' hc ih =>
    rw [includes_eq, includes_eq, hc.isEnd_eq, hd.isEnd_eq, hc.project_eq, hd.project_eq]
    refine .ite (fun _ => .pure ⟨rfl, hc, hd⟩) fun _ => .ite (fun _ => .pure ⟨rfl, hc, hd⟩) fun _ => ?_
    refine .after _ fun y => .after _ fun z => .after _ fun missing => ?_
    refine .ite (fun _ => .pure ⟨rfl, hc, hd⟩) fun _ => .after _ fun skipped => ?_
    -- the second sequence steps along only if its element has been used up
    have hgo {d d' : Cursor α} (hd : d.Alike d') :=
      Agree.step hc fun _ _ hcs hcs' hc' => ih _ _ hcs hcs' hc' hd
    cases skipped with
    | true => exact hgo hd
    | false => exact .step hd fun _ _ _ _ hd' => hgo hd'

end Compare

section Walks

namespace Walk

variable {v v' : Walk α}

theorem next_agree (h : v.Alike v') :
    Agree (fun r r' => r.1 = r'.1 ∧ r.2.Alike r'.2) (v.next : Run α κ _) v'.next := by
  obtain ⟨c, last⟩ := v
  obtain ⟨d, last'⟩ := v'
  obtain ⟨h, rfl⟩ := h
  rw [next, next, h.isEnd_eq, h.read_eq]
  refine .ite (fun _ => .pure ⟨rfl, h, rfl⟩) fun _ => .after _ fun x => ?_
  exact .step h fun c' d' _ _ h' => .pure ⟨rfl, h', rfl⟩

/-- The elements are the same, and the walks stand alike behind them. -/
theorem take_agree (h : v.Alike v') (n : Nat) :
    Agree (fun r r' => r.1 = r'.1 ∧ r.2.Alike r'.2) (v.take n : Run α κ _) (v'.take n) := by
  induction n generalizing v v' with
  | zero => exact .pure ⟨rfl, h⟩
  | succ n ih =>
    refine .bind (next_agree h) ?_
    rintro ⟨x, v⟩ ⟨_, v'⟩ ⟨rfl, h⟩
    cases x with
    | none => exact .pure ⟨rfl, h⟩
    | some x =>
      refine .bind (ih h) ?_
      rintro ⟨xs, v⟩ ⟨_, v'⟩ ⟨rfl, h⟩
      exact .pure ⟨rfl, h⟩

theorem takeUntil_agree (stop : α → Bool) (h : v.Alike v') :
    Agree (fun r r' => r.1 = r'.1 ∧ r.2.Alike r'.2) (v.takeUntil stop : Run α κ _)
      (v'.takeUntil stop) := by
  obtain ⟨c, last⟩ := v
  obtain ⟨d, last'⟩ := v'
  obtain ⟨h, rfl⟩ := h
  dsimp only at h
  induction h using Cursor.Alike.step_induction with
  | step c d h ih =>
    rw [takeUntil_eq, takeUntil_eq, h.isEnd_eq, h.read_eq]
    refine .ite (fun _ => .pure ⟨rfl, h, rfl⟩) fun _ => .after _ fun x => ?_
    refine .step h fun c' d' hc hd h' => .ite (fun _ => .pure ⟨rfl, h', rfl⟩) fun _ => ?_
    refine .bind (ih c' d' hc hd h') ?_
    rintro ⟨xs, v⟩ ⟨_, v'⟩ ⟨rfl, h⟩
    exact .pure ⟨rfl, h⟩

theorem collect_agree (h : v.Alike v') : Agree Eq (v.collect : Run α κ _) v'.collect := by
  refine .bind (next_agree h) ?_
  rintro ⟨x, v⟩ ⟨_, v'⟩ ⟨rfl, h⟩
  cases x with
  | none => exact .pure rfl
  | some x =>
    have hs : v.sizeHint = v'.sizeHint := by
      rw [sizeHint, sizeHint, h.last, h.cursor.measure_eq]
    dsimp only
    rw [hs]
    refine .after _ fun hint => .bind (takeUntil_agree _ h) ?_
    rintro ⟨xs, v⟩ ⟨_, v'⟩ ⟨rfl, h⟩
    exact .pure rfl

end Walk

end Walks

/-! ## Streams by their bytes -/

/-- Nothing that passes over two sequences once, or over the first one alone, tells `c` from `c'` and
`d` from `d'`, up to whatever bounds and with whatever callables: the calls and the results are the
same, and the cursors that are left behind are alike. -/
structure PassedAlike (c c' d d' : Cursor α) : Prop where
  findIf : ∀ {κ β : Type} last (pred : Predicate κ β) (proj : Projection κ α β),
    Agree Cursor.Alike (findIf c last pred proj) (findIf c' last pred proj)
  findIfNot : ∀ {κ β : Type} last (pred : Predicate κ β) (proj : Projection κ α β),
    Agree Cursor.Alike (findIfNot c last pred proj) (findIfNot c' last pred proj)
  count : ∀ {κ β : Type} [BEq β] last (value : β) (proj : Projection κ α β),
    Agree (fun r r' => r.1 = r'.1 ∧ r.2.Alike r'.2) (count c last value proj)
      (count c' last value proj)
  equal : ∀ {κ β γ : Type} last₁ last₂ (rel : Relation κ β γ) (proj₁ : Projection κ α β)
    (proj₂ : Projection κ α γ),
    Agree Verdict.Alike (equal c last₁ d last₂ rel proj₁ proj₂)
      (equal c' last₁ d' last₂ rel proj₁ proj₂)
  equalRanges : ∀ {κ β γ : Type} last₁ last₂ e₁ e₂ (rel : Relation κ β γ) (proj₁ : Projection κ α β)
    (proj₂ : Projection κ α γ),
    Agree Verdict.Alike (Range.equal ⟨c, last₁, e₁⟩ ⟨d, last₂, e₂⟩ rel proj₁ proj₂)
      (Range.equal ⟨c', last₁, e₁⟩ ⟨d', last₂, e₂⟩ rel proj₁ proj₂)
  includes : ∀ {κ β : Type} last₁ last₂ (comp : Relation κ β β) (proj₁ proj₂ : Projection κ α β),
    Agree Verdict.Alike (includes c last₁ d last₂ comp proj₁ proj₂)
      (includes c' last₁ d' last₂ comp proj₁ proj₂)
  take : ∀ {κ : Type} last n, Agree (fun r r' => r.1 = r'.1 ∧ r.2.Alike r'.2)
    (Walk.take n ⟨c, last⟩ : Run α κ _) (Walk.take n ⟨c', last⟩)
  takeUntil : ∀ {κ : Type} last stop, Agree (fun r r' => r.1 = r'.1 ∧ r.2.Alike r'.2)
    (Walk.takeUntil stop ⟨c, last⟩ : Run α κ _) (Walk.takeUntil stop ⟨c', last⟩)
  collect : ∀ {κ : Type} last, Agree Eq (Walk.collect ⟨c, last⟩ : Run α κ _) (Walk.collect ⟨c', last⟩)

theorem passedAlike {c c' d d' : Cursor α} (hc : c.Alike c') (hd : d.Alike d') :
    PassedAlike c c' d d' where
  findIf last pred proj := findBy_agree last hc true pred proj
  findIfNot last pred proj := findBy_agree last hc false pred proj
  count last value proj := countFrom_agree last hc 0 value proj
  equal last₁ last₂ rel proj₁ proj₂ := equal_agree last₁ last₂ proj₁ hc hd rel proj₂
  equalRanges last₁ last₂ e₁ e₂ rel proj₁ proj₂ :=
    Range.equal_agree last₁ last₂ proj₁ e₁ e₂ hc hd rel proj₂
  includes last₁ last₂ comp proj₁ proj₂ := includes_agree last₁ last₂ proj₁ hc hd comp proj₂
  take last n := Walk.take_agree (hc.walk last) n
  takeUntil last stop := Walk.takeUntil_agree stop (hc.walk last)
  collect last := Walk.collect_agree (hc.walk last)

open ByteStream Event in
/-- A stream passes over the bytes that its reader comes to, one with each step, and ends where they
end. So it is told by them and by what ends them: streams over readers that agree on both cannot be
told apart by what they show, on their own or within counted cursors, nor by any algorithm that passes
over them. -/
theorem streams_by_bytes :
    (∀ es k s, After es k s → k ≤ (contents es).length ∧ s.position = k ∧
      s.peek = (contents es)[k]? ∧
      s.read = (contents es)[k]?.elim (.error (.readPastStream k)) .ok ∧
      s.exhausted = decide (k = (contents es).length) ∧
      ((∃ t, s.bump = .ok t) ↔ k < (contents es).length)) ∧
    (∀ es es', contents es = contents es' → ending es = ending es' →
      (ofEvents es).Alike (ofEvents es')) ∧
    (∀ s t : ByteStream, s.Alike t → s.position = t.position ∧ s.peek = t.peek ∧
      s.failure = t.failure) ∧
    ∀ c c' d d' : Cursor α, c.Alike c' → d.Alike d' → PassedAlike c c' d d' := by
  refine ⟨fun es k s hs => ?_, fun es es' hc he => ofEvents_alike hc he, fun s t h => ?_,
    fun c c' d d' hc hd => passedAlike hc hd⟩
  · have h := hs.stands
    refine ⟨h.le, h.position, h.peek, h.read, h.exhausted, ?_, fun hk => ?_⟩
    · rintro ⟨t, ht⟩
      exact (h.of_bump ht).1
    · obtain ⟨t, ht, -⟩ := h.bump hk
      exact ⟨t, ht⟩
  · obtain ⟨hp, hb, -, -, hf⟩ := h.shows
    exact ⟨hp, hb, hf⟩

/-- Three bytes in two chunks with interruptions before and behind them, and in two other chunks: the
first two of them are counted, whatever follows the failure that ends both. -/
theorem streams_by_bytes_cut :
    let halt : Event := .failure ⟨.timedOut, "late"⟩
    let again : Event := .failure ⟨.interrupted, ""⟩
    let es := [again, .chunk [104, 105], again, .chunk [33], again, halt, .chunk [7]]
    let es' := [.chunk [104], again, again, .chunk [105, 33], halt]
    let c : Cursor Int := .counted (.stream (.ofEvents es)) 2
    let d : Cursor Int := .counted (.stream (.ofEvents es')) 2
    let same : Projection Nat Int Int := fun x k => (x, k + 1)
    (ByteStream.ofEvents es).peek = some 104 ∧
      (ByteStream.ofEvents es).failure = (ByteStream.ofEvents es').failure ∧
      Agree (fun r r' => r.1 = r'.1 ∧ r.2.Alike r'.2) (count c .countEnd 105 same)
        (count d .countEnd 105 same) := by
  intro halt again es es' c d same
  obtain ⟨hs, ho, hq, hp⟩ := @streams_by_bytes Int _ _
  have ha : (ByteStream.ofEvents es).Alike (.ofEvents es') := ho es es' (by decide) (by decide)
  have hc : c.Alike d := .counted (.stream ha) 2
  exact ⟨(hs es 0 _ .start).2.2.1, (hq _ _ ha).2.2,
    (hp c d c c hc (.same c)).count .countEnd 105 same⟩

end Waymark
