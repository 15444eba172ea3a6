import Waymark.Compare.Includes
import Waymark.Walk
import Waymark.Proofs.Compare.Listed
import Waymark.Proofs.Stream.Bytes

/-!
# Streams with the same bytes

Two readers that come to the same bytes and the same end, cut into other chunks and interrupted at
other places, cannot be told apart through a stream. `ByteStream.Alike` relates the streams over such
readers after equally many steps, `Cursor.Alike` the cursors around them, and `Run.Agree` the runs
that ask the same callables the same things and come to related results.

A step leads from alike cursors to alike ones, or fails on both sides (`Cursor.Alike.step`). All else
that an algorithm asks of a cursor it is answered equally. So every single pass over the one is a pass
over the other, by induction on the steps (`Cursor.Alike.step_induction`).
-/

namespace Waymark

variable {α β γ δ κ ν : Type}

/-! ## Runs that agree -/

/-- Both computations succeed, with values that `R` relates, or both fail for one cause. -/
def Concur (R : β → γ → Prop) (x : Except Fault β) (y : Except Fault γ) : Prop :=
  (∃ b c, x = .ok b ∧ y = .ok c ∧ R b c) ∨ ∃ e, x = .error e ∧ y = .error e

namespace Run

/-- Started in one world, with callables of any kind, the runs leave one world behind, the state of
the callables included, and return what `R` relates or stop at one fault. -/
def Agree (R : β → γ → Prop) (act : Run α κ β) (act' : Run α κ γ) : Prop :=
  ∀ w, (∃ b c w', act w = .ok b w' ∧ act' w = .ok c w' ∧ R b c) ∨
    ∃ e w', act w = .error e w' ∧ act' w = .error e w'

namespace Agree

variable {R : β → γ → Prop} {S : δ → ν → Prop}

theorem pure {b : β} {c : γ} (h : R b c) :
    Agree R (Pure.pure b : Run α κ β) (Pure.pure c : Run α κ γ) :=
  fun w => .inl ⟨b, c, w, rfl, rfl, h⟩

theorem bind {act : Run α κ δ} {act' : Run α κ ν} {f : δ → Run α κ β} {g : ν → Run α κ γ}
    (h : Agree S act act') (hf : ∀ b c, S b c → Agree R (f b) (g c)) :
    Agree R (act >>= f) (act' >>= g) := by
  intro w
  rcases h w with ⟨b, c, w', ha, ha', hb⟩ | ⟨e, w', ha, ha'⟩
  · rw [bind_ok ha, bind_ok ha']
    exact hf b c hb w'
  · rw [bind_error ha, bind_error ha']
    exact .inr ⟨e, w', rfl, rfl⟩

theorem refl (act : Run α κ β) : Agree Eq act act := by
  intro w
  cases ha : act w with
  | ok b w' => exact .inl ⟨b, b, w', rfl, rfl, rfl⟩
  | error e w' => exact .inr ⟨e, w', rfl, rfl⟩

/-- After one action two runs agree if they do for each of its values. -/
theorem after (act : Run α κ δ) {f : δ → Run α κ β} {g : δ → Run α κ γ}
    (h : ∀ b, Agree R (f b) (g b)) : Agree R (act >>= f) (act >>= g) :=
  .bind (.refl act) fun b _ hb => hb ▸ h b

theorem ite {p : Prop} [Decidable p] {act act' : Run α κ β} {other other' : Run α κ γ}
    (ht : p → Agree R act other) (hf : ¬p → Agree R act' other') :
    Agree R (if p then act else act') (if p then other else other') := by
  by_cases h : p
  · rw [if_pos h, if_pos h]
    exact ht h
  · rw [if_neg h, if_neg h]
    exact hf h

end Agree

end Run

/-! ## Streams and the cursors around them -/

namespace ByteStream

variable {s t : ByteStream}

/-- The streams are over readers that come to the same bytes and the same end. As many bytes have
been passed on both, and the same failure is kept. -/
def Alike (s t : ByteStream) : Prop :=
  ∃ es es' k, Event.contents es = Event.contents es' ∧ Event.ending es = Event.ending es' ∧
    After es k s ∧ After es' k t ∧ s.failure = t.failure

theorem ofEvents_alike {es es' : List Event} (hc : Event.contents es = Event.contents es')
    (he : Event.ending es = Event.ending es') : (ofEvents es).Alike (ofEvents es') := by
  refine ⟨es, es', 0, hc, he, .start, .start, ?_⟩
  rw [(ofEvents_stands es).2, (ofEvents_stands es').2, hc, he]

/-- Nothing that is asked of a stream tells the two apart. -/
theorem Alike.shows (h : s.Alike t) :
    s.position = t.position ∧ s.peek = t.peek ∧ s.read = t.read ∧ s.exhausted = t.exhausted ∧
      s.failure = t.failure := by
  obtain ⟨es, es', k, hc, he, hs, ht, hf⟩ := h
  have hs := hs.stands
  have ht := ht.stands
  rw [hc] at hs
  refine ⟨?_, ?_, ?_, ?_, hf⟩
  · rw [hs.position, ht.position]
  · rw [hs.peek, ht.peek]
  · rw [hs.read, ht.read]
  · rw [hs.exhausted, ht.exhausted]

theorem Alike.bump (h : s.Alike t) : Concur Alike s.bump t.bump := by
  obtain ⟨es, es', k, hc, he, hs, ht, hf⟩ := h
  have hss := hs.stands
  have hts := ht.stands
  rw [hc, he] at hss
  rcases Nat.lt_or_eq_of_le hts.le with hk | rfl
  · obtain ⟨s', hsb, -, hsf⟩ := hss.bump hk
    obtain ⟨t', htb, -, htf⟩ := hts.bump hk
    rw [hsb, htb]
    have ha : s'.Alike t' :=
      ⟨es, es', k + 1, hc, he, hs.step hsb, ht.step htb, hsf.trans htf.symm⟩
    exact .inl ⟨s', t', rfl, rfl, ha⟩
  · exact .inr ⟨_, hss.bump_ended, hts.bump_ended⟩

end ByteStream

namespace Cursor

/-- The same cursor, or the same counts around alike streams. -/
inductive Alike : Cursor α → Cursor α → Prop where
  | same (c : Cursor α) : Alike c c
  | stream {s t : ByteStream} (h : s.Alike t) : Alike (.stream s) (.stream t)
  | counted {c d : Cursor α} (h : Alike c d) (r : Nat) : Alike (.counted c r) (.counted d r)

namespace Alike

variable {c d : Cursor α}

/-- A step leads from alike cursors to alike ones, or fails on both sides. -/
theorem step (h : c.Alike d) : Concur Alike c.step d.step := by
  induction h with
  | same c =>
    cases hc : c.step with
    | ok c' => exact .inl ⟨c', c', rfl, rfl, .same c'⟩
    | error e => exact .inr ⟨e, rfl, rfl⟩
  | stream h =>
    rw [Cursor.step, Cursor.step]
    rcases h.bump with ⟨s', t', hs, ht, h'⟩ | ⟨e, hs, ht⟩
    · rw [hs, ht]
      exact .inl ⟨_, _, rfl, rfl, .stream h'⟩
    · rw [hs, ht]
      exact .inr ⟨e, rfl, rfl⟩
  | counted h r ih =>
    rw [Cursor.step, Cursor.step]
    by_cases hr : r = 0
    · rw [if_pos hr, if_pos hr]
      exact .inr ⟨_, rfl, rfl⟩
    · rw [if_neg hr, if_neg hr]
      rcases ih with ⟨c', d', hc, hd, h'⟩ | ⟨e, hc, hd⟩
      · rw [hc, hd]
        exact .inl ⟨_, _, rfl, rfl, .counted h' _⟩
      · rw [hc, hd]
        exact .inr ⟨e, rfl, rfl⟩

theorem width_eq (h : c.Alike d) : c.width = d.width := by
  induction h with
  | same c => rfl
  | stream h => rfl
  | counted h r ih => exact ih

theorem isEnd_eq (h : c.Alike d) (b : Bound α) : b.isEnd c = b.isEnd d := by
  cases h with
  | same c => rfl
  | stream h => cases b with
    | endOfStream => exact h.shows.2.2.2.1
    | cursor e => cases e <;> rfl
    | _ => rfl
  | counted h r => cases b with
    | cursor e => cases e <;> rfl
    | _ => rfl

theorem measure_eq (h : c.Alike d) (b : Bound α) : b.measure c = b.measure d := by
  cases h with
  | same c => rfl
  | stream h => cases b with
    | cursor e => cases e <;> rfl
    | _ => rfl
  | counted h r => cases b with
    | cursor e => cases e <;> rfl
    | _ => rfl

theorem rangeMeasure_eq (h : c.Alike d) (b : Bound α) (e : Extent) :
    (Range.mk c b e).measure = (Range.mk d b e).measure := by
  cases e with
  | ofBound => exact h.measure_eq b
  | _ => rfl

theorem sizeOr_eq (h : c.Alike d) (b : Bound α) (e : Extent) (told : Option Int) :
    (Range.mk c b e).sizeOr told = (Range.mk d b e).sizeOr told := by
  cases told with
  | none => exact h.measure_eq b
  | some n => rfl

/-- What holds of alike cursors if it does one step further on, where steps are possible, holds of
all of them. -/
@[elab_as_elim]
theorem step_induction {P : ∀ c d : Cursor α, c.Alike d → Prop}
    (step : ∀ (c d : Cursor α) (h : c.Alike d),
      (∀ c' d', c.step = .ok c' → d.step = .ok d' → ∀ h' : c'.Alike d', P c' d' h') → P c d h)
    {c d : Cursor α} (h : c.Alike d) : P c d h := by
  induction hn : c.ahead using Nat.strongRecOn generalizing c d with
  | _ n ih =>
    subst hn
    exact step c d h fun c' d' hc _ h' => ih _ (step_ahead hc) h' rfl

end Alike

end Cursor

/-- The answers are the same, and the cursors alike on both sides. -/
structure Verdict.Alike (v v' : Verdict α) : Prop where
  holds : v.holds = v'.holds
  first : v.first.Alike v'.first
  second : v.second.Alike v'.second

/-- The walks have come to alike cursors, on their way to one bound. -/
structure Walk.Alike (v v' : Walk α) : Prop where
  cursor : v.cursor.Alike v'.cursor
  last : v.last = v'.last

theorem Cursor.Alike.walk {c d : Cursor α} (h : c.Alike d) (last : Bound α) :
    Walk.Alike ⟨c, last⟩ ⟨d, last⟩ :=
  ⟨h, rfl⟩

/-- A step on both sides, and alike cursors to go on with. -/
theorem Run.Agree.step {R : β → γ → Prop} {c d : Cursor α} {f : Cursor α → Run α κ β}
    {g : Cursor α → Run α κ γ} (h : c.Alike d)
    (hf : ∀ c' d', c.step = .ok c' → d.step = .ok d' → c'.Alike d' → Agree R (f c') (g d')) :
    Agree R (do f (← c.step)) (do g (← d.step)) := by
  intro w
  rcases h.step with ⟨c', d', hc, hd, h'⟩ | ⟨e, hc, hd⟩
  · rw [hc, hd]
    exact hf c' d' hc hd h' w
  · rw [hc, hd]
    exact .inr ⟨e, w, rfl, rfl⟩

end Waymark
