import Waymark.Proofs.Cursor.Reading

/-!
# Where an action reads

`Confined P Q act` says that an action is put together from computations that succeed, calls, and
reads at cursors that satisfy `P`, and that it returns a value that satisfies `Q`, whatever it reads
and whatever the callables answer. Nothing is assumed of the elements or of the callables, so that
what is proved of an action this way holds on every store.

* `Confined.bind`: one confined action after the other is confined;
* `Confined.returns`: a confined action does not fault on a store in which all its cursors have
  elements. Reading may move elements out, but it leaves every slot with an element
  (`isSome_look_drain`).
-/

namespace Waymark

variable {α β γ δ κ : Type}

/-! ## The positions ahead of a cursor -/

namespace Cursor

/-- `d` is one of the `n` positions from `c` on. -/
def Before (c : Cursor α) (n : Nat) (d : Cursor α) : Prop := ∃ i < n, c.stepTimes i = .ok d

/-- `d` is one of the `n` positions from `c` on, or where they end. -/
def UpTo (c : Cursor α) (n : Nat) (d : Cursor α) : Prop := ∃ i ≤ n, c.stepTimes i = .ok d

/-- The two cursors bound a part of the `n` positions from `c` on, which may be empty. -/
def Spans (c : Cursor α) (n : Nat) (r : Cursor α × Cursor α) : Prop :=
  ∃ i j, i ≤ j ∧ j ≤ n ∧ c.stepTimes i = .ok r.1 ∧ c.stepTimes j = .ok r.2

variable {c d : Cursor α} {m n k : Nat}

theorem Before.mono (h : c.Before m d) (hmn : m ≤ n) : c.Before n d := by
  obtain ⟨i, hi, hd⟩ := h
  exact ⟨i, by omega, hd⟩

theorem UpTo.mono (h : c.UpTo m d) (hmn : m ≤ n) : c.UpTo n d := by
  obtain ⟨i, hi, hd⟩ := h
  exact ⟨i, by omega, hd⟩

theorem Spans.mono {r : Cursor α × Cursor α} (h : c.Spans m r) (hmn : m ≤ n) : c.Spans n r := by
  obtain ⟨i, j, hij, hj, hd⟩ := h
  exact ⟨i, j, hij, by omega, hd⟩

/-- The positions from a position on are positions from here on. -/
theorem Before.of_hop (hm : c.stepTimes m = .ok (c.hop m)) (h : (c.hop m).Before k d)
    (hn : m + k ≤ n) : c.Before n d := by
  obtain ⟨i, hi, hd⟩ := h
  exact ⟨m + i, by omega, (stepTimes_add hm).trans hd⟩

theorem UpTo.of_hop (hm : c.stepTimes m = .ok (c.hop m)) (h : (c.hop m).UpTo k d)
    (hn : m + k ≤ n) : c.UpTo n d := by
  obtain ⟨i, hi, hd⟩ := h
  exact ⟨m + i, by omega, (stepTimes_add hm).trans hd⟩

theorem Spans.of_hop (hm : c.stepTimes m = .ok (c.hop m)) {r : Cursor α × Cursor α}
    (h : (c.hop m).Spans k r) (hn : m + k ≤ n) : c.Spans n r := by
  obtain ⟨i, j, hij, hj, hd, he⟩ := h
  exact ⟨m + i, m + j, by omega, by omega, (stepTimes_add hm).trans hd, (stepTimes_add hm).trans he⟩

/-- What is met before a position and what is met from it on bound a part. -/
theorem UpTo.spans {e : Cursor α} (hm : c.stepTimes m = .ok (c.hop m)) (hd : c.UpTo m d)
    (he : (c.hop m).UpTo k e) (hn : m + k ≤ n) : c.Spans n (d, e) := by
  obtain ⟨i, hi, hd⟩ := hd
  obtain ⟨j, hj, he⟩ := he
  exact ⟨i, m + j, by omega, by omega, hd, (stepTimes_add hm).trans he⟩

/-- Reading leaves an element in every slot that had one. -/
theorem isSome_look_drain [IntCast α] [Inhabited α] {s : Store α} (h : (d.look s).isSome)
    (c : Cursor α) : (d.look (c.drain s)).isSome := by
  unfold drain
  split
  · exact h
  · rcases hd : d.slot? with _ | ⟨q, j⟩
    · rwa [look_of_slot?_eq_none hd _ s]
    · rcases hc : c.slot? with _ | ⟨p, i⟩
      · rwa [clear_of_slot?_eq_none hc]
      · rw [look_of_slot? hd] at h ⊢
        rw [clear_of_slot? hc, List.getElem?_modify]
        rcases hs : s[q]? with _ | ys
        · simp [hs] at h
        · simp only [hs, Option.bind_some] at h
          by_cases hpq : p = q <;> simp_all

theorem exists_look_drain [IntCast α] [Inhabited α] {s : Store α} {x : α} (h : d.look s = some x)
    (c : Cursor α) : ∃ y, d.look (c.drain s) = some y :=
  Option.isSome_iff_exists.1 (isSome_look_drain (Option.isSome_of_eq_some h) c)

end Cursor

/-! ## Confined actions -/

namespace Run

variable [IntCast α] [Inhabited α]

/-- The action reads cursors that satisfy `P` only, does nothing else to the store, and returns a
value that satisfies `Q`. -/
inductive Confined (P : Cursor α → Prop) (Q : γ → Prop) : Run α κ γ → Prop where
  | pure {b : γ} (h : Q b) : Confined P Q (Pure.pure b)
  | lift {δ : Type} {x : Except Fault δ} {b : δ} {f : δ → Run α κ γ} (hx : x = .ok b)
      (h : Confined P Q (f b)) : Confined P Q (liftM x >>= f)
  | call {δ : Type} {g : StateM κ δ} {f : δ → Run α κ γ} (h : ∀ b, Confined P Q (f b)) :
      Confined P Q (liftM g >>= f)
  | read {c : Cursor α} {f : α → Run α κ γ} (hc : P c) (h : ∀ x, Confined P Q (f x)) :
      Confined P Q (c.read >>= f)

namespace Confined

variable {P P' : Cursor α → Prop} {Q Q' : γ → Prop} {act : Run α κ γ}

/-- More cursors may be allowed to be read, and less asked of the value. -/
theorem mono (h : act.Confined P Q) (hP : ∀ c, P c → P' c) (hQ : ∀ b, Q b → Q' b) :
    act.Confined P' Q' := by
  induction h with
  | pure h => exact .pure (hQ _ h)
  | lift hx _ ih => exact .lift hx ih
  | call _ ih => exact .call ih
  | read hc _ ih => exact .read (hP _ hc) ih

/-- What goes on from any value that the first action may return is confined with it. -/
theorem bind {R : δ → Prop} {act : Run α κ δ} {f : δ → Run α κ γ} (h : act.Confined P R)
    (hf : ∀ b, R b → (f b).Confined P Q) : (act >>= f).Confined P Q := by
  induction h with
  | pure h =>
    rw [pure_bind]
    exact hf _ h
  | lift hx _ ih =>
    rw [bind_assoc]
    exact .lift hx ih
  | call _ ih =>
    rw [bind_assoc]
    exact .call ih
  | read hc _ ih =>
    rw [bind_assoc]
    exact .read hc ih

theorem project {c : Cursor α} {proj : Projection κ α δ} {f : δ → Run α κ γ} (hc : P c)
    (h : ∀ y, (f y).Confined P Q) : (c.project proj >>= f).Confined P Q := by
  rw [Cursor.project, bind_assoc]
  exact .read hc fun _ => .call h

theorem test {c : Cursor α} {pred : Predicate κ δ} {proj : Projection κ α δ}
    {f : Bool → Run α κ γ} (hc : P c) (h : ∀ b, (f b).Confined P Q) :
    (c.test pred proj >>= f).Confined P Q := by
  rw [Cursor.test, bind_assoc]
  exact .project hc fun _ => .call h

theorem ite {b : Bool} {act' : Run α κ γ} (ht : b = true → act.Confined P Q)
    (hf : b = false → act'.Confined P Q) : (if b = true then act else act').Confined P Q := by
  cases b with
  | true => exact ht rfl
  | false => exact hf rfl

/-- A confined action returns, if there is something to read wherever it may read. -/
theorem returns (h : act.Confined P Q) {w : World α κ}
    (hw : ∀ c, P c → (c.look w.store).isSome) : ∃ b w', act w = .ok b w' ∧ Q b := by
  induction h generalizing w with
  | pure h => exact ⟨_, w, rfl, h⟩
  | lift hx _ ih =>
    obtain ⟨b, w', ha, hb⟩ := ih hw
    exact ⟨b, w', (bind_ok (lift_ok hx w)).trans ha, hb⟩
  | @call _ g f _ ih =>
    obtain ⟨b, w', ha, hb⟩ := ih (g w.calls).1 (w := ⟨w.store, (g w.calls).2⟩) hw
    exact ⟨b, w', (bind_ok (call_apply g w)).trans ha, hb⟩
  | @read c f hc _ ih =>
    obtain ⟨x, hx⟩ := Option.isSome_iff_exists.1 (hw c hc)
    have hw' (d : Cursor α) (hd : P d) : (d.look (c.drain w.store)).isSome :=
      Cursor.isSome_look_drain (hw d hd) c
    obtain ⟨b, w', ha, hb⟩ := ih x (w := ⟨c.drain w.store, w.calls⟩) hw'
    exact ⟨b, w', (bind_ok (Cursor.read_eq hx)).trans ha, hb⟩

end Confined

end Run

end Waymark
