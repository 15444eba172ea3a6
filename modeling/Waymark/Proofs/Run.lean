import Waymark.World

/-!
# Steps of a run

How a run goes on from one action to the next, from one world to the next. `bind_ok` and `lift_ok`
are what a proof about an algorithm goes through it with, one line of the algorithm at a time.
-/

namespace Waymark

theorem ok_bind {ε β γ : Type} (b : β) (f : β → Except ε γ) : Except.ok b >>= f = f b := rfl

variable {α β γ κ : Type}

theorem callBind_apply (f : StateM κ β) (g : β → StateM κ γ) (k : κ) :
    (f >>= g) k = g (f k).1 (f k).2 := rfl

namespace Run

/-- After an action that returns, the rest goes on with its value in the world it has left. -/
theorem bind_ok {act : Run α κ β} {f : β → Run α κ γ} {w w' : World α κ} {b : β}
    (h : act w = .ok b w') : (act >>= f) w = f b w' := by
  show EStateM.bind act f w = f b w'
  rw [EStateM.bind, h]

/-- After an action that stops at a fault, the rest is not reached. -/
theorem bind_error {act : Run α κ β} {f : β → Run α κ γ} {w w' : World α κ} {e : Fault}
    (h : act w = .error e w') : (act >>= f) w = .error e w' := by
  show EStateM.bind act f w = .error e w'
  rw [EStateM.bind, h]

/-- A run that returns has gone on from what its first action has returned. -/
theorem bind_ok_iff {act : Run α κ β} {f : β → Run α κ γ} {w v : World α κ} {c : γ} :
    (act >>= f) w = .ok c v ↔ ∃ b w', act w = .ok b w' ∧ f b w' = .ok c v := by
  cases h : act w with
  | ok b w' =>
    rw [bind_ok h]
    constructor
    · exact fun hf => ⟨b, w', rfl, hf⟩
    · rintro ⟨_, _, ⟨⟩, hf⟩
      exact hf
  | error e w' =>
    rw [bind_error h]
    simp

/-- A computation that succeeds leaves the world as it is. -/
theorem lift_ok {x : Except Fault β} {b : β} (h : x = .ok b) (w : World α κ) :
    (liftM x : Run α κ β) w = .ok b w := by
  rw [h]
  rfl

theorem ok_bind (b : β) (f : β → Run α κ γ) :
    (liftM (Except.ok b : Except Fault β) : Run α κ β) >>= f = f b := rfl

theorem lift_ok_iff {x : Except Fault β} {b : β} {w v : World α κ} :
    (liftM x : Run α κ β) w = .ok b v ↔ x = .ok b ∧ v = w := by
  cases x with
  | ok c =>
    rw [lift_ok rfl]
    simp [eq_comm]
  | error e =>
    constructor
    · rintro ⟨⟩
    · rintro ⟨⟨⟩, -⟩

/-- A call changes the state of the callables alone. -/
theorem call_apply (f : StateM κ β) (w : World α κ) :
    (liftM f : Run α κ β) w = .ok (f w.calls).1 { w with calls := (f w.calls).2 } := rfl

/-- What the run returns, or the fault it stops at. -/
def result (act : Run α κ β) (w : World α κ) : Except Fault β :=
  match act w with
  | .ok b _ => .ok b
  | .error e _ => .error e

theorem result_eq_ok_iff {act : Run α κ β} {w : World α κ} {b : β} :
    act.result w = .ok b ↔ ∃ w', act w = .ok b w' := by
  unfold result
  cases act w <;> simp

end Run

end Waymark
