import Waymark.Proofs.Search.Listed

/-!
# What a run spends

Callables that are counted: beside whatever state they keep, the numbers of their calls are kept, and
go up by one with each call (`counting`). Nothing else about them changes, so that what is said of the
counted ones is said of all callables.

What an algorithm on lists costs (`Costs`) and what a run spends (`Run.Spends`) is then read off the
state that is left. A run that does what an algorithm on lists does spends what that one costs
(`Run.Follows.spends`), and a run is gone through one line at a time as it is for its answer
(`Run.Spends.lift`, `Run.Spends.call`, `Run.Spends.project`).
-/

namespace Waymark

variable {α β γ δ κ ν : Type}

/-- Numbers of calls: of the relation or predicate, of the projection and of the second projection. -/
structure Calls where
  tests : Nat
  projections : Nat
  secondProjections : Nat
  deriving DecidableEq, Repr

namespace Calls

/-- The calls of both. -/
protected def add (m n : Calls) : Calls :=
  ⟨m.tests + n.tests, m.projections + n.projections, m.secondProjections + n.secondProjections⟩

instance : Add Calls := ⟨Calls.add⟩

/-- No call. -/
@[simp] def none : Calls := ⟨0, 0, 0⟩

/-- One call of the relation or predicate. -/
@[simp] def test : Calls := ⟨1, 0, 0⟩

@[simp] def projection : Calls := ⟨0, 1, 0⟩

@[simp] def secondProjection : Calls := ⟨0, 0, 1⟩

/-- One element is projected and tested. -/
@[simp] def look : Calls := ⟨1, 1, 0⟩

variable (m n : Calls)

@[simp] theorem tests_add : (m + n).tests = m.tests + n.tests := rfl

@[simp] theorem projections_add : (m + n).projections = m.projections + n.projections := rfl

@[simp] theorem secondProjections_add :
    (m + n).secondProjections = m.secondProjections + n.secondProjections := rfl

theorem add_assoc (l m n : Calls) : l + m + n = l + (m + n) := by
  show Calls.mk _ _ _ = Calls.mk _ _ _
  simp only [tests_add, projections_add, secondProjections_add, Nat.add_assoc]

end Calls

/-! ## Counted callables -/

/-- The call, which also adds `e` to what has been counted. -/
def counting (e : Calls) (f : StateM κ β) : StateM (κ × Calls) β :=
  fun k => ((f k.1).1, (f k.1).2, k.2 + e)

def Projection.counted (proj : Projection κ α β) : Projection (κ × Calls) α β :=
  fun x => counting .projection (proj x)

/-- The projection, counted as the second one. -/
def Projection.countedSecond (proj : Projection κ α β) : Projection (κ × Calls) α β :=
  fun x => counting .secondProjection (proj x)

def Predicate.counted (pred : Predicate κ β) : Predicate (κ × Calls) β :=
  fun y => counting .test (pred y)

def Relation.counted (rel : Relation κ β γ) : Relation (κ × Calls) β γ :=
  fun y z => counting .test (rel y z)

/-! ## On lists -/

/-- Whatever state the callables are in, `f` makes a number of calls that `B` admits. -/
def Costs (f : StateM (κ × Calls) ν) (B : Calls → Prop) : Prop :=
  ∀ k, ∃ n, (f k).2.2 = k.2 + n ∧ B n

namespace Costs

variable {f : StateM (κ × Calls) δ} {g : δ → StateM (κ × Calls) ν} {B C : Calls → Prop}

theorem pure {b : ν} (h : B .none) : Costs (Pure.pure b : StateM (κ × Calls) ν) B :=
  fun _ => ⟨.none, rfl, h⟩

theorem mono (h : Costs f B) (hB : ∀ n, B n → C n) : Costs f C := by
  intro k
  obtain ⟨n, hk, hn⟩ := h k
  exact ⟨n, hk, hB n hn⟩

theorem bind (h : Costs f B) (hg : ∀ b m, B m → Costs (g b) fun n => C (m + n)) :
    Costs (f >>= g) C := by
  intro k
  obtain ⟨m, hk, hm⟩ := h k
  obtain ⟨n, hk', hn⟩ := hg (f k).1 m hm (f k).2
  refine ⟨m + n, ?_, hn⟩
  rw [callBind_apply, hk', hk, Calls.add_assoc]

/-- What goes on from an answer that is known costs what it costs there. -/
theorem bind_answers {b : δ} (h : Costs f B) (hf : ∀ k, (f k).1 = b)
    (hg : ∀ m, B m → Costs (g b) fun n => C (m + n)) : Costs (f >>= g) C := by
  intro k
  obtain ⟨m, hk, hm⟩ := h k
  obtain ⟨n, hk', hn⟩ := hg m hm (f k).2
  refine ⟨m + n, ?_, hn⟩
  rw [callBind_apply, hf, hk', hk, Calls.add_assoc]

/-- A counted call costs what is counted for it. -/
theorem call {e : Calls} {f : StateM κ δ} (hg : ∀ b, Costs (g b) fun n => C (e + n)) :
    Costs (counting e f >>= g) C :=
  bind (B := (· = e)) (fun _ => ⟨e, rfl, rfl⟩) fun b _ hm => hm ▸ hg b

theorem ite {p : Prop} [Decidable p] {f' : StateM (κ × Calls) δ} (hf : Costs f B)
    (hf' : Costs f' B) : Costs (if p then f else f') B := by
  split
  · exact hf
  · exact hf'

end Costs

/-- To project and test an element costs two calls. -/
theorem costs_on (pred : Predicate κ β) (proj : Projection κ α β) (x : α) :
    Costs (pred.counted.on proj.counted x) (· = .look) :=
  fun _ => ⟨.look, rfl, rfl⟩

/-! ## On cursors -/

namespace Run

/-- The run returns, and makes a number of calls that `B` admits. -/
def Spends (act : Run α (κ × Calls) γ) (w : World α (κ × Calls)) (B : Calls → Prop) : Prop :=
  ∃ b w' n, act w = .ok b w' ∧ w'.calls.2 = w.calls.2 + n ∧ B n

namespace Spends

variable {act : Run α (κ × Calls) γ} {w : World α (κ × Calls)} {B C : Calls → Prop}

theorem pure {b : γ} (h : B .none) : (Pure.pure b : Run α (κ × Calls) γ).Spends w B :=
  ⟨b, w, .none, rfl, rfl, h⟩

theorem mono (h : act.Spends w B) (hB : ∀ n, B n → C n) : act.Spends w C := by
  obtain ⟨b, w', n, ha, hk, hn⟩ := h
  exact ⟨b, w', n, ha, hk, hB n hn⟩

theorem lift {x : Except Fault δ} {b : δ} {act : δ → Run α (κ × Calls) γ} (hx : x = .ok b)
    (h : (act b).Spends w B) : (liftM x >>= act).Spends w B := by
  obtain ⟨c, w', n, ha, hk, hn⟩ := h
  exact ⟨c, w', n, (bind_ok (lift_ok hx w)).trans ha, hk, hn⟩

/-- After a counted call the rest may spend what is left of the calls. -/
theorem call {e : Calls} {f : StateM κ δ} {act : δ → Run α (κ × Calls) γ}
    (h : (act (f w.calls.1).1).Spends ⟨w.store, (f w.calls.1).2, w.calls.2 + e⟩
      fun n => B (e + n)) :
    (liftM (counting e f) >>= act).Spends w B := by
  obtain ⟨c, w', n, ha, hk, hn⟩ := h
  exact ⟨c, w', e + n, (bind_ok (call_apply _ w)).trans ha, hk.trans (Calls.add_assoc _ e n), hn⟩

end Spends

section Access

variable [IntCast α] {act : Run α (κ × Calls) δ} {c : Cursor α} {m : Nat}
  {w : World α (κ × Calls)} {f : StateM (κ × Calls) ν} {place : ν → δ} {B C : Calls → Prop}

/-- A run that does what `f` does on a list spends what `f` costs. -/
theorem Follows.spends (h : act.Follows f place c m w) (hf : Costs f B) : act.Spends w B := by
  obtain ⟨s, ha, -⟩ := h
  obtain ⟨n, hk, hn⟩ := hf w.calls
  exact ⟨_, _, n, ha, hk, hn⟩

/-- What goes on from there finds the elements that have been spared, and spends what is left. -/
theorem Follows.bind_spends {next : δ → Run α (κ × Calls) γ} (h : act.Follows f place c m w)
    (hf : Costs f C) (hn : ∀ b s k e, c.Spares m w.store s → C e →
      (next b).Spends ⟨s, k, w.calls.2 + e⟩ fun n => B (e + n)) : (act >>= next).Spends w B := by
  obtain ⟨s, ha, hs⟩ := h
  obtain ⟨e, hk, he⟩ := hf w.calls
  obtain ⟨b, w', n, hb, hk', hn⟩ := hn (place (f w.calls).1) s (f w.calls).2.1 e hs he
  rw [← hk] at hb
  exact ⟨b, w', e + n, (bind_ok ha).trans hb, hk'.trans (Calls.add_assoc _ e n), hn⟩

/-- An element is read and projected by a counted call. -/
theorem Spends.project [Inhabited α] {e : Calls} {proj : Projection κ α δ}
    {next : δ → Run α (κ × Calls) γ} {x : α} (hx : c.look w.store = some x)
    (h : (next (proj x w.calls.1).1).Spends
      ⟨c.drain w.store, (proj x w.calls.1).2, w.calls.2 + e⟩ fun n => B (e + n)) :
    (c.project (fun x => counting e (proj x)) >>= next).Spends w B := by
  obtain ⟨b, w', n, ha, hk, hn⟩ := h
  exact ⟨b, w', e + n, (bind_ok (Cursor.project_eq hx _)).trans ha,
    hk.trans (Calls.add_assoc _ e n), hn⟩

end Access

end Run

end Waymark
