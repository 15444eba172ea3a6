import Waymark.Proofs.Alongside
import Waymark.Proofs.Rearrange.Picked

/-!
# How far a pass goes

How many elements a search or a comparison of lists has passed when it answers, told by the outcomes
of the tests it makes: a search passes the elements before the first match (`seek_passed`), a
comparison the leading pairs that are related (`equal_passed`). Looking for the elements of one list
among those of another goes in rounds, each of which takes an element of the first list
(`Listed.rounds`), and what it answers and has passed is told by the rounds (`includes_eq`).
-/

namespace Waymark

variable {α β γ κ : Type}

/-- The number of elements before the first one whose test does not give `b`. -/
def streak (b : Bool) (t : Predicate κ α) (xs : List α) (k : κ) : Nat :=
  ((xs.mapM t k).1.takeWhile fun a => a == b).length

theorem streak_cons (b : Bool) (t : Predicate κ α) (x : α) (xs : List α) (k : κ) :
    streak b t (x :: xs) k = if (t x k).1 == b then 1 + streak b t xs (t x k).2 else 0 := by
  rw [streak, mapM_cons_apply, List.takeWhile_cons]
  split
  · rw [List.length_cons, Nat.add_comm]
    rfl
  · rfl

theorem streak_le (b : Bool) (t : Predicate κ α) (xs : List α) (k : κ) :
    streak b t xs k ≤ xs.length := by
  rw [← length_mapM t xs k]
  exact (List.takeWhile_sublist _).length_le

/-- The test of a pair. The first element is projected first. -/
def Relation.onPairs (rel : Relation κ β γ) (proj₁ : Projection κ α β) (proj₂ : Projection κ α γ) :
    Predicate κ (α × α) := fun z => do
  let a ← proj₁ z.1
  let b ← proj₂ z.2
  rel a b

namespace Listed

/-- A search passes the elements whose test gives the other outcome. -/
theorem seek_passed (wanted : Bool) (t : Predicate κ α) (xs : List α) (k : κ) :
    (seek wanted t xs k).1 = streak (!wanted) t xs k := by
  induction xs generalizing k with
  | nil => rfl
  | cons x xs ih =>
    have hn : ((t x k).1 == !wanted) = !((t x k).1 == wanted) := by
      cases (t x k).1 <;> cases wanted <;> rfl
    rw [seek, callBind_apply, streak_cons, hn, ← ih]
    cases (t x k).1 == wanted <;> rfl

section Equal

variable {proj₁ : Projection κ α β} {rel : Relation κ β γ} {proj₂ : Projection κ α γ}

/-- A comparison passes the leading pairs that are related. -/
theorem equal_passed (xs ys : List α) (k : κ) :
    (equal proj₁ rel proj₂ xs ys k).1.2 = streak true (rel.onPairs proj₁ proj₂) (xs.zip ys) k := by
  induction xs generalizing ys k with
  | nil => cases ys <;> rfl
  | cons x xs ih =>
    cases ys with
    | nil => rfl
    | cons y ys =>
      have ht : rel.onPairs proj₁ proj₂ (x, y) k = (do
          let a ← proj₁ x
          let b ← proj₂ y
          rel a b : StateM κ Bool) k := rfl
      rw [List.zip_cons_cons, streak_cons, ht, equal, ← ih]
      simp only [callBind_apply, beq_true]
      split <;> rfl

/-- Lengths that are told and differ leave everything unpassed. -/
theorem equalMeasured_passed (told : Bool) (xs ys : List α) (k : κ) :
    (equalMeasured told proj₁ rel proj₂ xs ys k).1.2 =
      if told = true ∧ xs.length ≠ ys.length then 0
      else streak true (rel.onPairs proj₁ proj₂) (xs.zip ys) k := by
  rw [equalMeasured, ← equal_passed]
  split <;> rfl

end Equal

/-- What becomes of an element of the first list in a round: an element of the second one is missing
before it, or matched by it, or it is passed over. -/
inductive Round where
  | missing
  | matched
  | skipped
  deriving DecidableEq, Repr

variable (proj₁ : Projection κ α β) (comp : Relation κ β β) (proj₂ : Projection κ α β)

/-- The rounds in which the elements of the second list are looked for. -/
def rounds : List α → List α → StateM κ (List Round)
  | x :: xs, y :: ys => do
    let a ← proj₁ x
    let b ← proj₂ y
    if ← comp b a then return [.missing]
    else if ← comp a b then
      let rs ← rounds xs (y :: ys)
      return .skipped :: rs
    else
      let rs ← rounds xs ys
      return .matched :: rs
  | _, _ => return []

/-- Each round without a miss passes an element of the first list, and each match one of the second
list as well. -/
theorem includes_eq (xs ys : List α) :
    includes proj₁ comp proj₂ xs ys = (do
      let rs ← rounds proj₁ comp proj₂ xs ys
      return (rs.count .matched == ys.length, rs.countP (· != .missing), rs.count .matched)) := by
  induction xs generalizing ys with
  | nil => cases ys <;> rfl
  | cons x xs ih =>
    cases ys with
    | nil => rfl
    | cons y ys =>
      rw [includes, rounds]
      simp only [bind_assoc]
      refine bind_congr fun a => bind_congr fun b => bind_congr fun missing => ?_
      cases missing with
      | true => rfl
      | false =>
        simp only [Bool.false_eq_true, if_false, bind_assoc]
        refine bind_congr fun skipped => ?_
        cases skipped with
        | true =>
          simp only [if_true, ih, bind_assoc, pure_bind]
          exact bind_congr fun rs => by simp [Nat.add_comm]
        | false =>
          simp only [Bool.false_eq_true, if_false, ih, bind_assoc, pure_bind]
          exact bind_congr fun rs => by simp [Nat.add_comm]

end Listed

end Waymark
