import Waymark.Callable.Basic
import Waymark.Cursor.Travel
import Waymark.Range

/-!
# Equality of two sequences

Two sequences are equal under a relation if they are equally long and the relation holds for the
elements at the same place. If both lengths are known they are compared first, and then only the
first sequence is asked whether it has ended.
-/

namespace Waymark

variable {α β γ κ : Type} [IntCast α] [Inhabited α]

/-- An answer about two sequences, with the cursors where it was found. -/
structure Verdict (α : Type) where
  holds : Bool
  first : Cursor α
  second : Cursor α

/-- The relation holds between the elements at the two cursors. The first one is projected first. -/
def related (c d : Cursor α) (rel : Relation κ β γ) (proj₁ : Projection κ α β)
    (proj₂ : Projection κ α γ) : Run α κ Bool := do
  let y ← c.project proj₁
  let z ← d.project proj₂
  rel y z

/-- Compares as many elements as the first sequence has. -/
def equalByFirst (c : Cursor α) (last : Bound α) (d : Cursor α) (rel : Relation κ β γ)
    (proj₁ : Projection κ α β) (proj₂ : Projection κ α γ) : Run α κ (Verdict α) := do
  if last.isEnd c then return ⟨true, c, d⟩
  else if ← related c d rel proj₁ proj₂ then
    match _h : c.step with
    | .error e => throw e
    | .ok c' => equalByFirst c' last (← d.step) rel proj₁ proj₂
  else return ⟨false, c, d⟩
termination_by c.ahead
decreasing_by exact Cursor.step_ahead _h

/-- Compares elements until one of the sequences ends. -/
def equalByBoth (c : Cursor α) (last₁ : Bound α) (d : Cursor α) (last₂ : Bound α)
    (rel : Relation κ β γ) (proj₁ : Projection κ α β) (proj₂ : Projection κ α γ) :
    Run α κ (Verdict α) := do
  match last₁.isEnd c, last₂.isEnd d with
  | true, true => return ⟨true, c, d⟩
  | false, false =>
    if ← related c d rel proj₁ proj₂ then
      match _h : c.step with
      | .error e => throw e
      | .ok c' => equalByBoth c' last₁ (← d.step) last₂ rel proj₁ proj₂
    else return ⟨false, c, d⟩
  | _, _ => return ⟨false, c, d⟩
termination_by c.ahead
decreasing_by exact Cursor.step_ahead _h

/-- Compares two sequences of which the lengths may be known. -/
def equalMeasured (c : Cursor α) (last₁ : Bound α) (size₁ : Option Int) (d : Cursor α)
    (last₂ : Bound α) (size₂ : Option Int) (rel : Relation κ β γ) (proj₁ : Projection κ α β)
    (proj₂ : Projection κ α γ) : Run α κ (Verdict α) :=
  match size₁, size₂ with
  | some m, some n =>
    if m = n then equalByFirst c last₁ d rel proj₁ proj₂ else return ⟨false, c, d⟩
  | _, _ => equalByBoth c last₁ d last₂ rel proj₁ proj₂

/-- Compares the elements up to two bounds. -/
def equal (c : Cursor α) (last₁ : Bound α) (d : Cursor α) (last₂ : Bound α)
    (rel : Relation κ β γ) (proj₁ : Projection κ α β) (proj₂ : Projection κ α γ) :
    Run α κ (Verdict α) := do
  let size₁ ← last₁.measure c
  let size₂ ← last₂.measure d
  equalMeasured c last₁ size₁ d last₂ size₂ rel proj₁ proj₂

/-- The length that a range has told, or else what its bound tells. -/
def Range.sizeOr (r : Range α) : Option Int → Except Fault (Option Int)
  | some n => .ok (some n)
  | none => r.last.measure r.first

/-- Compares two ranges. A length that a range does not tell is asked of its bound. -/
def Range.equal (r s : Range α) (rel : Relation κ β γ) (proj₁ : Projection κ α β)
    (proj₂ : Projection κ α γ) : Run α κ (Verdict α) := do
  let told₁ ← r.measure
  let told₂ ← s.measure
  let size₁ ← r.sizeOr told₁
  let size₂ ← s.sizeOr told₂
  equalMeasured r.first r.last size₁ s.first s.last size₂ rel proj₁ proj₂

/-- Compares a list with a range. -/
def equalList (xs : List α) (s : Range α) (rel : Relation κ β γ) (proj₁ : Projection κ α β)
    (proj₂ : Projection κ α γ) : Run α κ (Verdict α) :=
  let r := Range.ofList xs
  (Range.of r.first r.last).equal s rel proj₁ proj₂

end Waymark
