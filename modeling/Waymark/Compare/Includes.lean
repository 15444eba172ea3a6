import Waymark.Compare.Equal

/-!
# Inclusion of one sorted sequence in another

Each element of the second sequence is looked for among those of the first, in order. An element of
the first one is passed if it is ordered before the one that is looked for, and used up if it is
equivalent; if it is ordered after, the element is missing.
-/

namespace Waymark

variable {α β κ : Type} [IntCast α] [Inhabited α]

/-- Every element up to `last₂` has an element of its own up to `last₁`. -/
def includes (c : Cursor α) (last₁ : Bound α) (d : Cursor α) (last₂ : Bound α)
    (comp : Relation κ β β) (proj₁ proj₂ : Projection κ α β) : Run α κ (Verdict α) := do
  if last₂.isEnd d then return ⟨true, c, d⟩
  else if last₁.isEnd c then return ⟨false, c, d⟩
  else
    let y ← c.project proj₁
    let z ← d.project proj₂
    if ← comp z y then return ⟨false, c, d⟩
    else
      let skipped ← comp y z
      let d' ← (if skipped then .ok d else d.step : Except Fault (Cursor α))
      match _h : c.step with
      | .error e => throw e
      | .ok c' => includes c' last₁ d' last₂ comp proj₁ proj₂
termination_by c.ahead
decreasing_by exact Cursor.step_ahead _h

def Range.includes (r s : Range α) (comp : Relation κ β β) (proj₁ proj₂ : Projection κ α β) :
    Run α κ (Verdict α) :=
  Waymark.includes r.first r.last s.first s.last comp proj₁ proj₂

/-- A list has all elements of a range. -/
def includesList (xs : List α) (s : Range α) (comp : Relation κ β β)
    (proj₁ proj₂ : Projection κ α β) : Run α κ (Verdict α) :=
  (Range.ofList xs).includes s comp proj₁ proj₂

end Waymark
