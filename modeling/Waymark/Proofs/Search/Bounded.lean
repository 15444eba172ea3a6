import Waymark.Proofs.Search.Unbounded

/-!
# Probing integers up to a bound

Integers that end at a bound which does not tell how far it is. There may be more of them than can be
counted: from the smallest integer of a width to the largest one it is twice as far as the largest
distance. The probes come to the bound all the same. Their distance is doubled as long as it can be
written and then stays as it is, and a probe that would pass the bound ends there, so that every
position is one between the ends and every count is part of a probe's distance. No search stops at an
overflow, whatever the value: it comes to the value, or to the end that is nearer to it
(`equalRange_bounded`).
-/

namespace Waymark

variable {κ : Type} {v : Width} {start stop value : Int} {comp : Relation κ Int Int}
  {proj : Projection κ Int Int} {w : World Int κ}

/-- However far it is from the start to the bound, the search ends at the value and behind it, or at one
of the ends if the value is not between them. -/
theorem equalRange_bounded (hs : v.Fits start) (he : v.Fits stop) (hle : start ≤ stop)
    (hr : ∀ y, Answers (comp y) fun x => decide (y < x)) (hg : Answers proj id) :
    (equalRange (.forwardOnly (.iota v start)) (.forwardOnly (.cursor (.iota v stop))) value comp
      proj).result w =
      .ok (.forwardOnly (.iota v (max start (min value stop))),
        .forwardOnly (.iota v
          (if value < start then start else if stop ≤ value then stop else value + 1))) := by
  obtain ⟨n, rfl⟩ : ∃ n : Nat, stop = start + n := ⟨(stop - start).toNat, by omega⟩
  have hp : Presents w.store (.forwardOnly (.iota v start))
      (.forwardOnly (.cursor (.iota v (start + n)))) (integers start n) :=
    presents_forwardOnly (presents_iota hs he)
  have h := equalRange_reaches hp (fun hb => nomatch hb)
    (fun _ => Cursor.rereadable_of_keeps rfl _ _ _) hr hg
    (integers_separated start value n)
  rw [countP_integers_lt, countP_integers_le] at h
  have hlower : start + (min (value - start).toNat n : Nat) = max start (min value (start + n)) := by
    omega
  have hupper : start + (min (value + 1 - start).toNat n : Nat) =
      if value < start then start else if start + n ≤ value then start + n else value + 1 := by
    split
    · omega
    · split <;> omega
  rw [h.result, Cursor.hop, Cursor.hop, Cursor.hop, Cursor.hop, hlower, hupper]

/-- Among 227 integers of eight bits, where no more than 127 can be counted: before them, in their middle
and behind them. -/
theorem equalRange_bounded_narrow :
    let less : Relation Nat Int Int := fun a b k => (decide (a < b), k + 1)
    let place : Int → Cursor Int := fun x => .forwardOnly (.iota .w8 x)
    let search : Int → Except Fault (Cursor Int × Cursor Int) := fun value =>
      (equalRange (place (-100)) (.forwardOnly (.cursor (.iota .w8 127))) value less
        .identity).result ⟨[], 0⟩
    search (-128) = .ok (place (-100), place (-100)) ∧ search 100 = .ok (place 100, place 101) ∧
      search 127 = .ok (place 127, place 127) := by
  intro less place search
  have hg : Answers (Projection.identity (κ := Nat)) (id : Int → Int) := fun _ _ => rfl
  have hr (y : Int) : Answers (less y) fun x => decide (y < x) := fun _ _ => rfl
  have hs : Width.w8.Fits (-100) := by decide
  have he : Width.w8.Fits 127 := by decide
  have h (value : Int) : search value = .ok (place (max (-100) (min value 127)),
      place (if value < -100 then -100 else if 127 ≤ value then 127 else value + 1)) :=
    equalRange_bounded hs he (by decide) hr hg
  exact ⟨h (-128), h 100, h 127⟩

end Waymark
