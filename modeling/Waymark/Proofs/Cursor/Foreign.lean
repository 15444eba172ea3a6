import Waymark.Passage
import Waymark.Cursor.Access
import Waymark.Proofs.Cursor.Displaced
import Waymark.Proofs.Run

/-!
# Cursors of different slices

Two cursors of different slices, under as many moving cursors, refuse to be compared, subtracted or
exchanged (`Refuses`). As a bound, though, a cursor never asks which slice the other one is in: it
answers by the positions alone, as a bound in that one's own slice would (`AnswersAs`), and so does
everything that goes to a bound. This is what `foreign_slices` says of any two positions.
-/

namespace Waymark

variable {α κ : Type}

namespace Cursor

/-- The cursor under so many moving ones. -/
def under : Nat → Cursor α → Cursor α
  | 0, c => c
  | k + 1, c => moving (under k c)

theorem displaced_under {n : Int} {c d : Cursor α} (h : Displaced n c d) (k : Nat) :
    Displaced n (c.under k) (d.under k) := by
  induction k with
  | zero => exact h
  | succ k ih => exact .moving ih

theorem width_under (k : Nat) (c : Cursor α) : (c.under k).width = c.width := by
  induction k with
  | zero => rfl
  | succ k ih => exact ih

theorem can_selfBound_under (k : Nat) (c : Cursor α) :
    (c.under k).can .selfBound = c.can .selfBound := by
  induction k with
  | zero => rfl
  | succ k ih => exact ih

/-- What two cursors are refused that are in different slices. -/
structure Refuses (c d : Cursor α) : Prop where
  same : c.same d = .error .differentSlices
  order : c.order d = .error .differentSlices
  offsetFrom : c.offsetFrom d = .error .differentSlices
  swap {κ : Type} (w : World α κ) : c.swap d w = .error .differentSlices w

theorem refuses_under {s t : Source α} (h : s.same t = false) (p q k : Nat) :
    Refuses ((slice s p).under k) ((slice t q).under k) := by
  induction k with
  | zero =>
    have hn : ¬s.same t = true := by simp [h]
    exact {
      same := if_neg hn
      order := if_neg hn
      offsetFrom := if_neg hn
      swap := fun w => congrFun (if_neg hn) w }
  | succ k ih => exact ⟨ih.same, ih.order, ih.offsetFrom, ih.swap⟩

end Cursor

namespace Bound

/-- Asked from `c`, the bound `a` gives the answers of the bound `b`. -/
structure AnswersAs (a b : Bound α) (c : Cursor α) : Prop where
  isEnd : a.isEnd c = b.isEnd c
  measure : a.measure c = b.measure c
  distance : a.distance c = b.distance c
  advance (n : Int) : a.advance c n = b.advance c n
  reach : a.reach c = b.reach c

/-- Where the distance is told, going to the bound asks for nothing else. -/
theorem AnswersAs.of_measure {a b : Bound α} {c : Cursor α} {n : Int} (he : a.isEnd c = b.isEnd c)
    (hb : b.measure c = .ok (some n)) (hm : a.measure c = b.measure c) : a.AnswersAs b c where
  isEnd := he
  measure := hm
  distance := by
    rw [Bound.distance, Bound.distance, hm, hb]
    rfl
  advance m := by
    rw [Bound.advance, Bound.advance, hm, hb]
    rfl
  reach := by
    rw [Bound.reach, Bound.reach, hm, hb]
    rfl

/-- The slice that a bound is in makes no difference. -/
theorem isEnd_under (s t : Source α) (q k : Nat) (c : Cursor α) :
    (cursor ((Cursor.slice t q).under k)).isEnd c =
      (cursor ((Cursor.slice s q).under k)).isEnd c := by
  induction k generalizing c with
  | zero => cases c <;> rfl
  | succ k ih => cases c with
    | moving c => exact ih c
    | _ => rfl

theorem measure_under (s t : Source α) (q k : Nat) (c : Cursor α) :
    (cursor ((Cursor.slice t q).under k)).measure c =
      (cursor ((Cursor.slice s q).under k)).measure c := by
  induction k generalizing c with
  | zero => cases c <;> rfl
  | succ k ih => cases c with
    | moving c => exact ih c
    | _ => rfl

end Bound

open Cursor in
/-- Cursors of different slices refuse to be compared, but bound each other as if they were in one
slice, and are told a distance whatever it may mean. -/
theorem foreign_slices {s t : Source α} (h : s.same t = false) {p q : Nat}
    (hp : (slice s p).Valid) (hq : (slice t q).Valid) (k : Nat) :
    Refuses ((slice s p).under k) ((slice t q).under k) ∧
      (Bound.cursor ((slice t q).under k)).AnswersAs (.cursor ((slice s q).under k))
        ((slice s p).under k) ∧
      (Bound.cursor ((slice t q).under k)).isEnd ((slice s p).under k) = decide (q = p) ∧
      (Bound.cursor ((slice t q).under k)).measure ((slice s p).under k) =
        .ok (some ((q : Int) - p)) := by
  have hd : Displaced ((q : Int) - p) (slice s p) (slice s q) := .slice (by omega)
  have hk : ((slice s p).under k).can .selfBound = true := can_selfBound_under k _
  have hs : Width.w64.sub ((q : Int) - p) 0 = .ok ((q : Int) - p) :=
    Width.sub_zero_eq_ok (Width.fits_sub_natCast hq.2 hp.2)
  have hown : (Bound.cursor ((slice s q).under k)).measure ((slice s p).under k) =
      .ok (some ((q : Int) - p)) := by
    rw [(displaced_under hd k).measure hk, width_under, width, hs]
    rfl
  have hend := (displaced_under hd k).isEnd hk
  have he := Bound.isEnd_under s t q k ((slice s p).under k)
  have hm := Bound.measure_under s t q k ((slice s p).under k)
  refine ⟨refuses_under h p q k, .of_measure he hown hm, ?_, hm.trans hown⟩
  rw [he, hend]
  exact decide_eq_decide.2 (by omega)

/-- From the start of three elements to the end of one that is elsewhere. -/
theorem foreign_slices_apart :
    let c : Cursor Int := .slice (.shared 0 [1, 2, 3]) 0
    let d : Cursor Int := .slice (.shared 1 [7]) 1
    c.same d = .error .differentSlices ∧ (Bound.cursor d).measure c = .ok (some 1) := by
  have h := foreign_slices (s := .shared 0 [(1 : Int), 2, 3]) (t := .shared 1 [7]) (p := 0) (q := 1)
    rfl ⟨by decide, by decide⟩ ⟨by decide, by decide⟩ 0
  exact ⟨h.1.same, h.2.2.2⟩

end Waymark
