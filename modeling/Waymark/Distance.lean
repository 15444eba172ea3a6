import Waymark.Fault

/-!
# Distances

A distance counts steps and is a signed integer of a fixed width. Sums and differences that leave
the width are faults (`Width.add_eq_ok_iff`, `Width.sub_eq_ok_iff`); doubling stops at the largest
distance instead. Lengths and slots are counted in an index of 64 bits without a sign.
-/

namespace Waymark

/-- The widths in which distances are counted. -/
inductive Width where
  | w8
  | w16
  | w32
  | w64
  | w128
  deriving DecidableEq, Repr

namespace Width

/-- The number of bits, the sign included. -/
def bits : Width → Nat
  | w8 => 8
  | w16 => 16
  | w32 => 32
  | w64 => 64
  | w128 => 128

/-- The largest distance. -/
def max (w : Width) : Int := Int.pow 2 (w.bits - 1) - 1

/-- The smallest distance. -/
def min (w : Width) : Int := -Int.pow 2 (w.bits - 1)

/-- The distance can be written in the width. -/
def Fits (w : Width) (x : Int) : Prop := w.min ≤ x ∧ x ≤ w.max

instance (w : Width) (x : Int) : Decidable (w.Fits x) :=
  inferInstanceAs (Decidable (_ ∧ _))

theorem le_max (w : Width) : 127 ≤ w.max := by cases w <;> decide

theorem min_eq (w : Width) : w.min = -w.max - 1 := by cases w <;> decide

theorem fits_one (w : Width) : w.Fits 1 := by cases w <;> decide

/-- Fewer steps can be written where more can. -/
theorem Fits.of_le {w : Width} {m n : Nat} (h : w.Fits n) (hmn : m ≤ n) : w.Fits m := by
  have := w.min_eq
  have := w.le_max
  unfold Fits at *
  omega

/-- A number of steps that is not larger than the largest distance is a distance. -/
theorem fits_natCast {w : Width} {n : Nat} (h : (n : Int) ≤ w.max) : w.Fits n := by
  have := w.min_eq
  have := w.le_max
  exact ⟨by omega, h⟩

/-- So is the difference of two of them. -/
theorem fits_sub_natCast {w : Width} {m n : Nat} (hm : (m : Int) ≤ w.max) (hn : (n : Int) ≤ w.max) :
    w.Fits (m - n) := by
  have := w.min_eq
  exact ⟨by omega, by omega⟩

/-- The sum, if it fits. -/
def add (w : Width) (a b : Int) : Except Fault Int :=
  if w.Fits (a + b) then .ok (a + b) else .error .addOverflow

/-- The difference, if it fits. -/
def sub (w : Width) (a b : Int) : Except Fault Int :=
  if w.Fits (a - b) then .ok (a - b) else .error .subOverflow

theorem add_eq_ok_iff {w : Width} {a b c : Int} :
    w.add a b = .ok c ↔ w.Fits c ∧ c = a + b := by
  unfold add
  split <;> simp <;> grind

theorem sub_eq_ok_iff {w : Width} {a b c : Int} :
    w.sub a b = .ok c ↔ w.Fits c ∧ c = a - b := by
  unfold sub
  split <;> simp <;> grind

/-- Short of a distance by some of its steps, the rest is counted without an overflow. -/
theorem sub_shortfall {w : Width} {m n : Nat} (hn : w.Fits n) (hmn : m ≤ n) :
    w.sub n (n - m : Nat) = .ok (m : Int) :=
  sub_eq_ok_iff.2 ⟨hn.of_le hmn, by omega⟩

/-- The lower half of a distance that is not negative. -/
def half (x : Int) : Except Fault Int :=
  if x < 0 then .error .negativeHalf else .ok (x / 2)

theorem half_eq_ok_iff {x h : Int} : half x = .ok h ↔ 0 ≤ x ∧ h = x / 2 := by
  unfold half
  split <;> simp <;> grind

theorem half_natCast (n : Nat) : half n = .ok (n / 2 : Nat) :=
  half_eq_ok_iff.2 ⟨by omega, by omega⟩

/-- A number worked out from a count `n`, which is an overflow if it leaves the width and `n` does
not. The counts that searches are given are distances; any other one is worked with as it is. -/
def workedOut (w : Width) (n x : Int) (overflow : Fault) : Except Fault Int :=
  if w.Fits n ∧ ¬w.Fits x then .error overflow else .ok x

/-- What follows the element that `half` of `n` elements come before. -/
def behind (w : Width) (n half : Int) : Except Fault Int := do
  let passed ← w.workedOut n (half + 1) .addOverflow
  w.workedOut n (n - passed) .subOverflow

theorem workedOut_eq_ok_iff {w : Width} {n x y : Int} {e : Fault} :
    w.workedOut n x e = .ok y ↔ (w.Fits n → w.Fits x) ∧ y = x := by
  unfold workedOut
  split <;> simp <;> grind

/-- Some steps of a count are taken from it without an overflow. -/
theorem workedOut_sub (w : Width) {m n : Nat} (hmn : m ≤ n) :
    w.workedOut n (n - m) .subOverflow = .ok (n - m : Nat) := by
  refine workedOut_eq_ok_iff.2 ⟨fun hf => ?_, by omega⟩
  rw [← Int.ofNat_sub hmn]
  exact hf.of_le (Nat.sub_le n m)

theorem behind_eq_ok_iff {w : Width} {n half m : Int} :
    w.behind n half = .ok m ↔
      (w.Fits n → w.Fits (half + 1) ∧ w.Fits (n - (half + 1))) ∧ m = n - (half + 1) := by
  rw [behind, bind_eq_ok_iff]
  constructor
  · rintro ⟨passed, hp, hm⟩
    obtain ⟨hpf, rfl⟩ := workedOut_eq_ok_iff.1 hp
    obtain ⟨hmf, rfl⟩ := workedOut_eq_ok_iff.1 hm
    exact ⟨fun hf => ⟨hpf hf, hmf hf⟩, rfl⟩
  · rintro ⟨hf, rfl⟩
    exact ⟨half + 1, workedOut_eq_ok_iff.2 ⟨fun h => (hf h).1, rfl⟩,
      workedOut_eq_ok_iff.2 ⟨fun h => (hf h).2, rfl⟩⟩

/-- What is on either side of a middle element is counted without an overflow. -/
theorem behind_half (w : Width) {n : Nat} (hn : 0 < n) :
    w.behind n (n / 2 : Nat) = .ok (n - (n / 2 + 1) : Nat) := by
  refine behind_eq_ok_iff.2 ⟨fun hf => ⟨?_, ?_⟩, by omega⟩
  · exact hf.of_le (m := n / 2 + 1) (by omega)
  · rw [show (n : Int) - ((n / 2 : Nat) + 1) = (n - (n / 2 + 1) : Nat) by omega]
    exact hf.of_le (by omega)

/-- Twice the distance, or the nearest distance that fits. -/
def double (w : Width) (x : Int) : Int :=
  if 2 * x < w.min then w.min else if w.max < 2 * x then w.max else 2 * x

theorem double_of_le {w : Width} {n : Nat} (h : (2 * n : Nat) ≤ w.max) :
    w.double n = (2 * n : Nat) := by
  have := w.min_eq
  have := w.le_max
  rw [double, if_neg (by omega), if_neg (by omega)]
  omega

theorem double_fits (w : Width) (x : Int) : w.Fits (w.double x) := by
  have := w.le_max
  have := w.min_eq
  unfold double Fits
  grind

/-- The number of indices. -/
def indexCount : Nat := Nat.pow 2 64

/-- The distance as an index; one that is too large for an index loses its high bits. -/
def toIndex (x : Int) : Except Fault Nat :=
  if x < 0 then .error .negativeIndex else .ok (x.toNat % indexCount)

/-- The index as a distance, if the low 64 bits of the largest distance reach it. -/
def ofIndex (w : Width) (i : Nat) : Except Fault Int :=
  if i ≤ w.max.toNat % indexCount then .ok i else .error .indexTooWide

end Width

end Waymark
