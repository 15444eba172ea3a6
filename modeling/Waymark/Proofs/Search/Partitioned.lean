import Waymark.Search.PartitionPoint
import Waymark.Proofs.Run
import Waymark.Proofs.Cursor.Reading

/-!
# Partitioned lists

A list is partitioned by a test if the elements that it holds of come first. They end at their
number, `xs.countP p`, which is found in what is left of a list on either side of an element
(`Partitioned.countP_drop`, `Partitioned.countP_take`). The callables that ask for it are those that
answer each question in one way only (`Answers`).
-/

namespace Waymark

variable {α β κ : Type}

/-- The callable answers by `g`, whatever it has been asked before. -/
def Answers (f : α → StateM κ β) (g : α → β) : Prop := ∀ x k, (f x k).1 = g x

theorem Answers.on {pred : Predicate κ β} {proj : Projection κ α β} {p : β → Bool} {g : α → β}
    (hp : Answers pred p) (hg : Answers proj g) : Answers (pred.on proj) fun x => p (g x) := by
  intro x k
  show (pred (proj x k).1 (proj x k).2).1 = p (g x)
  rw [hp, hg]

section Relation

variable {comp : Relation κ β β} {r : β → β → Bool}

theorem answers_orderedBefore (h : ∀ y, Answers (comp y) (r y)) (value : β) :
    Answers (orderedBefore value comp) fun y => r y value :=
  fun y k => h y value k

theorem answers_notOrderedAfter (h : ∀ y, Answers (comp y) (r y)) (value : β) :
    Answers (notOrderedAfter value comp) fun y => !r value y :=
  fun y k => congrArg not (h value y k)

end Relation

/-- The elements that the test holds of come before all others. -/
def Partitioned (p : α → Bool) (xs : List α) : Prop :=
  xs.Pairwise fun x y => p y = true → p x = true

instance (p : α → Bool) (xs : List α) : Decidable (Partitioned p xs) :=
  inferInstanceAs (Decidable (List.Pairwise _ _))

namespace Partitioned

variable {p : α → Bool} {xs : List α}

theorem take (h : Partitioned p xs) (n : Nat) : Partitioned p (xs.take n) :=
  h.sublist (List.take_sublist n xs)

theorem drop (h : Partitioned p xs) (n : Nat) : Partitioned p (xs.drop n) :=
  h.sublist (List.drop_sublist n xs)

theorem cons {x : α} (h : Partitioned p xs) (hx : p x = true) : Partitioned p (x :: xs) :=
  List.pairwise_cons.2 ⟨fun _ _ _ => hx, h⟩

/-- The test holds of everything before an element that it holds of. -/
theorem countP_drop (h : Partitioned p xs) {n : Nat} (hn : n < xs.length) (hx : p xs[n] = true) :
    xs.countP p = n + (xs.drop n).countP p := by
  have hs := List.take_append_drop n xs
  rw [Partitioned, ← hs, List.pairwise_append] at h
  have ht : (xs.take n).countP p = (xs.take n).length := by
    refine List.countP_eq_length.2 fun x hm => h.2.2 x hm xs[n] ?_ hx
    rw [List.drop_eq_getElem_cons hn]
    exact List.mem_cons_self
  rw [List.length_take_of_le (Nat.le_of_lt hn)] at ht
  rw [← hs, List.countP_append, hs, ht]

/-- The test holds of nothing from an element on that it does not hold of. -/
theorem countP_take (h : Partitioned p xs) {n : Nat} (hn : n < xs.length) (hx : p xs[n] = false) :
    xs.countP p = (xs.take n).countP p := by
  have hd : (xs.drop n).countP p = 0 := by
    have h := h.drop n
    rw [Partitioned, List.drop_eq_getElem_cons hn, List.pairwise_cons] at h
    rw [List.countP_eq_zero, List.drop_eq_getElem_cons hn]
    intro y hy hp
    rcases List.mem_cons.1 hy with rfl | hy
    · rw [hx] at hp
      cases hp
    · have := h.1 y hy hp
      rw [hx] at this
      cases this
  rw [← Nat.add_zero ((xs.take n).countP p), ← hd, ← List.countP_append, List.take_append_drop]

theorem countP_drop_succ (h : Partitioned p xs) {n : Nat} (hn : n < xs.length)
    (hx : p xs[n] = true) : xs.countP p = n + 1 + (xs.drop (n + 1)).countP p := by
  rw [h.countP_drop hn hx, List.drop_eq_getElem_cons hn, List.countP_cons_of_pos hx]
  omega

/-- The number of elements that the test holds of is where they end. -/
theorem getElem (h : Partitioned p xs) {n : Nat} (hn : n < xs.length) :
    p xs[n] = decide (n < xs.countP p) := by
  cases hx : p xs[n] with
  | true => rw [h.countP_drop_succ hn hx, decide_eq_true (by omega)]
  | false =>
    have := List.countP_le_length (p := p) (l := xs.take n)
    rw [List.length_take_of_le (Nat.le_of_lt hn), ← h.countP_take hn hx] at this
    rw [decide_eq_false (by omega)]

/-- The elements that the test holds of, and behind them the others. -/
theorem take_drop_countP (h : Partitioned p xs) :
    xs.take (xs.countP p) = xs.filter p ∧ xs.drop (xs.countP p) = xs.filter fun x => !p x := by
  induction xs with
  | nil => exact ⟨rfl, rfl⟩
  | cons x xs ih =>
    by_cases hx : p x = true
    · obtain ⟨ht, hd⟩ := ih h.of_cons
      rw [List.countP_cons_of_pos hx, List.take_succ_cons, List.drop_succ_cons, ht, hd]
      simp [hx]
    · have hx : p x = false := Bool.eq_false_iff.2 hx
      have hn : (x :: xs).countP p = 0 := h.countP_take (n := 0) (Nat.succ_pos _) hx
      have hf := List.countP_eq_zero.1 hn
      rw [hn, List.take_zero, List.drop_zero, eq_comm, List.filter_eq_nil_iff, eq_comm,
        List.filter_eq_self]
      exact ⟨hf, fun y hy => by simpa using hf y hy⟩

theorem filter_append_filter (h : Partitioned p xs) :
    xs.filter p ++ xs.filter (fun x => !p x) = xs := by
  obtain ⟨ht, hd⟩ := h.take_drop_countP
  rw [← ht, ← hd, List.take_append_drop]

end Partitioned

/-- Partitioned twice: what `p` puts before a value comes first, what `q` puts after it last. -/
structure Separated (p q : α → Bool) (xs : List α) : Prop where
  before : Partitioned p xs
  notAfter : Partitioned (fun x => !q x) xs
  exclusive : ∀ x ∈ xs, p x = true → q x = false

namespace Separated

variable {p q : α → Bool} {xs : List α}

theorem take (h : Separated p q xs) (n : Nat) : Separated p q (xs.take n) :=
  ⟨h.before.take n, h.notAfter.take n, fun x hx => h.exclusive x (List.mem_of_mem_take hx)⟩

theorem drop (h : Separated p q xs) (n : Nat) : Separated p q (xs.drop n) :=
  ⟨h.before.drop n, h.notAfter.drop n, fun x hx => h.exclusive x (List.mem_of_mem_drop hx)⟩

/-- Without what lies between, the elements on either side are left. -/
theorem take_append_drop (h : Separated p q xs) :
    xs.take (xs.countP p) ++ xs.drop (xs.countP fun x => !q x) = xs.filter fun x => p x || q x := by
  have hp : (xs.filter p).filter (fun x => p x || q x) = xs.filter p := by
    rw [List.filter_filter]
    exact List.filter_congr fun x _ => by cases p x <;> simp
  have hq : (xs.filter fun x => !p x).filter (fun x => p x || q x) = xs.filter q := by
    rw [List.filter_filter]
    refine List.filter_congr fun x hx => ?_
    cases hpx : p x with
    | true => rw [h.exclusive x hx hpx]; rfl
    | false => simp
  have hs := congrArg (List.filter fun x => p x || q x) h.before.filter_append_filter
  rw [List.filter_append, hp, hq] at hs
  rw [h.before.take_drop_countP.1, h.notAfter.take_drop_countP.2, ← hs]
  simp only [Bool.not_not]

end Separated

/-- Irreflexive and transitive, and so is being ordered neither way. -/
structure StrictWeakOrder (r : β → β → Bool) : Prop where
  irrefl : ∀ a, r a a = false
  trans : ∀ a b c, r a b = true → r b c = true → r a c = true
  incomparable : ∀ a b c, r a b = false → r b a = false → r b c = false → r c b = false →
    r a c = false

namespace StrictWeakOrder

variable {r : β → β → Bool}

theorem asymm (h : StrictWeakOrder r) {a b : β} (hab : r a b = true) : r b a = false := by
  cases hba : r b a with
  | false => rfl
  | true => rw [← h.trans a b a hab hba, h.irrefl]

/-- What comes between has to come after the one or before the other. -/
theorem between (h : StrictWeakOrder r) {a b c : β} (hac : r a c = true) (hab : r a b = false) :
    r b c = true := by
  cases hbc : r b c with
  | true => rfl
  | false =>
    have hba : r b a = false := by
      cases hba : r b a with
      | false => rfl
      | true => rw [← hbc, h.trans b a c hba hac]
    have hcb : r c b = false := by
      cases hcb : r c b with
      | false => rfl
      | true => rw [← hab, h.trans a c b hac hcb]
    rw [← hac, h.incomparable a b c hab hba hbc hcb]

/-- A sorted list is separated by every value. -/
theorem separated (h : StrictWeakOrder r) {g : α → β} {xs : List α}
    (hs : xs.Pairwise fun x y => r (g y) (g x) = false) (value : β) :
    Separated (fun x => r (g x) value) (fun x => r value (g x)) xs := by
  refine ⟨hs.imp fun {x y} hxy hy => h.between hy hxy, hs.imp fun {x y} hxy hy => ?_,
    fun x _ hx => h.asymm hx⟩
  rw [Bool.not_eq_true'] at hy ⊢
  cases hx : r value (g x) with
  | false => rfl
  | true => rw [← hxy, h.between hx hy]

end StrictWeakOrder

end Waymark
