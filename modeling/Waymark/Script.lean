import Waymark.Query

/-!
# Keeping a list by queries

A list is changed step by step: elements are added at the end or at their upper bound, equivalent
ones are cut out, others are rearranged or removed, and queries are answered in between. Every step
has its own record of calls.
-/

namespace Waymark.Script

inductive Step where
  | search (q : Search)
  /-- Compares the list with another one. -/
  | compare (q : Comparison) (other : List Value)
  | rearrange (q : Rearrangement)
  /-- Removes the elements and shortens the list to what is left. -/
  | remove (pred : Form.Predicate) (proj : Form.Projection)
  | push (value : Value)
  /-- Puts the value at its upper bound. -/
  | insertSorted (value : Value) (comp : Form.Relation) (proj : Form.Projection)
  /-- Cuts out the elements equivalent to the value. -/
  | eraseEqual (value : Value) (comp : Form.Relation) (proj : Form.Projection)

/-- The answer to a step, its record, and the list after it. -/
structure Entry where
  finding : Finding
  record : Record
  list : List Value

/-- Does a step. -/
def Step.perform (xs : List Value) : Step → Run Value Record (Finding × List Value)
  | search q => do
    let r ← q.inRange (.ofList xs)
    return (r.finding, xs)
  | compare q other => do
    let r ← q.inRanges (.ofList xs) (.ofList other)
    return (r.finding, xs)
  | rearrange q => do
    let (n, ys) ← q.inList xs
    return (.number n, ys)
  | remove pred proj => do
    let ys ← eraseIf xs pred.recorded proj.recorded
    return (.number ys.length, ys)
  | push v => return (.number (xs.length + 1 : Nat), xs ++ [v])
  | insertSorted v comp proj => do
    let (i, ys) ← Waymark.insertSorted xs v comp.recorded proj.recorded
    return (.number i, ys)
  | eraseEqual v comp proj => do
    let ((i, j), ys) ← Waymark.eraseEqual xs v comp.recorded proj.recorded
    return (.span (.index i) (.index j), ys)

/-- Does the steps one after the other. A fault ends the script. -/
def run (xs : List Value) : List Step → List (Except Fault Entry)
  | [] => []
  | s :: rest => match s.perform xs ⟨[], Record.empty⟩ with
    | .ok (finding, ys) w => .ok ⟨finding, w.calls, ys⟩ :: run ys rest
    | .error e _ => [.error e]

end Waymark.Script
