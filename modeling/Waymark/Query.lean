import Waymark.Compare.Includes
import Waymark.Upkeep
import Waymark.Callable.Record

/-!
# Queries

What can be asked of sequences of values, as data: a search in one sequence, a comparison of two,
and a rearrangement of a stored one. Each can be posed in several ways, with a bound, as a range, with
a count or on a list. The answer tells where it was found, and the cursors at which the work ended.
-/

namespace Waymark

/-- An answer. -/
inductive Finding where
  | place (location : Location)
  | span (lower upper : Location)
  | number (n : Int)
  | truth (b : Bool)
  deriving DecidableEq, Repr

/-- An answer, with the cursors at which the sequences were left. -/
structure Outcome where
  finding : Finding
  stops : List (Cursor Value)

/-- What is searched for. -/
inductive Goal where
  | element (wanted : Bool) (pred : Form.Predicate)
  | partitionPoint (pred : Form.Predicate)
  | count (value : Value)
  | lowerBound (value : Value) (comp : Form.Relation)
  | upperBound (value : Value) (comp : Form.Relation)
  | equalRange (value : Value) (comp : Form.Relation)

/-- A search in one sequence. -/
structure Search where
  goal : Goal
  proj : Form.Projection

namespace Search

/-- Answers with a cursor. -/
def atCursor (act : Run Value Record (Cursor Value)) : Run Value Record Outcome := do
  let c ← act
  return ⟨.place c.location, [c]⟩

/-- Answers with two cursors. -/
def atCursors (act : Run Value Record (Cursor Value × Cursor Value)) :
    Run Value Record Outcome := do
  let (c, d) ← act
  return ⟨.span c.location d.location, [c, d]⟩

/-- Answers with a number. -/
def byNumber (act : Run Value Record (Int × Cursor Value)) : Run Value Record Outcome := do
  let (n, c) ← act
  return ⟨.number n, [c]⟩

/-- Searches from a cursor to a bound. -/
def inPair (s : Search) (first : Cursor Value) (last : Bound Value) : Run Value Record Outcome :=
  let proj := s.proj.recorded
  match s.goal with
  | .element true p => atCursor (findIf first last p.recorded proj)
  | .element false p => atCursor (findIfNot first last p.recorded proj)
  | .partitionPoint p => atCursor (partitionPoint first last p.recorded proj)
  | .count v => byNumber (count first last v proj)
  | .lowerBound v c => atCursor (lowerBound first last v c.recorded proj)
  | .upperBound v c => atCursor (upperBound first last v c.recorded proj)
  | .equalRange v c => atCursors (equalRange first last v c.recorded proj)

/-- Searches in a range. -/
def inRange (s : Search) (r : Range Value) : Run Value Record Outcome :=
  let proj := s.proj.recorded
  match s.goal with
  | .element true p => atCursor (r.findIf p.recorded proj)
  | .element false p => atCursor (r.findIfNot p.recorded proj)
  | .partitionPoint p => atCursor (r.partitionPoint p.recorded proj)
  | .count v => byNumber (r.count v proj)
  | .lowerBound v c => atCursor (r.lowerBound v c.recorded proj)
  | .upperBound v c => atCursor (r.upperBound v c.recorded proj)
  | .equalRange v c => atCursors (r.equalRange v c.recorded proj)

/-- Searches among `n` elements. Searches that test every element need a bound, and have none. -/
def inCount (s : Search) (first : Cursor Value) (n : Int) : Run Value Record Outcome :=
  let proj := s.proj.recorded
  match s.goal with
  | .partitionPoint p => atCursor (partitionPointN first n p.recorded proj)
  | .lowerBound v c => atCursor (lowerBoundN first n v c.recorded proj)
  | .upperBound v c => atCursor (upperBoundN first n v c.recorded proj)
  | .equalRange v c => atCursors (equalRangeN first n v c.recorded proj)
  | _ => s.inPair first .unreachable

/-- Searches in a list and answers with offsets. -/
def inList (s : Search) (xs : List Value) : Run Value Record Outcome :=
  let proj := s.proj.recorded
  let offset (act : Run Value Record Dangling) : Run Value Record Outcome := do
    let d ← act
    return ⟨.place (.index d.offset), []⟩
  match s.goal with
  | .lowerBound v c => offset (lowerBoundList xs v c.recorded proj)
  | .upperBound v c => offset (upperBoundList xs v c.recorded proj)
  | .equalRange v c => do
    let (lower, upper) ← equalRangeList xs v c.recorded proj
    return ⟨.span (.index lower.offset) (.index upper.offset), []⟩
  | .count v => byNumber (countList xs v proj)
  | _ => s.inRange (.ofList xs)

end Search

/-- What two sequences are compared for. -/
inductive Comparing where
  | equality (rel : Form.Relation)
  | inclusion (comp : Form.Relation)

/-- A comparison of two sequences. -/
structure Comparison where
  kind : Comparing
  proj₁ : Form.Projection
  proj₂ : Form.Projection

namespace Comparison

/-- Answers with a truth value. -/
def byVerdict (act : Run Value Record (Verdict Value)) : Run Value Record Outcome := do
  let v ← act
  return ⟨.truth v.holds, [v.first, v.second]⟩

/-- Compares what lies between cursors and bounds. -/
def inPairs (q : Comparison) (c : Cursor Value) (last₁ : Bound Value) (d : Cursor Value)
    (last₂ : Bound Value) : Run Value Record Outcome :=
  let p₁ := q.proj₁.recorded
  let p₂ := q.proj₂.recordedSecond
  match q.kind with
  | .equality rel => byVerdict (equal c last₁ d last₂ rel.recorded p₁ p₂)
  | .inclusion comp => byVerdict (includes c last₁ d last₂ comp.recorded p₁ p₂)

/-- Compares two ranges. -/
def inRanges (q : Comparison) (r s : Range Value) : Run Value Record Outcome :=
  let p₁ := q.proj₁.recorded
  let p₂ := q.proj₂.recordedSecond
  match q.kind with
  | .equality rel => byVerdict (r.equal s rel.recorded p₁ p₂)
  | .inclusion comp => byVerdict (r.includes s comp.recorded p₁ p₂)

/-- Compares a list with a range. -/
def inList (q : Comparison) (xs : List Value) (s : Range Value) : Run Value Record Outcome :=
  let p₁ := q.proj₁.recorded
  let p₂ := q.proj₂.recordedSecond
  match q.kind with
  | .equality rel => byVerdict (equalList xs s rel.recorded p₁ p₂)
  | .inclusion comp => byVerdict (includesList xs s comp.recorded p₁ p₂)

end Comparison

/-- A rearrangement of a stored sequence: what the predicate holds of is put in front if `keep`,
and behind if not. -/
structure Rearrangement where
  keep : Bool
  pred : Form.Predicate
  proj : Form.Projection

namespace Rearrangement

/-- Rearranges what lies between a cursor and a bound. -/
def inPair (q : Rearrangement) (first : Cursor Value) (last : Bound Value) :
    Run Value Record Outcome :=
  let pred := q.pred.recorded
  let proj := q.proj.recorded
  Search.atCursor (if q.keep then partition first last pred proj else removeIf first last pred proj)

/-- Rearranges a list. Answers how many elements are in front, and the list. -/
def inList (q : Rearrangement) (xs : List Value) : Run Value Record (Nat × List Value) :=
  let pred := q.pred.recorded
  let proj := q.proj.recorded
  if q.keep then partitionInList xs pred proj else removeInList xs pred proj

end Rearrangement

end Waymark
