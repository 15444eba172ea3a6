import Waymark.Callable.Form

/-!
# Tallies and journals

A tally counts the calls of a callable and can be set back; the callable's own number of calls is
not touched by that. A journal also writes a row for every call, with the time since the first one.
`Journal.hideTime` makes what is written independent of the times.
-/

namespace Waymark

/-- A callable with a count of its calls. -/
structure Tally where
  form : Form
  /-- The calls of the callable since it was made. -/
  made : Nat
  /-- The calls counted. -/
  calls : Nat

namespace Tally

/-- Nothing is counted yet of a callable that may have been called before. -/
def of (form : Form) (made : Nat) : Tally := ⟨form, made, 0⟩

/-- Asks the callable. -/
def ask (t : Tally) (q : Question) : Option Answer × Tally :=
  let t := { t with made := t.made + 1, calls := t.calls + 1 }
  (t.form.answer? t.made q, t)

def reset (t : Tally) : Tally := { t with calls := 0 }

def display (t : Tally) : String := s!"Counted(calls: {t.calls})"

end Tally

/-- The text, filled with spaces on the right up to `width` characters. -/
def padRight (width : Nat) (s : String) : String :=
  s ++ String.ofList (List.replicate (width - s.length) ' ')

/-- A time in seconds, with three places. -/
def secondsText (milliseconds : Nat) : String :=
  let places := toString (milliseconds % 1000)
  s!"{milliseconds / 1000}." ++ "".pushn '0' (3 - places.length) ++ places ++ "s"

/-- What is written about a call. -/
structure Journal.Entry where
  /-- The milliseconds since the first call. -/
  elapsed : Nat
  result : String

/-- A callable with a count of its calls and what is written about them. -/
structure Journal where
  tally : Tally
  label : String
  /-- The calls written about. -/
  calls : Nat
  /-- What is written about the calls, the latest first. -/
  entries : List Journal.Entry
  /-- What is written goes somewhere. -/
  kept : Bool

namespace Journal

def of (form : Form) (label : String) (kept : Bool) : Journal :=
  ⟨.of form 0, label, 0, [], kept⟩

/-- The text for an answer. What a projection answers is not shown. -/
def resultText : Answer → String
  | .truth b => toString b
  | .element _ => "-"

/-- Asks the callable, `elapsed` milliseconds after the first call, and writes about it. -/
def ask (j : Journal) (elapsed : Nat) (q : Question) : Option Answer × Journal :=
  let (a, t) := j.tally.ask q
  let result := (a.map resultText).getD "-"
  (a, { j with tally := t, calls := j.calls + 1, entries := ⟨elapsed, result⟩ :: j.entries })

/-- What stands between two columns. -/
def gutter : String := " | "

/-- Four columns side by side. A text that is too wide for its column moves the next ones. -/
def row (first second third fourth : String) : String :=
  gutter.intercalate [padRight 9 first, padRight 12 second, padRight 8 third, padRight 8 fourth]

/-- The two rows above the calls. -/
def heading : List String :=
  [row "Elapsed" "Callable" "Call" "Result", "".pushn '-' 46]

/-- The rows about the calls. -/
def body (j : Journal) : List String :=
  j.entries.reverse.mapIdx fun i e =>
    row (secondsText e.elapsed) j.label (toString (i + 1)) e.result

/-- What has been written, cut at the ends of lines. The heading comes with the first call, every
row ends its line, and a label may hold ends of lines as well. -/
def lines (j : Journal) : List String :=
  if j.kept ∧ 0 < j.calls then (heading ++ j.body).flatMap (·.splitOn "\n") ++ [""] else [""]

/-- The line with `mask` for its first column, if it has one that starts with a digit as a time
does. -/
def hideTime (mask line : String) : String :=
  if line.toList.head?.any Char.isDigit then
    match line.splitOn gutter with
    | _ :: column :: columns => gutter.intercalate (mask :: column :: columns)
    | _ => line
  else line

def display (j : Journal) : String :=
  "Logged(label: " ++ j.label ++ s!", calls: {j.calls})"

end Journal

end Waymark
