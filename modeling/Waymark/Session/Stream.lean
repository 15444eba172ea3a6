import Waymark.Query
import Waymark.Session.Registers

/-!
# One stream, lent out step by step

A stream is looked at, walked through and searched, each step going on from where the one before has
left it.
-/

namespace Waymark.StreamSession

/-- What can be asked of a stream. -/
inductive Step where
  | peek
  | position
  | exhausted
  | describe
  | takeError
  | finish
  /-- The bytes before the next `byte`, which is passed as well. -/
  | takeUntil (byte : UInt8)
  | search (q : Search)
  /-- Compares the stream with a list. -/
  | compare (q : Comparison) (other : List Value)
  /-- Lends the stream to a session as its only register. -/
  | request (q : Request)

/-- The answers of a stream. -/
inductive Reply where
  | byte (b : Option UInt8)
  | position (n : Nat)
  | truth (b : Bool)
  | text (s : String)
  | error (e : Option StreamError)
  | unread (n : Nat)
  | failed (e : StreamError)
  | bytes (items : List Value)
  | found (finding : Finding) (record : Record) (after : ByteStream)
  | reply (r : Waymark.Reply Value)

/-- The stream under a cursor. -/
def streamUnder : Cursor Value → Option ByteStream
  | .stream s => some s
  | .counted b _ => streamUnder b
  | _ => none

/-- The stream at which the sequence `i` of a query was left. -/
def after (o : Outcome) (i : Nat) : Option ByteStream := o.stops[i]?.bind streamUnder

/-- Does a step. -/
def Step.perform (s : ByteStream) : Step → Run Value Record (Reply × ByteStream)
  | peek => return (.byte s.peek, s)
  | position => return (.position s.position, s)
  | exhausted => return (.truth s.exhausted, s)
  | describe => return (.text s.text, s)
  | takeError => return (.error s.takeError.1, s.takeError.2)
  | finish => match s.finish with
    | .ok n => return (.unread n, s)
    | .error e => return (.failed e, s)
  | takeUntil byte => do
    let stop : Value → Bool := fun v => v == .int byte.toNat
    let (items, w) ← Walk.takeUntil stop ⟨.stream s, .endOfStream⟩
    return (.bytes (items.filter fun v => !stop v), (streamUnder w.cursor).getD s)
  | search q => do
    let o ← q.inPair (.stream s) .endOfStream
    let t := (after o 0).getD s
    return (.found o.finding (← get).calls t, t)
  | compare q other => do
    let source : Source Value := .shared 0 other
    let o ← q.inPairs (.stream s) .endOfStream (.slice source 0)
      (.cursor (.slice source source.length))
    let t := (after o 0).getD s
    return (.found o.finding (← get).calls t, t)
  | request q => do
    let (r, session) ← Session.perform ⟨[.stream s], .endOfStream⟩ q
    return (.reply r, (session.registers[0]?.bind streamUnder).getD s)

/-- Does the steps one after the other. A fault ends them. -/
def run (s : ByteStream) : List Step → List (Except Fault Reply)
  | [] => []
  | q :: rest => match q.perform s ⟨[], Record.empty⟩ with
    | .ok (r, t) _ => .ok r :: run t rest
    | .error e _ => [.error e]

end Waymark.StreamSession
