import Waymark.Callable.Tally

/-!
# Tallies in registers

Counted callables are kept in numbered registers and asked, read off, set back, copied and released.
-/

namespace Waymark.Tallies

/-- What can be asked of the registers. -/
inductive Request where
  | ask (r : Nat) (q : Question)
  | calls (r : Nat)
  | reset (r : Nat)
  | display (r : Nat)
  /-- A tally of its own, with the same counts, in a new register. -/
  | copy (r : Nat)
  /-- Releases the callable, which tells its own number of calls. -/
  | release (r : Nat)
  /-- Releases the callable into a fresh tally in a new register. -/
  | rewrap (r : Nat)

inductive Reply where
  | answer (a : Answer)
  | calls (n : Nat)
  | text (s : String)
  | register (r : Nat)
  | done
  /-- The register is empty, or the callable is not made for the question. -/
  | refused

/-- The registers; a released one is empty. -/
abbrev Registers := List (Option Tally)

/-- Answers a request. -/
def perform (ts : Registers) (q : Request) : Reply × Registers :=
  let tally (r : Nat) : Option Tally := ts[r]?.join
  match q with
  | .ask r q => match tally r with
    | some t => match t.ask q with
      | (some a, t) => (.answer a, ts.set r (some t))
      | (none, _) => (.refused, ts)
    | none => (.refused, ts)
  | .calls r => match tally r with
    | some t => (.calls t.calls, ts)
    | none => (.refused, ts)
  | .reset r => match tally r with
    | some t => (.done, ts.set r (some t.reset))
    | none => (.refused, ts)
  | .display r => match tally r with
    | some t => (.text t.display, ts)
    | none => (.refused, ts)
  | .copy r => match tally r with
    | some t => (.register ts.length, ts ++ [some t])
    | none => (.refused, ts)
  | .release r => match tally r with
    | some t => (.calls t.made, ts.set r none)
    | none => (.refused, ts)
  | .rewrap r => match tally r with
    | some t => (.register ts.length, ts.set r none ++ [some (.of t.form t.made)])
    | none => (.refused, ts)

/-- Answers requests one after the other. -/
def run (ts : Registers) : List Request → List Reply
  | [] => []
  | q :: rest =>
    let (r, ts) := perform ts q
    r :: run ts rest

end Waymark.Tallies
