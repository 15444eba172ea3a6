import Waymark.Value.Basic

/-!
# Named callables on values

Descriptions of projections, predicates and relations, and what each of them answers at its `n`-th
call. Most answers depend on the values alone; a few look at the number of the call.
-/

namespace Waymark.Form

/-- What of a value is looked at. Values a description is not made for are left as they are. -/
inductive Projection where
  | identity
  | negate
  | absolute
  | add (k : Int)
  | remainder (k : Int)
  | quotient (k : Int)
  /-- The number of characters or of elements. -/
  | length
  | element (i : Nat)
  | null
  /-- The number of the call. -/
  | counter

/-- The comparisons of two values. -/
inductive Comparison where
  | lt
  | le
  | gt
  | ge
  | eq
  | ne

inductive Predicate where
  | constant (b : Bool)
  | even
  | empty
  /-- Compares with a value on the right. -/
  | compares (comparison : Comparison) (value : Value)
  | residue (k r : Int)
  | negation (p : Predicate)
  /-- Holds of every `k`-th call. -/
  | nthCall (k : Nat)
  /-- Holds of the first `k` calls. -/
  | firstCalls (k : Nat)

inductive Relation where
  | compares (comparison : Comparison)
  | constant (b : Bool)
  /-- Compares projections of both sides by `<`. -/
  | through (projection : Projection)
  | near (k : Int)
  /-- The order up to the `k`-th call, and the reverse order from then on. -/
  | flipAfter (k : Nat)

/-- The answer of a projection to its `n`-th call. -/
def Projection.apply (n : Nat) : Projection → Value → Value
  | identity, v => v
  | negate, .int i => .int (-i)
  | absolute, .int i => .int i.natAbs
  | add k, .int i => .int (i + k)
  | remainder k, .int i => .int (i.emod k)
  | quotient k, .int i => .int (i.ediv k)
  | length, .text s => .int s.length
  | length, .array xs => .int xs.length
  | element i, .array xs => xs[i]?.getD .null
  | null, _ => .null
  | counter, _ => .int n
  | _, v => v

def Comparison.holds : Comparison → Value → Value → Bool
  | lt, a, b => a.lt b
  | le, a, b => a.le b
  | gt, a, b => a.gt b
  | ge, a, b => a.ge b
  | eq, a, b => a == b
  | ne, a, b => !(a == b)

/-- The answer of a predicate to its `n`-th call. -/
def Predicate.holds (n : Nat) : Predicate → Value → Bool
  | constant b, _ => b
  | even, .int i => i.emod 2 == 0
  | even, _ => false
  | empty, .null => true
  | empty, .text s => s.isEmpty
  | empty, .array xs => xs.isEmpty
  | empty, _ => false
  | compares c w, v => c.holds v w
  | residue k r, .int i => i.emod k == r
  | residue _ _, _ => false
  | negation p, v => !p.holds n v
  | nthCall k, _ => n % k == 0
  | firstCalls k, _ => n ≤ k

/-- The answer of a relation to its `n`-th call. -/
def Relation.holds (n : Nat) : Relation → Value → Value → Bool
  | compares c, a, b => c.holds a b
  | constant b, _, _ => b
  | through p, a, b => (p.apply n a).lt (p.apply n b)
  | near k, .int a, .int b => (a - b).natAbs ≤ k
  | near _, a, b => a == b
  | flipAfter k, a, b => if n ≤ k then a.lt b else a.gt b

end Waymark.Form

namespace Waymark

/-- A callable of any role. -/
inductive Form where
  | projection (f : Form.Projection)
  | predicate (f : Form.Predicate)
  | relation (f : Form.Relation)

/-- What a callable is asked. -/
inductive Question where
  | project (v : Value)
  | test (v : Value)
  | relate (a b : Value)

/-- What a callable answers. -/
inductive Answer where
  | element (v : Value)
  | truth (b : Bool)

/-- The answer to the `n`-th call, if the callable is made for such a question. -/
def Form.answer? (n : Nat) : Form → Question → Option Answer
  | projection f, .project v => some (.element (f.apply n v))
  | predicate f, .test v => some (.truth (f.holds n v))
  | relation f, .relate a b => some (.truth (f.holds n a b))
  | _, _ => none

end Waymark
