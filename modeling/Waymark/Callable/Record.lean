import Waymark.Callable.Basic
import Waymark.Callable.Form

/-!
# Records of calls

The callables of one run of an algorithm keep a record: how often each was called, and every call in
order. The number of a call is its place among the calls of the same callable.
-/

namespace Waymark

/-- One call with its answer. -/
inductive Call where
  | compared (a b : Value) (answer : Bool)
  | tested (v : Value) (answer : Bool)
  | projected (v answer : Value)
  | projectedSecond (v answer : Value)

/-- The calls of the relation or predicate, of the projection and of the second projection, and all
of them, the latest first. -/
structure Record where
  tests : Nat
  projections : Nat
  secondProjections : Nat
  calls : List Call

namespace Record

/-- Nothing has been called. -/
def empty : Record := ⟨0, 0, 0, []⟩

/-- The calls in order. -/
def trace (r : Record) : List Call := r.calls.reverse

end Record

namespace Form

/-- The predicate, with its calls recorded. -/
def Predicate.recorded (f : Predicate) : Waymark.Predicate Record Value := fun v r =>
  let n := r.tests + 1
  let b := f.holds n v
  (b, { r with tests := n, calls := .tested v b :: r.calls })

/-- The relation, with its calls recorded. -/
def Relation.recorded (f : Relation) : Waymark.Relation Record Value Value := fun v w r =>
  let n := r.tests + 1
  let b := f.holds n v w
  (b, { r with tests := n, calls := .compared v w b :: r.calls })

/-- The projection, with its calls recorded. -/
def Projection.recorded (f : Projection) : Waymark.Projection Record Value Value := fun v r =>
  let n := r.projections + 1
  let w := f.apply n v
  (w, { r with projections := n, calls := .projected v w :: r.calls })

/-- The projection, with its calls recorded as those of the second one. -/
def Projection.recordedSecond (f : Projection) : Waymark.Projection Record Value Value :=
  fun v r =>
    let n := r.secondProjections + 1
    let w := f.apply n v
    (w, { r with secondProjections := n, calls := .projectedSecond v w :: r.calls })

end Form

end Waymark
