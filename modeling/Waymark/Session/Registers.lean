import Waymark.Walk

/-!
# Cursors in registers

Cursors of one kind are kept in numbered registers, with a bound beside them, and are moved, read and
compared on request. A request that the kind of cursor has no answer to is refused and changes
nothing; a fault ends the session and leaves the stored sequences as they are then.
-/

namespace Waymark

/-- The bound that a request refers to. -/
inductive Target where
  /-- The one of the session. -/
  | last
  | unreachable
  /-- The cursor in a register. -/
  | register (r : Nat)
  deriving DecidableEq, Repr

/-- What can be asked of the registers. Numbers `r` and `s` name registers. -/
inductive Request where
  | category
  | locate (r : Nat)
  | step (r : Nat)
  | advance (r : Nat) (n : Int)
  | read (r : Nat)
  | isEnd (r : Nat) (target : Target)
  | measure (r : Nat) (target : Target)
  /-- Asks the bound for the distance that it always knows. -/
  | distanceLeft (r : Nat)
  | describe (r : Nat)
  /-- Goes towards a bound, for at most `n` elements. -/
  | advanceTowards (r : Nat) (target : Target) (n : Int)
  | reach (r : Nat)
  | distance (r : Nat) (target : Target)
  /-- Whether the range up to the bound is empty, and its measure. -/
  | emptiness (r : Nat)
  /-- Walks on for at most `limit` elements. -/
  | walk (r : Nat) (limit : Option Nat)
  | copy (r : Nat)
  | same (r s : Nat)
  | stepBack (r : Nat)
  | jump (r : Nat) (n : Int)
  | offset (r s : Nat)
  | order (r s : Nat)
  /-- The range between two cursors, if they are in order. -/
  | ordered (r s : Nat)
  | moveOut (r : Nat)
  | swap (r s : Nat)
  | places (r s : Nat)
  deriving DecidableEq, Repr

/-- What has to be possible for a request to be answered. -/
def Request.needs : Request → Option Capability
  | isEnd _ (.register _) => some .selfBound
  | measure _ (.register _) => some .selfBound
  | advanceTowards _ (.register _) _ => some .selfBound
  | distance _ (.register _) => some .selfBound
  | distanceLeft _ => some .sized
  | copy _ => some .multipass
  | same .. => some .multipass
  | stepBack _ => some .randomAccess
  | jump .. => some .randomAccess
  | offset .. => some .randomAccess
  | order .. => some .randomAccess
  | ordered .. => some .randomAccess
  | moveOut _ => some .movable
  | swap .. => some .swappable
  | places .. => some .contiguous
  | _ => none

/-- The answers to requests. -/
inductive Reply (α : Type) where
  | refused
  | done
  | category (c : Category)
  | location (l : Location)
  | element (x : α)
  | truth (b : Bool)
  | number (n : Int)
  | measure (n : Option Int)
  | text (s : String)
  | short (n : Int) (l : Location)
  | emptiness (b : Bool) (n : Option Int)
  | walked (hint : SizeHint) (items : List α) (l : Location)
  | register (r : Nat)
  | order (o : Ordering)
  | range (r : Option (Location × Location × Int))

/-- The registers and the bound beside them. -/
structure Session (α : Type) where
  registers : List (Cursor α)
  last : Bound α

namespace Session

variable {α κ : Type} [IntCast α] [Inhabited α]

/-- The kind of cursor and the bound can do what a request needs. -/
def allows (s : Session α) : Option Capability → Bool
  | none => true
  | some .sized => s.last.sized
  | some c => s.registers.all (·.can c)

/-- Answers from the cursor in a register. -/
def withRegister (s : Session α) (r : Nat) (answer : Cursor α → Run α κ (Reply α × Session α)) :
    Run α κ (Reply α × Session α) :=
  match s.registers[r]? with
  | some c => answer c
  | none => return (.refused, s)

/-- Answers from the cursors in two registers. -/
def withRegisters (s : Session α) (r q : Nat)
    (answer : Cursor α → Cursor α → Run α κ (Reply α × Session α)) :
    Run α κ (Reply α × Session α) :=
  s.withRegister r fun c => s.withRegister q fun d => answer c d

/-- Answers from the cursor in a register and the bound that is meant. -/
def towards (s : Session α) (r : Nat) (target : Target)
    (answer : Cursor α → Bound α → Run α κ (Reply α × Session α)) :
    Run α κ (Reply α × Session α) :=
  match target with
  | .last => s.withRegister r fun c => answer c s.last
  | .unreachable => s.withRegister r fun c => answer c .unreachable
  | .register q => s.withRegisters r q fun c d => answer c (.cursor d)

/-- Puts a cursor into a register. -/
def put (s : Session α) (r : Nat) (c : Cursor α) : Session α :=
  { s with registers := s.registers.set r c }

/-- Moves the cursor in a register and tells where it has come. -/
def move (s : Session α) (r : Nat) (go : Cursor α → Except Fault (Cursor α)) :
    Run α κ (Reply α × Session α) :=
  s.withRegister r fun c => do
    let d ← go c
    return (.location d.location, s.put r d)

/-- Answers with what is computed from two cursors. -/
def tell {β : Type} (s : Session α) (r q : Nat) (reply : β → Reply α)
    (compute : Cursor α → Cursor α → Except Fault β) : Run α κ (Reply α × Session α) :=
  s.withRegisters r q fun c d => do
    let b ← compute c d
    return (reply b, s)

/-- Answers a request that the cursors can answer. -/
def answer (s : Session α) : Request → Run α κ (Reply α × Session α)
  | .category => s.withRegister 0 fun c => return (.category c.category, s)
  | .locate r => s.withRegister r fun c => return (.location c.location, s)
  | .step r => s.move r Cursor.step
  | .advance r n => s.move r (·.advance n)
  | .read r => s.withRegister r fun c => return (.element (← c.read), s)
  | .isEnd r t => s.towards r t fun c b => return (.truth (b.isEnd c), s)
  | .measure r t => s.towards r t fun c b => do
    let n ← b.measure c
    return (.measure n, s)
  | .distanceLeft r => s.withRegister r fun c => do
    let n ← s.last.measure c
    return (.measure n, s)
  | .describe r => s.withRegister r fun c => return (.text c.text, s)
  | .advanceTowards r t n => s.towards r t fun c b => do
    let (short, d) ← b.advance c n
    return (.short short d.location, s.put r d)
  | .reach r => s.move r s.last.reach
  | .distance r t => s.towards r t fun c b => do
    let (n, d) ← b.distance c
    return (.number n, s.put r d)
  | .emptiness r => s.withRegister r fun c => do
    let range := Range.of c s.last
    let n ← range.measure
    return (.emptiness range.isEmpty n, s)
  | .walk r limit => s.withRegister r fun c => do
    let w : Walk α := ⟨c, s.last⟩
    let hint ← w.sizeHint
    let (items, w) ← match limit with
      | some n => w.take n
      | none => w.takeAll
    return (.walked hint items w.cursor.location, s.put r w.cursor)
  | .copy r => s.withRegister r fun c =>
    return (.register s.registers.length, { s with registers := s.registers ++ [c] })
  | .same r q => s.tell r q .truth Cursor.same
  | .stepBack r => s.move r Cursor.stepBack
  | .jump r n => s.move r (·.jump n)
  | .offset r q => s.tell r q .number Cursor.offsetFrom
  | .order r q => s.tell r q .order Cursor.order
  | .ordered r q => s.tell r q .range fun c d => do
    match ← Range.ordered? c d with
    | none => return none
    | some _ => return some (c.location, d.location, ← d.offsetFrom c)
  | .moveOut r => s.withRegister r fun c => return (.element (← c.moveOut), s)
  | .swap r q => s.withRegisters r q fun c d => do
    c.swap d
    return (.done, s)
  | .places r q => s.tell r q .number Cursor.places

/-- Answers a request, or refuses it. -/
def perform (s : Session α) (q : Request) : Run α κ (Reply α × Session α) :=
  if s.allows q.needs then s.answer q else return (.refused, s)

/-- Answers requests one after the other. A fault ends the answers. -/
def run (s : Session α) : List Request → World α κ → List (Except Fault (Reply α)) × World α κ
  | [], w => ([], w)
  | q :: rest, w => match s.perform q w with
    | .ok (r, t) w =>
      let (replies, w) := run t rest w
      (.ok r :: replies, w)
    | .error e w => ([.error e], w)

end Session

end Waymark
