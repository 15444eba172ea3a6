/-!
# Values

Elements of mixed kinds: nothing, truth values, integers, binary floating-point numbers, texts and
arrays. Values of different kinds are ordered by kind. The order is partial, because a float that is
no number is ordered with no float, itself included; an array that comes to such a pair is ordered
with the other array as little.
-/

namespace Waymark

inductive Value where
  | null
  | bool (b : Bool)
  | int (i : Int)
  | float (x : Float)
  | text (s : String)
  | array (xs : List Value)

namespace Value

instance : Inhabited Value := ⟨null⟩

instance : IntCast Value := ⟨int⟩

/-- The place of the kind among the kinds. -/
def rank : Value → Nat
  | null => 0
  | bool _ => 1
  | int _ => 2
  | float _ => 3
  | text _ => 4
  | array _ => 5

/-- The order of floats, which has no place for what is no number. -/
def orderFloats (x y : Float) : Option Ordering :=
  if x < y then some .lt else if y < x then some .gt else if x == y then some .eq else none

mutual

/-- The order of two values, if they have one. -/
def order : Value → Value → Option Ordering
  | bool a, bool b => some (compare a b)
  | int a, int b => some (compare a b)
  | float x, float y => orderFloats x y
  | text s, text t => some (compare s t)
  | array xs, array ys => orderLists xs ys
  | a, b => some (compare a.rank b.rank)

/-- The first pair that is not equal decides, then the length. -/
def orderLists : List Value → List Value → Option Ordering
  | [], [] => some .eq
  | [], _ :: _ => some .lt
  | _ :: _, [] => some .gt
  | x :: xs, y :: ys => match order x y with
    | some .eq => orderLists xs ys
    | o => o

end

def lt (a b : Value) : Bool := order a b == some .lt

def gt (a b : Value) : Bool := order a b == some .gt

def le (a b : Value) : Bool := a.lt b || order a b == some .eq

def ge (a b : Value) : Bool := a.gt b || order a b == some .eq

instance : BEq Value := ⟨fun a b => order a b == some .eq⟩

end Value

end Waymark
