/-!
# Decimal texts of floats

A finite float is written with the fewest digits that read back as it, and of those with the digits
nearest to it. The float is `m · 2 ^ q` with whole numbers, and the reals that read as it form an
interval around it, which contains its ends if `m` is even. For one digit after another the two
neighbours of the float with that many digits are tried against the interval.

Texts are positional from `0.0001` up to below `10 ^ 16`, and always have a fraction there.
-/

namespace Waymark.Decimal

/-- A positive float: `mantissa · 2 ^ exponent`. -/
structure Binary where
  mantissa : Nat
  exponent : Int
  /-- The float below is only half as far as the one above. -/
  narrowBelow : Bool

/-- A positive number `digits · 10 ^ exponent`. -/
structure Scientific where
  digits : Nat
  exponent : Int
  deriving DecidableEq, Repr

/-- The parts of a finite float other than zero, without its sign. -/
def Binary.ofBits (bits : Nat) : Binary :=
  let fraction : Nat := bits % Nat.pow 2 52
  let biased : Nat := bits / Nat.pow 2 52 % Nat.pow 2 11
  if biased = 0 then ⟨fraction, -1074, false⟩
  else ⟨fraction + Nat.pow 2 52, Int.ofNat biased - 1075, fraction == 0 && biased != 1⟩

/-- The float and the ends of its interval, as multiples of one unit `numerator / denominator`. -/
structure Interval where
  low : Nat
  value : Nat
  high : Nat
  closed : Bool
  numerator : Nat
  denominator : Nat

def Binary.interval (b : Binary) : Interval :=
  let e := b.exponent - 2
  { low := 4 * b.mantissa - (if b.narrowBelow then 1 else 2)
    value := 4 * b.mantissa
    high := 4 * b.mantissa + 2
    closed := b.mantissa % 2 == 0
    numerator := Nat.pow 2 e.toNat
    denominator := Nat.pow 2 (-e).toNat }

/-- The interval contains `digits · 10 ^ exponent`. -/
def Interval.contains (i : Interval) (s : Scientific) : Bool :=
  let x := s.digits * Nat.pow 10 s.exponent.toNat * i.denominator
  let unit := i.numerator * Nat.pow 10 (-s.exponent).toNat
  if i.closed then i.low * unit ≤ x && x ≤ i.high * unit
  else i.low * unit < x && x < i.high * unit

/-- The whole number of `10 ^ exponent` in the float, and whether the next one is as near. -/
def Interval.floor (i : Interval) (exponent : Int) : Nat × Bool :=
  let x := i.value * i.numerator * Nat.pow 10 (-exponent).toNat
  let unit := i.denominator * Nat.pow 10 exponent.toNat
  (x / unit, unit ≤ 2 * (x % unit))

/-- The nearer neighbour of the float among the multiples of `10 ^ exponent` that read back as it.
Of two as near, it is the larger one. -/
def Interval.neighbour? (i : Interval) (exponent : Int) : Option Scientific :=
  let (below, up) := i.floor exponent
  let down : Scientific := ⟨below, exponent⟩
  let above : Scientific := ⟨below + 1, exponent⟩
  let (near, far) := if up then (above, down) else (down, above)
  if i.contains near then some near else if i.contains far then some far else none

/-- The first of up to `fuel` exponents, from `exponent` downwards, with a neighbour that reads
back. -/
def Interval.shortest (i : Interval) : Nat → Int → Scientific
  | 0, exponent => ⟨(i.floor exponent).1, exponent⟩
  | fuel + 1, exponent => match i.neighbour? exponent with
    | some s => s
    | none => i.shortest fuel (exponent - 1)

/-- An exponent that is at least the number of digits before the point. -/
def Interval.magnitude (i : Interval) : Int :=
  let whole := i.value * i.numerator / i.denominator
  if whole = 0 then 1 - ((i.denominator.log2 - (i.value * i.numerator).log2 : Nat) : Int) * 3 / 10
  else (Nat.toDigits 10 whole).length

/-- Leaves out zeros at the end. -/
def trim : Nat → Scientific → Scientific
  | 0, s => s
  | fuel + 1, s =>
    if s.digits % 10 = 0 then trim fuel ⟨s.digits / 10, s.exponent + 1⟩ else s

/-- The fewest digits that read back as the float with these bits. -/
def digits (bits : Nat) : Scientific :=
  let i := (Binary.ofBits bits).interval
  trim 20 (i.shortest 24 i.magnitude)

/-- The text of a positive number. -/
def Scientific.text (s : Scientific) : String :=
  let ds := Nat.toDigits 10 s.digits
  let point := (ds.length : Int) + s.exponent
  if point < -3 ∨ 16 < point then
    let fraction := if ds.length = 1 then [] else '.' :: ds.drop 1
    String.ofList (ds.take 1 ++ fraction) ++ s!"e{point - 1}"
  else if point ≤ 0 then
    "0." ++ String.ofList (List.replicate (-point).toNat '0' ++ ds)
  else
    let whole := ds.take point.toNat
    let fraction := ds.drop point.toNat
    let zeros := List.replicate (point.toNat - whole.length) '0'
    String.ofList (whole ++ zeros) ++ "." ++
      String.ofList (if fraction.isEmpty then ['0'] else fraction)

/-- The text of a float. -/
def ofFloat (x : Float) : String :=
  if x.isNaN then "NaN"
  else
    let bits := x.toBits.toNat
    let magnitude := bits % Nat.pow 2 63
    let sign := if bits / Nat.pow 2 63 = 1 then "-" else ""
    if x.isInf then sign ++ "inf"
    else if magnitude = 0 then sign ++ "0.0"
    else sign ++ (digits magnitude).text

/-- Splits off the digits at the front. -/
def spanDigits (cs : List Char) : List Char × List Char :=
  (cs.takeWhile Char.isDigit, cs.dropWhile Char.isDigit)

def natOfDigits (cs : List Char) : Nat :=
  cs.foldl (fun n c => 10 * n + (c.toNat - '0'.toNat)) 0

/-- The number after the letter of an exponent, or zero where there is no such letter. -/
def exponent? : List Char → Option Int
  | [] => some 0
  | c :: cs =>
    if c = 'e' ∨ c = 'E' then
      let (negative, cs) := match cs with
        | '-' :: r => (true, r)
        | '+' :: r => (false, r)
        | r => (false, r)
      match spanDigits cs with
      | ([], _) => none
      | (ds, []) => some (if negative then -(natOfDigits ds : Int) else natOfDigits ds)
      | (_, _ :: _) => none
    else none

/-- The float nearest to `m · 10 ^ e`. Beyond the exponents of floats it is zero or infinite. -/
def nearest (m : Nat) (e : Int) : Float :=
  if m = 0 then 0
  else
    let size := (Nat.toDigits 10 m).length + e
    if size < -400 then 0
    else if 400 < size then 1.0 / 0.0
    else Float.ofScientific m (decide (e < 0)) e.natAbs

/-- Reads a float without a sign. -/
def unsigned? (cs : List Char) : Option Float :=
  let word := String.ofList (cs.map Char.toLower)
  if word = "nan" then some (0.0 / 0.0)
  else if word = "inf" ∨ word = "infinity" then some (1.0 / 0.0)
  else
    let (whole, rest) := spanDigits cs
    let (fraction, rest) := match rest with
      | '.' :: r => spanDigits r
      | r => ([], r)
    if whole.isEmpty && fraction.isEmpty then none
    else (exponent? rest).map fun e =>
      nearest (natOfDigits (whole ++ fraction)) (e - fraction.length)

/-- Reads a float. -/
def toFloat? (s : String) : Option Float :=
  match s.toList with
  | '-' :: cs => (unsigned? cs).map fun x => -x
  | '+' :: cs => unsigned? cs
  | cs => unsigned? cs

end Waymark.Decimal
