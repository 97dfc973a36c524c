/-!
# Decimals that identify a float

A finite float is m · 2^q. The reals that round to it form an interval around it, and the decimal that
is written for the float is the one with the fewest digits in this interval, and of those the nearest.
The search compares exact natural numbers only: it tries one digit, two digits and so on, and for each
count the two neighbours of the value on that grid of decimals.

How the digits are laid out is a matter of the place they are written to, see `Layout`.
-/

namespace SwiftTidy.Data

/-- A positive decimal: `digits` times ten to the power of `exponent`. -/
structure Decimal where
  digits : Nat
  exponent : Int
  deriving DecidableEq, Repr

/-- A positive binary fraction with the interval of the reals that round to it. All three numbers are
over the denominator `scale`. -/
structure Binary where
  value : Nat
  low : Nat
  high : Nat
  scale : Nat
  /-- Whether the ends belong to the interval. -/
  closed : Bool
  deriving Repr

namespace Binary

/-- The magnitude of a finite float that is not zero. -/
def ofFloat (x : Float) : Binary :=
  let bits : Nat := x.toBits.toNat % Nat.pow 2 63
  let biased : Nat := bits / Nat.pow 2 52
  let fraction : Nat := bits % Nat.pow 2 52
  let m : Nat := if biased == 0 then fraction else fraction + Nat.pow 2 52
  let q : Int := (if biased == 0 then 1 else (biased : Int)) - 1075
  -- Below a power of two the grid of floats is twice as fine.
  let below := if fraction == 0 && biased > 1 then 1 else 2
  let up := if q ≥ 0 then Nat.pow 2 q.toNat else 1
  let down := if q ≥ 0 then 1 else Nat.pow 2 (-q).toNat
  { value := 4 * m * up
    low := (4 * m - below) * up
    high := (4 * m + 2) * up
    scale := 4 * down
    closed := m % 2 == 0 }

/-- Whether `digits` times ten to the power of `exponent` lies in the interval. -/
def admits (b : Binary) (digits : Nat) (exponent : Int) : Bool :=
  let scaled := if exponent ≥ 0 then digits * Nat.pow 10 exponent.toNat * b.scale else digits * b.scale
  let unit := if exponent ≥ 0 then 1 else Nat.pow 10 (-exponent).toNat
  if b.closed then b.low * unit ≤ scaled && scaled ≤ b.high * unit
  else b.low * unit < scaled && scaled < b.high * unit

/-- The decimal exponent of the first digit: the greatest power of ten that the value reaches. -/
def leading (b : Binary) : Int :=
  if b.value ≥ b.scale then
    ((Nat.toDigits 10 (b.value / b.scale)).length : Int) - 1
  else
    -((Nat.toDigits 10 ((b.scale - 1) / b.value)).length : Int)

/-- The decimal on the grid of powers `exponent` that stands for the value, if one does: of the two
neighbours of the value the nearer that lies in the interval, the even one if both are as near. -/
def onGrid? (b : Binary) (exponent : Int) : Option Decimal :=
  let numerator := if exponent ≥ 0 then b.value else b.value * Nat.pow 10 (-exponent).toNat
  let denominator := if exponent ≥ 0 then b.scale * Nat.pow 10 exponent.toNat else b.scale
  let lower := numerator / denominator
  let remainder := numerator % denominator
  let upper := if remainder == 0 then lower else lower + 1
  let isLowerNearer :=
    2 * remainder < denominator || (2 * remainder == denominator && lower % 2 == 0)
  let nearer := if isLowerNearer then lower else upper
  let farther := if isLowerNearer then upper else lower
  if b.admits nearer exponent then some ⟨nearer, exponent⟩
  else if b.admits farther exponent then some ⟨farther, exponent⟩
  else none

/-- The decimal with the fewest digits that identifies the value. Seventeen digits always suffice. A
neighbour on the first grid may be ten, which is one on the grid above. -/
def shortest (b : Binary) : Decimal :=
  let found := (List.range 17).findSome? fun (n : Nat) => b.onGrid? (b.leading - n)
  let d := found.getD ⟨b.value / b.scale, 0⟩
  if d.digits == 10 then ⟨1, d.exponent + 1⟩ else d

end Binary

/-- How a decimal is laid out. The number of places before the point decides between the two
notations. -/
structure Layout where
  /-- The least exponent of the first digit that is written without a power of ten. -/
  plainFrom : Int
  /-- The first exponent that is written with a power of ten again. -/
  plainBelow : Int

namespace Layout

def isPlain (layout : Layout) (leading : Int) : Bool :=
  layout.plainFrom ≤ leading && leading < layout.plainBelow

/-- A positive decimal, with a point also where its value is whole, unless a power of ten follows. The
power has a sign and no zeros in front. -/
def magnitude (layout : Layout) (d : Decimal) : String :=
  let digits := Nat.toDigits 10 d.digits
  let leading : Int := d.exponent + digits.length - 1
  let zeros (n : Int) : List Char := List.replicate n.toNat '0'
  if layout.isPlain leading then
    if d.exponent ≥ 0 then
      String.ofList (digits ++ zeros d.exponent ++ ['.', '0'])
    else if leading ≥ 0 then
      let whole := (leading + 1).toNat
      String.ofList (digits.take whole ++ ['.'] ++ digits.drop whole)
    else
      String.ofList (['0', '.'] ++ zeros (-leading - 1) ++ digits)
  else
    let mantissa :=
      match digits with
      | first :: second :: rest => first :: '.' :: second :: rest
      | short => short
    let mark := if leading < 0 then "e-" else "e+"
    String.ofList mantissa ++ mark ++ toString leading.natAbs

/-- A finite float. -/
def render (layout : Layout) (x : Float) : String :=
  let negative := x.toBits.toNat ≥ Nat.pow 2 63
  let magnitude :=
    if x == 0 then "0.0" else layout.magnitude (Binary.ofFloat x).shortest
  if negative then "-" ++ magnitude else magnitude

def compact : Layout := { plainFrom := -5, plainBelow := 16 }

end Layout

end SwiftTidy.Data
