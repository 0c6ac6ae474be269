/-!
# Decimals of binary fractions

The fewest digits that single out a binary floating number among its
neighbours, and their layout. Digits are selected by exact arithmetic on the
interval of the numbers that round to the given one.
-/

namespace Peephole.Text

/-- The number `digits * 10 ^ exponent`. -/
structure Decimal where
  digits : Nat
  exponent : Int
  deriving DecidableEq, Repr

/-- A positive number and the ends of its rounding interval, as numerators over
one denominator. -/
structure RoundingInterval where
  low : Nat
  value : Nat
  high : Nat
  denominator : Nat
  /-- Whether the ends round to the number as well. -/
  closed : Bool

namespace RoundingInterval

/-- The interval of `mantissa * 2 ^ exponent`. Below a power of two the
neighbour is half as far away, except at the least exponent. -/
def ofBinary (mantissa : Nat) (exponent : Int) (powerOfTwo : Bool) : RoundingInterval :=
  let scale := Nat.pow 2 (exponent - 2).toNat
  { low := (4 * mantissa - (if powerOfTwo then 1 else 2)) * scale
    value := 4 * mantissa * scale
    high := (4 * mantissa + 2) * scale
    denominator := Nat.pow 2 (2 - exponent).toNat
    closed := mantissa % 2 == 0 }

/-- The number of digits in front of the point, or, negated, the number of
zeros that follow it: the `k` with `10 ^ (k - 1) ≤ value < 10 ^ k`. -/
def magnitude (r : RoundingInterval) : Int :=
  if r.denominator ≤ r.value then (r.value / r.denominator).repr.length
  else 1 - ((r.denominator - 1) / r.value).repr.length

/-- The numerator of a multiple of `10 ^ e`, and the scale of the interval's
numerators beside it. -/
def onGrid (r : RoundingInterval) (e : Int) (c : Nat) : Nat × Nat :=
  (c * Nat.pow 10 e.toNat * r.denominator, Nat.pow 10 (-e).toNat)

def admits (r : RoundingInterval) (e : Int) (c : Nat) : Bool :=
  let (x, scale) := r.onGrid e c
  if r.closed then r.low * scale ≤ x && x ≤ r.high * scale
  else r.low * scale < x && x < r.high * scale

/-- The multiple of `10 ^ e` inside the interval next to the value; the upper
one if two are as near. -/
def nearest? (r : RoundingInterval) (e : Int) : Option Decimal :=
  let (unit, scale) := r.onGrid e 1
  let below := r.value * scale / unit
  let above := below + 1
  match r.admits e below, r.admits e above with
  | true, true =>
    if r.value * scale - below * unit < above * unit - r.value * scale then some ⟨below, e⟩
    else some ⟨above, e⟩
  | true, false => some ⟨below, e⟩
  | false, true => some ⟨above, e⟩
  | false, false => none

/-- The decimal with the fewest digits inside the interval, the nearest of
those. Seventeen digits always suffice. -/
def shortest (r : RoundingInterval) : Decimal :=
  let k := r.magnitude
  ((List.range 17).findSome? fun n => r.nearest? (k - (n + 1 : Nat))).getD ⟨0, 0⟩

end RoundingInterval

/-- Drop trailing zeros of the digits, at most `fuel` of them. -/
def Decimal.trimmed : Nat → Decimal → Decimal
  | 0, d => d
  | fuel + 1, d =>
    if d.digits != 0 && d.digits % 10 == 0 then trimmed fuel ⟨d.digits / 10, d.exponent + 1⟩ else d

/-- How a decimal is laid out. -/
structure NumberFormat where
  /-- The least and the first too large exponent of ten written without one. -/
  positionalFrom : Int
  positionalBelow : Int
  exponentMark : String
  /-- What a whole number ends with. -/
  wholeEnd : String
  notANumber : String
  infinity : String

namespace NumberFormat

def zeros (n : Nat) : String := String.ofList (List.replicate n '0')

/-- Digits with a point and no exponent. -/
def positional (f : NumberFormat) (ds : List Char) (point : Int) : String :=
  if point ≤ 0 then "0." ++ zeros (-point).toNat ++ String.ofList ds
  else if ds.length ≤ point.toNat then
    String.ofList ds ++ zeros (point.toNat - ds.length) ++ f.wholeEnd
  else String.ofList (ds.take point.toNat) ++ "." ++ String.ofList (ds.drop point.toNat)

/-- One digit, a point if there are more, and the exponent. -/
def scientific (f : NumberFormat) (ds : List Char) (exponent : Int) : String :=
  let fraction := ds.drop 1
  let point := if fraction.isEmpty then "" else "."
  String.ofList (ds.take 1) ++ point ++ String.ofList fraction ++ f.exponentMark ++ exponent.repr

def layout (f : NumberFormat) (d : Decimal) : String :=
  let ds := Nat.toDigits 10 d.digits
  let point : Int := ds.length + d.exponent
  if f.positionalFrom ≤ point - 1 && point - 1 < f.positionalBelow then f.positional ds point
  else f.scientific ds (point - 1)

/-- The bit in front of the 52 stored ones of a binary64 mantissa. -/
def hiddenBit : Nat := 4503599627370496

/-- The text of a positive finite number given by its fields. -/
def finite (f : NumberFormat) (exponentField fraction : Nat) : String :=
  let r :=
    if exponentField = 0 then RoundingInterval.ofBinary fraction (-1074) false
    else RoundingInterval.ofBinary (hiddenBit + fraction) (exponentField - 1075)
      (fraction == 0 && exponentField != 1)
  f.layout (Decimal.trimmed 17 r.shortest)

/-- The text of a binary64 number. -/
def text (f : NumberFormat) (v : Float) : String :=
  let bits := v.toBits.toNat
  let exponentField := bits / hiddenBit % 2048
  let fraction := bits % hiddenBit
  let sign := if bits / hiddenBit / 2048 = 1 then "-" else ""
  if exponentField = 2047 then
    if fraction = 0 then sign ++ f.infinity else f.notANumber
  else if exponentField = 0 && fraction = 0 then sign ++ "0" ++ f.wholeEnd
  else sign ++ f.finite exponentField fraction

end NumberFormat

end Peephole.Text
