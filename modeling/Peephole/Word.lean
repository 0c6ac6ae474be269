/-!
# Machine words

Integer values are 64-bit words. A value of a narrower type is kept extended to
64 bits by its signedness, so `signExtended` and `zeroExtended` give the two
readings of the low bits of a word.
-/

namespace Peephole

abbrev Word := BitVec 64

namespace Word

/-- The low `bits` bits read as a signed number. -/
def signExtended (v : Word) (bits : Nat) : Word :=
  if 64 ≤ bits then v else (v.setWidth bits).signExtend 64

/-- The low `bits` bits read as an unsigned number. -/
def zeroExtended (v : Word) (bits : Nat) : Word :=
  if 64 ≤ bits then v else (v.setWidth bits).setWidth 64

def ofBool (b : Bool) : Word := if b then 1#64 else 0#64

/-- A positive power of two, the word being read as a signed number. -/
def isPowerOfTwo (v : Word) : Bool :=
  BitVec.slt 0#64 v && v &&& (v - 1#64) == 0#64

/-- The number of zeros below the lowest set bit. -/
def trailingZeros (v : Word) : Nat :=
  ((List.range 64).find? v.getLsbD).getD 64

def toFloat (v : Word) : Float := (Int64.ofBitVec v).toFloat

def toFloatUnsigned (v : Word) : Float := (UInt64.ofBitVec v).toFloat

/-- Drop the fraction; what does not fit goes to the nearest end, and what is
not a number to zero. -/
def ofFloat (f : Float) : Word := f.toInt64.toBitVec

end Word

/-- The range of an address offset. -/
def fitsOffset (v : Int) : Bool := -9223372036854775808 ≤ v && v ≤ 9223372036854775807

end Peephole
