import Peephole.Ty

/-!
# Values and scalar arithmetic

Values and the operations on them. The evaluator computes with these, and so
does constant folding.
-/

namespace Peephole

inductive Value
  | int (v : Word)
  | float (v : Float)

namespace Value

def isTrue : Value → Bool
  | .int v => v != 0#64
  | .float v => v != 0.0

/-- Bring a value into a type: integers become floats under a floating type
and floats lose their fraction under any other. -/
def normalize (l : Layout) (t : Ty) : Value → Except Fault Value
  | .int v =>
    if t.isFloat then .ok (.float (t.normalizeFloat v.toFloat))
    else do return .int (← t.normalizeInt l v)
  | .float v =>
    if t.isFloat then .ok (.float (t.normalizeFloat v))
    else do return .int (← t.normalizeInt l (Word.ofFloat v))

end Value

/-- A quotient or remainder, or nothing when the divisor is zero. The
operands are extended words; the smallest number divided by -1 wraps. -/
def divide (code : Op) (unsigned : Bool) (a b : Word) : Option Word :=
  if b = 0#64 then none
  else match code, unsigned with
  | .div, true => some (a.udiv b)
  | .div, false => some (a.sdiv b)
  | _, true => some (a.umod b)
  | _, false => some (a.srem b)

/-- The comparison of two extended words. -/
def compareWords (code : Op) (unsigned : Bool) (a b : Word) : Bool :=
  let below (x y : Word) : Bool := if unsigned then x.ult y else x.slt y
  match code with
  | .lt => below a b
  | .le => !below b a
  | .gt => below b a
  | .ge => !below a b
  | .eq => a == b
  | _ => a != b

/-- Integer operator on operands of `bits` bits (at least 1, at most 64).
Sums, products and bit patterns are those of the full words, so the result
still has to be normalized. There is none for a zero divisor, for a shift
amount outside `0 .. bits - 1`, and for an operation that is not binary. -/
def intBinary (code : Op) (a b : Word) (unsigned : Bool) (bits : Nat) : Option Word :=
  let bits := max 1 (min bits 64)
  let reading (v : Word) : Word :=
    if unsigned then v.zeroExtended bits else v.signExtended bits
  match code with
  | .add => some (a + b)
  | .sub => some (a - b)
  | .mul => some (a * b)
  | .div | .rem | .mod => divide code unsigned (reading a) (reading b)
  | .land => some (Word.ofBool (a != 0#64 && b != 0#64))
  | .lor => some (Word.ofBool (a != 0#64 || b != 0#64))
  | .band => some (a &&& b)
  | .bor => some (a ||| b)
  | .xor => some (a ^^^ b)
  | .asr => if b.toNat < bits then some ((a.signExtended bits).sshiftRight b.toNat) else none
  | .lsr => if b.toNat < bits then some ((a.zeroExtended bits) >>> b.toNat) else none
  | .lsl => if b.toNat < bits then some (a <<< b.toNat) else none
  | .lt | .le | .gt | .ge | .eq | .ne =>
    some (Word.ofBool (compareWords code unsigned (reading a) (reading b)))
  | _ => none

def intUnary : Op → Word → Option Word
  | .neg, v => some (-v)
  | .lnot, v => some (Word.ofBool (v == 0#64))
  | .bnot, v => some (~~~v)
  | _, _ => none

/-- Floating operator. Comparisons give 0 or 1; a quotient by zero has no
value. -/
def floatBinary (code : Op) (a b : Float) : Option Value :=
  let truth (c : Bool) : Option Value := some (.int (Word.ofBool c))
  match code with
  | .add => some (.float (a + b))
  | .sub => some (.float (a - b))
  | .mul => some (.float (a * b))
  | .div => if b == 0.0 then none else some (.float (a / b))
  | .lt => truth (a < b)
  | .le => truth (a ≤ b)
  | .gt => truth (b < a)
  | .ge => truth (b ≤ a)
  | .eq => truth (a == b)
  | .ne => truth (a != b)
  | _ => none

def floatUnary : Op → Float → Option Value
  | .neg, v => some (.float (-v))
  | .lnot, v => some (.int (Word.ofBool (v == 0.0)))
  | _, _ => none

/-- The sum of two offsets, kept in 64 bits. -/
def addOffsets (a b : Int) : Except Fault Int :=
  if fitsOffset (a + b) then .ok (a + b) else .error .overflow

end Peephole
