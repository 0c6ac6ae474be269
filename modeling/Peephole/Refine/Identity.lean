import Peephole.Refine.Fold
import Peephole.Refine.Coerce

/-!
# Identities

Steps on a binary node that hold for every value of its operands. The
operands are refined and constants stand on the right before an identity is
tried.
-/

namespace Peephole

open Edit

/-- The integer that stands for a value of the type of `like`; what has no
arithmetic of its own is given by 32 bits. -/
def intLike (like : Node) (v : Word) : Edit NodeId := do
  let ty ←
    if like.ty.isChunk || like.ty.isStr || like.ty.isPointer then scalarType .u32
    else pure like.ty
  intLiteral v ty

/-- An integer in place of `d`: in the type of `d` if that is an integer type,
else as for `like`. -/
def intInPlace (d like : Node) (v : Word) : Edit NodeId :=
  if d.ty.isInt then intLiteral v d.ty else intLike like v

/-- The nodes of a binary node and of its two operands. -/
def withOperands (n : NodeId) : Edit (Node × Node × Node) := do
  let (op0, op1) ← operands n
  return (← node n, ← node op0, ← node op1)

/-- Whether the two operands of `n` are the same tree. -/
def sameOperands (n : NodeId) : Edit Bool := do
  let (op0, op1) ← operands n
  sameTree op0 op1

/-- Put the left operand in place of `n` if the right one fits. -/
def dropRight (fits : Node → Node → Bool) : Step := fun n => do
  let (d, _, right) ← withOperands n
  if fits d right then return some (← spliceKid n 0) else return none

/-- `x + 0` to `x`. -/
def addZero : Step := dropRight fun _ right => right.isIntLit 0#64

/-- `x | 0` to `x`. -/
def borZero : Step := dropRight fun _ right => right.isIntLit 0#64

/-- `x * 1` to `x`. -/
def mulOne : Step := dropRight fun _ right => right.isIntLit 1#64

/-- Whether all bits of a literal are set, in its own type or as a word. -/
def isAllOnes (l : Layout) (d right : Node) : Bool :=
  match right.intLit? with
  | some c =>
    c == BitVec.allOnes 64 ||
      (right.ty == d.ty && c == d.ty.wrapInt l (BitVec.allOnes 64))
  | none => false

/-- `x & -1` to `x`. -/
def bandAllOnes : Step := fun n => do dropRight (isAllOnes (← layout)) n

/-- `x - x` to 0. -/
def subSelf (s : Setting) : Step := fun n => do
  unless ← sameOperands n do return none
  let d ← node n
  if d.ty.isFloat && !s.optFloat then return none
  let zero ← if d.ty.isFloat then floatLiteral 0.0 d.ty else intLiteral 0#64 d.ty
  return some (← replaceBy n zero)

/-- `x / x` to 1. -/
def divSelf (s : Setting) : Step := fun n => do
  unless ← sameOperands n do return none
  let (d, left, _) ← withOperands n
  if left.ty.isFloat && !s.optFloat then return none
  let one ← if left.ty.isFloat then floatLiteral 1.0 left.ty else intInPlace d left 1#64
  return some (← replaceBy n one)

/-- `x ^ x` to 0. -/
def xorSelf (s : Setting) : Step := fun n => do
  unless ← sameOperands n do return none
  let (d, left, _) ← withOperands n
  let integral := left.ty.isInt || left.ty.isPointer || left.ty.isChunk
  unless ← require s integral (.malformed n .xorOperands) do return none
  let zero ← intInPlace d left 0#64
  return some (← replaceBy n zero)

/-- A comparison of a tree with itself. Floating operands might not be
numbers, and so differ from themselves. -/
def compareSelf (s : Setting) (truth : Bool) : Step := fun n => do
  let (d, left, _) ← withOperands n
  if !s.foldConst || left.ty.isFloat then return none
  unless ← sameOperands n do return none
  let lit ← intLiteral (Word.ofBool truth) d.ty
  return some (← replaceBy n lit)

/-- Put 0 in place of `n` if the right operand is the literal `c`. -/
def zeroIfRight (c : Word) : Step := fun n => do
  let (d, _, right) ← withOperands n
  if !right.isIntLit c then return none
  let zero ← intInPlace d right 0#64
  return some (← replaceBy n zero)

/-- `x * 0` to 0. -/
def mulZero : Step := zeroIfRight 0#64

/-- `x % 1` to 0. -/
def remOne : Step := zeroIfRight 1#64

/-- Turn `x * c` into `x + x`. The copy of `x` gets its accesses and edges. -/
def double (n : NodeId) : Edit NodeId := do
  let (op0, op1) ← operands n
  discard (takeKid n 1)
  discardTree op1
  let copy ← duplicate op0
  if ← hasEdges then copyTreeAccess copy op0
  setCode n .add
  setKid n 1 (some copy)
  return n

/-- `x * 2.0` to `x + x`. -/
def mulFloatTwo (s : Setting) : Step := fun n => do
  let (_, left, right) ← withOperands n
  if s.optFloat && !left.isConst && right.floatLit? == some 2.0 then return some (← double n)
  return none

/-- `x * 2` to `x + x`. -/
def mulIntTwo : Step := fun n => do
  let (_, _, right) ← withOperands n
  if right.isIntLit 2#64 then return some (← double n) else return none

/-- Make `n` a shift by the exponent of the power of two on its right. -/
def shiftBy (code : Op) (allowed : Node → Bool) : Step := fun n => do
  let (_, op1) ← operands n
  let (_, left, right) ← withOperands n
  match right.intLit? with
  | some c => do
    if !c.isPowerOfTwo || !allowed left then return none
    setCode n code
    modifyNode op1 (·.setLiteral (.int (BitVec.ofNat 64 c.trailingZeros)))
    return some n
  | none => return none

/-- `x * 2 ^ k` to `x << k`. -/
def mulPowerOfTwo (s : Setting) : Step :=
  shiftBy .lsl fun left => s.mulByShift && left.ty.isInt

/-- Unsigned `x / 2 ^ k` to `x >> k`. -/
def divPowerOfTwo (s : Setting) : Step :=
  shiftBy .lsr fun left => s.divByShift && left.ty.isInt && left.ty.isUnsigned

/-- Whether a whole number of at most 53 bits is a power of `base`. -/
def isPowerOf (base m : Nat) : Bool := (List.range 53).any (Nat.pow base · == m)

/-- Whether the division by `c` may become a multiplication: `c` is whole, of
at most 53 bits, and a power of 2 or 5 up to its sign. -/
def hasReciprocal (c : Float) : Bool :=
  let size := c.abs
  if size.floor != size || size ≥ 9007199254740992.0 then false
  else isPowerOf 2 size.toUInt64.toNat || isPowerOf 5 size.toUInt64.toNat

/-- `x / 1.0` to `x`, and `x / c` to `x * (1 / c)` where `hasReciprocal c`. -/
def divFloatConst (s : Setting) : Step := fun n => do
  let (_, op1) ← operands n
  let (_, left, right) ← withOperands n
  match right.floatLit? with
  | some c => do
    if !s.optFloat || left.isConst || c == 0.0 then return none
    if c == 1.0 then return some (← spliceKid n 0)
    if !hasReciprocal c then return none
    setCode n .mul
    modifyNode op1 (·.setLiteral (.float (right.ty.normalizeFloat (1.0 / c))))
    return some n
  | none => return none

/-- `1 && x` to the truth of `x`. -/
def landOne (s : Setting) : Step := fun n => do
  let (d, left, _) ← withOperands n
  if !left.isIntLit 1#64 then return none
  let x ← spliceKid n 1
  let judged ← if (← node x).code.isJudge then pure x else judgement x
  return some (← retype s judged d.ty)

/-- `1 || x` to 1. -/
def lorOne : Step := fun n => do
  let (_, left, _) ← withOperands n
  if left.isIntLit 1#64 then return some (← spliceKid n 0) else return none

/-- The identities of an operation, in the order in which they are tried. -/
def identities (s : Setting) : Op → List (Rule × Step)
  | .add => [(.addZero, addZero)]
  | .sub => [(.subSelf, subSelf s)]
  | .mul =>
    [(.mulFloatTwo, mulFloatTwo s), (.mulIntTwo, mulIntTwo), (.mulOne, mulOne),
      (.mulZero, mulZero), (.mulPowerOfTwo, mulPowerOfTwo s)]
  | .div =>
    [(.divFloatConst, divFloatConst s), (.divPowerOfTwo, divPowerOfTwo s), (.divSelf, divSelf s)]
  | .rem | .mod => [(.remOne, remOne)]
  | .band => [(.bandAllOnes, bandAllOnes)]
  | .bor => [(.borZero, borZero)]
  | .xor => [(.xorSelf, xorSelf s)]
  | .land => [(.landOne, landOne s)]
  | .lor => [(.lorOne, lorOne)]
  | .eq => [(.eqSelf, compareSelf s true)]
  | .ne => [(.neSelf, compareSelf s false)]
  | _ => []

/-- The first of the given rules that fires. -/
def applyFirst : List (Rule × Step) → Step
  | [], _ => return none
  | (rule, step) :: rest, n => do
    match ← step n with
    | some new => do
      fired rule n
      return some new
    | none => applyFirst rest n

end Peephole
