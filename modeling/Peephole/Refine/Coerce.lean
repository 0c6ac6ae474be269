import Peephole.Build
import Peephole.Refine.Setting

/-!
# Conversions between operand types
-/

namespace Peephole

open Edit

/-- Give an integer literal another type, which its value is brought into. -/
def restamp (s : Setting) (lit : NodeId) (ty : Ty) : Edit Unit := do
  match (← node lit).intLit? with
  | some v => do
    let v ← ty.normalizeInt (← layout) v
    modifyNode lit fun d => { d.setLiteral (.int v) with ty }
  | none => discard (require s false (.nonConstOperand lit))

/-- Let `new`, in place of a node of type `ty`, give a value of that type:
integer literals are restamped, other values converted. Types that are not
integers, and the booleans, take `new` as it is. -/
def retype (s : Setting) (new : NodeId) (ty : Ty) : Edit NodeId := do
  let d ← node new
  if d.ty = ty || ty.isBool || !ty.isInt then return new
  if d.intLit?.isSome then
    restamp s new ty
    return new
  convert new ty

/-- The type that an integer literal takes to fit a parent's type. -/
def literalType (parentTy : Ty) : Edit Ty := do
  if parentTy.isPointer then scalarType (← layout).addressScalar else return parentTy

/-- Let an operand fit a parent whose operands have a wider type. Literals are
restamped, and other operands converted; nothing is done for untyped and
floating operands. -/
def fitOperand (s : Setting) (parentTy : Ty) : Pass := fun kid => do
  let d ← node kid
  let l ← layout
  if parentTy.isVoid || d.ty.isVoid then return (kid, false)
  if parentTy.isVector || d.ty.isVector then
    discard (require s (parentTy.byteSize l == d.ty.byteSize l) (.vectorShapes kid))
    return (kid, false)
  if parentTy.isFloat || d.ty.isFloat then return (kid, false)
  if parentTy.byteSize l ≤ d.ty.byteSize l then return (kid, false)
  if d.intLit?.isSome && !parentTy.isStr then
    restamp s kid (← literalType parentTy)
    fired .restampLiteral kid
    return (kid, true)
  fired .insertCvt kid
  return (← convert kid parentTy, true)

/-- `fitOperand` for the node in slot `i` of `n`; whether anything changed. -/
def fitSlot (s : Setting) (n : NodeId) (i : Nat) (ty : Ty) : Edit Bool := do
  let k ← kid n i
  let (new, changed) ← fitOperand s ty k
  if new ≠ k then setKid n i (some new)
  return changed

/-- Convert the operand in slot `i` of `n`. -/
def wrapOperand (n : NodeId) (i : Nat) (ty : Ty) : Edit Unit := do
  let k ← kid n i
  discard (takeKid n i)
  let cvt ← convert k ty
  setKid n i (some cvt)
  fired .balanceOperands n

/-- Bring an addend that is wider than the pointer in front of it to the
pointer's width. -/
def balanceAddend (s : Setting) (n : NodeId) (t0 t1 : Ty) : Edit Bool := do
  let l ← layout
  if t1.byteSize l ≤ t0.byteSize l then return false
  unless ← require s t1.isPointerAddend (.illegalPointerArith n) do return false
  wrapOperand n 1 (← scalarType l.addressScalar)
  return true

/-- Bring both operands to the width of their common type. -/
def balanceWidths (n : NodeId) (t0 t1 : Ty) : Edit Bool := do
  let l ← layout
  let common ← intern (Ty.common l t0 t1)
  [(0, t0), (1, t1)] |> someOf fun (i, t) => do
    if t.byteSize l == common.byteSize l then return false
    wrapOperand n i common
    return true

/-- Balance the operand types of a binary node; whether a conversion was put
in. Chunks and vectors cannot be converted, and a pointer may stand on the
right only in a comparison. -/
def balanceOperands (s : Setting) (n : NodeId) : Edit Bool := do
  let (op0, op1) ← operands n
  let t0 := (← node op0).ty
  let t1 := (← node op1).ty
  let l ← layout
  if t0.isVoid || t1.isVoid || t0 = t1 then return false
  if t0.isChunk || t1.isChunk then
    discard (require s (t0.byteSize l == t1.byteSize l) (.aggregateSizes n))
    return false
  if t0.isPointer then return ← balanceAddend s n t0 t1
  if !(← node n).code.isRelation then
    unless ← require s (!t1.isPointer) (.illegalPointerArith n) do return false
  if t0.isVector || t1.isVector then
    discard (require s false (.vectorShapes n))
    return false
  balanceWidths n t0 t1

/-- Fit both operands of `n` to its own type, then to each other; whether
anything changed. -/
def coerceOperands (s : Setting) (n : NodeId) : Edit Bool := do
  let ty := (← node n).ty
  let fitted ← someOf (fitSlot s n · ty) [0, 1]
  let balanced ← balanceOperands s n
  return fitted || balanced

end Peephole
