import Peephole.Build
import Peephole.Refine.Setting
import Peephole.Refine.Ownership

/-!
# Constant folding

Operations on constants are evaluated with the arithmetic of the evaluator, and
the result is brought into the type of the folded node. What has no value stays
as it is. A few operations are decided by one constant operand: unsigned
comparisons with zero, a string's address compared with null, and shifts of or
by zero.
-/

namespace Peephole

open Edit

/-- The literal of a floating operation's result in a type of the same
domain. -/
def Value.literal? (l : Layout) (ty : Ty) : Value → Option Literal
  | .float f => if ty.isFloat then some (.float (ty.normalizeFloat f)) else none
  | .int i => if ty.isInt then some (.int (ty.wrapInt l i)) else none

/-- Put the result of a floating operation in place of `n`, in the type of
`n`. -/
def foldFloatValue (v : Value) : Step := fun n => do
  let d ← node n
  match v.literal? (← layout) d.ty with
  | some lit => do
    let folded ← literal lit d.ty
    fired .foldFloat n
    return some (← replaceBy n folded)
  | none => return none

/-- The literal of an integer result in the type of the folded node. Under a
floating type the integer keeps the common type of the operands, and a
conversion follows. -/
def intResult (ty t0 t1 : Ty) (v : Word) : Edit NodeId := do
  let l ← layout
  if ty.isFloat then
    let common ← intern (Ty.common l t0 t1)
    let lit ← intLiteral (← common.normalizeInt l v) common
    convert lit ty
  else
    intLiteral (← ty.normalizeInt l v) ty

def foldIntBinary (s : Setting) (d d0 d1 : Node) (a b : Word) : Step := fun n => do
  let l ← layout
  let size := max (d0.ty.byteSize l) (d1.ty.byteSize l)
  unless ← require s (size ≤ 8) (.operandTooWide n) do return none
  match intBinary d.code a b (d0.ty.isUnsigned || d1.ty.isUnsigned) (size * 8) with
  | some v => do
    let folded ← intResult d.ty d0.ty d1.ty v
    fired .foldIntBinary n
    return some (← replaceBy n folded)
  | none => return none

def foldBinary (s : Setting) : Step := fun n => do
  let d ← node n
  let (op0, op1) ← operands n
  let d0 ← node op0
  let d1 ← node op1
  match s.optFloat, d0.floatLit?, d1.floatLit? with
  | true, some a, some b =>
    match floatBinary d.code a b with
    | some v => foldFloatValue v n
    | none => return none
  | _, _, _ =>
    match d0.intLit?, d1.intLit? with
    | some a, some b => foldIntBinary s d d0 d1 a b n
    | _, _ => return none

def foldIntUnary (s : Setting) (d operand : Node) (a : Word) : Step := fun n => do
  let l ← layout
  unless ← require s (operand.ty.byteSize l ≤ 8) (.operandTooWide n) do return none
  if !d.ty.isInt then return none
  match intUnary d.code a with
  | some v => do
    let folded ← intLiteral (← d.ty.normalizeInt l v) d.ty
    fired .foldIntUnary n
    return some (← replaceBy n folded)
  | none => return none

def foldUnary (s : Setting) : Step := fun n => do
  let d ← node n
  let operand ← node (← kid n 0)
  match s.optFloat, operand.floatLit? with
  | true, some a =>
    match floatUnary d.code a with
    | some v => foldFloatValue v n
    | none => return none
  | _, _ =>
    match operand.intLit? with
    | some a => foldIntUnary s d operand a n
    | none => return none

/-- Put an integer of the type of `n` in place of `n`. -/
def replaceByInt (n : NodeId) (v : Word) : Edit NodeId := do
  let lit ← intLiteral v (← node n).ty
  replaceBy n lit

/-- Whether `a` is the address of a string literal and `b` is zero. -/
def stringAddressAndNull (a b : Node) : Edit Bool :=
  ask (·.isStringAddress a) <&&> pure (b.isIntLit 0#64)

/-- Operations decided by one constant operand. -/
def substituteBinary : Step := fun n => do
  let d ← node n
  let (op0, op1) ← operands n
  let d0 ← node op0
  let d1 ← node op1
  match d.code with
  | .lt | .ge =>
    if d0.ty.isUnsigned && d1.isIntLit 0#64 then
      fired .unsignedVsZero n
      return some (← replaceByInt n (Word.ofBool (d.code == .ge)))
    return none
  | .eq | .ne =>
    if ← stringAddressAndNull d0 d1 <||> stringAddressAndNull d1 d0 then
      fired .stringAddressVsNull n
      return some (← replaceByInt n (Word.ofBool (d.code == .ne)))
    return none
  | .asr | .lsr | .lsl =>
    if d0.isIntLit 0#64 || d1.isIntLit 0#64 then
      fired .shiftZero n
      return some (← spliceKid n 0)
    if d.code ≠ .lsl then return none
    let bits ← d0.ty.bitWidth (← layout)
    if d1.isIntLit (BitVec.ofNat 64 bits) then
      fired .shiftOutAllBits n
      return some (← replaceByInt n 0#64)
    return none
  | _ => return none

/-- Fold one node whose kids are folded. -/
def foldNode (s : Setting) : Step := fun n => do
  let code := (← node n).code
  if code.isBinary then
    match ← foldBinary s n with
    | some new => return some new
    | none => substituteBinary n
  else match code with
  | .neg | .lnot | .bnot => foldUnary s n
  | _ => return none

/-- Fold the expressions of one slot; whether anything changed. -/
def foldSlot (fold : Pass) (n : NodeId) (i : Nat) : Edit Bool := do
  let ks ← kids n i
  if ← ks.anyM isStmt then return false
  let folded ← ks.mapM fold
  if folded.any (·.2) then
    setKids n i (folded.map (·.1))
    return true
  return false

/-- Fold the tree at a node, at most `fuel` deep. -/
def foldWithin (s : Setting) : Nat → Pass
  | 0, _ => throw .exhausted
  | fuel + 1, n => do
    let slots := (← node n).slots.length
    let changed ← someOf (foldSlot (foldWithin s fuel) n) (List.range slots)
    match ← foldNode s n with
    | some new => return (new, true)
    | none => return (n, changed)

/-- Fold the tree at a node. Where a new node is returned, the old one has been
released. -/
def foldTree (s : Setting) : Pass := fun n => do foldWithin s (← get).depthBound n

end Peephole
