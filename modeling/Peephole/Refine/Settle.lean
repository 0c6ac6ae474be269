import Peephole.Refine.Identity
import Peephole.Refine.Phi

/-!
# Binary operators

A binary node whose operands are refined is settled by steps that are tried in
this order: fold it, move a lone constant to the right, merge constants of
nested operations, apply an identity, decide a comparison of phis, and balance
the operand types. After a step the node in place is settled again, until no
step fires.
-/

namespace Peephole

open Edit

/-- Refine the expression in slot `i` of `n`, if there is one; whether anything
changed. -/
def refineSlot (refine : Pass) (n : NodeId) (i : Nat) : Edit Bool := do
  match ← ask (·.kid? n i) with
  | none => return false
  | some k => do
    let (new, changed) ← refine k
    if new ≠ k then setKid n i (some new)
    return changed

/-- Refine all expressions in slot `i` of `n`; whether anything changed. -/
def refineSlotList (refine : Pass) (n : NodeId) (i : Nat) : Edit Bool := do
  let ks ← kids n i
  let refined ← ks.mapM refine
  let new := refined.map (·.1)
  if new ≠ ks then setKids n i new
  return refined.any (·.2)

/-- The operation after the operands change places, if they may. -/
def Op.commuted? (code : Op) : Option Op :=
  if code.isCommutative || code.isRelation then some code.swapped else none

/-- Move a constant left operand to the right of an operand that is none;
whether it was moved. -/
def commute (n : NodeId) : Edit Bool := do
  match (← node n).code.commuted? with
  | none => return false
  | some code => do
    let (op0, op1) ← operands n
    if !(← node op0).isConst then return false
    if (← node op1).isConst then return false
    discard (takeKid n 0)
    discard (takeKid n 1)
    setKid n 0 (some op1)
    setKid n 1 (some op0)
    setCode n code
    fired .commute n
    return true

/-- Whether `(x inner c1) outer c2` may become `x inner (c1 outer c2)`. -/
def mayMerge (outer inner : Node) : Bool :=
  inner.code.isAssociative && (outer.code.isAssociative || outer.code == .sub) &&
    inner.code.precedence == outer.code.precedence && inner.ty == outer.ty

/-- The type of the constant that merges two under a node of type `ty`. -/
def mergedType (ty right : Ty) : Edit Ty := do
  let l ← layout
  if ty.isPointer then scalarType l.addressScalar
  else if ty.isChunk then scalarType (l.wordScalar true)
  else return right

/-- `(x inner c1) outer c2` to `x inner (c1 outer c2)`. -/
def mergeConstants (s : Setting) : Step := fun n => do
  let outer ← node n
  let (op0, op1) ← operands n
  let right ← node op1
  match right.intLit? with
  | none => return none
  | some c2 => do
    let inner ← node op0
    if !mayMerge outer inner then return none
    let innerConst ← kid op0 1
    let innerRight ← node innerConst
    match innerRight.intLit? with
    | none => return none
    | some c1 => do
      let l ← layout
      let size := max (innerRight.ty.byteSize l) (right.ty.byteSize l)
      unless ← require s (size ≤ 8) (.operandTooWide n) do return none
      let unsigned := innerRight.ty.isUnsigned || right.ty.isUnsigned
      match intBinary outer.code c1 c2 unsigned (size * 8) with
      | none => return none
      | some v => do
        let ty ← mergedType outer.ty right.ty
        let merged ← intLiteral (← ty.normalizeInt l v) ty
        discard (takeKid op0 1)
        discardTree innerConst
        setKid op0 1 (some merged)
        fired .reassociate n
        return some (← spliceKid n 0)

/-- Operations over which constants are merged. -/
def Op.mergesConstants (code : Op) : Bool := code.isCommutative || code == .sub

def mergeStep (s : Setting) : Step := fun n => do
  if s.reassociate && (← node n).code.mergesConstants then mergeConstants s n else return none

def foldStep (s : Setting) : Step := fun n => do
  if !s.foldConst then return none
  let (new, changed) ← foldTree s n
  return if changed then some new else none

def commuteStep : Step := fun n => do return if ← commute n then some n else none

def identityStep (s : Setting) : Step := fun n => do
  applyFirst (identities s (← node n).code) n

def phiStep : Step := fun n => do
  if (← node n).code.isRelation then decideByPhis n else return none

/-- Balance the operands, and refine the conversions that this puts in. -/
def coerceStep (s : Setting) (refine : Pass) : Step := fun n => do
  if !s.insertCvt then return none
  unless ← coerceOperands s n do return none
  discard (refineSlot refine n 0)
  discard (refineSlot refine n 1)
  return some n

/-- The first step that fires. -/
def firstOf : List Step → Step
  | [], _ => return none
  | step :: rest, n => do
    match ← step n with
    | some new => return some new
    | none => firstOf rest n

/-- One step on a binary node. With `foldNode` off the node itself is not
decided by constants, while its operands are. -/
def settleStep (s : Setting) (refine : Pass) (foldNode : Bool) : Step := fun n => do
  let own : Setting := { s with foldConst := s.foldConst && foldNode }
  if !(← node n).code.isBinary then return none
  firstOf
    [foldStep own, commuteStep, mergeStep s, identityStep own, phiStep, coerceStep s refine] n

/-- Repeat a step until it does not fire, at most `fuel` times; whether it
fired. -/
def repeatStep (step : Step) : Nat → Pass
  | 0, _ => throw .exhausted
  | fuel + 1, n => do
    match ← step n with
    | some new => do
      let (last, _) ← repeatStep step fuel new
      return (last, true)
    | none => return (n, false)

/-- A bound on the steps at one node. A product may become a sum of two copies of
its operand, so the bound doubles with every node of the region. -/
def Region.stepBound (r : Region) : Nat := Nat.pow 2 (r.nodes.size + 9)

/-- Settle a binary node whose operands are refined. -/
def settle (s : Setting) (refine : Pass) (foldNode : Bool) : Pass := fun n => do
  repeatStep (settleStep s refine foldNode) (← get).stepBound n

/-- Refine a binary node. -/
def refineBinary (s : Setting) (refine : Pass) (foldNode : Bool) : Pass := fun n => do
  let left ← refineSlot refine n 0
  let right ← refineSlot refine n 1
  let (new, settled) ← settle s refine foldNode n
  return (new, left || right || settled)

end Peephole
