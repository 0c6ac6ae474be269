import Peephole.Refine.Settle

/-!
# Unary operators and selections
-/

namespace Peephole

open Edit

/-- Fold the tree at `n` if that is asked for. -/
def foldIfAsked (s : Setting) : Pass := fun n =>
  if s.foldConst then foldTree s n else return (n, false)

/-- A negation whose operand is refined. The negation of a comparison becomes
the inverted comparison. -/
def settleNot (s : Setting) (refine : Pass) : Pass := fun n => do
  let operand ← kid n 0
  let inverted? := (← node operand).code.inverted?
  let d ← node n
  match d.code, inverted? with
  | .lnot, some inverted => do
    setCode operand inverted
    discard (takeKid n 0)
    release n
    fired .lnotOfRelation n
    let (new, _) ← settle s refine true operand
    return (← retype s new d.ty, true)
  | _, _ => foldIfAsked s n

def refineNot (s : Setting) (refine : Pass) : Pass := fun n => do
  let below ← refineSlot refine n 0
  let (new, settled) ← settleNot s refine n
  return (new, below || settled)

/-- Fold, or else turn `-(-x)` into `x`. -/
def refineNeg (s : Setting) (refine : Pass) : Pass := fun n => do
  let below ← refineSlot refine n 0
  let (folded, changed) ← foldIfAsked s n
  if changed then return (folded, true)
  let inner ← kid n 0
  if (← node inner).code ≠ .neg then return (n, below)
  let x ← kid inner 0
  discard (takeKid inner 0)
  discardTree n
  fired .doubleNeg n
  return (x, true)

/-- Whether every value of one type is kept by a conversion to another. -/
def keepsValues (l : Layout) (source target : Ty) : Bool :=
  if source.isInt && target.isInt then
    source == target ||
      (source.byteSize l < target.byteSize l && (target.isSigned || !source.isSigned))
  else source.isFloat && target.isFloat && source.byteSize l ≤ target.byteSize l

/-- Drop a conversion below the conversion `n` if it keeps all values; whether
it was dropped. -/
def dropInnerCvt (n : NodeId) : Edit Bool := do
  let inner ← kid n 0
  let d ← node inner
  if d.code ≠ .cvt then return false
  let x ← kid inner 0
  if !keepsValues (← layout) (← node x).ty d.ty then return false
  discard (takeKid inner 0)
  discard (takeKid n 0)
  release inner
  setKid n 0 (some x)
  fired .nestedCvt n
  return true

/-- A conversion of a literal of the same domain becomes a literal. -/
def foldCvt (s : Setting) (ty : Ty) : Step := fun n => do
  let operand ← kid n 0
  let d ← node operand
  if d.intLit?.isSome && ty.isInt then
    restamp s operand ty
    fired .foldCvtInt n
    return some (← spliceKid n 0)
  match d.floatLit?, ty.isFloat with
  | some v, true => do
    modifyNode operand fun d => { d.setLiteral (.float (ty.normalizeFloat v)) with ty }
    fired .foldCvtFloat n
    return some (← spliceKid n 0)
  | _, _ => return none

def refineCvt (s : Setting) (refine : Pass) : Pass := fun n => do
  let below ← refineSlot refine n 0
  let dropped ← dropInnerCvt n
  let operand ← kid n 0
  let ty := (← node n).ty
  if (← node operand).ty = ty then
    fired .identityCvt n
    return (← spliceKid n 0, true)
  if s.foldConst then
    if let some new ← foldCvt s ty n then return (new, true)
  return (n, below || dropped)

/-! ### Conditions -/

/-- Refine a condition. A comparison is kept as one, and the result is always a
truth value. -/
def refineCondition (s : Setting) (refine : Pass) : Pass := fun n => do
  let (new, changed) ←
    if (← node n).code.isRelation then refineBinary s refine false n else refine n
  if (← node new).code.isJudge then return (new, changed)
  return (← judgement new, true)

/-- The negation of a condition: a comparison is inverted in place. -/
def invertCondition (n : NodeId) : Edit NodeId := do
  match (← node n).code.inverted? with
  | some inverted => do
    setCode n inverted
    return n
  | none => logicalNot n

/-! ### Selections -/

/-- The truth of a literal. -/
def Node.truth? (d : Node) : Option Bool :=
  match d.intLit?, d.floatLit? with
  | some v, _ => some (v != 0#64)
  | none, some v => some (v != 0.0)
  | none, none => if d.isStrConst then some true else none

/-- `(a != 0) ? 0 : 1` and `(a == 0) ? 1 : 0` to `!a`. -/
def selectToNot : Step := fun n => do
  let pred ← kid n 0
  match (← node (← kid n 1)).intLit? with
  | none => return none
  | some yes =>
    match (← node (← kid n 2)).intLit? with
    | none => return none
    | some no => do
      let fits := match (← node pred).code with
        | .ne => yes == 0#64 && no == 1#64
        | .eq => yes == 1#64 && no == 0#64
        | _ => false
      if !fits then return none
      if !(← node (← kid pred 1)).isIntLit 0#64 then return none
      let a ← kid pred 0
      discard (takeKid pred 0)
      discardTree n
      fired .selectToNot n
      return some (← logicalNot a)

/-- Refine the predicate of a selection; whether anything changed. -/
def refinePredicate (s : Setting) (refine : Pass) (n : NodeId) : Edit Bool := do
  let pred ← kid n 0
  if (← node pred).isConst then return false
  let (new, changed) ← refineCondition s refine pred
  if new ≠ pred then setKid n 0 (some new)
  return changed

/-- Fold the predicate of a selection; whether anything changed. -/
def foldPredicate (s : Setting) (n : NodeId) : Edit Bool := do
  let pred ← kid n 0
  let (folded, changed) ← foldIfAsked s pred
  if changed then setKid n 0 (some folded)
  return changed

def refineSelect (s : Setting) (refine : Pass) : Pass := fun n => do
  let inPred ← refinePredicate s refine n
  let inYes ← refineSlot refine n 1
  let inNo ← refineSlot refine n 2
  let folded ← foldPredicate s n
  let changed := inPred || inYes || inNo || folded
  match (← node (← kid n 0)).truth? with
  | some taken => do
    fired .selectConstPred n
    return (← spliceKid n (if taken then 1 else 2), true)
  | none => do
    if !s.selectToNot then return (n, changed)
    let ty := (← node n).ty
    match ← selectToNot n with
    | some negation => do
      let (new, _) ← settleNot s refine negation
      return (← retype s new ty, true)
    | none => return (n, changed)

end Peephole
