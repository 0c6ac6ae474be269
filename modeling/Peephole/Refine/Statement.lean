import Peephole.Refine.Expr

/-!
# Statements and statement lists

A list is swept until a sweep changes nothing or the permitted number of sweeps
is used up. Deleted statements leave the list.
-/

namespace Peephole

open Edit

/-- Sweep a list, with `left` sweeps of `cap` still permitted. -/
def sweepList (refine : NodeId → Edit Outcome) (cap : Nat) :
    Nat → List NodeId → Edit (List NodeId × Bool)
  | 0, ns => return (ns, false)
  | left + 1, ns => do
    let outcomes ← ns.mapM refine
    let new := outcomes.filterMap (·.node)
    if !outcomes.any (·.changed) then return (new, false)
    if left = 0 then
      report (.listCapReached cap)
      return (new, true)
    let (last, _) ← sweepList refine cap left new
    return (last, true)

def refineListWith (s : Setting) (refine : NodeId → Edit Outcome) (ns : List NodeId) :
    Edit (List NodeId × Bool) :=
  sweepList refine s.sweepCap s.sweepCap ns

/-- Refine the condition in slot 0 of `n`; whether anything changed. -/
def refineConditionSlot (s : Setting) (n : NodeId) : Edit Bool := do
  let cond ← kid n 0
  let (new, changed) ← refineDeterminant s cond
  if new ≠ cond then setKid n 0 (some new)
  return changed

/-- Refine the statements in slot `i` of `n`; whether anything changed. -/
def refineBody (s : Setting) (refine : NodeId → Edit Outcome) (n : NodeId) (i : Nat) :
    Edit Bool := do
  let (body, changed) ← refineListWith s refine (← kids n i)
  if changed then setKids n i body
  return changed

/-- A statement with a condition and bodies. -/
def refineCompound (s : Setting) (refine : NodeId → Edit Outcome) (bodies : List Nat)
    (n : NodeId) : Edit Outcome := do
  let inCond ← refineConditionSlot s n
  let inBodies ← someOf (refineBody s refine n) bodies
  return .stands n (inCond || inBodies)

def refineSwitch (s : Setting) (refine : NodeId → Edit Outcome) (n : NodeId) : Edit Outcome := do
  let inValue ← refineSlot (refineExpr s) n 0
  if inValue then checkEdges s n
  let inBody ← refineBody s refine n 1
  return .stands n (inValue || inBody)

/-- A branch on a false `a != b` becomes a branch on a true `a == b`. -/
def refineBranch (s : Setting) (n : NodeId) : Edit Outcome := do
  let inCond ← refineConditionSlot s n
  let cond ← kid n 0
  let d ← node n
  if d.code = .falseBr then
    if (← node cond).code = .ne then
      setCode cond .eq
      setCode n .trueBr
      fired .falseBrOfNe n
      return ← finishStmt s n true
  finishStmt s n inCond

/-- Refine one statement, where `refine` refines the statements below it. -/
def refineStmt (s : Setting) (refine : NodeId → Edit Outcome) (n : NodeId) : Edit Outcome := do
  let code := (← node n).code
  match code with
  | .st | .stpr => refineStore s (refineExpr s) n
  | .starray => refineElementStore s (refineExpr s) n
  | .ist => refineIndirectStore s (refineExpr s) n
  | .phi => do
    match ← propagatePhi s n with
    | some unlinked => return .deleted unlinked
    | none => return .stands n false
  | .call => do finishStmt s n (← refineSlotList (refineExpr s) n 0)
  | .icall => do
    let inCallee ← refineSlot (refineExpr s) n 0
    let inArgs ← refineSlotList (refineExpr s) n 1
    finishStmt s n (inCallee || inArgs)
  | .ret | .igoto => do finishStmt s n (← refineSlot (refineExpr s) n 0)
  | .ifElse => refineCompound s refine [1, 2] n
  | .whileDo | .doWhile => refineCompound s refine [1] n
  | .doLoop => refineCompound s refine [1, 2, 3] n
  | .switch => refineSwitch s refine n
  | .trueBr | .falseBr => refineBranch s n
  | .goto | .label | .breakLoop | .continueLoop => return .stands n false
  | _ => do
    discard (require s false (.unreachableOp n code))
    return .stands n false

/-- Refine the statement or expression at a node, with statements nested at most
`fuel` deep. -/
def refineWithin (s : Setting) : Nat → NodeId → Edit Outcome
  | 0, _ => throw .exhausted
  | fuel + 1, n => do
    if ← isExpr n then
      let (new, changed) ← refineExpr s n
      return .stands new changed
    let outcome ← refineStmt s (refineWithin s fuel) n
    if let some new := outcome.node then
      if outcome.changed then adoptAll new
    return outcome

/-- Refine the statement or expression at a node. -/
def refine (s : Setting) (n : NodeId) : Edit Outcome := do refineWithin s (← get).depthBound n

/-- Refine a list of statements or expressions; the list in its place, and
whether anything changed. -/
def refineList (s : Setting) (ns : List NodeId) : Edit (List NodeId × Bool) :=
  refineListWith s (refine s) ns

end Peephole
