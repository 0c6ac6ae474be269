import Peephole.Refine.Outcome
import Peephole.Refine.Settle

/-!
# Loads and stores

An indirect access through the address of a variable becomes a direct access.
It inherits what is known about the access it replaces; where its location had
to be found afresh, inherited edges that are not justified any more are
dropped. A store of a location back into itself is deleted.
-/

namespace Peephole

open Edit

/-- The variable and offset of an address. -/
def addressTarget? (d : Node) : Option (VarId × Int) :=
  if d.code = .lda then d.attrs.var.map fun v => (v, d.attrs.ofst) else none

/-- Let the load `ld` take over from the indirect load `n`. -/
def inheritLoad (ld n : NodeId) : Edit Unit := do
  let inexact := (← ask (·.exactRef? n)).isNone
  let edges ← hasEdges
  if inexact && edges then
    let m ← locateLoad ld
    setMust ld (some m)
  else
    copyAccess ld n
  if edges then
    changeUse ld n
    if inexact then discard (dropExpired ld)

/-- An indirect load through an address becomes a load. -/
def refineIndirectLoad (refine : Pass) : Pass := fun n => do
  let below ← refineSlot refine n 0
  let base ← node (← kid n 0)
  match addressTarget? base with
  | none => return (n, below)
  | some (v, ofst) => do
    let d ← node n
    let sum ← addOffsets ofst d.attrs.ofst
    let ld ← load v sum d.ty
    inheritLoad ld n
    discardTree n
    fired .ildOfLda n
    return (ld, true)

/-- Base and subscripts of an array element. -/
def refineElement (refine : Pass) : Pass := fun n => do
  let inBase ← refineSlot refine n 0
  let inSubs ← refineSlotList refine n 1
  return (n, inBase || inSubs)

/-- Let the store `st` take over from the indirect store `n`. -/
def inheritStore (st n : NodeId) : Edit Unit := do
  copyAccess st n
  let unknown := (← ask (·.access st)).must.isNone
  if unknown then
    let m ← locateStore st
    setMust st (some m)
    clearMay st
  if ← hasEdges then
    changeDef st n
    if unknown then discard (dropExpiredDefs st)

/-- An indirect store through an address becomes a store. The new store is in
no block. -/
def directStore? : Step := fun n => do
  let base ← node (← kid n 0)
  match addressTarget? base with
  | none => return none
  | some (v, ofst) => do
    let d ← node n
    let stored ← kid n 1
    discard (takeKid n 1)
    let sum ← addOffsets ofst d.attrs.ofst
    let st ← store v d.ty sum stored
    inheritStore st n
    discard (leaveBlock n)
    discardTree n
    fired .istOfLda n
    return some st

def refineIndirectStore (s : Setting) (refine : Pass) (n : NodeId) : Edit Outcome := do
  let inBase ← refineSlot refine n 0
  let inStored ← refineSlot refine n 1
  let direct? ← directStore? n
  let stmt := direct?.getD n
  let fitted ← fitStored s stmt (if direct?.isSome then 0 else 1)
  finishStmt s stmt (inBase || inStored || direct?.isSome || fitted)

/-- A register store of the register itself. -/
def isRegisterSelfCopy (n : NodeId) : Edit Bool := do
  let stored ← node (← kid n 0)
  let d ← node n
  return d.code == .stpr && stored.code == .pr && stored.attrs.reg == d.attrs.reg

/-- Whether two nodes access the same exact location; nothing if that is not
known of one of them. -/
def sameLocation? (a b : NodeId) : Edit (Option Bool) := do
  let x? ← ask (·.exactRef? a)
  let y? ← ask (·.exactRef? b)
  match x?, y? with
  | some x, some y => return some (x == y)
  | _, _ => return none

/-- Whether `stored` reads the very location that `n` writes. -/
def storesBack (n stored : NodeId) : Edit Bool := do
  match ← sameLocation? n stored with
  | some same => return same
  | none => do
    let d ← node n
    let e ← node stored
    return d.code == .st && e.code == .ld && d.ty == e.ty && d.attrs.var.isSome &&
      d.attrs.var == e.attrs.var && d.attrs.ofst == e.attrs.ofst

def refineStore (s : Setting) (refine : Pass) (n : NodeId) : Edit Outcome := do
  if s.dropSelfStores then
    if ← isRegisterSelfCopy n then
      fired .selfRegisterCopy n
      return .deleted (← deleteStmt n)
  let inStored ← refineSlot refine n 0
  let stored ← kid n 0
  if s.dropSelfStores && (← node stored).code ≠ .cvt then
    if ← storesBack n stored then
      fired .selfCopy n
      return .deleted (← deleteStmt n)
  let fitted ← fitStored s n 0
  finishStmt s n (inStored || fitted)

/-- Whether `stored` reads the very array element that `n` writes. -/
def storesElementBack (n stored : NodeId) : Edit Bool := do
  match ← sameLocation? n stored with
  | some same => return same
  | none => do
    let d ← node n
    let e ← node stored
    if e.code ≠ .array || e.ty ≠ d.ty then return false
    let subs ← d.slot 1
    let storedSubs ← e.slot 1
    if !(← sameTree (← kid n 0) (← kid stored 0)) then return false
    if subs.length ≠ storedSubs.length then return false
    (subs.zip storedSubs).allM fun (a, b) => sameTree a b

def refineElementStore (s : Setting) (refine : Pass) (n : NodeId) : Edit Outcome := do
  let inBase ← refineSlot refine n 0
  let inSubs ← refineSlotList refine n 1
  let inStored ← refineSlot refine n 2
  let stored ← kid n 2
  if s.dropSelfStores then
    if ← storesElementBack n stored then
      fired .selfCopyElement n
      return .deleted (← deleteStmt n)
  let fitted ← fitStored s n 2
  finishStmt s n (inBase || inSubs || inStored || fitted)

end Peephole
