import Peephole.Refine.Fold

/-!
# Rules that read static single assignment values
-/

namespace Peephole

open Edit

/-- The value that all operands of a phi are literals of. -/
def uniformValue? (phi : NodeId) : Edit (Option Word) := do
  match ← kids phi 0 with
  | [] => return none
  | k :: ks =>
    match (← node k).intLit? with
    | some v => do
      let same ← ks.allM fun k => do return (← node k).isIntLit v
      return if same then some v else none
    | none => return none

/-- Put a literal of the value `v` in place of the register read `u`. -/
def replaceUse (v : Word) (u : NodeId) : Edit Unit := do
  let d ← node u
  match d.parent with
  | some parent => do
    let lit ← intLiteral (← d.ty.normalizeInt (← layout) v) d.ty
    discard (replaceKid parent u lit)
    removeSsaUse u
    if ← hasEdges then cutUses u
    release u
  | none => return

/-- Whether all given reads have a parent. -/
def allAttached (s : Setting) : List NodeId → Edit Bool
  | [] => return true
  | u :: us => do
    if ← require s (← node u).parent.isSome (.malformed u .detachedPhiUse) then allAttached s us
    else return false

/-- Replace a phi of one literal by that literal at each of its uses, and
delete it. `none` if it is no such phi, else whether it was unlinked from a
block. -/
def propagatePhi (s : Setting) (n : NodeId) : Edit (Option Bool) := do
  match ← uniformValue? n, (← node n).ssa with
  | some v, some value => do
    let uses := (← ssaValue value).uses.toList
    unless ← allAttached s uses do return none
    uses.forM (replaceUse v)
    clearSsaUses value
    fired .uniformPhi n
    return some (← deleteStmt n)
  | _, _ => return none

/-- Whether two phis merge pairwise equal literals. -/
def mergeSame (a b : Node) : Edit Bool := do
  let as ← a.slot 0
  let bs ← b.slot 0
  if as.isEmpty || as.length ≠ bs.length then return false
  (as.zip bs).allM fun (x, y) => do
    match (← node x).intLit?, (← node y).intLit? with
    | some p, some q => return p == q
    | _, _ => return false

/-- The phis that define the values of two register reads. -/
def definingPhis? (a b : Node) : Edit (Option (Node × Node)) := do
  if a.code ≠ .pr || b.code ≠ .pr then return none
  match ← ask (·.ssaDefOf a) with
  | none => return none
  | some defA =>
    match ← ask (·.ssaDefOf b) with
    | none => return none
    | some defB => do
      let phiA ← node defA
      if phiA.code ≠ .phi then return none
      let phiB ← node defB
      if phiB.code ≠ .phi then return none
      return some (phiA, phiB)

/-- Decide a comparison of two registers that phis of one block define with
pairwise equal literals. -/
def decideByPhis : Step := fun n => do
  let (op0, op1) ← operands n
  match ← definingPhis? (← node op0) (← node op1) with
  | some (phi0, phi1) => do
    if phi0.block.isNone || phi0.block ≠ phi1.block then return none
    unless ← mergeSame phi0 phi1 do return none
    let d ← node n
    let truth := d.code == .eq || d.code == .le || d.code == .ge
    let lit ← intLiteral (Word.ofBool truth) d.ty
    fired .decidedByPhis n
    return some (← replaceBy n lit)
  | none => return none

end Peephole
