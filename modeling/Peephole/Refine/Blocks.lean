import Peephole.Refine.Statement

/-!
# Blocks and regions

The statements of a block are refined in place, sweep after sweep.
-/

namespace Peephole

open Edit

/-- The work on one block or region. -/
structure Summary where
  changed : Bool
  sweeps : Nat
  /-- Whether every block ended with a sweep that changed nothing. -/
  fixpoint : Bool
  deriving DecidableEq, Repr

/-- Refine one statement of a block and put the outcome in its place; whether
anything changed. A statement that has left the block is passed over. -/
def refineInBlock (s : Setting) (b : BlockId) (stmt : NodeId) : Edit Bool := do
  match (← stmts b).idxOf? stmt with
  | none => return false
  | some pos => do
    let outcome ← refine s stmt
    match outcome.node with
    | some new => if new ≠ stmt then insertStmt b pos new
    | none => if !outcome.unlinked then throw (.misuse (.droppedNotUnlinked stmt b))
    return outcome.changed

/-- One sweep over the statements that a block has at its start. -/
def sweepBlock (s : Setting) (b : BlockId) : Edit Bool := do
  someOf (refineInBlock s b) (← stmts b)

/-- Sweep a block after `done` sweeps, with `left` more permitted. -/
def sweepsOfBlock (s : Setting) (b : BlockId) : (left done : Nat) → Edit Summary
  | 0, done => return ⟨false, done, false⟩
  | left + 1, done => do
    if ← sweepBlock s b then
      let rest ← sweepsOfBlock s b left (done + 1)
      return { rest with changed := true }
    else
      return ⟨false, done + 1, true⟩

def refineBlock (s : Setting) (b : BlockId) : Edit Summary := do
  let summary ← sweepsOfBlock s b s.sweepCap 0
  if !summary.fixpoint then report (.blockCapReached b summary.sweeps)
  report (.blockRefined b summary.sweeps summary.changed)
  return summary

/-- Refine a block unless refinement is off; whether anything changed. -/
def refineBlockStmts (s : Setting) (b : BlockId) : Edit Bool := do
  if s.enabled then return (← refineBlock s b).changed else return false

/-- Refine all blocks in layout order, unless refinement is off. -/
def refineRegion (s : Setting) : Edit Summary := do
  if !s.enabled then return ⟨false, 0, true⟩
  let each ← (← get).order.mapM (refineBlock s)
  let changed := each.any (·.changed)
  let sweeps := each.foldl (fun sum summary => sum + summary.sweeps) 0
  report (.regionRefined changed sweeps)
  return ⟨changed, sweeps, each.all (·.fixpoint)⟩

end Peephole
