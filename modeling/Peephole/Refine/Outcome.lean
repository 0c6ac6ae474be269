import Peephole.Refine.Coerce
import Peephole.DefUse

/-!
# Outcomes for statements
-/

namespace Peephole

open Edit

/-- What became of a statement or expression. -/
structure Outcome where
  /-- The node in its place; a deleted statement leaves none. -/
  node : Option NodeId
  changed : Bool
  /-- Whether it was deleted from a block. -/
  unlinked : Bool
  deriving DecidableEq, Repr

namespace Outcome

def stands (n : NodeId) (changed : Bool) : Outcome := ⟨some n, changed, false⟩

def deleted (unlinked : Bool) : Outcome := ⟨none, true, unlinked⟩

end Outcome

/-- After a change below `n`, every edge there has to be justified still. -/
def checkEdges (s : Setting) (n : NodeId) : Edit Unit := do
  if ← hasEdges then
    let stale ← dropExpired n
    discard (require s (!stale) (.staleEdge n))

/-- Finish a statement whose operands are refined. -/
def finishStmt (s : Setting) (n : NodeId) (changed : Bool) : Edit Outcome := do
  if changed then
    adoptKids n
    checkEdges s n
  return .stands n changed

/-- Fit the stored value to the type of a store, if that is asked for. -/
def fitStored (s : Setting) (n : NodeId) (i : Nat) : Edit Bool := do
  if s.insertCvt then fitSlot s n i (← node n).ty else return false

end Peephole
