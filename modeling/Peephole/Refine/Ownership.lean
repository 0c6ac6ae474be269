import Peephole.Release
import Peephole.Block

/-!
# Dropping parts of a tree

What a step drops is cut out of the def-use edges and the static single
assignment values before it is released, so that nothing is left that refers to
a released node.
-/

namespace Peephole

namespace Edit

/-- Release a detached expression whose value is not used any more. -/
def discardTree (n : NodeId) : Edit Unit := do
  if ← hasEdges then cutUses n
  removeSsaUsesIn n
  releaseTree n

/-- Detach the kid in slot `i` of `n` and drop everything else of `n`. -/
def spliceKid (n : NodeId) (i : Nat) : Edit NodeId := do
  let k ← kid n i
  discard (takeKid n i)
  discardTree n
  return k

/-- Drop `n`, in whose place `new` stands. -/
def replaceBy (n new : NodeId) : Edit NodeId := do
  discardTree n
  return new

/-- Unlink a statement from its block; whether it was in one. -/
def leaveBlock (s : NodeId) : Edit Bool := do
  match (← node s).block with
  | some b => unlinkStmt b s
  | none => return false

/-- Delete a statement; whether it was unlinked from a block. -/
def deleteStmt (s : NodeId) : Edit Bool := do
  if ← hasEdges then cutAll s
  let unlinked ← leaveBlock s
  removeSsaUsesIn s
  releaseTree s
  return unlinked

end Edit

end Peephole
