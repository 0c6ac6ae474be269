import Peephole.Edit

/-!
# Basic blocks

A block lists statements, and each of them names its block.
-/

namespace Peephole

namespace Edit

/-- Make an empty block, last in layout order. -/
def createBlock : Edit BlockId :=
  modifyGet fun r =>
    let b : BlockId := ⟨r.blocks.size⟩
    (b, { r with blocks := r.blocks.push [], order := r.order ++ [b] })

def newLabel : Edit LabelId :=
  modifyGet fun r => (⟨r.nextLabel⟩, { r with nextLabel := r.nextLabel + 1 })

def stmts (b : BlockId) : Edit (List NodeId) := ask (·.stmts b)

def setStmts (b : BlockId) (ss : List NodeId) : Edit Unit :=
  modify fun r => { r with blocks := r.blocks.setIfInBounds b.index ss }

/-- Let an unattached statement name its block. -/
def attach (b : BlockId) (s : NodeId) : Edit Unit := do
  let d ← ask (·.nodeToEdit s)
  if !d.isStmt then throw (.misuse (.notStatement s d.code))
  if d.block.isSome || d.parent.isSome then throw (.misuse (.alreadyAttached s))
  putNode s { d with block := some b }

def appendStmt (b : BlockId) (s : NodeId) : Edit Unit := do
  attach b s
  let ss ← stmts b
  setStmts b (ss ++ [s])

/-- Insert `s` in front of position `pos`. -/
def insertStmt (b : BlockId) (pos : Nat) (s : NodeId) : Edit Unit := do
  attach b s
  let ss ← stmts b
  if ss.length < pos then throw .outOfRange
  setStmts b (ss.take pos ++ s :: ss.drop pos)

/-- Unlink a statement, released or not, from a block that lists it. -/
def unlinkStmt (b : BlockId) (s : NodeId) : Edit Bool := do
  let ss ← stmts b
  if ss.contains s then
    setStmts b (ss.erase s)
    if !(← isReleased s) then
      let d ← node s
      if d.block = some b then putNode s { d with block := none }
    return true
  else
    return false

/-- Put `new` where the block lists `old`. -/
def replaceStmt (b : BlockId) (old new : NodeId) : Edit Bool := do
  let ss ← stmts b
  match ss.idxOf? old with
  | some pos => do
    discard (unlinkStmt b old)
    insertStmt b pos new
    return true
  | none => return false

end Edit

end Peephole
