import Peephole.Edit

/-!
# Trees of nodes

The nodes below a node, structural equality, and the parent links. Nothing
keeps kids from forming a cycle, so every recursion carries a bound on the
depth that is left; `Region.depthBound` is enough for any tree.
-/

namespace Peephole

namespace Region

/-- The nodes at and below `n` in pre-order, at most `fuel` deep. -/
def subtreeWithin (r : Region) : Nat → NodeId → Except Fault (List NodeId)
  | 0, _ => .error .exhausted
  | fuel + 1, n => do
    let d ← r.node n
    let below ← d.kids.mapM (r.subtreeWithin fuel)
    return n :: below.flatten

def subtree (r : Region) (n : NodeId) : Except Fault (List NodeId) :=
  r.subtreeWithin r.depthBound n

/-- Same operations, types, attributes and kids, at most `fuel` deep. -/
def sameTreeWithin (r : Region) : Nat → NodeId → NodeId → Except Fault Bool
  | 0, _, _ => .error .exhausted
  | fuel + 1, a, b =>
    if a = b then .ok true
    else do
      let da ← r.node a
      let db ← r.node b
      if da.code ≠ db.code || da.ty ≠ db.ty || da.attrs != db.attrs then return false
      if da.slots.length ≠ db.slots.length then return false
      (da.slots.zip db.slots).allM fun (sa, sb) =>
        if sa.length ≠ sb.length then return false
        else (sa.zip sb).allM fun (x, y) => r.sameTreeWithin fuel x y

/-- Structural equality of two trees. -/
def sameTree (r : Region) (a b : NodeId) : Except Fault Bool :=
  r.sameTreeWithin r.depthBound a b

end Region

namespace Edit

def subtree (n : NodeId) : Edit (List NodeId) := ask (·.subtree n)

def sameTree (a b : NodeId) : Edit Bool := ask (·.sameTree a b)

/-- Make `n` the parent of its kids. -/
def adoptKids (n : NodeId) : Edit Unit := do
  let d ← node n
  d.kids.forM (setParent · (some n))

/-- Set the parents of all nodes below `n`, at most `fuel` deep. -/
def adoptAllWithin : Nat → NodeId → Edit Unit
  | 0, _ => throw .exhausted
  | fuel + 1, n => do
    let d ← node n
    d.kids.forM fun k => do
      setParent k (some n)
      adoptAllWithin fuel k

/-- Set the parents of all nodes below `n`. -/
def adoptAll (n : NodeId) : Edit Unit := do
  adoptAllWithin (← get).depthBound n

end Edit

end Peephole
