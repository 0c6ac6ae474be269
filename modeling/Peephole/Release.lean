import Peephole.DefUse
import Peephole.Ssa

/-!
# Releasing nodes

A node leaves the region for good once no block, no edge of a node that stays
and no value refers to it. `checkUnreferenced` looks for such references before
anything is changed.
-/

namespace Peephole

namespace Region

def checkUnlinked (r : Region) (n : NodeId) : Except Fault Unit := do
  match (← r.node n).block with
  | some b => if (← r.stmts b).contains n then throw (.misuse (.linkedIntoBlock n b))
  | none => return

/-- No live node outside `leaving` lists `n` as a peer. -/
def checkNoEdges (r : Region) (leaving : List NodeId) (n : NodeId) : Except Fault Unit := do
  (← r.peers n).toList.forM fun p => do
    if !(leaving.contains p || r.isReleased p) then
      if n ∈ (← r.peers p) then throw (.misuse (.inEdgesOf n p))

/-- No value lists `n` as a read, and a value defined by `n` has no reads
outside `leaving`. -/
def checkNoUses (r : Region) (leaving : List NodeId) (n : NodeId) : Except Fault Unit := do
  match (← r.node n).ssa with
  | some v => do
    let d ← r.ssaValue v
    if n ∈ d.uses then throw (.misuse (.stillUse n v))
    if d.defn = some n then
      if !d.uses.toList.all fun u => leaving.contains u || r.isReleased u then
        throw (.misuse (.definesLiveUses n v))
  | none => return

def checkUnreferenced (r : Region) (leaving : List NodeId) : Except Fault Unit :=
  leaving.forM fun n => do
    r.checkNoEdges leaving n
    r.checkNoUses leaving n

end Region

namespace Edit

/-- Empty the place of a node and clean its record. -/
def dropNode (n : NodeId) : Edit Unit := do
  forgetSsa n
  let d ← node n
  modify fun r =>
    { r with
      nodes := r.nodes.setIfInBounds n.index none
      records := match d.record with
        | some i => r.records.setIfInBounds i.index .clean
        | none => r.records }

def releaseAll (ns : List NodeId) : Edit Unit := do
  ask fun r => ns.forM r.checkUnlinked
  ask (·.checkUnreferenced ns)
  ns.forM dropNode

/-- Release a node without kids. -/
def release (n : NodeId) : Edit Unit := do
  let d ← node n
  if !d.slots.all (·.isEmpty) then throw (.misuse (.ownsKids n d.code))
  releaseAll [n]

/-- Release a node and everything below it. -/
def releaseTree (n : NodeId) : Edit Unit := do releaseAll (← subtree n)

end Edit

end Peephole
