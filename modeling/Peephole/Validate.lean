import Peephole.DefUse
import Peephole.Ssa

/-!
# Validity of a region

For every node reachable from the blocks: its kids are live and name it as
their parent, block statements name their block, def-use edges are symmetric
and join live reachable nodes, and register reads and static single assignment
values know each other. `Region.validate` lists what is wrong.
-/

namespace Peephole

inductive Defect
  | parentMismatch (parent kid : NodeId) (actual : Option NodeId)
  | blockMismatch (stmt : NodeId) (b : BlockId)
  | releasedReachable (n owner : NodeId)
  | oneWayEdge (source target : NodeId)
  | edgeToReleased (source target : NodeId)
  | edgeToUnreachable (source target : NodeId)
  | useNotListed (n : NodeId) (v : SsaId)
  | staleUse (v : SsaId) (n : NodeId)
  | defReleased (v : SsaId) (defn : NodeId)
  deriving DecidableEq, Repr

namespace Defect

def optionText : Option NodeId → String
  | some n => "Some(" ++ n.text ++ ")"
  | none => "None"

def message : Defect → String
  | .parentMismatch parent kid actual =>
    kid.text ++ " under " ++ parent.text ++ " has parent pointer " ++ optionText actual
  | .blockMismatch stmt b =>
    "statement " ++ stmt.text ++ " in " ++ b.text ++ " is not linked back to it"
  | .releasedReachable n owner => "released node " ++ n.text ++ " is reachable from " ++ owner.text
  | .oneWayEdge source target =>
    "DU edge " ++ source.text ++ " -> " ++ target.text ++ " has no reverse edge"
  | .edgeToReleased source target =>
    "DU edge " ++ source.text ++ " -> " ++ target.text ++ " points at a released node"
  | .edgeToUnreachable source target =>
    "DU edge " ++ source.text ++ " -> " ++ target.text ++ " leaves the region"
  | .useNotListed n v => n.text ++ " reads " ++ v.text ++ " but is not in its use set"
  | .staleUse v n => v.text ++ " lists " ++ n.text ++ " which does not read it"
  | .defReleased v defn => v.text ++ " is defined by released node " ++ defn.text

end Defect

/-- Live nodes found by a traversal, and the defects met on the way. -/
structure Survey where
  nodes : List NodeId
  defects : List Defect

namespace Survey

def join (ss : List Survey) : Survey :=
  ⟨(ss.map (·.nodes)).flatten, (ss.map (·.defects)).flatten⟩

end Survey

namespace Region

/-- The defects in the link from `n` to a kid. -/
def kidDefects (r : Region) (n k : NodeId) : Except Fault (List Defect) := do
  if r.isReleased k then return [.releasedReachable k n]
  let actual := (← r.node k).parent
  return if actual = some n then [] else [.parentMismatch n k actual]

/-- The tree at a live node. Kids are visited last to first. -/
def surveyWithin (r : Region) : Nat → NodeId → Except Fault Survey
  | 0, _ => .error .exhausted
  | fuel + 1, n => do
    let d ← r.node n
    let links ← d.kids.mapM (r.kidDefects n)
    let live := d.kids.filter fun k => !r.isReleased k
    let below ← live.reverse.mapM (r.surveyWithin fuel)
    return Survey.join (⟨[n], links.flatten⟩ :: below)

def surveyStmt (r : Region) (b : BlockId) (s : NodeId) : Except Fault Survey := do
  if r.isReleased s then return ⟨[], [.releasedReachable s s]⟩
  let link := if (← r.node s).block = some b then [] else [.blockMismatch s b]
  let tree ← r.surveyWithin r.depthBound s
  return ⟨tree.nodes, link ++ tree.defects⟩

def surveyBlock (r : Region) (b : BlockId) : Except Fault Survey := do
  return Survey.join (← (← r.stmts b).mapM (r.surveyStmt b))

/-- All blocks in layout order. -/
def survey (r : Region) : Except Fault Survey := do
  return Survey.join (← r.order.mapM r.surveyBlock)

def edgeDefects (r : Region) (reachable : List NodeId) (n : NodeId) :
    Except Fault (List Defect) := do
  let each ← (← r.peers n).toList.mapM fun p => do
    if r.isReleased p then return [Defect.edgeToReleased n p]
    let inside := if reachable.contains p then [] else [Defect.edgeToUnreachable n p]
    let back := if n ∈ (← r.peers p) then [] else [Defect.oneWayEdge n p]
    return inside ++ back
  return each.flatten

def useDefects (r : Region) (n : NodeId) : Except Fault (List Defect) := do
  let d ← r.node n
  match d.code, d.ssa with
  | .pr, some v => do
    return if n ∈ (← r.ssaValue v).uses then [] else [.useNotListed n v]
  | _, _ => return []

/-- The values that reachable nodes carry, in ascending order. -/
def carriedValues (r : Region) (reachable : List NodeId) : Except Fault (HandleSet .ssa) := do
  let each ← reachable.mapM fun n => do return (← r.node n).ssa.toList
  return .ofList each.flatten

def valueDefects (r : Region) (v : SsaId) : Except Fault (List Defect) := do
  let d ← r.ssaValue v
  let ofDef := (d.defn.toList.filter r.isReleased).map (Defect.defReleased v)
  let ofUses ← d.uses.toList.mapM fun u => do
    if r.isReleased u then return [Defect.staleUse v u]
    return if (← r.node u).ssa = some v then [] else [Defect.staleUse v u]
  return ofDef ++ ofUses.flatten

/-- What is wrong with a region: first tree links, then edges, then values. -/
def validate (r : Region) : Except Fault (List Defect) := do
  let s ← r.survey
  let edges ← s.nodes.mapM (r.edgeDefects s.nodes)
  let uses ← s.nodes.mapM r.useDefects
  let values ← (← r.carriedValues s.nodes).toList.mapM r.valueDefects
  return s.defects ++ edges.flatten ++ uses.flatten ++ values.flatten

end Region

end Peephole
