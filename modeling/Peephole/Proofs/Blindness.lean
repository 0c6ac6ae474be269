import Peephole.Proofs.Agreement

/-!
# Edits that look at no parent

The edits of values and edges, the release and the making of nodes do the same whatever the parents
of the nodes are.
-/

namespace Peephole

open Edit

variable {parents : Bool} {n m p : NodeId}

namespace Agrees

/-! ### Values -/

theorem ssaValue {v : SsaId} : Agrees parents (ssaValue v) (ssaValue v) := ask fun _ => rfl

theorem modifySsa {v : SsaId} {f : SsaValue → SsaValue} :
    Agrees parents (modifySsa v f) (modifySsa v f) :=
  ssaValue.bind fun _ => aside fun _ => rfl

theorem addSsaUse {v : SsaId} : Agrees parents (addSsaUse v n) (addSsaUse v n) :=
  node (fun _ _ => rfl) fun _ => ite (throw _) ((modifyNode fun _ _ => rfl).bind fun _ => modifySsa)

theorem removeSsaUse : Agrees parents (removeSsaUse n) (removeSsaUse n) := by
  refine of_blind (edit fun ⟨_, _, _, _, _, _, _, ssa⟩ p => ?_)
  cases ssa with
  | none => exact pure _
  | some v => exact putNode_under.bind fun _ => modifySsa

theorem forgetSsa : Agrees parents (forgetSsa n) (forgetSsa n) := by
  refine node (fun _ _ => rfl) fun d => ?_
  cases d.ssa with
  | none => exact pure _
  | some v => exact modifySsa

/-! ### Records and edges -/

theorem count {op : LinkOp} {f : EdgeCounts → EdgeCounts} :
    Agrees parents (count op f) (count op f) := by
  refine get (fun _ => rfl) fun r => ?_
  cases r.edgeCounts with
  | none => exact throw _
  | some c => exact aside fun _ => rfl

theorem modifyAccess {f : Access → Access} :
    Agrees parents (modifyAccess n f) (modifyAccess n f) := by
  refine of_blind (node_under fun ⟨_, _, _, _, _, _, record, _⟩ p => ?_)
  cases record with
  | none => exact (asideGet fun _ => rfl).bind fun _ => putNode_under
  | some i => exact (ask fun _ => rfl).bind fun _ => aside fun _ => rfl

theorem modifyOwnAccess {f : Access → Access} :
    Agrees parents (modifyOwnAccess n f) (modifyOwnAccess n f) :=
  node (fun _ _ => rfl) fun _ => ite modifyAccess (pure _)

theorem copyAccess : Agrees parents (copyAccess n m) (copyAccess n m) :=
  (ask fun _ => Region.access_orphaned).bind fun _ =>
    node (fun _ _ => rfl) fun _ => ite (pure _) modifyAccess

theorem forgetPeer : Agrees parents (forgetPeer n p) (forgetPeer n p) :=
  isReleased.bind fun _ => ite modifyOwnAccess (pure _)

theorem unlinkEdge : Agrees parents (unlinkEdge n p) (unlinkEdge n p) :=
  forgetPeer.bind fun _ => forgetPeer

theorem takePeers : Agrees parents (takePeers n) (takePeers n) :=
  (ask fun _ => Region.peers_orphaned).bind fun _ => modifyOwnAccess.bind fun _ => pure _

theorem addPeer : Agrees parents (addPeer n p) (addPeer n p) := modifyAccess

theorem moveEdges {op : LinkOp} : Agrees parents (moveEdges op n m) (moveEdges op n m) :=
  takePeers.bind fun _ => count.bind fun _ => forM fun _ => modifyAccess.bind fun _ => addPeer

theorem changeUse : Agrees parents (changeUse n m) (changeUse n m) :=
  (isExpr.and isExpr).bind fun _ => ite moveEdges (throw _)

theorem copyEdges : Agrees parents (copyEdges n m) (copyEdges n m) :=
  (ask fun _ => Region.peers_orphaned).bind fun _ => count.bind fun _ => forM fun _ =>
    addPeer.bind fun _ => addPeer

theorem copyTreeAccess : Agrees parents (copyTreeAccess n m) (copyTreeAccess n m) := by
  refine subtree.bind fun _ => subtree.bind fun _ => ite (throw _) (forM fun (_, _) => ?_)
  exact node (fun _ _ => rfl) fun _ => ite (copyAccess.bind fun _ => copyEdges) (pure _)

theorem cutNode {op : LinkOp} : Agrees parents (cutNode op n) (cutNode op n) :=
  takePeers.bind fun _ => count.bind fun _ => forM fun _ => unlinkEdge

theorem cutUses : Agrees parents (cutUses n) (cutUses n) :=
  subtree.bind fun _ => forM fun _ => isExpr.bind fun _ => ite cutNode (pure _)

theorem dropIfExpired : Agrees parents (dropIfExpired n p) (dropIfExpired n p) := by
  refine isReleased.bind fun _ => ite (unlinkEdge.bind fun _ => pure _) (isStmt.bind fun stmt => ?_)
  cases stmt
  all_goals
    refine (ask fun _ => Region.edgeJustified_orphaned).bind fun _ =>
      ite (pure _) (report.bind fun _ => ?_)
    exact unlinkEdge.bind fun _ => count.bind fun _ => pure _

theorem dropExpired : Agrees parents (dropExpired n) (dropExpired n) := by
  refine subtree.bind fun _ => someOf fun _ => (ask fun _ => Region.peers_orphaned).bind fun _ => ?_
  exact someOf fun _ => dropIfExpired

theorem register {l : Location} : Agrees parents (register l) (register l) := by
  refine get (fun _ => rfl) fun r => ?_
  cases r.locations.idxOf? l with
  | none => exact asideGet fun _ => rfl
  | some i => exact pure _

theorem locateLoad : Agrees parents (locateLoad n) (locateLoad n) := by
  refine node (fun _ _ => rfl) fun d => ite (throw _) ?_
  unfold locateVariable
  cases d.attrs.var with
  | none => exact throw _
  | some v => exact get (fun _ => rfl) fun _ => register

/-! ### Release -/

theorem dropNode : Agrees parents (dropNode n) (dropNode n) := by
  refine forgetSsa.bind fun _ => node (fun _ _ => rfl) fun d => change fun r => ?_
  have emptied : (r.orphaned.put n none).orphaned = (r.put n none).orphaned := by
    rw [Region.orphaned_put, Region.orphaned_put, Region.orphaned_orphaned]
  cases d.record with
  | some i =>
    exact congrArg (fun s : Region =>
      { s with records := r.records.setIfInBounds i.index .clean }) emptied
  | none => exact emptied

theorem releaseAll {ns : List NodeId} : Agrees parents (releaseAll ns) (releaseAll ns) := by
  refine (ask fun r => ?_).bind fun _ =>
    (ask fun _ => Region.checkUnreferenced_orphaned).bind fun _ =>
    forM fun _ => dropNode
  have same : r.orphaned.checkUnlinked = r.checkUnlinked :=
    funext fun _ => Region.checkUnlinked_orphaned
  rw [same]

/-! ### Making nodes -/

theorem build {code : Op} {ty : Ty} {attrs : Attrs} {slots : List (List NodeId)} :
    Agrees parents (build code ty attrs slots) (build code ty attrs slots) := create

theorem duplicate : Agrees parents (duplicate n) (duplicate n) := by
  have within (fuel : Nat) (n : NodeId) :
      Agrees parents (duplicateWithin fuel n) (duplicateWithin fuel n) := by
    induction fuel generalizing n with
    | zero => exact throw _
    | succ fuel ih =>
      refine node (fun _ _ => rfl) fun d => (mapM fun _ => mapM ih).bind fun _ =>
        build.bind fun _ => ?_
      split
      · exact addSsaUse.bind fun _ => pure _
      · exact pure _
  exact get (fun _ => by rw [Region.depthBound_orphaned]) fun _ => within _ _

theorem inheritLoad : Agrees parents (inheritLoad n m) (inheritLoad n m) := by
  refine (ask fun _ => Region.exactRef?_orphaned).bind fun _ => hasEdges.bind fun _ => ?_
  refine ite (locateLoad.bind fun _ => modifyAccess.bind fun _ => ?_) (copyAccess.bind fun _ => ?_)
  all_goals exact ite (changeUse.bind fun _ => ite dropExpired.discard (pure _)) (pure _)

end Agrees

end Peephole
