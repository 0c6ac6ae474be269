import Peephole.Proofs.Invariant
import Peephole.Refine.Memory

/-!
# Edits that leave the trees alone

The skeleton of a region is what is left of it without access records, locations, types
and all events but those of sweep caps. Edits of def-use edges keep the skeleton.
-/

namespace Peephole

open Edit

variable {α β : Type} {r r' : Region} {n m : NodeId} {d : Node}

def Node.unrecorded (d : Node) : Node := { d with record := none }

/-- The event of a statement list that was still changing at its last permitted sweep. -/
def Event.isListCap : Event → Bool
  | .listCapReached _ => true
  | _ => false

def Region.skeleton (r : Region) : Region :=
  { r with
    nodes := r.nodes.map (Option.map Node.unrecorded)
    types := #[]
    locations := #[]
    locationSets := #[]
    records := #[]
    edgeCounts := r.edgeCounts.map fun _ => ⟨0, 0, 0, 0⟩
    events := r.events.filter (·.isListCap) }

/-- Every run that returns keeps the skeleton of `r`; one that stops does so with a fault that has
`F`. -/
abbrev Quiet (r : Region) (F : Fault → Prop) (m : Edit α) : Prop :=
  Keeps (fun r' => r'.skeleton = r.skeleton) F m

namespace Region

theorem skeleton_put_record {x : Option RecordId} (h : r.node? n = some d) :
    (r.put n (some { d with record := x })).skeleton = r.skeleton := by
  have nodes : (r.nodes.setIfInBounds n.index (some { d with record := x })).map
      (Option.map Node.unrecorded) = r.nodes.map (Option.map Node.unrecorded) := by
    apply Array.ext_getElem?
    intro i
    by_cases same : n.index = i
    · subst same
      have inside := lt_size_of_node? h
      have found : r.nodes[n.index]? = some (some d) := by
        rw [node?, Array.getElem?_eq_getElem inside] at h
        rw [Array.getElem?_eq_getElem inside]
        simpa using h
      rw [Array.getElem?_map, Array.getElem?_map, Array.getElem?_setIfInBounds_self_of_lt inside,
        found]
      rfl
    · simp [Array.getElem?_setIfInBounds_ne same]
  simp only [skeleton, put, nodes]

/-- Two regions with one skeleton have the same nodes, up to their records. -/
theorem node?_of_skeleton (h : r'.skeleton = r.skeleton) :
    (r'.node? n).map Node.unrecorded = (r.node? n).map Node.unrecorded := by
  have look (s : Region) : (s.node? n).map Node.unrecorded = s.skeleton.nodes[n.index]?.join := by
    simp only [node?, skeleton, Array.getElem?_map]
    cases s.nodes[n.index]? <;> rfl
  rw [look, look, h]

theorem size_of_skeleton (h : r'.skeleton = r.skeleton) : r'.nodes.size = r.nodes.size := by
  have sizes := congrArg (fun s : Region => s.nodes.size) h
  simpa [skeleton] using sizes

theorem hasEdges_of_skeleton (h : r'.skeleton = r.skeleton) : r'.hasEdges = r.hasEdges := by
  have counts := congrArg (fun s : Region => s.edgeCounts.isSome) h
  simpa [skeleton, hasEdges] using counts

theorem layout_of_skeleton (h : r'.skeleton = r.skeleton) : r'.layout = r.layout := by
  have layouts := congrArg Region.layout h
  exact layouts

theorem blocks_of_skeleton (h : r'.skeleton = r.skeleton) : r'.blocks = r.blocks := by
  have blocks := congrArg Region.blocks h
  exact blocks

theorem vars_of_skeleton (h : r'.skeleton = r.skeleton) : r'.vars = r.vars := by
  have vars := congrArg Region.vars h
  exact vars

end Region

/-! ### Records and edges -/

section records

variable {p new old target source : NodeId} {op : LinkOp} {f : Access → Access} {F : Fault → Prop}

theorem Quiet.mild {m : Edit α} (h : Quiet r Fault.Plain m) : Quiet r Fault.Ordinary m :=
  fun r' start => (h r' start).imp (fun _ => .inl) fun _ _ => id

theorem report_quiet {e : Event} (other : e.isListCap = false) : Quiet r F (report e) := by
  refine .modify fun r' start => Eq.trans ?_ start
  simp [Region.skeleton, other]

theorem intern_quiet {t : Ty} : Quiet r F (intern t) := by
  refine .bind (.modify fun r' start => ?_) fun _ => .pure _
  split <;> exact start

theorem node_quiet : Quiet r Fault.Plain (node n) := .ask fun _ => Region.node_answers

theorem isStmt_quiet : Quiet r Fault.Plain (isStmt n) := .bind node_quiet fun _ => .pure _

theorem isExpr_quiet : Quiet r Fault.Plain (isExpr n) := .bind node_quiet fun _ => .pure _

theorem isReleased_quiet : Quiet r Fault.Plain (isReleased n) := .bind .get fun _ => .pure _

theorem peers_quiet : Quiet r Fault.Plain (ask (·.peers n)) := .ask fun _ => Region.peers_answers

theorem subtree_quiet : Quiet r Fault.Ordinary (subtree n) := .ask fun _ => Region.subtree_answers

theorem count_quiet {g : EdgeCounts → EdgeCounts} : Quiet r Fault.Plain (count op g) := by
  intro r' start
  simp only [count, meets_bind, meets_get]
  split
  · rename_i c counts
    refine Eq.trans ?_ start
    simp [Region.skeleton, counts]
  · trivial

theorem modifyAccess_quiet : Quiet r Fault.Plain (modifyAccess n f) := by
  intro r' start
  simp only [modifyAccess, Edit.node, meets_bind, meets_ask]
  refine Region.node_answers.yields (fun _ => id) fun d found => ?_
  split
  · simp only [meets_bind, meets_ask, meets_modify]
    exact Region.lookup_answers.yields (fun _ => id) fun _ _ => start
  · simp only [meets_bind, meets_modifyGet, meets_putNode]
    exact (Region.skeleton_put_record (r := { r' with records := r'.records.push (f .clean) })
      (Region.node?_of_node found)).trans start

theorem modifyOwnAccess_quiet : Quiet r Fault.Plain (modifyOwnAccess n f) :=
  .bind node_quiet fun _ => .ite modifyAccess_quiet (.pure _)

theorem forgetPeer_quiet : Quiet r Fault.Plain (forgetPeer n p) :=
  .bind isReleased_quiet fun _ => .ite modifyOwnAccess_quiet (.pure _)

theorem unlinkEdge_quiet : Quiet r Fault.Plain (unlinkEdge n p) :=
  .bind forgetPeer_quiet fun _ => forgetPeer_quiet

theorem takePeers_quiet : Quiet r Fault.Plain (takePeers n) :=
  .bind peers_quiet fun _ => .bind modifyOwnAccess_quiet fun _ => .pure _

theorem cutNode_quiet : Quiet r Fault.Plain (cutNode op n) :=
  .bind takePeers_quiet fun _ => .bind count_quiet fun _ => .forM fun _ => unlinkEdge_quiet

theorem cutEach_quiet {ns : List NodeId} :
    Quiet r Fault.Plain (ns.forM fun x => do if ← isExpr x then cutNode op x) :=
  .forM fun _ => .bind isExpr_quiet fun _ => .ite cutNode_quiet (.pure _)

theorem cutUses_quiet : Quiet r Fault.Ordinary (cutUses n) :=
  .bind subtree_quiet fun _ => cutEach_quiet.mild

theorem copyAccess_quiet : Quiet r Fault.Plain (copyAccess target source) :=
  .bind (.ask fun _ => Region.access_answers) fun _ => .bind node_quiet fun _ =>
    .ite (.pure _) modifyAccess_quiet

theorem copyEdges_quiet : Quiet r Fault.Plain (copyEdges target source) :=
  .bind peers_quiet fun _ => .bind count_quiet fun _ => .forM fun _ =>
    .bind modifyAccess_quiet fun _ => modifyAccess_quiet

theorem copyEach_quiet {pairs : List (NodeId × NodeId)} :
    Quiet r Fault.Plain (pairs.forM fun pair => do
    if (← Edit.node pair.2).record.isSome then
      copyAccess pair.1 pair.2
      copyEdges pair.1 pair.2) :=
  .forM fun _ => .bind node_quiet fun _ =>
    .ite (.bind copyAccess_quiet fun _ => copyEdges_quiet) (.pure _)

theorem copyTreeAccess_quiet : Quiet r Fault.Ordinary (copyTreeAccess target source) := by
  refine .bind subtree_quiet fun targets => .bind subtree_quiet fun sources => ?_
  exact .ite (.bind (.throw (.inl trivial)) fun _ => copyEach_quiet.mild) copyEach_quiet.mild

theorem moveEdges_quiet : Quiet r Fault.Plain (moveEdges op new old) :=
  .bind takePeers_quiet fun _ => .bind count_quiet fun _ => .forM fun _ =>
    .bind modifyAccess_quiet fun _ => modifyAccess_quiet

theorem changeUse_quiet : Quiet r Fault.Plain (changeUse new old) := by
  refine .bind (.and isExpr_quiet isExpr_quiet) fun both => ?_
  exact .ite moveEdges_quiet (.bind (.throw trivial) fun _ => moveEdges_quiet)

theorem dropIfExpired_quiet : Quiet r Fault.Plain (dropIfExpired n p) := by
  refine .bind isReleased_quiet fun _ => .ite (.bind unlinkEdge_quiet fun _ => .pure _) ?_
  refine .bind isStmt_quiet fun stmt => ?_
  have sweep (a b : NodeId) : Quiet r Fault.Plain (do
      if ← ask (·.edgeJustified a b) then return false
      report (.expiredEdge a b)
      unlinkEdge a b
      count .dropExpired fun c => { c with expired := c.expired + 1 }
      return true) :=
    .bind (.ask fun _ => Region.edgeJustified_answers) fun _ => .ite (.pure _)
      (.bind (report_quiet rfl) fun _ => .bind unlinkEdge_quiet fun _ =>
        .bind count_quiet fun _ => .pure _)
  cases stmt
  · exact sweep p n
  · exact sweep n p

theorem dropExpiredOf_quiet {ns : List NodeId} : Quiet r Fault.Plain (dropExpiredOf ns) :=
  .someOf fun _ => .bind peers_quiet fun _ => .someOf fun _ => dropIfExpired_quiet

theorem dropExpired_quiet : Quiet r Fault.Ordinary (dropExpired n) :=
  .bind subtree_quiet fun _ => dropExpiredOf_quiet.mild

theorem locateVariable_quiet : Quiet r Fault.Plain (locateVariable n d) := by
  unfold locateVariable
  split
  · refine .bind .get fun _ => .bind .get fun _ => ?_
    split
    · exact .pure _
    · exact .modifyGet fun _ => id
  · exact .throw trivial

theorem locateLoad_quiet : Quiet r Fault.Plain (locateLoad n) :=
  .bind node_quiet fun _ =>
    .ite (.bind (.throw trivial) fun _ => locateVariable_quiet) locateVariable_quiet

theorem inheritLoad_quiet : Quiet r Fault.Ordinary (inheritLoad new old) := by
  refine .bind (.ask fun _ => Region.exactRef?_answers.imp fun _ => .inl) fun ref? =>
    .bind (.bind .get fun _ => .pure _) fun edges => ?_
  have edgesMove : Quiet r Fault.Ordinary (if edges = true then do
      changeUse new old
      if ref?.isNone = true then discard (dropExpired new) else pure ()
    else pure ()) :=
    .ite (.bind changeUse_quiet.mild fun _ => .ite dropExpired_quiet.discard (.pure _)) (.pure _)
  refine .ite ?_ ?_
  · exact .bind locateLoad_quiet.mild fun _ => .bind modifyAccess_quiet.mild fun _ => edgesMove
  · exact .bind copyAccess_quiet.mild fun _ => edgesMove

theorem changeDef_quiet : Quiet r Fault.Plain (changeDef new old) := by
  refine .bind (.and isStmt_quiet isStmt_quiet) fun both => ?_
  exact .ite moveEdges_quiet (.bind (.throw trivial) fun _ => moveEdges_quiet)

theorem dropExpiredDefs_quiet : Quiet r Fault.Plain (dropExpiredDefs n) :=
  .bind isStmt_quiet fun _ =>
    .ite dropExpiredOf_quiet (.bind (.throw trivial) fun _ => dropExpiredOf_quiet)

theorem locateStore_quiet : Quiet r Fault.Plain (locateStore n) :=
  .bind node_quiet fun _ =>
    .ite (.bind (.throw trivial) fun _ => locateVariable_quiet) locateVariable_quiet

theorem inheritStore_quiet : Quiet r Fault.Plain (inheritStore new old) := by
  refine .bind copyAccess_quiet fun _ => .bind (.ask fun _ => Region.access_answers) fun a => ?_
  have edgesMove : Quiet r Fault.Plain (do
      if ← hasEdges then
        changeDef new old
        if a.must.isNone = true then discard (dropExpiredDefs new)) :=
    .bind (.bind .get fun _ => .pure _) fun _ => .ite (.bind changeDef_quiet fun _ =>
      .ite dropExpiredDefs_quiet.discard (.pure _)) (.pure _)
  refine .ite (.bind locateStore_quiet fun _ => .bind modifyAccess_quiet fun _ => ?_) edgesMove
  exact .bind modifyOwnAccess_quiet fun _ => edgesMove

end records

end Peephole
