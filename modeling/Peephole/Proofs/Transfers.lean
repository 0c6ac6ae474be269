import Peephole.Proofs.ExpiredEdges

/-!
# Transfer of edges

A node takes over all edges of another one of its kind. Every edge is written down at both ends, and
each end is changed on its own; in the end no edge is lost, doubled or left at the old node
(`transfer_exact`).
-/

namespace Peephole

open Edit

variable {r r' : Region} {n x y new old : NodeId} {d e : Node} {c : EdgeCounts} {ps : List NodeId}

/-! ### The calls return -/

theorem takePeers_returns (new : NodeId) (recorded : r.Recorded) (live : r.Live n) :
    Meets (takePeers n) r (fun _ => False) fun qs r' =>
      qs = (r.accessOf n).peers.toList ∧ Noted r r' new ∧ r'.edgeCounts = r.edgeCounts := by
  obtain ⟨d, found⟩ := live
  simp only [takePeers, modifyOwnAccess, Edit.node, meets_bind, meets_ask,
    Region.peers_of recorded ⟨d, found⟩, Region.node_of found, yields_ok, meets_pure]
  split
  · rename_i own
    rw [← Region.recordOf_of found] at own
    refine (modifyAccess_writes _ recorded ⟨d, found⟩).to fun _ _ written => ?_
    exact ⟨trivial, written.noted (.inr own), written.counts⟩
  · exact ⟨trivial, .refl recorded, rfl⟩

/-- The edges are handed over peer by peer. -/
theorem handOver_returns (recorded : r.Recorded) (liveNew : r.Live new)
    (own : ∀ p ∈ ps, p ≠ new ∧ (r.recordOf p).isSome) :
    Meets (ps.forM fun p => do
        modifyAccess p fun a => { a with peers := (a.peers.erase old).insert new }
        addPeer new p) r (fun _ => False) fun _ r' =>
      Noted r r' new ∧ r'.edgeCounts = r.edgeCounts := by
  refine Meets.forM ⟨.refl recorded, rfl⟩ ?_
  rintro p mem r₁ ⟨noted, counts⟩
  obtain ⟨other, has⟩ := own p mem
  have live := Region.live_of_recordOf has
  rw [← noted.records p other] at has
  refine Meets.bind (modifyAccess_writes _ noted.recorded (noted.live live)) fun _ r₂ again => ?_
  have both := noted.trans (again.noted (.inr has))
  refine (modifyAccess_writes _ both.recorded (both.live liveNew)).to fun _ r₃ last => ?_
  exact ⟨both.trans (last.noted (.inl rfl)), last.counts.trans (again.counts.trans counts)⟩

/-- Nothing changes but records and the number of moved edges. -/
theorem moveEdges_returns (op : LinkOp) (counts : r.edgeCounts = some c) (recorded : r.Recorded)
    (liveNew : r.Live new) (liveOld : r.Live old)
    (own : ∀ p, r.Edge old p → p ≠ new ∧ (r.recordOf p).isSome) :
    Meets (moveEdges op new old) r (fun _ => False) fun _ r' => Noted r r' new ∧
      r'.edgeCounts = some { c with moved := c.moved + (r.accessOf old).peers.size } := by
  refine Meets.bind (takePeers_returns new recorded liveOld) ?_
  rintro _ r₁ ⟨rfl, taken, counts₁⟩
  rw [counts] at counts₁
  refine Meets.bind (count_notes (t := new) op _ taken.recorded counts₁) ?_
  rintro _ r₂ ⟨counted, counts₂, _⟩
  have both := taken.trans counted
  refine (handOver_returns both.recorded (both.live liveNew) fun p mem => ?_).to ?_
  · obtain ⟨other, has⟩ := own p (HandleSet.mem_toList.mp mem)
    exact ⟨other, by rwa [both.records p other]⟩
  · rintro _ r₃ ⟨moved, counts₃⟩
    exact ⟨both.trans moved, counts₃.trans counts₂⟩

/-! ### One node for another -/

/-- From `r` to `r'` the node `b` got the edges of the node `a`, and nothing else happened. -/
structure Transferred (r r' : Region) (a b : NodeId) : Prop where
  emptied : (r'.accessOf a).peers = .empty
  joined : ∀ p, p ∈ (r'.accessOf b).peers ↔ p ∈ (r.accessOf b).peers ∨ p ∈ (r.accessOf a).peers
  replaced : ∀ x, x ≠ a → x ≠ b → ∀ p, p ∈ (r'.accessOf x).peers ↔
    p ∈ (r.accessOf x).peers ∧ p ≠ a ∨ p = b ∧ a ∈ (r.accessOf x).peers
  references : ∀ x, (r'.accessOf x).must = (r.accessOf x).must ∧
    (r'.accessOf x).may = (r.accessOf x).may
  moved : r'.edgeCounts =
    r.edgeCounts.map fun c => { c with moved := c.moved + (r.accessOf a).peers.size }
  /-- Nodes are the same, but that `b` may have got a record, and so is all else. -/
  nodes : ∀ x, x ≠ b → r'.node? x = r.node? x
  same : r'.skeleton = r.skeleton
  rest : ∃ nodes records counts,
    r' = { r with nodes := nodes, records := records, edgeCounts := counts }

theorem moveEdges_transfers (op : LinkOp) (counts : r.edgeCounts = some c) (paired : r.Paired)
    (liveNew : r.Live new) (liveOld : r.Live old) (distinct : new ≠ old)
    (loose : ¬r.Edge old new ∧ ¬r.Edge old old) :
    Meets (moveEdges op new old) r (fun _ => False) fun _ r' => Transferred r r' old new := by
  have apart : ∀ p, r.Edge old p → p ≠ new ∧ old ≠ new := by
    intro p edge
    exact ⟨fun same => loose.1 (same ▸ edge), distinct.symm⟩
  have own : ∀ p, r.Edge old p → p ≠ new ∧ (r.recordOf p).isSome := fun p edge =>
    ⟨(apart p edge).1, (paired.symm old p edge).recorded⟩
  have returns := moveEdges_returns op counts paired.filed.recorded liveNew liveOld own
  refine (returns.and (moveEdges_relinks op apart paired.filed)).to ?_
  rintro _ r' ⟨⟨noted, moved⟩, linked⟩
  have edge : ∀ x p, p ∈ (r'.accessOf x).peers ↔ _ := linked.edge
  have back (x : NodeId) : r.Edge old x ↔ r.Edge x old :=
    ⟨paired.symm old x, paired.symm x old⟩
  refine ⟨HandleSet.ext fun p => ?_, fun p => ?_, fun x notOld notNew p => ?_,
    fun x => ⟨linked.must x, linked.may x⟩, by rwa [counts],
    fun x other => Region.node?_eq_of_skeleton noted.same (noted.records x other), noted.same,
    noted.rest⟩
  · rw [edge]
    simp [loose.2, distinct.symm]
  · rw [edge]
    simp only [loose.1, distinct, ne_eq, not_false_eq_true, false_and, and_true,
      false_or, true_and]
    rfl
  · rw [edge, back]
    simp only [Region.Edge, notOld, notNew, ne_eq, not_false_eq_true, true_and, false_and, or_false]
    by_cases same : p = old
    · subst same
      tauto
    · tauto

/-- One end of every edge is a statement, and the other one is an expression. -/
def Region.Crossing (r : Region) : Prop :=
  ∀ x y d e, r.Edge x y → r.node? x = some d → r.node? y = some e → d.isStmt = !e.isStmt

theorem Region.crossing_of_nodes (h : ∀ i < r.nodes.size, ∀ p ∈ (r.accessOf ⟨i⟩).peers.toList,
    (r.node? ⟨i⟩).map Node.isStmt = (r.node? p).map (!·.isStmt)) : r.Crossing := by
  intro x y d e edge foundX foundY
  have differ := Region.forall_edge (P := fun x y =>
    (r.node? x).map Node.isStmt = (r.node? y).map (!·.isStmt)) h x y edge
  rw [foundX, foundY] at differ
  exact Option.some.inj differ

/-- No edge joins two nodes of one kind. -/
theorem Region.Crossing.loose (crossing : r.Crossing) (foundX : r.node? x = some d)
    (foundY : r.node? y = some e) (alike : d.isStmt = e.isStmt) : ¬r.Edge x y := by
  intro edge
  have differ := crossing x y d e edge foundX foundY
  rw [alike] at differ
  exact Bool.not_ne_self _ differ.symm

/-- A statement that takes over the reads of another one, and an expression that takes over the
definitions of another one, get exactly the edges of the old node. -/
theorem transfer_exact (counts : r.edgeCounts = some c) (paired : r.Paired) (crossing : r.Crossing)
    (foundNew : r.node? new = some d) (foundOld : r.node? old = some e) (distinct : new ≠ old) :
    (d.isStmt = true → e.isStmt = true →
      ∃ r', (changeDef new old).run r = .ok ((), r') ∧ Transferred r r' old new) ∧
    (d.isStmt = false → e.isStmt = false →
      ∃ r', (changeUse new old).run r = .ok ((), r') ∧ Transferred r r' old new) := by
  have moved (op : LinkOp) (alike : d.isStmt = e.isStmt) :
      Meets (moveEdges op new old) r (fun _ => False) fun _ r' => Transferred r r' old new :=
    moveEdges_transfers op counts paired ⟨d, foundNew⟩ ⟨e, foundOld⟩ distinct
      ⟨crossing.loose foundOld foundNew alike.symm, crossing.loose foundOld foundOld rfl⟩
  refine ⟨fun stmtNew stmtOld => ?_, fun exprNew exprOld => ?_⟩
  · suffices Meets (changeDef new old) r (fun _ => False) fun _ r' => Transferred r r' old new by
      obtain ⟨_, r', run, transferred⟩ := this.ends
      exact ⟨r', run, transferred⟩
    simp only [changeDef, Edit.isStmt, Edit.node, meets_bind, meets_and, meets_ask, meets_pure,
      Region.node_of foundNew, Region.node_of foundOld, yields_ok, stmtNew, stmtOld, if_true]
    exact moved _ (stmtNew.trans stmtOld.symm)
  · suffices Meets (changeUse new old) r (fun _ => False) fun _ r' => Transferred r r' old new by
      obtain ⟨_, r', run, transferred⟩ := this.ends
      exact ⟨r', run, transferred⟩
    simp only [changeUse, Edit.isExpr, Edit.node, meets_bind, meets_and, meets_ask, meets_pure,
      Region.node_of foundNew, Region.node_of foundOld, yields_ok, exprNew, exprOld]
    exact moved _ (exprNew.trans exprOld.symm)

/-- The store to all of `x` takes over the reads of the store to its lower half, of which it has one
already, and the load of the upper half takes over the definitions that reach the other one. -/
theorem transfer_twoHalves :
    (∃ r', (changeDef ⟨5⟩ ⟨3⟩).run .twoHalves = .ok ((), r') ∧ Transferred .twoHalves r' ⟨3⟩ ⟨5⟩) ∧
    ∃ r', (changeUse ⟨6⟩ ⟨0⟩).run .twoHalves = .ok ((), r') ∧
      Transferred .twoHalves r' ⟨0⟩ ⟨6⟩ := by
  have paired : Region.twoHalves.Paired := by
    refine ⟨by decide, Region.forall_edge ?_⟩
    show ∀ i < 8, ∀ p ∈ (Region.twoHalves.accessOf ⟨i⟩).peers.toList,
      ⟨i⟩ ∈ (Region.twoHalves.accessOf p).peers
    decide
  have crossing : Region.twoHalves.Crossing := by
    refine Region.crossing_of_nodes ?_
    show ∀ i < 8, ∀ p ∈ (Region.twoHalves.accessOf ⟨i⟩).peers.toList,
      (Region.twoHalves.node? ⟨i⟩).map Node.isStmt = (Region.twoHalves.node? p).map (!·.isStmt)
    decide
  exact ⟨(transfer_exact rfl paired crossing rfl rfl (by decide)).1 rfl rfl,
    (transfer_exact rfl paired crossing rfl rfl (by decide)).2 rfl rfl⟩

/-- `$1 = x; x = 1; x = 2`, where both stores reach the load and have one record in common. -/
def Region.sharedDefinition : Region :=
  { Region.empty ⟨8⟩ with
    nodes := #[
      some { Node.fresh .ld (.scalar .i32) (.ofVar ⟨0⟩ 0) [] with
        parent := some ⟨1⟩, record := some ⟨0⟩ },
      some { Node.fresh .stpr (.scalar .i32) (.ofRegister 1) [[⟨0⟩]] with block := some ⟨0⟩ },
      some { Node.ofInt 1 (.scalar .i32) with parent := some ⟨3⟩ },
      some { Node.fresh .st (.scalar .i32) (.ofVar ⟨0⟩ 0) [[⟨2⟩]] with
        block := some ⟨0⟩, record := some ⟨1⟩ },
      some { Node.ofInt 2 (.scalar .i32) with parent := some ⟨5⟩ },
      some { Node.fresh .st (.scalar .i32) (.ofVar ⟨0⟩ 0) [[⟨4⟩]] with
        block := some ⟨0⟩, record := some ⟨1⟩ }]
    blocks := #[[⟨1⟩, ⟨3⟩, ⟨5⟩]]
    records := #[⟨none, none, .ofList [⟨3⟩, ⟨5⟩]⟩, ⟨none, none, .ofList [⟨0⟩]⟩]
    edgeCounts := some ⟨2, 0, 0, 0⟩ }

/-- Taking the edges of one store takes those of the other one, and the load keeps its end. -/
theorem transfer_sharedDefinition :
    (∀ x y, Region.sharedDefinition.Edge x y → Region.sharedDefinition.Edge y x) ∧
    Region.sharedDefinition.Crossing ∧
    ∃ r', (changeDef ⟨1⟩ ⟨3⟩).run .sharedDefinition = .ok ((), r') ∧
      Region.sharedDefinition.Edge ⟨5⟩ ⟨0⟩ ∧ ¬r'.Edge ⟨5⟩ ⟨0⟩ ∧ r'.Edge ⟨0⟩ ⟨5⟩ := by
  have ran : Meets (changeDef ⟨1⟩ ⟨3⟩) .sharedDefinition (fun _ => False) fun _ r' =>
      ¬r'.Edge ⟨5⟩ ⟨0⟩ ∧ r'.Edge ⟨0⟩ ⟨5⟩ := by
    decide +kernel
  obtain ⟨_, r', run, gone, there⟩ := ran.ends
  refine ⟨Region.forall_edge ?_, Region.crossing_of_nodes ?_, r', run, by decide, gone, there⟩
  · show ∀ i < 6, ∀ p ∈ (Region.sharedDefinition.accessOf ⟨i⟩).peers.toList,
      ⟨i⟩ ∈ (Region.sharedDefinition.accessOf p).peers
    decide
  · show ∀ i < 6, ∀ p ∈ (Region.sharedDefinition.accessOf ⟨i⟩).peers.toList,
      (Region.sharedDefinition.node? ⟨i⟩).map Node.isStmt =
        (Region.sharedDefinition.node? p).map (!·.isStmt)
    decide

end Peephole
