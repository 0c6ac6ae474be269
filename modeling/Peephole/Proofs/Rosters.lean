import Peephole.Build
import Peephole.Proofs.Dropping

/-!
# Rosters

Where a statement is listed is kept twice: by the block that lists it, and by the statement, which
names its block. Every sequence of edits that builds nodes, changes kids, moves statements between
blocks and releases nodes keeps the two in step.
-/

namespace Peephole

open Edit

variable {α : Type} {r r' : Region} {n : NodeId} {d d' : Node} {b : BlockId} {ss ss' : List NodeId}
  {l : Layout}

namespace Region

/-- The statement lists of the blocks agree with what the nodes say. -/
structure Rosters (r : Region) : Prop where
  /-- A block lists exactly the live nodes that name it. -/
  named : ∀ n d b, r.node? n = some d → (r.Lists b n ↔ d.block = some b)
  nodup : ∀ b ss, r.stmts b = .ok ss → ss.Nodup
  /-- No block lists a released node or an expression. -/
  live : ∀ b n, r.Lists b n → ∃ d, r.node? n = some d ∧ d.isStmt = true
  /-- The layout order has every block once, and nothing else. -/
  order : ∀ b, r.order.count b = if b.index < r.blocks.size then 1 else 0

/-- The block that a live node names, and whether the node is a statement. -/
def seat (r : Region) (n : NodeId) : Option (BlockId × Bool) :=
  (r.node? n).bind fun d => d.block.map (·, d.isStmt)

theorem seat_of (found : r.node? n = some d) : r.seat n = d.block.map (·, d.isStmt) := by
  rw [seat, found, Option.bind_some]

theorem rosters_iff : r.Rosters ↔
    (∀ b n, r.Lists b n ↔ r.seat n = some (b, true)) ∧ (∀ n b, r.seat n ≠ some (b, false)) ∧
      (∀ b ss, r.stmts b = .ok ss → ss.Nodup) ∧
        ∀ b, r.order.count b = if b.index < r.blocks.size then 1 else 0 := by
  constructor
  · intro h
    have stmt {n : NodeId} {d : Node} {b : BlockId} (found : r.node? n = some d)
        (block : d.block = some b) : d.isStmt = true := by
      obtain ⟨e, found', stmt⟩ := h.live b n ((h.named n d b found).mpr block)
      rwa [Option.some.inj (found.symm.trans found')]
    refine ⟨fun b n => ⟨fun lists => ?_, fun seated => ?_⟩, fun n b seated => ?_, h.nodup, h.order⟩
    · obtain ⟨d, found, isStmt⟩ := h.live b n lists
      rw [seat_of found, (h.named n d b found).mp lists, isStmt]
      rfl
    · obtain ⟨d, found, at_b⟩ := Option.bind_eq_some_iff.mp seated
      obtain ⟨b', block, same⟩ := Option.map_eq_some_iff.mp at_b
      obtain rfl : b' = b := congrArg Prod.fst same
      exact (h.named n d b' found).mpr block
    · obtain ⟨d, found, at_b⟩ := Option.bind_eq_some_iff.mp seated
      obtain ⟨b', block, same⟩ := Option.map_eq_some_iff.mp at_b
      have expr : d.isStmt = false := congrArg Prod.snd same
      rw [stmt found block] at expr
      cases expr
  · rintro ⟨lists, stmts, nodup, order⟩
    refine ⟨fun n d b found => ?_, nodup, fun b n listed => ?_, order⟩
    · rw [lists, seat_of found]
      cases block : d.block with
      | none => simp
      | some b' =>
        have isStmt : d.isStmt = true := by
          have never := stmts n b'
          rw [seat_of found, block] at never
          simpa using never
        simp [isStmt]
    · obtain ⟨d, found, at_b⟩ := Option.bind_eq_some_iff.mp ((lists b n).mp listed)
      obtain ⟨b', _, same⟩ := Option.map_eq_some_iff.mp at_b
      exact ⟨d, found, congrArg Prod.snd same⟩

theorem rosters_empty : (empty l).Rosters := by
  have none (b : BlockId) (ss : List NodeId) : (empty l).stmts b ≠ .ok ss := by
    simp [stmts, lookup, empty]
  refine ⟨fun n d b found => ?_, fun b ss listed => absurd listed (none b ss), ?_, fun b => ?_⟩
  · simp [node?, empty] at found
  · rintro b n ⟨ss, listed, -⟩
    exact absurd listed (none b ss)
  · simp [empty]

namespace Rosters

/-- Only the lists, their order and where the nodes say that they are count. -/
theorem congr (h : r.Rosters) (blocks : r'.blocks = r.blocks) (order : r'.order = r.order)
    (seats : ∀ n, r'.seat n = r.seat n) : r'.Rosters := by
  rw [rosters_iff] at h ⊢
  simpa only [Lists, stmts, blocks, order, seats] using h

theorem put (h : r.Rosters) (found : r.node? n = some d) (block : d'.block = d.block)
    (code : d'.code = d.code) : (r.put n (some d')).Rosters := by
  refine h.congr rfl rfl fun m => ?_
  rw [seat, seat, node?_put (lt_size_of_node? found)]
  split
  · rename_i same
    rw [same, found, Option.bind_some, Option.bind_some, block, Node.isStmt, Node.isStmt, code]
  · rfl

theorem push (h : r.Rosters) (free : d.block = none) : (r.push d).Rosters := by
  refine h.congr rfl rfl fun m => ?_
  rw [seat, seat, node?_push]
  split
  · rename_i same
    rw [same, node?_next, Option.bind_some, free]
    rfl
  · rfl

/-- A statement is put on the list of `b` or taken off it, and says so. -/
theorem reseat (h : r.Rosters) (found : r.node? n = some d) (before : ∀ c, d.block = some c → c = b)
    (after : ∀ c, d'.block = some c → c = b) (stmt : d'.isStmt = true) (listed : r.stmts b = .ok ss)
    (nodup : ss'.Nodup) (mem : ∀ m, m ∈ ss' ↔ if m = n then d'.block = some b else m ∈ ss) :
    ((r.relist b ss').put n (some d')).Rosters := by
  obtain ⟨lists, stmts, nodups, order⟩ := rosters_iff.mp h
  have now (c : BlockId) : ((r.relist b ss').put n (some d')).stmts c =
      if c = b then .ok ss' else r.stmts c := stmts_setStmts listed
  have there : (r.relist b ss').node? n = some d := found
  have seats (m : NodeId) : ((r.relist b ss').put n (some d')).seat m =
      if m = n then d'.block.map (·, true) else r.seat m := by
    rw [seat, node?_put (lt_size_of_node? there)]
    split
    · rw [Option.bind_some, stmt]
    · rfl
  refine rosters_iff.mpr ⟨fun c m => ?_, fun m c => ?_, fun c ss₁ listed₁ => ?_, ?_⟩
  · rw [seats, Lists, now]
    by_cases at_b : c = b
    · subst at_b
      simp only [if_true, Except.ok.injEq, exists_eq_left']
      rw [mem]
      split
      · simp
      · rw [← lists, Lists]
        simp [listed]
    · rw [if_neg at_b, ← Lists, lists]
      split
      · rename_i same
        rw [same, seat_of found]
        constructor
        · intro seated
          obtain ⟨c', block, same'⟩ := Option.map_eq_some_iff.mp seated
          obtain rfl : c' = c := congrArg Prod.fst same'
          exact absurd (before c' block) at_b
        · intro seated
          obtain ⟨c', block, same'⟩ := Option.map_eq_some_iff.mp seated
          obtain rfl : c' = c := congrArg Prod.fst same'
          exact absurd (after c' block) at_b
      · rfl
  · rw [seats]
    split
    · simp
    · exact stmts m c
  · rw [now] at listed₁
    split at listed₁
    · exact Except.ok.inj listed₁ ▸ nodup
    · exact nodups c ss₁ listed₁
  · simpa [Region.put, relist] using order

theorem addBlock (h : r.Rosters) :
    Rosters { r with blocks := r.blocks.push [], order := r.order ++ [⟨r.blocks.size⟩] } := by
  obtain ⟨lists, stmts, nodups, order⟩ := rosters_iff.mp h
  have now (c : BlockId) (ss : List NodeId) : Region.stmts
      { r with blocks := r.blocks.push [], order := r.order ++ [⟨r.blocks.size⟩] } c = .ok ss ↔
        r.stmts c = .ok ss ∨ c.index = r.blocks.size ∧ ss = [] := by
    simp only [Region.stmts, lookup, Array.getElem?_push]
    by_cases last : c.index = r.blocks.size
    · simp [last, eq_comm]
    · simp [last]
  refine rosters_iff.mpr ⟨fun c m => ?_, stmts, fun c ss listed => ?_, fun c => ?_⟩
  · refine Iff.trans ?_ (lists c m)
    simp only [Lists, now]
    grind
  · rcases (now c ss).mp listed with old | ⟨-, rfl⟩
    · exact nodups c ss old
    · exact List.nodup_nil
  · have last : (⟨r.blocks.size⟩ : BlockId) = c ↔ c.index = r.blocks.size := by
      rw [← Handle.index_inj, eq_comm]
    simp only [List.count_append, order, List.count_singleton, beq_iff_eq, last, Array.size_push]
    grind

end Rosters

end Region

/-! ### Edits -/

/-- Every run of the edit that returns keeps lists and nodes in step. -/
abbrev KeepsRosters (m : Edit α) : Prop := Keeps Region.Rosters (fun _ => True) m

theorem ask_keeps {I : Region → Prop} {q : Region → Except Fault α} :
    Keeps I (fun _ => True) (ask q) :=
  .ask fun _ => yields_iff.mpr ⟨fun _ _ => trivial, fun _ _ => trivial⟩

theorem node_rosters : KeepsRosters (node n) := ask_keeps

theorem modifyNode_rosters {f : Node → Node}
    (same : ∀ d, (f d).block = d.block ∧ (f d).code = d.code) : KeepsRosters (modifyNode n f) :=
  fun _ h => Meets.modifyNode (fun _ => trivial) fun d found =>
    h.put found (same d).1 (same d).2

theorem setParent_rosters {p : Option NodeId} : KeepsRosters (setParent n p) :=
  modifyNode_rosters fun _ => ⟨rfl, rfl⟩

theorem setParents_rosters {ks : List NodeId} {p : Option NodeId} :
    KeepsRosters (ks.forM (setParent · p)) := .forM fun _ => setParent_rosters

/-- Other kids in one slot of a node. -/
theorem Region.Rosters.fill (h : r.Rosters) (found : r.node? n = some d) (i : Nat)
    (ks : List NodeId) :
    Yields (d.setSlot i ks) (fun _ => True) fun d' => (r.put n (some d')).Rosters :=
  Node.yields_setSlot (fun _ => trivial) fun _ => h.put found rfl rfl

theorem setKid_rosters {i : Nat} {x : Option NodeId} : KeepsRosters (setKid n i x) := by
  intro r h
  simp only [setKid, meets_bind, meets_ask, meets_lift, meets_putNode, setParent_option]
  refine Region.yields_nodeToEdit (fun d found => ?_) fun _ => trivial
  exact (h.fill found i x.toList).imp (fun _ => id) fun _ _ => setParents_rosters _

theorem setKids_rosters {i : Nat} {ks : List NodeId} : KeepsRosters (setKids n i ks) := by
  refine .bind setParents_rosters fun _ => fun r h => ?_
  simp only [meets_bind, meets_ask, meets_lift, meets_putNode]
  exact Region.yields_nodeToEdit (fun d found => h.fill found i ks) fun _ => trivial

theorem takeKids_rosters {i : Nat} : KeepsRosters (takeKids n i) := by
  intro r h
  simp only [takeKids, meets_bind, meets_ask, meets_lift, meets_putNode, meets_pure]
  refine Region.yields_nodeToEdit (fun d found => ?_) fun _ => trivial
  refine Node.yields_slot (fun _ => trivial) fun ks _ => ?_
  exact (h.fill found i []).imp (fun _ => id) fun _ _ => setParents_rosters _

theorem replaceKid_rosters {old new : NodeId} : KeepsRosters (replaceKid n old new) := by
  intro r h
  simp only [replaceKid, meets_bind, meets_ask]
  refine Region.yields_nodeToEdit (fun d found => ?_) fun _ => trivial
  split
  · simp only [meets_bind, meets_putNode, meets_pure]
    exact setParent_rosters _ (h.put found rfl rfl)
  · exact h

theorem adoptKids_rosters : KeepsRosters (adoptKids n) :=
  .bind node_rosters fun _ => setParents_rosters

theorem adoptAll_rosters : KeepsRosters (adoptAll n) := by
  have within (fuel : Nat) (n : NodeId) : KeepsRosters (adoptAllWithin fuel n) := by
    induction fuel generalizing n with
    | zero => exact .throw trivial
    | succ fuel ih =>
      exact .bind node_rosters fun _ => .forM fun k => .bind setParent_rosters fun _ => ih k
  exact .bind .get fun _ => within _ n

theorem create_rosters : KeepsRosters (create d) := by
  unfold create
  split
  · exact fun _ _ => trivial
  · rename_i free
    have unlisted : d.block = none := by simp_all
    refine .bind (.modifyGet fun r h => ?_) fun _ => .bind setParents_rosters fun _ => .pure _
    exact h.push unlisted

theorem intern_rosters {t : Ty} : KeepsRosters (intern t) := by
  refine .bind (.modify fun r h => ?_) fun _ => .pure _
  split
  · exact h
  · exact h.congr rfl rfl fun _ => rfl

theorem modifySsa_rosters {v : SsaId} {f : SsaValue → SsaValue} : KeepsRosters (modifySsa v f) :=
  .bind ask_keeps fun _ => .modify fun _ h => h.congr rfl rfl fun _ => rfl

theorem addSsaUse_rosters {v : SsaId} : KeepsRosters (addSsaUse v n) := by
  refine .bind node_rosters fun d => ?_
  have use : KeepsRosters (do
      setSsa n (some v)
      modifySsa v fun d => { d with uses := d.uses.insert n }) :=
    .bind (modifyNode_rosters fun _ => ⟨rfl, rfl⟩) fun _ => modifySsa_rosters
  exact .ite (.bind (.throw trivial) fun _ => use) use

theorem duplicate_rosters : KeepsRosters (duplicate n) := by
  have within (fuel : Nat) (n : NodeId) : KeepsRosters (duplicateWithin fuel n) := by
    induction fuel generalizing n with
    | zero => exact .throw trivial
    | succ fuel ih =>
      refine .bind node_rosters fun d => .bind (.mapM fun _ => .mapM ih) fun _ => ?_
      refine .bind create_rosters fun copy => ?_
      split
      · exact .bind addSsaUse_rosters fun _ => .pure _
      · exact .pure _
  exact .bind .get fun _ => within _ n

/-! ### Blocks -/

theorem createBlock_rosters : KeepsRosters createBlock := .modifyGet fun _ h => h.addBlock

/-- An unattached statement joins a block. -/
theorem Region.Rosters.enrol (h : r.Rosters) (found : r.node? n = some d) (stmt : d.isStmt = true)
    (free : d.block = none) (listed : r.stmts b = .ok ss) (joined : ss'.Perm (n :: ss)) :
    ((r.relist b ss').put n (some { d with block := some b })).Rosters := by
  have out : n ∉ ss := by
    intro mem
    have named := (h.named n d b found).mp ⟨ss, listed, mem⟩
    rw [free] at named
    cases named
  refine h.reseat found (by simp [free]) (fun c => Eq.symm ∘ Option.some.inj) stmt listed ?_ ?_
  · exact joined.nodup_iff.mpr (List.nodup_cons.mpr ⟨out, h.nodup b ss listed⟩)
  · intro m
    rw [joined.mem_iff, List.mem_cons]
    split <;> simp_all

theorem attach_rosters {m : List NodeId → Edit Unit} (h : r.Rosters)
    (place : ∀ ss r', Meets (m ss) r' (fun _ => True) fun _ r'' =>
      ∃ ss', ss'.Perm (n :: ss) ∧ r'' = r'.relist b ss') :
    Meets (do attach b n; m (← stmts b)) r (fun _ => True) fun _ r' => r'.Rosters := by
  simp only [attach, Edit.stmts, meets_bind, meets_ask]
  refine Region.yields_nodeToEdit (fun d found => ?_) fun _ => trivial
  split
  · exact trivial
  split
  · exact trivial
  rename_i stmt free
  simp only [meets_putNode]
  refine yields_iff.mpr ⟨fun ss listed => (place ss _).to ?_, fun _ _ => trivial⟩
  rintro _ _ ⟨ss', joined, rfl⟩
  exact h.enrol found (by simpa using stmt) (by simp_all) listed joined

theorem appendStmt_rosters : KeepsRosters (appendStmt b n) :=
  fun _ h => attach_rosters h fun ss _ => ⟨_, List.perm_append_singleton n ss, rfl⟩

theorem insertStmt_rosters {pos : Nat} : KeepsRosters (insertStmt b pos n) := by
  refine fun _ h => attach_rosters h fun ss r' => ?_
  split
  · exact trivial
  · have joined : (ss.take pos ++ n :: ss.drop pos).Perm (n :: (ss.take pos ++ ss.drop pos)) :=
      List.perm_middle
    rw [List.take_append_drop] at joined
    exact ⟨_, joined, rfl⟩

theorem unlinkStmt_rosters : KeepsRosters (unlinkStmt b n) := by
  refine fun r h => .unlinkStmt (fun _ _ => trivial) (fun _ => h) fun ss listed mem => ?_
  -- a listed statement is live and names this block, so no check fails
  obtain ⟨d, found, stmt⟩ := h.live b n ⟨ss, listed, mem⟩
  have block := (h.named n d b found).mp ⟨ss, listed, mem⟩
  refine ⟨d, found, block, h.reseat found (fun c named => ?_) (by simp) stmt listed
    ((h.nodup b ss listed).erase n) fun m => ?_⟩
  · exact Option.some.inj (named.symm.trans block)
  · rw [(h.nodup b ss listed).mem_erase_iff]
    split <;> simp_all

theorem replaceStmt_rosters {old new : NodeId} : KeepsRosters (replaceStmt b old new) := by
  refine .bind ask_keeps fun ss => ?_
  split
  · exact .bind unlinkStmt_rosters.discard fun _ => .bind insertStmt_rosters fun _ => .pure _
  · exact .pure _

/-! ### Release -/

theorem Region.Rosters.unlinked (h : r.Rosters) :
    Yields (r.checkUnlinked n) (fun _ => True) fun _ => r.seat n = none := by
  simp only [Region.checkUnlinked, yields_bind]
  refine Region.yields_node (fun d found => ?_) fun _ => trivial
  rw [Region.seat_of found]
  cases block : d.block with
  | none => rfl
  | some b =>
    obtain ⟨ss, listed, mem⟩ := (h.named n d b found).mpr block
    simp [listed, mem]

theorem dropNodes_rosters {ns : List NodeId} (h : r.Rosters) (free : ∀ m ∈ ns, r.seat m = none) :
    Meets (ns.forM dropNode) r (fun _ => True) fun _ r' => r'.Rosters := by
  -- the nodes that are still to be dropped name no block either
  let I (r : Region) : Prop := r.Rosters ∧ ∀ m ∈ ns, r.seat m = none
  have drop {m : NodeId} (mem : m ∈ ns) : Keeps I (fun _ => True) (dropNode m) := by
    have forget : Keeps I (fun _ => True) (forgetSsa m) := by
      refine .bind ask_keeps fun d => ?_
      split
      · exact .bind ask_keeps fun _ => .modify fun _ now =>
          ⟨now.1.congr rfl rfl fun _ => rfl, now.2⟩
      · exact .pure _
    refine .bind forget fun _ => fun r now => ?_
    simp only [Edit.node, meets_bind, meets_ask, meets_modify]
    refine Region.yields_node (fun d found => ?_) fun _ => trivial
    have seats (k : NodeId) : (r.put m none).seat k = r.seat k := by
      rw [Region.seat, Region.node?_put (Region.lt_size_of_node? found)]
      split
      · rename_i same
        rw [same, now.2 m mem, Option.bind_none]
      · rfl
    exact ⟨now.1.congr rfl rfl seats, fun k mem => (seats k).trans (now.2 k mem)⟩
  exact (Meets.forM ⟨h, free⟩ fun m mem r now => drop mem r now).to fun _ _ => And.left

theorem releaseAll_rosters {ns : List NodeId} : KeepsRosters (releaseAll ns) := by
  intro r h
  simp only [releaseAll, meets_bind, meets_ask]
  refine (Yields.forM_forall fun m _ => h.unlinked).imp (fun _ => id) fun _ _ free => ?_
  exact yields_iff.mpr ⟨fun _ _ => dropNodes_rosters h free, fun _ _ => trivial⟩

theorem release_rosters : KeepsRosters (release n) :=
  .bind node_rosters fun _ => .ite (fun _ _ => trivial) releaseAll_rosters

theorem releaseTree_rosters : KeepsRosters (releaseTree n) :=
  .bind ask_keeps fun _ => releaseAll_rosters

/-! ### Histories -/

/-- What a client may ask of a region. Builders of nodes are made of `type` and `create`. -/
inductive Command
  | addVariable (v : Variable)
  | newLabel
  | type (t : Ty)
  | create (d : Node)
  | duplicate (n : NodeId)
  | setTy (n : NodeId) (t : Ty)
  | setAttrs (n : NodeId) (attrs : Attrs)
  | setParent (n : NodeId) (parent : Option NodeId)
  | setKid (n : NodeId) (i : Nat) (k : Option NodeId)
  | setKids (n : NodeId) (i : Nat) (ks : List NodeId)
  | takeKids (n : NodeId) (i : Nat)
  | replaceKid (parent old new : NodeId)
  | adoptKids (n : NodeId)
  | adoptAll (n : NodeId)
  | createBlock
  | append (b : BlockId) (s : NodeId)
  | insert (b : BlockId) (pos : Nat) (s : NodeId)
  | unlink (b : BlockId) (s : NodeId)
  | replace (b : BlockId) (old new : NodeId)
  | release (n : NodeId)
  | releaseTree (n : NodeId)

def Command.perform : Command → Edit Unit
  | addVariable v => discard (Edit.addVariable v)
  | newLabel => discard Edit.newLabel
  | type t => discard (intern t)
  | create d => discard (Edit.create d)
  | duplicate n => discard (Edit.duplicate n)
  | setTy n t => Edit.setTy n t
  | setAttrs n attrs => Edit.setAttrs n attrs
  | setParent n parent => Edit.setParent n parent
  | setKid n i k => Edit.setKid n i k
  | setKids n i ks => Edit.setKids n i ks
  | takeKids n i => discard (Edit.takeKids n i)
  | replaceKid parent old new => discard (Edit.replaceKid parent old new)
  | adoptKids n => Edit.adoptKids n
  | adoptAll n => Edit.adoptAll n
  | createBlock => discard Edit.createBlock
  | append b s => appendStmt b s
  | insert b pos s => insertStmt b pos s
  | unlink b s => discard (unlinkStmt b s)
  | replace b old new => discard (replaceStmt b old new)
  | release n => Edit.release n
  | releaseTree n => Edit.releaseTree n

theorem perform_rosters (c : Command) : KeepsRosters c.perform := by
  cases c with
  | addVariable v => exact .discard (.modifyGet fun _ h => h.congr rfl rfl fun _ => rfl)
  | newLabel => exact .discard (.modifyGet fun _ h => h.congr rfl rfl fun _ => rfl)
  | type t => exact .discard intern_rosters
  | create d => exact .discard create_rosters
  | duplicate n => exact .discard duplicate_rosters
  | setTy n t => exact modifyNode_rosters fun _ => ⟨rfl, rfl⟩
  | setAttrs n attrs => exact modifyNode_rosters fun _ => ⟨rfl, rfl⟩
  | setParent n parent => exact setParent_rosters
  | setKid n i k => exact setKid_rosters
  | setKids n i ks => exact setKids_rosters
  | takeKids n i => exact .discard takeKids_rosters
  | replaceKid parent old new => exact .discard replaceKid_rosters
  | adoptKids n => exact adoptKids_rosters
  | adoptAll n => exact adoptAll_rosters
  | createBlock => exact .discard createBlock_rosters
  | append b s => exact appendStmt_rosters
  | insert b pos s => exact insertStmt_rosters
  | unlink b s => exact .discard unlinkStmt_rosters
  | replace b old new => exact .discard replaceStmt_rosters
  | release n => exact release_rosters
  | releaseTree n => exact releaseTree_rosters

/-- In every region that a history of commands leads to, blocks and statements agree on where the
statements are: each block lists the live statements that name it, each once, and the layout order
has each block once. -/
theorem Region.rosters_of_history (history : List Command)
    (run : (history.forM Command.perform).run (Region.empty l) = .ok ((), r)) : r.Rosters := by
  have kept : KeepsRosters (history.forM Command.perform) := .forM perform_rosters
  exact (meets_iff.mp (kept _ Region.rosters_empty)).1 _ _ run

/-- A history in which statements join two blocks, change places, are replaced and released. -/
def Command.shuffle : List Command :=
  [.createBlock, .createBlock,
    .create (.fresh .goto (.scalar .void) (.ofLabel ⟨0⟩) []),
    .create (.fresh .label (.scalar .void) (.ofLabel ⟨0⟩) []),
    .create (.fresh .const (.scalar .i32) (.ofLiteral (.int 7)) []),
    .create (.fresh .stpr (.scalar .i32) (.ofRegister 1) [[⟨2⟩]]),
    .append ⟨0⟩ ⟨0⟩, .insert ⟨0⟩ 0 ⟨1⟩, .duplicate ⟨3⟩, .replace ⟨0⟩ ⟨0⟩ ⟨5⟩, .append ⟨1⟩ ⟨0⟩,
    .unlink ⟨0⟩ ⟨1⟩, .insert ⟨1⟩ 1 ⟨1⟩, .releaseTree ⟨3⟩]

theorem shuffle_populates : Meets (Command.shuffle.forM Command.perform) (Region.empty ⟨8⟩)
    (fun _ => False) fun _ r => r.blocks = #[[⟨5⟩], [⟨0⟩, ⟨1⟩]] ∧ r.isReleased ⟨3⟩ = true := by
  decide +kernel

/-- After the shuffle both blocks list statements, and one statement is gone. -/
theorem Region.rosters_of_shuffle : ∃ r, r.Rosters ∧
    (Command.shuffle.forM Command.perform).run (Region.empty ⟨8⟩) = .ok ((), r) ∧
      r.blocks = #[[⟨5⟩], [⟨0⟩, ⟨1⟩]] ∧ r.isReleased ⟨3⟩ = true := by
  obtain ⟨_, r, run, lists⟩ := shuffle_populates.ends
  exact ⟨r, Region.rosters_of_history Command.shuffle run, run, lists⟩

end Peephole
