import Peephole.Proofs.Dropping
import Peephole.Proofs.Justified

/-!
# Locations under refinement

Refinement writes exact locations into the records of the nodes that it makes, and into no others.
Where every node has its own record, a node that is there before and after accesses the same
location. A node that has no record at first may be given one for its edges, which says nothing of
a location (`refineSlot_inexact`).
-/

namespace Peephole

open Edit

variable {α : Type} {s : Setting} {S : NodeId → Prop} {r r₀ r' r'' : Region} {n m p : NodeId}
  {d : Node}

/-- From `r` to `r'`, the nodes of `S` that are still live access what they did. Their records and
those of the nodes that are new in `r'` are their own; a node of `S` that accesses no exact location
may have its record in common with other nodes of `r`. -/
structure SameTargets (S : NodeId → Prop) (r r' : Region) : Prop where
  old : ∀ m, S m → m.index < r.nodes.size
  size : r.nodes.size ≤ r'.nodes.size
  locations : ∃ more, r'.locations = r.locations ++ more
  kept : ∀ m, S m → r'.Live m → r.Live m ∧ (r'.accessOf m).must = (r.accessOf m).must
  inside : ∀ m i, S m ∨ r.nodes.size ≤ m.index → r'.recordOf m = some i →
    i.index < r'.records.size
  own : ∀ m m' i, S m ∨ r.nodes.size ≤ m.index → S m' ∨ r.nodes.size ≤ m'.index →
    r'.recordOf m = some i → r'.recordOf m' = some i → m = m'
  others : ∀ m m' i, S m → r'.recordOf m = some i → r'.recordOf m' = some i →
    (S m' ∨ r.nodes.size ≤ m'.index) ∨ (r.accessOf m).must = none

theorem Aside.live {ms : List NodeId} (h : Aside ms r r') (out : m ∉ ms) (live : r'.Live m) :
    r.Live m := by
  obtain ⟨d', found⟩ := live
  have same := h.core m out
  rw [Region.core, Region.core, found, Option.map_some, eq_comm, Option.map_eq_some_iff] at same
  obtain ⟨d, found, _⟩ := same
  exact ⟨d, found⟩

namespace Region

theorem access_of_filed (filed : r.Filed) (live : r.Live m) : r.access m = .ok (r.accessOf m) := by
  obtain ⟨d, found⟩ := live
  cases record : d.record with
  | none =>
    rw [accessOf_of_none (by rw [recordOf_of found, record]), access, node_of found]
    simp [access?, record, bind, Except.bind, pure, Except.pure]
  | some i =>
    have inside := filed.inside m i (by rw [recordOf_of found, record])
    have look := Array.getElem?_eq_getElem inside
    rw [accessOf_of found record look, access, node_of found]
    simp [access?, record, lookup, look, bind, Except.bind, pure, Except.pure]

/-- The locations of records without edges are known. -/
theorem Unlinked.must_inside {x : LocationId} (unlinked : r.Unlinked)
    (must : (r.accessOf m).must = some x) : x.index < r.locations.size := by
  cases found : r.node? m with
  | none =>
    rw [accessOf_of_none (by rw [recordOf, found, Option.bind_none])] at must
    cases must
  | some d =>
    cases record : d.record with
    | none =>
      rw [accessOf_of_none (by rw [recordOf_of found, record])] at must
      cases must
    | some i =>
      obtain ⟨a, look, _, known⟩ := unlinked.records m d i found record
      rw [accessOf_of found record look] at must
      exact known x must

end Region

namespace SameTargets

abbrev Kept (S : NodeId → Prop) (r₀ : Region) (m : Edit α) : Prop :=
  Keeps (SameTargets S r₀) (fun _ => True) m

/-! ### All nodes -/

theorem refl (filed : r.Filed) : SameTargets (·.index < r.nodes.size) r r where
  old := fun _ => id
  size := le_rfl
  locations := ⟨#[], Array.append_empty.symm⟩
  kept := fun _ _ live => ⟨live, rfl⟩
  inside := fun m i _ => filed.inside m i
  own := fun m m' i _ _ => filed.own m m' i
  others := fun _ _ _ _ _ _ => .inl (Nat.lt_or_ge _ _)

theorem filed (h : SameTargets (·.index < r.nodes.size) r r') : r'.Filed :=
  ⟨fun m i => h.inside m i (Nat.lt_or_ge _ _),
    fun m m' i => h.own m m' i (Nat.lt_or_ge _ _) (Nat.lt_or_ge _ _)⟩

theorem trans (first : SameTargets (·.index < r.nodes.size) r r')
    (second : SameTargets (·.index < r'.nodes.size) r' r'') :
    SameTargets (·.index < r.nodes.size) r r'' := by
  obtain ⟨more, added⟩ := first.locations
  obtain ⟨more', added'⟩ := second.locations
  refine ⟨fun _ => id, first.size.trans second.size,
    ⟨more ++ more', by rw [added', added, Array.append_assoc]⟩, fun m old live => ?_,
    fun m i _ => second.filed.inside m i, fun m m' i _ _ => second.filed.own m m' i,
    fun _ _ _ _ _ _ => .inl (Nat.lt_or_ge _ _)⟩
  obtain ⟨live', same'⟩ := second.kept m (old.trans_le first.size) live
  obtain ⟨live, same⟩ := first.kept m old live'
  exact ⟨live, same'.trans same⟩

/-- The location that a node accesses, if it is exact. -/
theorem exactRef? (h : SameTargets (·.index < r.nodes.size) r r') (unlinked : r.Unlinked)
    (filed : r.Filed) (old : m.index < r.nodes.size) (live : r'.Live m) :
    r'.exactRef? m = r.exactRef? m := by
  obtain ⟨before, same⟩ := h.kept m old live
  obtain ⟨more, added⟩ := h.locations
  simp only [Region.exactRef?, Region.access_of_filed h.filed live,
    Region.access_of_filed filed before, bind, Except.bind, same]
  cases must : (r.accessOf m).must with
  | none => rfl
  | some x =>
    have look : r'.locations[x.index]? = r.locations[x.index]? := by
      rw [added, Array.getElem?_append_left (unlinked.must_inside must)]
    simp only [Region.location, Region.lookup, look]

/-! ### Records -/

/-- Neither records nor locations were touched. -/
theorem ofRecords (h : SameTargets S r₀ r) (same : SameRecords r r')
    (size : r.nodes.size ≤ r'.nodes.size)
    (live : ∀ m : NodeId, m.index < r.nodes.size → r'.Live m → r.Live m) :
    SameTargets S r₀ r' := by
  refine ⟨h.old, h.size.trans size, same.locations ▸ h.locations, fun m mem now => ?_, ?_, ?_, ?_⟩
  · rw [same.accessOf]
    exact h.kept m mem (live m ((h.old m mem).trans_le h.size) now)
  · rw [same.recordOf, same.records]
    exact h.inside
  · rw [same.recordOf]
    exact h.own
  · rw [same.recordOf]
    exact h.others

theorem aside (h : SameTargets S r₀ r) {blocks types ssa edgeCounts events} :
    SameTargets S r₀ { r with blocks, types, ssa, edgeCounts, events } :=
  ⟨h.old, h.size, h.locations, h.kept, h.inside, h.own, h.others⟩

theorem put {d' : Node} (h : SameTargets S r₀ r) (found : r.node? n = some d)
    (record : d'.record = d.record) : SameTargets S r₀ (r.put n (some d')) := by
  refine h.ofRecords (.put found record) Region.size_put.ge ?_
  rintro m _ ⟨x, at_m⟩
  rw [Region.node?_put (Region.lt_size_of_node? found)] at at_m
  split at at_m
  · rename_i same
    exact ⟨d, same ▸ found⟩
  · exact ⟨x, at_m⟩

theorem push (h : SameTargets S r₀ r) (record : d.record = none) :
    SameTargets S r₀ (r.push d) := by
  refine h.ofRecords (.push record) (by simp) ?_
  rintro m old ⟨x, at_m⟩
  have other : m ≠ r.next := by
    rintro rfl
    exact Nat.lt_irrefl _ old
  rw [Region.node?_push, if_neg other] at at_m
  exact ⟨x, at_m⟩

theorem locate {x : Location} (h : SameTargets S r₀ r) :
    SameTargets S r₀ { r with locations := r.locations.push x } := by
  obtain ⟨more, added⟩ := h.locations
  refine ⟨h.old, h.size, ⟨more.push x, ?_⟩, h.kept, h.inside, h.own, h.others⟩
  rw [added, Array.push_append]

/-- A record is rewritten. -/
theorem rewrite {i : RecordId} {b : Access} (h : SameTargets S r₀ r)
    (spares : ∀ m, S m → r.recordOf m = some i → b.must = (r₀.accessOf m).must) :
    SameTargets S r₀ { r with records := r.records.setIfInBounds i.index b } := by
  refine ⟨h.old, h.size, h.locations, fun m mem live => ⟨(h.kept m mem live).1, ?_⟩,
    fun m j whose has => ?_, h.own, h.others⟩
  · have must := (h.kept m mem live).2
    simp only [Region.accessOf, show Region.recordOf { r with
      records := r.records.setIfInBounds i.index b } m = r.recordOf m from rfl] at must ⊢
    cases has : r.recordOf m with
    | none => rwa [has] at must
    | some j =>
      have inside := h.inside m j (.inl mem) has
      rw [has, Option.bind_some] at must
      rw [Option.bind_some, Array.getElem?_setIfInBounds]
      split
      · rename_i same
        obtain rfl := Handle.index_inj.mp same
        rw [if_pos inside, Option.getD_some]
        exact spares m mem has
      · exact must
  · simpa using h.inside m j whose has

/-- A node is given a record. -/
theorem add {b : Access} (h : SameTargets S r₀ r) (found : r.node? n = some d)
    (bare : d.record = none) (spares : r₀.nodes.size ≤ n.index ∨ b.must = none) :
    SameTargets S r₀ (Region.put { r with records := r.records.push b } n
      (some { d with record := some ⟨r.records.size⟩ })) := by
  have recordOf := Region.recordOf_add found b
  have fresh (m : NodeId) (whose : S m ∨ r₀.nodes.size ≤ m.index) :
      r.recordOf m ≠ some ⟨r.records.size⟩ := fun has =>
    absurd (h.inside m _ whose has) (Nat.lt_irrefl _)
  have clean (mem : S n) : (r₀.accessOf n).must = none := by
    have none : r.recordOf n = Option.none := by rw [Region.recordOf_of found, bare]
    rw [← (h.kept n mem ⟨d, found⟩).2, Region.accessOf_of_none none]
    rfl
  refine ⟨h.old, h.size.trans (Region.size_put (r := { r with records := _ })).ge, h.locations,
    fun m mem live => ?_, fun m j whose => ?_, fun m m' j whose whose' => ?_, fun m m' j mem => ?_⟩
  · rw [Region.accessOf, recordOf]
    split
    · rename_i here
      subst here
      have kept := spares.resolve_left fun new => absurd (h.old m mem) (Nat.not_lt.mpr new)
      refine ⟨(h.kept m mem ⟨d, found⟩).1, ?_⟩
      simpa [Region.put, clean mem] using kept
    · rename_i other
      obtain ⟨e, at_m⟩ := live
      rw [Region.node?_put (r := { r with records := r.records.push b })
          (Region.lt_size_of_node? found),
        if_neg other] at at_m
      obtain ⟨before, must⟩ := h.kept m mem ⟨e, at_m⟩
      refine ⟨before, must ▸ ?_⟩
      rw [Region.accessOf]
      cases has : r.recordOf m with
      | none => rfl
      | some j =>
        have inside := h.inside m j (.inl mem) has
        simp only [Region.put, Option.bind_some, Array.getElem?_push, if_neg inside.ne]
  · rw [recordOf]
    simp only [Region.put, Array.size_push]
    split
    · rintro ⟨⟩
      exact Nat.lt_succ_self _
    · exact fun has => Nat.lt_succ_of_lt (h.inside m j whose has)
  · rw [recordOf, recordOf]
    split <;> split
    · rename_i left right
      exact fun _ _ => left.trans right.symm
    · rintro ⟨⟩ has
      exact absurd has (fresh m' whose')
    · rintro has ⟨⟩
      exact absurd has (fresh m whose)
    · exact h.own m m' j whose whose'
  · rw [recordOf, recordOf]
    split
    · rename_i here
      exact fun _ _ => .inr (here ▸ clean (here ▸ mem))
    · split
      · rintro has ⟨⟩
        exact absurd has (fresh m (.inl mem))
      · exact h.others m m' j mem

/-- A node is released. -/
theorem leave (h : SameTargets S r₀ r) (found : r.node? n = some d) :
    SameTargets S r₀ (r.put n none) := by
  have inside := Region.lt_size_of_node? found
  have recordOf (m : NodeId) :
      (r.put n none).recordOf m = if m = n then none else r.recordOf m := by
    unfold Region.recordOf
    rw [Region.node?_put inside]
    split <;> rfl
  have before (m : NodeId) (i : RecordId) (has : (r.put n none).recordOf m = some i) :
      r.recordOf m = some i := by
    rw [recordOf] at has
    split at has
    · cases has
    · exact has
  refine ⟨h.old, h.size.trans Region.size_put.ge, h.locations, ?_,
    fun m i whose has => h.inside m i whose (before m i has),
    fun m m' i whose whose' has has' =>
      h.own m m' i whose whose' (before m i has) (before m' i has'),
    fun m m' i mem has has' => h.others m m' i mem (before m i has) (before m' i has')⟩
  rintro m mem ⟨e, at_m⟩
  rw [Region.node?_put inside] at at_m
  split at at_m
  · cases at_m
  · rename_i other
    rw [Region.accessOf, recordOf, if_neg other]
    exact h.kept m mem ⟨e, at_m⟩

theorem ask {q : Region → Except Fault α} : Kept S r₀ (Edit.ask q) :=
  .ask fun _ => yields_iff.mpr ⟨fun _ _ => trivial, fun _ _ => trivial⟩

/-- The accesses of new nodes may be changed, and those of others but for the exact location. -/
theorem modifyAccess {f : Access → Access}
    (spares : r₀.nodes.size ≤ m.index ∨ ∀ a, (f a).must = a.must) :
    Kept S r₀ (modifyAccess m f) := by
  intro r h
  simp only [Edit.modifyAccess, Edit.node, meets_bind, meets_ask]
  refine Region.node_answers.yields (fun _ _ => trivial) fun d found => ?_
  replace found := Region.node?_of_node found
  cases record : d.record with
  | some i =>
    simp only [meets_bind, meets_ask, meets_modify]
    refine Region.lookup_answers.yields (fun _ _ => trivial) fun a look => ?_
    have at_i : r.records[i.index]? = some a := by
      unfold Region.lookup at look
      split at look <;> simp_all
    have has : r.recordOf m = some i := by rw [Region.recordOf_of found, record]
    refine h.rewrite fun x mem hasX => ?_
    rcases spares with new | kept
    · exact absurd (h.old x mem) (Nat.not_lt.mpr (h.own x m i (.inl mem) (.inr new) hasX has ▸ new))
    · obtain ⟨e, foundX, recordX⟩ := Option.bind_eq_some_iff.mp hasX
      have must := (h.kept x mem ⟨e, foundX⟩).2
      rwa [Region.accessOf_of foundX recordX at_i, ← kept a] at must
  | none =>
    simp only [meets_bind, meets_modifyGet, meets_putNode]
    exact h.add found record (spares.imp_right fun kept => kept .clean)

theorem modifyOwnAccess {f : Access → Access}
    (spares : r₀.nodes.size ≤ m.index ∨ ∀ a, (f a).must = a.must) :
    Kept S r₀ (modifyOwnAccess m f) :=
  ask.bind fun _ => .ite (modifyAccess spares) (.pure _)

theorem copyAccess {source : NodeId} (new : r₀.nodes.size ≤ m.index) :
    Kept S r₀ (copyAccess m source) :=
  ask.bind fun _ => ask.bind fun _ => .ite (.pure _) (modifyAccess (.inl new))

/-! ### Edges -/

theorem count {op : LinkOp} {f : EdgeCounts → EdgeCounts} : Kept S r₀ (count op f) := by
  refine .bind .get fun r => ?_
  cases r.edgeCounts with
  | none => exact .throw trivial
  | some c => exact .modify fun r h => h.aside

theorem addPeer : Kept S r₀ (addPeer m p) := modifyAccess (.inr fun _ => rfl)

theorem forgetPeer : Kept S r₀ (forgetPeer m p) :=
  Steady.isReleased.bind fun _ => .ite (modifyOwnAccess (.inr fun _ => rfl)) (.pure _)

theorem unlinkEdge : Kept S r₀ (unlinkEdge m p) := forgetPeer.bind fun _ => forgetPeer

theorem takePeers : Kept S r₀ (takePeers m) :=
  ask.bind fun _ => .bind (modifyOwnAccess (.inr fun _ => rfl)) fun _ => .pure _

theorem cutNode {op : LinkOp} : Kept S r₀ (cutNode op m) :=
  takePeers.bind fun _ => count.bind fun _ => .forM fun _ => unlinkEdge

theorem moveEdges {op : LinkOp} {old : NodeId} : Kept S r₀ (moveEdges op m old) :=
  takePeers.bind fun _ => count.bind fun _ => .forM fun _ =>
    .bind (modifyAccess (.inr fun _ => rfl)) fun _ => addPeer

theorem copyEdges {source : NodeId} : Kept S r₀ (copyEdges m source) :=
  ask.bind fun _ => count.bind fun _ => .forM fun _ => addPeer.bind fun _ => addPeer

theorem isStmt : Kept S r₀ (isStmt m) := ask.bind fun _ => .pure _

theorem isExpr : Kept S r₀ (isExpr m) := ask.bind fun _ => .pure _

theorem changeUse {old : NodeId} : Kept S r₀ (changeUse m old) :=
  .bind (isExpr.and isExpr) fun _ => .ite moveEdges (.bind (.throw trivial) fun _ => moveEdges)

theorem changeDef {old : NodeId} : Kept S r₀ (changeDef m old) :=
  .bind (isStmt.and isStmt) fun _ => .ite moveEdges (.bind (.throw trivial) fun _ => moveEdges)

theorem report {e : Event} : Kept S r₀ (report e) :=
  .modify fun _ h => h.aside

theorem dropExpiredOf {ns : List NodeId} : Kept S r₀ (dropExpiredOf ns) := by
  have sweep (a b : NodeId) : Kept S r₀ (do
      if ← Edit.ask (·.edgeJustified a b) then return false
      Edit.report (.expiredEdge a b)
      Edit.unlinkEdge a b
      Edit.count .dropExpired fun c => { c with expired := c.expired + 1 }
      return true) :=
    ask.bind fun _ => .ite (.pure _) <| report.bind fun _ => unlinkEdge.bind fun _ =>
      count.bind fun _ => .pure _
  refine .someOf fun x => ask.bind fun ps => .someOf fun p => ?_
  refine Steady.isReleased.bind fun _ => .ite (unlinkEdge.bind fun _ => .pure _) ?_
  refine isStmt.bind fun stmt => ?_
  cases stmt
  · exact sweep p x
  · exact sweep x p

/-! ### Nodes that take over -/

theorem locateVariable : Kept S r₀ (locateVariable m d) := by
  unfold Edit.locateVariable
  split
  · refine .bind .get fun _ => .bind .get fun _ => ?_
    split
    · exact .pure _
    · exact .modifyGet fun _ h => h.locate
  · exact .throw trivial

theorem inheritLoad {source : NodeId} (new : r₀.nodes.size ≤ m.index) :
    Kept S r₀ (inheritLoad m source) := by
  refine ask.bind fun ref? => .bind (.bind .get fun _ => .pure _) fun edges => ?_
  have edgesMove : Kept S r₀ (if edges = true then do
      Edit.changeUse m source
      if ref?.isNone = true then discard (dropExpired m) else pure ()
    else pure ()) :=
    .ite (changeUse.bind fun _ => .ite (.discard (ask.bind fun _ => dropExpiredOf)) (.pure _))
      (.pure _)
  have located : Kept S r₀ (locateLoad m) :=
    ask.bind fun _ => .ite (.bind (.throw trivial) fun _ => locateVariable) locateVariable
  exact .ite (located.bind fun _ => .bind (modifyAccess (.inl new)) fun _ => edgesMove)
    ((copyAccess new).bind fun _ => edgesMove)

theorem inheritStore {source : NodeId} (new : r₀.nodes.size ≤ m.index) :
    Kept S r₀ (inheritStore m source) := by
  refine (copyAccess new).bind fun _ => ask.bind fun a => ?_
  have expired : Kept S r₀ (dropExpiredDefs m) :=
    isStmt.bind fun _ => .ite dropExpiredOf (.bind (.throw trivial) fun _ => dropExpiredOf)
  have edgesMove : Kept S r₀ (do
      if ← hasEdges then
        Edit.changeDef m source
        if a.must.isNone = true then discard (dropExpiredDefs m)) :=
    .bind (.bind .get fun _ => .pure _) fun _ =>
      .ite (changeDef.bind fun _ => .ite expired.discard (.pure _)) (.pure _)
  have located : Kept S r₀ (locateStore m) :=
    ask.bind fun _ => .ite (.bind (.throw trivial) fun _ => locateVariable) locateVariable
  refine .ite (located.bind fun _ => .bind (modifyAccess (.inl new)) fun _ => ?_) edgesMove
  exact .bind (modifyOwnAccess (.inl new)) fun _ => edgesMove

theorem build {code : Op} {ty : Ty} {attrs : Attrs} {slots : List (List NodeId)}
    (h : SameTargets S r₀ r) : Meets (build code ty attrs slots) r (fun _ => True) fun n r' =>
      r₀.nodes.size ≤ n.index ∧ SameTargets S r₀ r' := by
  unfold Edit.build Edit.create
  rw [if_neg (by simp [Node.fresh])]
  simp only [meets_bind, meets_modifyGet, meets_pure]
  have pushed : SameTargets S r₀ (r.push (.fresh code ty attrs slots)) := h.push rfl
  refine (Meets.forM (I := SameTargets S r₀) pushed fun k _ r₁ h₁ => ?_).to fun _ r' h' =>
    ⟨h.size, h'⟩
  simp only [setParent, modifyNode, meets_bind, meets_ask]
  refine Region.nodeToEdit_answers.yields (fun _ _ => trivial) fun d found => ?_
  exact h₁.put (Region.node?_of_nodeToEdit found) rfl

theorem linkedCopy : Kept S r₀ (linkedCopy m) := by
  intro r h
  refine Meets.bind (duplicate_clones.imp (fun _ _ => trivial) fun _ _ => id) fun c r₁ cloned => ?_
  have h₁ : SameTargets S r₀ r₁ := by
    refine h.ofRecords cloned.records cloned.size fun m old live => ?_
    rwa [Region.Live, ← cloned.old m old]
  obtain ⟨ns, grove, distinct, fresh⟩ := cloned.grove
  simp only [hasEdges, meets_bind, meets_get, meets_pure]
  split
  · simp only [copyTreeAccess, Edit.subtree, meets_bind, meets_ask,
      Region.subtree_of_grove grove distinct, yields_ok]
    refine yields_iff.mpr ⟨fun sources _ => ?_, fun _ _ => trivial⟩
    split
    · exact trivial
    · refine Meets.forM (I := SameTargets S r₀) h₁ fun pair mem => ?_
      have new : r₀.nodes.size ≤ pair.1.index := h.size.trans (fresh _ (List.of_mem_zip mem).1)
      exact ask.bind fun _ => .ite ((copyAccess new).bind fun _ => copyEdges) (.pure _)
  · exact h₁

theorem dropNode : Kept S r₀ (dropNode m) := by
  have forgets : Kept S r₀ (forgetSsa m) := by
    refine ask.bind fun d => ?_
    cases d.ssa with
    | none => exact .pure _
    | some v => exact ask.bind fun _ => .modify fun _ h => h.aside
  refine forgets.bind fun _ => ?_
  intro r h
  simp only [Edit.node, meets_bind, meets_ask, meets_modify]
  refine Region.node_answers.yields (fun _ _ => trivial) fun d found => ?_
  replace found := Region.node?_of_node found
  have gone := h.leave found
  cases record : d.record with
  | none => exact gone
  | some i =>
    refine gone.rewrite fun x mem has => ?_
    rw [Region.recordOf, Region.node?_put (Region.lt_size_of_node? found)] at has
    split at has
    · cases has
    · rename_i other
      have has' : r.recordOf m = some i := by rw [Region.recordOf_of found, record]
      rcases h.others x m i mem has has' with whose | none
      · exact absurd (h.own x m i (.inl mem) whose has has') other
      · exact none.symm

end SameTargets

theorem sameTargets_steady {o : Options} : Steady o (SameTargets S r₀) fun _ => True := by
  have records {m : Edit PUnit} (same : ∀ r, Meets m r Fault.Plain fun _ r' => SameRecords r r')
      (aside : ∀ r, Meets m r (fun _ => True) fun _ r' => Aside [] r r') :
      SameTargets.Kept S r₀ m := fun r h =>
    ((same r).and (aside r)).imp (fun _ _ => trivial) fun _ r' now =>
      h.ofRecords now.1 now.2.size.ge fun _ _ => now.2.live List.not_mem_nil
  exact {
    fault := fun _ _ => trivial
    aside := fun r _ _ h => h.aside
    note := fun r _ _ h => h.aside
    put := fun r n d d' h found links => h.put found links.record
    push := fun r code ty attrs slots h => h.push rfl
    removeSsaUse := fun u => records (fun _ => removeSsaUse_records) fun _ => removeSsaUse_aside
    clearSsaUses := fun v => records (fun _ => clearSsaUses_records) fun _ =>
      clearSsaUses_aside.to fun _ _ => And.left
    cutUses := fun m => SameTargets.ask.bind fun _ => .forM fun x =>
      SameTargets.isExpr.bind fun _ => .ite SameTargets.cutNode (.pure _)
    cutAll := fun m => SameTargets.ask.bind fun _ => .forM fun x => SameTargets.cutNode
    releaseAll := fun ns => SameTargets.ask.bind fun _ => SameTargets.ask.bind fun _ =>
      .forM fun _ => SameTargets.dropNode
    linkedCopy := fun m => SameTargets.linkedCopy
    loadFor := fun m v ofst ty r h => Meets.bind h.build fun ld r₁ made =>
      Meets.bind (SameTargets.inheritLoad made.1 r₁ made.2) fun _ _ => id
    storeFor := fun m v ofst ty stored r h => Meets.bind h.build fun st r₁ made =>
      Meets.bind (SameTargets.inheritStore made.1 r₁ made.2) fun _ _ => id
    checkEdges := fun s m => by
      refine .bind (.bind .get fun _ => .pure _) fun _ => .ite (.bind ?_ fun stale => ?_) (.pure _)
      · exact SameTargets.ask.bind fun _ => SameTargets.dropExpiredOf
      · refine .discard (.ite (.pure _) (.ite (.throw trivial) ?_))
        exact SameTargets.report.bind fun _ => .pure _ }

/-- A node without a record is given no exact location when what is below it is refined. -/
theorem refineSlot_inexact {i : Nat} {changed : Bool} (found : r.node? n = some d)
    (unrecorded : d.record = none)
    (run : (refineSlot (refineExpr s) n i).run r = .ok (changed, r')) :
    (r'.accessOf n).must = none := by
  have none : r.recordOf n = Option.none := by rw [Region.recordOf_of found, unrecorded]
  have bare (m : NodeId) (whose : m = n ∨ r.nodes.size ≤ m.index) : r.recordOf m = Option.none := by
    rcases whose with rfl | late
    · exact none
    · rw [Region.recordOf, Region.node?_of_size_le late, Option.bind_none]
  have start : SameTargets (· = n) r r := by
    refine ⟨?_, le_rfl, ⟨#[], Array.append_empty.symm⟩, fun _ _ live => ⟨live, rfl⟩,
      fun m i whose has => ?_, fun m m' i whose _ has => ?_, fun m m' i mem has => ?_⟩
    · rintro m rfl
      exact Region.lt_size_of_node? found
    all_goals
      rw [bare m (by grind)] at has
      cases has
  have keeps : SameTargets.Kept (· = n) r (refineSlot (refineExpr s) n i) :=
    sameTargets_steady.keeps (.refineSlot fun _ _ => .refineExpr)
  have kept := (meets_iff.mp (keeps r start)).1 changed r' run
  cases record : r'.recordOf n with
  | none => rw [Region.accessOf_of_none record]; rfl
  | some j =>
    obtain ⟨e, live, _⟩ := Option.bind_eq_some_iff.mp record
    rw [(kept.kept n rfl ⟨e, live⟩).2, Region.accessOf_of_none none]
    rfl

end Peephole
