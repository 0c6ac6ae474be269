import Peephole.Proofs.Run
import Peephole.Tree

/-!
# Nodes at their places

What the edits of single nodes leave at each place of the arena.
-/

namespace Peephole

open Edit

/-- The node with another parent. -/
def Node.under (d : Node) (up : Option NodeId) : Node := { d with parent := up }

namespace Region

variable {r : Region} {n m : NodeId} {d : Node}

/-- The node at a place, unless it was released or never made. -/
def node? (r : Region) (n : NodeId) : Option Node := r.nodes[n.index]?.join

/-- Set or empty the place of a node. -/
def put (r : Region) (n : NodeId) (d : Option Node) : Region :=
  { r with nodes := r.nodes.setIfInBounds n.index d }

/-- Put a node at the end of the arena. -/
def push (r : Region) (d : Node) : Region := { r with nodes := r.nodes.push (some d) }

/-- The place that the next new node takes. -/
def next (r : Region) : NodeId := ⟨r.nodes.size⟩

/-- Let all given nodes have one parent, or none. -/
def reparent (r : Region) (ks : List NodeId) (parent : Option NodeId) : Region :=
  { r with nodes := r.nodes.mapIdx fun i d =>
      if ⟨i⟩ ∈ ks then d.map fun d => { d with parent } else d }

/-- The kids of a live node. -/
def kidsOf (r : Region) (n : NodeId) : Option (List NodeId) := (r.node? n).map Node.kids

theorem node_of (h : r.node? n = some d) : r.node n = .ok d := by
  unfold node? at h
  unfold node
  cases at_n : r.nodes[n.index]? with
  | none => simp [at_n] at h
  | some x => cases x <;> simp_all

theorem nodeToEdit_of (h : r.node? n = some d) : r.nodeToEdit n = .ok d := by
  unfold node? at h
  unfold nodeToEdit
  cases at_n : r.nodes[n.index]? with
  | none => simp [at_n] at h
  | some x => cases x <;> simp_all

theorem node?_of_node (h : r.node n = .ok d) : r.node? n = some d := by
  unfold node at h
  unfold node?
  split at h <;> simp_all

theorem node?_of_nodeToEdit (h : r.nodeToEdit n = .ok d) : r.node? n = some d := by
  unfold nodeToEdit at h
  unfold node?
  split at h <;> simp_all

theorem yields_node {F : Fault → Prop} {Q : Node → Prop} (found : ∀ d, r.node? n = some d → Q d)
    (missing : ∀ f, F f) : Yields (r.node n) F Q := by
  cases h : r.node n with
  | ok d => exact found d (node?_of_node h)
  | error f => exact missing f

theorem yields_nodeToEdit {F : Fault → Prop} {Q : Node → Prop}
    (found : ∀ d, r.node? n = some d → Q d) (missing : ∀ f, F f) :
    Yields (r.nodeToEdit n) F Q := by
  cases h : r.nodeToEdit n with
  | ok d => exact found d (node?_of_nodeToEdit h)
  | error f => exact missing f

theorem kid_of {i : Nat} {k : NodeId} {ks : List NodeId} (h : r.node? n = some d)
    (slot : d.slots[i]? = some (k :: ks)) : r.kid n i = .ok k := by
  simp [kid, node_of h, Node.slot, slot, bind, Except.bind, pure, Except.pure]

theorem slot_of_kid {i : Nat} {k : NodeId} (found : r.node? n = some d) (kid : r.kid n i = .ok k) :
    ∃ ks, d.slots[i]? = some (k :: ks) := by
  simp only [Region.kid, node_of found, Node.slot, bind, Except.bind] at kid
  cases slot : d.slots[i]? with
  | none => simp [slot] at kid
  | some ks =>
    cases ks with
    | nil => simp [slot, throw, throwThe, MonadExceptOf.throw] at kid
    | cons j ks =>
      obtain rfl : j = k := by simpa [slot, pure, Except.pure] using kid
      exact ⟨ks, rfl⟩

theorem kids_of {i : Nat} {ks : List NodeId} (h : r.node? n = some d)
    (slot : d.slots[i]? = some ks) : r.kids n i = .ok ks := by
  simp [kids, node_of h, Node.slot, slot, bind, Except.bind]

theorem kid?_of {i : Nat} {ks : List NodeId} (h : r.node? n = some d)
    (slot : d.slots[i]? = some ks) : r.kid? n i = .ok ks.head? := by
  simp [kid?, node_of h, Node.slot, slot, bind, Except.bind, pure, Except.pure]

theorem kid?_of_kid {i : Nat} {k : NodeId} (h : r.kid n i = .ok k) : r.kid? n i = .ok (some k) := by
  unfold kid at h
  unfold kid?
  cases found : r.node n with
  | error f => simp [found, bind, Except.bind] at h
  | ok d =>
    cases slot : d.slot i with
    | error f => simp [found, slot, bind, Except.bind] at h
    | ok ks =>
      cases ks with
      | nil => simp [found, slot, bind, Except.bind] at h
      | cons k' ks =>
        simp only [found, slot, bind, Except.bind] at h ⊢
        exact congrArg _ (congrArg some (Except.ok.inj h))

theorem lt_size_of_node? (h : r.node? n = some d) : n.index < r.nodes.size := by
  by_contra outside
  rw [node?, Array.getElem?_eq_none (Nat.le_of_not_lt outside)] at h
  simp at h

theorem node?_next : r.node? r.next = none := by
  simp [node?, next]

theorem node?_of_size_le (h : r.nodes.size ≤ n.index) : r.node? n = none := by
  rw [node?, Array.getElem?_eq_none h]
  rfl

theorem isReleased_of (h : r.node? n = some d) : r.isReleased n = false := by
  unfold node? at h
  unfold isReleased
  split <;> simp_all

theorem node?_of_isReleased (h : r.isReleased n = true) : r.node? n = none := by
  unfold isReleased at h
  unfold node?
  split at h <;> simp_all

/-- A place inside the arena that is not marked as released holds a node. -/
theorem exists_of_not_isReleased (h : r.isReleased n = false) (inside : n.index < r.nodes.size) :
    ∃ d, r.node? n = some d := by
  unfold isReleased at h
  unfold node?
  rw [Array.getElem?_eq_getElem inside] at h ⊢
  cases at_n : r.nodes[n.index] with
  | none => simp [at_n] at h
  | some d => exact ⟨d, rfl⟩

@[simp] theorem size_put {x : Option Node} : (r.put n x).nodes.size = r.nodes.size := by
  simp [put]

theorem node?_put {x : Option Node} (inside : n.index < r.nodes.size) :
    (r.put n x).node? m = if m = n then x else r.node? m := by
  unfold node? put
  by_cases same : m = n
  · subst same
    simp [inside]
  · have other : n.index ≠ m.index := fun eq => same (Handle.index_inj.mp eq.symm)
    simp [same, Array.getElem?_setIfInBounds_ne other]

@[simp] theorem size_push : (r.push d).nodes.size = r.nodes.size + 1 := by
  simp [push]

theorem node?_push : (r.push d).node? m = if m = r.next then some d else r.node? m := by
  unfold node? push next
  by_cases same : m = ⟨r.nodes.size⟩
  · subst same
    simp
  · have other : m.index ≠ r.nodes.size := fun eq => same (Handle.index_inj.mp eq)
    simp [same, Array.getElem?_push, other]

@[simp] theorem size_reparent {ks : List NodeId} {p : Option NodeId} :
    (r.reparent ks p).nodes.size = r.nodes.size := by
  simp [reparent]

theorem node?_reparent {ks : List NodeId} {p : Option NodeId} :
    (r.reparent ks p).node? m =
      if m ∈ ks then (r.node? m).map fun d => { d with parent := p } else r.node? m := by
  unfold node? reparent
  rw [Array.getElem?_mapIdx]
  by_cases mem : m ∈ ks <;> cases r.nodes[m.index]? <;> simp [mem]

theorem reparent_nil {p : Option NodeId} : r.reparent [] p = r := by
  have same : r.nodes.mapIdx (fun _ d => d) = r.nodes := by
    apply Array.ext <;> simp
  simp only [reparent, List.not_mem_nil, if_false, same]

/-- Setting one parent after the others. -/
theorem reparent_cons {k : NodeId} {ks : List NodeId} {p : Option NodeId}
    (h : r.node? k = some d) :
    (r.put k (some { d with parent := p })).reparent ks p = r.reparent (k :: ks) p := by
  have inside := lt_size_of_node? h
  have nodes : ((r.put k (some { d with parent := p })).reparent ks p).nodes =
      (r.reparent (k :: ks) p).nodes := by
    apply Array.ext_getElem?
    intro i
    simp only [reparent, put, Array.getElem?_mapIdx, List.mem_cons]
    by_cases same : k.index = i
    · subst same
      have found : r.nodes[k.index]? = some (some d) := by
        rw [node?, Array.getElem?_eq_getElem inside] at h
        rw [Array.getElem?_eq_getElem inside]
        simpa using h
      simp [Array.getElem?_setIfInBounds_self_of_lt inside, found]
    · have other : (⟨i⟩ : NodeId) ≠ k := fun eq => same (by rw [← eq])
      simp [Array.getElem?_setIfInBounds_ne same, other]
  simp only [reparent, put] at nodes ⊢
  rw [nodes]

end Region

/-- The node with other kids in one slot. -/
def Node.holding (d : Node) (i : Nat) (ks : List NodeId) : Node :=
  { d with slots := d.slots.set i ks }

namespace Region

/-- A node is at its place. -/
def Live (r : Region) (n : NodeId) : Prop := ∃ d, r.node? n = some d

end Region

/-! ### Runs

Each edit is followed twice: where nothing can go wrong, and where only the runs that
return are of interest. -/

variable {r : Region} {n k : NodeId} {d : Node} {i : Nat} {F : Fault → Prop}

@[simp] theorem meets_putNode {Q : PUnit → Region → Prop} :
    Meets (putNode n d) r F Q ↔ Q ⟨⟩ (r.put n (some d)) := Iff.rfl

theorem meets_modifyNode {f : Node → Node} {Q : PUnit → Region → Prop}
    (h : r.node? n = some d) :
    Meets (modifyNode n f) r F Q ↔ Q ⟨⟩ (r.put n (some (f d))) := by
  simp [modifyNode, Region.nodeToEdit_of h]

theorem Meets.modifyNode {f : Node → Node} {Q : PUnit → Region → Prop} (any : ∀ f, F f)
    (h : ∀ d, r.node? n = some d → Q ⟨⟩ (r.put n (some (f d)))) :
    Meets (modifyNode n f) r F Q := by
  simp only [Edit.modifyNode, meets_bind, meets_ask, meets_putNode]
  exact Region.yields_nodeToEdit h any

theorem live_put {x : Node} {m : NodeId} (h : r.node? n = some d) (live : r.Live m) :
    (r.put n (some x)).Live m := by
  unfold Region.Live
  rw [Region.node?_put (Region.lt_size_of_node? h)]
  split
  · exact ⟨x, rfl⟩
  · exact live

theorem meets_setParents {ks : List NodeId} {p : Option NodeId} {Q : PUnit → Region → Prop}
    (live : ∀ k ∈ ks, r.Live k) :
    Meets (ks.forM (setParent · p)) r F Q ↔ Q ⟨⟩ (r.reparent ks p) := by
  induction ks generalizing r with
  | nil => rw [Region.reparent_nil]; rfl
  | cons k ks ih =>
    obtain ⟨d, h⟩ := live k List.mem_cons_self
    have rest : ∀ k' ∈ ks, (r.put k (some { d with parent := p })).Live k' :=
      fun k' mem => live_put h (live k' (List.mem_cons_of_mem k mem))
    have unfolded : (k :: ks).forM (setParent · p) =
        setParent k p >>= fun _ => ks.forM (setParent · p) := rfl
    rw [unfolded, meets_bind, setParent, meets_modifyNode h, ih rest, Region.reparent_cons h]

theorem live_push {m : NodeId} (live : r.Live m) : (r.push d).Live m := by
  unfold Region.Live
  rw [Region.node?_push]
  split
  · exact ⟨d, rfl⟩
  · exact live

theorem meets_create {Q : NodeId → Region → Prop} (unattached : d.parent = none ∧ d.block = none)
    (live : ∀ k ∈ d.kids, r.Live k) :
    Meets (create d) r F Q ↔ Q r.next ((r.push d).reparent d.kids (some r.next)) := by
  have free : ¬(d.parent.isSome || d.block.isSome) = true := by simp [unattached]
  unfold create
  rw [if_neg free]
  simp only [meets_bind, meets_modifyGet, meets_pure]
  exact meets_setParents fun k mem => live_push (live k mem)

theorem Node.setSlot_of {ks : List NodeId} (inside : i < d.slots.length) :
    d.setSlot i ks = .ok (d.holding i ks) := by
  simp [Node.setSlot, inside, Node.holding]

theorem Node.slot_of {ks : List NodeId} (h : d.slots[i]? = some ks) : d.slot i = .ok ks := by
  simp [Node.slot, h]

theorem Node.yields_setSlot {ks : List NodeId} {Q : Node → Prop} (any : ∀ f, F f)
    (h : i < d.slots.length → Q (d.holding i ks)) : Yields (d.setSlot i ks) F Q := by
  unfold Node.setSlot
  split
  · exact h ‹_›
  · exact any _

theorem Node.yields_slot {Q : List NodeId → Prop} (any : ∀ f, F f)
    (h : ∀ ks, d.slots[i]? = some ks → Q ks) : Yields (d.slot i) F Q := by
  unfold Node.slot
  split
  · exact h _ ‹_›
  · exact any _

theorem setParent_option {p : Option NodeId} {x : Option NodeId} :
    (x.forM (setParent · p) : Edit PUnit) = x.toList.forM (setParent · p) := by
  cases x with
  | none => rfl
  | some k =>
    have unfolded : [k].forM (setParent · p) = setParent k p >>= fun _ => pure ⟨⟩ := rfl
    rw [Option.toList_some, unfolded, bind_pure_unit]
    rfl

theorem meets_setKid {x : Option NodeId} {Q : PUnit → Region → Prop} (h : r.node? n = some d)
    (inside : i < d.slots.length) (live : ∀ k ∈ x.toList, r.Live k) :
    Meets (setKid n i x) r F Q ↔
      Q ⟨⟩ ((r.put n (some (d.holding i x.toList))).reparent x.toList (some n)) := by
  unfold setKid
  simp only [meets_bind, meets_ask, meets_lift, meets_putNode, Region.nodeToEdit_of h, yields_ok,
    Node.setSlot_of inside, setParent_option]
  exact meets_setParents fun k mem => live_put h (live k mem)

theorem meets_takeKids {ks : List NodeId} {Q : List NodeId → Region → Prop}
    (h : r.node? n = some d) (slot : d.slots[i]? = some ks) (live : ∀ k ∈ ks, r.Live k) :
    Meets (takeKids n i) r F Q ↔
      Q ks ((r.put n (some (d.holding i []))).reparent ks none) := by
  have inside : i < d.slots.length := (List.getElem?_eq_some_iff.mp slot).1
  unfold takeKids
  simp only [meets_bind, meets_ask, meets_lift, meets_putNode, meets_pure,
    Region.nodeToEdit_of h, yields_ok, Node.setSlot_of inside, Node.slot_of slot]
  exact meets_setParents fun k mem => live_put h (live k mem)

theorem meets_setKids {ks : List NodeId} {Q : PUnit → Region → Prop} (h : r.node? n = some d)
    (inside : i < d.slots.length) (live : ∀ k ∈ ks, r.Live k) (apart : n ∉ ks) :
    Meets (setKids n i ks) r F Q ↔
      Q ⟨⟩ ((r.reparent ks (some n)).put n (some (d.holding i ks))) := by
  have kept : (r.reparent ks (some n)).node? n = some d := by
    rw [Region.node?_reparent, if_neg apart, h]
  unfold setKids
  rw [meets_bind, meets_setParents live]
  simp only [meets_bind, meets_ask, meets_lift, meets_putNode, Region.nodeToEdit_of kept, yields_ok,
    Node.setSlot_of inside]

theorem numSlots_of_isBinary {op : Op} (h : op.isBinary = true) : op.numSlots = 2 := by
  cases op <;> first | rfl | exact absurd h Bool.false_ne_true

theorem isBinary_of_isAssociative {op : Op} (h : op.isAssociative = true) : op.isBinary = true := by
  cases op <;> first | rfl | exact absurd h Bool.false_ne_true

theorem meets_setCode {code : Op} {Q : PUnit → Region → Prop} (h : r.node? n = some d)
    (slots : d.code.numSlots = code.numSlots) :
    Meets (setCode n code) r F Q ↔ Q ⟨⟩ (r.put n (some { d with code })) := by
  unfold setCode
  simp [Region.nodeToEdit_of h, slots]

end Peephole
