import Peephole.Proofs.Grove
import Peephole.Proofs.Quiet

/-!
# Shapes

The shape of a node is what the value of an expression depends on: its operation, type,
attributes and kids. Access records are part of it, or hidden (`Links`).
-/

namespace Peephole

open Edit

variable {hidden : Bool} {r r' : Region} {n m k : NodeId} {d : Node} {ks ns : List NodeId}

def Node.bare (hidden : Bool) (d : Node) : Node :=
  { d with parent := none, record := if hidden then none else d.record }

namespace Region

def shape (hidden : Bool) (r : Region) (n : NodeId) : Option Node :=
  (r.node? n).map (Node.bare hidden)

theorem kidsOf_shape : r.kidsOf n = (r.shape hidden n).map Node.kids := by
  unfold kidsOf shape
  cases r.node? n <;> rfl

theorem live_of_shape (h : r.shape hidden n = some d) : r.Live n := by
  obtain ⟨x, found, _⟩ := Option.map_eq_some_iff.mp h
  exact ⟨x, found⟩

theorem lt_size_of_shape (h : r.shape hidden n = some d) : n.index < r.nodes.size := by
  obtain ⟨x, found⟩ := live_of_shape h
  exact lt_size_of_node? found

theorem shape_put (inside : n.index < r.nodes.size) :
    (r.put n (some d)).shape hidden = Function.update (r.shape hidden) n
    (some (d.bare hidden)) := by
  funext m
  unfold shape
  rw [node?_put inside]
  by_cases same : m = n
  · subst same
    simp
  · simp [same]

theorem shape_push : (r.push d).shape hidden =
    Function.update (r.shape hidden) r.next (some (d.bare hidden)) := by
  funext m
  unfold shape
  rw [node?_push]
  by_cases same : m = r.next
  · subst same
    simp
  · simp [same]

theorem shape_reparent {p : Option NodeId} : (r.reparent ks p).shape hidden = r.shape hidden := by
  funext m
  unfold shape
  rw [node?_reparent]
  split
  · cases r.node? m <;> rfl
  · rfl

theorem shape_of_skeleton (h : r'.skeleton = r.skeleton) : r'.shape true = r.shape true := by
  funext n
  have nodes := congrArg (Option.map (Node.bare true)) (node?_of_skeleton (n := n) h)
  rw [Option.map_map, Option.map_map] at nodes
  exact nodes

/-- A node whose shape carries nothing but an expression. -/
theorem node?_of_shape {code : Op} {ty : Ty} {attrs : Attrs} {slots : List (List NodeId)}
    (h : r.shape hidden n = some (.fresh code ty attrs slots)) :
    ∃ parent record, r.node? n = some ⟨code, ty, attrs, slots, parent, none, record, none⟩ ∧
      (hidden = false → record = none) := by
  obtain ⟨⟨code', ty', attrs', slots', parent, block, record, ssa⟩, found, same⟩ :=
    Option.map_eq_some_iff.mp h
  simp only [Node.bare, Node.fresh, Node.mk.injEq] at same
  obtain ⟨rfl, rfl, rfl, rfl, _, rfl, noRecord, rfl⟩ := same
  refine ⟨parent, record, found, ?_⟩
  rintro rfl
  exact noRecord

end Region

theorem Node.bare_fresh {code : Op} {ty : Ty} {attrs : Attrs} {slots : List (List NodeId)}
    {parent : Option NodeId} {record : Option RecordId} (h : hidden = false → record = none) :
    (⟨code, ty, attrs, slots, parent, none, record, none⟩ : Node).bare hidden =
      .fresh code ty attrs slots := by
  cases hidden <;> simp_all [Node.bare, Node.fresh]

/-- How the access records of nodes are regarded. -/
inductive Links
  /-- The nodes of concern have none. -/
  | unrecorded
  /-- They are of no concern, and hold no edges. -/
  | idle
  /-- They are of no concern, whatever edges they hold. An edit may stop at an edge. -/
  | live

/-- Whether shapes leave records out. -/
@[reducible] def Links.hides : Links → Bool
  | .unrecorded => false
  | .idle | .live => true

instance : Coe Links Bool := ⟨Links.hides⟩

variable {linked : Links}

namespace Region

/-- A record without edges, whose location is known to the region. -/
def Idle (r : Region) (i : RecordId) : Prop :=
  ∃ a, r.records[i.index]? = some a ∧ a.peers = .empty ∧
    ∀ x, a.must = some x → x.index < r.locations.size

/-- No edges are maintained, and the records of nodes hold none. -/
structure Unlinked (r : Region) : Prop where
  edges : r.hasEdges = false
  records : ∀ m d i, r.node? m = some d → d.record = some i → r.Idle i

/-- What is known of a region, by how its records are regarded. -/
def Calm (linked : Links) (r : Region) : Prop :=
  match linked with
  | .unrecorded => r.hasEdges = false
  | .idle => r.Unlinked
  | .live => True

theorem Calm.edges (h : r.Calm linked) (still : linked ≠ .live) : r.hasEdges = false := by
  cases linked with
  | unrecorded => exact h
  | idle => exact Unlinked.edges h
  | live => contradiction

end Region

/-- From `r` to `r'`, nodes were added, and what is known besides the nodes is as good as
before. -/
structure Grown (linked : Links) (r r' : Region) : Prop where
  size : r.nodes.size ≤ r'.nodes.size
  layout : r'.layout = r.layout
  edges : r'.hasEdges = r.hasEdges
  blocks : r'.blocks.size = r.blocks.size
  vars : r'.vars = r.vars
  idle : linked = .unrecorded → ∀ i, r.Idle i → r'.Idle i
  calm : r.Calm linked → r'.Calm linked

namespace Grown

theorem refl : Grown linked r r := ⟨le_rfl, rfl, rfl, rfl, rfl, fun _ _ => id, id⟩

theorem trans {r'' : Region} (first : Grown linked r r') (second : Grown linked r' r'') :
    Grown linked r r'' :=
  ⟨first.size.trans second.size, second.layout.trans first.layout,
    second.edges.trans first.edges, second.blocks.trans first.blocks, second.vars.trans first.vars,
    fun own i idle => second.idle own i (first.idle own i idle), second.calm ∘ first.calm⟩

theorem live (size : r.nodes.size ≤ r'.nodes.size) (layout : r'.layout = r.layout)
    (edges : r'.hasEdges = r.hasEdges) (blocks : r'.blocks.size = r.blocks.size)
    (vars : r'.vars = r.vars) : Grown .live r r' :=
  ⟨size, layout, edges, blocks, vars, by simp, fun _ => trivial⟩

theorem unrecorded (size : r.nodes.size ≤ r'.nodes.size) (layout : r'.layout = r.layout)
    (edges : r'.hasEdges = r.hasEdges) (blocks : r'.blocks.size = r.blocks.size)
    (vars : r'.vars = r.vars) (idle : ∀ i, r.Idle i → r'.Idle i) : Grown .unrecorded r r' :=
  ⟨size, layout, edges, blocks, vars, fun _ => idle, edges.trans⟩

/-- Records that were idle are, and a node has the record it had or an idle one. -/
theorem of_records (size : r.nodes.size ≤ r'.nodes.size) (layout : r'.layout = r.layout)
    (edges : r'.hasEdges = r.hasEdges) (blocks : r'.blocks.size = r.blocks.size)
    (vars : r'.vars = r.vars) (idle : ∀ i, r.Idle i → r'.Idle i)
    (nodes : ∀ m d i, r'.node? m = some d → d.record = some i →
      r'.Idle i ∨ ∃ d₀, r.node? m = some d₀ ∧ d₀.record = some i) : Grown linked r r' := by
  refine ⟨size, layout, edges, blocks, vars, fun _ => idle, fun calm => ?_⟩
  cases linked with
  | unrecorded => exact edges.trans calm
  | idle =>
    refine ⟨edges.trans (Region.Unlinked.edges calm), fun m d i found own => ?_⟩
    rcases nodes m d i found own with known | ⟨d₀, found₀, own₀⟩
    · exact known
    · exact idle i (Region.Unlinked.records calm m d₀ i found₀ own₀)
  | live => trivial

theorem put {x : Node} (found : r.node? n = some d) (same : x.record = d.record) :
    Grown linked r (r.put n (some x)) := by
  refine .of_records (by simp) rfl rfl rfl rfl (fun _ => id) fun m y i at_m own => .inr ?_
  rw [Region.node?_put (Region.lt_size_of_node? found)] at at_m
  split at at_m
  · rename_i eq
    obtain rfl := Option.some.inj at_m
    exact ⟨d, eq ▸ found, same ▸ own⟩
  · exact ⟨y, at_m, own⟩

theorem push (none : d.record = none) : Grown linked r (r.push d) := by
  refine .of_records (by simp) rfl rfl rfl rfl (fun _ => id) fun m y i at_m own => .inr ?_
  rw [Region.node?_push] at at_m
  split at at_m
  · obtain rfl := Option.some.inj at_m
    rw [none] at own
    contradiction
  · exact ⟨y, at_m, own⟩

theorem reparent {p : Option NodeId} : Grown linked r (r.reparent ks p) := by
  refine .of_records (by simp) rfl rfl rfl rfl (fun _ => id) fun m y i at_m own => .inr ?_
  rw [Region.node?_reparent] at at_m
  split at at_m
  · obtain ⟨d, found, rfl⟩ := Option.map_eq_some_iff.mp at_m
    exact ⟨d, found, own⟩
  · exact ⟨y, at_m, own⟩

end Grown

/-- An edit of `r` led to `r'`, where nodes have the shapes `g`. -/
structure Edited (linked : Links) (r r' : Region) (g : NodeId → Option Node) : Prop where
  shape : r'.shape linked = g
  grown : Grown linked r r'

theorem Edited.trans {r'' : Region} {g g' : NodeId → Option Node} (first : Edited linked r r' g)
    (second : Edited linked r' r'' g') : Edited linked r r'' g' :=
  ⟨second.shape, first.grown.trans second.grown⟩

theorem Edited.refl : Edited linked r r (r.shape linked) := ⟨rfl, .refl⟩

theorem Edited.of_skeleton (h : r'.skeleton = r.skeleton) : Edited .live r r' (r.shape true) :=
  ⟨Region.shape_of_skeleton h, .live (Region.size_of_skeleton h).ge (Region.layout_of_skeleton h)
    (Region.hasEdges_of_skeleton h) (Region.blocks_of_skeleton h ▸ rfl) (Region.vars_of_skeleton h)⟩

/-- A quiet edit in a region whose records are of no concern. -/
theorem Quiet.edited {α : Type} {F : Fault → Prop} {m : Edit α} (h : Quiet r F m) :
    Meets m r (fun _ => Links.live = .live) fun _ r' => Edited .live r r' (r.shape true) :=
  (h r rfl).imp (fun _ _ => rfl) fun _ _ => .of_skeleton

/-- Nodes that carry nothing but an expression. -/
def Plain (g : NodeId → Option Node) (ns : List NodeId) : Prop :=
  ∀ m ∈ ns, ∃ code ty attrs slots, g m = some (.fresh code ty attrs slots)

/-! ### Edits of single nodes -/

section edits

variable {F : Fault → Prop} {code : Op} {ty : Ty} {attrs : Attrs} {slots : List (List NodeId)}
  {i : Nat}

theorem build_meets (linked : Links) (live : ∀ k ∈ slots.flatten, r.Live k) :
    Meets (build code ty attrs slots) r F fun n r' => n = r.next ∧
      Edited linked r r' (Function.update (r.shape linked) r.next
        (some (.fresh code ty attrs slots))) := by
  refine (meets_create (d := .fresh code ty attrs slots) ⟨rfl, rfl⟩ live).mpr
    ⟨rfl, ?_, (Grown.push rfl).trans .reparent⟩
  rw [Region.shape_reparent, Region.shape_push]
  cases linked <;> rfl

theorem setKid_edits (linked : Links) (h : r.node? n = some d) (inside : i < d.slots.length)
    (live : r.Live k) :
    Meets (setKid n i (some k)) r F fun _ r' => Edited linked r r'
      (Function.update (r.shape linked) n (some ((d.holding i [k]).bare linked))) := by
  refine (meets_setKid h inside (by simpa using live)).mpr
    ⟨?_, (Grown.put (x := d.holding i _) h rfl).trans .reparent⟩
  rw [Region.shape_reparent, Region.shape_put (Region.lt_size_of_node? h)]
  rfl

theorem takeKid_edits (linked : Links) (h : r.node? n = some d) (slot : d.slots[i]? = some ks)
    (live : ∀ k ∈ ks, r.Live k) :
    Meets (takeKid n i) r F fun _ r' => Edited linked r r'
      (Function.update (r.shape linked) n (some ((d.holding i []).bare linked))) := by
  simp only [takeKid, meets_bind, meets_pure]
  refine (meets_takeKids h slot live).mpr
    ⟨?_, (Grown.put (x := d.holding i _) h rfl).trans .reparent⟩
  rw [Region.shape_reparent, Region.shape_put (Region.lt_size_of_node? h)]

theorem setKids_edits (linked : Links) (h : r.node? n = some d) (inside : i < d.slots.length)
    (live : ∀ k ∈ ks, r.Live k) (apart : n ∉ ks) :
    Meets (setKids n i ks) r F fun _ r' => Edited linked r r'
      (Function.update (r.shape linked) n (some ((d.holding i ks).bare linked))) := by
  have kept : (r.reparent ks (some n)).node? n = some d := by
    rw [Region.node?_reparent, if_neg apart, h]
  refine (meets_setKids h inside live apart).mpr
    ⟨?_, Grown.reparent.trans (.put (x := d.holding i _) kept rfl)⟩
  have size := Region.lt_size_of_node? h
  rw [Region.shape_put (by simpa using size), Region.shape_reparent]

theorem setKid_meets (h : r.shape linked n = some (.fresh code ty attrs slots))
    (inside : i < slots.length) (live : r.Live k) :
    Meets (setKid n i (some k)) r F fun _ r' =>
      Edited linked r r' (Function.update (r.shape linked) n
        (some (.fresh code ty attrs (slots.set i [k])))) := by
  obtain ⟨parent, record, found, noRecord⟩ := Region.node?_of_shape h
  refine (setKid_edits linked found inside live).to fun _ r' edited => ?_
  simpa only [Node.holding, Node.bare_fresh noRecord] using edited

theorem takeKid_meets (h : r.shape linked n = some (.fresh code ty attrs slots))
    (slot : slots[i]? = some ks) (live : ∀ k ∈ ks, r.Live k) :
    Meets (takeKid n i) r F fun _ r' =>
      Edited linked r r' (Function.update (r.shape linked) n
        (some (.fresh code ty attrs (slots.set i [])))) := by
  obtain ⟨parent, record, found, noRecord⟩ := Region.node?_of_shape h
  refine (takeKid_edits linked found slot live).to fun _ r' edited => ?_
  simpa only [Node.holding, Node.bare_fresh noRecord] using edited

theorem setKids_meets (h : r.shape linked n = some (.fresh code ty attrs slots))
    (inside : i < slots.length) (live : ∀ k ∈ ks, r.Live k) (apart : n ∉ ks) :
    Meets (setKids n i ks) r F fun _ r' =>
      Edited linked r r' (Function.update (r.shape linked) n
        (some (.fresh code ty attrs (slots.set i ks)))) := by
  obtain ⟨parent, record, found, noRecord⟩ := Region.node?_of_shape h
  refine (setKids_edits linked found inside live apart).to fun _ r' edited => ?_
  simpa only [Node.holding, Node.bare_fresh noRecord] using edited

theorem modifyNode_meets {f : Node → Node} {code' : Op} {ty' : Ty} {attrs' : Attrs}
    (h : r.shape linked n = some (.fresh code ty attrs slots))
    (change : ∀ parent record, f ⟨code, ty, attrs, slots, parent, none, record, none⟩ =
      ⟨code', ty', attrs', slots, parent, none, record, none⟩) :
    Meets (modifyNode n f) r F fun _ r' =>
      Edited linked r r' (Function.update (r.shape linked) n
        (some (.fresh code' ty' attrs' slots))) := by
  obtain ⟨parent, record, found, noRecord⟩ := Region.node?_of_shape h
  refine (meets_modifyNode found).mpr ⟨?_, .put found (by rw [change])⟩
  rw [Region.shape_put (Region.lt_size_of_node? found), change, Node.bare_fresh noRecord]

theorem setCode_meets {code' : Op} (h : r.shape linked n = some (.fresh code ty attrs slots))
    (same : code.numSlots = code'.numSlots) :
    Meets (setCode n code') r F fun _ r' =>
      Edited linked r r' (Function.update (r.shape linked) n
        (some (.fresh code' ty attrs slots))) := by
  obtain ⟨parent, record, found, noRecord⟩ := Region.node?_of_shape h
  refine (meets_setCode found same).mpr ⟨?_, .put found rfl⟩
  rw [Region.shape_put (Region.lt_size_of_node? found), Node.bare_fresh noRecord]

end edits

/-! ### Releasing -/

theorem Yields.forM {α : Type} {F : Fault → Prop} {f : α → Except Fault PUnit} {xs : List α}
    (h : ∀ x ∈ xs, Yields (f x) F fun _ => True) : Yields (xs.forM f) F fun _ => True := by
  induction xs with
  | nil => trivial
  | cons x xs ih =>
    have unfolded : (x :: xs).forM f = f x >>= fun _ => xs.forM f := rfl
    rw [unfolded, yields_bind]
    refine (h x List.mem_cons_self).imp (fun _ => id) fun _ _ _ => ?_
    exact ih fun y mem => h y (List.mem_cons_of_mem x mem)

theorem Region.Idle.clean {i j : RecordId} {nodes : Array (Option Node)} (h : r.Idle i) :
    Region.Idle { r with nodes, records := r.records.setIfInBounds j.index .clean } i := by
  obtain ⟨a, found, rest⟩ := h
  have inside := (Array.getElem?_eq_some_iff.mp found).1
  by_cases same : j.index = i.index
  · refine ⟨.clean, ?_, rfl, by simp [Access.clean]⟩
    rw [same]
    exact Array.getElem?_setIfInBounds_self_of_lt inside
  · exact ⟨a, (Array.getElem?_setIfInBounds_ne same).trans found, rest⟩

/-- A node that nothing refers to, apart from the node above it. -/
def Region.Loose (linked : Links) (r : Region) (n : NodeId) : Prop :=
  ∃ d, r.node? n = some d ∧ d.ssa = none ∧
    (∀ b, d.block = some b → ∃ ss, r.stmts b = .ok ss ∧ n ∉ ss) ∧
    (linked ≠ .live → ∀ i, d.record = some i → r.Idle i)

theorem Plain.loose (plain : Plain (r.shape linked) ns) (calm : r.Calm linked) :
    ∀ m ∈ ns, r.Loose linked m := by
  intro m mem
  obtain ⟨code, ty, attrs, slots, shape⟩ := plain m mem
  obtain ⟨parent, record, found, noRecord⟩ := Region.node?_of_shape shape
  refine ⟨_, found, rfl, nofun, fun still i some => ?_⟩
  cases linked with
  | unrecorded =>
    rw [noRecord rfl] at some
    contradiction
  | idle => exact Region.Unlinked.records calm m _ i found some
  | live => contradiction

theorem Region.Idle.dropped {d : Node} {i : RecordId} (own : r.Idle i) : Region.Idle
    { r with
      nodes := r.nodes.setIfInBounds n.index none
      records := match d.record with
        | some i => r.records.setIfInBounds i.index .clean
        | none => r.records } i := by
  cases d.record with
  | some j => exact own.clean
  | none => exact own

theorem dropNode_meets {F : Fault → Prop} (h : r.Loose linked n) :
    Meets (dropNode n) r F fun _ r' =>
      Edited linked r r' (Function.update (r.shape linked) n none) ∧
      ∀ m, m ≠ n → r.Loose linked m → r'.Loose linked m := by
  obtain ⟨d, found, noSsa, _⟩ := h
  have node := Region.node_of found
  simp only [dropNode, forgetSsa, Edit.node, meets_bind, meets_ask, node, yields_ok, noSsa,
    meets_pure, meets_modify]
  have look (m : NodeId) : (r.put n none).node? m = Function.update r.node? n none m := by
    rw [Region.node?_put (Region.lt_size_of_node? found)]
    by_cases same : m = n
    · simp [same]
    · simp [same]
  have grown : Grown linked r { r with
      nodes := r.nodes.setIfInBounds n.index none
      records := match d.record with
        | some i => r.records.setIfInBounds i.index .clean
        | none => r.records } := by
    refine .of_records (by simp) rfl rfl rfl rfl (fun _ => .dropped) fun m y i at_m own =>
      .inr ⟨y, ?_, own⟩
    have at_m : Function.update r.node? n none m = some y := (look m).symm.trans at_m
    by_cases same : m = n
    · simp [same] at at_m
    · rwa [Function.update_of_ne same] at at_m
  refine ⟨⟨?_, grown⟩, fun m other loose => ?_⟩
  · funext m
    have dropped : (r.put n none).shape linked m = Function.update (r.shape linked) n none m := by
      unfold Region.shape
      rw [look]
      by_cases same : m = n
      · simp [same]
      · simp [same]
    exact dropped
  · obtain ⟨d', found', noSsa', blocks', records'⟩ := loose
    have kept := (look m).trans (Function.update_of_ne other _ _)
    exact ⟨d', kept.trans found', noSsa', blocks', fun own i some => (records' own i some).dropped⟩

theorem dropNodes_meets {F : Fault → Prop} (loose : ∀ m ∈ ns, r.Loose linked m)
    (distinct : ns.Nodup) :
    Meets (ns.forM dropNode) r F fun _ r' =>
      Edited linked r r' fun m => if m ∈ ns then none else r.shape linked m := by
  induction ns generalizing r with
  | nil => exact ⟨by simp, .refl⟩
  | cons n ns ih =>
    obtain ⟨fresh, rest⟩ := List.nodup_cons.mp distinct
    refine Meets.bind (dropNode_meets (loose n List.mem_cons_self)) fun _ r' first => ?_
    obtain ⟨first, keeps⟩ := first
    have loose' : ∀ m ∈ ns, r'.Loose linked m := fun m mem =>
      keeps m (fun eq => fresh (eq ▸ mem)) (loose m (List.mem_cons_of_mem n mem))
    refine (ih loose' rest).to fun _ r'' second => ?_
    refine ⟨?_, first.grown.trans second.grown⟩
    rw [second.shape, first.shape]
    funext m
    by_cases inside : m ∈ ns
    · simp [inside]
    · by_cases same : m = n
      · simp [same]
      · simp [inside, same]

theorem releaseAll_meets (loose : ∀ m ∈ ns, r.Loose linked m) (distinct : ns.Nodup) :
    Meets (releaseAll ns) r (fun _ => linked = .live) fun _ r' =>
      Edited linked r r' fun m => if m ∈ ns then none else r.shape linked m := by
  have unlinked : Yields (ns.forM r.checkUnlinked) (fun _ => linked = .live) fun _ => True := by
    refine Yields.forM fun m mem => ?_
    obtain ⟨d, found, _, blocks, _⟩ := loose m mem
    simp only [Region.checkUnlinked, Region.node_of found, yields_bind, yields_ok]
    cases block : d.block with
    | none => trivial
    | some b =>
      obtain ⟨ss, listed, absent⟩ := blocks b block
      simp [listed, absent]
  have unreferenced : Yields (r.checkUnreferenced ns) (fun _ => linked = .live) fun _ => True := by
    refine Yields.forM fun m mem => ?_
    obtain ⟨d, found, noSsa, _, records⟩ := loose m mem
    have edges : Yields (r.checkNoEdges ns m) (fun _ => linked = .live) fun _ => True := by
      by_cases still : linked = .live
      · exact yields_iff.mpr ⟨fun _ _ => trivial, fun _ _ => still⟩
      · have peers : r.peers m = .ok .empty := by
          cases record : d.record with
          | none => simp [Region.peers, Region.access, Region.access?, Region.node_of found, record,
              Access.clean, bind, Except.bind, pure, Except.pure]
          | some i =>
            obtain ⟨a, look, empty, _⟩ := records still i record
            simp [Region.peers, Region.access, Region.access?, Region.node_of found, record,
              Region.lookup, look, empty, bind, Except.bind, pure, Except.pure]
        simp [Region.checkNoEdges, peers, HandleSet.empty]
    have uses : r.checkNoUses ns m = .ok ⟨⟩ := by
      simp [Region.checkNoUses, Region.node_of found, noSsa, bind, Except.bind, pure, Except.pure]
    rw [yields_bind]
    exact edges.imp (fun _ => id) fun _ _ _ => by rw [uses]; trivial
  unfold releaseAll
  simp only [meets_bind, meets_ask]
  refine unlinked.imp (fun _ => id) fun _ _ _ => ?_
  refine unreferenced.imp (fun _ => id) fun _ _ _ => ?_
  exact dropNodes_meets loose distinct

theorem Edited.kidsOf (h : Edited linked r r' (r.shape linked)) : r'.kidsOf = r.kidsOf := by
  funext m
  rw [@Region.kidsOf_shape linked r', @Region.kidsOf_shape linked r, h.shape]

/-- Register reads without a static single assignment value have none to forget. -/
theorem removeSsaUsesIn_meets {F : Fault → Prop} (tree : Grove r.kidsOf [n] ns)
    (distinct : ns.Nodup) (loose : ∀ m ∈ ns, r.Loose linked m) :
    Meets (removeSsaUsesIn n) r F fun _ r' => r' = r := by
  simp only [removeSsaUsesIn, Edit.subtree, meets_bind, meets_ask,
    Region.subtree_of_grove tree distinct, yields_ok]
  refine Meets.forM rfl fun m mem r' same => ?_
  subst same
  obtain ⟨d, found, noSsa, _⟩ := loose m mem
  simp only [Edit.node, meets_bind, meets_ask, Region.node_of found, yields_ok]
  split
  · simp [removeSsaUse, Region.nodeToEdit_of found, noSsa]
  · rfl

/-- An edit of the def-use edges, where there are any, leaves the shapes alone. -/
theorem whenEdges_meets {α : Type} {F : Fault → Prop} {m : Edit PUnit} {next : Edit α}
    {Q : α → Region → Prop} (quiet : Quiet r F m) (calm : r.Calm linked)
    (rest : ∀ r', Edited linked r r' (r.shape linked) →
      Meets next r' (fun _ => linked = .live) Q) :
    Meets Edit.hasEdges r (fun _ => linked = .live) fun edges r' =>
      Meets (if edges = true then do m; next else next) r' (fun _ => linked = .live) Q := by
  simp only [Edit.hasEdges, meets_bind, meets_get, meets_pure]
  cases edges : r.hasEdges with
  | false => exact rest r .refl
  | true =>
    cases linked with
    | live => exact Meets.bind quiet.edited fun _ => rest
    | _ => exact absurd (calm.edges (by simp)) (by simp [edges])

theorem discardTree_meets (tree : Grove r.kidsOf [n] ns) (distinct : ns.Nodup)
    (plain : Plain (r.shape linked) ns) (calm : r.Calm linked) :
    Meets (discardTree n) r (fun _ => linked = .live) fun _ r' =>
      Edited linked r r' fun m => if m ∈ ns then none else r.shape linked m := by
  unfold discardTree
  rw [meets_bind]
  refine whenEdges_meets cutUses_quiet calm fun r₁ cut => ?_
  have tree₁ : Grove r₁.kidsOf [n] ns := by rwa [cut.kidsOf]
  have plain₁ : Plain (r₁.shape linked) ns := by rwa [cut.shape]
  have loose := plain₁.loose (cut.grown.calm calm)
  refine Meets.bind (removeSsaUsesIn_meets tree₁ distinct loose) ?_
  rintro _ _ rfl
  simp only [releaseTree, Edit.subtree, meets_bind, meets_ask,
    Region.subtree_of_grove tree₁ distinct, yields_ok]
  refine (releaseAll_meets loose distinct).to fun _ r₂ released => ?_
  have both := cut.trans released
  rwa [cut.shape] at both

/-- Releasing a node whose kids were taken. -/
theorem release_meets {code : Op} {ty : Ty} {attrs : Attrs} {slots : List (List NodeId)}
    (h : r.shape linked n = some (.fresh code ty attrs slots))
    (empty : slots.all (·.isEmpty) = true) (calm : r.Calm linked) :
    Meets (release n) r (fun _ => linked = .live) fun _ r' =>
      Edited linked r r' (Function.update (r.shape linked) n none) := by
  obtain ⟨parent, record, found, _⟩ := Region.node?_of_shape h
  have plain : Plain (r.shape linked) [n] := by
    intro m mem
    rw [List.mem_singleton.mp mem]
    exact ⟨code, ty, attrs, slots, h⟩
  unfold release
  simp only [Edit.node, meets_bind, meets_ask, Region.node_of found, yields_ok, empty,
    Bool.not_true, Bool.false_eq_true, if_false]
  refine (releaseAll_meets (plain.loose calm) (List.nodup_singleton n)).to fun _ r' released => ?_
  refine ⟨?_, released.grown⟩
  rw [released.shape]
  funext m
  by_cases same : m = n
  · simp [same]
  · simp [same]

end Peephole
