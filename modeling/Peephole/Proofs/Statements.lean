import Peephole.Proofs.Stores
import Peephole.Refine.Statement

/-!
# Stores as statements

Nodes that are stores of trees, and what refining one of them ends in: a node that stores
a term in place of the one that was stored, or nothing. Only the nodes of the statement
are touched.
-/

namespace Peephole

open Edit

/-- Where records are of concern, only the parent of a node is not part of its shape. -/
theorem Region.node?_of_whole {r : Region} {n : NodeId} {code : Op} {ty : Ty} {attrs : Attrs}
    {slots : List (List NodeId)} {block : Option BlockId} {record : Option RecordId}
    {ssa : Option SsaId}
    (h : r.shape false n = some ⟨code, ty, attrs, slots, none, block, record, ssa⟩) :
    ∃ parent, r.node? n = some ⟨code, ty, attrs, slots, parent, block, record, ssa⟩ := by
  obtain ⟨⟨code', ty', attrs', slots', parent, block', record', ssa'⟩, found, same⟩ :=
    Option.map_eq_some_iff.mp h
  simp only [Node.bare, Node.mk.injEq] at same
  obtain ⟨rfl, rfl, rfl, rfl, _, rfl, rfl, rfl⟩ := same
  exact ⟨parent, found⟩

namespace Store

def code : Store → Op
  | .reg .. => .stpr
  | .var .. => .st
  | .indirect .. => .ist

/-- The same store of another term. -/
def put (e : Term) : Store → Store
  | .reg ty q _ => .reg ty q e
  | .var ty x ofst _ => .var ty x ofst e
  | .indirect ty x base ofst _ => .indirect ty x base ofst e

structure Typed (σ : Store) : Prop where
  word : σ.ty.isWord = true
  rhs : σ.rhs.ty = σ.ty
  offsets : ∀ ty x base ofst e, σ = .indirect ty x base ofst e → fitsOffset (base + ofst) = true

/-- Where nodes have the shapes `g`, a store with these attributes and this record names its
target; the nodes `front` spell the address of an indirect store. -/
def Names (g : NodeId → Option Node) (attrs : Attrs) (record : Option RecordId)
    (front : List NodeId) : Store → Prop
  | .reg _ q _ => front = [] ∧ attrs.reg = q
  | .var _ x ofst _ => front = [] ∧ attrs.var = some x ∧ attrs.ofst = ofst
  | .indirect _ x base ofst _ => attrs.ofst = ofst ∧ record = none ∧ ∃ k ty attrs',
    front = [k] ∧ g k = some (.fresh .lda ty attrs' []) ∧ attrs'.var = some x ∧ attrs'.ofst = base

/-- The node `n` is a store of the tree at `k`, which has the nodes `below`. -/
structure At (l : Layout) (r : Region) (σ : Store) (n k : NodeId) (front below : List NodeId)
    (attrs : Attrs) (block : Option BlockId) (record : Option RecordId) : Prop where
  shape : r.shape false n =
    some ⟨σ.code, σ.ty, attrs, front.map ([·]) ++ [[k]], none, block, record, none⟩
  names : σ.Names (r.shape false) attrs record front
  stored : Peephole.Stands .unrecorded l r σ.rhs k below
  distinct : (n :: (front ++ below)).Nodup
  typed : σ.Typed
  listed : ∀ b, block = some b → b.index < r.blocks.size
  idle : ∀ i, record = some i → r.Idle i

/-- The statement at `n` is a store, and has the nodes `ns`. -/
def Stands (l : Layout) (r : Region) (σ : Store) (n : NodeId) (ns : List NodeId) : Prop :=
  ∃ k front below attrs block record, ns = n :: (front ++ below) ∧
    σ.At l r n k front below attrs block record

variable {l : Layout} {r r' : Region} {σ : Store} {n k : NodeId} {front below ns ns' : List NodeId}
  {attrs : Attrs} {block : Option BlockId} {record : Option RecordId} {e : Term} {s : Setting}

@[simp] theorem code_put : (σ.put e).code = σ.code := by cases σ <;> rfl

@[simp] theorem ty_put : (σ.put e).ty = σ.ty := by cases σ <;> rfl

@[simp] theorem rhs_put : (σ.put e).rhs = e := by cases σ <;> rfl

@[simp] theorem target_put : (σ.put e).target = σ.target := by cases σ <;> rfl

theorem Typed.put (h : σ.Typed) (same : e.ty = σ.rhs.ty) : (σ.put e).Typed := by
  refine ⟨by simpa using h.word, by simpa using same.trans h.rhs, ?_⟩
  rintro ty x base ofst e' eq
  cases σ with
  | indirect ty' x' base' ofst' e'' =>
    obtain ⟨_, _, rfl, rfl, _⟩ := Store.indirect.inj eq
    exact h.offsets _ _ _ _ _ rfl
  | _ => cases eq

theorem Names.put {g : NodeId → Option Node} (h : σ.Names g attrs record front) :
    (σ.put e).Names g attrs record front := by
  cases σ <;> exact h

theorem Names.congr {g g' : NodeId → Option Node} (h : σ.Names g attrs record front)
    (same : ∀ m ∈ front, g' m = g m) : σ.Names g' attrs record front := by
  cases σ with
  | indirect ty x base ofst e =>
    obtain ⟨ofst, noRecord, k, ty', attrs', rfl, shape, address⟩ := h
    exact ⟨ofst, noRecord, k, ty', attrs', rfl, (same k List.mem_cons_self).trans shape, address⟩
  | _ => exact h

/-- The nodes of an address. -/
theorem Names.plain {g : NodeId → Option Node} (h : σ.Names g attrs record front) :
    Plain g front := by
  cases σ with
  | indirect ty x base ofst e =>
    obtain ⟨_, _, k, ty', attrs', rfl, shape, _⟩ := h
    intro m mem
    rw [List.mem_singleton.mp mem]
    exact ⟨_, _, _, _, shape⟩
  | _ =>
    rw [h.1]
    exact fun _ mem => absurd mem List.not_mem_nil

namespace At

variable (h : σ.At l r n k front below attrs block record)
include h

theorem node : ∃ parent, r.node? n =
    some ⟨σ.code, σ.ty, attrs, front.map ([·]) ++ [[k]], parent, block, record, none⟩ :=
  Region.node?_of_whole h.shape

theorem apart : n ∉ below := by
  have distinct := h.distinct
  simp_all

theorem front_apart : ∀ m ∈ front, m ≠ n ∧ m ∉ below := by
  have distinct := h.distinct
  grind

theorem mem_lt : ∀ m ∈ n :: (front ++ below), m.index < r.nodes.size := by
  intro m mem
  simp only [List.mem_cons, List.mem_append] at mem
  rcases mem with rfl | mem | mem
  · exact Region.lt_size_of_shape h.shape
  · obtain ⟨_, _, _, _, shape⟩ := h.names.plain m mem
    exact Region.lt_size_of_shape shape
  · exact h.stored.lt_size mem

/-- A store stays as it is where its nodes keep their shapes. -/
theorem kept (other : Kept .unrecorded r r' ns) (apart : ∀ m ∈ n :: (front ++ below), m ∉ ns) :
    σ.At l r' n k front below attrs block record := by
  have same : ∀ m ∈ n :: (front ++ below), r'.shape false m = r.shape false m := fun m mem =>
    other.shape m (apart m mem) (h.mem_lt m mem)
  refine ⟨(same n List.mem_cons_self).trans h.shape, h.names.congr fun m mem => ?_,
    h.stored.kept other fun m mem => ?_, h.distinct, h.typed, ?_, ?_⟩
  · exact same m (List.mem_cons_of_mem _ (List.mem_append_left _ mem))
  · exact apart m (List.mem_cons_of_mem _ (List.mem_append_right _ mem))
  · exact fun b eq => other.grown.blocks.symm ▸ h.listed b eq
  · exact fun i eq => other.grown.idle rfl i (h.idle i eq)

end At

end Store

/-! ### Parents and blocks -/

section edits

variable {linked : Links} {r : Region} {n : NodeId} {ks ns : List NodeId} {d : Node}
  {F : Fault → Prop}

theorem setParent_meets (linked : Links) {p : Option NodeId} (live : r.Live n) :
    Meets (setParent n p) r F fun _ r' => Edited linked r r' (r.shape linked) := by
  obtain ⟨d, found⟩ := live
  refine (meets_modifyNode found).mpr ⟨?_, .put found rfl⟩
  rw [Region.shape_put (Region.lt_size_of_node? found)]
  exact Function.update_eq_self_iff.mpr (by simp [Region.shape, found, Node.bare])

theorem adoptKids_meets (linked : Links) (found : r.node? n = some d)
    (live : ∀ k ∈ d.kids, r.Live k) :
    Meets (adoptKids n) r F fun _ r' => Edited linked r r' (r.shape linked) := by
  simp only [adoptKids, Edit.node, meets_bind, meets_ask, Region.node_of found, yields_ok]
  exact (meets_setParents live).mpr ⟨Region.shape_reparent, .reparent⟩

/-- Setting parents all over a grove does not show in the shapes. -/
theorem adoptAllWithin_meets (linked : Links) {kidsAt : NodeId → Option (List NodeId)} {fuel : Nat}
    {p : Option NodeId} (trees : Grove kidsAt ks ns) (kids : r.kidsOf = kidsAt)
    (deep : ns.length ≤ fuel) :
    Meets (ks.forM fun k => do setParent k p; adoptAllWithin fuel k) r F fun _ r' =>
      Edited linked r r' (r.shape linked) := by
  induction trees generalizing r fuel p with
  | nil => exact .refl
  | @cons n below ks ns rest node _ _ ihBelow ihRest =>
    simp only [List.length_cons, List.length_append] at deep
    obtain ⟨fuel, rfl⟩ : ∃ f, fuel = f + 1 := ⟨fuel - 1, by omega⟩
    obtain ⟨d, found, rfl⟩ := Region.node?_of_kidsOf (kids.symm ▸ node)
    have unfolded : (n :: ks).forM (fun k => do setParent k p; adoptAllWithin (fuel + 1) k) =
        (setParent n p >>= fun _ => adoptAllWithin (fuel + 1) n) >>= fun _ =>
          ks.forM (fun k => do setParent k p; adoptAllWithin (fuel + 1) k) := rfl
    rw [unfolded, meets_bind, meets_bind]
    refine (setParent_meets linked ⟨d, found⟩).to fun _ r₁ first => ?_
    have kids₁ : r₁.kidsOf = kidsAt := first.kidsOf.trans kids
    obtain ⟨d₁, found₁, same⟩ := Region.node?_of_kidsOf (kids₁.symm ▸ node)
    simp only [adoptAllWithin, Edit.node, meets_bind, meets_ask, Region.node_of found₁, yields_ok,
      same]
    have deepBelow : ns.length ≤ fuel := by omega
    have deepRest : rest.length ≤ fuel + 1 := by omega
    refine (ihBelow kids₁ deepBelow).to fun _ r₂ second => ?_
    have both := first.shape ▸ first.trans second
    refine (ihRest (both.kidsOf.trans kids) deepRest).to fun _ r₃ third => ?_
    exact both.shape ▸ both.trans third

theorem adoptAll_edits (linked : Links) (found : r.node? n = some d)
    (trees : Grove r.kidsOf d.kids ns) (deep : ns.length ≤ r.nodes.size) :
    Meets (adoptAll n) r F fun _ r' => Edited linked r r' (r.shape linked) := by
  simp only [adoptAll, meets_bind, meets_get, Region.depthBound, adoptAllWithin, Edit.node,
    meets_ask, Region.node_of found, yields_ok]
  exact adoptAllWithin_meets linked trees rfl deep

/-- A statement is finished without a check where no edges are maintained. -/
theorem finishStmt_edits (linked : Links) {s : Setting} {changed : Bool}
    (found : r.node? n = some d) (live : ∀ k ∈ d.kids, r.Live k) (calm : r.hasEdges = false) :
    Meets (finishStmt s n changed) r F fun out r' =>
      out = .stands n changed ∧ Edited linked r r' (r.shape linked) := by
  unfold finishStmt
  cases changed with
  | false => exact ⟨rfl, .refl⟩
  | true =>
    simp only [if_true, meets_bind]
    refine (adoptKids_meets linked found live).to fun _ r' adopted => ?_
    have calm' : r'.hasEdges = false := adopted.grown.edges.trans calm
    simp [checkEdges, Edit.hasEdges, calm', adopted]

/-- A statement that left its block is not listed there any more. -/
theorem leaveBlock_meets (linked : Links) (found : r.node? n = some d)
    (listed : ∀ b, d.block = some b → b.index < r.blocks.size) :
    Meets (leaveBlock n) r F fun _ r' => Kept linked r r' [n] ∧ ∃ block,
      r'.node? n = some { d with block } ∧
      ∀ b, block = some b → ∃ ss, r'.stmts b = .ok ss ∧ n ∉ ss := by
  have live := Region.isReleased_of found
  simp only [leaveBlock, Edit.node, meets_bind, meets_ask, Region.node_of found, yields_ok]
  cases block : d.block with
  | none => exact ⟨.refl, none, block ▸ found, by simp⟩
  | some b =>
    obtain ⟨ss, at_b⟩ : ∃ ss, r.blocks[b.index]? = some ss :=
      ⟨_, Array.getElem?_eq_getElem (listed b block)⟩
    have stmts : r.stmts b = .ok ss := by simp [Region.stmts, Region.lookup, at_b]
    simp only [unlinkStmt, Edit.stmts, meets_bind, meets_ask, stmts, yields_ok]
    by_cases mem : n ∈ ss
    · obtain ⟨r₁, others⟩ : ∃ r₁ : Region, r₁ =
          { r with blocks := r.blocks.setIfInBounds b.index (ss.erase n) } := ⟨_, rfl⟩
      have found₁ : r₁.node? n = some d := others ▸ found
      have inside := Region.lt_size_of_node? found₁
      simp only [List.contains_eq_mem, mem, decide_true, if_true, setStmts, Edit.isReleased,
        Edit.node, meets_bind, meets_modify, meets_get, meets_pure, ← others,
        Region.isReleased_of found₁, Bool.not_false, meets_ask, Region.node_of found₁, yields_ok,
        block, meets_putNode]
      refine ⟨⟨fun m outside _ => ?_, ?_⟩, none, ?_, by simp⟩
      · have apart : m ≠ n := by simpa using outside
        rw [Region.shape_put inside, Function.update_of_ne apart, others]
        rfl
      · have unlisted : Grown linked r r₁ := by
          rw [others]
          exact .of_records le_rfl rfl rfl (by simp) rfl (fun _ => id) fun _ d _ found own =>
            .inr ⟨d, found, own⟩
        exact unlisted.trans (.put found₁ rfl)
      · rw [Region.node?_put inside, if_pos rfl]
    · simp only [List.contains_eq_mem, mem, decide_false, Bool.false_eq_true, if_false, meets_pure]
      refine ⟨.refl, some b, block ▸ found, ?_⟩
      rintro _ ⟨⟩
      exact ⟨ss, stmts, mem⟩

/-- A statement on top of plain trees, once it left its block, may be released. -/
theorem leaveBlock_loosens (linked : Links) (found : r.node? n = some d) (noSsa : d.ssa = none)
    (listed : ∀ b, d.block = some b → b.index < r.blocks.size)
    (idle : linked = .unrecorded → ∀ i, d.record = some i → r.Idle i)
    (trees : Grove r.kidsOf d.kids ns) (plain : Plain (r.shape linked) ns) (apart : n ∉ ns)
    (calm : r.Calm linked) :
    Meets (leaveBlock n) r F fun _ r' => Kept linked r r' [n] ∧
      Grove r'.kidsOf [n] (n :: ns) ∧ ∀ m ∈ n :: ns, r'.Loose linked m := by
  refine (leaveBlock_meets linked found listed).to fun _ r' left => ?_
  obtain ⟨kept, block, found', unlisted⟩ := left
  have same : ∀ m ∈ ns, r'.shape linked m = r.shape linked m := by
    intro m mem
    obtain ⟨_, _, _, _, shape⟩ := plain m mem
    exact kept.shape m (fun eq => apart (List.mem_singleton.mp eq ▸ mem))
      (Region.lt_size_of_shape shape)
  have plain' : Plain (r'.shape linked) ns := by
    intro m mem
    rw [same m mem]
    exact plain m mem
  have trees' : Grove r'.kidsOf d.kids ns := by
    apply trees.congr
    intro m mem
    rw [@Region.kidsOf_shape linked r', @Region.kidsOf_shape linked r, same m mem]
  have calm' := kept.grown.calm calm
  refine ⟨kept, Grove.singleton_iff.mpr ⟨d.kids, ns, ?_, trees', rfl⟩, ?_⟩
  · simp [Region.kidsOf, found', Node.kids]
  · intro m mem
    rcases List.mem_cons.mp mem with rfl | mem
    · refine ⟨_, found', noSsa, unlisted, fun still i eq => ?_⟩
      cases linked with
      | unrecorded => exact kept.grown.idle rfl i (idle rfl i eq)
      | idle => exact calm'.records m _ i found' eq
      | live => exact absurd rfl still
    · exact plain'.loose calm' m mem

theorem releaseStmt_meets (still : linked ≠ .live) (tree : Grove r.kidsOf [n] ns)
    (distinct : ns.Nodup) (loose : ∀ m ∈ ns, r.Loose linked m) :
    Meets (do removeSsaUsesIn n; releaseTree n) r (fun _ => False) fun _ r' =>
      Kept linked r r' ns := by
  refine Meets.bind (removeSsaUsesIn_meets tree distinct loose) ?_
  rintro _ _ rfl
  simp only [releaseTree, Edit.subtree, meets_bind, meets_ask,
    Region.subtree_of_grove tree distinct, yields_ok]
  refine (releaseAll_meets loose distinct).imp (fun _ => still) fun _ r' released => ?_
  exact released.kept fun m outside _ => if_neg outside

/-- A statement on top of plain trees leaves its block and is released, where no edges are
maintained. -/
theorem leaveAndRelease_kept (linked : Links) (still : linked ≠ .live) (found : r.node? n = some d)
    (noSsa : d.ssa = none) (listed : ∀ b, d.block = some b → b.index < r.blocks.size)
    (idle : linked = .unrecorded → ∀ i, d.record = some i → r.Idle i)
    (trees : Grove r.kidsOf d.kids ns) (plain : Plain (r.shape linked) ns)
    (distinct : (n :: ns).Nodup) (calm : r.Calm linked) :
    Meets (leaveBlock n) r (fun _ => False) fun _ r₁ => r₁.hasEdges = false ∧
      Meets (do removeSsaUsesIn n; releaseTree n) r₁ (fun _ => False) fun _ r' =>
        Kept linked r r' (n :: ns) := by
  refine (leaveBlock_loosens linked found noSsa listed idle trees plain
    (List.nodup_cons.mp distinct).1 calm).to fun _ r₁ left => ?_
  obtain ⟨kept, tree, loose⟩ := left
  refine ⟨kept.grown.edges.trans (calm.edges still),
    (releaseStmt_meets still tree distinct loose).to fun _ r' released => ?_⟩
  exact (kept.mono fun m mem => List.mem_singleton.mp mem ▸ List.mem_cons_self).trans released .refl

section unlinked

variable (linked : Links) (still : linked ≠ .live) (found : r.node? n = some d)
  (noSsa : d.ssa = none)
  (listed : ∀ b, d.block = some b → b.index < r.blocks.size)
  (idle : linked = .unrecorded → ∀ i, d.record = some i → r.Idle i)
  (trees : Grove r.kidsOf d.kids ns) (plain : Plain (r.shape linked) ns)
  (distinct : (n :: ns).Nodup) (calm : r.Calm linked)
include still found noSsa listed idle trees plain distinct calm

theorem deleteStmt_kept :
    Meets (deleteStmt n) r (fun _ => False) fun _ r' => Kept linked r r' (n :: ns) := by
  simp only [deleteStmt, Edit.hasEdges, meets_bind, meets_get, meets_pure, calm.edges still,
    Bool.false_eq_true, if_false]
  refine (leaveAndRelease_kept linked still found noSsa listed idle trees plain distinct calm).to ?_
  rintro _ r₁ ⟨_, released⟩
  exact meets_bind.mp released

theorem discardStmt_kept : Meets (do discard (leaveBlock n); discardTree n) r (fun _ => False)
    fun _ r' => Kept linked r r' (n :: ns) := by
  rw [meets_bind, meets_discard]
  refine (leaveAndRelease_kept linked still found noSsa listed idle trees plain distinct calm).to ?_
  rintro _ r₁ ⟨edges, released⟩
  simp only [discardTree, Edit.hasEdges, meets_bind, meets_get, meets_pure, edges,
    Bool.false_eq_true, if_false]
  exact meets_bind.mp released

end unlinked

end edits

/-! ### Refining a store -/

section leaves

variable {l : Layout} {r : Region} {n : NodeId} {ns : List NodeId} {d : Node} {e : Term}

theorem Term.eq_reg (typed : e.typed l = true) (code : e.code = .pr) : ∃ t q, e = .reg t q := by
  cases e with
  | reg t q => exact ⟨t, q, rfl⟩
  | unary op t a =>
    have fits := (typed_unary.mp typed).2
    rw [show op = .pr from code] at fits
    exact absurd fits Bool.false_ne_true
  | binary op t a b =>
    have binary := isBinary_of_typed typed
    rw [show op = .pr from code] at binary
    exact absurd binary Bool.false_ne_true
  | _ => cases code

theorem Term.eq_load (typed : e.typed l = true) (code : e.code = .ld) :
    ∃ t x ofst, e = .load t x ofst := by
  cases e with
  | load t x ofst => exact ⟨t, x, ofst, rfl⟩
  | unary op t a =>
    have fits := (typed_unary.mp typed).2
    rw [show op = .ld from code] at fits
    exact absurd fits Bool.false_ne_true
  | binary op t a b =>
    have binary := isBinary_of_typed typed
    rw [show op = .ld from code] at binary
    exact absurd binary Bool.false_ne_true
  | _ => cases code

/-- A node that reads a register. -/
theorem Stands.eq_reg (h : Stands .unrecorded l r e n ns) (found : r.node? n = some d)
    (code : d.code = .pr) : e = .reg e.ty d.attrs.reg := by
  obtain ⟨d', found', reads⟩ := h.reads
  obtain rfl : d' = d := Option.some.inj (found'.symm.trans found)
  obtain ⟨t, q, rfl⟩ := Term.eq_reg h.typed (reads.code.symm.trans code)
  obtain ⟨_, attrs, shape, rfl⟩ := h.spells
  obtain ⟨_, _, found'', _⟩ := Region.node?_of_shape shape
  rw [Option.some.inj (found.symm.trans found'')]
  rfl

/-- A node that reads a variable. -/
theorem Stands.eq_load (h : Stands .unrecorded l r e n ns) (found : r.node? n = some d)
    (code : d.code = .ld) : ∃ x, d.attrs.var = some x ∧ e = .load e.ty x d.attrs.ofst := by
  obtain ⟨d', found', reads⟩ := h.reads
  obtain rfl : d' = d := Option.some.inj (found'.symm.trans found)
  obtain ⟨t, x, ofst, rfl⟩ := Term.eq_load h.typed (reads.code.symm.trans code)
  obtain ⟨_, attrs, shape, var, rfl⟩ := h.spells
  obtain ⟨_, _, found'', _⟩ := Region.node?_of_shape shape
  rw [Option.some.inj (found.symm.trans found'')]
  exact ⟨x, var, rfl⟩

end leaves

namespace Store

variable {l : Layout} {r r' : Region} {σ σ' : Store} {n k : NodeId}
  {front below ns ns' : List NodeId} {attrs : Attrs} {block : Option BlockId}
  {record : Option RecordId} {e : Term} {s : Setting} {F : Fault → Prop}

/-- From `r` to `r'`, the statement with the nodes `ns` was turned into one that is a store in
place of `σ`, or was deleted. -/
def Ends (l : Layout) (σ : Store) (r : Region) (ns : List NodeId) (out : Option NodeId)
    (r' : Region) : Prop :=
  Kept .unrecorded r r' ns ∧
    match out with
    | some n' => ∃ σ' ns', σ'.Stands l r' n' ns' ∧ Within r ns ns' ∧ σ.Becomes l (some σ')
    | none => σ.Becomes l none

theorem Names.grove {g : NodeId → Option Node} (h : σ.Names g attrs record front) :
    Grove (fun m => (g m).map Node.kids) front front := by
  cases σ with
  | indirect ty x base ofst e =>
    obtain ⟨_, _, k, ty', attrs', rfl, shape, _⟩ := h
    exact Grove.singleton_iff.mpr ⟨[], [], by simp [shape, Node.kids, Node.fresh], .nil, rfl⟩
  | _ =>
    rw [h.1]
    exact .nil

namespace At

variable (h : σ.At l r n k front below attrs block record)
include h

theorem kid : r.kid n front.length = .ok k := by
  obtain ⟨parent, found⟩ := h.node
  have slot : (front.map ([·]) ++ [[k]])[front.length]? = some [k] := by simp
  exact Region.kid_of found slot

theorem plain : Plain (r.shape false) (front ++ below) := by
  intro m mem
  rcases List.mem_append.mp mem with mem | mem
  · exact h.names.plain m mem
  · exact h.stored.spells.plain m mem

/-- The trees below the statement. -/
theorem trees : Grove r.kidsOf (front.map ([·]) ++ [[k]]).flatten (front ++ below) := by
  have same : r.kidsOf = fun m => (r.shape false m).map Node.kids :=
    funext fun m => Region.kidsOf_shape
  have kids : (front.map ([·]) ++ [[k]]).flatten = front ++ [k] := by
    rw [List.flatten_append, ← List.flatMap_def, List.flatMap_singleton']
    rfl
  rw [kids]
  apply Grove.append _ h.stored.spells.tree
  rw [same]
  exact h.names.grove

theorem calm : r.hasEdges = false := h.stored.calm

/-- Another tree was put in place of the stored one. -/
theorem restore {r₁ : Region} {k' : NodeId}
    (inner : Turns .unrecorded l r below (σ.rhs.Refines l) k' r₁)
    (outer : k' = k ∧ r' = r₁ ∨ Edited .unrecorded r₁ r' (Function.update (r₁.shape false) n
      (some ⟨σ.code, σ.ty, attrs, front.map ([·]) ++ [[k']], none, block, record, none⟩))) :
    ∃ e below', (σ.put e).At l r' n k' front below' attrs block record ∧
      σ.Becomes l (some (σ.put e)) ∧ Within r (n :: (front ++ below)) (n :: (front ++ below')) ∧
      Kept .unrecorded r r' (n :: (front ++ below)) := by
  obtain ⟨e, below', stands, within, kept, refines⟩ := inner
  have old := h.mem_lt
  have final : Kept .unrecorded r₁ r' [n] ∧ r'.shape false n =
      some ⟨σ.code, σ.ty, attrs, front.map ([·]) ++ [[k']], none, block, record, none⟩ := by
    rcases outer with ⟨rfl, rfl⟩ | edited
    · exact ⟨.refl, (kept.shape n h.apart (old n List.mem_cons_self)).trans h.shape⟩
    · exact ⟨edited.kept_node, by rw [edited.shape, Function.update_self]⟩
  obtain ⟨last, shape⟩ := final
  have fresh : ∀ m ∈ below', m ≠ n ∧ m ∉ front := by
    intro m mem
    rcases within m mem with mem | new
    · exact ⟨fun eq => h.apart (eq ▸ mem), fun other => (h.front_apart m other).2 mem⟩
    · constructor
      · rintro rfl
        have := old m List.mem_cons_self
        omega
      · intro other
        have := old m (List.mem_cons_of_mem _ (List.mem_append_left _ other))
        omega
  have both : Kept .unrecorded r r' (n :: below) :=
    (kept.mono fun m mem => List.mem_cons_of_mem n mem).trans last
      fun m mem => .inl (List.mem_singleton.mp mem ▸ List.mem_cons_self)
  refine ⟨e, below', ⟨by simpa using shape, ?_, ?_, ?_, h.typed.put refines.ty, ?_, ?_⟩,
    ⟨target_put, ty_put, by simpa using refines⟩, ?_, both.mono (by grind)⟩
  · apply h.names.put.congr
    intro m mem
    obtain ⟨other, outside⟩ := h.front_apart m mem
    refine both.shape m ?_ (old m (List.mem_cons_of_mem _ (List.mem_append_left _ mem)))
    simp [other, outside]
  · simpa using stands.kept_node last fun mem => (fresh n mem).1 rfl
  · have distinct := h.distinct
    have nodup := stands.spells.nodup
    grind
  · exact fun b eq => both.grown.blocks.symm ▸ h.listed b eq
  · exact fun i eq => both.grown.idle rfl i (h.idle i eq)
  · intro m mem
    have old := within m
    grind

/-- Refining the stored tree. -/
theorem refineStored_meets : Meets (refineSlot (refineExpr s) n front.length) r (fun _ => False)
    fun _ r' => ∃ e k' below', (σ.put e).At l r' n k' front below' attrs block record ∧
      σ.Becomes l (some (σ.put e)) ∧ Within r (n :: (front ++ below)) (n :: (front ++ below')) ∧
      Kept .unrecorded r r' (n :: (front ++ below)) := by
  unfold refineSlot
  simp only [meets_bind, meets_ask, Region.kid?_of_kid h.kid, yields_ok]
  refine (refineExpr_refining r k below h.stored).imp (fun _ => by simp)
    fun out r₁ inner => ?_
  obtain ⟨k', changed⟩ := out
  by_cases same : k' = k
  · simp only [same, ne_eq, not_true_eq_false, if_false, meets_pure]
    obtain ⟨e, below', rest⟩ := h.restore (same ▸ inner) (.inl ⟨rfl, rfl⟩)
    exact ⟨e, k, below', rest⟩
  · simp only [ne_eq, same, not_false_eq_true, if_true, meets_bind, meets_pure]
    have live : r₁.Live k' := by
      obtain ⟨_, _, stands, _⟩ := inner
      exact stands.spells.live stands.spells.root_mem
    obtain ⟨parent, found⟩ : ∃ parent, r₁.node? n = some ⟨σ.code, σ.ty, attrs,
        front.map ([·]) ++ [[k]], parent, block, record, none⟩ := by
      obtain ⟨_, _, _, _, kept, _⟩ := inner
      apply Region.node?_of_whole
      rw [kept.shape n h.apart (h.mem_lt n List.mem_cons_self), h.shape]
    refine (setKid_edits .unrecorded found (by simp) live).to fun _ r₂ edited => ?_
    obtain ⟨e, below', rest⟩ :=
      h.restore inner (.inr (by simpa [Node.holding, Node.bare] using edited))
    exact ⟨e, k', below', rest⟩

/-- Deleting the statement. -/
theorem deleteStmt_meets : Meets (deleteStmt n) r (fun _ => False) fun _ r' =>
    Kept .unrecorded r r' (n :: (front ++ below)) := by
  obtain ⟨parent, found⟩ := h.node
  exact deleteStmt_kept .unrecorded (by simp) found rfl h.listed (fun _ => h.idle) h.trees h.plain
    h.distinct h.calm

/-- A stored tree of the type of the store fits. -/
theorem fitStored_meets : Meets (fitStored s n front.length) r F fun fitted r' =>
    fitted = false ∧ r' = r := by
  obtain ⟨parent, found⟩ := h.node
  obtain ⟨d, foundK, reads⟩ := h.stored.reads
  have small := Ty.isSmall_of_isWord h.typed.word
  have same : d.ty = σ.ty := reads.ty.trans h.typed.rhs
  unfold fitStored
  by_cases asked : s.insertCvt = true
  · simp only [asked, if_true, Edit.node, meets_bind, meets_ask, Region.node_of found, yields_ok,
      fitSlot, Edit.kid, h.kid]
    refine (fitOperand_meets foundK (same ▸ small) small (same ▸ le_rfl)).to ?_
    rintro _ _ ⟨rfl, rfl⟩
    simp
  · simp [asked]

theorem finishStmt_meets {changed : Bool} : Meets (finishStmt s n changed) r F fun out r' =>
    out = .stands n changed ∧ Edited .unrecorded r r' (r.shape false) := by
  obtain ⟨parent, found⟩ := h.node
  have live : ∀ m ∈ (front.map ([·]) ++ [[k]]).flatten, r.Live m := by
    intro m mem
    obtain ⟨_, _, _, _, shape⟩ := h.plain m (h.trees.roots_mem m mem)
    exact Region.live_of_shape shape
  exact finishStmt_edits .unrecorded found live h.calm

end At

/-- What is made of a store that was turned already. -/
theorem Ends.trans {out : Option NodeId} {r'' : Region} (second : σ'.Ends l r' ns' out r'')
    (first : σ.Becomes l (some σ')) (within : Within r ns ns') (kept : Kept .unrecorded r r' ns) :
    σ.Ends l r ns out r'' := by
  obtain ⟨kept', result⟩ := second
  refine ⟨kept.trans kept' within, ?_⟩
  cases out with
  | some n' =>
    obtain ⟨σ'', ns'', stands, within', becomes⟩ := result
    exact ⟨σ'', ns'', stands, within.trans within' kept.grown.size, first.trans becomes⟩
  | none => exact first.trans result

/-- Deleting a store of what the target holds. -/
theorem At.dropNoted_meets (h : σ.At l r n k front below attrs block record) (rule : Rule)
    (holds : σ.rhs = σ.target.read σ.ty) :
    Meets (fired rule n) r (fun _ => False) fun _ r₁ => Meets (deleteStmt n) r₁ (fun _ => False)
      fun _ r' => σ.Ends l r (n :: (front ++ below)) none r' := by
  refine (fired_meets .unrecorded rule n).to fun _ r₁ noted => ?_
  have h₁ := h.kept noted.kept_same fun m mem => List.not_mem_nil (a := m)
  refine h₁.deleteStmt_meets.to fun _ r' dropped => ⟨noted.kept_same.trans dropped .refl, ?_⟩
  have same : σ.rhs.Refines l (σ.target.read σ.ty) := holds ▸ .refl h.stored.typed
  exact same

/-- Finishing a store. -/
theorem At.finish_meets (h : σ.At l r n k front below attrs block record) {c : Bool} :
    Meets (fitStored s n front.length) r (fun _ => False) fun fitted r₁ =>
      Meets (finishStmt s n (c || fitted)) r₁ (fun _ => False) fun out r' =>
        σ.Ends l r (n :: (front ++ below)) out.node r' := by
  refine h.fitStored_meets.to ?_
  rintro _ _ ⟨rfl, rfl⟩
  refine h.finishStmt_meets.to ?_
  rintro _ r' ⟨rfl, finished⟩
  have after := h.kept finished.kept_same fun m mem => List.not_mem_nil (a := m)
  exact ⟨finished.kept_same, σ, _, ⟨k, front, below, attrs, block, record, rfl, after⟩, .refl,
    .refl h.stored.typed⟩

/-! Where the target holds the value already -/

section back

variable (h : σ.At l r n k front below attrs block record)
include h

theorem At.exactRef : ∃ x, r.exactRef? n = .ok x := by
  obtain ⟨parent, found⟩ := h.node
  cases own : record with
  | none =>
    refine ⟨none, ?_⟩
    simp [Region.exactRef?, Region.access, Region.access?, Region.node_of found, own,
      Access.clean, bind, Except.bind, pure, Except.pure]
  | some i =>
    obtain ⟨a, at_i, _, known⟩ := h.idle i own
    have access : r.access n = .ok a := by
      simp [Region.access, Region.access?, Region.node_of found, own, Region.lookup, at_i, bind,
        Except.bind, pure, Except.pure]
    simp only [Region.exactRef?, access, bind, Except.bind]
    cases must : a.must with
    | none => exact ⟨none, rfl⟩
    | some x =>
      have at_x := Array.getElem?_eq_getElem (known x must)
      simp [Region.location, Region.lookup, at_x, pure, Except.pure]

theorem isRegisterSelfCopy_meets (direct : front = []) :
    Meets (isRegisterSelfCopy n) r F fun copy r' => r' = r ∧
      (copy = true → σ.rhs = σ.target.read σ.ty) := by
  obtain ⟨parent, found⟩ := h.node
  obtain ⟨d, foundK, reads⟩ := h.stored.reads
  have kid : r.kid n 0 = .ok k := by simpa [direct] using h.kid
  simp only [isRegisterSelfCopy, Edit.node, Edit.kid, meets_bind, meets_ask, kid, yields_ok,
    Region.node_of found, Region.node_of foundK, meets_pure, Bool.and_eq_true, beq_iff_eq, true_and]
  rintro ⟨⟨code, codeK⟩, same⟩
  have rhs := h.stored.eq_reg foundK codeK
  rw [h.typed.rhs, same] at rhs
  cases σ with
  | reg ty q e => rw [rhs, h.names.2]; rfl
  | _ => cases code

theorem storesBack_meets :
    Meets (storesBack n k) r F fun back r' => r' = r ∧
      (back = true → σ.rhs = σ.target.read σ.ty) := by
  obtain ⟨parent, found⟩ := h.node
  obtain ⟨d, foundK, reads⟩ := h.stored.reads
  obtain ⟨x, exact⟩ := h.exactRef
  obtain ⟨attrsK, slots, shapeK⟩ := h.stored.spells.root
  have inexact : r.exactRef? k = .ok none := by
    simp [Region.exactRef?, access_of_shape shapeK, Access.clean, bind, Except.bind, pure,
      Except.pure]
  have location : Meets (sameLocation? n k) r F fun same r' => same = none ∧ r' = r := by
    simp only [sameLocation?, meets_bind, meets_ask, exact, inexact, yields_ok, meets_pure,
      and_self]
  unfold storesBack
  refine Meets.bind location ?_
  rintro _ _ ⟨rfl, rfl⟩
  simp only [Edit.node, meets_bind, meets_ask, yields_ok, Region.node_of found,
    Region.node_of foundK, meets_pure, Bool.and_eq_true, beq_iff_eq, true_and]
  rintro ⟨⟨⟨⟨⟨code, codeK⟩, _⟩, _⟩, var⟩, ofst⟩
  obtain ⟨y, varK, rhs⟩ := h.stored.eq_load foundK codeK
  rw [h.typed.rhs] at rhs
  cases σ with
  | var ty z o e =>
    obtain ⟨_, name, offset⟩ := h.names
    obtain rfl : z = y := Option.some.inj (name.symm.trans (var.trans varK))
    rw [rhs, ← ofst, offset]
    rfl
  | _ => cases code

theorem refineStore_meets (direct : front = []) :
    Meets (refineStore s (refineExpr s) n) r (fun _ => False) fun out r' =>
      σ.Ends l r (n :: (front ++ below)) out.node r' := by
  subst direct
  have rest : Meets (do
      let inStored ← refineSlot (refineExpr s) n 0
      let stored ← kid n 0
      if s.dropSelfStores && (← node stored).code ≠ .cvt then
        if ← storesBack n stored then
          fired .selfCopy n
          return .deleted (← deleteStmt n)
      let fitted ← fitStored s n 0
      finishStmt s n (inStored || fitted)) r (fun _ => False) fun out r' =>
        σ.Ends l r (n :: ([] ++ below)) out.node r' := by
    have refined := h.refineStored_meets (s := s)
    rw [List.length_nil] at refined
    refine Meets.bind refined fun inStored r₁ turned => ?_
    obtain ⟨e, k', below', h₁, becomes, within, kept⟩ := turned
    obtain ⟨d, found, _⟩ := h₁.stored.reads
    have kid : r₁.kid n 0 = .ok k' := h₁.kid
    have finish := h₁.finish_meets (s := s) (c := inStored)
    rw [List.length_nil] at finish
    simp only [Edit.kid, Edit.node, meets_bind, meets_ask, kid, yields_ok, Region.node_of found]
    split
    · simp only [meets_bind]
      refine (storesBack_meets h₁).to ?_
      rintro back _ ⟨rfl, holds⟩
      cases back with
      | true =>
        simp only [if_true, meets_bind, meets_pure]
        refine (h₁.dropNoted_meets .selfCopy (holds rfl)).to fun _ r₂ inner => ?_
        exact inner.to fun _ r' ended => ended.trans becomes within kept
      | false =>
        refine Meets.bind finish fun fitted r₂ inner => ?_
        exact inner.to fun _ r' ended => ended.trans becomes within kept
    · refine Meets.bind finish fun fitted r₂ inner => ?_
      exact inner.to fun _ r' ended => ended.trans becomes within kept
  unfold refineStore
  by_cases drops : s.dropSelfStores = true
  · rw [if_pos drops]
    refine Meets.bind (isRegisterSelfCopy_meets h rfl) ?_
    rintro copy _ ⟨rfl, holds⟩
    cases copy with
    | true =>
      simp only [if_true, meets_bind, meets_pure]
      exact h.dropNoted_meets .selfRegisterCopy (holds rfl)
    | false => exact rest
  · rw [if_neg drops]
    exact rest

end back

end Store

/-! ### Indirect stores -/

section records

variable {r : Region} {n st : NodeId} {d : Node} {i : RecordId} {a : Access} {F : Fault → Prop}

theorem register_meets (linked : Links) (x : Location) : Meets (register x) r F fun m r' =>
    m.index < r'.locations.size ∧ Edited linked r r' (r.shape linked) := by
  simp only [register, meets_bind, meets_get]
  cases known : r.locations.idxOf? x with
  | some i =>
    obtain ⟨j, _, rfl⟩ := Option.map_eq_some_iff.mp known
    exact ⟨j.isLt, .refl⟩
  | none =>
    refine ⟨by simp, rfl, .of_records le_rfl rfl rfl rfl rfl (fun i idle => ?_)
      fun _ d _ found own => .inr ⟨d, found, own⟩⟩
    obtain ⟨a, found, empty, must⟩ := idle
    refine ⟨a, found, empty, fun x eq => ?_⟩
    have := must x eq
    simp only [Array.size_push]
    omega

/-- The first change of a record makes it. -/
theorem modifyAccess_new {f : Access → Access} (found : r.node? n = some d)
    (none : d.record = none) :
    Meets (modifyAccess n f) r F fun _ r' => Kept .unrecorded r r' [n] ∧
      r'.locations = r.locations ∧
      ∃ i, r'.node? n = some { d with record := some i } ∧
        r'.records[i.index]? = some (f .clean) := by
  simp only [modifyAccess, Edit.node, meets_bind, meets_ask, Region.node_of found, yields_ok, none,
    meets_modifyGet, meets_putNode]
  have inside := Region.lt_size_of_node? found
  obtain ⟨r₁, same⟩ : ∃ r₁ : Region, r₁ = { r with records := r.records.push (f .clean) } :=
    ⟨_, rfl⟩
  have inside₁ : n.index < r₁.nodes.size := same ▸ inside
  rw [← same]
  refine ⟨⟨fun m outside _ => ?_, ?_⟩, same ▸ rfl, ⟨r.records.size⟩, ?_, ?_⟩
  · have apart : m ≠ n := by simpa using outside
    rw [Region.shape_put inside₁, Function.update_of_ne apart, same]
    rfl
  · rw [same]
    refine .unrecorded (by simp) rfl rfl rfl rfl fun i idle => ?_
    obtain ⟨a, at_i, rest⟩ := idle
    have old := (Array.getElem?_eq_some_iff.mp at_i).1
    refine ⟨a, ?_, rest⟩
    simp only [Region.put]
    rw [Array.getElem?_push, if_neg (by omega), at_i]
  · rw [Region.node?_put inside₁, if_pos rfl]
  · rw [same]
    simp [Region.put]

/-- A change of a record that keeps its edges and its location. -/
theorem modifyOwnAccess_kept {f : Access → Access} (found : r.node? n = some d)
    (own : d.record = some i) (at_i : r.records[i.index]? = some a) (peers : (f a).peers = a.peers)
    (must : (f a).must = a.must) :
    Meets (modifyOwnAccess n f) r F fun _ r' => Edited .unrecorded r r' (r.shape false) := by
  have look : Region.lookup r.records i = .ok a := by simp [Region.lookup, at_i]
  simp only [modifyOwnAccess, modifyAccess, Edit.node, meets_bind, meets_ask, Region.node_of found,
    yields_ok, own, Option.isSome_some, if_true, look, meets_modify]
  refine ⟨rfl, .unrecorded le_rfl rfl rfl rfl rfl fun j idle => ?_⟩
  obtain ⟨b, at_j, empty, known⟩ := idle
  by_cases same : i.index = j.index
  · obtain rfl : a = b := by
      rw [same, at_j] at at_i
      exact (Option.some.inj at_i).symm
    refine ⟨f a, ?_, peers.trans empty, fun x eq => known x (must ▸ eq)⟩
    rw [same]
    exact Array.getElem?_setIfInBounds_self_of_lt (Array.getElem?_eq_some_iff.mp at_j).1
  · exact ⟨b, (Array.getElem?_setIfInBounds_ne same).trans at_j, empty, known⟩

theorem inheritStore_meets {ty : Ty} {attrs : Attrs} {slots : List (List NodeId)} {x : VarId}
    (new : r.shape false st = some (.fresh .st ty attrs slots)) (var : attrs.var = some x)
    (old : r.access n = .ok .clean) (calm : r.hasEdges = false) :
    Meets (inheritStore st n) r F fun _ r' => Kept .unrecorded r r' [st] ∧ ∃ i, r'.Idle i ∧
      r'.shape false st = some { Node.fresh .st ty attrs slots with record := some i } := by
  obtain ⟨parent, record, found, noRecord⟩ := Region.node?_of_shape new
  obtain rfl := noRecord rfl
  have clean := access_of_shape new
  have copied : Meets (copyAccess st n) r F fun _ r' => r' = r := by
    simp [copyAccess, Edit.node, old, Region.node_of found, Access.clean]
  unfold inheritStore
  refine Meets.bind copied ?_
  rintro _ r rfl
  simp only [meets_bind, meets_ask, clean, yields_ok, Access.clean, Option.isNone_none, if_true,
    locateStore, locateVariable, Edit.node, Region.node_of found, var, meets_get, ne_eq,
    not_true_eq_false, if_false]
  refine (register_meets .unrecorded _).to fun m r₁ known => ?_
  obtain ⟨inside, placed⟩ := known
  have shape₁ : r₁.shape false st = some (.fresh .st ty attrs slots) := by rw [placed.shape, new]
  obtain ⟨parent₁, record₁, found₁, noRecord₁⟩ := Region.node?_of_shape shape₁
  obtain rfl := noRecord₁ rfl
  unfold setMust clearMay
  refine (modifyAccess_new found₁ rfl).to fun _ r₂ made => ?_
  obtain ⟨kept, locations, i, found₂, at_i⟩ := made
  refine (modifyOwnAccess_kept found₂ rfl at_i rfl rfl).to fun _ r₃ cleared => ?_
  have both : Kept .unrecorded r r₃ [st] :=
    (placed.kept_same.trans kept .refl).trans cleared.kept_same .refl
  have calm₃ : r₃.hasEdges = false := both.grown.edges.trans calm
  simp only [Edit.hasEdges, meets_bind, meets_get, meets_pure, calm₃, Bool.false_eq_true, if_false]
  refine ⟨both, i, ?_, ?_⟩
  · apply cleared.grown.idle rfl
    refine ⟨_, at_i, rfl, ?_⟩
    rintro x ⟨⟩
    exact locations ▸ inside
  · rw [cleared.shape, Region.shape, found₂]
    rfl

end records

namespace Store

variable {l : Layout} {r : Region} {σ : Store} {n k : NodeId} {front below ns : List NodeId}
  {attrs : Attrs} {block : Option BlockId} {record : Option RecordId} {e : Term} {s : Setting}
  {ty : Ty} {x : VarId} {base ofst : Int}

/-- A store through an address becomes a store into the variable. -/
theorem directStore_meets
    (h : (indirect ty x base ofst e).At l r n k front below attrs block record) :
    Meets (directStore? n) r (fun _ => False) fun out r' => ∃ st record', out = some st ∧
      (var ty x (base + ofst) e).At l r' st k [] below (.ofVar x (base + ofst)) none record' ∧
      Within r (n :: (front ++ below)) (st :: ([] ++ below)) ∧
      Kept .unrecorded r r' (n :: (front ++ below)) := by
  obtain ⟨parent, found⟩ := h.node
  obtain ⟨rfl, rfl, a, ty', attrs', rfl, address, name, rfl⟩ := h.names
  obtain ⟨parentA, recordA, foundA, _⟩ := Region.node?_of_shape address
  have fits := h.typed.offsets _ _ _ _ _ rfl
  have kid₀ : r.kid n 0 = .ok a := Region.kid_of found rfl
  have kid₁ : r.kid n 1 = .ok k := h.kid
  have liveK : ∀ m ∈ [k], r.Live m := by
    simpa using h.stored.spells.live h.stored.spells.root_mem
  simp only [directStore?, Edit.kid, Edit.node, meets_bind, meets_ask, kid₀, kid₁, yields_ok,
    Region.node_of foundA, addressTarget?, if_true, name, Option.map_some, Region.node_of found,
    meets_discard]
  have slot : [[a], [k]][1]? = some [k] := rfl
  refine (takeKid_edits .unrecorded found slot liveK).to fun _ r₁ taken => ?_
  have distinct := h.distinct
  have old := h.mem_lt
  have kept₁ : Kept .unrecorded r r₁ [n] := taken.kept_node
  have self₁ : r₁.shape false n = some ⟨.ist, ty, attrs, [[a], []], none, block, none, none⟩ := by
    rw [taken.shape, Function.update_self]
    rfl
  have stored₁ := h.stored.kept_node kept₁ h.apart
  simp only [addOffsets, fits, if_true, meets_lift, yields_ok, store]
  have liveK₁ : r₁.Live k := stored₁.spells.live stored₁.spells.root_mem
  refine (build_meets .unrecorded (by simpa using liveK₁)).to fun st r₂ made => ?_
  obtain ⟨rfl, made⟩ := made
  have kept₂ : Kept .unrecorded r₁ r₂ [] := made.kept_next
  have new : r₂.shape false r₁.next =
      some (.fresh .st ty (.ofVar x (attrs'.ofst + attrs.ofst)) [[k]]) := by
    rw [made.shape, Function.update_self]
    rfl
  have self₂ := (kept₂.shape n List.not_mem_nil (Region.lt_size_of_shape self₁)).trans self₁
  obtain ⟨parent₂, found₂⟩ := Region.node?_of_whole self₂
  have clean : r₂.access n = .ok .clean := by
    simp [Region.access, Region.access?, Region.node_of found₂, bind, Except.bind, pure,
      Except.pure]
  have calm₂ : r₂.hasEdges = false :=
    (kept₂.grown.edges.trans kept₁.grown.edges).trans h.calm
  refine (inheritStore_meets new rfl clean calm₂).to fun _ r₃ inherited => ?_
  obtain ⟨kept₃, i, idle, new₃⟩ := inherited
  have nextOld : r.nodes.size ≤ r₁.next.index := kept₁.grown.size
  have apart {m : NodeId} (mem : m ∈ n :: ([a] ++ below)) : m ≠ r₁.next := by
    rintro rfl
    exact absurd (old _ mem) (Nat.not_lt.mpr nextOld)
  have toThree : Kept .unrecorded r₁ r₃ [r₁.next] := (kept₂.mono (by simp)).trans kept₃ .refl
  have same₃ {m : NodeId} (mem : m ∈ n :: ([a] ++ below)) : r₃.shape false m = r₁.shape false m :=
    toThree.shape m (by simpa using apart mem) ((old m mem).trans_le kept₁.grown.size)
  have address₃ : r₃.shape false a = some (.fresh .lda ty' attrs' []) := by
    have other : a ≠ n := (h.front_apart a List.mem_cons_self).1
    rw [same₃ (by simp), kept₁.shape a (by simpa using other) (old a (by simp)), address]
  have plain₃ : Plain (r₃.shape false) [a] := by
    intro m mem
    rw [List.mem_singleton.mp mem]
    exact ⟨_, _, _, _, address₃⟩
  have trees₃ : Grove r₃.kidsOf [a] [a] := by
    apply Grove.singleton_iff.mpr
    exact ⟨[], [], by rw [@Region.kidsOf_shape false, address₃]; rfl, .nil, rfl⟩
  obtain ⟨parent₃, found₃⟩ := Region.node?_of_whole ((same₃ List.mem_cons_self).trans self₁)
  have blocks : r₃.blocks.size = r.blocks.size := toThree.grown.blocks.trans kept₁.grown.blocks
  have discarded := discardStmt_kept .unrecorded (by simp) found₃ rfl
    (fun b eq => blocks ▸ h.listed b eq) (by simp) trees₃ plain₃ (by grind)
    (toThree.grown.calm (kept₁.grown.calm h.calm))
  rw [meets_bind, meets_discard] at discarded
  refine discarded.to fun _ r₄ inner => inner.to fun _ r₆ released => ?_
  refine (fired_meets .unrecorded .istOfLda n).to fun _ r₇ noted => ?_
  have last : Kept .unrecorded r₃ r₇ [n, a] := released.trans noted.kept_same .refl
  have stored₃ := stored₁.kept toThree fun m mem => by
    simpa using apart (List.mem_cons_of_mem n (List.mem_append_right [a] mem))
  have stored₇ := stored₃.kept last fun m mem => by grind
  have new₇ : r₇.shape false r₁.next = _ := (last.shape r₁.next
    (by simpa using ⟨(apart List.mem_cons_self).symm, (apart (by simp : a ∈ _)).symm⟩)
    (Region.lt_size_of_shape new₃)).trans new₃
  refine ⟨r₁.next, some i, rfl, ⟨new₇, ⟨rfl, rfl, rfl⟩, stored₇, ?_, ⟨h.typed.word, h.typed.rhs,
    by simp⟩, by simp, ?_⟩, ?_, ?_⟩
  · exact List.nodup_cons.mpr ⟨stored₁.next_not_mem, stored₁.spells.nodup⟩
  · rintro _ ⟨⟩
    exact last.grown.idle rfl i idle
  · intro m mem
    rcases List.mem_cons.mp mem with rfl | mem
    · exact .inr nextOld
    · exact .inl (List.mem_cons_of_mem n (List.mem_append_right [a] mem))
  · have fresh : Within r (n :: ([a] ++ below)) [r₁.next] := by
      intro m mem
      exact .inr (List.mem_singleton.mp mem ▸ nextOld)
    have all := (kept₁.mono (by simp)).trans toThree fresh
    exact all.trans last fun m mem => .inl (by grind)

theorem refineIndirectStore_meets
    (h : (indirect ty x base ofst e).At l r n k front below attrs block record) :
    Meets (refineIndirectStore s (refineExpr s) n) r (fun _ => False) fun out r' =>
      (indirect ty x base ofst e).Ends l r (n :: (front ++ below)) out.node r' := by
  obtain ⟨parent, found⟩ := h.node
  obtain ⟨_, _, a, ty', attrs', rfl, address, _⟩ := h.names
  obtain ⟨parentA, recordA, foundA, _⟩ := Region.node?_of_shape address
  have kid? : r.kid? n 0 = .ok (some a) := Region.kid?_of_kid (Region.kid_of found rfl)
  have base : Meets (refineSlot (refineExpr s) n 0) r (fun _ => False) fun _ r' => r' = r := by
    simp only [refineSlot, meets_bind, meets_ask, kid?, yields_ok]
    refine (refineExpr_address (Region.node_of foundA) (.inl rfl)).to ?_
    rintro _ _ ⟨rfl, rfl⟩
    simp
  unfold refineIndirectStore
  refine Meets.bind base ?_
  rintro inBase r rfl
  refine Meets.bind h.refineStored_meets fun inStored r₁ turned => ?_
  obtain ⟨e', k', below', h₁, becomes, within, kept⟩ := turned
  refine Meets.bind (directStore_meets h₁) ?_
  rintro _ r₂ ⟨st, record', rfl, h₂, within₂, kept₂⟩
  have finish := h₂.finish_meets (s := s) (c := inBase || inStored || true)
  refine Meets.bind finish fun fitted r₃ inner => inner.to fun out r' ended => ?_
  refine (ended.trans ?_ within₂ kept₂).trans becomes within kept
  exact ⟨rfl, rfl, .refl h₁.stored.typed⟩

/-! ### Any store -/

theorem At.adoptAll_meets (h : σ.At l r n k front below attrs block record) {F : Fault → Prop} :
    Meets (adoptAll n) r F fun _ r' => Edited .unrecorded r r' (r.shape false) := by
  obtain ⟨parent, found⟩ := h.node
  have deep : (front ++ below).length ≤ r.nodes.size := by
    apply Region.length_le_size (List.nodup_cons.mp h.distinct).2
    intro m mem
    obtain ⟨_, _, _, _, shape⟩ := h.plain m mem
    exact Region.live_of_shape shape
  exact adoptAll_edits .unrecorded found h.trees deep

theorem refineStmt_meets {refine : NodeId → Edit Outcome} (h : σ.Stands l r n ns) :
    Meets (refineStmt s refine n) r (fun _ => False) fun out r' => σ.Ends l r ns out.node r' := by
  obtain ⟨k, front, below, attrs, block, record, rfl, h⟩ := h
  obtain ⟨parent, found⟩ := h.node
  simp only [refineStmt, Edit.node, meets_bind, meets_ask, Region.node_of found, yields_ok]
  cases σ with
  | reg ty q e => exact refineStore_meets h h.names.1
  | var ty x ofst e => exact refineStore_meets h h.names.1
  | indirect ty x base ofst e => exact refineIndirectStore_meets h

/-- Parents do not matter for what a statement was turned into. -/
theorem Ends.adopted {out : NodeId} {r₁ r₂ : Region} (h : σ.Ends l r ns (some out) r₁)
    (adopted : Edited .unrecorded r₁ r₂ (r₁.shape false)) : σ.Ends l r ns (some out) r₂ := by
  obtain ⟨kept, σ', ns', ⟨k, front, below, attrs, block, record, rfl, at₁⟩, within, becomes⟩ := h
  have at₂ := at₁.kept adopted.kept_same fun m mem => List.not_mem_nil (a := m)
  exact ⟨kept.trans adopted.kept_same .refl, σ', _,
    ⟨k, front, below, attrs, block, record, rfl, at₂⟩, within, becomes⟩

/-- Refining a store ends with a store in its place, or with none. -/
theorem refine_meets (h : σ.Stands l r n ns) :
    Meets (refine s n) r (fun _ => False) fun out r' => σ.Ends l r ns out.node r' := by
  have isStmt : Meets (isExpr n) r (fun _ => False) fun expr r' => expr = false ∧ r' = r := by
    obtain ⟨k, front, below, attrs, block, record, rfl, h⟩ := h
    obtain ⟨parent, found⟩ := h.node
    cases σ <;> simp [isExpr, Edit.node, Region.node_of found, Node.isStmt, code, Op.isStmt]
  simp only [Peephole.refine, Region.depthBound, refineWithin, meets_bind, meets_get]
  refine isStmt.to ?_
  rintro _ r ⟨rfl, rfl⟩
  simp only [Bool.false_eq_true, if_false, meets_bind]
  refine (refineStmt_meets h).to fun out r₁ ended => ?_
  obtain ⟨node, changed, unlinked⟩ := out
  cases node with
  | none => exact ended
  | some n' =>
    cases changed with
    | false => exact ended
    | true =>
      obtain ⟨_, _, ⟨_, _, _, _, _, _, _, at₁⟩, _⟩ := ended.2
      simp only [if_true, meets_bind, meets_pure]
      exact at₁.adoptAll_meets.to fun _ r' adopted => ended.adopted adopted

end Store

end Peephole
