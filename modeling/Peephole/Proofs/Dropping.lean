import Peephole.Proofs.Forest

/-!
# Dropping nodes

What runs of release and deletion that return leave of the rest of a region: nodes outside the
dropped trees are as they were, no node comes to carry a value, no value gets its reads back, and
no block lists a statement that it did not list.
-/

namespace Peephole

open Edit

variable {α β : Type} {r r' : Region} {n m : NodeId} {d d' : Node} {ks ms ns : List NodeId}
  {v : SsaId} {b : BlockId}

theorem HandleSet.nodup {kind : Kind} (hs : HandleSet kind) : hs.toList.Nodup := by
  refine hs.ascending.imp ?_
  rintro a _ below rfl
  exact Nat.lt_irrefl _ below

namespace Region

/-- The live node `m` carries the value `v`. -/
def Carries (r : Region) (m : NodeId) (v : SsaId) : Prop := ∃ d, r.node? m = some d ∧ d.ssa = some v

/-- The value `v` has no reads. -/
def Unused (r : Region) (v : SsaId) : Prop := ∃ x, r.ssaValue v = .ok x ∧ x.uses = .empty

/-- The block `b` lists `m`. -/
def Lists (r : Region) (b : BlockId) (m : NodeId) : Prop := ∃ ss, r.stmts b = .ok ss ∧ m ∈ ss

/-- The blocks list `n`, if at all, once and where it says. -/
def ListedOnce (r : Region) (n : NodeId) : Prop :=
  ∀ b ss, r.stmts b = .ok ss → n ∈ ss → (∃ d, r.node? n = some d ∧ d.block = some b) ∧
    ss.count n = 1

theorem ListedOnce.congr (h : r.ListedOnce n) (blocks : r'.blocks = r.blocks)
    (block : (r'.node? n).map Node.block = (r.node? n).map Node.block) : r'.ListedOnce n := by
  intro b ss listed mem
  rw [stmts, blocks, ← stmts] at listed
  obtain ⟨⟨d, found, named⟩, once⟩ := h b ss listed mem
  rw [found, Option.map_some] at block
  obtain ⟨d', found', same⟩ := Option.map_eq_some_iff.mp block
  exact ⟨⟨d', found', same.trans named⟩, once⟩

theorem ListedOnce.put (h : r.ListedOnce m) (found : r.node? n = some d)
    (block : d'.block = d.block) : (r.put n (some d')).ListedOnce m := by
  refine h.congr rfl ?_
  rw [node?_put (lt_size_of_node? found)]
  split
  · rename_i same
    rw [same, found, Option.map_some, Option.map_some, block]
  · rfl

theorem ListedOnce.push (h : r.ListedOnce m) : (r.push d).ListedOnce m := by
  intro b ss listed mem
  obtain ⟨⟨x, found, block⟩, once⟩ := h b ss listed mem
  have old : m ≠ r.next := by
    rintro rfl
    rw [node?_next] at found
    cases found
  exact ⟨⟨x, by rw [node?_push, if_neg old, found], block⟩, once⟩

theorem Carries.of_put (found : r.node? n = some d) (ssa : ∀ v, d'.ssa = some v → d.ssa = some v)
    (h : (r.put n (some d')).Carries m v) : r.Carries m v := by
  obtain ⟨x, at_m, carried⟩ := h
  rw [node?_put (lt_size_of_node? found)] at at_m
  split at at_m
  · rename_i same
    obtain rfl := Option.some.inj at_m
    exact ⟨d, same ▸ found, ssa v carried⟩
  · exact ⟨x, at_m, carried⟩

end Region

/-- From `r` to `r'`, nothing but the nodes `ms` was changed, up to records, edges, what values know
of their reads and where statements are listed. -/
structure Aside (ms : List NodeId) (r r' : Region) : Prop where
  size : r'.nodes.size = r.nodes.size
  layout : r'.layout = r.layout
  core : ∀ m ∉ ms, r'.core m = r.core m
  carries : ∀ m v, r'.Carries m v → r.Carries m v
  unused : ∀ v, r.Unused v → r'.Unused v
  lists : ∀ b m, r'.Lists b m → r.Lists b m
  once : ∀ m ∉ ms, r.ListedOnce m → r'.ListedOnce m

namespace Aside

theorem refl : Aside ms r r :=
  ⟨rfl, rfl, fun _ _ => rfl, fun _ _ => id, fun _ => id, fun _ _ => id, fun _ _ => id⟩

theorem trans {r'' : Region} (first : Aside ms r r') (second : Aside ms r' r'') :
    Aside ms r r'' where
  size := second.size.trans first.size
  layout := second.layout.trans first.layout
  core m out := (second.core m out).trans (first.core m out)
  carries m v now := first.carries m v (second.carries m v now)
  unused v none := second.unused v (first.unused v none)
  lists b m now := first.lists b m (second.lists b m now)
  once m out listed := second.once m out (first.once m out listed)

theorem mono (h : Aside ms r r') (sub : ∀ m ∈ ms, m ∈ ns) : Aside ns r r' :=
  { h with
    core := fun m out => h.core m fun mem => out (sub m mem)
    once := fun m out => h.once m fun mem => out (sub m mem) }

theorem of_skeleton (same : r'.skeleton = r.skeleton) : Aside [] r r' := by
  have ssa : r'.ssa = r.ssa := by
    have values := congrArg Region.ssa same
    exact values
  have blocks := Region.blocks_of_skeleton same
  have frame := Region.frame_of_skeleton same
  refine ⟨Region.size_of_skeleton same, Region.layout_of_skeleton same,
    fun m _ => congrFun (Region.core_of_frame frame) m, ?_, ?_, ?_, fun m _ once =>
      once.congr blocks ?_⟩
  · rintro m v ⟨d', found', carried⟩
    have framed := congrFun frame m
    rw [Region.frame, Region.frame, found', Option.map_some] at framed
    obtain ⟨d, found, fields⟩ := Option.map_eq_some_iff.mp framed.symm
    have ssas : d.unrecorded.ssa = d'.unrecorded.ssa := congrArg Node.ssa fields
    exact ⟨d, found, ssas.trans carried⟩
  · rintro v ⟨x, known, none⟩
    exact ⟨x, by rw [Region.ssaValue, ssa, ← Region.ssaValue, known], none⟩
  · rintro b m ⟨ss, listed, mem⟩
    exact ⟨ss, by rw [Region.stmts, ← blocks, ← Region.stmts, listed], mem⟩
  · have framed := congrArg (Option.map Node.block) (congrFun frame m)
    rw [Region.frame, Region.frame, Option.map_map, Option.map_map] at framed
    exact framed

/-- A change of a node that shows neither to its tree nor, but for losing it, to its value. -/
theorem of_put (found : r.node? n = some d) (core : d'.core = d.core) (block : d'.block = d.block)
    (carries : ∀ v, d'.ssa = some v → d.ssa = some v) : Aside [] r (r.put n (some d')) := by
  refine ⟨Region.size_put, rfl, fun m _ => ?_, fun m v => .of_put found carries, fun _ => id,
    fun _ _ => id, fun m _ once => once.put found block⟩
  rw [Region.core_put (Region.lt_size_of_node? found), Option.map_some, core]
  exact congrFun (Function.update_eq_self_iff.mpr (Region.core_of found).symm) m

end Aside

/-! ### Literals -/

/-- The node of an integer literal. -/
def Node.ofInt (w : Word) (ty : Ty) : Node := .fresh .const ty (.ofLiteral (.int w)) []

theorem meets_intLiteral {w : Word} {ty : Ty} {F : Fault → Prop} {Q : NodeId → Region → Prop} :
    Meets (intLiteral w ty) r F Q ↔ Q r.next (r.push (.ofInt w ty)) := by
  unfold intLiteral literal build
  refine (meets_create (d := .ofInt w ty) ⟨rfl, rfl⟩ ?_).trans ?_
  · simp [Node.ofInt, Node.fresh, Node.kids]
  · rw [show (Node.ofInt w ty).kids = [] from rfl, Region.reparent_nil]

/-! ### Values -/

theorem Quiet.aside {F : Fault → Prop} {m : Edit α} (h : Quiet r F m) :
    Meets m r (fun _ => True) fun _ r' => Aside [] r r' :=
  (h r rfl).imp (fun _ _ => trivial) fun _ _ => .of_skeleton

/-- A value may lose reads. -/
theorem modifySsa_aside {f : SsaValue → SsaValue}
    (shrinks : ∀ x, x.uses = .empty → (f x).uses = .empty) :
    Meets (modifySsa v f) r (fun _ => True) fun _ r' => Aside [] r r' := by
  simp only [modifySsa, ssaValue, putSsa, meets_bind, meets_ask, meets_modify]
  refine yields_iff.mpr ⟨fun x known => ?_, fun _ _ => trivial⟩
  refine ⟨rfl, rfl, fun _ _ => rfl, fun _ _ => id, ?_, fun _ _ => id,
    fun m _ once => once.congr rfl rfl⟩
  rintro w ⟨y, known', none⟩
  have look (z : SsaValue) : r.ssaValue w = .ok z ↔ r.ssa[w.index]? = some z := by
    unfold Region.ssaValue Region.lookup
    cases r.ssa[w.index]? <;> simp
  by_cases same : v.index = w.index
  · obtain rfl : v = w := Handle.index_inj.mp same
    obtain rfl : x = y := Except.ok.inj (known.symm.trans known')
    have inside := (Array.getElem?_eq_some_iff.mp ((look x).mp known)).1
    refine ⟨f x, ?_, shrinks x none⟩
    simp [Region.ssaValue, Region.lookup, inside]
  · refine ⟨y, ?_, none⟩
    simp [Region.ssaValue, Region.lookup, Array.getElem?_setIfInBounds_ne same, (look y).mp known']

theorem removeSsaUse_aside : Meets (removeSsaUse n) r (fun _ => True) fun _ r' =>
    Aside [] r r' := by
  simp only [removeSsaUse, meets_bind, meets_ask]
  refine Region.yields_nodeToEdit (fun d found => ?_) fun _ => trivial
  cases carried : d.ssa with
  | none => exact .refl
  | some v =>
    rw [meets_bind, meets_putNode]
    have put : Aside [] r (r.put n (some { d with ssa := none })) :=
      .of_put found rfl rfl fun _ now => absurd now (by simp)
    refine (modifySsa_aside fun x none => ?_).to fun _ r' kept => put.trans kept
    rw [none]
    rfl

theorem removeSsaUsesIn_aside :
    Meets (removeSsaUsesIn n) r (fun _ => True) fun _ r' => Aside [] r r' := by
  simp only [removeSsaUsesIn, Edit.subtree, meets_bind, meets_ask]
  refine yields_iff.mpr ⟨fun ms _ => ?_, fun _ _ => trivial⟩
  refine Meets.forM (I := Aside [] r) .refl fun m _ r₁ kept => ?_
  simp only [Edit.node, meets_bind, meets_ask]
  refine Region.yields_node (fun d _ => ?_) fun _ => trivial
  split
  · exact removeSsaUse_aside.to fun _ r₂ again => kept.trans again
  · exact kept

/-- A value without reads, and nodes that forget it. -/
theorem clearSsaUses_aside : Meets (clearSsaUses v) r (fun _ => True) fun _ r' =>
    Aside [] r r' ∧ r'.Unused v := by
  simp only [clearSsaUses, ssaValue, meets_bind, meets_ask]
  refine yields_iff.mpr ⟨fun x known => ?_, fun _ _ => trivial⟩
  have emptied : Meets (modifySsa v fun x => { x with uses := .empty }) r (fun _ => True)
      fun _ r' => Aside [] r r' := modifySsa_aside fun _ _ => rfl
  simp only [modifySsa, ssaValue, putSsa, meets_bind, meets_ask, known, yields_ok,
    meets_modify] at emptied
  simp only [putSsa, meets_modify]
  have inside : v.index < r.ssa.size := by
    by_contra outside
    rw [Region.ssaValue, Region.lookup, Array.getElem?_eq_none (Nat.le_of_not_lt outside)] at known
    cases known
  refine Meets.forM (I := fun r' => Aside [] r r' ∧ r'.Unused v)
    ⟨emptied, { x with uses := .empty }, ?_, rfl⟩ ?_
  · simp [Region.ssaValue, Region.lookup, inside]
  · rintro u _ r₁ ⟨kept, unused⟩
    simp only [Edit.isReleased, meets_bind, meets_get, meets_pure]
    split
    · simp only [Edit.node, meets_bind, meets_ask]
      refine Region.yields_node (fun d found => ?_) fun _ => trivial
      split
      · have put : Aside [] r₁ (r₁.put u (some { d with ssa := none })) :=
          .of_put found rfl rfl fun _ now => absurd now (by simp)
        exact (meets_modifyNode found).mpr ⟨kept.trans put, put.unused v unused⟩
      · exact ⟨kept, unused⟩
    · exact ⟨kept, unused⟩

/-! ### Nodes -/

theorem dropNode_aside : Meets (dropNode n) r (fun _ => True) fun _ r' =>
    Aside [n] r r' ∧ r'.node? n = none := by
  have forgets : Meets (forgetSsa n) r (fun _ => True) fun _ r' => Aside [] r r' := by
    simp only [forgetSsa, Edit.node, meets_bind, meets_ask]
    refine Region.yields_node (fun d _ => ?_) fun _ => trivial
    split
    · refine modifySsa_aside fun x none => ?_
      rw [none]
      rfl
    · exact .refl
  refine Meets.bind forgets fun _ r₁ kept => ?_
  simp only [Edit.node, meets_bind, meets_ask]
  refine Region.yields_node (fun d found => ?_) fun _ => trivial
  rw [meets_modify]
  have inside := Region.lt_size_of_node? found
  have look (m : NodeId) : (r₁.put n none).node? m = if m = n then none else r₁.node? m :=
    Region.node?_put inside
  refine ⟨(kept.mono fun _ mem => absurd mem List.not_mem_nil).trans ⟨Region.size_put, rfl,
    fun m out => ?_, ?_, fun _ => id, fun _ _ => id, fun m out once => ?_⟩,
      (look n).trans (if_pos rfl)⟩
  · have other : m ≠ n := fun same => out (List.mem_singleton.mpr same)
    exact congrArg (Option.map Node.core) ((look m).trans (if_neg other))
  · rintro m v ⟨x, found', carried⟩
    have found' := (look m).symm.trans found'
    split at found'
    · cases found'
    · exact ⟨x, found', carried⟩
  · have other : m ≠ n := fun same => out (List.mem_singleton.mpr same)
    exact once.congr rfl (congrArg (Option.map Node.block) ((look m).trans (if_neg other)))

theorem releaseAll_aside : Meets (releaseAll ms) r (fun _ => True) fun _ r' =>
    Aside ms r r' ∧ ∀ m ∈ ms, r'.node? m = none := by
  have drops {ns : List NodeId} : Meets (ns.forM dropNode) r (fun _ => True) fun _ r' =>
      Aside ns r r' ∧ ∀ m ∈ ns, r'.node? m = none := by
    induction ns generalizing r with
    | nil => exact ⟨.refl, by simp⟩
    | cons n ns ih =>
      refine Meets.bind dropNode_aside fun _ r₁ first => ?_
      refine ih.to fun _ r₂ rest => ?_
      refine ⟨(first.1.mono (by simp)).trans (rest.1.mono fun m mem => List.mem_cons_of_mem n mem),
        fun m mem => ?_⟩
      by_cases inside : m ∈ ns
      · exact rest.2 m inside
      · obtain rfl := (List.mem_cons.mp mem).resolve_right inside
        have kept := rest.1.core m inside
        rw [Region.core, Region.core, first.2, Option.map_none] at kept
        exact Option.map_eq_none_iff.mp kept
  unfold releaseAll
  simp only [meets_bind, meets_ask]
  refine yields_iff.mpr ⟨fun _ _ => ?_, fun _ _ => trivial⟩
  refine yields_iff.mpr ⟨fun _ _ => ?_, fun _ _ => trivial⟩
  exact drops

/-! ### Trees -/

theorem mapM_eq_ok {f : α → Except Fault β} {xs : List α} {ys : List β} :
    xs.mapM f = .ok ys ↔ List.Forall₂ (fun x y => f x = .ok y) xs ys := by
  induction xs generalizing ys with
  | nil =>
    rw [List.mapM_nil, List.forall₂_nil_left_iff]
    exact ⟨fun same => (Except.ok.inj same).symm, fun same => congrArg Except.ok same.symm⟩
  | cons x xs ih =>
    rw [List.mapM_cons, bind_eq_ok]
    simp only [bind_eq_ok, ih, List.forall₂_cons_left_iff]
    constructor
    · rintro ⟨y, first, rest, others, same⟩
      exact ⟨y, rest, first, others, (Except.ok.inj same).symm⟩
    · rintro ⟨y, rest, first, others, rfl⟩
      exact ⟨y, first, rest, others, rfl⟩

/-- The walk below a node follows its kids, also where nodes are called otherwise. -/
theorem Region.subtreeWithin_rename {σ : NodeId → NodeId} {fuel fuel' : Nat}
    (walk : r.subtreeWithin fuel n = .ok ms)
    (kids : ∀ m ∈ ms, ∀ ks, r.kidsOf m = some ks → r'.kidsOf (σ m) = some (ks.map σ))
    (deep : fuel ≤ fuel') : r'.subtreeWithin fuel' (σ n) = .ok (ms.map σ) := by
  induction fuel generalizing n ms fuel' with
  | zero => cases walk
  | succ fuel ih =>
    obtain ⟨fuel', rfl⟩ : ∃ f, fuel' = f + 1 := ⟨fuel' - 1, by omega⟩
    simp only [subtreeWithin, bind_eq_ok, mapM_eq_ok] at walk ⊢
    obtain ⟨d, node, each, below, same⟩ := walk
    obtain rfl := Except.ok.inj same
    have found := node?_of_node node
    obtain ⟨d', found', kids'⟩ := node?_of_kidsOf
      (kids n List.mem_cons_self d.kids (by rw [kidsOf, found, Option.map_some]))
    refine ⟨d', node_of found', each.map (·.map σ), ?_, ?_⟩
    · rw [kids', List.forall₂_map_left_iff, List.forall₂_map_right_iff, List.forall₂_iff_zip]
      rw [List.forall₂_iff_zip] at below
      refine ⟨below.1, fun {k ns} pair => ih (below.2 pair) (fun m mem => ?_) (by omega)⟩
      have listed := List.mem_flatten.mpr ⟨ns, (List.of_mem_zip pair).2, mem⟩
      exact kids m (List.mem_cons_of_mem n listed)
    · rw [List.map_cons, List.map_flatten]
      rfl

/-- The walk below a node is the same where the nodes it meets have the same kids. -/
theorem Region.subtree_congr (walk : r.subtree n = .ok ms) (size : r'.nodes.size = r.nodes.size)
    (core : r'.core = r.core) : r'.subtree n = .ok ms := by
  have kids : r'.kidsOf = r.kidsOf := by
    funext m
    have cores := congrArg (Option.map Node.kids) (congrFun core m)
    rw [Region.core, Region.core, Option.map_map, Option.map_map] at cores
    exact cores
  have walked : r'.subtreeWithin r'.depthBound (id n) = .ok (ms.map id) := by
    apply subtreeWithin_rename walk
    · intro m _ ks found
      rw [kids, List.map_id, id, found]
    · rw [depthBound, depthBound, size]
  rwa [List.map_id] at walked

theorem releaseTree_aside (walk : r.subtree n = .ok ms) :
    Meets (releaseTree n) r (fun _ => True) fun _ r' =>
      Aside ms r r' ∧ ∀ m ∈ ms, r'.node? m = none := by
  simp only [releaseTree, Edit.subtree, meets_bind, meets_ask, walk, yields_ok]
  exact releaseAll_aside

/-- Dropping a tree of a region that differs in nothing that the walk meets. -/
theorem dropTree_aside {r₁ : Region} (walk : r.subtree n = .ok ms) (kept : Aside [] r r₁) :
    Meets (do removeSsaUsesIn n; releaseTree n) r₁ (fun _ => True) fun _ r' =>
      Aside ms r r' ∧ ∀ m ∈ ms, r'.node? m = none := by
  refine Meets.bind removeSsaUsesIn_aside fun _ r₂ forgot => ?_
  have kept := kept.trans forgot
  have walk₂ := Region.subtree_congr walk kept.size (funext fun m => kept.core m List.not_mem_nil)
  refine (releaseTree_aside walk₂).to fun _ r' dropped => ⟨?_, dropped.2⟩
  exact (kept.mono fun m mem => absurd mem List.not_mem_nil).trans dropped.1

theorem discardTree_aside (walk : r.subtree n = .ok ms) :
    Meets (discardTree n) r (fun _ => True) fun _ r' =>
      Aside ms r r' ∧ ∀ m ∈ ms, r'.node? m = none := by
  unfold discardTree
  simp only [Edit.hasEdges, meets_bind, meets_get, meets_pure]
  split
  · exact Meets.bind cutUses_quiet.aside fun _ r₁ cut => dropTree_aside walk cut
  · exact dropTree_aside walk .refl

/-! ### Statements -/

theorem Region.stmts_setStmts {b' : BlockId} {ss ss' : List NodeId} (listed : r.stmts b = .ok ss) :
    Region.stmts { r with blocks := r.blocks.setIfInBounds b.index ss' } b' =
      if b' = b then .ok ss' else r.stmts b' := by
  have inside : b.index < r.blocks.size := by
    by_contra outside
    rw [stmts, lookup, Array.getElem?_eq_none (Nat.le_of_not_lt outside)] at listed
    cases listed
  by_cases same : b' = b
  · subst same
    simp [stmts, lookup, inside]
  · have other : b.index ≠ b'.index := fun eq => same (Handle.index_inj.mp eq.symm)
    rw [if_neg same, stmts, stmts, lookup, lookup, Array.getElem?_setIfInBounds_ne other]

/-- Let a block list other statements. -/
def Region.relist (r : Region) (b : BlockId) (ss : List NodeId) : Region :=
  { r with blocks := r.blocks.setIfInBounds b.index ss }

@[simp] theorem Region.node?_relist : (r.relist b ns).node? n = r.node? n := rfl

theorem Meets.unlinkStmt {F : Fault → Prop} {Q : Bool → Region → Prop} (plain : ∀ f, f.Plain → F f)
    (absent : ¬r.Lists b n → Q false r) (present : ∀ ss, r.stmts b = .ok ss → n ∈ ss →
      ∃ d, r.node? n = some d ∧ d.block = some b ∧
        Q true ((r.relist b (ss.erase n)).put n (some { d with block := none }))) :
    Meets (unlinkStmt b n) r F Q := by
  simp only [Edit.unlinkStmt, Edit.stmts, meets_bind, meets_ask]
  refine Region.lookup_answers.yields plain fun ss listed => ?_
  split
  · rename_i mem
    obtain ⟨d, found, block, ends⟩ := present ss listed (List.contains_iff_mem.mp mem)
    obtain ⟨r₁, others⟩ : ∃ r₁, r₁ = r.relist b (ss.erase n) := ⟨_, rfl⟩
    have found₁ : r₁.node? n = some d := others ▸ found
    rw [← others] at ends
    rw [Region.relist] at others
    simp only [setStmts, Edit.isReleased, Edit.node, meets_bind, meets_modify, meets_get,
      meets_pure, ← others, Region.isReleased_of found₁, Bool.not_false, if_true, meets_ask,
      Region.node_of found₁, yields_ok, block, meets_putNode]
    exact ends
  · rename_i apart
    refine absent ?_
    rintro ⟨ss', listed', mem⟩
    obtain rfl := Except.ok.inj (listed.symm.trans listed')
    exact apart (List.contains_iff_mem.mpr mem)

theorem leaveBlock_aside (once : r.ListedOnce n) :
    Meets (leaveBlock n) r (fun _ => True) fun _ r' => Aside [] r r' ∧ ∀ b, ¬r'.Lists b n := by
  simp only [leaveBlock, Edit.node, meets_bind, meets_ask]
  refine Region.yields_node (fun d found => ?_) fun _ => trivial
  -- a block that lists the statement is the one it names
  have named {b : BlockId} {ss : List NodeId} (listed : r.stmts b = .ok ss) (mem : n ∈ ss) :
      d.block = some b := by
    obtain ⟨⟨d', found', block⟩, _⟩ := once b ss listed mem
    rwa [Option.some.inj (found.symm.trans found')]
  cases block : d.block with
  | none =>
    refine ⟨.refl, ?_⟩
    rintro b ⟨ss, listed, mem⟩
    rw [named listed mem] at block
    cases block
  | some b =>
    have only {b' : BlockId} {ss' : List NodeId} (listed' : r.stmts b' = .ok ss') (mem : n ∈ ss') :
        b' = b := Option.some.inj ((named listed' mem).symm.trans block)
    refine .unlinkStmt (fun _ _ => trivial) (fun absent => ⟨.refl, ?_⟩) fun ss listed mem =>
      ⟨d, found, block, ?_⟩
    · rintro b' ⟨ss', listed', mem⟩
      obtain rfl := only listed' mem
      exact absent ⟨ss', listed', mem⟩
    obtain ⟨r₁, others⟩ : ∃ r₁, r₁ = r.relist b (ss.erase n) := ⟨_, rfl⟩
    rw [← others]
    have found₁ : r₁.node? n = some d := others ▸ found
    have look (m : NodeId) : (r₁.put n (some { d with block := none })).node? m =
        if m = n then some { d with block := none } else r.node? m := by
      rw [Region.node?_put (Region.lt_size_of_node? found₁), others]
      rfl
    -- what a block lists now
    have lists (b' : BlockId) (ss' : List NodeId) (now : r₁.stmts b' = .ok ss') :
        b' = b ∧ ss' = ss.erase n ∨ b' ≠ b ∧ r.stmts b' = .ok ss' := by
      rw [others, Region.relist, Region.stmts_setStmts listed] at now
      split at now
      · exact .inl ⟨‹b' = b›, (Except.ok.inj now).symm⟩
      · exact .inr ⟨‹b' ≠ b›, now⟩
    have unlisted (b' : BlockId) : ¬r₁.Lists b' n := by
      rintro ⟨ss', now, mem'⟩
      rcases lists b' ss' now with ⟨rfl, rfl⟩ | ⟨other, before⟩
      · have twice := List.count_pos_iff.mpr mem'
        rw [List.count_erase_self, (once b' ss listed mem).2] at twice
        omega
      · exact other (only before mem')
    refine ⟨⟨by rw [Region.size_put, others]; rfl, others ▸ rfl, fun m _ => ?_, ?_, ?_, ?_, ?_⟩,
      unlisted⟩
    · rw [Region.core, look, Region.core]
      split
      · rename_i same
        rw [same, found]
        rfl
      · rfl
    · rintro m v ⟨x, at_m, carried⟩
      rw [look] at at_m
      split at at_m
      · rename_i same
        obtain rfl := Option.some.inj at_m
        exact ⟨d, same ▸ found, carried⟩
      · exact ⟨x, at_m, carried⟩
    · rintro v ⟨x, known, none⟩
      exact ⟨x, by rw [others]; exact known, none⟩
    · rintro b' m ⟨ss', now, mem'⟩
      rcases lists b' ss' now with ⟨rfl, rfl⟩ | ⟨_, before⟩
      · exact ⟨ss, listed, List.mem_of_mem_erase mem'⟩
      · exact ⟨ss', before, mem'⟩
    · intro m _ onceM b' ss' now mem'
      have other : m ≠ n := by
        rintro rfl
        exact unlisted b' ⟨ss', now, mem'⟩
      rw [look, if_neg other]
      rcases lists b' ss' now with ⟨rfl, rfl⟩ | ⟨_, before⟩
      · rw [List.count_erase_of_ne other]
        exact onceM b' ss listed (List.mem_of_mem_erase mem')
      · exact onceM b' ss' before mem'

theorem cutAll_quiet : Quiet r Fault.Ordinary (cutAll n) :=
  .bind subtree_quiet fun _ => .forM fun _ => cutNode_quiet.mild

theorem deleteStmt_aside (walk : r.subtree n = .ok ms) (once : r.ListedOnce n) :
    Meets (deleteStmt n) r (fun _ => True) fun _ r' =>
      Aside ms r r' ∧ (∀ m ∈ ms, r'.node? m = none) ∧ ∀ b, ¬r'.Lists b n := by
  have drops {r₁ : Region} (kept : Aside [] r r₁) (once : r₁.ListedOnce n) :
      Meets (do
        let unlinked ← leaveBlock n
        removeSsaUsesIn n
        releaseTree n
        return unlinked) r₁ (fun _ => True) fun _ r' =>
          Aside ms r r' ∧ (∀ m ∈ ms, r'.node? m = none) ∧ ∀ b, ¬r'.Lists b n := by
    refine Meets.bind (leaveBlock_aside once) ?_
    rintro unlinked r₂ ⟨left, unlisted⟩
    have walk₂ := Region.subtree_congr walk (left.size.trans kept.size) <| funext fun m =>
      (left.core m List.not_mem_nil).trans (kept.core m List.not_mem_nil)
    have dropped := dropTree_aside walk₂ .refl
    rw [meets_bind] at dropped ⊢
    refine dropped.to fun _ r₃ dropped => Meets.bind dropped ?_
    rintro _ r' ⟨aside, gone⟩
    have both : Aside ms r r₂ := (kept.trans left).mono fun m mem => absurd mem List.not_mem_nil
    exact ⟨both.trans aside, gone, fun b now => unlisted b (aside.lists b n now)⟩
  unfold deleteStmt
  simp only [Edit.hasEdges, meets_bind, meets_get, meets_pure]
  split
  · refine Meets.bind cutAll_quiet.aside fun _ r₁ cut => ?_
    exact drops cut (cut.once n List.not_mem_nil once)
  · exact drops .refl once

end Peephole
