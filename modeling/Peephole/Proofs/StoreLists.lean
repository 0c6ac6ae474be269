import Peephole.Proofs.Statements

/-!
# Refining a list of stores

A list of stores is executed in order, and refining it is a matter of sweeps: each sweep
turns every store into one in its place, or deletes it. Wherever the original list runs to
its end, so does the refined one, with the same value in every register and location
(`refineList_preserves_cells`).
-/

namespace Peephole

open Edit

/-! ### Execution -/

namespace Region

/-- The cell that a store writes; an indirect store has to go through an address. -/
def storeTarget? (r : Region) (n : NodeId) (d : Node) : Except Fault (Option Cell) :=
  match d.code with
  | .stpr => .ok (some (.reg d.attrs.reg))
  | .st => .ok (d.attrs.var.map fun x => .var x d.attrs.ofst)
  | .ist => do
    match addressTarget? (← r.node (← r.kid n 0)) with
    | some (x, base) => do return some (.var x (← addOffsets base d.attrs.ofst))
    | none => return none
  | _ => .ok none

/-- Execute a store, which brings the stored value into its own type. There is nothing after
a store whose target or value is not known. -/
def execStore (r : Region) (env : Env) (n : NodeId) : Except Fault (Option Env) := do
  let d ← r.node n
  let stored ← r.kid n (if d.code = .ist then 1 else 0)
  match ← r.storeTarget? n d, ← r.eval env stored with
  | some c, some v => do return some (env.set c (← v.normalize r.layout d.ty))
  | _, _ => return none

/-- Execute a list of stores in order. -/
def execStores (r : Region) (env : Env) : List NodeId → Except Fault (Option Env)
  | [] => .ok (some env)
  | n :: ns => do
    match ← r.execStore env n with
    | some env' => r.execStores env' ns
    | none => return none

end Region

namespace Store

variable {l : Layout} {r r' : Region} {σ : Store} {stores : List Store} {n k : NodeId}
  {nodes ns ns' front below : List NodeId} {env after : Env} {s : Setting} {attrs : Attrs}
  {block : Option BlockId} {record : Option RecordId}

theorem At.target (h : σ.At l r n k front below attrs block record) {d : Node}
    (found : r.node? n = some d) : r.storeTarget? n d = .ok (some σ.target) := by
  obtain ⟨parent, found'⟩ := h.node
  obtain rfl := Option.some.inj (found'.symm.trans found)
  cases σ with
  | reg ty q e => simp [Region.storeTarget?, code, target, h.names.2]
  | var ty x ofst e => simp [Region.storeTarget?, code, target, h.names.2.1, h.names.2.2]
  | indirect ty x base ofst e =>
    obtain ⟨rfl, _, a, ty', attrs', rfl, address, name, rfl⟩ := h.names
    obtain ⟨_, _, foundA, _⟩ := Region.node?_of_shape address
    have kid : r.kid n 0 = .ok a := Region.kid_of found rfl
    have fits := h.typed.offsets _ _ _ _ _ rfl
    simp [Region.storeTarget?, code, target, kid, Region.node_of foundA, addressTarget?, name,
      addOffsets, fits, bind, Except.bind, pure, Except.pure]

theorem Names.length_front {g : NodeId → Option Node} (h : σ.Names g attrs record front) :
    front.length = if σ.code = .ist then 1 else 0 := by
  cases σ with
  | indirect ty x base ofst e =>
    obtain ⟨_, _, _, _, _, rfl, _⟩ := h
    rfl
  | _ => rw [h.1]; rfl

/-- Executing the statement is running the store. -/
theorem Stands.exec (h : σ.Stands l r n ns) : r.execStore env n = .ok (σ.run l env) := by
  obtain ⟨k, front, below, attrs, block, record, rfl, h⟩ := h
  obtain ⟨parent, found⟩ := h.node
  have small := Ty.isSmall_of_isWord h.typed.word
  have kid := h.names.length_front ▸ h.kid
  have value : r.eval env k = .ok ((σ.rhs.value l env).map .int) := by
    rw [Region.eval_of_spells h.stored.spells (h.stored.layout ▸ h.stored.typed), h.stored.layout]
  simp only [Region.execStore, Region.node_of found, kid, h.target found, value, h.stored.layout,
    bind, Except.bind, run]
  cases σ.rhs.value l env with
  | none => rfl
  | some v => simp [Value.normalize_small small, Value.word, pure, Except.pure]

/-! ### Lists -/

/-- The statements at `nodes` are the given stores, each with nodes of its own. -/
inductive StandAll (l : Layout) (r : Region) : List Store → List NodeId → List NodeId → Prop
  | nil : StandAll l r [] [] []
  | cons {σ : Store} {stores : List Store} {n : NodeId} {nodes ns rest : List NodeId}
      (first : σ.Stands l r n ns) (others : StandAll l r stores nodes rest)
      (apart : ∀ m ∈ ns, m ∉ rest) : StandAll l r (σ :: stores) (n :: nodes) (ns ++ rest)

theorem Stands.mem_lt (h : σ.Stands l r n ns) : ∀ m ∈ ns, m.index < r.nodes.size := by
  obtain ⟨k, front, below, attrs, block, record, rfl, h⟩ := h
  exact h.mem_lt

theorem Stands.kept (h : σ.Stands l r n ns) (other : Kept .unrecorded r r' ns')
    (apart : ∀ m ∈ ns, m ∉ ns') : σ.Stands l r' n ns := by
  obtain ⟨k, front, below, attrs, block, record, rfl, h⟩ := h
  exact ⟨k, front, below, attrs, block, record, rfl, h.kept other apart⟩

theorem StandAll.mem_lt (h : StandAll l r stores nodes ns) : ∀ m ∈ ns, m.index < r.nodes.size := by
  induction h with
  | nil => simp
  | cons first _ _ ih =>
    intro m mem
    rcases List.mem_append.mp mem with mem | mem
    · exact first.mem_lt m mem
    · exact ih m mem

theorem StandAll.kept (h : StandAll l r stores nodes ns) (other : Kept .unrecorded r r' ns')
    (apart : ∀ m ∈ ns, m ∉ ns') : StandAll l r' stores nodes ns := by
  induction h with
  | nil => exact .nil
  | cons first _ disjoint ih =>
    refine .cons (first.kept other fun m mem => ?_) (ih fun m mem => ?_) disjoint
    · exact apart m (List.mem_append_left _ mem)
    · exact apart m (List.mem_append_right _ mem)

theorem StandAll.typed (h : StandAll l r stores nodes ns) :
    ∀ σ ∈ stores, σ.rhs.typed l = true := by
  induction h with
  | nil => simp
  | cons first _ _ ih =>
    obtain ⟨_, _, _, _, _, _, _, at₁⟩ := first
    exact List.forall_mem_cons.mpr ⟨at₁.stored.typed, ih⟩

/-- Executing the statements is running the stores. -/
theorem StandAll.exec (h : StandAll l r stores nodes ns) :
    r.execStores env nodes = .ok (runAll l env stores) := by
  induction h generalizing env with
  | nil => rfl
  | @cons σ stores n nodes ns rest first _ _ ih =>
    simp only [Region.execStores, first.exec, bind, Except.bind, runAll]
    cases σ.run l env with
    | none => rfl
    | some env' => exact ih

/-- What a sweep, or several of them, made of a list of stores. -/
def AllEnd (l : Layout) (stores : List Store) (r : Region) (ns nodes' : List NodeId)
    (r' : Region) : Prop :=
  ∃ stores' ns', StandAll l r' stores' nodes' ns' ∧ Within r ns ns' ∧ Kept .unrecorded r r' ns ∧
    Refined l stores stores'

theorem AllEnd.trans {stores' : List Store} {nodes' : List NodeId} {r'' : Region}
    (second : AllEnd l stores' r' ns' nodes' r'') (refined : Refined l stores stores')
    (within : Within r ns ns') (kept : Kept .unrecorded r r' ns) :
    AllEnd l stores r ns nodes' r'' := by
  obtain ⟨stores'', ns'', stand, within', kept', refined'⟩ := second
  exact ⟨stores'', ns'', stand, within.trans within' kept.grown.size, kept.trans kept' within,
    refined.trans refined'⟩

/-- The first store was turned before the others were. -/
theorem AllEnd.cons {out : Option NodeId} {rest nodes' : List NodeId} {r'' : Region}
    (old : ∀ m ∈ ns ++ rest, m.index < r.nodes.size) (apart : ∀ m ∈ ns, m ∉ rest)
    (first : σ.Ends l r ns out r') (others : AllEnd l stores r' rest nodes' r'') :
    AllEnd l (σ :: stores) r (ns ++ rest) (out.toList ++ nodes') r'' := by
  obtain ⟨kept, result⟩ := first
  obtain ⟨stores', rest', stand, within', kept', refined⟩ := others
  have grows := kept.grown.size
  have final : Kept .unrecorded r r'' (ns ++ rest) := by
    apply (kept.mono fun m mem => List.mem_append_left rest mem).trans kept'
    exact fun m mem => .inl (List.mem_append_right ns mem)
  have withinRest : Within r (ns ++ rest) rest' := by
    intro m mem
    rcases within' m mem with mem | fresh
    · exact .inl (List.mem_append_right ns mem)
    · exact .inr (grows.trans fresh)
  cases out with
  | none => exact ⟨stores', rest', stand, withinRest, final, .drop result refined⟩
  | some n' =>
    obtain ⟨σ', ns', stands, within, becomes⟩ := result
    have inside := stands.mem_lt
    have apartOld : ∀ m ∈ ns', m ∉ rest := by
      intro m mem other
      rcases within m mem with mem | fresh
      · exact apart m mem other
      · have := old m (List.mem_append_right ns other)
        omega
    have apartNew : ∀ m ∈ ns', m ∉ rest' := by
      intro m mem other
      rcases within' m other with other | fresh
      · exact apartOld m mem other
      · have := inside m mem
        omega
    refine ⟨σ' :: stores', ns' ++ rest', .cons (stands.kept kept' apartOld) stand apartNew, ?_,
      final, .keep becomes refined⟩
    intro m mem
    rcases List.mem_append.mp mem with mem | mem
    · rcases within m mem with mem | fresh
      · exact .inl (List.mem_append_left rest mem)
      · exact .inr fresh
    · exact withinRest m mem

/-- One sweep, statement by statement. -/
theorem mapM_refine_meets (h : StandAll l r stores nodes ns) :
    Meets (nodes.mapM (refine s)) r (fun _ => False) fun outs r' =>
      AllEnd l stores r ns (outs.filterMap (·.node)) r' := by
  induction nodes generalizing stores ns r with
  | nil =>
    cases h
    exact ⟨[], [], .nil, .refl, .refl, .nil⟩
  | cons n nodes ih =>
    have old := h.mem_lt
    cases h with
    | @cons σ stores _ _ ns rest first others apart =>
      rw [List.mapM_cons]
      refine Meets.bind (refine_meets first) fun out r₁ ended => ?_
      have others₁ := others.kept ended.1 fun m mem other => apart m other mem
      refine Meets.bind (ih others₁) fun outs r' ends => ?_
      have whole := AllEnd.cons old apart ended ends
      have listed : (out :: outs).filterMap (·.node) =
          out.node.toList ++ outs.filterMap (·.node) := by
        cases node : out.node <;> simp [node]
      rw [meets_pure, listed]
      exact whole

/-- Sweep after sweep. -/
theorem sweepList_meets {cap left : Nat} (h : StandAll l r stores nodes ns) :
    Meets (sweepList (refine s) cap left nodes) r (fun _ => False) fun out r' =>
      AllEnd l stores r ns out.1 r' := by
  induction left generalizing r stores nodes ns with
  | zero => exact ⟨stores, ns, h, .refl, .refl, .refl h.typed⟩
  | succ left ih =>
    refine Meets.bind (mapM_refine_meets h) fun outs r₁ swept => ?_
    split
    · exact swept
    · split
      · simp only [meets_bind, meets_pure]
        refine (report_meets .unrecorded _).to fun _ r₂ noted => ?_
        obtain ⟨stores', ns', stand, within, kept, refined⟩ := swept
        exact ⟨stores', ns', stand.kept noted.kept_same fun m mem => List.not_mem_nil (a := m),
          within, kept.trans noted.kept_same .refl, refined⟩
      · simp only [meets_bind, meets_pure]
        obtain ⟨stores', ns', stand, within, kept, refined⟩ := swept
        exact (ih stand).to fun out r₂ ends => ends.trans refined within kept

/-! ### The input -/

/-- The statement at `n` is a store of a tree without records, and has the nodes `ns`. -/
def SpelledAt (r : Region) (σ : Store) (n : NodeId) (ns : List NodeId) : Prop :=
  ∃ k front below attrs block, ns = n :: (front ++ below) ∧ ns.Nodup ∧
    r.shape false n =
      some ⟨σ.code, σ.ty, attrs, front.map ([·]) ++ [[k]], none, block, none, none⟩ ∧
    σ.Names (r.shape false) attrs none front ∧ Spells (r.shape false) σ.rhs k below ∧
    ∀ b, block = some b → b.index < r.blocks.size

/-- The statements at `nodes` are the given stores, no node being part of two of them. -/
inductive SpelledAll (r : Region) : List Store → List NodeId → List NodeId → Prop
  | nil : SpelledAll r [] [] []
  | cons {σ : Store} {stores : List Store} {n : NodeId} {nodes ns rest : List NodeId}
      (first : σ.SpelledAt r n ns) (others : SpelledAll r stores nodes rest)
      (apart : ∀ m ∈ ns, m ∉ rest) : SpelledAll r (σ :: stores) (n :: nodes) (ns ++ rest)

theorem SpelledAt.stands (h : σ.SpelledAt r n ns) (uniform : σ.Uniform r.layout)
    (calm : r.hasEdges = false) : σ.Stands r.layout r n ns := by
  obtain ⟨k, front, below, attrs, block, rfl, distinct, shape, names, spells, listed⟩ := h
  obtain ⟨word, ty, typed⟩ := uniform.rhs.typed
  exact ⟨k, front, below, attrs, block, none, rfl, shape, names, ⟨spells, typed, rfl, calm⟩,
    distinct, ⟨word, ty, uniform.offsets⟩, listed, nofun⟩

theorem SpelledAll.stand (h : SpelledAll r stores nodes ns)
    (uniform : ∀ σ ∈ stores, σ.Uniform r.layout) (calm : r.hasEdges = false) :
    StandAll r.layout r stores nodes ns := by
  induction h with
  | nil => exact .nil
  | @cons σ _ _ _ _ _ first _ apart ih =>
    refine .cons (first.stands (uniform σ List.mem_cons_self) calm) (ih fun σ' mem => ?_) apart
    exact uniform σ' (List.mem_cons_of_mem σ mem)

end Store

/-- Refining a list of uniform stores, in which each register and each place of a variable is
accessed at one type: if the list runs to its end, so does the refined list, and it leaves the
same values, read at these types. -/
theorem refineList_preserves_cells {r : Region} {stores : List Store} {nodes ns : List NodeId}
    {after : Env} (s : Setting) (env : Env) (cellTy : Cell → Ty)
    (spelled : Store.SpelledAll r stores nodes ns) (calm : r.hasEdges = false)
    (uniform : ∀ σ ∈ stores, σ.Uniform r.layout)
    (oneType : ∀ σ ∈ stores, ∀ p ∈ σ.accesses, cellTy p.1 = p.2)
    (ran : r.execStores env nodes = .ok (some after)) :
    ∃ out r' after', (refineList s nodes).run r = .ok (out, r') ∧
      r'.execStores env out.1 = .ok (some after') ∧
      ∀ c, after'.readAt r.layout c (cellTy c) = after.readAt r.layout c (cellTy c) := by
  have stand := spelled.stand uniform calm
  have swept : Meets (refineList s nodes) r (fun _ => False) fun out r' =>
      Store.AllEnd r.layout stores r ns out.1 r' := Store.sweepList_meets stand
  rw [meets_iff] at swept
  rw [stand.exec, Except.ok.injEq] at ran
  cases run : (refineList s nodes).run r with
  | error f => exact absurd run (swept.2 f)
  | ok out =>
    obtain ⟨out, r'⟩ := out
    obtain ⟨stores', ns', stand', _, _, refined⟩ := swept.1 out r' run
    obtain ⟨after', ran', agree⟩ := Store.run_of_refined refined uniform oneType (fun _ => rfl) ran
    exact ⟨out, r', after', rfl, stand'.exec.trans (congrArg _ ran'), agree⟩

/-- `$1 = $2 + 0`, `x = x` and `*(&x + 4 + 8) = $1 * 2`, in 32 bits and in one block. -/
def Region.threeStores : Region :=
  { Region.empty ⟨8⟩ with
    nodes := #[
      some { Node.fresh .stpr (.scalar .i32) (.ofRegister 1) [[⟨1⟩]] with block := some ⟨0⟩ },
      some { Node.fresh .add (.scalar .i32) .none [[⟨2⟩], [⟨3⟩]] with parent := some ⟨0⟩ },
      some { Node.fresh .pr (.scalar .i32) (.ofRegister 2) [] with parent := some ⟨1⟩ },
      some { Node.fresh .const (.scalar .i32) (.ofLiteral (.int 0)) [] with parent := some ⟨1⟩ },
      some { Node.fresh .st (.scalar .i32) (.ofVar ⟨0⟩ 0) [[⟨5⟩]] with block := some ⟨0⟩ },
      some { Node.fresh .ld (.scalar .i32) (.ofVar ⟨0⟩ 0) [] with parent := some ⟨4⟩ },
      some { Node.fresh .ist (.scalar .i32) (.ofOffset 8) [[⟨7⟩], [⟨8⟩]] with block := some ⟨0⟩ },
      some { Node.fresh .lda (.pointer 8) (.ofVar ⟨0⟩ 4) [] with parent := some ⟨6⟩ },
      some { Node.fresh .mul (.scalar .i32) .none [[⟨9⟩], [⟨10⟩]] with parent := some ⟨6⟩ },
      some { Node.fresh .pr (.scalar .i32) (.ofRegister 1) [] with parent := some ⟨8⟩ },
      some { Node.fresh .const (.scalar .i32) (.ofLiteral (.int 2)) [] with parent := some ⟨8⟩ }]
    blocks := #[[⟨0⟩, ⟨4⟩, ⟨6⟩]] }

theorem refineList_threeStores : ∃ out r' after',
    (refineList ⟨.standard, true⟩ [⟨0⟩, ⟨4⟩, ⟨6⟩]).run .threeStores = .ok (out, r') ∧
    r'.execStores ((Env.empty.setReg 2 (.int 5)).setVar ⟨0⟩ 0 (.int 7)) out.1 = .ok (some after') ∧
    after'.readAt ⟨8⟩ (.reg 1) (.scalar .i32) = .ok (some (.int 5)) ∧
    after'.readAt ⟨8⟩ (.var ⟨0⟩ 0) (.scalar .i32) = .ok (some (.int 7)) ∧
    after'.readAt ⟨8⟩ (.var ⟨0⟩ 12) (.scalar .i32) = .ok (some (.int 10)) := by
  have first : Store.SpelledAt .threeStores (.reg (.scalar .i32) 1
      (.binary .add (.scalar .i32) (.reg (.scalar .i32) 2) (.lit (.scalar .i32) 0))) ⟨0⟩
      [⟨0⟩, ⟨1⟩, ⟨2⟩, ⟨3⟩] :=
    ⟨⟨1⟩, [], [⟨1⟩, ⟨2⟩, ⟨3⟩], _, some ⟨0⟩, rfl, by decide, rfl, ⟨rfl, rfl⟩,
      ⟨by decide, ⟨2⟩, [⟨2⟩], ⟨3⟩, [⟨3⟩], _, rfl, rfl, ⟨rfl, _, rfl, rfl⟩, ⟨rfl, _, rfl, rfl⟩⟩,
      by rintro _ ⟨⟩; decide⟩
  have second : Store.SpelledAt .threeStores (.var (.scalar .i32) ⟨0⟩ 0
      (.load (.scalar .i32) ⟨0⟩ 0)) ⟨4⟩ [⟨4⟩, ⟨5⟩] :=
    ⟨⟨5⟩, [], [⟨5⟩], _, some ⟨0⟩, rfl, by decide, rfl, ⟨rfl, rfl, rfl⟩, ⟨rfl, _, rfl, rfl, rfl⟩,
      by rintro _ ⟨⟩; decide⟩
  have third : Store.SpelledAt .threeStores (.indirect (.scalar .i32) ⟨0⟩ 4 8
      (.binary .mul (.scalar .i32) (.reg (.scalar .i32) 1) (.lit (.scalar .i32) 2))) ⟨6⟩
      [⟨6⟩, ⟨7⟩, ⟨8⟩, ⟨9⟩, ⟨10⟩] :=
    ⟨⟨8⟩, [⟨7⟩], [⟨8⟩, ⟨9⟩, ⟨10⟩], _, some ⟨0⟩, rfl, by decide, rfl,
      ⟨rfl, rfl, ⟨7⟩, _, _, rfl, rfl, rfl, rfl⟩,
      ⟨by decide, ⟨9⟩, [⟨9⟩], ⟨10⟩, [⟨10⟩], _, rfl, rfl, ⟨rfl, _, rfl, rfl⟩, ⟨rfl, _, rfl, rfl⟩⟩,
      by rintro _ ⟨⟩; decide⟩
  have spelled := Store.SpelledAll.cons first (.cons second (.cons third .nil (by simp))
    (by decide)) (by decide)
  obtain ⟨out, r', after', run, ran, same⟩ := refineList_preserves_cells ⟨.standard, true⟩
    ((Env.empty.setReg 2 (.int 5)).setVar ⟨0⟩ 0 (.int 7)) (fun _ => .scalar .i32) spelled rfl
    (List.forall_mem_cons.mpr ⟨⟨.binary rfl rfl (.reg rfl) (.lit rfl (by decide)), nofun⟩,
      List.forall_mem_cons.mpr ⟨⟨.load rfl, nofun⟩, List.forall_mem_singleton.mpr
        ⟨.binary rfl rfl (.reg rfl) (.lit rfl (by decide)), by rintro _ _ _ _ _ ⟨⟩; decide⟩⟩⟩)
    (by decide) rfl
  refine ⟨out, r', after', run, ran, ?_, ?_, ?_⟩
  · exact same _
  · exact same _
  · exact same _

end Peephole
