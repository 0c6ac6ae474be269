import Peephole.Proofs.Forest
import Peephole.Eval

/-!
# Values of trees

Evaluation reads nothing of a region but the tree it is asked about and the layout: a tree that
stands in two regions, or in two places of one, has one value (`Forest.evalWithin`).
-/

namespace Peephole

variable {r r' : Region} {env : Env} {n n' k k' : NodeId} {d d' : Node} {x : Option Value}
  {value value' : NodeId → Except Fault (Option Value)} {t : Tree} {up up' : Option NodeId}
  {ns ns' : List NodeId}

/-- A node that evaluation takes for another one. -/
structure Node.Like (d d' : Node) : Prop where
  code : d'.code = d.code
  ty : d'.ty = d.ty
  attrs : d'.attrs = d.attrs

/-- A kid and its counterpart in another region: one has the value of the other. -/
structure SameKid (r r' : Region) (value value' : NodeId → Except Fault (Option Value))
    (k k' : NodeId) : Prop where
  value : ∀ x, value k = .ok x → value' k' = .ok x
  node : ∀ d, r.node k = .ok d → ∃ d', r'.node k' = .ok d' ∧ d.Like d'

namespace Region

theorem rawValue_other (load : d.code ≠ .ild) (convert : d.code ≠ .cvt)
    (select : d.code ≠ .select) : r.rawValue env value n d =
      if d.code.isUnary then do return (← value (← r.kid n 0)).bind (unaryValue d.code)
      else if d.code.isBinary then do
        let k₀ ← r.kid n 0
        let k₁ ← r.kid n 1
        match ← value k₀ with
        | none => return none
        | some a =>
          match ← value k₁ with
          | none => return none
          | some b => do
            binaryValue r.layout d.code (← r.node k₀).ty (← r.node k₁).ty a b
      else .ok (leafValue env d) := by
  unfold rawValue
  split <;> first | contradiction | rfl

/-- A node has the value of one like it, where their kids have the same values. -/
theorem rawValue_congr (like : d.Like d') (layout : r'.layout = r.layout)
    (kids : ∀ i k, r.kid n i = .ok k → ∃ k', r'.kid n' i = .ok k' ∧ SameKid r r' value value' k k')
    (ran : r.rawValue env value n d = .ok x) : r'.rawValue env value' n' d' = .ok x := by
  obtain ⟨code, ty, attrs⟩ := like
  by_cases load : d.code = .ild
  · simp only [rawValue, code, load, bind_eq_ok] at ran ⊢
    obtain ⟨k, kid, base, found, loaded⟩ := ran
    obtain ⟨k', kid', same⟩ := kids 0 k kid
    obtain ⟨base', found', like⟩ := same.node base found
    refine ⟨k', kid', base', found', ?_⟩
    simpa only [indirectValue, like.code, like.attrs, attrs] using loaded
  by_cases convert : d.code = .cvt
  · simp only [rawValue, code, convert, bind_eq_ok] at ran ⊢
    obtain ⟨k, kid, v, known, converted⟩ := ran
    obtain ⟨k', kid', same⟩ := kids 0 k kid
    refine ⟨k', kid', v, same.value v known, ?_⟩
    cases v with
    | none => exact converted
    | some v =>
      simp only [bind_eq_ok] at converted ⊢
      obtain ⟨e, found, converted⟩ := converted
      obtain ⟨e', found', like⟩ := same.node e found
      exact ⟨e', found', by simpa only [ty, like.ty, layout] using converted⟩
  by_cases select : d.code = .select
  · simp only [rawValue, code, select, bind_eq_ok] at ran ⊢
    obtain ⟨k, kid, p, known, chosen⟩ := ran
    obtain ⟨k', kid', same⟩ := kids 0 k kid
    refine ⟨k', kid', p, same.value p known, ?_⟩
    cases p with
    | none => exact chosen
    | some p =>
      simp only [bind_eq_ok] at chosen ⊢
      obtain ⟨j, kid, known⟩ := chosen
      obtain ⟨j', kid', same⟩ := kids _ j kid
      exact ⟨j', kid', same.value x known⟩
  rw [rawValue_other load convert select] at ran
  rw [rawValue_other (code ▸ load) (code ▸ convert) (code ▸ select), code]
  split at ran
  · rename_i unary
    simp only [if_pos unary, bind_eq_ok] at ran ⊢
    obtain ⟨k, kid, v, known, done⟩ := ran
    obtain ⟨k', kid', same⟩ := kids 0 k kid
    exact ⟨k', kid', v, same.value v known, done⟩
  rename_i unary
  split at ran
  · rename_i binary
    simp only [if_neg unary, if_pos binary, bind_eq_ok] at ran ⊢
    obtain ⟨k, kid, j, kid₁, v, known, ran⟩ := ran
    obtain ⟨k', kid', same⟩ := kids 0 k kid
    obtain ⟨j', kid₁', same₁⟩ := kids 1 j kid₁
    refine ⟨k', kid', j', kid₁', v, same.value v known, ?_⟩
    cases v with
    | none => exact ran
    | some v =>
      simp only [bind_eq_ok] at ran ⊢
      obtain ⟨w, known₁, ran⟩ := ran
      refine ⟨w, same₁.value w known₁, ?_⟩
      cases w with
      | none => exact ran
      | some w =>
        simp only [bind_eq_ok] at ran ⊢
        obtain ⟨e, found, e₁, found₁, done⟩ := ran
        obtain ⟨e', found', like⟩ := same.node e found
        obtain ⟨e₁', found₁', like₁⟩ := same₁.node e₁ found₁
        exact ⟨e', found', e₁', found₁', by simpa only [layout, like.ty, like₁.ty] using done⟩
  · rename_i binary
    rw [if_neg unary, if_neg binary]
    simpa only [leafValue, code, attrs] using ran

end Region

theorem Fits.trees {slots : List (List Tree)} {ids : List (List NodeId)} {ks : List NodeId}
    {i : Nat} (h : Fits slots ids) (slot : ids[i]? = some ks) :
    ∃ us, slots[i]? = some us ∧ us.length = ks.length := by
  have at_i := congrArg (·[i]?) h
  simp only [List.getElem?_map, slot, Option.map_some] at at_i
  exact Option.map_eq_some_iff.mp at_i

namespace Draws

theorem piece {g : NodeId → Option Node} {p : Piece} {ps : List Piece} (h : Draws g ps ns)
    (mem : p ∈ ps) : ∃ ms, Draws g [p] ms := by
  obtain ⟨before, after, rfl⟩ := List.append_of_mem mem
  obtain ⟨_, _, _, _, rest⟩ := h.split
  obtain ⟨ms, _, _, here, _⟩ := cons_iff.mp rest
  exact ⟨ms, here⟩

/-- The top of a tree that stands in two places. -/
theorem like (h : Draws r.core [.tree t n up] ns) (h' : Draws r'.core [.tree t n' up'] ns') :
    ∃ d d', r.node? n = some d ∧ r'.node? n' = some d' ∧ d.Like d' := by
  obtain ⟨_, core, _⟩ := h.tree_found List.mem_cons_self
  obtain ⟨_, core', _⟩ := h'.tree_found List.mem_cons_self
  obtain ⟨_, _, _, found⟩ := Region.node?_of_core core
  obtain ⟨_, _, _, found'⟩ := Region.node?_of_core core'
  exact ⟨_, _, found, found', rfl, rfl, rfl⟩

/-- The kids of a tree that stands in two places. -/
theorem kid (h : Draws r.core [.tree t n up] ns) (h' : Draws r'.core [.tree t n' up'] ns') {i : Nat}
    (kid : r.kid n i = .ok k) : ∃ k' u ms ms', r'.kid n' i = .ok k' ∧ u.size < t.size ∧
      Draws r.core [.tree u k (some n)] ms ∧ Draws r'.core [.tree u k' (some n')] ms' := by
  cases h with
  | @tree code ty attrs slots ids _ _ _ _ _ core fits kids _ =>
    cases h' with
    | @tree _ _ _ _ ids' _ _ _ _ _ core' fits' kids' _ =>
      obtain ⟨_, _, _, found⟩ := Region.node?_of_core core
      obtain ⟨_, _, _, found'⟩ := Region.node?_of_core core'
      obtain ⟨ks, slot⟩ := Region.slot_of_kid found kid
      have slot : ids[i]? = some (k :: ks) := slot
      -- the slot holds as many kids in both places
      obtain ⟨us, here, lengths⟩ := fits.trees slot
      obtain ⟨ks', slot', lengths'⟩ := fits'.get here
      obtain ⟨u, us, rfl⟩ := List.exists_cons_of_length_eq_add_one lengths
      obtain ⟨k', ks', rfl⟩ := List.exists_cons_of_length_eq_add_one lengths'.symm
      have mem (ids : List (List NodeId)) (j m : NodeId) (js : List NodeId) (fits : Fits slots ids)
          (slot : ids[i]? = some (j :: js)) :
          .tree u j (some m) ∈ planted slots.flatten ids.flatten (some m) := by
        rw [(fits.planted_perm here slot).mem_iff]
        exact List.mem_append_left _ List.mem_cons_self
      obtain ⟨ms, drawn⟩ := kids.piece (mem ids k n ks fits slot)
      obtain ⟨ms', drawn'⟩ := kids'.piece (mem ids' k' n' ks' fits' slot')
      have smaller : u.size ≤ Tree.sizeList slots.flatten :=
        Tree.size_le_sizeList
          (List.mem_flatten.mpr ⟨_, List.mem_of_getElem? here, List.mem_cons_self⟩)
      refine ⟨k', u, ms, ms', Region.kid_of found' slot', ?_, drawn, drawn'⟩
      rw [Tree.size_node]
      omega

theorem evalWithin {fuel fuel' : Nat} (h : Draws r.core [.tree t n up] ns)
    (h' : Draws r'.core [.tree t n' up'] ns') (layout : r'.layout = r.layout)
    (deep : t.size ≤ fuel') (ran : r.evalWithin env fuel n = .ok x) :
    r'.evalWithin env fuel' n' = .ok x := by
  induction fuel generalizing t n n' up up' ns ns' fuel' x with
  | zero => cases ran
  | succ fuel ih =>
    obtain ⟨d, d', found, found', like⟩ := h.like h'
    have positive : 0 < t.size := by
      cases t
      rw [Tree.size_node]
      omega
    obtain ⟨fuel', rfl⟩ : ∃ f, fuel' = f + 1 := ⟨fuel' - 1, by omega⟩
    rw [Region.evalWithin, bind_eq_ok] at ran ⊢
    obtain ⟨_, node, ran⟩ := ran
    obtain rfl := Except.ok.inj ((Region.node_of found).symm.trans node)
    refine ⟨d', Region.node_of found', ?_⟩
    rw [bind_eq_ok] at ran ⊢
    obtain ⟨raw, ran, normal⟩ := ran
    refine ⟨raw, Region.rawValue_congr like layout (fun i k kid => ?_) ran, ?_⟩
    · obtain ⟨k', u, ms, ms', kid', smaller, here, here'⟩ := h.kid h' kid
      refine ⟨k', kid', fun x ran => ih here here' (by omega) ran, fun e node => ?_⟩
      obtain ⟨d, d', found, found', like⟩ := here.like here'
      obtain rfl := Except.ok.inj ((Region.node_of found).symm.trans node)
      exact ⟨d', Region.node_of found', like⟩
    · rw [layout, like.ty]
      exact normal

end Draws

/-- A tree has one value, wherever it stands. -/
theorem Forest.evalWithin {r₀ r₀' : Region} {ps ps' : List Piece} {fuel fuel' : Nat}
    (h : Forest r₀ ns (.tree t n up :: ps) r) (h' : Forest r₀' ns' (.tree t n' up' :: ps') r')
    (layout : r'.layout = r.layout) (deep : t.size ≤ fuel')
    (ran : r.evalWithin env fuel n = .ok x) : r'.evalWithin env fuel' n' = .ok x := by
  obtain ⟨_, drawn, _⟩ := h
  obtain ⟨_, drawn', _⟩ := h'
  obtain ⟨_, _, _, here, _⟩ := Draws.cons_iff.mp drawn
  obtain ⟨_, _, _, here', _⟩ := Draws.cons_iff.mp drawn'
  exact here.evalWithin here' layout deep ran

end Peephole
