import Peephole.Proofs.Idempotence

/-!
# Trees at rest

Where refinement has left a tree, it stays settled as long as its nodes keep their shapes: links to
parents do not count, nor does the rest of the region. Conditions have a normal form of their own,
as the comparison at the root of one is not folded; it does not depend on whether the comparison
is for equality or for its opposite.
-/

namespace Peephole

open Edit Peephole.Tree

variable {α : Type} {s : Setting} {l : Layout} {r r' r₁ : Region} {n m : NodeId}
  {ns ns' : List NodeId} {e e' : Term} {P Q : Tree → Prop} {out : NodeId × Bool} {code : Op}
    {ty : Ty}
  {attrs : Attrs} {a b t u : Tree}

namespace Region

theorem shape_of_orphaned {hidden : Bool} (same : r₁.orphaned = r.orphaned) :
    r₁.shape hidden = r.shape hidden := by
  have blind (r : Region) : r.orphaned.shape hidden = r.shape hidden := by
    funext x
    simp only [shape, node?, orphaned, Array.getElem?_map]
    rcases r.nodes[x.index]? with _ | _ | d <;> rfl
  rw [← blind r₁, ← blind r, same]

theorem layout_of_orphaned (same : r₁.orphaned = r.orphaned) : r₁.layout = r.layout :=
  (congrArg Region.layout same :)

theorem core_withParents {parent : NodeId → Option NodeId}
    (shape : r.shape true m = r₁.shape true m)
    (above : ∀ d, r₁.node? m = some d → parent m = d.parent) :
    (r.withParents parent).core m = r₁.core m := by
  rw [core, core, node?_withParents]
  unfold Region.shape at shape
  cases here : r.node? m with
  | none =>
    rw [here, Option.map_none, eq_comm, Option.map_eq_none_iff] at shape
    rw [shape]
    rfl
  | some d =>
    rw [here, Option.map_some, eq_comm, Option.map_eq_some_iff] at shape
    obtain ⟨d₁, there, same⟩ := shape
    simp only [Node.bare, Node.mk.injEq] at same
    obtain ⟨code, ty, attrs, slots, _⟩ := same
    rw [there, Option.map_some, Option.map_some, Option.map_some, Node.core, Node.core,
      ← above d₁ there]
    simp only [Node.under, Node.fresh, code, ty, attrs, slots]

/-- With other links to parents, the nodes `ns` are a tree at `n` with `P`. -/
def Bears (r : Region) (P : Tree → Prop) (n : NodeId) (ns : List NodeId) : Prop :=
  ∃ (r₁ : Region) (t : Tree) (up : Option NodeId), r₁.orphaned = r.orphaned ∧
    Draws r₁.core [.tree t n up] ns ∧ P t

namespace Bears

/-- Only the shapes of the tree's own nodes count. -/
theorem congr (h : r.Bears P n ns) (shape : ∀ m ∈ ns, r'.shape true m = r.shape true m) :
    r'.Bears P n ns := by
  obtain ⟨r₁, t, up, same, drawn, holds⟩ := h
  -- the nodes of the other region get the parents that they have in the one that is drawn
  let parent (m : NodeId) : Option NodeId := (r₁.node? m).bind Node.parent
  refine ⟨r'.withParents parent, t, up, orphaned_withParents, drawn.congr fun m mem => ?_, holds⟩
  refine core_withParents ?_ fun d found => by simp [parent, found]
  rw [shape m mem, shape_of_orphaned same]

/-- The tree of a forest, in a region that looks the same. -/
theorem ofForest {r₀ : Region} {ns₀ : List NodeId} {ps : List Piece} {up : Option NodeId}
    (h : Forest r₀ ns₀ (.tree t n up :: ps) r₁) (same : r₁.orphaned = r.orphaned)
    (tree : Spells (r.shape true) e n ns) (holds : P t) : r.Bears P n ns := by
  obtain ⟨ms, drawn, distinct, grove⟩ := h.grove
  have tree₁ : Spells (r₁.shape true) e n ns := by rwa [shape_of_orphaned same]
  have one : Except.ok ms = Except.ok ns :=
    (subtree_of_grove grove distinct).symm.trans (subtree_of_grove tree₁.tree tree₁.nodup)
  obtain rfl := Except.ok.inj one
  exact ⟨r₁, t, up, same, drawn, holds⟩

/-- The tree is drawn, and spells what it spells in the region itself. -/
theorem forest (h : r.Bears P n ns) (tree : Spells (r.shape true) e n ns)
    (typed : e.typed r.layout = true) :
    ∃ r₁ t up, r₁.orphaned = r.orphaned ∧ Forest r₁ ns [.tree t n up] r₁ ∧
      Stands .live r.layout r₁ e n ns ∧ t.code = e.code ∧ P t := by
  obtain ⟨r₁, t, up, same, drawn, holds⟩ := h
  have tree₁ : Spells (r₁.shape true) e n ns := by rwa [shape_of_orphaned same]
  have stands : Stands .live r.layout r₁ e n ns :=
    ⟨tree₁, typed, layout_of_orphaned same, trivial⟩
  have forest : Forest r₁ ns [.tree t n up] r₁ :=
    .start drawn tree.nodup fun m mem => stands.lt_size mem
  obtain ⟨_, _, _, _, code, _⟩ := forest.reads List.mem_cons_self stands
  exact ⟨r₁, t, up, same, forest, stands, code, holds⟩

theorem stood (h : r.Bears P n ns) (tree : Spells (r.shape true) e n ns)
    (typed : e.typed r.layout = true) :
    ∃ r₁ t, r₁.orphaned = r.orphaned ∧ Stood r.layout t n r₁ ∧ P t := by
  obtain ⟨r₁, t, up, same, forest, stands, _, holds⟩ := h.forest tree typed
  exact ⟨r₁, t, same, ⟨⟨r₁, ns, [], up, forest⟩, e, ns, stands⟩, holds⟩

end Bears

end Region

/-- What an honest edit gives where links to parents are right it gives wherever they are. -/
theorem Gives.of_orphaned {pass : Pass} (blind : Blind (pass n)) (honest : HonestPass n (pass n))
    (same : r₁.orphaned = r.orphaned) (h : Gives (pass n) r₁ (n, false)) :
    Gives (pass n) r (n, false) := by
  obtain ⟨r₂, run, same'⟩ := blind.returns same.symm h
  have untouched := ((meets_iff.mp (honest r)).1 _ _ run rfl).2
  have unchanged : r₂ = r := untouched.eq (same'.trans same)
  rw [unchanged] at run
  exact run

/-! ### Expressions -/

/-- Refinement settles a well-typed tree. -/
theorem refineExpr_bears (tree : Spells (r.shape true) e n ns) (typed : e.typed r.layout = true)
    (run : (refineExpr s n).run r = .ok (out, r')) (tree' : Spells (r'.shape true) e' out.1 ns') :
    r'.Bears (Settled s r.layout false) out.1 ns' := by
  obtain ⟨t, up, _, forest⟩ := Region.forest_relinked tree.tree tree.nodup
  have tree₁ : Spells ((r.relinked ns).shape true) e n ns := by rwa [Region.shape_relinked]
  have standing : Standing r.layout (r.relinked ns) n := ⟨e, ns, tree₁, typed, rfl, trivial⟩
  have hidden : (r.relinked ns).orphaned = r.orphaned := Region.orphaned_relinked
  obtain ⟨r₁, run₁, same⟩ := refineExpr_blind.returns hidden run
  obtain ⟨u, settled, regrown, _⟩ :=
    (meets_iff.mp (refineExpr_settles forest standing)).1 _ _ run₁
  obtain ⟨_, _, placed⟩ := regrown.placed
  exact .ofForest placed same tree' settled

/-- Refinement leaves a settled tree alone. -/
theorem Region.Bears.refineExpr_gives (h : r.Bears (Settled s r.layout false) n ns)
    (tree : Spells (r.shape true) e n ns) (typed : e.typed r.layout = true) :
    Gives (refineExpr s n) r (n, false) := by
  obtain ⟨r₁, t, same, stood, settled⟩ := h.stood tree typed
  exact .of_orphaned refineExpr_blind refineExpr_honest same (refineExpr_rests settled stood)

/-! ### Conditions -/

/-- No rule applies to a tree that is refined as a condition. -/
inductive Decided (s : Setting) (l : Layout) : Tree → Prop
  | comparison {code : Op} {ty : Ty} {attrs : Attrs} {a b : Tree}
      (relation : code.isRelation = true)
      (left : Settled s l false a) (right : Settled s l false b)
      (still : Still s l false code ty a b) : Decided s l (two code ty attrs a b)
  | logical {u : Tree} (settled : Settled s l false u) (judge : u.code.isJudge = true)
      (other : u.code.isRelation = false) : Decided s l u

/-- Only of comparisons does it count that a tree is a predicate. -/
theorem Tree.Settled.value (h : Settled s l true u) (other : u.code.isRelation = false) :
    Settled s l false u := by
  cases h with
  | leaf known => exact .leaf known
  | through => exact .through
  | neg operand single value => exact .neg operand single value
  | not known operand inverts value => exact .not known operand inverts value
  | cvt operand changes single value => exact .cvt operand changes single value
  | @binary _ code _ _ _ _ known left right value still =>
    have plain : code.isRelation = false := other
    exact .binary known left right value (by simpa [plain] using still)
  | select choice judge yes no value => exact .select choice judge yes no value

theorem Pending.decided (h : Pending s l u) (judge : u.code.isJudge = true) : Decided s l u := by
  cases h with
  | const => cases judge
  | settled settled =>
    cases relation : u.code.isRelation with
    | false => exact .logical (settled.value relation) judge relation
    | true =>
      cases settled with
      | @binary _ code _ _ _ _ _ left right _ still =>
        have comparison : code.isRelation = true := relation
        exact .comparison comparison left right (by simpa [comparison] using still)
      | leaf known => rcases known with rfl | rfl | rfl <;> cases relation
      | not known => rcases known with rfl | rfl <;> cases relation
      | through | neg | cvt | select => cases relation
  | waiting relation left right still => exact .comparison relation left right still

/-- Whether two trees are the same or not is settled alike. -/
theorem Decided.equals (h : Decided s l (two .ne ty attrs a b)) :
    Decided s l (two .eq ty attrs a b) := by
  cases h with
  | comparison _ left right still =>
    refine .comparison rfl left right ⟨still.ordered, fun _ _ => ?_, rfl⟩
    simp [merges, mayMerge, Node.fresh, Op.isAssociative]
  | logical _ _ other => cases other

theorem refineDeterminant_blind : Blind (refineDeterminant s n) :=
  (Composed.refineCondition fun _ _ => .refineExpr).agrees id

theorem refineDeterminant_honest : HonestPass n (refineDeterminant s n) :=
  (Composed.refineCondition fun _ _ => .refineExpr).honest

theorem refineExpr_normalizes {bound : Nat} : Normalizes s l (refineExpr s) bound :=
  ⟨fun _ _ => refineExpr_refining, fun _ _ _ _ _ _ _ _ h standing => refineExpr_settles h standing⟩

/-- Refinement as a condition decides a well-typed tree. -/
theorem refineDeterminant_bears (tree : Spells (r.shape true) e n ns)
    (typed : e.typed r.layout = true) (run : (refineDeterminant s n).run r = .ok (out, r'))
    (tree' : Spells (r'.shape true) e' out.1 ns') (typed' : e'.typed r'.layout = true)
    (judge : e'.code.isJudge = true) : r'.Bears (Decided s r.layout) out.1 ns' := by
  obtain ⟨t, up, _, forest⟩ := Region.forest_relinked tree.tree tree.nodup
  have tree₁ : Spells ((r.relinked ns).shape true) e n ns := by rwa [Region.shape_relinked]
  have standing : Standing r.layout (r.relinked ns) n := ⟨e, ns, tree₁, typed, rfl, trivial⟩
  have hidden : (r.relinked ns).orphaned = r.orphaned := Region.orphaned_relinked
  obtain ⟨r₁, run₁, same⟩ := refineDeterminant_blind.returns hidden run
  obtain ⟨u, pending, _, _, placed⟩ :=
    (meets_iff.mp (refineCondition_settles refineExpr_normalizes le_rfl forest standing)).1 _ _ run₁
  have tree₂ : Spells (r₁.shape true) e' out.1 ns' := by
    rwa [Region.shape_of_orphaned (r := r') same]
  have stands : Stands .live r'.layout r₁ e' out.1 ns' :=
    ⟨tree₂, typed', Region.layout_of_orphaned same, trivial⟩
  obtain ⟨_, _, _, _, code, _⟩ := placed.reads List.mem_cons_self stands
  exact .ofForest placed same tree' (pending.decided (code ▸ judge))

/-- Refinement as a condition leaves a decided tree alone. -/
theorem Decided.rests (h : Decided s l t) (stood : Stood l t n r) :
    Gives (refineDeterminant s n) r (n, false) := by
  cases h with
  | @comparison code ty attrs a b relation left right still =>
    have binary := Tree.isBinary_of_isRelation relation
    obtain ⟨x, y, d, dx, dy, p⟩ := stood.couple binary
    have code' : d.code = code := p.tops.code
    refine refineCondition_rests p.node (by rw [code']; exact isJudge_of_isRelation relation) ?_
    rw [code', if_pos relation]
    have guarded : Guarded l (settleStep s (refineExpr s) false) (two code ty attrs a b) _ :=
      settleStep_guarded binary left right
    rw [restless_eq_false.mpr ⟨fun _ off => Bool.noConfusion off, by simpa using still⟩] at guarded
    exact refineBinary_rests p (refineExpr_rests left p.leftStood)
      (refineExpr_rests right p.rightStood) (guarded.rests stood)
  | logical settled judge other =>
    obtain ⟨d, found, tops, _⟩ := stood.node
    refine refineCondition_rests (Region.node_of found) (tops.code ▸ judge) ?_
    rw [tops.code, other]
    exact refineExpr_rests settled stood

theorem Region.Bears.refineDeterminant_gives (h : r.Bears (Decided s r.layout) n ns)
    (tree : Spells (r.shape true) e n ns) (typed : e.typed r.layout = true) :
    Gives (refineDeterminant s n) r (n, false) := by
  obtain ⟨r₁, t, same, stood, decided⟩ := h.stood tree typed
  exact .of_orphaned refineDeterminant_blind refineDeterminant_honest same (decided.rests stood)

/-- A condition `a != b` stays decided as `a == b`. -/
theorem Region.Bears.equals (h : r.Bears (Decided s l) n ns) {ty : Ty} {x y : Term}
    (tree : Spells (r.shape true) (.binary .ne ty x y) n ns)
    (typed : (Term.binary .ne ty x y).typed r.layout = true)
    (run : (setCode n .eq).run r = .ok (⟨⟩, r')) (tree' : Spells (r'.shape true) e' n ns') :
    r'.Bears (Decided s l) n ns' := by
  obtain ⟨r₁, t, up, same, forest, _, ne, decided⟩ := h.forest tree typed
  have blind : Blind (setCode n .eq) := Agrees.setCode
  obtain ⟨r₂, run₁, same'⟩ := blind.returns same run
  cases decided with
  | logical _ _ other =>
    rw [ne] at other
    cases other
  | @comparison code ty attrs a b relation left right still =>
    obtain rfl : code = .ne := ne
    obtain ⟨_, _, split⟩ := forest.splitTwo
    have recodes : Meets (setCode n .eq) r₁ (fun _ => True) _ := split.setCode rfl
    have recoded := (meets_iff.mp recodes).1 _ _ run₁
    have equal : Decided s l (two .eq ty attrs a b) :=
      Decided.equals (.comparison relation left right still)
    exact .ofForest recoded.joinTwo same' tree' equal

end Peephole
