import Peephole.Proofs.Passes

/-!
# Refining an expression

Refining the expression at a node ends with a term that may stand in its place, whatever
the depth of the tree, the setting and the rest of the region. Where nothing is recorded
about accesses the refinement succeeds.
-/

namespace Peephole

open Edit

variable {linked : Links} {l : Layout} {r r' : Region} {e a b : Term} {n k : NodeId}
  {ns : List NodeId} {t : Ty} {v : Word} {s : Setting} {pass : Pass} {attrs attrs' : Attrs}
  {x : VarId} {base ofst : Int}

/-! ### Indirect loads -/

section inherit

variable {code code' : Op} {ty ty' : Ty} {slots slots' : List (List NodeId)}

theorem access_of_shape (shape : r.shape false n = some (.fresh code ty attrs slots)) :
    r.access n = .ok .clean := by
  obtain ⟨parent, record, found, noRecord⟩ := Region.node?_of_shape shape
  rw [noRecord rfl] at found
  simp [Region.access, Region.access?, Region.node_of found, bind, Except.bind, pure, Except.pure]

/-- Where nothing is recorded there is nothing to copy. -/
theorem copyAccess_meets {F : Fault → Prop}
    (new : r.shape false k = some (.fresh code ty attrs slots))
    (old : r.shape false n = some (.fresh code' ty' attrs' slots')) :
    Meets (copyAccess k n) r F fun _ r' => r' = r := by
  obtain ⟨parent, record, found, noRecord⟩ := Region.node?_of_shape new
  rw [noRecord rfl] at found
  simp [copyAccess, Edit.node, access_of_shape old, Region.node_of found, Access.clean]

/-- What is recorded about a node where no records hold edges. -/
theorem Region.Unlinked.access {d : Node} (h : r.Unlinked) (found : r.node? n = some d) :
    ∃ a, r.access n = .ok a ∧ a.peers = .empty ∧
      ∀ x, a.must = some x → x.index < r.locations.size := by
  cases own : d.record with
  | none =>
    refine ⟨.clean, ?_, rfl, by simp [Access.clean]⟩
    simp [Region.access, Region.access?, Region.node_of found, own, bind, Except.bind, pure,
      Except.pure]
  | some i =>
    obtain ⟨a, at_i, rest⟩ := h.records n d i found own
    refine ⟨a, ?_, rest⟩
    simp [Region.access, Region.access?, Region.node_of found, own, Region.lookup, at_i, bind,
      Except.bind, pure, Except.pure]

/-- A change of a record that leaves it without edges. -/
theorem modifyAccess_idle {F : Fault → Prop} {d : Node} {f : Access → Access}
    (unlinked : r.Unlinked)
    (found : r.node? n = some d)
    (tame : ∀ a, a.peers = .empty → (∀ x, a.must = some x → x.index < r.locations.size) →
      (f a).peers = .empty ∧ ∀ x, (f a).must = some x → x.index < r.locations.size) :
    Meets (modifyAccess n f) r F fun _ r' => Edited .idle r r' (r.shape true) := by
  simp only [modifyAccess, Edit.node, meets_bind, meets_ask, Region.node_of found, yields_ok]
  cases own : d.record with
  | some i =>
    obtain ⟨a, at_i, empty, known⟩ := unlinked.records n d i found own
    have look : Region.lookup r.records i = .ok a := by simp [Region.lookup, at_i]
    simp only [meets_bind, meets_ask, look, yields_ok, meets_modify]
    refine ⟨rfl, .of_records le_rfl rfl rfl rfl rfl (fun j idle => ?_)
      fun _ d _ found own => .inr ⟨d, found, own⟩⟩
    obtain ⟨b, at_j, rest⟩ := idle
    have inside := (Array.getElem?_eq_some_iff.mp at_j).1
    by_cases same : i.index = j.index
    · exact ⟨f a, same ▸ Array.getElem?_setIfInBounds_self_of_lt (same ▸ inside),
        tame a empty known⟩
    · exact ⟨b, (Array.getElem?_setIfInBounds_ne same).trans at_j, rest⟩
  | none =>
    simp only [meets_bind, meets_modifyGet, meets_putNode]
    obtain ⟨r₁, same⟩ : ∃ r₁ : Region, r₁ = { r with records := r.records.push (f .clean) } :=
      ⟨_, rfl⟩
    have found₁ : r₁.node? n = some d := same ▸ found
    rw [← same]
    refine ⟨?_, .of_records (by simp [same]) (same ▸ rfl) (same ▸ rfl) (same ▸ rfl) (same ▸ rfl)
      (fun j idle => ?_) fun m y j at_m own => ?_⟩
    · have kept := Region.shape_of_skeleton
        (Region.skeleton_put_record (x := some ⟨r.records.size⟩) found₁)
      rw [show r₁.shape true = r.shape true from same ▸ rfl] at kept
      exact kept
    · obtain ⟨b, at_j, rest⟩ := idle
      have inside := (Array.getElem?_eq_some_iff.mp at_j).1
      refine ⟨b, ?_, same ▸ rest⟩
      rw [same, Region.put, Array.getElem?_push, if_neg (by omega), at_j]
    · rw [Region.node?_put (Region.lt_size_of_node? found₁)] at at_m
      split at at_m
      · obtain rfl := Option.some.inj at_m
        obtain rfl := Option.some.inj own
        refine .inl ⟨f .clean, ?_, same ▸ tame .clean rfl (by simp [Access.clean])⟩
        simp [same, Region.put]
      · exact .inr ⟨y, by rwa [same] at at_m, own⟩

/-- What is copied of a record does not show in the shapes. -/
theorem copyAccess_idle {F : Fault → Prop} {d x : Node} (unlinked : r.Unlinked)
    (found : r.node? k = some d) (source : r.node? n = some x) :
    Meets (copyAccess k n) r F fun _ r' => Edited .idle r r' (r.shape true) := by
  obtain ⟨a, access, _, known⟩ := unlinked.access source
  simp only [copyAccess, meets_bind, meets_ask, access, yields_ok, Edit.node, Region.node_of found]
  split
  · exact .refl
  · exact modifyAccess_idle unlinked found fun _ still _ => ⟨still, known⟩

/-- Where no records hold edges, locations are known. -/
theorem Region.Unlinked.exactRef {d : Node} (h : r.Unlinked) (found : r.node? n = some d) :
    ∃ x, r.exactRef? n = .ok x := by
  obtain ⟨a, access, _, known⟩ := h.access found
  simp only [exactRef?, access, bind, Except.bind]
  cases must : a.must with
  | none => exact ⟨none, rfl⟩
  | some x =>
    have at_x := Array.getElem?_eq_getElem (known x must)
    simp [location, lookup, at_x, pure, Except.pure]

/-- What a load inherits does not show in the shapes. -/
theorem inheritLoad_meets {ld : NodeId}
    (new : r.shape linked ld = some (.fresh code ty attrs slots))
    (old : r.shape linked n = some (.fresh code' ty' attrs' slots')) (calm : r.Calm linked) :
    Meets (inheritLoad ld n) r (fun _ => linked = .live) fun _ r' =>
      Edited linked r r' (r.shape linked) := by
  cases linked with
  | live => exact inheritLoad_quiet.edited
  | unrecorded =>
    have inexact : r.exactRef? n = .ok none := by
      simp [Region.exactRef?, access_of_shape old, Access.clean, bind, Except.bind, pure,
        Except.pure]
    simp only [inheritLoad, Edit.hasEdges, meets_bind, meets_ask, inexact, yields_ok, meets_get,
      meets_pure, calm.edges (by simp), Bool.and_false, Bool.false_eq_true, if_false]
    refine (copyAccess_meets new old).to ?_
    rintro _ _ rfl
    exact .refl
  | idle =>
    have unlinked : r.Unlinked := calm
    obtain ⟨parent, record, found, _⟩ := Region.node?_of_shape new
    obtain ⟨parent', record', found', _⟩ := Region.node?_of_shape old
    obtain ⟨x, exact⟩ := unlinked.exactRef found'
    simp only [inheritLoad, Edit.hasEdges, meets_bind, meets_ask, exact, yields_ok, meets_get,
      meets_pure, unlinked.edges, Bool.and_false, Bool.false_eq_true, if_false]
    exact copyAccess_idle unlinked found found'

end inherit

/-- An indirect load through an address becomes a load. -/
theorem refineIndirectLoad_refining
    (address : ∀ r k d, r.node k = .ok d → d.code = .lda →
      Meets (pass k) r (fun _ => linked = .live) fun out r' => out = (k, false) ∧ r' = r) :
    Refining linked l (refineIndirectLoad pass) (.indirect t x base ofst) := by
  intro r n ns h
  have refines := Term.refines_direct h.typed
  obtain ⟨word, fits⟩ : t.isWord = true ∧ fitsOffset (base + ofst) = true := by
    simpa [Term.typed] using h.typed
  obtain ⟨_, k, _, ⟨attrs, shape, rfl⟩, q, attrs', shape', var, rfl⟩ := h.spells
  obtain ⟨parent, record, found, _⟩ := Region.node?_of_shape shape
  obtain ⟨parent', record', found', _⟩ := Region.node?_of_shape shape'
  have kid : r.kid n 0 = .ok k := Region.kid_of found rfl
  have kid? : r.kid? n 0 = .ok (some k) := Region.kid?_of_kid kid
  simp only [refineIndirectLoad, refineSlot, Edit.node, Edit.kid, meets_bind, meets_ask, kid?,
    yields_ok]
  refine (address r k _ (Region.node_of found') rfl).to fun out r₁ same => ?_
  obtain ⟨rfl, rfl⟩ := same
  simp only [ne_eq, not_true_eq_false, if_false, meets_bind, meets_pure, meets_ask, kid, yields_ok,
    Region.node_of found', addressTarget?, if_true, var, Option.map_some, Region.node_of found,
    addOffsets, fits, meets_lift, load]
  refine (build_meets linked (by simp)).to fun ld r₂ made => ?_
  obtain ⟨rfl, made⟩ := made
  have before : Kept linked r₁ r₂ [] := made.kept_next
  have h₂ := h.kept before fun _ _ => List.not_mem_nil
  have old := before.shape n List.not_mem_nil (h.lt_size h.spells.root_mem)
  have new : r₂.shape linked r₁.next =
      some (.fresh .ld t (.ofVar x (attrs'.ofst + attrs.ofst)) []) := by
    rw [made.shape, Function.update_self]
  have direct : Stands linked l r₂ (.load t x (attrs'.ofst + attrs.ofst)) r₁.next [r₁.next] :=
    ⟨⟨rfl, _, new, rfl, rfl⟩, refines.typed, h₂.layout, h₂.calm⟩
  refine (inheritLoad_meets new (old.trans shape) h₂.calm).to fun _ r₃ inherited => ?_
  refine (h₂.edited_same inherited).discardTree_meets.to fun _ r₄ dropped => ?_
  refine (fired_meets linked .ildOfLda n).to fun _ r₅ noted => ?_
  have apart : ∀ m ∈ [r₁.next], m ∉ ns := by simpa using h.next_not_mem
  have kept : Kept linked r₁ r₅ ns :=
    (((before.mono (by simp)).trans inherited.kept_same .refl).trans dropped .refl).trans
      noted.kept_same .refl
  refine ⟨_, [r₁.next], ((direct.edited_same inherited).kept dropped apart).edited_same noted, ?_,
    kept, refines⟩
  intro m mem
  exact .inr (by rw [List.mem_singleton.mp mem, next_index])

/-- An indirect load through a register is left alone. -/
theorem refineIndirectLoad_through {F : Fault → Prop} {d : Node} (kid : r.kid n 0 = .ok k)
    (base : r.node k = .ok d) (code : d.code = .pr)
    (pointer : Meets (pass k) r F fun out r' => out = (k, false) ∧ r' = r) :
    Meets (refineIndirectLoad pass n) r F fun out r' => out = (n, false) ∧ r' = r := by
  have kid? : r.kid? n 0 = .ok (some k) := Region.kid?_of_kid kid
  simp only [refineIndirectLoad, refineSlot, Edit.node, Edit.kid, meets_bind, meets_ask, kid?,
    yields_ok]
  refine pointer.to ?_
  rintro _ _ ⟨rfl, rfl⟩
  simp [kid, base, addressTarget?, code]

/-! ### Every expression -/

/-- Addresses are left alone. -/
theorem refineExprWithin_address {fuel : Nat} {F : Fault → Prop} {d : Node}
    (found : r.node n = .ok d)
    (code : d.code = .lda ∨ d.code = .pr) :
    Meets (refineExprWithin s (fuel + 1) n) r F fun out r' => out = (n, false) ∧ r' = r := by
  rcases code with code | code <;> simp [refineExprWithin, Edit.node, found, code]

theorem Op.cases_of_fitsUnary {op : Op} {q : Ty} (h : op.fitsUnary t q = true) :
    op = .neg ∨ op = .bnot ∨ op = .lnot ∨ op = .cvt := by
  cases op <;> first | exact absurd h Bool.false_ne_true | simp

/-- The induction is on the fuel and not on the term: a comparison that is the predicate of a
selection is refined operand by operand, so its operands are needed below the predicate. -/
theorem refineExprWithin_refining {fuel : Nat} (deep : e.size ≤ fuel) :
    Refining linked l (refineExprWithin s fuel) e := by
  induction fuel generalizing e with
  | zero => exact absurd deep (Nat.not_le.mpr Term.size_pos)
  | succ fuel ih =>
    intro r n ns h
    obtain ⟨d, found, reads⟩ := h.reads
    have code := reads.code
    simp only [refineExprWithin, Edit.node, meets_bind, meets_ask, Region.node_of found, yields_ok]
    cases e with
    | lit ty v | reg ty q | load ty x ofst =>
      simp only [Term.code] at code
      simp only [code, meets_pure]
      exact h.turns (.refl h.typed)
    | indirect ty x base ofst =>
      simp only [Term.code] at code
      simp only [code]
      refine refineIndirectLoad_refining (fun r k d found code => ?_) r n ns h
      simp only [Term.size] at deep
      obtain ⟨fuel, rfl⟩ : ∃ f, fuel = f + 1 := ⟨fuel - 1, by omega⟩
      exact refineExprWithin_address found (.inl code)
    | through ty q ofst =>
      simp only [Term.code] at code
      simp only [code]
      simp only [Term.size] at deep
      obtain ⟨fuel, rfl⟩ : ∃ f, fuel = f + 1 := ⟨fuel - 1, by omega⟩
      obtain ⟨_, k, _, ⟨_, shape, _⟩, _, _, shape', _⟩ := h.spells
      obtain ⟨_, _, at_n, _⟩ := Region.node?_of_shape shape
      obtain ⟨_, _, at_k, _⟩ := Region.node?_of_shape shape'
      have base := Region.node_of at_k
      refine (refineIndirectLoad_through (Region.kid_of at_n rfl) base rfl
        (refineExprWithin_address base (.inr rfl))).to ?_
      rintro _ _ ⟨rfl, rfl⟩
      exact h.turns (.refl h.typed)
    | unary op ty a =>
      simp only [Term.code] at code
      have below : Refining linked l (refineExprWithin s fuel) a :=
        ih (by simp only [Term.size] at deep; omega)
      have fits := (Term.typed_unary.mp h.typed).2
      rcases Op.cases_of_fitsUnary fits with rfl | rfl | rfl | rfl
      · simp only [code]
        exact refineNeg_refining below r n ns h
      · simp only [code]
        exact refineNot_refining below r n ns h
      · simp only [code]
        exact refineNot_refining below r n ns h
      · simp only [code]
        exact refineCvt_refining below r n ns h
    | binary op ty a b =>
      have binary : d.code.isBinary = true := code ▸ Term.isBinary_of_typed h.typed
      have left : Refining linked l (refineExprWithin s fuel) a :=
        ih (by simp only [Term.size] at deep; omega)
      have right : Refining linked l (refineExprWithin s fuel) b :=
        ih (by simp only [Term.size] at deep; omega)
      split <;> try (rename_i same; rw [same] at binary; exact absurd binary Bool.false_ne_true)
      simp only [binary, if_true]
      exact refineBinary_refining left right r n ns h
    | select ty p a b =>
      simp only [Term.code] at code
      simp only [code]
      simp only [Term.size] at deep
      refine refineSelect_refining (ih (by omega)) ?_ (ih (by omega)) (ih (by omega)) r n ns h
      rintro op q x y rfl
      simp only [Term.size] at deep
      exact ⟨ih (by omega), ih (by omega)⟩

theorem Region.exists_stepBound : ∃ fuel, r.stepBound = fuel + 1 :=
  ⟨r.stepBound - 1, (Nat.sub_add_cancel Nat.one_le_two_pow).symm⟩

/-- Addresses stay as they are. -/
theorem refineExpr_address {F : Fault → Prop} {d : Node} (found : r.node n = .ok d)
    (code : d.code = .lda ∨ d.code = .pr) :
    Meets (refineExpr s n) r F fun out r' => out = (n, false) ∧ r' = r := by
  obtain ⟨fuel, bound⟩ := r.exists_stepBound
  simp only [refineExpr, meets_bind, meets_get, bound]
  exact refineExprWithin_address found code

theorem refineExpr_refining : Refining linked l (refineExpr s) e := by
  intro r n ns h
  simp only [refineExpr, meets_bind, meets_get]
  refine refineExprWithin_refining ?_ r n ns h
  calc e.size ≤ r.nodes.size := h.spells.size_le
    _ ≤ r.nodes.size + 9 := Nat.le_add_right _ _
    _ ≤ r.stepBound := Nat.lt_two_pow_self.le

/-! ### Uniform terms -/

/-- The terms all of whose operators work on operands of their own integer type. Conversions
lead from one type to another, and comparisons decide selections only. -/
inductive Term.Uniform (l : Layout) : Ty → Term → Prop
  | lit {t : Ty} {v : Word} : t.isWord = true → t.wrapInt l v = v → Uniform l t (.lit t v)
  | reg {t : Ty} {q : Nat} : t.isWord = true → Uniform l t (.reg t q)
  | load {t : Ty} {x : VarId} {ofst : Int} : t.isWord = true → Uniform l t (.load t x ofst)
  | indirect {t : Ty} {x : VarId} {base ofst : Int} : t.isWord = true →
    fitsOffset (base + ofst) = true → Uniform l t (.indirect t x base ofst)
  | unary {op : Op} {t : Ty} {a : Term} : op = .neg ∨ op = .lnot ∨ op = .bnot →
    Uniform l t a → Uniform l t (.unary op t a)
  | cvt {t q : Ty} {a : Term} : t.isWord = true → Uniform l q a → Uniform l t (.unary .cvt t a)
  | binary {op : Op} {t : Ty} {a b : Term} : op.isBinary = true → op.isRelation = false →
    Uniform l t a → Uniform l t b → Uniform l t (.binary op t a b)
  | select {t : Ty} {p a b : Term} : Uniform l t p → Uniform l t a → Uniform l t b →
    Uniform l t (.select t p a b)
  | choose {op : Op} {t : Ty} {x y a b : Term} : op.isRelation = true → Uniform l t x →
    Uniform l t y → Uniform l t a → Uniform l t b →
    Uniform l t (.select t (.binary op (.scalar .bool) x y) a b)

/-- A uniform term is well typed, in the type it is uniform of. -/
theorem Term.Uniform.typed (h : e.Uniform l t) :
    t.isWord = true ∧ e.ty = t ∧ e.typed l = true := by
  induction h with
  | lit word range => exact ⟨word, rfl, typed_lit.mpr ⟨Ty.isSmall_of_isWord word, range⟩⟩
  | reg word | load word => exact ⟨word, rfl, word⟩
  | indirect word fits => exact ⟨word, rfl, by simp [Term.typed, word, fits]⟩
  | unary which _ ih =>
    obtain ⟨word, ty, typed⟩ := ih
    refine ⟨word, rfl, typed_unary.mpr ⟨typed, ?_⟩⟩
    rcases which with rfl | rfl | rfl <;> simp [Op.fitsUnary, word, ty]
  | cvt word _ ih => exact ⟨word, rfl, typed_unary.mpr ⟨ih.2.2, word⟩⟩
  | binary isBinary notRelation _ _ ihA ihB =>
    obtain ⟨word, tyA, typedA⟩ := ihA
    obtain ⟨_, tyB, typedB⟩ := ihB
    refine ⟨word, rfl, typed_binary.mpr ⟨typedA, typedB, tyB.trans tyA.symm, ?_⟩⟩
    simp [Op.fitsBinary, notRelation, isBinary, word, tyA]
  | select _ _ _ ihP ihA ihB =>
    obtain ⟨word, tyA, typedA⟩ := ihA
    exact ⟨word, rfl, typed_select.mpr ⟨ihP.2.2, typedA, ihB.2.2, word, tyA, ihB.2.1⟩⟩
  | choose relation _ _ _ _ ihX ihY ihA ihB =>
    obtain ⟨word, tyA, typedA⟩ := ihA
    have pred := typed_binary.mpr ⟨ihX.2.2, ihY.2.2, ihY.2.1.trans ihX.2.1.symm,
      (if_pos relation).trans (rfl : (Ty.scalar .bool).isBool = true)⟩
    exact ⟨word, rfl, typed_select.mpr ⟨pred, typedA, ihB.2.2, word, tyA, ihB.2.1⟩⟩

/-- A tree without records spells the same term where records are of concern. -/
theorem Spells.unrecorded (h : Spells (r.shape true) e n ns)
    (none : ∀ m ∈ ns, ∀ d, r.node? m = some d → d.record = none) :
    Spells (r.shape false) e n ns := by
  refine h.congr fun m mem => ?_
  cases found : r.node? m with
  | none => simp [Region.shape, found]
  | some d => simp [Region.shape, found, Node.bare, none m mem d found]

/-- Refining a uniform expression keeps its type and its value. It succeeds where no edges are
maintained and nothing is recorded about the accesses of the expression. -/
theorem refineExpr_preserves_value (s : Setting) (env : Env) {x : Value}
    (tree : Spells (r.shape true) e n ns) (uniform : e.Uniform r.layout t)
    (value : r.eval env n = .ok (some x)) :
    (∀ out r', (refineExpr s n).run r = .ok (out, r') →
      (r'.node? out.1).map (·.ty) = some t ∧ r'.eval env out.1 = .ok (some x)) ∧
    (r.hasEdges = false → (∀ m ∈ ns, ∀ d, r.node? m = some d → d.record = none) →
      ∃ out r', (refineExpr s n).run r = .ok (out, r')) := by
  obtain ⟨_, ty, typed⟩ := uniform.typed
  constructor
  · intro out r' run
    have h : Stands .live r.layout r e n ns := ⟨tree, typed, rfl, trivial⟩
    obtain ⟨e', ns', h', _, _, refines⟩ := (meets_iff.mp (refineExpr_refining (s := s) r n ns h)).1
      out r' run
    obtain ⟨d, found, reads⟩ := h'.reads
    refine ⟨by simp [found, reads.ty, refines.ty, ty], ?_⟩
    rw [Region.eval_of_spells tree typed, Except.ok.injEq, Option.map_eq_some_iff] at value
    obtain ⟨v, value, rfl⟩ := value
    rw [Region.eval_of_spells h'.spells (h'.layout ▸ h'.typed), h'.layout,
      refines.value env v value, Option.map_some]
  · intro calm none
    have h : Stands .unrecorded r.layout r e n ns := ⟨tree.unrecorded none, typed, rfl, calm⟩
    have meets := meets_iff.mp (refineExpr_refining (s := s) r n ns h)
    cases run : (refineExpr s n).run r with
    | ok out => exact ⟨out.1, out.2, rfl⟩
    | error f => exact absurd (meets.2 f run) (by simp)

/-- `$1 * 2 + *(&x + 4 + 8)` in 32 bits. -/
def Region.doubledSum : Region :=
  { Region.empty ⟨8⟩ with
    nodes := #[
      some (.fresh .add (.scalar .i32) .none [[⟨1⟩], [⟨4⟩]]),
      some { Node.fresh .mul (.scalar .i32) .none [[⟨2⟩], [⟨3⟩]] with parent := some ⟨0⟩ },
      some { Node.fresh .pr (.scalar .i32) (.ofRegister 1) [] with parent := some ⟨1⟩ },
      some { Node.fresh .const (.scalar .i32) (.ofLiteral (.int 2)) [] with parent := some ⟨1⟩ },
      some { Node.fresh .ild (.scalar .i32) (.ofOffset 8) [[⟨5⟩]] with parent := some ⟨0⟩ },
      some { Node.fresh .lda (.pointer 8) (.ofVar ⟨0⟩ 4) [] with parent := some ⟨4⟩ }] }

theorem refineExpr_doubledSum : ∃ out r',
    (refineExpr ⟨.standard, true⟩ ⟨0⟩).run .doubledSum = .ok (out, r') ∧
    (r'.node? out.1).map (·.ty) = some (.scalar .i32) ∧
    r'.eval ((Env.empty.setReg 1 (.int 5)).setVar ⟨0⟩ 12 (.int 9)) out.1 =
      .ok (some (.int 19)) := by
  have tree : Spells (Region.doubledSum.shape true)
      (.binary .add (.scalar .i32)
        (.binary .mul (.scalar .i32) (.reg (.scalar .i32) 1) (.lit (.scalar .i32) 2))
        (.indirect (.scalar .i32) ⟨0⟩ 4 8)) ⟨0⟩ [⟨0⟩, ⟨1⟩, ⟨2⟩, ⟨3⟩, ⟨4⟩, ⟨5⟩] :=
    ⟨by decide, ⟨1⟩, [⟨1⟩, ⟨2⟩, ⟨3⟩], ⟨4⟩, [⟨4⟩, ⟨5⟩], _, rfl, rfl,
      ⟨by decide, ⟨2⟩, [⟨2⟩], ⟨3⟩, [⟨3⟩], _, rfl, rfl, ⟨rfl, _, rfl, rfl⟩, ⟨rfl, _, rfl, rfl⟩⟩,
      ⟨by decide, ⟨5⟩, rfl, ⟨_, rfl, rfl⟩, _, _, rfl, rfl, rfl⟩⟩
  obtain ⟨keeps, returns⟩ := refineExpr_preserves_value ⟨.standard, true⟩
    ((Env.empty.setReg 1 (.int 5)).setVar ⟨0⟩ 12 (.int 9)) tree
    (.binary rfl rfl (.binary rfl rfl (.reg rfl) (.lit rfl (by decide)))
      (.indirect rfl (by decide)))
    (x := .int 19) rfl
  obtain ⟨out, r', run⟩ := returns rfl (by
    intro m mem d found
    fin_cases mem <;> (injection found with same; rw [← same]; rfl))
  exact ⟨out, r', run, keeps out r' run⟩

end Peephole
