import Peephole.Proofs.Copies

/-!
# Trees of binary operators

What rules read off a binary node, and the edits they make there: another operation, the
operands in the other order, another right operand.
-/

namespace Peephole

open Edit

variable {linked : Links} {l : Layout} {r r' r₁ : Region} {e a b : Term} {n k k₀ k₁ : NodeId}
  {ns below₀ below₁ : List NodeId} {F : Fault → Prop} {op op' : Op} {t q : Ty} {v : Word}
  {d d₀ d₁ : Node} {attrs : Attrs}

theorem Reads.isIntLit (h : Reads d e) : d.isIntLit v = true ↔ ∃ q, e = .lit q v := by
  rw [Node.isIntLit, h.intLit, beq_iff_eq, Term.lit?_eq_some]

theorem Reads.isConst (h : Reads d e) (typed : e.typed l = true) : d.isConst = e.isLit := by
  rw [Node.isConst, h.code, Term.isLit_of_typed typed]

/-- A binary node over two trees. -/
theorem Stands.of_operands (left : Stands linked l r a k₀ below₀)
    (right : Stands linked l r b k₁ below₁) (distinct : (n :: (below₀ ++ below₁)).Nodup)
    (shape : r.shape linked n = some (.fresh op t attrs [[k₀], [k₁]]))
    (typed : (Term.binary op t a b).typed l = true) :
    Stands linked l r (.binary op t a b) n (n :: (below₀ ++ below₁)) :=
  ⟨⟨distinct, k₀, below₀, k₁, below₁, attrs, rfl, shape, left.spells, right.spells⟩, typed,
    left.layout, left.calm⟩

/-- A binary node and its operands, as rules find them. -/
structure Operands (linked : Links) (l : Layout) (r : Region) (op : Op) (t : Ty) (a b : Term)
    (n k₀ k₁ : NodeId) (d d₀ d₁ : Node) (below₀ below₁ : List NodeId) : Prop where
  node : r.node n = .ok d
  kid₀ : r.kid n 0 = .ok k₀
  kid₁ : r.kid n 1 = .ok k₁
  node₀ : r.node k₀ = .ok d₀
  node₁ : r.node k₁ = .ok d₁
  reads : Reads d (.binary op t a b)
  reads₀ : Reads d₀ a
  reads₁ : Reads d₁ b
  left : Stands linked l r a k₀ below₀
  right : Stands linked l r b k₁ below₁
  distinct : (n :: (below₀ ++ below₁)).Nodup
  shape : ∃ attrs, r.shape linked n = some (.fresh op t attrs [[k₀], [k₁]])

theorem Operands.of_shape (left : Stands linked l r a k₀ below₀)
    (right : Stands linked l r b k₁ below₁) (distinct : (n :: (below₀ ++ below₁)).Nodup)
    (shape : r.shape linked n = some (.fresh op t attrs [[k₀], [k₁]]))
    (typed : (Term.binary op t a b).typed l = true) :
    ∃ d d₀ d₁, Operands linked l r op t a b n k₀ k₁ d d₀ d₁ below₀ below₁ := by
  obtain ⟨d, found, reads⟩ := (Stands.of_operands left right distinct shape typed).reads
  obtain ⟨d₀, found₀, reads₀⟩ := left.reads
  obtain ⟨d₁, found₁, reads₁⟩ := right.reads
  obtain ⟨parent, record, found', _⟩ := Region.node?_of_shape shape
  exact ⟨d, d₀, d₁, Region.node_of found, Region.kid_of found' rfl, Region.kid_of found' rfl,
    Region.node_of found₀, Region.node_of found₁, reads, reads₀, reads₁, left, right, distinct,
    attrs, shape⟩

theorem Stands.operands (h : Stands linked l r (.binary op t a b) n ns) :
    ∃ k₀ k₁ d d₀ d₁ below₀ below₁, ns = n :: (below₀ ++ below₁) ∧
      Operands linked l r op t a b n k₀ k₁ d d₀ d₁ below₀ below₁ := by
  obtain ⟨distinct, k₀, below₀, k₁, below₁, attrs, rfl, shape, left, right⟩ := h.spells
  have typed := Term.typed_binary.mp h.typed
  have standsA : Stands linked l r a k₀ below₀ := ⟨left, typed.1, h.layout, h.calm⟩
  have standsB : Stands linked l r b k₁ below₁ := ⟨right, typed.2.1, h.layout, h.calm⟩
  obtain ⟨d, d₀, d₁, view⟩ := Operands.of_shape standsA standsB distinct shape h.typed
  exact ⟨k₀, k₁, d, d₀, d₁, below₀, below₁, rfl, view⟩

namespace Operands

variable (h : Operands linked l r op t a b n k₀ k₁ d d₀ d₁ below₀ below₁)

include h

theorem operands_meets {Q : NodeId × NodeId → Region → Prop} :
    Meets (operands n) r F Q ↔ Q (k₀, k₁) r := by
  simp [operands, Edit.kid, h.kid₀, h.kid₁]

theorem withOperands_meets {Q : Node × Node × Node → Region → Prop} :
    Meets (withOperands n) r F Q ↔ Q (d, d₀, d₁) r := by
  simp [withOperands, h.operands_meets, Edit.node, h.node, h.node₀, h.node₁]

theorem node_meets {Q : Node → Region → Prop} : Meets (Edit.node n) r F Q ↔ Q d r := by
  simp [Edit.node, h.node]

theorem node₀_meets {Q : Node → Region → Prop} : Meets (Edit.node k₀) r F Q ↔ Q d₀ r := by
  simp [Edit.node, h.node₀]

theorem node₁_meets {Q : Node → Region → Prop} : Meets (Edit.node k₁) r F Q ↔ Q d₁ r := by
  simp [Edit.node, h.node₁]

theorem apart : n ∉ below₀ ∧ n ∉ below₁ ∧ ∀ m ∈ below₀, m ∉ below₁ := by
  obtain ⟨notBelow, both⟩ := List.nodup_cons.mp h.distinct
  obtain ⟨_, _, cross⟩ := List.nodup_append.mp both
  simp only [List.mem_append, not_or] at notBelow
  exact ⟨notBelow.1, notBelow.2, fun m mem other => cross m mem m other rfl⟩

theorem sameOperands_meets {Q : Bool → Region → Prop} (differ : Q false r)
    (same : a = b → Q true r) : Meets (sameOperands n) r F Q := by
  obtain ⟨x, answer, right⟩ := sameTree_says h.left h.right h.apart.2.2
  unfold sameOperands
  rw [meets_bind, h.operands_meets]
  simp only [Edit.sameTree, meets_ask, answer, yields_ok]
  cases x with
  | false => exact differ
  | true => exact same (right rfl)

end Operands

/-- An edit of one node touches no other. -/
theorem Edited.kept_node {x : Option Node}
    (h : Edited linked r r' (Function.update (r.shape linked) n x)) : Kept linked r r' [n] :=
  h.kept fun m outside _ => Function.update_of_ne (by simpa using outside) _ _

theorem Stands.kept_node (h : Stands linked l r e k ns) (other : Kept linked r r' [n])
    (apart : n ∉ ns) : Stands linked l r' e k ns :=
  h.kept other fun _ mem eq => apart (List.mem_singleton.mp eq ▸ mem)

theorem Edited.shape_node {x : Option Node}
    (h : Edited linked r r' (Function.update (r.shape linked) n x)) : r'.shape linked n = x := by
  rw [h.shape, Function.update_self]

/-- Another operation on the same operands. -/
theorem setBinaryCode_meets (h : Stands linked l r (.binary op t a b) n ns)
    (typed : (Term.binary op' t a b).typed l = true) :
    Meets (setCode n op') r F fun _ r' =>
      Stands linked l r' (.binary op' t a b) n ns ∧ Kept linked r r' ns := by
  have slots : op.numSlots = op'.numSlots := by
    rw [numSlots_of_isBinary (Term.isBinary_of_typed h.typed),
      numSlots_of_isBinary (Term.isBinary_of_typed typed)]
  obtain ⟨k₀, k₁, d, d₀, d₁, below₀, below₁, rfl, view⟩ := h.operands
  obtain ⟨not₀, not₁, _⟩ := view.apart
  obtain ⟨attrs, shape⟩ := view.shape
  refine (setCode_meets shape slots).to fun _ r' edited => ?_
  have kept := edited.kept_node
  exact ⟨.of_operands (view.left.kept_node kept not₀) (view.right.kept_node kept not₁)
    view.distinct edited.shape_node typed, kept.mono (by simp)⟩

/-! ### Another right operand -/

/-- The right operand is detached and dropped. -/
theorem emptyRight_meets {Q : PUnit → Region → Prop}
    (h : Operands linked l r op t a b n k₀ k₁ d d₀ d₁ below₀ below₁)
    (next : ∀ r' attrs, r'.shape linked n = some (.fresh op t attrs [[k₀], []]) →
      Stands linked l r' a k₀ below₀ → Kept linked r r' (n :: below₁) → Q ⟨⟩ r') :
    Meets (discard (takeKid n 1)) r (fun _ => linked = .live) fun _ r₁ =>
      Meets (discardTree k₁) r₁ (fun _ => linked = .live) Q := by
  obtain ⟨not₀, not₁, cross⟩ := h.apart
  obtain ⟨attrs, shape⟩ := h.shape
  have live : ∀ k ∈ [k₁], r.Live k := by simpa using h.right.spells.live h.right.spells.root_mem
  rw [meets_discard]
  refine (takeKid_meets shape rfl live).to fun _ r₁ taken => ?_
  refine (h.right.kept_node taken.kept_node not₁).discardTree_meets.to fun _ r' dropped => ?_
  have kept : Kept linked r r' (n :: below₁) :=
    (taken.kept_node.mono (by simp)).trans (dropped.mono fun m => List.mem_cons_of_mem n) .refl
  refine next r' attrs ?_ (h.left.kept kept ?_) kept
  · rw [dropped.shape n not₁ (Region.lt_size_of_shape taken.shape_node), taken.shape_node]
    rfl
  · intro m mem other
    rcases List.mem_cons.mp other with rfl | other
    · exact not₀ mem
    · exact cross m mem other

/-- A tree is put in as the right operand. -/
theorem fillRight_meets (shape : r.shape linked n = some (.fresh op t attrs [[k₀], []]))
    (left : Stands linked l r a k₀ below₀) (right : Stands linked l r b k₁ below₁)
    (distinct : (n :: (below₀ ++ below₁)).Nodup) (typed : (Term.binary op t a b).typed l = true) :
    Meets (setKid n 1 (some k₁)) r F fun _ r' =>
      Stands linked l r' (.binary op t a b) n (n :: (below₀ ++ below₁)) ∧ Kept linked r r' [n] := by
  have live := right.spells.live right.spells.root_mem
  obtain ⟨apart, _⟩ := List.nodup_cons.mp distinct
  simp only [List.mem_append, not_or] at apart
  refine (setKid_meets shape (by simp) live).to fun _ r' filled => ?_
  have kept := filled.kept_node
  exact ⟨.of_operands (left.kept_node kept apart.1) (right.kept_node kept apart.2) distinct
    filled.shape_node typed, kept⟩

/-- The tree `x op y` becomes `x + x`. -/
theorem double_meets (h : Stands linked l r (.binary op t a b) n ns)
    (typed : (Term.binary .add t a a).typed l = true) :
    Meets (double n) r (fun _ => linked = .live) fun n' r' =>
      Turns linked l r ns (fun e => e = .binary .add t a a) n' r' := by
  have slots : op.numSlots = Op.numSlots .add :=
    numSlots_of_isBinary (Term.isBinary_of_typed h.typed)
  obtain ⟨k₀, k₁, d, d₀, d₁, below₀, below₁, rfl, view⟩ := h.operands
  unfold double
  simp only [meets_bind, view.operands_meets]
  refine emptyRight_meets view fun r₁ attrs shape left kept => ?_
  refine (duplicate_meets left).to fun k' r₂ copied => ?_
  obtain ⟨below', copy, fresh, kept₂⟩ := copied
  refine whenEdges_meets copyTreeAccess_quiet copy.calm fun r₃ noted => ?_
  simp only [meets_bind, meets_pure]
  have kept₃ : Kept linked r₁ r₃ [] := kept₂.trans noted.kept_same .refl
  have shape₃ : r₃.shape linked n = some (.fresh op t attrs [[k₀], []]) := by
    rw [kept₃.shape n List.not_mem_nil (Region.lt_size_of_shape shape), shape]
  have left₃ := left.kept kept₃ fun _ _ => List.not_mem_nil
  have copy₃ := copy.edited_same noted
  refine (setCode_meets shape₃ slots).to fun _ r₄ coded => ?_
  have not₀ := view.apart.1
  have notCopy : n ∉ below' := fun mem =>
    Nat.lt_irrefl _ ((Region.lt_size_of_shape shape).trans_le (fresh n mem))
  have left₄ := left₃.kept_node coded.kept_node not₀
  have copy₄ := copy₃.kept_node coded.kept_node notCopy
  have distinct : (n :: (below₀ ++ below')).Nodup := by
    refine List.nodup_cons.mpr ⟨by simp [not₀, notCopy], ?_⟩
    refine left.spells.nodup.append copy.spells.nodup fun m mem other => ?_
    exact Nat.lt_irrefl _ ((left.lt_size mem).trans_le (fresh m other))
  refine (fillRight_meets coded.shape_node left₄ copy₄ distinct typed).to fun _ r' filled => ?_
  obtain ⟨stands, last⟩ := filled
  have front : Kept linked r₁ r' [n] :=
    (kept₃.mono (by simp)).trans (coded.kept_node.trans last .refl) .refl
  refine ⟨_, _, stands, ?_, ?_, rfl⟩
  · intro m mem
    simp only [List.mem_cons, List.mem_append] at mem ⊢
    rcases mem with rfl | mem | mem
    · exact .inl (.inl rfl)
    · exact .inl (.inr (.inl mem))
    · exact .inr (kept.grown.size.trans (fresh m mem))
  · refine (kept.mono fun m mem => ?_).trans front ?_
    · rcases List.mem_cons.mp mem with rfl | mem
      · exact List.mem_cons_self
      · exact List.mem_cons_of_mem n (List.mem_append_right below₀ mem)
    · exact fun m mem => .inl (by simp_all)

/-- The operands change places, under an operation that may have them so. -/
theorem commute_meets (h : Stands linked l r (.binary op t a b) n ns)
    (swaps : ∀ op', op.commuted? = some op' → (Term.binary op' t b a).typed l = true) :
    Meets (commute n) r F fun moved r' =>
      if moved then ∃ op', op.commuted? = some op' ∧ a.isLit = true ∧ b.isLit = false ∧
        Turns linked l r ns (fun e => e = .binary op' t b a) n r'
      else r' = r := by
  obtain ⟨k₀, k₁, d, d₀, d₁, below₀, below₁, rfl, view⟩ := h.operands
  obtain ⟨not₀, not₁, cross⟩ := view.apart
  obtain ⟨attrs, shape⟩ := view.shape
  have code : d.code = op := view.reads.code
  have live₀ : ∀ k ∈ [k₀], r.Live k := by
    simpa using view.left.spells.live view.left.spells.root_mem
  unfold commute
  simp only [meets_bind, view.node_meets, code]
  cases swapped : op.commuted? with
  | none => simp
  | some op' =>
    simp only [meets_bind, view.operands_meets, view.node₀_meets,
      view.reads₀.isConst view.left.typed]
    cases lit₀ : a.isLit with
    | false => simp
    | true =>
      simp only [Bool.not_true, Bool.false_eq_true, if_false, meets_bind, view.node₁_meets,
        view.reads₁.isConst view.right.typed]
      cases lit₁ : b.isLit with
      | true => simp
      | false =>
        have slots : op.numSlots = op'.numSlots := by
          rw [numSlots_of_isBinary (Term.isBinary_of_typed h.typed),
            numSlots_of_isBinary (Term.isBinary_of_typed (swaps op' swapped))]
        simp only [Bool.false_eq_true, if_false, meets_bind, meets_discard, meets_pure, if_true]
        refine (takeKid_meets shape rfl live₀).to fun _ r₁ taken₀ => ?_
        have kept₁ := taken₀.kept_node
        have right₁ := view.right.kept_node kept₁ not₁
        have live₁ : ∀ k ∈ [k₁], r₁.Live k := by
          simpa using right₁.spells.live right₁.spells.root_mem
        refine (takeKid_meets taken₀.shape_node rfl live₁).to fun _ r₂ taken₁ => ?_
        have kept₂ := kept₁.trans taken₁.kept_node .refl
        have right₂ := view.right.kept_node kept₂ not₁
        refine (setKid_meets taken₁.shape_node (by simp)
          (right₂.spells.live right₂.spells.root_mem)).to fun _ r₃ set₀ => ?_
        have kept₃ := kept₂.trans set₀.kept_node .refl
        have left₃ := view.left.kept_node kept₃ not₀
        refine (setKid_meets set₀.shape_node (by simp)
          (left₃.spells.live left₃.spells.root_mem)).to fun _ r₄ set₁ => ?_
        refine (setCode_meets set₁.shape_node slots).to fun _ r₅ coded => ?_
        refine (fired_meets linked .commute n).to fun _ r' noted => ?_
        have kept : Kept linked r r' [n] := ((kept₃.trans set₁.kept_node .refl).trans
          coded.kept_node .refl).trans noted.kept_same .refl
        have final : r'.shape linked n = some (.fresh op' t attrs [[k₁], [k₀]]) := by
          rw [noted.shape, coded.shape_node]
          rfl
        have distinct : (n :: (below₁ ++ below₀)).Nodup :=
          (List.perm_append_comm.cons n).nodup_iff.mp view.distinct
        refine ⟨op', rfl, trivial, trivial, _, _, .of_operands (view.right.kept_node kept not₁)
          (view.left.kept_node kept not₀) distinct final (swaps op' swapped), fun m mem => .inl ?_,
          kept.mono (by simp), rfl⟩
        exact (List.perm_append_comm.cons n).mem_iff.mp mem

/-! ### Literals on the right -/

theorem setLiteral_meets {w : Word} (h : Stands linked l r (.lit q v) k ns)
    (typed : (Term.lit q w).typed l = true) :
    Meets (modifyNode k (·.setLiteral (.int w))) r F fun _ r' =>
      Stands linked l r' (.lit q w) k ns ∧ Kept linked r r' ns := by
  obtain ⟨rfl, attrs, shape, _⟩ := h.spells
  have change (parent : Option NodeId) (record : Option RecordId) :
      (⟨.const, q, attrs, [], parent, none, record, none⟩ : Node).setLiteral (.int w) =
      ⟨.const, q, { attrs with value := some (.int w) }, [], parent, none, record, none⟩ := rfl
  refine (modifyNode_meets shape change).to fun _ r' edited => ?_
  exact ⟨⟨⟨rfl, _, edited.shape_node, rfl⟩, typed, edited.grown.layout.trans h.layout,
    edited.grown.calm h.calm⟩, edited.kept_node⟩

/-- Another operation, and another literal on the right. -/
theorem recode_meets {w : Word}
    (h : Operands linked l r op t a (.lit q v) n k₀ k₁ d d₀ d₁ below₀ below₁)
    (binary : op.isBinary = true) (typed : (Term.binary op' t a (.lit q w)).typed l = true) :
    Meets (setCode n op') r F fun _ r₁ =>
      Meets (modifyNode k₁ (·.setLiteral (.int w))) r₁ F fun _ r' =>
        Turns linked l r (n :: (below₀ ++ below₁)) (fun e => e = .binary op' t a (.lit q w)) n
          r' := by
  have slots : op.numSlots = op'.numSlots := by
    rw [numSlots_of_isBinary binary, numSlots_of_isBinary (Term.isBinary_of_typed typed)]
  obtain ⟨not₀, not₁, cross⟩ := h.apart
  obtain ⟨attrs, shape⟩ := h.shape
  refine (setCode_meets shape slots).to fun _ r₁ coded => ?_
  have left := h.left.kept_node coded.kept_node not₀
  have right := h.right.kept_node coded.kept_node not₁
  refine (setLiteral_meets right (Term.typed_binary.mp typed).2.1).to fun _ r' changed => ?_
  obtain ⟨literal, kept⟩ := changed
  have final : r'.shape linked n = some (.fresh op' t attrs [[k₀], [k₁]]) := by
    rw [kept.shape n not₁ (Region.lt_size_of_shape coded.shape_node), coded.shape_node]
  refine ⟨_, _, .of_operands (left.kept kept cross) literal h.distinct final typed, .refl, ?_, rfl⟩
  refine (coded.kept_node.mono (by simp)).trans (kept.mono fun m mem => ?_) .refl
  exact List.mem_cons_of_mem n (List.mem_append_right below₀ mem)

/-- A new literal is put in as the right operand. -/
theorem replaceRight_meets {k' : NodeId}
    (h : Operands linked l r op t a b n k₀ k₁ d d₀ d₁ below₀ below₁)
    (typed : (Term.binary op t a b).typed l = true)
    (typed' : (Term.binary op t a (.lit q v)).typed l = true)
    (literal : Stands linked l r₁ (.lit q v) k' [k']) (fresh : r.nodes.size ≤ k'.index)
    (kept : Kept linked r r₁ []) :
    Meets (discard (takeKid n 1)) r₁ (fun _ => linked = .live) fun _ r₂ =>
      Meets (discardTree k₁) r₂ (fun _ => linked = .live) fun _ r₃ =>
        Meets (setKid n 1 (some k')) r₃ (fun _ => linked = .live) fun _ r' =>
          Turns linked l r (n :: (below₀ ++ below₁)) (fun e => e = .binary op t a (.lit q v)) n
            r' := by
  obtain ⟨attrs, shape⟩ := h.shape
  have inside := Region.lt_size_of_shape shape
  have shape₁ : r₁.shape linked n = some (.fresh op t attrs [[k₀], [k₁]]) := by
    rw [kept.shape n List.not_mem_nil inside, shape]
  obtain ⟨_, _, _, view⟩ := Operands.of_shape (h.left.kept kept fun _ _ => List.not_mem_nil)
    (h.right.kept kept fun _ _ => List.not_mem_nil) h.distinct shape₁ typed
  have new : k' ∉ n :: (below₀ ++ below₁) := by
    have old := (Stands.of_operands h.left h.right h.distinct shape typed).lt_size (m := k')
    intro mem
    have := old mem
    omega
  simp only [List.mem_cons, List.mem_append, not_or] at new
  refine emptyRight_meets view fun r₃ attrs' shape₃ left dropped => ?_
  have literal₃ : Stands linked l r₃ (.lit q v) k' [k'] := by
    refine literal.kept dropped fun m mem => ?_
    rw [List.mem_singleton.mp mem]
    simp [new]
  have distinct : (n :: (below₀ ++ [k'])).Nodup := by
    refine List.nodup_cons.mpr ⟨?_, h.left.spells.nodup.append (List.nodup_singleton k') ?_⟩
    · simp [h.apart.1, Ne.symm new.1]
    · exact fun m mem last => new.2.1 (List.mem_singleton.mp last ▸ mem)
  refine (fillRight_meets shape₃ left literal₃ distinct typed').to fun _ r' filled => ?_
  obtain ⟨stands, last⟩ := filled
  have whole : Kept linked r₁ r' (n :: below₁) :=
    dropped.trans last fun m mem => .inl (by simp_all)
  refine ⟨_, _, stands, ?_, ?_, rfl⟩
  · intro m mem
    simp only [List.mem_cons, List.mem_append, List.not_mem_nil, or_false] at mem ⊢
    rcases mem with rfl | mem | rfl
    · exact .inl (.inl rfl)
    · exact .inl (.inr (.inl mem))
    · exact .inr fresh
  · refine (kept.mono fun _ mem => absurd mem List.not_mem_nil).trans
      (whole.mono fun m mem => ?_) .refl
    rcases List.mem_cons.mp mem with rfl | mem
    · exact List.mem_cons_self
    · exact List.mem_cons_of_mem n (List.mem_append_right below₀ mem)

end Peephole
