import Peephole.Proofs.Binary

/-!
# Folding

Folding a tree leaves its value as it is and makes the tree smaller, if it changes
anything.
-/

namespace Peephole

open Edit

variable {linked : Links} {l : Layout} {r r' r₁ : Region} {e e' a b : Term} {n k : NodeId}
  {ns : List NodeId} {F : Fault → Prop} {op : Op} {t q : Ty} {v w : Word} {s : Setting}

/-- A step on the tree at `n`, which stood for `e`, did not fire, or put a tree in place that
stands for a term with `R`. -/
def Stepped (linked : Links) (l : Layout) (r : Region) (e : Term) (n : NodeId) (ns : List NodeId)
    (R : Term → Prop) : Option NodeId → Region → Prop
  | none => Turns linked l r ns (fun e' => e' = e) n
  | some n' => Turns linked l r ns R n'

/-- A step on trees that stand for `e` ends in terms with `R`, if it fires. -/
def Sound (linked : Links) (l : Layout) (R : Term → Prop) (step : Step) (e : Term) : Prop :=
  ∀ r n ns, Stands linked l r e n ns →
    Meets (step n) r (fun _ => linked = .live) (Stepped linked l r e n ns R)

/-- `e'` may stand in place of `e`, is smaller and makes less work. -/
structure Smaller (l : Layout) (e e' : Term) : Prop where
  refines : e.Refines l e'
  size : e'.size < e.size
  work : e'.work < e.work ∨ e'.work = 0 ∧ e.work = 0

theorem Smaller.work_le (h : Smaller l e e') : e'.work ≤ e.work := by
  rcases h.work with less | ⟨none, _⟩ <;> omega

theorem Smaller.trans {e'' : Term} (first : Smaller l e e') (second : Smaller l e' e'') :
    Smaller l e e'' := by
  refine ⟨first.refines.trans second.refines, second.size.trans first.size, ?_⟩
  rcases first.work with less | both <;> rcases second.work with less' | both' <;> omega

theorem Smaller.literal (refines : (Term.binary op t a b).Refines l (.lit q v)) :
    Smaller l (.binary op t a b) (.lit q v) := by
  have pos := @Term.work_pos a b t op
  have posA := @Term.size_pos a
  exact ⟨refines, by simp only [Term.size]; omega, .inl (by simpa [Term.work] using pos)⟩

theorem Smaller.left (refines : (Term.binary op t a b).Refines l a) :
    Smaller l (.binary op t a b) a :=
  ⟨refines, by simp only [Term.size]; omega, .inl Term.work_left⟩

theorem require_meets (v : Violation) : Meets (require s true v) r F fun x r' =>
    x = true ∧ r' = r :=
  ⟨rfl, rfl⟩

theorem byteSize_le (small : t.isSmall = true) : t.byteSize l ≤ 8 := by
  have := Ty.bits_of_isSmall l small
  omega

/-- Operations on two literals of small types. -/
theorem foldIntBinary_meets {d d₀ d₁ : Node}
    (h : Stands linked l r (.binary op t (.lit q v) (.lit q w)) n ns)
    (reads : Reads d (.binary op t (.lit q v) (.lit q w))) (reads₀ : Reads d₀ (.lit q v))
    (reads₁ : Reads d₁ (.lit q w)) :
    Meets (foldIntBinary s d d₀ d₁ v w n) r (fun _ => linked = .live)
      (Stepped linked l r (.binary op t (.lit q v) (.lit q w)) n ns
        (Smaller l (.binary op t (.lit q v) (.lit q w)))) := by
  have small : q.isSmall = true := Term.isSmall_of_typed (Term.typed_binary.mp h.typed).1
  have smallT : t.isSmall = true := Term.isSmall_of_typed h.typed
  have code : d.code = op := reads.code
  have ty : d.ty = t := reads.ty
  have ty₀ : d₀.ty = q := reads₀.ty
  have ty₁ : d₁.ty = q := reads₁.ty
  unfold foldIntBinary
  simp only [meets_bind, Edit.layout, meets_get, meets_pure, h.layout, code, ty, ty₀, ty₁, max_self,
    Bool.or_self, byteSize_le small, decide_true]
  refine (require_meets _).to ?_
  rintro _ _ ⟨rfl, rfl⟩
  rw [if_pos rfl]
  cases result : intBinary op v w q.isUnsigned (q.byteSize l * 8) with
  | none => exact h.turns rfl
  | some x =>
    have refines := Term.refines_fold_binary h.typed result
    simp only [meets_bind, intResult, Edit.layout, meets_get, meets_pure, h.layout,
      Ty.kind_of_isSmall smallT, Bool.false_eq_true, if_false, meets_lift, yields_ok,
      Ty.normalizeInt_of_isInt l (Ty.isInt_of_isSmall smallT)]
    exact replaceByLiteral_meets _ h refines.typed (.literal refines)

theorem foldBinary_sound : Sound linked l (Smaller l (.binary op t a b)) (foldBinary s)
    (.binary op t a b) := by
  intro r n ns h
  obtain ⟨k₀, k₁, d, d₀, d₁, below₀, below₁, rfl, view⟩ := h.operands
  have same := (Term.typed_binary.mp h.typed).2.2.1
  unfold foldBinary
  simp only [meets_bind, view.node_meets, view.operands_meets, view.node₀_meets, view.node₁_meets,
    view.reads₀.floatLit, view.reads₀.intLit, view.reads₁.intLit]
  split
  · contradiction
  · cases lit₀ : a.lit? with
    | none => exact h.turns rfl
    | some x =>
      cases lit₁ : b.lit? with
      | none => exact h.turns rfl
      | some y =>
        obtain ⟨q, rfl⟩ := Term.lit?_eq_some.mp lit₀
        obtain ⟨q', rfl⟩ := Term.lit?_eq_some.mp lit₁
        obtain rfl : q' = q := same
        exact foldIntBinary_meets h view.reads view.reads₀ view.reads₁

theorem foldUnary_sound : Sound linked l (Smaller l (.unary op t a)) (foldUnary s)
    (.unary op t a) := by
  intro r n ns h
  obtain ⟨d, found, reads⟩ := h.reads
  obtain ⟨k, below, attrs, rfl, shape, kid, stands, _⟩ := h.operand
  obtain ⟨d₀, found₀, reads₀⟩ := stands.reads
  have code : d.code = op := reads.code
  have ty : d.ty = t := reads.ty
  have smallT : t.isSmall = true := Term.isSmall_of_typed h.typed
  unfold foldUnary
  simp only [meets_bind, Edit.node, Edit.kid, meets_ask, Region.node_of found, kid, yields_ok,
    Region.node_of found₀, reads₀.floatLit, reads₀.intLit]
  split
  · contradiction
  · cases lit : a.lit? with
    | none => exact h.turns rfl
    | some x =>
      obtain ⟨q, rfl⟩ := Term.lit?_eq_some.mp lit
      have small : q.isSmall = true := Term.isSmall_of_typed stands.typed
      have ty₀ : d₀.ty = q := reads₀.ty
      unfold foldIntUnary
      simp only [meets_bind, Edit.layout, meets_get, meets_pure, h.layout, code, ty, ty₀,
        byteSize_le small, decide_true]
      refine (require_meets _).to ?_
      rintro _ _ ⟨rfl, rfl⟩
      simp only [if_true, Ty.isInt_of_isSmall smallT, Bool.not_true, Bool.false_eq_true, if_false]
      cases result : intUnary op x with
      | none => exact h.turns rfl
      | some y =>
        have other : op ≠ .cvt := by
          rintro rfl
          simp [intUnary] at result
        have refines :=
          Term.refines_fold_unary h.typed (v := y) (by simp [Op.onWord, other, result])
        simp only [meets_bind, meets_lift, yields_ok, meets_pure,
          Ty.normalizeInt_of_isInt l (Ty.isInt_of_isSmall smallT)]
        exact replaceByLiteral_meets _ h refines.typed
          ⟨refines, by simp only [Term.size]; omega, .inr ⟨rfl, rfl⟩⟩

/-- No term is the address of a string. -/
theorem isStringAddress_of_reads {d : Node} (h : Reads d e) (typed : e.typed l = true) :
    r.isStringAddress d = .ok false := by
  have other : e.code ≠ .lda := by
    have kind := Term.kind_code typed
    intro lda
    cases e <;> simp_all [Term.kind, Op.kind, Op.isUnary, Op.isBinary, Term.code]
  unfold Region.isStringAddress
  rw [h.code]
  split <;> simp_all

section substitute

variable {k₀ k₁ : NodeId} {d d₀ d₁ : Node} {below₀ below₁ : List NodeId}

theorem substituteOrder_meets (h : Stands linked l r (.binary op t a b) n ns)
    (view : Operands linked l r op t a b n k₀ k₁ d d₀ d₁ below₀ below₁)
    (order : op = .lt ∨ op = .ge) :
    Meets (if (d₀.ty.isUnsigned && d₁.isIntLit 0#64) = true then do
        fired .unsignedVsZero n
        let new ← replaceByInt n (Word.ofBool (op == .ge))
        pure (some new)
      else pure none) r (fun _ => linked = .live)
      (Stepped linked l r (.binary op t a b) n ns (Smaller l (.binary op t a b))) := by
  split
  · rename_i fires
    simp only [Bool.and_eq_true, view.reads₀.ty, view.reads₁.isIntLit] at fires
    obtain ⟨unsigned, q, rfl⟩ := fires
    have refines := Term.refines_unsigned_zero h.typed unsigned order
    simp only [meets_bind, meets_pure]
    exact replaceByInt_meets _ h refines.typed (.literal refines)
  · exact h.turns rfl

theorem substituteShift_meets (h : Stands linked l r (.binary op t a b) n ns)
    (view : Operands linked l r op t a b n k₀ k₁ d d₀ d₁ below₀ below₁)
    (shift : op.isShift = true) :
    Meets (if (d₀.isIntLit 0#64 || d₁.isIntLit 0#64) = true then do
        fired .shiftZero n
        let new ← spliceKid n 0
        pure (some new)
      else if op ≠ .lsl then pure none
      else do
        let bits ← d₀.ty.bitWidth (← layout)
        if d₁.isIntLit (BitVec.ofNat 64 bits) = true then do
          fired .shiftOutAllBits n
          let new ← replaceByInt n 0#64
          pure (some new)
        else pure none) r (fun _ => linked = .live)
      (Stepped linked l r (.binary op t a b) n ns (Smaller l (.binary op t a b))) := by
  have parts := Term.typed_binary.mp h.typed
  have small := Term.isSmall_of_typed parts.1
  split
  · rename_i zero
    simp only [Bool.or_eq_true, view.reads₀.isIntLit, view.reads₁.isIntLit] at zero
    simp only [meets_bind, meets_pure]
    refine spliceNoted_meets _ (.left op t b) h (.left ?_)
    rcases zero with ⟨q, rfl⟩ | ⟨q, rfl⟩
    · exact Term.refines_zero_shift h.typed shift
    · exact Term.refines_shift_zero h.typed shift
  · split
    · exact h.turns rfl
    · rename_i left
      obtain rfl : op = .lsl := not_not.mp left
      simp only [meets_bind, Edit.layout, meets_get, meets_pure, h.layout, meets_lift,
        view.reads₀.ty, Ty.bitWidth_small l small, yields_ok]
      split
      · rename_i out
        obtain ⟨q, rfl⟩ := view.reads₁.isIntLit.mp out
        obtain rfl : q = a.ty := parts.2.2.1
        have refines := Term.refines_shift_out h.typed
        simp only [meets_bind, meets_pure]
        exact replaceByInt_meets _ h refines.typed (.literal refines)
      · exact h.turns rfl

theorem substituteBinary_sound : Sound linked l (Smaller l (.binary op t a b)) substituteBinary
    (.binary op t a b) := by
  intro r n ns h
  obtain ⟨k₀, k₁, d, d₀, d₁, below₀, below₁, rfl, view⟩ := h.operands
  have code : d.code = op := view.reads.code
  have noString (x y : Node) : r.isStringAddress x = .ok false →
      Meets (stringAddressAndNull x y) r (fun _ => linked = .live) fun z r' =>
        z = false ∧ r' = r := by
    intro no
    simp [stringAddressAndNull, no]
  have equality : Meets (do
      if ← stringAddressAndNull d₀ d₁ <||> stringAddressAndNull d₁ d₀ then
        fired .stringAddressVsNull n
        return some (← replaceByInt n (Word.ofBool (op == .ne)))
      return none) r (fun _ => linked = .live)
      (Stepped linked l r (.binary op t a b) n (n :: (below₀ ++ below₁))
        (Smaller l (.binary op t a b))) := by
    rw [meets_bind, meets_or]
    refine (noString _ _ (isStringAddress_of_reads view.reads₀ view.left.typed)).to ?_
    rintro _ _ ⟨rfl, rfl⟩
    rw [if_neg Bool.false_ne_true]
    refine (noString _ _ (isStringAddress_of_reads view.reads₁ view.right.typed)).to ?_
    rintro _ _ ⟨rfl, rfl⟩
    exact h.turns rfl
  unfold substituteBinary
  simp only [meets_bind, view.node_meets, view.operands_meets, view.node₀_meets, view.node₁_meets,
    code]
  cases op with
  | lt => exact substituteOrder_meets h view (.inl rfl)
  | ge => exact substituteOrder_meets h view (.inr rfl)
  | eq => exact equality
  | ne => exact equality
  | asr => exact substituteShift_meets h view rfl
  | lsr => exact substituteShift_meets h view rfl
  | lsl => exact substituteShift_meets h view rfl
  | _ => exact h.turns rfl

end substitute

theorem foldNode_sound : Sound linked l (Smaller l e) (foldNode s) e := by
  intro r n ns h
  obtain ⟨d, found, reads⟩ := h.reads
  unfold foldNode
  simp only [meets_bind, Edit.node, meets_ask, Region.node_of found, yields_ok, reads.code]
  cases e with
  | unary op t a =>
    obtain ⟨_, fits⟩ := Term.typed_unary.mp h.typed
    cases op with
    | neg => exact foldUnary_sound r n ns h
    | lnot => exact foldUnary_sound r n ns h
    | bnot => exact foldUnary_sound r n ns h
    | cvt => exact h.turns rfl
    | _ => exact absurd fits Bool.false_ne_true
  | binary op t a b =>
    have binary : (Term.binary op t a b).code.isBinary = true := Term.isBinary_of_typed h.typed
    rw [if_pos binary, meets_bind]
    refine (foldBinary_sound r n ns h).to fun out r' folded => ?_
    cases out with
    | some n' => exact folded
    | none =>
      obtain ⟨_, ns', stands, within, kept, rfl⟩ := folded
      refine (substituteBinary_sound r' n ns' stands).to fun out r'' turned => ?_
      cases out with
      | none => exact Turns.trans within kept turned
      | some n' => exact Turns.trans within kept turned
  | _ => exact h.turns rfl

/-! ### Operands -/

namespace Place

variable {a' : Term}

theorem refines_fill (place : Place) (h : (place.fill a).typed l = true) (below : a.Refines l a') :
    (place.fill a).Refines l (place.fill a') := by
  cases place with
  | operand op ty => exact .unary h below
  | left op ty b => exact .binary h below (.refl (Term.typed_binary.mp h).2.1)
  | right op ty b => exact .binary h (.refl (Term.typed_binary.mp h).1) below
  | pred ty b c =>
    obtain ⟨_, typedB, typedC, _⟩ := Term.typed_select.mp h
    exact .select h below.decides (.refl typedB) (.refl typedC)
  | yes ty p c =>
    obtain ⟨typedP, _, typedC, _⟩ := Term.typed_select.mp h
    exact .select h (Term.Refines.refl typedP).decides below (.refl typedC)
  | no ty p b =>
    obtain ⟨typedP, typedB, _⟩ := Term.typed_select.mp h
    exact .select h (Term.Refines.refl typedP).decides (.refl typedB) below

theorem smaller_fill (place : Place) (h : (place.fill a).typed l = true) (below : Smaller l a a') :
    Smaller l (place.fill a) (place.fill a') := by
  have size := below.size
  have work := below.work_le
  refine ⟨refines_fill place h below.refines, ?_, ?_⟩
  · cases place <;> simp only [fill, Term.size] <;> omega
  · cases place with
    | left op ty b => exact .inl (Term.work_lt_operands size.le le_rfl work le_rfl (.inl size))
    | right op ty b => exact .inl (Term.work_lt_operands le_rfl size.le le_rfl work (.inr size))
    | _ => exact .inr ⟨rfl, rfl⟩

end Place

/-- What folding makes of a term. -/
def Folded (l : Layout) (e : Term) (changed : Bool) (e' : Term) : Prop :=
  if changed then Smaller l e e' else e' = e

theorem Folded.trans {e'' : Term} {c c' : Bool} (first : Folded l e c e')
    (second : Folded l e' c' e'') : Folded l e (c || c') e'' := by
  cases c <;> cases c' <;> simp only [Folded, Bool.false_eq_true, if_true, if_false] at *
  · exact second.trans first
  · exact first ▸ second
  · exact second ▸ first
  · exact first.trans second

theorem Folded.fill (place : Place) {a' : Term} {c : Bool} (h : (place.fill a).typed l = true)
    (below : Folded l a c a') : Folded l (place.fill a) c (place.fill a') := by
  cases c with
  | false => exact congrArg place.fill below
  | true => exact Place.smaller_fill place h below

theorem isStmt_of_typed (h : e.typed l = true) : e.code.isStmt = false := by
  cases e with
  | unary op t a =>
    have fits := (Term.typed_unary.mp h).2
    cases op <;> first | rfl | exact absurd fits Bool.false_ne_true
  | binary op t a b =>
    have binary := Term.isBinary_of_typed h
    cases op <;> first | rfl | exact absurd binary Bool.false_ne_true
  | _ => rfl

/-- A pass that folds the trees that stand for `a`. A tree that is not changed keeps its root. -/
def Folds (linked : Links) (l : Layout) (pass : Pass) (a : Term) : Prop :=
  ∀ r k below, Stands linked l r a k below → Meets (pass k) r (fun _ => linked = .live)
    fun out r' =>
    Turns linked l r below (Folded l a out.2) out.1 r' ∧ (out.2 = false → out.1 = k)

theorem foldSlot_meets {pass : Pass} (place : Place) (h : Stands linked l r (place.fill a) n ns)
    (folds : Folds linked l pass a) :
    Meets (foldSlot pass n place.slot) r (fun _ => linked = .live) fun changed r' =>
      Turns linked l r ns (fun e => ∃ a', e = place.fill a' ∧ Folded l a changed a') n r' := by
  have distinct := h.spells.nodup
  obtain ⟨k, before, below, after, attrs, slots, rfl, around, above, stands, apart, _⟩ :=
    h.unfill place
  obtain ⟨parent, record, found, _⟩ := Region.node?_of_shape above
  obtain ⟨d, found', reads⟩ := stands.reads
  have kids : r.kids n place.slot = .ok [k] := Region.kids_of found (around.slot_eq k)
  have typed (c : Bool) (a' : Term) : a'.typed l = true → Folded l a c a' →
      (place.fill a').typed l = true := by
    intro _ folded
    cases c with
    | false => exact (show a' = a from folded) ▸ h.typed
    | true =>
      exact (Place.refines_fill place h.typed (show Smaller l a a' from folded).refines).typed
  have expr : d.isStmt = false := by
    rw [Node.isStmt, reads.code, isStmt_of_typed stands.typed]
  unfold foldSlot
  simp only [meets_bind, Edit.kids, meets_ask, kids, yields_ok, List.anyM, isStmt, Edit.node,
    Region.node_of found', expr, meets_pure, Bool.false_eq_true, if_false, List.mapM_cons,
    List.mapM_nil, List.any_cons, List.any_nil, Bool.or_false, List.map_cons, List.map_nil]
  refine (folds r k below stands).to fun out r' folded => ?_
  obtain ⟨k', changed⟩ := out
  obtain ⟨inner, same⟩ := folded
  cases changed with
  | false =>
    obtain rfl : k' = k := same rfl
    exact Turns.refill around above distinct inner (.inl ⟨rfl, rfl⟩) (typed false)
  | true =>
    obtain ⟨above', live, other⟩ := inner.above above apart
    have inside : place.slot < (slots k).length :=
      (List.getElem?_eq_some_iff.mp (around.slot_eq k)).1
    simp only [if_true, meets_bind, meets_pure]
    refine (setKids_meets above' inside (by simpa using live) (by simpa using other.symm)).to ?_
    intro _ r'' edited
    rw [around.set_slot] at edited
    exact Turns.refill around above distinct inner (.inr edited) (typed true)

section within

variable {fuel : Nat} {code : Op} {attrs : Attrs} {slots : List (List NodeId)}

/-- Once the operands are folded, the node itself is. -/
theorem foldWithin_succ
    (shape : r.shape linked n = some (.fresh code t attrs slots))
    (operands : Meets (someOf (foldSlot (foldWithin s fuel) n) (List.range slots.length)) r
      (fun _ => linked = .live) fun changed r' => Turns linked l r ns (Folded l e changed) n r') :
    Meets (foldWithin s (fuel + 1) n) r (fun _ => linked = .live) fun out r' =>
      Turns linked l r ns (Folded l e out.2) out.1 r' ∧ (out.2 = false → out.1 = n) := by
  obtain ⟨parent, record, found, _⟩ := Region.node?_of_shape shape
  unfold foldWithin
  simp only [meets_bind, Edit.node, meets_ask, Region.node_of found, yields_ok]
  refine operands.to fun changed r₁ below => ?_
  obtain ⟨e₁, ns₁, stands, within, kept, folded⟩ := below
  refine (foldNode_sound r₁ n ns₁ stands).to fun out r' step => ?_
  cases out with
  | none =>
    refine ⟨Turns.trans within kept (step.imp ?_), fun _ => rfl⟩
    rintro _ _ rfl
    exact folded
  | some n' =>
    refine ⟨Turns.trans within kept (step.imp fun e' _ smaller => ?_), fun off =>
      Bool.noConfusion off⟩
    have both := folded.trans (show Folded l e₁ true e' from smaller)
    rwa [Bool.or_true] at both

theorem foldWithin_leaf (h : Stands linked l r e n ns)
    (shape : r.shape linked n = some (.fresh code t attrs [])) :
    Meets (foldWithin s (fuel + 1) n) r (fun _ => linked = .live) fun out r' =>
      Turns linked l r ns (Folded l e out.2) out.1 r' ∧ (out.2 = false → out.1 = n) :=
  foldWithin_succ shape (h.turns rfl)

/-- The address or the pointer below a load is no term: it has no operands and is folded by no
rule. -/
theorem foldWithin_over {code' : Op} {t' : Ty} {attrs' : Attrs} {k : NodeId}
    (h : Stands linked l r e n ns) (shape : r.shape linked n = some (.fresh code t attrs [[k]]))
    (shape' : r.shape linked k = some (.fresh code' t' attrs' []))
    (known : code' = .lda ∨ code' = .pr) :
    Meets (foldWithin s (fuel + 2) n) r (fun _ => linked = .live) fun out r' =>
      Turns linked l r ns (Folded l e out.2) out.1 r' ∧ (out.2 = false → out.1 = n) := by
  refine foldWithin_succ shape ?_
  obtain ⟨parent, record, found, _⟩ := Region.node?_of_shape shape
  obtain ⟨parent', record', found', _⟩ := Region.node?_of_shape shape'
  have below : Meets (foldWithin s (fuel + 1) k) r (fun _ => linked = .live) fun out r' =>
      out = (k, false) ∧ r' = r := by
    rcases known with rfl | rfl <;>
      simp [foldWithin, foldNode, Edit.node, Region.node_of found', Op.isBinary]
  have expr : code'.isStmt = false := by rcases known with rfl | rfl <;> rfl
  have slots : List.range [[k]].length = [0] := rfl
  have kids : r.kids n 0 = .ok [k] := Region.kids_of found rfl
  rw [slots, meets_someOf_cons]
  simp only [foldSlot, meets_bind, Edit.kids, meets_ask, kids, yields_ok, List.anyM, isStmt,
    Edit.node, Region.node_of found', Node.isStmt, expr, meets_pure, Bool.false_eq_true,
    if_false, List.mapM_cons, List.mapM_nil]
  refine below.to ?_
  rintro _ _ ⟨rfl, rfl⟩
  exact h.turns rfl

theorem foldWithin_folds (deep : e.size ≤ fuel) : Folds linked l (foldWithin s fuel) e := by
  induction e generalizing fuel with
  | lit ty v =>
    intro r n ns h
    obtain ⟨fuel, rfl⟩ := Term.exists_succ_of_size_le deep
    obtain ⟨_, attrs, shape, _⟩ := h.spells
    exact foldWithin_leaf h shape
  | reg ty q =>
    intro r n ns h
    obtain ⟨fuel, rfl⟩ := Term.exists_succ_of_size_le deep
    obtain ⟨_, attrs, shape, _⟩ := h.spells
    exact foldWithin_leaf h shape
  | load ty x o =>
    intro r n ns h
    obtain ⟨fuel, rfl⟩ := Term.exists_succ_of_size_le deep
    obtain ⟨_, attrs, shape, _⟩ := h.spells
    exact foldWithin_leaf h shape
  | indirect ty x base o =>
    intro r n ns h
    obtain ⟨fuel, rfl⟩ := Nat.exists_eq_add_of_le' deep
    obtain ⟨_, k, _, ⟨attrs, shape, _⟩, ty', attrs', shape', _⟩ := h.spells
    exact foldWithin_over h shape shape' (.inl rfl)
  | through ty q o =>
    intro r n ns h
    obtain ⟨fuel, rfl⟩ := Nat.exists_eq_add_of_le' deep
    obtain ⟨_, k, _, ⟨attrs, shape, _⟩, ty', attrs', shape', _⟩ := h.spells
    exact foldWithin_over h shape shape' (.inr rfl)
  | unary op ty a ih =>
    intro r n ns h
    obtain ⟨fuel, rfl⟩ := Term.exists_succ_of_size_le deep
    obtain ⟨k, below, attrs, _, shape, _⟩ := h.operand
    have folds : Folds linked l (foldWithin s fuel) a :=
      ih (by simp only [Term.size] at deep; omega)
    refine foldWithin_succ shape ?_
    have slots : List.range [[k]].length = [0] := rfl
    rw [slots, meets_someOf_cons]
    refine (foldSlot_meets (.operand op ty) h folds).to fun changed r' turned => ?_
    simp only [meets_someOf_nil, Bool.or_false]
    refine turned.imp ?_
    rintro _ _ ⟨a', rfl, folded⟩
    exact folded.fill (.operand op ty) h.typed
  | binary op ty a b ihA ihB =>
    intro r n ns h
    obtain ⟨fuel, rfl⟩ := Term.exists_succ_of_size_le deep
    simp only [Term.size] at deep
    have foldsA : Folds linked l (foldWithin s fuel) a := ihA (by omega)
    have foldsB : Folds linked l (foldWithin s fuel) b := ihB (by omega)
    obtain ⟨_, k₀, _, k₁, _, attrs, _, shape, _⟩ := h.spells
    refine foldWithin_succ shape ?_
    have slots : List.range [[k₀], [k₁]].length = [0, 1] := rfl
    rw [slots, meets_someOf_cons]
    refine (foldSlot_meets (.left op ty b) h foldsA).to fun left r₁ turned => ?_
    refine Turns.next turned fun _ ns₁ h₁ same => ?_
    obtain ⟨a', rfl, foldedA⟩ := same
    rw [meets_someOf_cons]
    refine (foldSlot_meets (.right op ty a') h₁ foldsB).to fun right r' turned' => ?_
    simp only [meets_someOf_nil, Bool.or_false]
    refine turned'.imp ?_
    rintro _ _ ⟨b', rfl, foldedB⟩
    exact (foldedA.fill (.left op ty b) h.typed).trans (foldedB.fill (.right op ty a') h₁.typed)
  | select ty p a b ihP ihA ihB =>
    intro r n ns h
    obtain ⟨fuel, rfl⟩ := Term.exists_succ_of_size_le deep
    simp only [Term.size] at deep
    have foldsP : Folds linked l (foldWithin s fuel) p := ihP (by omega)
    have foldsA : Folds linked l (foldWithin s fuel) a := ihA (by omega)
    have foldsB : Folds linked l (foldWithin s fuel) b := ihB (by omega)
    obtain ⟨_, k₀, _, k₁, _, k₂, _, attrs, _, shape, _⟩ := h.spells
    refine foldWithin_succ shape ?_
    have slots : List.range [[k₀], [k₁], [k₂]].length = [0, 1, 2] := rfl
    rw [slots, meets_someOf_cons]
    refine (foldSlot_meets (.pred ty a b) h foldsP).to fun pred r₁ turned => ?_
    refine Turns.next turned fun _ ns₁ h₁ same => ?_
    obtain ⟨p', rfl, foldedP⟩ := same
    rw [meets_someOf_cons]
    refine (foldSlot_meets (.yes ty p' b) h₁ foldsA).to fun yes r₂ turned' => ?_
    refine Turns.next turned' fun _ ns₂ h₂ same => ?_
    obtain ⟨a', rfl, foldedA⟩ := same
    rw [meets_someOf_cons]
    refine (foldSlot_meets (.no ty p' a') h₂ foldsB).to fun no r' turned'' => ?_
    simp only [meets_someOf_nil, Bool.or_false]
    refine turned''.imp ?_
    rintro _ _ ⟨b', rfl, foldedB⟩
    exact (foldedP.fill (.pred ty a b) h.typed).trans
      ((foldedA.fill (.yes ty p' b) h₁.typed).trans (foldedB.fill (.no ty p' a') h₂.typed))

theorem foldTree_folds : Folds linked l (foldTree s) e := by
  intro r n ns h
  have size := h.spells.size_le
  simp only [foldTree, meets_bind, meets_get]
  exact foldWithin_folds (by unfold Region.depthBound; omega) r n ns h

end within

end Peephole
