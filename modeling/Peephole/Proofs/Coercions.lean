import Peephole.Proofs.Laws

/-!
# Conversions of operands

What fitting the operands of a binary node to its type, and balancing them, makes of its tree.
The conversions put in weigh less than the mismatch they end.
-/

namespace Peephole

open Edit Peephole.Tree

variable {F : Fault → Prop} {s : Setting} {r r' r₀ : Region} {n m k x y : NodeId} {i : Nat}
  {ns₀ : List NodeId} {ps : List Piece} {code : Op} {ty q q' : Ty} {attrs : Attrs}
  {a a' b b' t u : Tree} {ids : List (List NodeId)} {l : Layout} {v w : Nat}
  {up up' : Option NodeId} {slots : List (List Tree)} {known : Prop}

namespace Tree

/-- The tree `a'` is `a`, brought to the type `q` by `w` conversions. -/
structure Converted (l : Layout) (w : Nat) (q : Ty) (a a' : Tree) : Prop where
  ty : a'.ty = q
  potential : potential l a' = potential l a + 2 * w
  isConst : a'.isConst = (a.isConst && w == 0)
  formed : a.Formed → a'.Formed

/-- The tree itself if it is as wide as it has to be, else its conversion. -/
def widened (wide : Bool) (q : Ty) (a : Tree) : Tree := if wide then a else one .cvt q .none a

section mismatch

variable {rel : Bool} {t0 t1 : Ty}

theorem mismatch_of_unfit (h : (ty.unfit l t0 || ty.unfit l t1) = true) :
    18 ≤ mismatch l rel ty t0 t1 := by
  simp [mismatch, h]

theorem mismatch_of_unbalanced (ty : Ty) (h : t0.unbalanced l rel t1 = true) :
    9 ≤ mismatch l rel ty t0 t1 := by
  simp [mismatch, h]

theorem mismatch_of_fit (rel : Bool) (fit0 : ty.unfit l t0 = false) (fit1 : ty.unfit l t1 = false) :
    mismatch l rel ty t0 t1 ≤ 9 := by
  simp only [mismatch, fit0, fit1, Bool.or_self, Bool.false_eq_true, if_false]
  split <;> omega

theorem mismatch_of_calm (h : ty.Calm l rel t0 t1) : mismatch l rel ty t0 t1 = 0 := by
  obtain ⟨⟨fit0, fit1⟩, forth, back⟩ := h
  simp [mismatch, fit0, fit1, forth, back]

end mismatch

namespace Converted

theorem refl : Converted l 0 a.ty a a := ⟨rfl, rfl, by simp, id⟩

theorem cvt : Converted l 1 q a (one .cvt q .none a) := by
  refine ⟨rfl, ?_, by simp [Tree.isConst, Tree.code], .ofOne rfl⟩
  rw [potential_one, weight_cvt, factor_cvt]
  omega

theorem widened (wide : Bool) :
    Converted l (!wide).toNat (if wide then a.ty else q) a (a.widened wide q) := by
  cases wide
  · exact .cvt
  · exact .refl

theorem restamped {z : Word} (lit : a.top.intLit? = some z) (attrs : Attrs) :
    Converted l 0 q a (.node a.code q attrs a.slots) := by
  refine ⟨rfl, potential_const (intLit?_const lit) q _, by simp [Tree.isConst, Tree.code],
    fun formed => ?_⟩
  cases a with
  | node => exact formed.relaid rfl formed.kid _ _

theorem trans (first : Converted l v q a a') (second : Converted l w q' a' b) :
    Converted l (v + w) q' a b := by
  refine ⟨second.ty, ?_, ?_, second.formed ∘ first.formed⟩
  · rw [second.potential, first.potential]
    omega
  · rw [second.isConst, first.isConst]
    cases v <;> cases w <;> simp

/-- Operands are lowered by conversions that end more mismatch than they weigh. Only if the left
operand is not converted it may have to change places with the right one. -/
theorem lowers (binary : code.isBinary = true) (left : Converted l v q a a')
    (right : Converted l w q' b b')
    (cost : mismatch l code.isRelation ty q q' + 4 * (v + w) + (if v = 0 ∧ w ≠ 0 then 1 else 0) <
      mismatch l code.isRelation ty a.ty b.ty) :
    Lowers l 1 (two code ty attrs a b) (two code ty attrs a' b') := by
  have alike : exposure (two code ty attrs a b) (two code ty attrs a' b') = 0 :=
    exposure_eq_zero rfl rfl rfl
  have crosses : crossed code a' b' ≤ crossed code a b + if v = 0 ∧ w ≠ 0 then 1 else 0 := by
    simp only [crossed, left.isConst, right.isConst]
    cases v <;> cases w <;> simp
    split <;> omega
  rw [Lowers, alike, potential_two, potential_two, left.potential, right.potential]
  simp only [strain, binary, if_true, left.ty, right.ty]
  rcases factor_eq code with f | f <;> rw [f] <;> omega

end Converted

end Tree

namespace Forest

/-- Put the tree at `k` in place of the one that stood in slot `i`. -/
theorem refill {c : Bool} (slot : ids[i]? = some [x])
    (h : Placed r₀ ns₀ (.stub (.fresh code ty attrs ids) n up :: ps) x (some n) u k r) :
    Meets (do
      if k ≠ x then Edit.setKid n i (some k)
      return c) r F fun out r' => out = c ∧ Forest r₀ ns₀
        (.stub (.fresh code ty attrs (ids.set i [k])) n up :: .tree u k (some n) :: ps) r' := by
  obtain ⟨inside, at_i⟩ := List.getElem?_eq_some_iff.mp slot
  obtain ⟨up', same, h⟩ := h
  split
  · rw [meets_bind]
    exact (setKid inside h.swap).to fun _ r' h => ⟨rfl, h⟩
  · rename_i stays
    have stays : k = x := not_not.mp stays
    rw [same stays, stays] at h
    rw [stays, ← at_i, List.set_getElem_self]
    exact ⟨rfl, h.swap⟩

theorem literalType (h : Forest r₀ ns₀ ps r) :
    Meets (literalType q) r F fun q' r' =>
      q' = (if q.isPointer then .scalar r₀.layout.addressScalar else q) ∧ Forest r₀ ns₀ ps r' := by
  simp only [Peephole.literalType, Edit.layout]
  split
  · simp only [meets_bind, meets_get, meets_pure, h.layout]
    exact h.intern _
  · exact ⟨rfl, h⟩

/-- What fitting makes of an operand. -/
theorem fitOperand (h : Forest r₀ ns₀ (.tree a k up :: ps) r) :
    Meets (fitOperand s q k) r Fault.Proper fun out r' => ∃ a' w,
      w ≤ out.2.toNat ∧ out.2 = q.unfit r₀.layout a.ty ∧ (out.2 = false → a' = a) ∧
      Converted r₀.layout w (q.fitted r₀.layout a.ty a.top.intLit?.isSome) a a' ∧
      Placed r₀ ns₀ ps k up a' out.1 r' := by
  obtain ⟨d, found, tops, _⟩ := h.node List.mem_cons_self
  simp only [Peephole.fitOperand, Edit.node, Edit.layout, meets_bind, meets_ask, meets_get,
    meets_pure, Region.node_of found, yields_ok, tops.ty, tops.intLit?, h.layout]
  have idle {r : Region} (h : Forest r₀ ns₀ (.tree a k up :: ps) r)
      (fits : q.unfit r₀.layout a.ty = false) : ∃ a' w,
      w ≤ false.toNat ∧ false = q.unfit r₀.layout a.ty ∧ (false = false → a' = a) ∧
      Converted r₀.layout w (q.fitted r₀.layout a.ty a.top.intLit?.isSome) a a' ∧
      Placed r₀ ns₀ ps k up a' k r := by
    refine ⟨a, 0, Nat.le_refl 0, fits.symm, fun _ => rfl, ?_, up, fun _ => rfl, h⟩
    rw [Ty.fitted, fits]
    exact .refl
  split
  · rename_i void
    exact idle h (by simp [Ty.unfit, void])
  · rename_i void
    split
    · rename_i vector
      rw [meets_bind, meets_discard]
      exact (h.require _ _ _).to fun _ r' kept => idle kept.2 (by simp [Ty.unfit, vector])
    · rename_i vector
      split
      · rename_i float
        exact idle h (by simp [Ty.unfit, float])
      · rename_i float
        split
        · rename_i wide
          exact idle h (by simp [Ty.unfit, wide])
        · rename_i wide
          have fires : q.unfit r₀.layout a.ty = true := by
            simp [Ty.unfit, void, vector, float]
            omega
          split
          · rename_i literal
            simp only [Bool.and_eq_true, Bool.not_eq_true'] at literal
            obtain ⟨v, value⟩ := Option.isSome_iff_exists.mp literal.1
            refine Meets.bind h.literalType ?_
            rintro _ r₁ ⟨rfl, h⟩
            refine Meets.bind (h.restamp value) ?_
            rintro _ r₂ ⟨_, _, h⟩
            refine Meets.bind (h.fired _) fun _ r₃ h =>
              ⟨_, 0, by simp, fires.symm, fun off => Bool.noConfusion off, ?_, up, fun _ => rfl, h⟩
            simp only [Ty.fitted, fires, literal, Bool.not_false, Bool.and_self, Bool.true_and,
              if_true]
            exact .restamped value _
          · rename_i literal
            rw [meets_bind]
            refine (h.fired _).to fun _ r₁ h => ?_
            refine Meets.bind (h.convert q) ?_
            rintro m r₂ ⟨other, h⟩
            refine ⟨_, 1, by simp, fires.symm, fun off => Bool.noConfusion off, ?_, none,
              fun same => absurd same other, h⟩
            have type : q.fitted r₀.layout a.ty a.top.intLit?.isSome = q := by
              simp only [Ty.fitted, fires, literal, Bool.false_and, if_true]
              simp
            rw [type]
            exact .cvt

theorem fitSlot (slot : ids[i]? = some [x])
    (h : Forest r₀ ns₀ (.stub (.fresh code ty attrs ids) n up :: .tree a x (some n) :: ps) r) :
    Meets (fitSlot s n i q) r Fault.Proper fun changed r' => ∃ a' w x',
      w ≤ changed.toNat ∧ changed = q.unfit r₀.layout a.ty ∧ (changed = false → a' = a) ∧
      Converted r₀.layout w (q.fitted r₀.layout a.ty a.top.intLit?.isSome) a a' ∧
      Forest r₀ ns₀ (.stub (.fresh code ty attrs (ids.set i [x'])) n up ::
        .tree a' x' (some n) :: ps) r' := by
  obtain ⟨_, _, _, found⟩ := Region.node?_of_core (h.stub_found List.mem_cons_self)
  simp only [Peephole.fitSlot, Edit.kid, meets_bind, meets_ask, Region.kid_of found slot, yields_ok]
  refine h.swap.fitOperand.to ?_
  rintro ⟨x', changed⟩ r₁ ⟨a', w, few, fires, idle, converted, h⟩
  refine (refill slot h).to ?_
  rintro _ r₂ ⟨rfl, h⟩
  exact ⟨a', w, x', few, fires, idle, converted, h⟩

theorem wrapOperand (slot : ids[i]? = some [x])
    (h : Forest r₀ ns₀ (.stub (.fresh code ty attrs ids) n up :: .tree a x (some n) :: ps) r) :
    Meets (wrapOperand n i q) r F fun _ r' => ∃ x', Forest r₀ ns₀
      (.stub (.fresh code ty attrs (ids.set i [x'])) n up ::
        .tree (one .cvt q .none a) x' (some n) :: ps) r' := by
  obtain ⟨_, _, _, found⟩ := Region.node?_of_core (h.stub_found List.mem_cons_self)
  have inside := (List.getElem?_eq_some_iff.mp slot).1
  simp only [Peephole.wrapOperand, Edit.kid, meets_bind, meets_ask, Region.kid_of found slot,
    yields_ok, meets_discard]
  refine (takeKid slot h).to fun _ r₁ h => ?_
  refine (h.swap.convert q).to fun x' r₂ h => ?_
  refine (setKid (by simpa using inside) h.2.swap).to fun _ r₃ h => ?_
  rw [List.set_set] at h
  exact (h.fired _).to fun _ r₄ h => ⟨x', h⟩

/-- The operands `a` and `b` of a binary node after their types were balanced. -/
def Balanced (r₀ : Region) (ns₀ : List NodeId) (ps : List Piece) (code : Op) (ty : Ty)
    (attrs : Attrs) (a b : Tree) (n : NodeId) (up : Option NodeId) (fires : Bool)
    (r : Region) : Prop :=
  fires = a.ty.unbalanced r₀.layout code.isRelation b.ty ∧ ∃ a' b' v w,
    (v ≤ fires.toNat ∧ w ≤ fires.toNat) ∧
    (if fires then Converted r₀.layout v (a.ty.balanced r₀.layout b.ty).1 a a' ∧
      Converted r₀.layout w (a.ty.balanced r₀.layout b.ty).2 b b' else a' = a ∧ b' = b) ∧
    Forest r₀ ns₀ (.tree (two code ty attrs a' b') n up :: ps) r

theorem Balanced.idle (h : Forest r₀ ns₀ (.tree (two code ty attrs a b) n up :: ps) r)
    (calm : a.ty.unbalanced r₀.layout code.isRelation b.ty = false) :
    Balanced r₀ ns₀ ps code ty attrs a b n up false r :=
  ⟨calm.symm, a, b, 0, 0, ⟨Nat.le_refl 0, Nat.le_refl 0⟩, ⟨rfl, rfl⟩, h⟩

theorem balanceAddend (pointer : a.ty.isPointer = true)
    (compared : (a.ty.isVoid || b.ty.isVoid || a.ty = b.ty) = false)
    (plain : (a.ty.isChunk || b.ty.isChunk) = false)
    (h : Forest r₀ ns₀ (.tree (two code ty attrs a b) n up :: ps) r) :
    Meets (balanceAddend s n a.ty b.ty) r Fault.Proper
      (Balanced r₀ ns₀ ps code ty attrs a b n up) := by
  have due : a.ty.unbalanced r₀.layout code.isRelation b.ty =
      (a.ty.byteSize r₀.layout < b.ty.byteSize r₀.layout && b.ty.isPointerAddend) := by
    simp only [Ty.unbalanced, compared, plain, pointer, if_true]
    simp
  simp only [Peephole.balanceAddend, Edit.layout, meets_bind, meets_get, meets_pure, h.layout]
  split
  · rename_i narrow
    exact Balanced.idle h (by simp [due, narrow])
  · rename_i wide
    rw [meets_bind]
    refine (h.require _ _ _).to ?_
    rintro addend r₁ ⟨rfl, h⟩
    cases addend : b.ty.isPointerAddend with
    | false => exact Balanced.idle h (by simp [due, addend])
    | true =>
      obtain ⟨x, y, h⟩ := h.splitTwo
      simp only [if_true, meets_bind]
      refine (h.intern _).to ?_
      rintro _ r₂ ⟨rfl, h⟩
      refine (wrapOperand (i := 1) rfl h.swapNext).to ?_
      rintro _ r₃ ⟨y', h⟩
      have h := h.swapNext.joinTwo
      refine ⟨by simp [due, addend]; omega, a, _, 0, 1, by simp, ?_, h⟩
      simp only [if_true, Ty.balanced, pointer]
      exact ⟨.refl, .cvt⟩

/-- Bring one operand to a width. -/
theorem widen {wide : Bool} (slot : ids[i]? = some [x])
    (h : Forest r₀ ns₀ (.stub (.fresh code ty attrs ids) n up :: .tree a x (some n) :: ps) r) :
    Meets (do
      if wide then return false
      Peephole.wrapOperand n i q
      return true) r F fun out r' => out = !wide ∧ ∃ x', Forest r₀ ns₀
        (.stub (.fresh code ty attrs (ids.set i [x'])) n up ::
          .tree (a.widened wide q) x' (some n) :: ps) r' := by
  cases wide with
  | true =>
    refine ⟨rfl, x, ?_⟩
    obtain ⟨_, at_i⟩ := List.getElem?_eq_some_iff.mp slot
    rwa [← at_i, List.set_getElem_self]
  | false =>
    simp only [Bool.false_eq_true, if_false, meets_bind]
    refine (Forest.wrapOperand slot h).to ?_
    rintro _ r₁ ⟨x', h⟩
    exact ⟨rfl, x', h⟩

/-- Bring both operands to the width of their common type. -/
theorem widenOperands (type : a.ty.common r₀.layout b.ty = q)
    (h : Forest r₀ ns₀ (.tree (two code ty attrs a b) n up :: ps) r) :
    Meets (Peephole.balanceWidths n a.ty b.ty) r F fun out r' =>
      out = (a.ty.byteSize r₀.layout != q.byteSize r₀.layout ||
        b.ty.byteSize r₀.layout != q.byteSize r₀.layout) ∧
      Forest r₀ ns₀ (.tree (two code ty attrs
        (a.widened (a.ty.byteSize r₀.layout == q.byteSize r₀.layout) q)
        (b.widened (b.ty.byteSize r₀.layout == q.byteSize r₀.layout) q)) n up :: ps) r' := by
  simp only [Peephole.balanceWidths, Edit.layout, meets_bind, meets_get, meets_pure, h.layout, type]
  refine (h.intern _).to ?_
  rintro _ r₁ ⟨rfl, h⟩
  obtain ⟨x, y, h⟩ := h.splitTwo
  simp only [meets_someOf_cons, meets_someOf_nil, Bool.or_false]
  refine (widen (i := 0) rfl h).to ?_
  rintro _ r₂ ⟨rfl, x', h⟩
  refine (widen (i := 1) rfl h.swapNext).to ?_
  rintro _ r₃ ⟨rfl, y', h⟩
  exact ⟨rfl, h.swapNext.joinTwo⟩

theorem balanceWidths (value : a.ty.isPointer = false)
    (due : a.ty.unbalanced r₀.layout code.isRelation b.ty =
      (a.ty.byteSize r₀.layout != (a.ty.common r₀.layout b.ty).byteSize r₀.layout ||
        b.ty.byteSize r₀.layout != (a.ty.common r₀.layout b.ty).byteSize r₀.layout))
    (h : Forest r₀ ns₀ (.tree (two code ty attrs a b) n up :: ps) r) :
    Meets (balanceWidths n a.ty b.ty) r Fault.Proper
      (Balanced r₀ ns₀ ps code ty attrs a b n up) := by
  refine (h.widenOperands rfl).to ?_
  rintro _ r₁ ⟨rfl, h⟩
  simp only [Balanced, Ty.balanced, value, Bool.false_eq_true, if_false, due, bne]
  generalize (a.ty.byteSize r₀.layout == (a.ty.common r₀.layout b.ty).byteSize r₀.layout) = wideA
    at h ⊢
  generalize (b.ty.byteSize r₀.layout == (a.ty.common r₀.layout b.ty).byteSize r₀.layout) = wideB
    at h ⊢
  refine ⟨trivial, _, _, (!wideA).toNat, (!wideB).toNat, ?_, ?_, h⟩
  · cases wideA <;> cases wideB <;> decide
  · split
    · exact ⟨.widened _, .widened _⟩
    · rename_i neither
      obtain ⟨rfl, rfl⟩ : wideA = true ∧ wideB = true := by simpa using neither
      exact ⟨rfl, rfl⟩

theorem balanceOperands (h : Forest r₀ ns₀ (.tree (two code ty attrs a b) n up :: ps) r) :
    Meets (balanceOperands s n) r Fault.Proper (Balanced r₀ ns₀ ps code ty attrs a b n up) := by
  obtain ⟨x, y, d, left, right, p, _⟩ := h.pair
  simp only [Peephole.balanceOperands, Edit.node, Edit.layout, meets_bind, p.operands, meets_ask,
    meets_get, meets_pure, p.leftNode, p.rightNode, yields_ok, p.leftTops.ty, p.rightTops.ty,
    h.layout]
  split
  · rename_i same
    exact Balanced.idle h (by simp [Ty.unbalanced, same])
  · rename_i compared
    split
    · rename_i chunk
      rw [meets_bind, meets_discard]
      refine (h.require _ _ _).to fun _ r₁ kept => Balanced.idle kept.2 ?_
      simp only [Ty.unbalanced, compared, chunk, if_true]
      simp
    · rename_i plain
      cases value : a.ty.isPointer with
      | true =>
        simp only [if_true]
        exact h.balanceAddend value (by simpa using compared) (by simpa using plain)
      | false =>
        have code' : d.code = code := p.tops.code
        have unfolded : a.ty.unbalanced r₀.layout code.isRelation b.ty =
            if !code.isRelation && b.ty.isPointer then false
            else if a.ty.isVector || b.ty.isVector then false
            else a.ty.byteSize r₀.layout != (a.ty.common r₀.layout b.ty).byteSize r₀.layout ||
              b.ty.byteSize r₀.layout != (a.ty.common r₀.layout b.ty).byteSize r₀.layout := by
          simp only [Ty.unbalanced, compared, plain, value]
          simp
        have finish {r : Region} (h : Forest r₀ ns₀ (.tree (two code ty attrs a b) n up :: ps) r)
            (allowed : (!code.isRelation && b.ty.isPointer) = false) :
            Meets (do
              if a.ty.isVector || b.ty.isVector then
                discard (Edit.require s false (.vectorShapes n))
                return false
              Peephole.balanceWidths n a.ty b.ty) r Fault.Proper
              (Balanced r₀ ns₀ ps code ty attrs a b n up) := by
          split
          · rename_i vector
            rw [meets_bind, meets_discard]
            refine (h.require _ _ _).to fun _ r₁ kept => Balanced.idle kept.2 ?_
            simp [unfolded, allowed, vector]
          · rename_i vector
            refine h.balanceWidths value ?_
            rw [unfolded, allowed]
            simp [vector]
        simp only [Bool.false_eq_true, if_false, meets_bind, meets_ask, p.node, yields_ok, code']
        cases relation : code.isRelation with
        | true => exact finish h (by simp [relation])
        | false =>
          simp only [Bool.not_false, if_true, meets_bind]
          refine (h.require _ _ _).to ?_
          rintro allowed r₁ ⟨rfl, h⟩
          cases pointer : b.ty.isPointer with
          | true => exact Balanced.idle h (by rw [unfolded, relation, pointer]; rfl)
          | false => exact finish h (by simp [pointer])

theorem coerceOperands (wide : known → r₀.layout.pointerSize ∈ [2, 4, 8])
    (binary : code.isBinary = true) (formed : (two code ty attrs a b).Formed)
    (h : Forest r₀ ns₀ (.tree (two code ty attrs a b) n up :: ps) r) :
    Meets (coerceOperands s n) r Fault.Proper fun fired r' => ∃ a' b',
      (two code ty attrs a' b').Formed ∧
      (if fired then known → Lowers r₀.layout 1 (two code ty attrs a b) (two code ty attrs a' b')
        else a' = a ∧ b' = b) ∧
      Forest r₀ ns₀ (.tree (two code ty attrs a' b') n up :: ps) r' := by
  obtain ⟨x, y, d, left, right, p, split⟩ := h.pair
  have type : d.ty = ty := p.tops.ty
  simp only [Peephole.coerceOperands, Edit.node, meets_bind, meets_ask, p.node, yields_ok, type,
    meets_someOf_cons, meets_someOf_nil, Bool.or_false]
  refine (fitSlot (i := 0) rfl split).to ?_
  rintro left r₁ ⟨a₁, v₁, x', few, unfit, idle, converted, split⟩
  refine (fitSlot (i := 1) rfl split.swapNext).to ?_
  rintro right r₂ ⟨b₁, w₁, y', few', unfit', idle', converted', split⟩
  refine split.swapNext.joinTwo.balanceOperands.to ?_
  rintro fires r₃ ⟨due, a₂, b₂, v₂, w₂, few₂, balanced, after⟩
  have fit (yes : known) : ty.unfit r₀.layout a₁.ty = false := by
    rw [converted.ty]
    exact Ty.unfit_fitted (wide yes) _
  have fit' (yes : known) : ty.unfit r₀.layout b₁.ty = false := by
    rw [converted'.ty]
    exact Ty.unfit_fitted (wide yes) _
  have arity := numSlots_of_isBinary binary
  have formed' : (two code ty attrs a₁ b₁).Formed :=
    .ofTwo arity (converted.formed formed.left) (converted'.formed formed.right)
  have worse : (left || right) = true → 18 ≤ mismatch r₀.layout code.isRelation ty a.ty b.ty := by
    rw [unfit, unfit']
    exact mismatch_of_unfit
  cases fires with
  | true =>
    obtain ⟨converted₂, converted₂'⟩ := balanced
    have formed₂ : (two code ty attrs a₂ b₂).Formed :=
      .ofTwo arity (converted₂.formed formed'.left) (converted₂'.formed formed'.right)
    refine ⟨a₂, b₂, formed₂, ?_, after⟩
    rw [Bool.or_true, if_pos rfl]
    intro yes
    have calm := mismatch_of_calm (Ty.balanced_calm (wide yes) (fit yes) (fit' yes) due.symm)
    refine (converted.trans converted₂).lowers binary (converted'.trans converted₂') ?_
    rw [calm]
    cases fitted : left || right with
    | true =>
      have := worse fitted
      have := Bool.toNat_le left
      have := Bool.toNat_le right
      simp only [Bool.toNat_true] at few₂
      split <;> omega
    | false =>
      obtain ⟨rfl, rfl⟩ := Bool.or_eq_false_iff.mp fitted
      rw [idle rfl, idle' rfl] at due
      have := mismatch_of_unbalanced ty due.symm
      simp only [Bool.toNat_true, Bool.toNat_false] at few few' few₂
      split <;> omega
  | false =>
    obtain ⟨rfl, rfl⟩ := balanced
    rw [Bool.or_false]
    refine ⟨a₂, b₂, formed', ?_, after⟩
    cases fitted : left || right with
    | true =>
      intro yes
      have := worse fitted
      have := mismatch_of_fit code.isRelation (fit yes) (fit' yes)
      rw [converted.ty, converted'.ty] at this
      refine converted.lowers binary converted' ?_
      have := Bool.toNat_le left
      have := Bool.toNat_le right
      split <;> omega
    | false =>
      obtain ⟨rfl, rfl⟩ := Bool.or_eq_false_iff.mp fitted
      exact ⟨idle rfl, idle' rfl⟩

/-- Coercion reads both operands. -/
theorem coerceOperands_gap {slots : List (List Tree)} (gap : Gap slots)
    (h : Forest r₀ ns₀ (.tree (.node code ty attrs slots) n up :: ps) r) :
    Meets (Peephole.coerceOperands s n) r Fault.Proper fun _ _ => False := by
  obtain ⟨d, found, _⟩ := h.node List.mem_cons_self
  simp only [Peephole.coerceOperands, Edit.node, meets_bind, meets_ask, Region.node_of found,
    yields_ok, meets_someOf_cons]
  rcases gap with ⟨us, rfl⟩ | ⟨a, rfl⟩
  · obtain ⟨f, fault, proper⟩ := h.kid_gap (i := 0) rfl
    simp only [Peephole.fitSlot, Edit.kid, meets_bind, meets_ask, fault]
    exact proper
  · obtain ⟨ids, fits, split⟩ := h.split
    obtain ⟨xs, ys, rfl⟩ := List.length_eq_two.mp fits.length.symm
    obtain ⟨lengths, none⟩ : 1 = xs.length ∧ 0 = ys.length := by simpa [Fits] using fits
    obtain ⟨x, rfl⟩ := List.length_eq_one_iff.mp lengths.symm
    obtain rfl := List.length_eq_zero_iff.mp none.symm
    refine (fitSlot (i := 0) rfl split).to ?_
    rintro _ r₁ ⟨a', _, x', _, _, _, _, split⟩
    have h := split.join (show Fits [[a'], []] [[x'], []] from rfl)
    obtain ⟨f, fault, proper⟩ := h.kid_gap (i := 1) rfl
    simp only [Peephole.fitSlot, Edit.kid, meets_bind, meets_ask, fault]
    exact proper

end Forest

end Peephole
