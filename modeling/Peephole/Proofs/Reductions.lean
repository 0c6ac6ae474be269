import Peephole.Proofs.Regrowth

/-!
# Steps on trees

Each rule at a binary node, and folding, makes of a tree what `Tree.Step` says, or leaves it as
it is. None runs out of steps.
-/

namespace Peephole

open Edit Peephole.Tree

variable {F : Fault → Prop} {s : Setting} {r r' r₀ : Region} {n m k x y : NodeId}
  {ns₀ : List NodeId} {ps : List Piece} {code : Op} {ty q : Ty} {attrs : Attrs} {a b t u : Tree}
  {d left right : Node} {up up' : Option NodeId} {slots : List (List Tree)}

/-- The tree `t` at `n` after a step: one with `Q`, if it fired. -/
def Fires (r₀ : Region) (ns₀ : List NodeId) (ps : List Piece) (t : Tree) (n : NodeId)
    (up : Option NodeId) (Q : Tree → Prop) : Option NodeId → Region → Prop
  | some m, r => ∃ u, Q u ∧ Regrown r₀ ns₀ ps n up u m r
  | none, r => Forest r₀ ns₀ (.tree t n up :: ps) r

theorem Fires.mono {P Q : Tree → Prop} {out : Option NodeId}
    (h : Fires r₀ ns₀ ps t n up P out r) (weaker : ∀ u, P u → Q u) :
    Fires r₀ ns₀ ps t n up Q out r := by
  cases out with
  | none => exact h
  | some m =>
    obtain ⟨u, known, forest⟩ := h
    exact ⟨u, weaker u known, forest⟩

/-- A step that rewrites the tree `t`. -/
abbrev Reduces (r₀ : Region) (ns₀ : List NodeId) (ps : List Piece) (t : Tree) (n : NodeId)
    (up : Option NodeId) : Option NodeId → Region → Prop :=
  Fires r₀ ns₀ ps t n up (Tree.Step r₀.layout t)

/-- A step that folds the tree `t`, just if `c` holds. -/
def Collapses (c : Bool) (r₀ : Region) (ns₀ : List NodeId) (ps : List Piece) (t : Tree) (n : NodeId)
    (up : Option NodeId) (out : Option NodeId) (r : Region) : Prop :=
  out.isSome = c ∧ Fires r₀ ns₀ ps t n up (fun u => Tree.Step r₀.layout t u ∧ t.Remains u) out r

/-- A step that rewrites the tree `t`, a comparison into a comparison. -/
abbrev Rearranges (r₀ : Region) (ns₀ : List NodeId) (ps : List Piece) (t : Tree) (n : NodeId)
    (up : Option NodeId) : Option NodeId → Region → Prop :=
  Fires r₀ ns₀ ps t n up fun u =>
    Tree.Step r₀.layout t u ∧ (t.code.isRelation = true → u.code.isRelation = true)

/-- `(x inner c) code b` becomes `x inner v`, where the literal `v` merges the literals `c` and
`b`. It has the type of `b`, unless it is to be part of an address or a chunk. -/
inductive Tree.Merges (l : Layout) (code : Op) (ty : Ty) (b : Tree) : Tree → Tree → Prop
  | merge {inner : Op} {q : Ty} {attrs : Attrs} {xs : List Tree} {c : Tree} {c₁ c₂ w v : Word}
      (associative : inner.isAssociative = true) (outer : code.isAssociative = true ∨ code = .sub)
      (level : inner.precedence = code.precedence) (few : xs.length ≤ 1)
      (left : c.top.intLit? = some c₁) (right : b.top.intLit? = some c₂)
      (result : intBinary code c₁ c₂ (c.ty.isUnsigned || b.ty.isUnsigned)
        (max (c.ty.byteSize l) (b.ty.byteSize l) * 8) = some w)
      (own : ty.isPointer = false → ty.isChunk = false → q = b.ty)
      (range : q.normalizeInt l w = .ok v) :
      Merges l code ty b (.node inner ty attrs [xs, [c]])
        (.node inner ty attrs [xs, [lit (.int v) q]])

theorem Tree.Merges.rearranges {l : Layout} (h : Merges l code ty b a u)
    (binary : code.isBinary = true) : Tree.Step l (two code ty attrs a b) u ∧
      (code.isRelation = true → u.code.isRelation = true) := by
  cases h with
  | merge associative outer _ few _ _ _ _ _ =>
    have value : code.isJudge = false := by
      cases code <;> simp_all [Op.isAssociative, Op.isJudge, Op.isRelation]
    exact ⟨.merge binary value associative few,
      fun relation => absurd (isJudge_of_isRelation relation) (by simp [value])⟩

/-! ### Operands -/

/-- The tree at `n` is a binary one; `x` and `y` are the roots of its operands. -/
structure Pair (r : Region) (code : Op) (ty : Ty) (attrs : Attrs) (a b : Tree) (n x y : NodeId)
    (d left right : Node) : Prop where
  node : r.node n = .ok d
  tops : Tops d (two code ty attrs a b)
  leftKid : r.kid n 0 = .ok x
  rightKid : r.kid n 1 = .ok y
  leftNode : r.node x = .ok left
  leftTops : Tops left a
  rightNode : r.node y = .ok right
  rightTops : Tops right b

theorem Forest.pair (h : Forest r₀ ns₀ (.tree (two code ty attrs a b) n up :: ps) r) :
    ∃ x y d left right, Pair r code ty attrs a b n x y d left right ∧
      Forest r₀ ns₀ (.stub (.fresh code ty attrs [[x], [y]]) n up ::
        .tree a x (some n) :: .tree b y (some n) :: ps) r := by
  obtain ⟨x, y, h⟩ := h.splitTwo
  obtain ⟨_, _, _, found⟩ := Region.node?_of_core (h.stub_found List.mem_cons_self)
  obtain ⟨left, leftFound, leftTops, _⟩ : ∃ d, r.node? x = some d ∧ Tops d a ∧ _ :=
    h.node (List.mem_cons_of_mem _ List.mem_cons_self)
  obtain ⟨right, rightFound, rightTops, _⟩ : ∃ d, r.node? y = some d ∧ Tops d b ∧ _ :=
    h.node (List.mem_cons_of_mem _ (List.mem_cons_of_mem _ List.mem_cons_self))
  exact ⟨x, y, _, left, right, ⟨Region.node_of found, ⟨rfl, rfl, rfl⟩, Region.kid_of found rfl,
    Region.kid_of found rfl, Region.node_of leftFound, leftTops, Region.node_of rightFound,
    rightTops⟩, h⟩

namespace Pair

theorem operands (p : Pair r code ty attrs a b n x y d left right)
    {Q : NodeId × NodeId → Region → Prop} : Meets (operands n) r F Q ↔ Q (x, y) r := by
  simp only [Edit.operands, Edit.kid, meets_bind, meets_ask, p.leftKid, p.rightKid, yields_ok,
    meets_pure]

theorem withOperands (p : Pair r code ty attrs a b n x y d left right)
    {Q : Node × Node × Node → Region → Prop} :
    Meets (withOperands n) r F Q ↔ Q (d, left, right) r := by
  simp only [Peephole.withOperands, meets_bind, p.operands, Edit.node, meets_ask, p.node,
    p.leftNode, p.rightNode, yields_ok, meets_pure]

end Pair

namespace Forest

/-- An empty slot has no first kid. -/
theorem kid_gap {i : Nat} (h : Forest r₀ ns₀ (.tree (.node code ty attrs slots) n up :: ps) r)
    (gap : slots[i]? = some []) : ∃ f, r.kid n i = .error f ∧ f.Proper := by
  obtain ⟨d, found, _, fits⟩ := h.node List.mem_cons_self
  obtain ⟨ks, slot, lengths⟩ := fits.get gap
  obtain rfl := List.length_eq_zero_iff.mp lengths.symm
  refine ⟨.misuse (.emptySlot i n d.code), ?_, nofun⟩
  simp only [Region.kid, Region.node_of found, Node.slot_of slot, bind, Except.bind]
  rfl

/-- Nothing reads two operands where one is missing. -/
theorem operands_gap (h : Forest r₀ ns₀ (.tree (.node code ty attrs slots) n up :: ps) r)
    (gap : Gap slots) : Meets (operands n) r Fault.Proper fun _ _ => False := by
  simp only [Edit.operands, Edit.kid, meets_bind, meets_ask]
  rcases gap with ⟨us, rfl⟩ | ⟨a, rfl⟩
  · obtain ⟨f, fault, proper⟩ := h.kid_gap (i := 0) rfl
    rw [fault]
    exact proper
  · obtain ⟨f, fault, proper⟩ := h.kid_gap (i := 1) rfl
    refine Yields.imp Region.kid_answers (fun _ => Fault.Plain.proper) fun _ _ _ => ?_
    rw [fault]
    exact proper

/-! ### Folding -/

theorem vars (h : Forest r₀ ns₀ ps r) : r.vars = r₀.vars := h.grown.vars

theorem foldFloatValue {v : Value} (h : Forest r₀ ns₀ (.tree t n up :: ps) r) :
    Meets (foldFloatValue v n) r Fault.Proper fun out r' =>
      out.isSome = (v.literal? r₀.layout t.ty).isSome ∧
        Fires r₀ ns₀ ps t n up (fun u => ∃ w q, u = lit w q) out r' := by
  obtain ⟨d, found, tops, _⟩ := h.node List.mem_cons_self
  simp only [Peephole.foldFloatValue, Edit.node, Edit.layout, meets_bind, meets_ask, meets_get,
    meets_pure, Region.node_of found, yields_ok, tops.ty, h.layout]
  cases v.literal? r₀.layout t.ty with
  | none => exact ⟨rfl, h⟩
  | some w =>
    refine Meets.bind (h.literal _ _) fun m r₁ h => ?_
    refine Meets.bind (h.fired _) fun _ r₂ h => ?_
    refine Meets.bind h.replaceBy fun m r₃ h => ?_
    exact ⟨rfl, _, ⟨_, _, rfl⟩, .moved h⟩

theorem intResult {t0 t1 : Ty} {v : Word} (h : Forest r₀ ns₀ ps r) :
    Meets (intResult ty t0 t1 v) r Fault.Proper fun m r' => ∃ u,
      ((∃ w, u = lit w ty) ∨ ty.isFloat = true ∧ ∃ w q, u = one .cvt ty .none (lit w q)) ∧
      Forest r₀ ns₀ (.tree u m none :: ps) r' := by
  simp only [Peephole.intResult, Edit.layout, meets_bind, meets_get, meets_pure]
  split
  · rename_i float
    rw [meets_bind]
    refine (h.intern _).to ?_
    rintro _ r₁ ⟨rfl, h⟩
    rw [meets_bind, meets_lift]
    refine Yields.imp Region.normalizeInt_answers (fun _ => Fault.Plain.proper) fun w _ _ => ?_
    refine Meets.bind (h.literal _ _) fun k r₂ h => ?_
    exact (h.convert ty).to fun m r₃ h => ⟨_, .inr ⟨float, _, _, rfl⟩, h.2⟩
  · rw [meets_bind, meets_lift]
    refine Yields.imp Region.normalizeInt_answers (fun _ => Fault.Plain.proper) fun w _ _ => ?_
    exact (h.literal _ _).to fun m r₂ h => ⟨_, .inl ⟨_, rfl⟩, h⟩

variable (binary : code.isBinary = true)
include binary

theorem foldIntBinary {v w : Word} (p : Pair r code ty attrs a b n x y d left right)
    (h : Forest r₀ ns₀ (.tree (two code ty attrs a b) n up :: ps) r) :
    Meets (foldIntBinary s d left right v w n) r Fault.Proper
      (Collapses (decide (max (a.ty.byteSize r₀.layout) (b.ty.byteSize r₀.layout) ≤ 8) &&
        (intBinary code v w (a.ty.isUnsigned || b.ty.isUnsigned)
          (max (a.ty.byteSize r₀.layout) (b.ty.byteSize r₀.layout) * 8)).isSome)
        r₀ ns₀ ps (two code ty attrs a b) n up) := by
  have type : d.ty = ty := p.tops.ty
  have code' : d.code = code := p.tops.code
  simp only [Peephole.foldIntBinary, Edit.layout, meets_bind, meets_get, meets_pure, h.layout,
    p.leftTops.ty, p.rightTops.ty, type, code']
  refine (h.require _ _ _).to ?_
  rintro ok r₁ ⟨same, h⟩
  rw [← same]
  cases ok with
  | false => exact ⟨rfl, h⟩
  | true =>
    simp only [if_true, Bool.true_and]
    cases intBinary code v w (a.ty.isUnsigned || b.ty.isUnsigned)
        (max (a.ty.byteSize r₀.layout) (b.ty.byteSize r₀.layout) * 8) with
    | none => exact ⟨rfl, h⟩
    | some z =>
      rw [meets_bind]
      refine h.intResult.to ?_
      rintro m r₂ ⟨u, shape, h⟩
      refine Meets.bind (h.fired _) fun _ r₃ h => ?_
      refine Meets.bind h.replaceBy fun m r₄ h => ⟨rfl, u, ?_, .moved h⟩
      rcases shape with ⟨w, rfl⟩ | ⟨float, w, q, rfl⟩
      · exact ⟨.value binary, .value⟩
      · exact ⟨.converted binary float, .converted float⟩

theorem foldBinary (h : Forest r₀ ns₀ (.tree (two code ty attrs a b) n up :: ps) r) :
    Meets (foldBinary s n) r Fault.Proper
      (Collapses (s.optFloat && evaluatesFloat r₀.layout code ty a b ||
        decide (max (a.ty.byteSize r₀.layout) (b.ty.byteSize r₀.layout) ≤ 8) &&
          evaluates r₀.layout code a b) r₀ ns₀ ps (two code ty attrs a b) n up) := by
  obtain ⟨x, y, d, left, right, p, _⟩ := h.pair
  have code' : d.code = code := p.tops.code
  simp only [Peephole.foldBinary, meets_bind, p.operands, Edit.node, meets_ask, p.node, p.leftNode,
    p.rightNode, yields_ok, p.leftTops.floatLit?, p.rightTops.floatLit?, p.leftTops.intLit?,
    p.rightTops.intLit?, code']
  split
  · rename_i v w float left right
    rw [float, evaluatesFloat_of left right, evaluates_of_float left, Bool.and_false, Bool.or_false,
      Bool.true_and]
    cases floatBinary code v w with
    | none => exact ⟨rfl, h⟩
    | some z =>
      refine h.foldFloatValue.to fun _ _ out => ⟨out.1, out.2.mono ?_⟩
      rintro u ⟨w, q, rfl⟩
      exact ⟨.value binary, .value⟩
  · rename_i other
    rw [evaluatesFloat_eq_false other, Bool.false_or]
    split
    · rename_i v w left right
      rw [evaluates_of left right]
      exact h.foldIntBinary binary p
    · rename_i other
      rw [evaluates_eq_false other, Bool.and_false]
      exact ⟨rfl, h⟩

theorem replaceByInt {v : Word} (h : Forest r₀ ns₀ (.tree (two code ty attrs a b) n up :: ps) r) :
    Meets (replaceByInt n v) r Fault.Proper fun m r' =>
      ∃ u, (Tree.Step r₀.layout (two code ty attrs a b) u ∧ (two code ty attrs a b).Remains u) ∧
        Regrown r₀ ns₀ ps n up u m r' := by
  obtain ⟨d, found, _⟩ := h.node List.mem_cons_self
  simp only [Peephole.replaceByInt, Edit.node, meets_bind, meets_ask, Region.node_of found,
    yields_ok]
  refine (h.literal _ _).to fun m r₁ h => ?_
  exact h.replaceBy.to fun m r₂ h => ⟨_, ⟨.value binary, .value⟩, .moved h⟩

/-- An integer is put in place of the tree if `c` holds. -/
theorem replaceIf {c : Bool} {rule : Rule} {v : Word}
    (h : Forest r₀ ns₀ (.tree (two code ty attrs a b) n up :: ps) r) :
    Meets (do
      if c then
        Edit.fired rule n
        return some (← Peephole.replaceByInt n v)
      return none) r Fault.Proper (Collapses c r₀ ns₀ ps (two code ty attrs a b) n up) := by
  cases c with
  | false => exact ⟨rfl, h⟩
  | true =>
    refine Meets.bind (h.fired rule) fun _ r₁ h => Meets.bind (h.replaceByInt binary) ?_
    rintro m r₂ ⟨u, step, h⟩
    exact ⟨rfl, u, step, h⟩

theorem spliceLeft (calm : code.isJudge = false)
    (h : Forest r₀ ns₀ (.tree (two code ty attrs a b) n up :: ps) r) :
    Meets (do
      Edit.fired .shiftZero n
      return some (← Edit.spliceKid n 0)) r Fault.Proper
      (Collapses true r₀ ns₀ ps (two code ty attrs a b) n up) := by
  refine Meets.bind (h.fired _) fun _ r₁ h => Meets.bind (h.spliceKid rfl) fun m r₂ h => ?_
  exact ⟨rfl, a, ⟨.left binary (by simp [calm]), .operand (isBinary_ne binary).2.1 calm
    (by simp [slots])⟩, .moved h⟩

omit binary

theorem stringAddressAndNull {left right : Node} (leftTops : Tops left a) (rightTops : Tops right b)
    (h : Forest r₀ ns₀ ps r) :
    Meets (stringAddressAndNull left right) r Fault.Proper fun ok r' =>
      r' = r ∧ ok = (a.isString r₀ && b.isLit 0#64) := by
  have same : r.isStringAddress left = r₀.isStringAddress a.top := by
    simp only [Region.isStringAddress, Region.var, leftTops.code, leftTops.attrs, h.vars]
    rfl
  rw [Peephole.stringAddressAndNull, meets_and, meets_ask, same, isString]
  refine Yields.imp Region.isStringAddress_answers (fun _ => Fault.Plain.proper)
    fun ok answer _ => ?_
  rw [answer]
  cases ok with
  | false => exact ⟨rfl, rfl⟩
  | true => exact ⟨rfl, rightTops.isIntLit⟩

include binary

theorem substituteBinary (h : Forest r₀ ns₀ (.tree (two code ty attrs a b) n up :: ps) r) :
    Meets (substituteBinary n) r Fault.Proper
      (Collapses (decided r₀.layout code a b || meetsNull r₀ code a b) r₀ ns₀ ps
        (two code ty attrs a b) n up) := by
  obtain ⟨x, y, d, left, right, p, _⟩ := h.pair
  have code' : d.code = code := p.tops.code
  have either : Meets (Peephole.stringAddressAndNull left right <||>
      Peephole.stringAddressAndNull right left) r Fault.Proper fun ok r' => r' = r ∧
        ok = (a.isString r₀ && b.isLit 0#64 || b.isString r₀ && a.isLit 0#64) := by
    rw [meets_or]
    refine (stringAddressAndNull p.leftTops p.rightTops h).to ?_
    rintro ok _ ⟨rfl, first⟩
    rw [← first]
    cases ok with
    | false => exact stringAddressAndNull p.rightTops p.leftTops h
    | true => exact ⟨rfl, rfl⟩
  simp only [Peephole.substituteBinary, meets_bind, p.operands, Edit.node, meets_ask, p.node,
    p.leftNode, p.rightNode, yields_ok, code', p.leftTops.ty, p.leftTops.isIntLit,
    p.rightTops.isIntLit]
  split
  case h_1 | h_2 =>
    rw [show meetsNull r₀ _ a b = false from rfl, Bool.or_false]
    exact h.replaceIf binary
  case h_3 =>
    rw [meets_bind]
    refine either.to ?_
    rintro ok _ ⟨rfl, answer⟩
    rw [show decided _ .eq a b = false from rfl, Bool.false_or, meetsNull_of (.inl rfl), ← answer]
    exact h.replaceIf binary
  case h_4 =>
    rw [meets_bind]
    refine either.to ?_
    rintro ok _ ⟨rfl, answer⟩
    rw [show decided _ .ne a b = false from rfl, Bool.false_or, meetsNull_of (.inr rfl), ← answer]
    exact h.replaceIf binary
  case h_5 | h_6 =>
    rw [show meetsNull r₀ _ a b = false from rfl, Bool.or_false, decided]
    cases a.isLit 0#64 || b.isLit 0#64 with
    | true => exact h.spliceLeft binary rfl
    | false => exact ⟨rfl, h⟩
  case h_7 =>
    rw [show meetsNull r₀ _ a b = false from rfl, Bool.or_false, decided]
    cases a.isLit 0#64 || b.isLit 0#64 with
    | true => exact h.spliceLeft binary rfl
    | false =>
      simp only [Bool.false_eq_true, if_false, ne_eq, not_true_eq_false, Edit.layout, meets_bind,
        meets_get, meets_pure, meets_lift, h.layout, Bool.false_or]
      refine Yields.imp Region.bitWidth_answers (fun _ => Fault.Plain.proper) fun bits width _ => ?_
      rw [Ty.bitWidth_eq width]
      exact h.replaceIf binary
  case h_8 unsigned unsigned' eq ne asr lsr lsl =>
    have undecided : decided r₀.layout code a b = false := by
      unfold decided
      split <;> first | rfl | contradiction
    have apart : meetsNull r₀ code a b = false := by
      rw [meetsNull, beq_eq_false_iff_ne.mpr eq, beq_eq_false_iff_ne.mpr ne]
      rfl
    rw [undecided, apart]
    exact ⟨rfl, h⟩

omit binary

theorem foldIntUnary {v : Word} {operand : Node} (unary : code = .neg ∨ code = .lnot ∨ code = .bnot)
    (tops : Tops d (one code ty attrs a)) (operandTops : Tops operand a)
    (h : Forest r₀ ns₀ (.tree (one code ty attrs a) n up :: ps) r) :
    Meets (foldIntUnary s d operand v n) r Fault.Proper
      (Collapses (decide (a.ty.byteSize r₀.layout ≤ 8) && ty.isInt && (intUnary code v).isSome)
        r₀ ns₀ ps (one code ty attrs a) n up) := by
  have type : d.ty = ty := tops.ty
  have code' : d.code = code := tops.code
  simp only [Peephole.foldIntUnary, Edit.layout, meets_bind, meets_get, meets_pure, h.layout,
    operandTops.ty, type, code']
  refine (h.require _ _ _).to ?_
  rintro ok r₁ ⟨same, h⟩
  rw [← same]
  cases ok with
  | false => exact ⟨rfl, h⟩
  | true =>
    simp only [if_true, Bool.true_and]
    cases ty.isInt with
    | false => exact ⟨rfl, h⟩
    | true =>
      cases intUnary code v with
      | none => exact ⟨rfl, h⟩
      | some w =>
        simp only [Bool.not_true, Bool.false_eq_true, if_false]
        rw [meets_bind, meets_lift]
        refine Yields.imp Region.normalizeInt_answers (fun _ => Fault.Plain.proper) fun w _ _ => ?_
        refine Meets.bind (h.literal _ _) fun m r₂ h => ?_
        refine Meets.bind (h.fired _) fun _ r₃ h => ?_
        exact Meets.bind h.replaceBy fun m r₄ h => ⟨rfl, _, ⟨.folded unary, .value⟩, .moved h⟩

theorem foldUnary (unary : code = .neg ∨ code = .lnot ∨ code = .bnot)
    (h : Forest r₀ ns₀ (.tree (one code ty attrs a) n up :: ps) r) :
    Meets (foldUnary s n) r Fault.Proper
      (Collapses (collapses s r₀ (one code ty attrs a)) r₀ ns₀ ps (one code ty attrs a) n up) := by
  obtain ⟨x, split⟩ := h.splitOne
  obtain ⟨_, _, _, found⟩ := Region.node?_of_core (split.stub_found List.mem_cons_self)
  obtain ⟨operand, operandFound, tops, _⟩ : ∃ d, r.node? x = some d ∧ Tops d a ∧ _ :=
    split.node (List.mem_cons_of_mem _ List.mem_cons_self)
  simp only [Peephole.foldUnary, Edit.node, Edit.kid, meets_bind, meets_ask, Region.node_of found,
    Region.kid_of found (i := 0) rfl, Region.node_of operandFound, yields_ok, tops.floatLit?,
    tops.intLit?]
  rw [collapses_unary unary]
  split
  · rename_i v float value
    have value : a.float? = some v := value
    rw [float, value, lit?_of_float? value, Option.bind_none, Option.isSome_none, Bool.and_false,
      Bool.or_false, Bool.true_and, Option.bind_some]
    cases floatUnary code v with
    | none => exact ⟨rfl, h⟩
    | some z =>
      refine h.foldFloatValue.to fun _ _ out => ⟨out.1, out.2.mono ?_⟩
      rintro u ⟨w, q, rfl⟩
      exact ⟨.folded unary, .value⟩
  · rename_i other
    have quiet : (s.optFloat && ((a.float?.bind (floatUnary code)).bind
        (Value.literal? r₀.layout ty)).isSome) = false := by
      cases float : s.optFloat with
      | false => rfl
      | true =>
        cases value : a.float? with
        | none => rfl
        | some v => exact (other v float value).elim
    rw [quiet, Bool.false_or]
    cases value : a.lit? with
    | none =>
      rw [lit?] at value
      simp only [value, Option.bind_none, Option.isSome_none, Bool.and_false]
      exact ⟨rfl, h⟩
    | some v =>
      rw [lit?] at value
      simp only [value, Option.bind_some]
      exact h.foldIntUnary unary ⟨rfl, rfl, rfl⟩ tops

theorem foldUnaryNode (unary : code = .neg ∨ code = .lnot ∨ code = .bnot)
    (formed : (Tree.node code ty attrs slots).Formed)
    (h : Forest r₀ ns₀ (.tree (.node code ty attrs slots) n up :: ps) r) :
    Meets (Peephole.foldUnary s n) r Fault.Proper
      (Collapses (collapses s r₀ (.node code ty attrs slots)) r₀ ns₀ ps (.node code ty attrs slots)
        n up) := by
  have known : code.isExpr = true ∧ code.numSlots = 1 ∧ code.slotName 0 = "" := by
    rcases unary with rfl | rfl | rfl <;> exact ⟨rfl, rfl, rfl⟩
  rcases formed.one_slot known.1 known.2.1 known.2.2 with ⟨a, rfl⟩ | rfl
  · exact h.foldUnary unary
  · obtain ⟨d, found, _⟩ := h.node List.mem_cons_self
    obtain ⟨f, fault, proper⟩ := h.kid_gap (i := 0) rfl
    simp only [Peephole.foldUnary, Edit.node, Edit.kid, meets_bind, meets_ask,
      Region.node_of found, yields_ok, fault]
    exact proper

/-- Folding one node. -/
theorem foldNode (formed : t.Formed) (h : Forest r₀ ns₀ (.tree t n up :: ps) r) :
    Meets (foldNode s n) r Fault.Proper (Collapses (collapses s r₀ t) r₀ ns₀ ps t n up) := by
  obtain ⟨d, found, tops, _⟩ := h.node List.mem_cons_self
  cases t with
  | node code ty attrs slots =>
    have same : d.code = code := tops.code
    simp only [Peephole.foldNode, Edit.node, meets_bind, meets_ask, Region.node_of found, yields_ok,
      same]
    split
    · rename_i binary
      rcases formed.binary_slots binary with ⟨a, b, rfl⟩ | gap
      · rw [collapses_binary binary]
        refine Meets.bind (h.foldBinary binary) ?_
        rintro out r₁ ⟨fires, done⟩
        cases out with
        | none =>
          rw [← show false = _ from fires, Bool.false_or]
          exact substituteBinary binary done
        | some m =>
          rw [← show true = _ from fires, Bool.true_or]
          exact ⟨rfl, done⟩
      · simp only [Peephole.foldBinary, Edit.node, meets_bind, meets_ask, Region.node_of found,
          yields_ok]
        exact (h.operands_gap gap).to fun _ _ => False.elim
    · rename_i plain
      split
      · exact foldUnaryNode (.inl rfl) formed h
      · exact foldUnaryNode (.inr (.inl rfl)) formed h
      · exact foldUnaryNode (.inr (.inr rfl)) formed h
      · rename_i neg lnot bnot
        rw [collapses_other (Bool.eq_false_of_not_eq_true plain) neg lnot bnot]
        exact ⟨rfl, h⟩

end Forest

/-! ### Passes -/

/-- A pass that answered `out` at `n` has made `u` of the tree `t`. Where `known` holds, it lowers
what it changes. -/
structure Becomes (known : Prop) (l : Layout) (t : Tree) (n : NodeId) (out : NodeId × Bool)
    (u : Tree) : Prop where
  formed : u.Formed
  lowers : known → Lowers l out.2.toNat t u
  idle : out.2 = false → u = t ∧ out.1 = n

namespace Becomes

variable {known : Prop} {l : Layout} {out : NodeId × Bool} {w : Tree}

theorem refl (formed : t.Formed) : Becomes known l t n (n, false) t :=
  ⟨formed, fun _ => .refl, fun _ => ⟨rfl, rfl⟩⟩

/-- A tree that was changed. -/
theorem fired (formed : u.Formed) (lowers : known → Lowers l 1 t u) :
    Becomes known l t n (m, true) u :=
  ⟨formed, lowers, nofun⟩

theorem trans {first second : Bool} (h : Becomes known l t n (m, first) u)
    (h' : Becomes known l u m (k, second) w) : Becomes known l t n (k, first || second) w where
  formed := h'.formed
  lowers := fun yes => ((h.lowers yes).trans (h'.lowers yes)).weaken (by
    cases first <;> cases second <;> simp)
  idle := fun off => by
    obtain ⟨rfl, rfl⟩ := Bool.or_eq_false_iff.mp off
    obtain ⟨rfl, rfl⟩ := h.idle rfl
    exact h'.idle rfl

/-- What was made gives way to another tree. -/
theorem gives (h : Becomes known l t n out u) (formed : w.Formed)
    (lowers : known → Lowers l 1 u w) : Becomes known l t n (k, true) w :=
  .fired formed fun yes => ((h.lowers yes).trans (lowers yes)).weaken (Nat.le_add_left 1 _)

theorem potential_le (h : Becomes known l t n out u) (yes : known) :
    potential l u ≤ potential l t :=
  (Nat.le_add_right _ _).trans (h.lowers yes).potential_le

end Becomes

/-- The tree `t` at `n` after a pass, one with `Q` for whether it was changed. -/
def Passed (known : Prop) (Q : Bool → Tree → Prop) (r₀ : Region) (ns₀ : List NodeId)
    (ps : List Piece) (t : Tree) (n : NodeId) (up : Option NodeId) (out : NodeId × Bool)
    (r : Region) : Prop :=
  ∃ u, (Becomes known r₀.layout t n out u ∧ Q out.2 u) ∧ Regrown r₀ ns₀ ps n up u out.1 r

/-- The trees `us` at `ks`, all under one parent, have become `us'`, the pieces `qs`. -/
structure PassedAll (known : Prop) (Q : Tree → Bool → Tree → Prop) (l : Layout) (us : List Tree)
    (ks : List NodeId) (up : Option NodeId) (outs : List (NodeId × Bool)) (us' : List Tree)
    (qs : List Piece) : Prop where
  trees : Scattered us' (outs.map Prod.fst) qs
  length : us.length = us'.length
  formed : ∀ u ∈ us', u.Formed
  lowers : known → LowersAll l (outs.any Prod.snd).toNat us us'
  /-- Where the roots are the same, so are their parents. -/
  same : outs.map Prod.fst = ks → qs = planted us' ks up
  idle : outs.any Prod.snd = false → us' = us ∧ outs.map Prod.fst = ks
  each : List.Forall₂ (fun u u' => ∃ c, (outs.any Prod.snd = false → c = false) ∧ Q u c u') us us'

section passes

variable {known : Prop} {Q : Tree → Bool → Tree → Prop} {pass : Pass} {us us' : List Tree}
  {ks : List NodeId} {qs : List Piece}
  {i : Nat} {l : Layout} {out : NodeId × Bool} {outs : List (NodeId × Bool)}

theorem PassedAll.cons (first : Becomes known l t k out u) (kept : Q t out.2 u)
    (here : out.1 = k → up' = up) (rest : PassedAll known Q l us ks up outs us' qs) :
    PassedAll known Q l (t :: us) (k :: ks) up (out :: outs) (u :: us')
      (.tree u out.1 up' :: qs) where
  trees := .cons rest.trees
  length := by simp [rest.length]
  formed := List.forall_mem_cons.mpr ⟨first.formed, rest.formed⟩
  lowers := fun yes => by
    refine (LowersAll.cons (first.lowers yes) (rest.lowers yes)).weaken ?_
    rw [List.any_cons]
    cases out.2 <;> cases outs.any Prod.snd <;> simp
  same := fun same => by
    obtain ⟨root, others⟩ := List.cons.inj same
    rw [rest.same others, here root, show out.1 = k from root]
    rfl
  idle := fun off => by
    obtain ⟨here, others⟩ := Bool.or_eq_false_iff.mp off
    obtain ⟨rfl, root⟩ := first.idle here
    obtain ⟨rfl, roots⟩ := rest.idle others
    exact ⟨rfl, by rw [List.map_cons, root, roots]⟩
  each := by
    refine .cons ⟨_, fun off => (Bool.or_eq_false_iff.mp off).1, kept⟩ (rest.each.imp ?_)
    rintro u u' ⟨c, idle, kept⟩
    exact ⟨c, fun off => idle (Bool.or_eq_false_iff.mp off).2, kept⟩

/-- Other trees in slot `i` of a node, and what that makes of the node. -/
theorem Becomes.ofSlot {changed : Bool} (laid : (Tree.node code ty attrs slots).Formed)
    (found : slots[i]? = some us) (length : us.length = us'.length) (formed : ∀ u ∈ us', u.Formed)
    (lowers : known → LowersAll l changed.toNat us us') (idle : changed = false → us' = us) :
    Becomes known l (.node code ty attrs slots) n (n, changed)
      (.node code ty attrs (slots.set i us')) := by
  obtain ⟨inside, rfl⟩ := List.getElem?_eq_some_iff.mp found
  have same : slots.map List.length = (slots.set i us').map List.length := by
    rw [List.map_set, ← length, ← List.map_set, List.set_getElem_self]
  refine ⟨laid.relaid same (fun t mem => ?_) _ _, fun yes => .kids same ((lowers yes).set found),
    fun off => ⟨?_, rfl⟩⟩
  · obtain ⟨vs, slot, here⟩ := List.mem_flatten.mp mem
    rcases List.mem_or_eq_of_mem_set slot with old | rfl
    · exact laid.kid t (List.mem_flatten.mpr ⟨vs, old, here⟩)
    · exact formed t here
  · rw [idle off, List.set_getElem_self]

/-- Slot `i` of a node after a pass over its trees `us`, which have become trees with `P`. -/
def SlotPassed (known : Prop) (P : Bool → List Tree → Prop) (r₀ : Region) (ns₀ : List NodeId)
    (ps : List Piece) (code : Op) (ty : Ty) (attrs : Attrs) (slots : List (List Tree)) (n : NodeId)
    (up : Option NodeId) (i : Nat) (us : List Tree) (changed : Bool) (r : Region) : Prop :=
  ∃ us', (us.length = us'.length ∧ P changed us') ∧
    Becomes known r₀.layout (.node code ty attrs slots) n (n, changed)
      (.node code ty attrs (slots.set i us')) ∧
    Forest r₀ ns₀ (.tree (.node code ty attrs (slots.set i us')) n up :: ps) r

/-- A pass at each of several trees. -/
theorem Forest.passList (same : us.length = ks.length)
    (each : ∀ u ∈ us, ∀ k ps r, Forest r₀ ns₀ (.tree u k up :: ps) r →
      Meets (pass k) r F (Passed known (Q u) r₀ ns₀ ps u k up))
    (h : Forest r₀ ns₀ (planted us ks up ++ ps) r) :
    Meets (ks.mapM pass) r F fun outs r' => ∃ us' qs,
      PassedAll known Q r₀.layout us ks up outs us' qs ∧ Forest r₀ ns₀ (qs ++ ps) r' := by
  induction us generalizing ks ps r with
  | nil =>
    obtain rfl := List.length_eq_zero_iff.mp same.symm
    exact ⟨[], [], ⟨.nil, rfl, by simp, fun _ => .refl, fun _ => rfl, fun _ => ⟨rfl, rfl⟩, .nil⟩, h⟩
  | cons u us ih =>
    cases ks with
    | nil => simp at same
    | cons k ks =>
      have later {r : Region} {qs : List Piece} (h : Forest r₀ ns₀ (planted us ks up ++ qs) r) :=
        ih (by simpa using same) (fun v mem => each v (List.mem_cons_of_mem _ mem)) h
      rw [List.mapM_cons]
      refine Meets.bind (each u List.mem_cons_self k _ r h) ?_
      rintro out r₁ ⟨u', ⟨first, kept⟩, ⟨stays, h⟩ | h⟩
      · refine Meets.bind (later (h.back _)) ?_
        rintro outs r₂ ⟨us', qs, passed, h⟩
        rw [← stays] at h
        exact ⟨_, _, passed.cons first kept fun _ => rfl, h.front qs⟩
      · have moved : out.1 ≠ k := h.root_ne (q := .gone k) List.mem_cons_self
        refine Meets.bind (later ((h.swap.forget).back _)) ?_
        rintro outs r₂ ⟨us', qs, passed, h⟩
        exact ⟨_, _, passed.cons first kept fun same => absurd same moved, h.front qs⟩

namespace Forest

/-- The roots of the passed trees are written back. -/
theorem rejoinSlot {ids : List (List NodeId)} (fits : Fits slots ids) (inside : i < ids.length)
    (passed : PassedAll known Q l us ks (some n) outs us' qs)
    (h : Forest r₀ ns₀ (.stub (.fresh code ty attrs ids) n up ::
      (qs ++ (siblings slots ids i n ++ ps))) r) :
    Meets (Edit.setKids n i (outs.map Prod.fst)) r F fun _ r' =>
      Forest r₀ ns₀ (.tree (.node code ty attrs (slots.set i us')) n up :: ps) r' :=
  (setKids inside passed.trees h).to fun _ _ => joinSlot fits inside passed.trees.length

/-- The roots of the passed trees are the old ones. -/
theorem resumeSlot {ids : List (List NodeId)} (fits : Fits slots ids) (slot : ids[i]? = some ks)
    (passed : PassedAll known Q l us ks (some n) outs us' qs) (same : outs.map Prod.fst = ks)
    (h : Forest r₀ ns₀ (.stub (.fresh code ty attrs ids) n up ::
      (qs ++ (siblings slots ids i n ++ ps))) r) :
    Forest r₀ ns₀ (.tree (.node code ty attrs (slots.set i us')) n up :: ps) r := by
  obtain ⟨inside, rfl⟩ := List.getElem?_eq_some_iff.mp slot
  have lengths := passed.trees.length
  rw [same] at lengths
  refine joinSlot fits inside lengths ?_
  rwa [List.set_getElem_self, ← passed.same same]

end Forest

end passes

/-! ### Folding trees -/

namespace Forest

section folding

variable {fold : Pass} {us : List Tree} {ks : List NodeId} {i : Nat}

/-- Whether there is a statement among some trees. -/
theorem anyStmt (h : Forest r₀ ns₀ ps r) (same : us.length = ks.length)
    (inside : ∀ p ∈ planted us ks up, p ∈ ps) :
    Meets (ks.anyM Edit.isStmt) r F fun found r' => r' = r ∧ found = us.any (·.code.isStmt) := by
  induction us generalizing ks with
  | nil =>
    obtain rfl := List.length_eq_zero_iff.mp same.symm
    exact ⟨rfl, rfl⟩
  | cons u us ih =>
    cases ks with
    | nil => cases same
    | cons k ks =>
      obtain ⟨here, there⟩ := List.forall_mem_cons.mp inside
      obtain ⟨d, found, tops, _⟩ := h.node here
      have stmt : d.isStmt = u.code.isStmt := by rw [Node.isStmt, tops.code]
      simp only [List.anyM, Edit.isStmt, Edit.node, meets_bind, meets_ask, Region.node_of found,
        yields_ok, meets_pure, stmt, List.any_cons]
      cases u.code.isStmt with
      | true => exact ⟨rfl, rfl⟩
      | false => exact ih (Nat.succ.inj same) there

theorem foldSlot (found : slots[i]? = some us) (laid : (Tree.node code ty attrs slots).Formed)
    (each : ∀ u ∈ us, ∀ k ps r, Forest r₀ ns₀ (.tree u k (some n) :: ps) r →
      Meets (fold k) r Fault.Proper (Passed True (Folded s r₀ u) r₀ ns₀ ps u k (some n)))
    (h : Forest r₀ ns₀ (.tree (.node code ty attrs slots) n up :: ps) r) :
    Meets (foldSlot fold n i) r Fault.Proper
      (SlotPassed True (FoldedSlot s r₀ us) r₀ ns₀ ps code ty attrs slots n up i us) := by
  have unchanged := h
  obtain ⟨ids, ks, fits, slot, lengths, h⟩ := h.splitSlot found
  obtain ⟨_, _, _, at_n⟩ := Region.node?_of_core (h.stub_found List.mem_cons_self)
  have inside : i < ids.length := (List.getElem?_eq_some_iff.mp slot).1
  simp only [Peephole.foldSlot, Edit.kids, meets_bind, meets_ask, Region.kids_of at_n slot,
    yields_ok]
  refine (h.anyStmt lengths fun p mem => List.mem_cons_of_mem _ (List.mem_append_left _ mem)).to ?_
  rintro stmt _ ⟨rfl, answer⟩
  cases stmt with
  | true =>
    have idle : slots.set i us = slots := by
      obtain ⟨lt, rfl⟩ := List.getElem?_eq_some_iff.mp found
      exact List.set_getElem_self lt
    exact ⟨us, ⟨rfl, .inl ⟨List.any_eq_true.mp answer.symm, rfl⟩⟩, by rw [idle]; exact .refl laid,
      by rwa [idle]⟩
  | false =>
    have exprs : ∀ u ∈ us, u.code.isStmt = false := fun u mem =>
      Bool.eq_false_of_not_eq_true (List.any_eq_false.mp answer.symm u mem)
    simp only [Bool.false_eq_true, if_false, meets_bind]
    refine (passList lengths each (h.back _)).to ?_
    rintro outs r₁ ⟨us', qs, passed, h⟩
    have h := h.front qs
    have becomes := Becomes.ofSlot (n := n) laid found passed.length passed.formed passed.lowers
      fun off => (passed.idle off).1
    have folded : FoldedSlot s r₀ us (outs.any Prod.snd) us' := .inr ⟨exprs, passed.each⟩
    split
    · rename_i changed
      refine Meets.bind (rejoinSlot fits inside passed h) fun _ _ h => ?_
      exact ⟨us', ⟨passed.length, changed ▸ folded⟩, changed ▸ becomes, h⟩
    · rename_i changed
      have off := Bool.eq_false_of_not_eq_true changed
      exact ⟨us', ⟨passed.length, off ▸ folded⟩, off ▸ becomes,
        resumeSlot fits slot passed (passed.idle off).2 h⟩

theorem foldSlots {is : List Nat} {fuel : Nat} (distinct : is.Nodup)
    (laid : (Tree.node code ty attrs slots).Formed)
    (within : ∀ i ∈ is, ∃ us, slots[i]? = some us ∧ ∀ u ∈ us, u.size ≤ fuel)
    (each : ∀ u, u.Formed → u.size ≤ fuel → ∀ k ps r, Forest r₀ ns₀ (.tree u k (some n) :: ps) r →
      Meets (fold k) r Fault.Proper (Passed True (Folded s r₀ u) r₀ ns₀ ps u k (some n)))
    (h : Forest r₀ ns₀ (.tree (.node code ty attrs slots) n up :: ps) r) :
    Meets (someOf (Peephole.foldSlot fold n) is) r Fault.Proper fun changed r' => ∃ slots',
      FoldedAt s r₀ is changed slots slots' ∧
      Becomes True r₀.layout (.node code ty attrs slots) n (n, changed)
        (.node code ty attrs slots') ∧
      Forest r₀ ns₀ (.tree (.node code ty attrs slots') n up :: ps) r' := by
  induction is generalizing slots r with
  | nil => exact ⟨slots, .nil, .refl laid, h⟩
  | cons i is ih =>
    obtain ⟨fresh, distinct⟩ := List.nodup_cons.mp distinct
    obtain ⟨us, found, small⟩ := within i List.mem_cons_self
    rw [meets_someOf_cons]
    have here := foldSlot found laid (fun u mem => each u
      (laid.kid u (List.mem_flatten.mpr ⟨us, List.mem_of_getElem? found, mem⟩)) (small u mem)) h
    refine here.to ?_
    rintro changed r₁ ⟨us', ⟨_, folded⟩, becomes, h⟩
    have within' : ∀ j ∈ is, ∃ vs, (slots.set i us')[j]? = some vs ∧ ∀ v ∈ vs, v.size ≤ fuel := by
      intro j mem
      obtain ⟨vs, slot, small⟩ := within j (List.mem_cons_of_mem i mem)
      have other : i ≠ j := fun same => fresh (same ▸ mem)
      exact ⟨vs, by rw [List.getElem?_set_ne other, slot], small⟩
    refine (ih distinct becomes.formed within' h).to ?_
    rintro changed' r₂ ⟨slots', folded', becomes', h⟩
    exact ⟨slots', folded'.cons fresh found folded, becomes.trans becomes', h⟩

end folding

theorem foldWithin {fuel : Nat} (formed : t.Formed) (deep : t.size ≤ fuel)
    (h : Forest r₀ ns₀ (.tree t n up :: ps) r) :
    Meets (foldWithin s fuel n) r Fault.Proper (Passed True (Folded s r₀ t) r₀ ns₀ ps t n up) := by
  induction fuel generalizing t n up ps r with
  | zero =>
    cases t
    rw [size_node] at deep
    omega
  | succ fuel ih =>
    obtain ⟨d, found, _, fits⟩ := h.node List.mem_cons_self
    cases t with
    | node code ty attrs slots =>
      simp only [Peephole.foldWithin, Edit.node, meets_bind, meets_ask, Region.node_of found,
        yields_ok, ← fits.length]
      have small : ∀ u ∈ slots.flatten, u.size ≤ fuel := fun u mem => by
        have := size_le_sizeList mem
        rw [size_node] at deep
        omega
      have within : ∀ i ∈ List.range slots.length, ∃ us, slots[i]? = some us ∧
          ∀ u ∈ us, u.size ≤ fuel := by
        intro i mem
        have inside := List.mem_range.mp mem
        refine ⟨slots[i], List.getElem?_eq_getElem inside, fun u mem => small u ?_⟩
        exact List.mem_flatten.mpr ⟨_, List.getElem_mem inside, mem⟩
      refine (foldSlots List.nodup_range formed within
        (fun u formed small k ps r h => ih formed small h) h).to ?_
      rintro changed r₁ ⟨slots', kids, becomes, h⟩
      have kids := kids.all
      refine (foldNode becomes.formed h).to ?_
      rintro out r₂ ⟨fires, done⟩
      cases out with
      | none =>
        refine ⟨_, ⟨becomes, .still kids formed (fun off => ?_) fires.symm⟩, .here done⟩
        exact (Tree.node.inj (becomes.idle off).1).2.2.2
      | some m =>
        obtain ⟨u, ⟨step, remains⟩, h⟩ := done
        exact ⟨u, ⟨becomes.gives (step.formed becomes.formed) fun _ => step.lowers,
          .collapsed kids fires.symm step remains⟩, h⟩

theorem foldTree (formed : t.Formed) (h : Forest r₀ ns₀ (.tree t n up :: ps) r) :
    Meets (foldTree s n) r Fault.Proper (Passed True (Folded s r₀ t) r₀ ns₀ ps t n up) := by
  rw [Peephole.foldTree, meets_bind, meets_get]
  exact foldWithin formed (Nat.le_succ_of_le h.size_le) h

/-! ### Moving constants -/

theorem commuteStep (formed : (Tree.node code ty attrs slots).Formed)
    (binary : code.isBinary = true)
    (h : Forest r₀ ns₀ (.tree (.node code ty attrs slots) n up :: ps) r) :
    Meets (commuteStep n) r Fault.Proper fun out r' =>
      Rearranges r₀ ns₀ ps (.node code ty attrs slots) n up out r' ∧
      (out = none → crosses (.node code ty attrs slots) = false) := by
  obtain ⟨d, found, tops, _⟩ := h.node List.mem_cons_self
  have code' : d.code = code := tops.code
  simp only [Peephole.commuteStep, commute, meets_bind, Edit.node, meets_ask, Region.node_of found,
    yields_ok, code']
  cases may : code.commuted? with
  | none => exact ⟨h, fun _ => crosses_of_fixed may⟩
  | some swapped =>
    simp only [meets_bind]
    rcases formed.binary_slots binary with ⟨a, b, rfl⟩ | gap
    swap
    · exact (h.operands_gap gap).to fun _ _ => False.elim
    obtain ⟨x, y, d, left, right, p, split⟩ := h.pair
    simp only [p.operands, meets_ask, p.leftNode, yields_ok, p.leftTops.isConst]
    cases const : a.isConst with
    | false => exact ⟨h, fun _ => by rw [crosses, commutes, const, Bool.and_false, Bool.false_and]⟩
    | true =>
      simp only [Bool.not_true, Bool.false_eq_true, if_false, meets_bind, meets_ask, p.rightNode,
        yields_ok, p.rightTops.isConst]
      cases other : b.isConst with
      | true => exact ⟨h, fun _ => by rw [crosses, commutes, other, Bool.not_true, Bool.and_false]⟩
      | false =>
        simp only [Bool.false_eq_true, if_false, meets_bind, meets_discard, meets_pure]
        refine (takeKid (i := 0) rfl split).to fun _ r₁ split => ?_
        refine (takeKid (i := 1) rfl split.swapNext).to fun _ r₂ split => ?_
        refine (setKid (i := 0) (by simp) split).to fun _ r₃ split => ?_
        refine (setKid (i := 1) (by simp) split.swapNext).to fun _ r₄ split => ?_
        obtain ⟨_, _, relation, binary', _⟩ := commuted?_spec ty may
        have slots : code.numSlots = swapped.numSlots := by
          rw [numSlots_of_isBinary binary, numSlots_of_isBinary (binary'.trans binary)]
        refine (split.setCode slots).to fun _ r₅ split => ?_
        refine (split.fired _).to fun _ r₆ split => ?_
        have h := split.swapNext.joinTwo
        exact ⟨⟨_, ⟨.commute binary may const other, relation.trans⟩, .here h⟩,
          fun stays => absurd stays (by simp)⟩

theorem mergedType {t0 t1 : Ty} (h : Forest r₀ ns₀ ps r) :
    Meets (mergedType t0 t1) r F fun q r' =>
      (t0.isPointer = false → t0.isChunk = false → q = t1) ∧ Forest r₀ ns₀ ps r' := by
  simp only [Peephole.mergedType, Edit.layout, meets_bind, meets_get, meets_pure]
  split
  · rename_i pointer
    refine (h.intern _).to fun _ _ kept => ⟨fun plain => ?_, kept.2⟩
    simp [pointer] at plain
  · split
    · rename_i chunk
      refine (h.intern _).to fun _ _ kept => ⟨fun _ plain => ?_, kept.2⟩
      simp [chunk] at plain
    · exact ⟨fun _ _ => rfl, h⟩

theorem mergeConstants (formed : (Tree.node code ty attrs slots).Formed)
    (binary : code.isBinary = true)
    (h : Forest r₀ ns₀ (.tree (.node code ty attrs slots) n up :: ps) r) :
    Meets (mergeConstants s n) r Fault.Proper (Fires r₀ ns₀ ps (.node code ty attrs slots) n up
      fun u => ∃ a b, slots = [[a], [b]] ∧ Merges r₀.layout code ty b a u) := by
  rcases formed.binary_slots binary with ⟨a, b, rfl⟩ | gap
  swap
  · obtain ⟨d, found, _⟩ := h.node List.mem_cons_self
    simp only [Peephole.mergeConstants, Edit.node, meets_bind, meets_ask, Region.node_of found,
      yields_ok]
    exact (h.operands_gap gap).to fun _ _ => False.elim
  obtain ⟨x, y, d, left, right, p, split⟩ := h.pair
  simp only [Peephole.mergeConstants, meets_bind, p.operands, Edit.node, meets_ask, p.node,
    p.rightNode, yields_ok]
  cases right' : right.intLit? with
  | none => exact h
  | some c₂ =>
    simp only [meets_bind, meets_ask, p.leftNode, yields_ok]
    cases may : mayMerge d left with
    | false => exact h
    | true =>
      simp only [mayMerge, Bool.and_eq_true, Bool.or_eq_true, beq_iff_eq, p.tops.code, p.tops.ty,
        p.leftTops.code, p.leftTops.ty] at may
      obtain ⟨⟨⟨associative, outer⟩, level⟩, type⟩ := may
      obtain ⟨inner, ty', attrs', slots⟩ := a
      obtain rfl : ty' = ty := type
      have associative : inner.isAssociative = true := associative
      have binary' := isBinary_of_isAssociative associative
      obtain ⟨xs, vs, rfl, few, few'⟩ := formed.left.two_slots binary'
      rcases nil_or_singleton few' with rfl | ⟨c, rfl⟩
      · obtain ⟨f, fault, proper⟩ := split.swap.kid_gap (i := 1) rfl
        simp only [Bool.not_true, Bool.false_eq_true, if_false, Edit.kid, meets_bind, meets_ask,
          fault]
        exact proper
      obtain ⟨ids, ks, fits, slot, lengths, split⟩ := split.swap.splitSlot (i := 1) rfl
      obtain ⟨w, rfl⟩ := List.length_eq_one_iff.mp lengths.symm
      have inside := (List.getElem?_eq_some_iff.mp slot).1
      have stays : ids.set 1 [w] = ids := by
        obtain ⟨lt, at_i⟩ := List.getElem?_eq_some_iff.mp slot
        rw [← at_i, List.set_getElem_self]
      obtain ⟨_, _, _, at_x⟩ := Region.node?_of_core (split.stub_found List.mem_cons_self)
      obtain ⟨dw, at_w, wTops, _⟩ : ∃ d, r.node? w = some d ∧ Tops d c ∧ _ :=
        split.node (List.mem_cons_of_mem _ List.mem_cons_self)
      have rejoin {r : Region} {v : Tree} {k : NodeId} (split : Forest r₀ ns₀
          (.stub (.fresh inner ty' attrs' (ids.set 1 [k])) x (some n) ::
            .tree v k (some x) :: (siblings [xs, [c]] ids 1 x ++
              .stub (.fresh code ty' attrs [[x], [y]]) n up :: .tree b y (some n) :: ps)) r) :
          Forest r₀ ns₀ (.tree (two code ty' attrs (.node inner ty' attrs' [xs, [v]]) b) n up ::
            ps) r :=
        (joinSlot fits inside (show [v].length = [k].length from rfl) split).swap.joinTwo
      simp only [Bool.not_true, Bool.false_eq_true, if_false, Edit.kid, Edit.layout, meets_bind,
        meets_ask, Region.kid_of at_x slot, Region.node_of at_w, yields_ok]
      cases value' : dw.intLit? with
      | none => exact h
      | some c₁ =>
        simp only [meets_bind, meets_get, meets_pure, p.tops.code, p.tops.ty, wTops.ty,
          p.rightTops.ty, split.layout]
        refine (split.require _ _ _).to ?_
        rintro ok r₁ ⟨_, split⟩
        cases ok with
        | false => exact rejoin (by rwa [stays])
        | true =>
          simp only [if_true]
          cases result : intBinary (two code ty' attrs (.node inner ty' attrs' [xs, [c]]) b).code
              c₁ c₂ (c.ty.isUnsigned || b.ty.isUnsigned)
              (max (c.ty.byteSize r₀.layout) (b.ty.byteSize r₀.layout) * 8) with
          | none => exact rejoin (by rwa [stays])
          | some w =>
            rw [meets_bind]
            refine split.mergedType.to fun q r₂ kept => ?_
            obtain ⟨own, split⟩ := kept
            rw [meets_bind, meets_lift]
            refine Yields.imp Region.normalizeInt_answers (fun _ => Fault.Plain.proper)
              fun v range _ => ?_
            refine Meets.bind (split.literal _ _) fun k r₃ split => ?_
            simp only [meets_bind, meets_discard]
            refine (takeKid slot split.swap.swapNext).to fun _ r₄ split => ?_
            refine split.swap.discardTree.to fun _ r₅ split => ?_
            refine (setKid (by simpa using inside) split.forget).to fun _ r₆ split => ?_
            rw [List.set_set] at split
            refine ((rejoin split).fired _).to fun _ r₇ h => ?_
            refine (h.spliceKid (i := 0) rfl).to fun m r₈ h => ?_
            exact ⟨_, ⟨_, _, rfl, .merge associative outer level few (wTops.intLit? ▸ value')
              (p.rightTops.intLit? ▸ right') result own range⟩, .moved h⟩

theorem mergeStep (formed : (Tree.node code ty attrs slots).Formed) (binary : code.isBinary = true)
    (h : Forest r₀ ns₀ (.tree (.node code ty attrs slots) n up :: ps) r) :
    Meets (mergeStep s n) r Fault.Proper
      (Rearranges r₀ ns₀ ps (.node code ty attrs slots) n up) := by
  obtain ⟨d, found, _⟩ := h.node List.mem_cons_self
  simp only [Peephole.mergeStep, Edit.node, meets_bind, meets_ask, Region.node_of found, yields_ok]
  split
  · refine (mergeConstants formed binary h).to fun out r' fires => fires.mono ?_
    rintro u ⟨a, b, rfl, merges⟩
    exact merges.rearranges binary
  · exact h

theorem foldStep (formed : t.Formed) (h : Forest r₀ ns₀ (.tree t n up :: ps) r) :
    Meets (foldStep s n) r Fault.Proper fun out r' =>
      Fires r₀ ns₀ ps t n up (fun u => u.Formed ∧ Lowers r₀.layout 1 t u ∧
        (OrderlyBelow s r₀ t → OrderlyBelow s r₀ u)) out r' ∧
      (out = none → s.foldConst = true → Frozen s r₀ t) := by
  unfold Peephole.foldStep
  cases on : s.foldConst with
  | false => exact ⟨h, fun _ off => Bool.noConfusion off⟩
  | true =>
    refine Meets.bind (foldTree formed h) ?_
    rintro ⟨m, changed⟩ r₁ ⟨u, ⟨becomes, folded⟩, after⟩
    cases changed with
    | true =>
      exact ⟨⟨u, ⟨becomes.formed, becomes.lowers trivial, folded.below on⟩, after⟩,
        fun stays => absurd stays (by simp)⟩
    | false =>
      obtain ⟨rfl, rfl⟩ := becomes.idle rfl
      exact ⟨after.same, fun _ _ => folded.frozen rfl⟩

end Forest

end Peephole
