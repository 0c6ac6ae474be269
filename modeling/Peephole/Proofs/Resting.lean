import Peephole.Proofs.Guards

/-!
# Rest

Refinement only reads a settled tree: it answers the root that it was given, reports no change,
and leaves the region as it is.
-/

namespace Peephole

open Edit Peephole.Tree

variable {α β : Type} {F : Fault → Prop} {s s' : Setting} {l : Layout} {r : Region}
  {n x y : NodeId} {i fuel : Nat} {code : Op} {ty : Ty} {attrs : Attrs} {a b p t : Tree} {d : Node}
  {pred whole : Bool} {pass : Pass}

namespace Gives

theorem bind {m : Edit α} {k : α → Edit β} {v : α} {w : β} (first : Gives m r v)
    (next : Gives (k v) r w) : Gives (m >>= k) r w := by
  rw [gives_iff, meets_bind, first.meets]
  exact gives_iff.mp next

theorem node (found : r.node n = .ok d) : Gives (Edit.node n) r d := by
  rw [gives_iff, Edit.node, meets_ask, found]
  exact ⟨rfl, rfl⟩

theorem kid (found : r.kid n i = .ok x) : Gives (Edit.kid n i) r x := by
  rw [gives_iff, Edit.kid, meets_ask, found]
  exact ⟨rfl, rfl⟩

theorem someOf {f : α → Edit Bool} {vs : List α} (each : ∀ v ∈ vs, Gives (f v) r false) :
    Gives (Edit.someOf f vs) r false := by
  induction vs with
  | nil => rfl
  | cons v vs ih =>
    rw [gives_iff, meets_someOf_cons, (each v List.mem_cons_self).meets,
      (ih fun w mem => each w (List.mem_cons_of_mem v mem)).meets]
    exact ⟨rfl, rfl⟩

theorem anyM {f : α → Edit Bool} {vs : List α} (each : ∀ v ∈ vs, Gives (f v) r false) :
    Gives (vs.anyM f) r false := by
  induction vs with
  | nil => rfl
  | cons v vs ih =>
    exact (each v List.mem_cons_self).bind (ih fun w mem => each w (List.mem_cons_of_mem v mem))

theorem mapM {f : α → Edit β} {g : α → β} {vs : List α} (each : ∀ v ∈ vs, Gives (f v) r (g v)) :
    Gives (vs.mapM f) r (vs.map g) := by
  induction vs with
  | nil => rfl
  | cons v vs ih =>
    rw [List.mapM_cons]
    exact (each v List.mem_cons_self).bind
      ((ih fun w mem => each w (List.mem_cons_of_mem v mem)).bind rfl)

end Gives

/-! ### Folding -/

/-- Where no kid is changed, folding has to do with the node itself only. -/
theorem foldWithin_kids (found : r.node n = .ok d)
    (each : ∀ k ∈ d.kids, Gives (isStmt k) r false ∧ Gives (foldWithin s fuel k) r (k, false))
    {Q : NodeId × Bool → Region → Prop} :
    Meets (foldWithin s (fuel + 1) n) r F Q ↔
      Meets (foldNode s n) r F fun out r' => Q (out.elim (n, false) (·, true)) r' := by
  have slots : Gives (someOf (foldSlot (foldWithin s fuel) n) (List.range d.slots.length)) r
      false := by
    refine .someOf fun i mem => ?_
    have inside := List.mem_range.mp mem
    have kids : r.kids n i = .ok d.slots[i] :=
      Region.kids_of (Region.node?_of_node found) (List.getElem?_eq_getElem inside)
    have mine (k : NodeId) (mem : k ∈ d.slots[i]) : k ∈ d.kids :=
      List.mem_flatten.mpr ⟨_, List.getElem_mem inside, mem⟩
    have stmts : Gives (d.slots[i].anyM isStmt) r false :=
      .anyM fun k mem => (each k (mine k mem)).1
    have folded : Gives (d.slots[i].mapM (foldWithin s fuel)) r (d.slots[i].map (·, false)) :=
      .mapM fun k mem => (each k (mine k mem)).2
    have unchanged : ((d.slots[i].map fun k => (k, false)).any (·.2)) = false := by simp
    rw [gives_iff, foldSlot, meets_bind, Edit.kids, meets_ask, kids, yields_ok, meets_bind,
      stmts.meets]
    simp only [Bool.false_eq_true, if_false, meets_bind, folded.meets, unchanged]
    exact ⟨rfl, rfl⟩
  rw [foldWithin, meets_bind, (Gives.node found).meets, meets_bind, slots.meets, meets_bind]
  constructor
  · refine fun h => h.to fun out r' done => ?_
    cases out <;> exact done
  · refine fun h => h.to fun out r' done => ?_
    cases out <;> exact done

theorem Stood.givesStmt (h : Stood l t n r) : Gives (Edit.isStmt n) r false := by
  obtain ⟨d, found, _⟩ := h.node
  rw [gives_iff, Edit.isStmt, meets_bind, (Gives.node (Region.node_of found)).meets,
    h.isStmt (Region.node_of found)]
  exact ⟨rfl, rfl⟩

/-- Operations that do not fold. -/
theorem foldNode_other (found : r.node n = .ok d) (plain : d.code.isBinary = false)
    (other : d.code ≠ .neg ∧ d.code ≠ .lnot ∧ d.code ≠ .bnot) : Gives (foldNode s n) r none := by
  rw [gives_iff, foldNode, meets_bind, (Gives.node found).meets]
  simp only [plain, Bool.false_eq_true, if_false]
  split
  · exact absurd (by assumption) other.1
  · exact absurd (by assumption) other.2.1
  · exact absurd (by assumption) other.2.2
  · exact ⟨rfl, rfl⟩

theorem Single.kids {operand : Node} (p : Single l r code ty attrs a n x d operand) :
    d.kids = [x] := by
  simp [Node.kids, p.slots]

theorem Couple.kids {left right : Node} (p : Couple l r code ty attrs a b n x y d left right) :
    d.kids = [x, y] := by
  simp [Node.kids, p.slots]

theorem Triple.kids {d₀ d₁ d₂ : Node} {z : NodeId}
    (q : Triple l r ty attrs p a b n x y z d d₀ d₁ d₂) : d.kids = [x, y, z] := by
  simp [Node.kids, q.slots]

/-- Where nothing can be folded at a node or below, folding changes nothing. -/
theorem foldWithin_gives (found : r.node n = .ok d) (here : Gives (foldNode s n) r none)
    (each : ∀ k ∈ d.kids, Gives (isStmt k) r false ∧ Gives (foldWithin s fuel k) r (k, false)) :
    Gives (foldWithin s (fuel + 1) n) r (n, false) := by
  rw [gives_iff, foldWithin_kids found each, here.meets]
  exact ⟨rfl, rfl⟩

theorem foldWithin_one {operand : Node} (p : Single l r code ty attrs a n x d operand)
    (here : Gives (foldNode s n) r none) (below : Gives (foldWithin s fuel x) r (x, false)) :
    Gives (foldWithin s (fuel + 1) n) r (n, false) := by
  refine foldWithin_gives p.node here ?_
  rw [p.kids]
  exact List.forall_mem_singleton.mpr ⟨p.stood.givesStmt, below⟩

theorem foldWithin_rests (on : s.foldConst = true) (settled : Settled s l pred t)
    (h : Stood l t n r) (deep : t.size ≤ fuel) : Gives (foldWithin s' fuel n) r (n, false) := by
  induction settled generalizing n fuel with
  | @leaf _ code _ _ known =>
    obtain ⟨fuel, rfl⟩ := exists_succ_of_size_le deep
    obtain ⟨_, _, _, _, forest⟩ := h.drawn
    obtain ⟨d, found, tops, fits⟩ := forest.node List.mem_cons_self
    have none : d.slots = [] := List.length_eq_zero_iff.mp fits.length.symm
    have code' : d.code = code := tops.code
    refine foldWithin_gives (Region.node_of found) (foldNode_other (Region.node_of found) ?_ ?_) ?_
    · rw [code']
      rcases known with rfl | rfl | rfl <;> rfl
    · rw [code']
      rcases known with rfl | rfl | rfl <;> simp
    · simp [Node.kids, none]
  | through =>
    obtain ⟨x, d, base, found, code, slots, foundX, codeX, slotsX⟩ := h.through
    obtain ⟨fuel, rfl⟩ := Nat.exists_eq_add_of_le' deep
    have none : Gives (foldNode s' x) r none :=
      foldNode_other foundX (by rw [codeX]; rfl) (by rw [codeX]; simp)
    have below : Gives (foldWithin s' (fuel + 1) x) r (x, false) :=
      foldWithin_gives foundX none (by simp [Node.kids, slotsX])
    have expr : Gives (Edit.isStmt x) r false := by
      rw [gives_iff, Edit.isStmt, meets_bind, (Gives.node foundX).meets, Node.isStmt, codeX]
      exact ⟨rfl, rfl⟩
    refine foldWithin_gives found (foldNode_other found (by rw [code]; rfl) (by rw [code]; simp)) ?_
    simp only [Node.kids, slots, List.flatten_singleton]
    exact List.forall_mem_singleton.mpr ⟨expr, below⟩
  | @neg _ ty attrs a operand single value ih =>
    obtain ⟨fuel, rfl⟩ := exists_succ_of_size_le deep
    obtain ⟨x, d, dx, p⟩ := h.single rfl
    have guarded : Guarded l (foldNode s') (one .neg ty attrs a) _ :=
      foldNode_guarded_unary (.inl rfl)
    rw [value on] at guarded
    rw [size_one] at deep
    exact foldWithin_one p (guarded.rests h) (ih p.stood (by omega))
  | @not _ code ty attrs a known operand inverts value ih =>
    obtain ⟨fuel, rfl⟩ := exists_succ_of_size_le deep
    obtain ⟨x, d, dx, p⟩ := h.single (by rcases known with rfl | rfl <;> rfl)
    have guarded : Guarded l (foldNode s') (one code ty attrs a) _ :=
      foldNode_guarded_unary (.inr known)
    rw [value on] at guarded
    rw [size_one] at deep
    exact foldWithin_one p (guarded.rests h) (ih p.stood (by omega))
  | cvt operand other single value ih =>
    obtain ⟨fuel, rfl⟩ := exists_succ_of_size_le deep
    obtain ⟨x, d, dx, p⟩ := h.single rfl
    have code' : d.code = .cvt := p.tops.code
    rw [size_one] at deep
    exact foldWithin_one p (foldNode_other p.node (by rw [code']; rfl) (by rw [code']; simp))
      (ih p.stood (by omega))
  | @binary _ code ty attrs a b known left right value still ihL ihR =>
    obtain ⟨fuel, rfl⟩ := exists_succ_of_size_le deep
    obtain ⟨x, y, d, dx, dy, p⟩ := h.couple known
    have guarded : Guarded l (foldNode s') (two code ty attrs a b) _ := foldNode_guarded known
    rw [value on] at guarded
    rw [size_two] at deep
    refine foldWithin_gives p.node (guarded.rests h) ?_
    simp only [p.kids, List.forall_mem_cons, List.not_mem_nil, false_implies, implies_true,
      and_true]
    exact ⟨⟨p.leftStood.givesStmt, ihL p.leftStood (by omega)⟩, p.rightStood.givesStmt,
      ihR p.rightStood (by omega)⟩
  | select choice judge yes no value ihP ihY ihN =>
    obtain ⟨fuel, rfl⟩ := exists_succ_of_size_le deep
    obtain ⟨x, y, z, d, d₀, d₁, d₂, q⟩ := h.triple
    have code' : d.code = .select := q.tops.code
    rw [size_three] at deep
    refine foldWithin_gives q.node (foldNode_other q.node (by rw [code']; rfl)
      (by rw [code']; simp)) ?_
    simp only [q.kids, List.forall_mem_cons, List.not_mem_nil, false_implies, implies_true,
      and_true]
    exact ⟨⟨q.predStood.givesStmt, ihP q.predStood (by omega)⟩, ⟨q.yesStood.givesStmt,
      ihY q.yesStood (by omega)⟩, q.noStood.givesStmt, ihN q.noStood (by omega)⟩

theorem Stood.size_le (h : Stood l t n r) : t.size ≤ r.nodes.size := by
  obtain ⟨_, _, _, _, forest⟩ := h.drawn
  exact forest.size_le

theorem foldTree_rests (on : s.foldConst = true) (settled : Settled s l pred t)
    (h : Stood l t n r) : Gives (foldTree s' n) r (n, false) :=
  foldWithin_rests on settled h (Nat.le_succ_of_le h.size_le)

theorem foldIfAsked_rests (settled : Settled s l pred t) (h : Stood l t n r) :
    Gives (foldIfAsked s n) r (n, false) := by
  unfold foldIfAsked
  split
  · rename_i on
    exact foldTree_rests on settled h
  · rfl

/-- Folding at a unary node has to do with the node itself only, if its operand is settled. -/
theorem foldTree_one {Q : NodeId × Bool → Region → Prop} (unary : code.isUnary = true)
    (operand : Settled s l false a) (on : s.foldConst = true)
    (h : Stood l (one code ty attrs a) n r) :
    Meets (foldTree s' n) r F Q ↔
      Meets (foldNode s' n) r F fun out r' => Q (out.elim (n, false) (·, true)) r' := by
  obtain ⟨x, d, dx, p⟩ := h.single unary
  have size := h.size_le
  rw [size_one] at size
  rw [foldTree, meets_bind, meets_get, Region.depthBound]
  refine foldWithin_kids p.node ?_
  rw [p.kids]
  exact List.forall_mem_singleton.mpr
    ⟨p.stood.givesStmt, foldWithin_rests on operand p.stood (by omega)⟩

/-- Folding at a binary node has to do with the node itself only, if its operands are settled. -/
theorem foldTree_two {Q : NodeId × Bool → Region → Prop} (binary : code.isBinary = true)
    (left : Settled s l false a) (right : Settled s l false b) (on : s.foldConst = true)
    (h : Stood l (two code ty attrs a b) n r) :
    Meets (foldTree s' n) r F Q ↔
      Meets (foldNode s' n) r F fun out r' => Q (out.elim (n, false) (·, true)) r' := by
  obtain ⟨x, y, d, dx, dy, p⟩ := h.couple binary
  have size := h.size_le
  rw [size_two] at size
  rw [foldTree, meets_bind, meets_get, Region.depthBound]
  refine foldWithin_kids p.node ?_
  simp only [p.kids, List.forall_mem_cons, List.not_mem_nil, false_implies, implies_true, and_true]
  exact ⟨⟨p.leftStood.givesStmt, foldWithin_rests on left p.leftStood (by omega)⟩,
    p.rightStood.givesStmt, foldWithin_rests on right p.rightStood (by omega)⟩

theorem foldStep_two {Q : Option NodeId → Region → Prop} (binary : code.isBinary = true)
    (left : Settled s l false a) (right : Settled s l false b) (on : s.foldConst = true)
    (on' : s'.foldConst = true) (h : Stood l (two code ty attrs a b) n r) :
    Meets (foldStep s' n) r F Q ↔ Meets (foldNode s' n) r F Q := by
  have pick (out : Option NodeId) :
      (if (out.elim (n, false) (·, true)).2 then some (out.elim (n, false) (·, true)).1
        else none) = out := by
    cases out <;> rfl
  simp only [foldStep, on', Bool.not_true, Bool.false_eq_true, if_false, meets_bind,
    foldTree_two binary left right on h, meets_pure, pick]

theorem foldStep_guarded (binary : code.isBinary = true) (left : Settled s l false a)
    (right : Settled s l false b) (asked : s'.foldConst = true → s.foldConst = true) :
    Guarded l (foldStep s') (two code ty attrs a b) (s'.foldConst && folds l code a b) := by
  intro n r h
  cases on : s'.foldConst with
  | false =>
    rw [foldStep, on]
    exact ⟨rfl, rfl⟩
  | true =>
    rw [foldStep_two binary left right (asked on) on h, Bool.true_and]
    exact foldNode_guarded binary n r h

/-! ### Binary operations -/

theorem settleStep_guarded (binary : code.isBinary = true) (left : Settled s l false a)
    (right : Settled s l false b) :
    Guarded l (settleStep s pass whole) (two code ty attrs a b)
      (restless s l whole code ty a b) := by
  intro n r h
  obtain ⟨d, found, tops, _⟩ := h.node
  have code' : d.code = code := tops.code
  let own : Setting := { s with foldConst := s.foldConst && whole }
  have folding : Guarded l (foldStep own) (two code ty attrs a b) _ :=
    foldStep_guarded binary left right fun on => (Bool.and_eq_true_iff.mp on).1
  have coercing : Guarded l (coerceStep s pass) (two code ty attrs a b) _ :=
    coerceStep_guarded binary
  have steps := Guarded.firstOf (.cons folding (.cons (commuteStep_guarded binary)
    (.cons (mergeStep_guarded (s := s) binary) (.cons (identityStep_guarded (s := own) binary)
      (.cons (phiStep_guarded binary) (.cons coercing .nil))))))
  have same : [own.foldConst && folds l code a b, commutes code a b,
      s.reassociate && code.mergesConstants && merges l code ty a b,
      simplifies own l own.foldConst code ty a b, false, false].any id =
      restless s l whole code ty a b := by
    simp only [List.any_cons, List.any_nil, id, Bool.or_false, restless, Bool.or_assoc]
    rfl
  rw [same] at steps
  rw [settleStep, meets_bind, (Gives.node (Region.node_of found)).meets, code', binary]
  exact steps n r h

/-- No step on a settled operation. -/
theorem settleStep_rests (settled : Settled s l pred (two code ty attrs a b))
    (h : Stood l (two code ty attrs a b) n r) :
    Gives (settleStep s pass (!(pred && code.isRelation)) n) r none := by
  cases settled with
  | binary known left right value still =>
    have guarded : Guarded l (settleStep s pass (!(pred && code.isRelation)))
        (two code ty attrs a b) _ := settleStep_guarded known left right
    rw [restless_eq_false.mpr ⟨fun on _ => value on, still⟩] at guarded
    exact guarded.rests h

theorem settle_gives (here : Gives (settleStep s pass whole n) r none) :
    Gives (settle s pass whole n) r (n, false) := by
  obtain ⟨fuel, bound⟩ := r.exists_stepBound
  rw [gives_iff, settle, meets_bind, meets_get, bound, repeatStep, meets_bind, here.meets]
  exact ⟨rfl, rfl⟩

theorem refineSlot_rests (kid : r.kid n i = .ok x) (here : Gives (pass x) r (x, false)) :
    Gives (refineSlot pass n i) r false := by
  rw [gives_iff, refineSlot, meets_bind, meets_ask, Region.kid?_of_kid kid, yields_ok, meets_bind,
    here.meets]
  simp only [ne_eq, not_true_eq_false, if_false, meets_pure, and_self]

theorem refineBinary_rests {left right : Node} (p : Couple l r code ty attrs a b n x y d left right)
    (first : Gives (pass x) r (x, false)) (second : Gives (pass y) r (y, false))
    (here : Gives (settleStep s pass whole n) r none) :
    Gives (refineBinary s pass whole n) r (n, false) :=
  (refineSlot_rests p.leftKid first).bind
    ((refineSlot_rests p.rightKid second).bind ((settle_gives here).bind rfl))

/-! ### Unary operations and selections -/

theorem settleNot_rests {operand : Node} (settled : Settled s l pred (one code ty attrs a))
    (h : Stood l (one code ty attrs a) n r)
    (p : Single l r code ty attrs a n x d operand)
    (inverts : code = .lnot → a.code.inverted? = none) :
    Gives (settleNot s pass n) r (n, false) := by
  have code' : d.code = code := p.tops.code
  refine (Gives.kid p.kid).bind ((Gives.node p.operandNode).bind ((Gives.node p.node).bind ?_))
  rw [code', p.operandTops.code]
  split
  · rename_i inverted
    rw [inverts rfl] at inverted
    cases inverted
  · exact foldIfAsked_rests settled h

theorem refineNot_rests {operand : Node} (settled : Settled s l pred (one code ty attrs a))
    (h : Stood l (one code ty attrs a) n r)
    (p : Single l r code ty attrs a n x d operand) (below : Gives (pass x) r (x, false))
    (inverts : code = .lnot → a.code.inverted? = none) :
    Gives (refineNot s pass n) r (n, false) :=
  (refineSlot_rests p.kid below).bind ((settleNot_rests settled h p inverts).bind rfl)

theorem refineNeg_rests {operand : Node} (settled : Settled s l pred (one .neg ty attrs a))
    (h : Stood l (one .neg ty attrs a) n r) (p : Single l r .neg ty attrs a n x d operand)
    (below : Gives (pass x) r (x, false)) (single : a.code ≠ .neg) :
    Gives (refineNeg s pass n) r (n, false) := by
  refine (refineSlot_rests p.kid below).bind ((foldIfAsked_rests settled h).bind ?_)
  refine (Gives.kid p.kid).bind ((Gives.node p.operandNode).bind ?_)
  rw [p.operandTops.code, if_pos single]
  rfl

theorem dropInnerCvt_rests {operand : Node} (p : Single l r .cvt ty attrs a n x d operand)
    (single : a.keeps l = false) : Gives (dropInnerCvt n) r false := by
  refine (Gives.kid p.kid).bind ((Gives.node p.operandNode).bind ?_)
  rw [p.operandTops.code, p.operandTops.ty]
  by_cases nested : a.code = .cvt
  · obtain ⟨code, q, attrs', b, rfl⟩ := p.stood.spelled.exists_one (nested ▸ rfl)
    obtain rfl : code = .cvt := nested
    obtain ⟨y, d', inner, c⟩ := p.stood.single rfl
    have keeps : keepsValues l inner.ty q = false := by
      rw [c.operandTops.ty]
      exact single
    rw [if_neg (not_not.mpr (show (one .cvt q attrs' b).code = .cvt from rfl)), gives_iff]
    simp only [Edit.layout, meets_bind, (Gives.kid c.kid).meets, meets_get, meets_pure,
      (Gives.node c.operandNode).meets, c.layout]
    rw [show (one .cvt q attrs' b).ty = q from rfl, keeps]
    exact ⟨rfl, rfl⟩
  · rw [if_pos nested]
    rfl

theorem foldCvt_guarded : Guarded l (foldCvt s ty) (one .cvt ty attrs a) a.lit?.isSome := by
  intro n r h
  obtain ⟨x, d, operand, p⟩ := h.single rfl
  have value : operand.intLit? = a.lit? := p.operandTops.intLit?
  have float : operand.floatLit? = none :=
    Node.floatLit?_of_isSmall (p.operandTops.ty ▸ p.stood.small)
  have int : ty.isInt = true := Ty.isInt_of_isSmall h.small
  simp only [foldCvt, meets_bind, (Gives.kid p.kid).meets, (Gives.node p.operandNode).meets, value,
    int, Bool.and_true, float]
  cases a.lit?.isSome with
  | false => exact ⟨rfl, rfl⟩
  | true => exact told_bind (fun _ => rfl) fun _ _ => told_bind (fun _ => rfl) fun _ _ =>
      told_some fun _ => rfl

theorem refineCvt_rests {operand : Node} (h : Stood l (one .cvt ty attrs a) n r)
    (p : Single l r .cvt ty attrs a n x d operand) (below : Gives (pass x) r (x, false))
    (other : a.ty ≠ ty) (single : a.keeps l = false) (value : s.foldConst = true → a.lit? = none) :
    Gives (refineCvt s pass n) r (n, false) := by
  have type : d.ty = ty := p.tops.ty
  refine (refineSlot_rests p.kid below).bind ((dropInnerCvt_rests p single).bind ?_)
  refine (Gives.kid p.kid).bind ((Gives.node p.node).bind ((Gives.node p.operandNode).bind ?_))
  rw [p.operandTops.ty, type, if_neg other]
  cases on : s.foldConst with
  | false => rfl
  | true =>
    have guarded : Guarded l (foldCvt s ty) (one .cvt ty attrs a) _ := foldCvt_guarded
    rw [value on] at guarded
    exact (guarded.rests h).bind rfl

theorem negates_of_none (h : a.lit? = none ∨ b.lit? = none) : negates p a b = false := by
  unfold negates
  split <;> rcases h with h | h <;> simp [isLit, h]

/-- A negation is made of a comparison with zero. -/
theorem negatePredicate_told {fits : Bool} (h : Stood l p x r)
    (binary : fits = true → p.code.isBinary = true) :
    Meets (do
      if !fits then return none
      if !(← Edit.node (← kid x 1)).isIntLit 0#64 then return none
      let a ← kid x 0
      discard (takeKid x 0)
      discardTree n
      fired .selectToNot n
      return some (← logicalNot a)) r
      (fun _ => (fits && p.right?.any fun c => c.isLit 0#64) = true)
      (Told (fits && p.right?.any fun c => c.isLit 0#64) r) := by
  cases fits with
  | false => exact ⟨rfl, rfl⟩
  | true =>
    obtain ⟨code, ty, attrs, a, b, rfl⟩ := h.spelled.exists_two (binary rfl)
    obtain ⟨_, k, _, _, right, c⟩ := h.couple (binary rfl)
    simp only [Bool.not_true, Bool.false_eq_true, if_false, meets_bind,
      (Gives.kid c.rightKid).meets, (Gives.node c.rightNode).meets, c.rightTops.isIntLit,
      Bool.true_and, right?, Option.any_some]
    cases b.isLit 0#64 with
    | false => exact ⟨rfl, rfl⟩
    | true =>
      exact told_bind (fun _ => rfl) fun _ _ => told_bind (fun _ => rfl) fun _ _ =>
        told_bind (fun _ => rfl) fun _ _ => told_bind (fun _ => rfl) fun _ _ =>
        told_some fun _ => rfl

theorem selectToNot_guarded :
    Guarded l selectToNot (three .select ty attrs p a b) (negates p a b) := by
  intro n r h
  obtain ⟨x, y, z, d, d₀, d₁, d₂, q⟩ := h.triple
  have yes : d₁.intLit? = a.lit? := q.yesTops.intLit?
  have no : d₂.intLit? = b.lit? := q.noTops.intLit?
  simp only [selectToNot, meets_bind, (Gives.kid q.predKid).meets, (Gives.kid q.yesKid).meets,
    (Gives.node q.yesNode).meets, yes]
  cases litA : a.lit? with
  | none =>
    rw [negates_of_none (.inl litA)]
    exact ⟨rfl, rfl⟩
  | some v =>
    simp only [meets_bind, (Gives.kid q.noKid).meets, (Gives.node q.noNode).meets, no]
    cases litB : b.lit? with
    | none =>
      rw [negates_of_none (.inr litB)]
      exact ⟨rfl, rfl⟩
    | some w =>
      simp only [meets_bind, (Gives.node q.predNode).meets, q.predTops.code]
      split
      · rename_i code
        have same : negates p a b = (v == 0#64 && w == 1#64 && p.right?.any (·.isLit 0#64)) := by
          simp only [negates, code, isLit, litA, litB, Option.some_beq_some]
        rw [same]
        exact negatePredicate_told q.predStood fun _ => code ▸ rfl
      · rename_i code
        have same : negates p a b = (v == 1#64 && w == 0#64 && p.right?.any (·.isLit 0#64)) := by
          simp only [negates, code, isLit, litA, litB, Option.some_beq_some]
        rw [same]
        exact negatePredicate_told q.predStood fun _ => code ▸ rfl
      · rename_i notNe notEq
        have same : negates p a b = false := by
          unfold negates
          split
          · exact absurd ‹_› notNe
          · exact absurd ‹_› notEq
          · rfl
        rw [same]
        exact ⟨rfl, rfl⟩

theorem truth?_of_judge {e : Tree} (tops : Tops d e) (judge : e.code.isJudge = true) :
    d.truth? = none := by
  have code : d.code ≠ .const := by
    rw [tops.code]
    intro same
    rw [same] at judge
    cases judge
  simp [Node.truth?, Node.intLit?, Node.floatLit?, Node.isStrConst, Node.isConst, code]

theorem refineSelect_rests {z : NodeId} {d₀ d₁ d₂ : Node}
    (settled : Settled s l pred (three .select ty attrs p a b))
    (h : Stood l (three .select ty attrs p a b) n r)
    (q : Triple l r ty attrs p a b n x y z d d₀ d₁ d₂)
    (first : Gives (refineCondition s pass x) r (x, false))
    (second : Gives (pass y) r (y, false)) (third : Gives (pass z) r (z, false)) :
    Gives (refineSelect s pass n) r (n, false) := by
  cases settled with
  | select choice judge yes no value =>
    have apart : d₀.isConst = false := by
      rw [q.predTops.isConst, isConst]
      cases code : p.code <;> first | rfl | (rw [code] at judge; cases judge)
    have predicate : Gives (refinePredicate s pass n) r false := by
      refine (Gives.kid q.predKid).bind ((Gives.node q.predNode).bind ?_)
      rw [apart]
      rw [gives_iff]
      simp only [Bool.false_eq_true, if_false, meets_bind, first.meets, ne_eq, not_true_eq_false,
        meets_pure, and_self]
    have folded : Gives (foldPredicate s n) r false :=
      (Gives.kid q.predKid).bind ((foldIfAsked_rests choice q.predStood).bind rfl)
    refine predicate.bind ((refineSlot_rests q.yesKid second).bind
      ((refineSlot_rests q.noKid third).bind (folded.bind
        ((Gives.kid q.predKid).bind ((Gives.node q.predNode).bind ?_)))))
    rw [truth?_of_judge q.predTops judge]
    cases on : s.selectToNot with
    | false => rfl
    | true =>
      have guarded : Guarded l selectToNot (three .select ty attrs p a b) _ := selectToNot_guarded
      rw [value on] at guarded
      exact (Gives.node q.node).bind ((guarded.rests h).bind rfl)

theorem refineCondition_rests (found : r.node n = .ok d) (judge : d.code.isJudge = true)
    (here : Gives (if d.code.isRelation then refineBinary s pass false n else pass n) r
      (n, false)) : Gives (refineCondition s pass n) r (n, false) := by
  refine (Gives.node found).bind ?_
  split
  · rename_i relation
    rw [if_pos relation] at here
    refine here.bind ((Gives.node found).bind ?_)
    rw [if_pos judge]
    rfl
  · rename_i plain
    rw [if_neg plain] at here
    refine here.bind ((Gives.node found).bind ?_)
    rw [if_pos judge]
    rfl

/-! ### Expressions -/

theorem refineExprWithin_binary {Q : NodeId × Bool → Region → Prop} (found : r.node n = .ok d)
    (binary : d.code.isBinary = true) :
    Meets (refineExprWithin s (fuel + 1) n) r F Q ↔
      Meets (refineBinary s (refineExprWithin s fuel) true n) r F Q := by
  simp only [refineExprWithin, meets_bind, (Gives.node found).meets]
  split <;> try (rename_i same; rw [same] at binary; cases binary)
  rw [if_pos binary]

/-- The induction is on what makes the tree settled. A comparison that is the predicate of a
selection is entered from the selection, and with the fuel of the selection's kids. -/
theorem visit_rests (settled : Settled s l pred t) (h : Stood l t n r) (deep : t.size ≤ fuel) :
    Gives (if pred && t.code.isRelation then refineBinary s (refineExprWithin s fuel) false n
      else refineExprWithin s fuel n) r (n, false) := by
  induction settled generalizing n fuel with
  | @leaf pred code ty attrs known =>
    obtain ⟨fuel, rfl⟩ := exists_succ_of_size_le deep
    obtain ⟨d, found, tops, _⟩ := h.node
    have code' : d.code = code := tops.code
    have apart : (pred && code.isRelation) = false := by
      rcases known with rfl | rfl | rfl <;> exact Bool.and_false pred
    rw [show (leaf code ty attrs).code = code from rfl, apart]
    refine (Gives.node (Region.node_of found)).bind ?_
    rw [code']
    rcases known with rfl | rfl | rfl <;> rfl
  | @through pred ty q attrs attrs' =>
    obtain ⟨x, d, base, found, code, slots, foundX, codeX, _⟩ := h.through
    obtain ⟨fuel, rfl⟩ := Nat.exists_eq_add_of_le' deep
    rw [show (one .ild ty attrs (leaf .pr q attrs')).code.isRelation = false from rfl,
      Bool.and_false]
    refine (Gives.node found).bind ?_
    rw [code]
    have kid : r.kid n 0 = .ok x :=
      Region.kid_of (Region.node?_of_node found) (i := 0) (by rw [slots]; rfl)
    exact gives_iff.mpr (refineIndirectLoad_through kid foundX codeX
      (refineExprWithin_address foundX (.inr codeX)))
  | @neg pred ty attrs a operand single value ih =>
    obtain ⟨fuel, rfl⟩ := exists_succ_of_size_le deep
    obtain ⟨x, d, dx, p⟩ := h.single rfl
    rw [size_one] at deep
    rw [show (one .neg ty attrs a).code.isRelation = false from rfl, Bool.and_false]
    refine (Gives.node p.node).bind ?_
    rw [show d.code = .neg from p.tops.code]
    have settled : Settled s l pred (one .neg ty attrs a) := .neg operand single value
    exact refineNeg_rests settled h p (ih p.stood (by omega)) single
  | @not pred code ty attrs a known operand inverts value ih =>
    obtain ⟨fuel, rfl⟩ := exists_succ_of_size_le deep
    obtain ⟨x, d, dx, p⟩ := h.single (by rcases known with rfl | rfl <;> rfl)
    rw [size_one] at deep
    have settled : Settled s l pred (one code ty attrs a) := .not known operand inverts value
    have below : Gives (refineExprWithin s fuel x) r (x, false) := ih p.stood (by omega)
    have rests := refineNot_rests settled h p below inverts
    have apart : (pred && code.isRelation) = false := by
      rcases known with rfl | rfl <;> exact Bool.and_false pred
    rw [show (one code ty attrs a).code = code from rfl, apart]
    refine (Gives.node p.node).bind ?_
    rw [show d.code = code from p.tops.code]
    rcases known with rfl | rfl <;> exact rests
  | @cvt pred ty attrs a operand other single value ih =>
    obtain ⟨fuel, rfl⟩ := exists_succ_of_size_le deep
    obtain ⟨x, d, dx, p⟩ := h.single rfl
    rw [size_one] at deep
    rw [show (one .cvt ty attrs a).code.isRelation = false from rfl, Bool.and_false]
    refine (Gives.node p.node).bind ?_
    rw [show d.code = .cvt from p.tops.code]
    exact refineCvt_rests h p (ih p.stood (by omega)) other single value
  | @binary pred code ty attrs a b known left right value still ihL ihR =>
    obtain ⟨x, y, d, dx, dy, p⟩ := h.couple known
    rw [size_two] at deep
    have calm (pass : Pass) : Gives (settleStep s pass (!(pred && code.isRelation)) n) r none :=
      settleStep_rests (.binary known left right value still) h
    rw [show (two code ty attrs a b).code = code from rfl]
    cases entered : pred && code.isRelation with
    | true =>
      rw [entered] at calm
      exact refineBinary_rests p (ihL p.leftStood (by omega)) (ihR p.rightStood (by omega)) (calm _)
    | false =>
      rw [entered] at calm
      obtain ⟨fuel, rfl⟩ : ∃ f, fuel = f + 1 := ⟨fuel - 1, by omega⟩
      refine gives_iff.mpr ((refineExprWithin_binary p.node ?_).mpr (gives_iff.mp ?_))
      · rw [show d.code = code from p.tops.code]
        exact known
      · exact refineBinary_rests p (ihL p.leftStood (by omega)) (ihR p.rightStood (by omega))
          (calm _)
  | @select pred ty attrs p a b choice judge yes no value ihP ihY ihN =>
    obtain ⟨fuel, rfl⟩ := exists_succ_of_size_le deep
    obtain ⟨x, y, z, d, d₀, d₁, d₂, q⟩ := h.triple
    rw [size_three] at deep
    rw [show (three .select ty attrs p a b).code.isRelation = false from rfl, Bool.and_false]
    refine (Gives.node q.node).bind ?_
    rw [show d.code = .select from q.tops.code]
    have settled : Settled s l pred (three .select ty attrs p a b) :=
      .select choice judge yes no value
    have small : p.size ≤ fuel := by omega
    have first := ihP q.predStood small
    rw [Bool.true_and, ← q.predTops.code] at first
    exact refineSelect_rests settled h q
      (refineCondition_rests q.predNode (q.predTops.code ▸ judge) first)
      (ihY q.yesStood (by omega)) (ihN q.noStood (by omega))

theorem refineExprWithin_rests (settled : Settled s l false t) (h : Stood l t n r)
    (deep : t.size ≤ fuel) : Gives (refineExprWithin s fuel n) r (n, false) :=
  visit_rests settled h deep

/-- Refinement leaves a settled tree alone. -/
theorem refineExpr_rests (settled : Settled s l false t) (h : Stood l t n r) :
    Gives (refineExpr s n) r (n, false) := by
  rw [gives_iff, refineExpr, meets_bind, meets_get]
  refine gives_iff.mp (refineExprWithin_rests settled h ?_)
  calc t.size ≤ r.nodes.size := h.size_le
    _ ≤ r.nodes.size + 9 := Nat.le_add_right _ _
    _ ≤ r.stepBound := Nat.lt_two_pow_self.le

end Peephole
