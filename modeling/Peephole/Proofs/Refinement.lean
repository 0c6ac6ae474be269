import Peephole.Proofs.Convergence

/-!
# Refinement of trees

What refinement makes of a tree, operation by operation. Where the width of a pointer is known,
every change lowers the potential of the tree, and no run ends for want of steps.
-/

namespace Peephole

open Edit Peephole.Tree

variable {F : Fault → Prop} {s : Setting} {r r' r₀ : Region} {n m k x y : NodeId} {i : Nat}
  {ns₀ : List NodeId} {ps : List Piece} {code code' : Op} {ty q q' : Ty} {attrs attrs' : Attrs}
  {a a' b b' c p p' t t' u w : Tree} {ids : List (List NodeId)} {slots : List (List Tree)}
  {us vs : List Tree} {l : Layout} {bound fuel : Nat} {refine : Pass} {changed : Bool}
  {up up' : Option NodeId} {known : Prop}

namespace Tree

/-! ### What the operations weigh -/

theorem exposure_le_one (type : t.ty = t'.ty) (settled : t.isSettled = true → t'.isSettled = true) :
    exposure t t' ≤ 1 := by
  have kept : (t.isSettled && !t'.isSettled) = false := by
    cases before : t.isSettled with
    | false => rfl
    | true => simp [settled before]
  unfold exposure
  rw [kept, if_pos type]
  split <;> simp

/-- Two negations cancel out. -/
theorem lowers_doubleNeg : Lowers l 1 (one .neg ty attrs (one .neg q attrs' a)) a := by
  have exposed : exposure (one .neg ty attrs (one .neg q attrs' a)) a ≤ 28 :=
    exposure_le_of_settled nofun
  rw [Lowers, potential_one, potential_one]
  simp only [weight, factor]
  omega

theorem lowers_innerCvt :
    Lowers l 1 (one .cvt ty attrs (one .cvt q attrs' a)) (one .cvt ty attrs a) := by
  have alike : exposure (one .cvt ty attrs (one .cvt q attrs' a)) (one .cvt ty attrs a) = 0 :=
    exposure_eq_zero rfl rfl rfl
  rw [Lowers, alike, potential_one, potential_one, potential_one]
  simp only [weight, factor]
  omega

/-- A conversion gives way to a tree of its own type. -/
theorem lowers_cvt (same : a'.ty = ty) (le : potential l a' ≤ potential l a) :
    Lowers l 1 (one .cvt ty attrs a) a' := by
  have exposed : exposure (one .cvt ty attrs a) a' ≤ 1 := exposure_le_one same.symm nofun
  rw [Lowers, potential_one]
  simp only [weight, factor]
  omega

theorem lowers_load : Lowers l 1 (one .ild ty attrs a) (leaf .ld ty attrs') := by
  have alike : exposure (one .ild ty attrs a) (leaf .ld ty attrs') = 0 :=
    exposure_eq_zero rfl rfl rfl
  rw [Lowers, alike, potential_one, potential_leaf]
  simp only [weight, factor]
  have := potential_pos (l := l) (t := a)
  omega

/-- A negation weighs as much as what it may expose. -/
theorem lowers_not (le : potential l u ≤ potential l a) :
    Lowers l 1 (one .lnot ty attrs a) (u.retyped l q) := by
  have exposed := exposure_le (one .lnot ty attrs a) (u.retyped l q)
  have := potential_retyped l q u
  rw [Lowers, potential_one]
  simp only [weight, factor]
  omega

/-- The tree with another operation on top. -/
def recode (code : Op) : Tree → Tree
  | node _ ty attrs slots => node code ty attrs slots

theorem inverted?_spec (ty : Ty) (h : code.inverted? = some code') :
    weight code' ty = weight code ty ∧ factor code' = factor code ∧
      code'.isRelation = code.isRelation ∧ code'.isBinary = code.isBinary ∧
      code'.commuted?.isSome = code.commuted?.isSome ∧ code'.isExpr = code.isExpr ∧
      (∀ i, code'.slotName i = code.slotName i) ∧ code.isBinary = true := by
  cases code <;> simp only [Op.inverted?, Option.some.injEq, reduceCtorEq] at h <;> subst h <;>
    exact ⟨rfl, rfl, rfl, rfl, rfl, rfl, fun _ => rfl, rfl⟩

theorem potential_inverted (h : t.code.inverted? = some code') :
    potential l (t.recode code') = potential l t := by
  obtain ⟨code, ty, attrs, slots⟩ := t
  have h : code.inverted? = some code' := h
  obtain ⟨heavy, twice, relation, binary, commutes, _⟩ := inverted?_spec ty h
  have same : strain l code' ty slots = strain l code ty slots := by
    match slots with
    | [[a], [b]] => simp only [strain, crossed, relation, binary, commutes]
    | [[p], us, vs] =>
      have other : code ≠ .select ∧ code' ≠ .select := by
        constructor <;> rintro rfl <;> simp_all [Op.inverted?, Op.isBinary]
      simp [strain, other]
    | [] | [[]] | [_ :: _] | [[], _] | [[_], []] | [[_], _ :: _ :: _]
    | [_ :: _ :: _, _] | [[], _, _] | [_ :: _ :: _, _, _] | _ :: _ :: _ :: _ :: _ => simp [strain]
  rw [recode, potential_node, potential_node, heavy, twice, same]

theorem Formed.inverted (formed : t.Formed) (h : t.code.inverted? = some code') :
    (t.recode code').Formed := by
  obtain ⟨code, ty, attrs, slots⟩ := t
  obtain ⟨_, _, _, _, _, expr, names, _⟩ := inverted?_spec ty h
  cases formed with
  | node laid kids =>
    refine .node (fun is => ?_) kids
    obtain ⟨length, each⟩ := laid (expr ▸ is)
    refine ⟨length.trans (Op.inverted?_numSlots h).symm, fun i us found operand => ?_⟩
    exact each i us found (names i ▸ operand)

theorem potential_select : potential l (.node .select ty attrs [[p], us, vs]) =
    121 + (if p.isSettled then 0 else 59) +
      (potential l p + (potentialList l us + potentialList l vs)) := by
  simp only [potential_node, weight, strain, factor, List.flatten_cons, List.flatten_nil,
    List.append_nil, potentialList_append, potentialList]
  cases p.isSettled <;> simp

/-- A selection gives way to one that it selects. -/
theorem lowers_select (mem : a ∈ us ++ vs) :
    Lowers l 1 (.node .select ty attrs [[p], us, vs]) a := by
  have exposed : exposure (.node .select ty attrs [[p], us, vs]) a ≤ 28 :=
    exposure_le_of_settled nofun
  have kid : potential l a ≤ potentialList l (us ++ vs) := by
    generalize us ++ vs = ts at mem
    induction ts with
    | nil => simp at mem
    | cons t ts ih =>
      rw [potentialList]
      rcases List.mem_cons.mp mem with rfl | mem
      · omega
      · have := ih mem
        omega
  rw [potentialList_append] at kid
  rw [Lowers, potential_select]
  split <;> omega

/-- The negation of what a selection compares with zero weighs less than the selection. -/
theorem potential_negation (binary : code.isBinary = true) :
    potential l (one .lnot (.scalar .bool) .none a) + 31 ≤
      potential l (.node .select ty attrs [[two code q attrs' a b], us, vs]) := by
  have heavy := weight_binary q binary
  have := potential_pos (l := l) (t := b)
  rw [potential_select, potential_one, potential_two]
  simp only [weight]
  rcases factor_eq code with f | f <;> rw [f, show factor .lnot = 1 from rfl] <;> split <;> omega

theorem lowers_selectToNot (binary : code.isBinary = true)
    (le : potential l u ≤ potential l (one .lnot (.scalar .bool) .none a)) :
    Lowers l 1 (.node .select ty attrs [[two code q attrs' a b], us, vs]) (u.retyped l ty) := by
  have exposed : exposure (.node .select ty attrs [[two code q attrs' a b], us, vs])
      (u.retyped l ty) ≤ 28 := exposure_le_of_settled nofun
  have lighter : potential l (one .lnot (.scalar .bool) .none a) + 31 ≤
      potential l (.node .select ty attrs [[two code q attrs' a b], us, vs]) :=
    potential_negation binary
  have := potential_retyped l ty u
  rw [Lowers]
  omega

end Tree

theorem Passed.here {Q : Bool → Tree → Prop} (becomes : Becomes known r₀.layout t n (n, changed) u)
    (holds : Q changed u) (h : Forest r₀ ns₀ (.tree u n up :: ps) r) :
    Passed known Q r₀ ns₀ ps t n up (n, changed) r :=
  ⟨u, ⟨becomes, holds⟩, .here h⟩

/-- A pass after the kids of a node were refined. -/
theorem Passed.after {out : NodeId × Bool} (first : Becomes known r₀.layout t n (n, changed) u)
    (h : Passed known (Ordered s r₀) r₀ ns₀ ps u n up out r) :
    Passed known (Ordered s r₀) r₀ ns₀ ps t n up (out.1, changed || out.2) r := by
  obtain ⟨w, ⟨second, ordered⟩, regrown⟩ := h
  exact ⟨w, ⟨first.trans second, ordered⟩, regrown⟩

namespace Forest

/-- Folding lowers a tree, and what is in order stays so. -/
theorem foldIfAsked (formed : t.Formed) (h : Forest r₀ ns₀ (.tree t n up :: ps) r) :
    Meets (foldIfAsked s n) r (Fault.ProperIf known) (Passed known
      (fun _ u => ∀ pred, Orderly s r₀ pred t → Orderly s r₀ pred u) r₀ ns₀ ps t n up) := by
  unfold Peephole.foldIfAsked
  split
  · rename_i on
    refine (foldTree formed h).properly.to ?_
    rintro out r₁ ⟨u, ⟨becomes, folded⟩, regrown⟩
    exact ⟨u, ⟨⟨becomes.formed, fun _ => becomes.lowers trivial, becomes.idle⟩,
      fun pred => folded.orderly pred on⟩, regrown⟩
  · exact ⟨t, ⟨.refl formed, fun _ => id⟩, .here h⟩

/-- The first kid of a node is missing. -/
theorem kid_none {Q : NodeId → Region → Prop} (gap : slots[i]? = some [])
    (h : Forest r₀ ns₀ (.tree (.node code ty attrs slots) n up :: ps) r) :
    Meets (Edit.kid n i) r (Fault.ProperIf known) Q := by
  obtain ⟨f, fault, proper⟩ := h.kid_gap gap
  rw [Edit.kid, meets_ask, fault]
  exact fun _ => proper

/-! ### Conversions of conversions and of literals -/

/-- A conversion below another one is dropped, or nothing happens. -/
theorem dropInnerCvt (formed : (one .cvt ty attrs a).Formed)
    (h : Forest r₀ ns₀ (.tree (one .cvt ty attrs a) n up :: ps) r) :
    Meets (dropInnerCvt n) r (Fault.ProperIf known) fun dropped r' => ∃ a',
      Becomes known r₀.layout (one .cvt ty attrs a) n (n, dropped) (one .cvt ty attrs a') ∧
      (a' = a ∨ ∃ q attrs', a = one .cvt q attrs' a') ∧
      Forest r₀ ns₀ (.tree (one .cvt ty attrs a') n up :: ps) r' := by
  obtain ⟨x, split⟩ := h.splitOne
  obtain ⟨_, _, _, found⟩ := Region.node?_of_core (split.stub_found List.mem_cons_self)
  obtain ⟨d, at_x, tops, _⟩ : ∃ d, r.node? x = some d ∧ Tops d a ∧ _ :=
    split.node (List.mem_cons_of_mem _ List.mem_cons_self)
  simp only [Peephole.dropInnerCvt, Edit.kid, Edit.node, meets_bind, meets_ask,
    Region.kid_of found (i := 0) rfl, Region.node_of at_x, yields_ok, tops.code]
  split
  · exact ⟨a, .refl formed, .inl rfl, h⟩
  · rename_i nested
    obtain ⟨inner, q, attrs', kids⟩ := a
    obtain rfl : inner = .cvt := not_not.mp nested
    rw [meets_bind, ← Edit.kid]
    rcases formed.operand.one_slot rfl rfl rfl with ⟨b, rfl⟩ | rfl
    swap
    · exact split.swap.kid_none rfl
    obtain ⟨y, split⟩ := split.swap.splitOne
    obtain ⟨_, _, _, found⟩ := Region.node?_of_core (split.stub_found List.mem_cons_self)
    obtain ⟨e, at_y, _⟩ : ∃ d, r.node? y = some d ∧ Tops d b ∧ _ :=
      split.node (List.mem_cons_of_mem _ List.mem_cons_self)
    simp only [Edit.kid, Edit.layout, meets_ask, Region.kid_of found (i := 0) rfl,
      Region.node_of at_y, yields_ok, meets_bind, meets_get, meets_pure]
    split
    · exact ⟨_, .refl formed, .inl rfl, h⟩
    · simp only [meets_bind, meets_discard]
      refine (takeKid (i := 0) rfl split).to fun _ r₁ split => ?_
      have lower := join (show Fits [[]] [[]] from rfl) split
      refine (takeKid (i := 0) rfl (front [_, _] lower)).to fun _ r₂ split => ?_
      obtain ⟨ids, fits, lower⟩ := split.swap.split
      obtain ⟨ks, rfl⟩ := List.length_eq_one_iff.mp fits.length.symm
      obtain rfl := List.length_eq_zero_iff.mp (List.head_eq_of_cons_eq fits).symm
      refine (lower.release rfl).properly.to fun _ r₃ split => ?_
      refine (setKid (i := 0) (by simp) split.forget).to fun _ r₄ split => ?_
      refine (split.joinOne.fired _).to fun _ r₅ h => ?_
      exact ⟨b, .fired (.ofOne rfl formed.operand.operand) fun _ => lowers_innerCvt,
        .inr ⟨_, _, rfl⟩, h⟩

/-- A conversion of a literal becomes a literal. -/
theorem foldCvt (formed : (one .cvt ty attrs a).Formed)
    (h : Forest r₀ ns₀ (.tree (one .cvt ty attrs a) n up :: ps) r) :
    Meets (foldCvt s ty n) r (Fault.ProperIf known)
      (Fires r₀ ns₀ ps (one .cvt ty attrs a) n up fun u => u.Formed ∧
        Lowers r₀.layout 1 (one .cvt ty attrs a) u ∧ a.code = .const ∧
        ∃ at', u = .node a.code ty at' a.slots) := by
  obtain ⟨x, split⟩ := h.splitOne
  obtain ⟨_, _, _, found⟩ := Region.node?_of_core (split.stub_found List.mem_cons_self)
  obtain ⟨d, at_x, tops, _⟩ : ∃ d, r.node? x = some d ∧ Tops d a ∧ _ :=
    split.node (List.mem_cons_of_mem _ List.mem_cons_self)
  -- the literal, brought to the type of the conversion
  have finish {at' : Attrs} {r : Region} (const : a.code = .const) (rule : Rule)
      (h : Forest r₀ ns₀ (.tree (.node a.code ty at' a.slots) x (some n) ::
        .stub (.fresh .cvt ty attrs [[x]]) n up :: ps) r) :
      Meets (do
        Edit.fired rule n
        return some (← Edit.spliceKid n 0)) r (Fault.ProperIf known)
        (Fires r₀ ns₀ ps (one .cvt ty attrs a) n up fun u => u.Formed ∧
          Lowers r₀.layout 1 (one .cvt ty attrs a) u ∧ a.code = .const ∧
        ∃ at', u = .node a.code ty at' a.slots) := by
    refine Meets.bind (h.swap.joinOne.fired rule) fun _ r₁ h => ?_
    refine Meets.bind (h.spliceKid (i := 0) rfl).properly fun m r₂ h =>
      ⟨_, ⟨?_, ?_, const, _, rfl⟩, .moved h⟩
    · cases a with
      | node => exact formed.operand.relaid rfl formed.operand.kid _ _
    · exact lowers_cvt rfl (potential_const const ty _).le
  simp only [Peephole.foldCvt, Edit.kid, Edit.node, meets_bind, meets_ask,
    Region.kid_of found (i := 0) rfl, Region.node_of at_x, yields_ok, tops.intLit?, tops.floatLit?]
  split
  · rename_i literal
    obtain ⟨v, value⟩ := Option.isSome_iff_exists.mp (Bool.and_eq_true_iff.mp literal).1
    refine Meets.bind (split.swap.restamp value).properly ?_
    rintro _ r₁ ⟨_, _, h⟩
    exact finish (intLit?_const value) _ h
  · split
    · rename_i v value _
      obtain ⟨inner, q, attrs', kids⟩ := a
      obtain ⟨ids, fits, lower⟩ := split.swap.split
      have changed : Meets (Edit.modifyNode x fun d =>
          { d.setLiteral (.float (ty.normalizeFloat v)) with ty }) r (Fault.ProperIf known)
          fun _ r' => Forest r₀ ns₀ (.stub (.fresh inner ty
            { attrs' with value := some (.float (ty.normalizeFloat v)) } ids) x (some n) :: _) r' :=
        lower.modifyNode fun _ _ _ => rfl
      exact Meets.bind changed fun _ r₁ lower => finish (floatLit?_const value) _ (join fits lower)
    · exact h

/-- Of two negations the operand is taken out. -/
theorem dropNegations (split : Forest r₀ ns₀
    (.stub (.fresh .neg ty attrs [[x]]) n up :: .tree (one .neg q attrs' b) x (some n) :: ps) r) :
    Meets (do
      let y ← Edit.kid x 0
      discard (Edit.takeKid x 0)
      Edit.discardTree n
      Edit.fired .doubleNeg n
      return (y, true)) r (Fault.ProperIf known) fun out r' => out.2 = true ∧
        Forest r₀ ns₀ (.tree b out.1 none :: .gone n :: ps) r' := by
  obtain ⟨y, split⟩ := split.swap.splitOne
  obtain ⟨_, _, _, found⟩ := Region.node?_of_core (split.stub_found List.mem_cons_self)
  simp only [Edit.kid, meets_bind, meets_ask, Region.kid_of found (i := 0) rfl, yields_ok,
    meets_discard]
  refine (takeKid (i := 0) rfl split).to fun _ r₁ split => ?_
  have lower := join (show Fits [[]] [[]] from rfl) split
  refine (front [_, _] lower).joinOne.discardTree.properly.to fun _ r₂ h => ?_
  exact (h.swap.fired _).to fun _ r₃ h => ⟨rfl, h⟩

section refinement

variable (below : RefinesBelow known s r₀ ns₀ bound refine)
  (wide : known → r₀.layout.pointerSize ∈ [2, 4, 8])

/-! ### Negations -/

/-- The operand of a negation is inverted, and the negation is dropped. -/
theorem invertOperand (invert : code.inverted? = some code') (split : Forest r₀ ns₀
    (.stub (.fresh .lnot ty attrs [[x]]) n up :: .tree (.node code q attrs' slots) x (some n) ::
      ps) r) :
    Meets (do
      Edit.setCode x code'
      discard (Edit.takeKid n 0)
      Edit.release n
      Edit.fired .lnotOfRelation n) r (Fault.ProperIf known) fun _ r' =>
        Forest r₀ ns₀ (.tree (.node code' q attrs' slots) x none :: .gone n :: ps) r' := by
  obtain ⟨ids, fits, lower⟩ := split.swap.split
  simp only [meets_bind, meets_discard]
  refine (lower.setCode (Op.inverted?_numSlots invert).symm).to fun _ r₁ lower => ?_
  have split := (join fits lower).swap
  refine (takeKid (i := 0) rfl split).to fun _ r₂ split => ?_
  refine (split.release rfl).properly.to fun _ r₃ h => ?_
  exact h.swap.fired _

section negations

include below wide

theorem settleNot (unary : code = .lnot ∨ code = .bnot)
    (formed : (Tree.node code ty attrs slots).Formed)
    (small : known → potential r₀.layout (.node code ty attrs slots) ≤ bound)
    (kids : OrderlyBelow s r₀ (.node code ty attrs slots))
    (h : Forest r₀ ns₀ (.tree (.node code ty attrs slots) n up :: ps) r) :
    Meets (settleNot s refine n) r (Fault.ProperIf known)
      (Passed known (Ordered s r₀) r₀ ns₀ ps (.node code ty attrs slots) n up) := by
  have shape : code.isExpr = true ∧ code.numSlots = 1 ∧ code.slotName 0 = "" := by
    rcases unary with rfl | rfl <;> exact ⟨rfl, rfl, rfl⟩
  have plain : code.isBinary = false := by rcases unary with rfl | rfl <;> rfl
  unfold Peephole.settleNot
  rcases formed.one_slot shape.1 shape.2.1 shape.2.2 with ⟨a, rfl⟩ | rfl
  swap
  · exact Meets.bind (h.kid_none rfl) fun _ _ => id
  obtain ⟨x, split⟩ := h.splitOne
  obtain ⟨_, _, _, found⟩ := Region.node?_of_core (split.stub_found List.mem_cons_self)
  obtain ⟨d, at_x, tops, _⟩ : ∃ d, r.node? x = some d ∧ Tops d a ∧ _ :=
    split.node (List.mem_cons_of_mem _ List.mem_cons_self)
  simp only [Edit.kid, Edit.node, meets_bind, meets_ask, Region.kid_of found (i := 0) rfl,
    Region.node_of found, Region.node_of at_x, yields_ok, tops.code]
  split
  · rename_i inverted invert
    obtain ⟨c, q, attrs', kids'⟩ := a
    have inverting : Meets _ r (Fault.ProperIf known) _ := split.invertOperand invert
    simp only [meets_bind] at inverting ⊢
    refine inverting.to fun _ r₁ h => h.to fun _ r₂ h => h.to fun _ r₃ h => h.to fun _ r₄ h => ?_
    have same : potential r₀.layout (.node inverted q attrs' kids') =
        potential r₀.layout (.node c q attrs' kids') := potential_inverted invert
    have small' (yes : known) : potential r₀.layout (.node inverted q attrs' kids') ≤ bound := by
      rw [same]
      exact (potential_kid_lt (by simp)).le.trans (small yes)
    have operands : OrderlyBelow s r₀ (.node inverted q attrs' kids') :=
      ((orderlyBelow_one (by decide)).mp kids).orderlyBelow.inverted invert
    refine (settle below wide (formed.operand.inverted invert) small' h).to ?_
    rintro ⟨m, _⟩ r₅ ⟨u, ⟨_, ordered, becomes⟩, regrown⟩
    refine regrown.loose.retype.properly.to ?_
    rintro k r₆ ⟨_, loose, h⟩
    rw [loose rfl] at h
    refine ⟨_, ⟨.fired becomes.formed.retyped fun yes => ?_, (ordered operands).retyped⟩, .moved h⟩
    exact lowers_not ((becomes.potential_le yes).trans_eq same)
  · refine (foldIfAsked formed h).to ?_
    rintro out r₁ ⟨u, ⟨becomes, ordered⟩, regrown⟩
    exact ⟨u, ⟨becomes, ordered _ (kids.orderly plain)⟩, regrown⟩

theorem refineNot (unary : code = .lnot ∨ code = .bnot)
    (formed : (Tree.node code ty attrs slots).Formed)
    (small : known → potential r₀.layout (.node code ty attrs slots) ≤ bound)
    (h : Forest r₀ ns₀ (.tree (.node code ty attrs slots) n up :: ps) r) :
    Meets (refineNot s refine n) r (Fault.ProperIf known)
      (Passed known (Ordered s r₀) r₀ ns₀ ps (.node code ty attrs slots) n up) := by
  have shape : code.isExpr = true ∧ code.numSlots = 1 ∧ code.slotName 0 = "" := by
    rcases unary with rfl | rfl <;> exact ⟨rfl, rfl, rfl⟩
  obtain ⟨us, rfl, few⟩ := formed.single_slot shape.1 shape.2.1 shape.2.2
  refine Meets.bind (refineSlot below formed (i := 0) rfl small h few) ?_
  rintro changed r₁ ⟨us', ⟨_, ordered⟩, becomes, h⟩
  have small' (yes : known) := (becomes.potential_le yes).trans (small yes)
  have other : code ≠ .select := by rcases unary with rfl | rfl <;> decide
  have kids : OrderlyBelow s r₀ (.node code ty attrs [us']) := orderlyBelow_slot other ordered
  exact Meets.bind (settleNot below wide unary becomes.formed small' kids h)
    fun _ _ => .after becomes

end negations

include below

theorem refineNeg (formed : (Tree.node .neg ty attrs slots).Formed)
    (small : known → potential r₀.layout (.node .neg ty attrs slots) ≤ bound)
    (h : Forest r₀ ns₀ (.tree (.node .neg ty attrs slots) n up :: ps) r) :
    Meets (refineNeg s refine n) r (Fault.ProperIf known)
      (Passed known (Ordered s r₀) r₀ ns₀ ps (.node .neg ty attrs slots) n up) := by
  obtain ⟨us, rfl, few⟩ := formed.single_slot rfl rfl rfl
  refine Meets.bind (refineSlot below formed (i := 0) rfl small h few) ?_
  rintro changed r₁ ⟨us', ⟨_, operands⟩, becomes, h⟩
  have kids : OrderlyBelow s r₀ (.node .neg ty attrs [us']) :=
    orderlyBelow_slot (by decide) operands
  refine Meets.bind (foldIfAsked becomes.formed h) ?_
  rintro ⟨m, folded⟩ r₂ ⟨u, ⟨second, ordered⟩, regrown⟩
  cases folded with
  | true =>
    exact ⟨u, ⟨becomes.gives second.formed second.lowers, ordered _ (kids.orderly rfl)⟩, regrown⟩
  | false =>
    obtain ⟨rfl, rfl⟩ := second.idle rfl
    have h := regrown.same
    rcases becomes.formed.one_slot rfl rfl rfl with ⟨a, slot⟩ | slot
    swap
    · exact Meets.bind (h.kid_none (i := 0) (by rw [slot]; rfl)) fun _ _ => id
    obtain rfl := List.head_eq_of_cons_eq slot
    obtain ⟨x, split⟩ := h.splitOne
    obtain ⟨_, _, _, found⟩ := Region.node?_of_core (split.stub_found List.mem_cons_self)
    obtain ⟨d, at_x, tops, _⟩ : ∃ d, r₂.node? x = some d ∧ Tops d a ∧ _ :=
      split.node (List.mem_cons_of_mem _ List.mem_cons_self)
    simp only [Bool.false_eq_true, if_false, Edit.kid, Edit.node, meets_bind, meets_ask,
      Region.kid_of found (i := 0) rfl, Region.node_of at_x, yields_ok, tops.code]
    split
    · exact .here becomes (kids.orderly rfl) h
    · rename_i double
      obtain ⟨inner, q, attrs', kids'⟩ := a
      obtain rfl : inner = .neg := not_not.mp double
      rw [← Edit.kid]
      rcases becomes.formed.operand.one_slot rfl rfl rfl with ⟨b, rfl⟩ | rfl
      swap
      · rw [meets_bind]
        exact split.swap.kid_none rfl
      refine split.dropNegations.to ?_
      rintro ⟨m, _⟩ r₃ ⟨rfl, h⟩
      have inner := ((orderlyBelow_one (by decide)).mp kids).orderlyBelow
      exact ⟨b, ⟨becomes.gives becomes.formed.operand.operand fun _ => lowers_doubleNeg,
        (orderlyBelow_one (by decide)).mp inner⟩, .moved h⟩

theorem refineCvt (formed : (Tree.node .cvt ty attrs slots).Formed)
    (small : known → potential r₀.layout (.node .cvt ty attrs slots) ≤ bound)
    (h : Forest r₀ ns₀ (.tree (.node .cvt ty attrs slots) n up :: ps) r) :
    Meets (refineCvt s refine n) r (Fault.ProperIf known)
      (Passed known (Ordered s r₀) r₀ ns₀ ps (.node .cvt ty attrs slots) n up) := by
  obtain ⟨us, rfl, few⟩ := formed.single_slot rfl rfl rfl
  refine Meets.bind (refineSlot below formed (i := 0) rfl small h few) ?_
  rintro changed r₁ ⟨us', ⟨_, operands⟩, first, h⟩
  rcases first.formed.one_slot rfl rfl rfl with ⟨a, slot⟩ | slot
  swap
  · simp only [Peephole.dropInnerCvt, meets_bind]
    exact h.kid_none (i := 0) (by rw [slot]; rfl)
  obtain rfl := List.head_eq_of_cons_eq slot
  refine Meets.bind (dropInnerCvt first.formed h) ?_
  rintro dropped r₂ ⟨b, second, inner, h⟩
  have operand : Orderly s r₀ false b := by
    have outer := operands a (by simp)
    rcases inner with rfl | ⟨q, attrs', rfl⟩
    · exact outer
    · exact (orderlyBelow_one (by decide)).mp outer.orderlyBelow
  have whole : Orderly s r₀ false (one .cvt ty attrs b) := .one rfl (by decide) operand
  have both := first.trans second
  obtain ⟨x, split⟩ := h.splitOne
  obtain ⟨_, _, _, found⟩ := Region.node?_of_core (split.stub_found List.mem_cons_self)
  obtain ⟨d, at_x, tops, _⟩ : ∃ d, r₂.node? x = some d ∧ Tops d b ∧ _ :=
    split.node (List.mem_cons_of_mem _ List.mem_cons_self)
  simp only [Edit.kid, Edit.node, meets_bind, meets_ask, Region.kid_of found (i := 0) rfl,
    Region.node_of found, Region.node_of at_x, yields_ok, tops.ty]
  split
  · rename_i same
    rw [meets_bind]
    refine (h.fired _).to fun _ r₃ h => ?_
    refine Meets.bind (h.spliceKid (i := 0) rfl).properly fun m r₄ h => ?_
    exact ⟨b, ⟨both.gives second.formed.operand fun _ => lowers_cvt same le_rfl, operand⟩, .moved h⟩
  · split
    · rw [meets_bind]
      refine (foldCvt second.formed h).to fun out r₃ done => ?_
      cases out with
      | none => exact .here both whole done
      | some m =>
        obtain ⟨u, ⟨formed', lowers, const, at', rfl⟩, regrown⟩ := done
        exact ⟨_, ⟨both.gives formed' fun _ => lowers, operand.restamped const _ _⟩, regrown⟩
    · exact .here both whole h

end refinement

/-! ### Conditions -/

end Forest

/-- A condition `p` has become the truth value `u`. What that costs is paid for by the selection
above. -/
structure Judges (known : Prop) (l : Layout) (p : Tree) (n : NodeId) (out : NodeId × Bool)
    (u : Tree) : Prop where
  formed : u.Formed
  judge : u.code.isJudge = true
  cost : known → potential l u + out.2.toNat ≤ potential l p + if p.isSettled then 0 else 59
  idle : out.2 = false → u = p ∧ out.1 = n

theorem Tree.weight_judge (ty : Ty) (judge : code.isJudge = true)
    (plain : code.isRelation = false) : 60 ≤ weight code ty := by
  cases code <;> simp only [Op.isJudge, Op.isRelation, Bool.false_eq_true,
    Bool.true_eq_false] at judge plain <;> simp only [weight] <;> omega

/-- Only a value of little potential comes in place of a truth value. -/
theorem Becomes.judgement_cost {out : NodeId × Bool} (becomes : Becomes known l p n out u)
    (value : p.isConst = false)
    (compares : p.code.isRelation = true → Compares known l p u) (plain : u.code.isJudge = false)
    (yes : known) : potential l u + 59 ≤ potential l p + if p.isSettled then 0 else 59 := by
  have lower := becomes.lowers yes
  cases settled : p.isSettled with
  | false =>
    have := becomes.potential_le yes
    simpa using this
  | true =>
    have judge : p.code.isJudge = true := by simpa [isSettled, value] using settled
    rw [if_pos rfl, Nat.add_zero]
    cases const : u.isConst with
    | false =>
      have exposed : 59 ≤ exposure p u := by
        have unsettled : u.isSettled = false := by simp [isSettled, plain, const]
        simp [exposure, settled, unsettled]
      unfold Lowers at lower
      omega
    | true =>
      obtain ⟨code, ty, attrs, slots⟩ := u
      obtain rfl : code = .const := by simpa [isConst, Tree.code] using const
      obtain rfl := becomes.formed.leaf_slots rfl rfl
      rw [potential_leaf, weight_const]
      cases relation : p.code.isRelation with
      | true =>
        rcases (compares relation).relation relation with stays | ⟨_, heavy⟩
        · cases stays
        · exact heavy yes
      | false =>
        exact (weight_judge p.ty judge relation).trans (weight_le_potential p)

namespace Forest

/-- The end of the refinement of a condition. -/
theorem judged {out : NodeId × Bool} (becomes : Becomes known r₀.layout p n out u)
    (value : p.isConst = false)
    (compares : p.code.isRelation = true → Compares known r₀.layout p u)
    (ordered : Orderly s r₀ true u) (plain : u.code.isJudge = false → Orderly s r₀ false u)
    (regrown : Regrown r₀ ns₀ ps n up u out.1 r) :
    Meets (do
      if (← ask (·.node out.1)).code.isJudge then return (out.1, out.2)
      return (← Edit.judgement out.1, true)) r F fun out r' => ∃ u,
      (Judges known r₀.layout p n out u ∧ Orderly s r₀ true u) ∧
        Placed r₀ ns₀ ps n up u out.1 r' := by
  obtain ⟨_, _, h⟩ := regrown.placed
  obtain ⟨e, at_m, tops, _⟩ := h.node List.mem_cons_self
  simp only [meets_bind, meets_ask, Region.node_of at_m, yields_ok, tops.code]
  cases judge : u.code.isJudge with
  | true =>
    exact ⟨u, ⟨⟨becomes.formed, judge, fun yes => (becomes.lowers yes).potential_le.trans
      (Nat.le_add_right _ _), becomes.idle⟩, ordered⟩, regrown.placed⟩
  | false =>
    have judges (m : NodeId) : Judges known r₀.layout p n (m, true) (u.judgement r₀.layout) := by
      refine ⟨becomes.formed.judgement, rfl, fun yes => ?_, fun off => Bool.noConfusion off⟩
      have cost := becomes.judgement_cost value compares judge yes
      have := potential_judgement (l := r₀.layout) (t := u)
      simp only [Bool.toNat_true]
      omega
    rcases regrown with ⟨same, h⟩ | h
    · rw [same]
      refine Meets.bind h.judgement ?_
      rintro m r₁ ⟨other, h⟩
      exact ⟨_, ⟨judges m, (plain judge).judgement⟩, none, fun same => absurd same other, h⟩
    · refine Meets.bind h.judgement ?_
      rintro m r₁ ⟨_, h⟩
      exact ⟨_, ⟨judges m, (plain judge).judgement⟩, Regrown.placed (.moved h)⟩

section refinement

variable (below : RefinesBelow known s r₀ ns₀ bound refine)
  (wide : known → r₀.layout.pointerSize ∈ [2, 4, 8])
include below wide

theorem refineCondition (formed : p.Formed) (value : p.isConst = false)
    (small : known → potential r₀.layout p < bound) (h : Forest r₀ ns₀ (.tree p n up :: ps) r) :
    Meets (refineCondition s refine n) r (Fault.ProperIf known) fun out r' => ∃ u,
      (Judges known r₀.layout p n out u ∧ Orderly s r₀ true u) ∧
        Placed r₀ ns₀ ps n up u out.1 r' := by
  obtain ⟨d, found, tops, _⟩ := h.node List.mem_cons_self
  simp only [Peephole.refineCondition, Edit.node, meets_bind, meets_ask, Region.node_of found,
    yields_ok, tops.code]
  split
  · rename_i relation
    have binary := isBinary_of_isRelation relation
    refine Meets.bind (refineBinary below wide formed binary (fun yes => (small yes).le) h) ?_
    rintro out r₁ ⟨u, ⟨compares, ordered, becomes⟩, regrown⟩
    refine judged becomes value (fun _ => compares rfl) ordered (fun plain => ?_) regrown
    rcases (compares rfl).relation relation with stays | ⟨const, _⟩
    · rw [isJudge_of_isRelation stays] at plain
      cases plain
    · exact .const becomes.formed const
  · rename_i plain
    refine Meets.bind (below p n up ps r formed small h) ?_
    rintro out r₁ ⟨u, ⟨becomes, ordered⟩, regrown⟩
    exact judged becomes value (fun relation => absurd relation plain) ordered.predicate
      (fun _ => ordered) regrown

/-! ### Selections -/

theorem refinePredicate (formed : (Tree.node .select ty attrs [[p], us, vs]).Formed)
    (small : known → potential r₀.layout (.node .select ty attrs [[p], us, vs]) ≤ bound)
    (h : Forest r₀ ns₀ (.tree (.node .select ty attrs [[p], us, vs]) n up :: ps) r) :
    Meets (refinePredicate s refine n) r (Fault.ProperIf known)
      (SlotPassed known (OrderedSlot s r₀ true) r₀ ns₀ ps .select ty attrs [[p], us, vs] n up 0
        [p]) := by
  have whole := h
  obtain ⟨ids, ks, fits, slot, lengths, h⟩ := h.splitSlot (i := 0) rfl
  obtain ⟨x, rfl⟩ := List.length_eq_one_iff.mp lengths.symm
  obtain ⟨_, _, _, found⟩ := Region.node?_of_core (h.stub_found List.mem_cons_self)
  obtain ⟨d, at_x, tops, _⟩ : ∃ d, r.node? x = some d ∧ Tops d p ∧ _ :=
    h.node (List.mem_cons_of_mem _ List.mem_cons_self)
  have formed' : p.Formed := formed.kid p (by simp)
  have small' (yes : known) : potential r₀.layout p < bound :=
    (potential_kid_lt (by simp)).trans_le (small yes)
  simp only [Peephole.refinePredicate, Edit.kid, Edit.node, meets_bind, meets_ask,
    Region.kid_of found slot, Region.node_of at_x, yields_ok, tops.isConst]
  cases value : p.isConst with
  | true =>
    have ordered : Orderly s r₀ true p := .const formed' value
    exact ⟨[p], ⟨rfl, List.forall_mem_singleton.mpr ordered⟩, .refl formed, whole⟩
  | false =>
    refine Meets.bind (refineCondition below wide formed' value small' h.swap) ?_
    rintro ⟨k, changed⟩ r₁ ⟨u, ⟨judges, ordered⟩, placed⟩
    refine (refill slot placed).to ?_
    rintro _ r₂ ⟨rfl, h⟩
    have same : [p].length = [u].length := rfl
    have inside : 0 < ids.length := (List.getElem?_eq_some_iff.mp slot).1
    refine ⟨[u], ⟨same, List.forall_mem_singleton.mpr ordered⟩,
      ⟨?_, fun yes => ?_, fun off => ⟨by rw [(judges.idle off).1]; rfl, rfl⟩⟩,
      joinSlot fits inside (show [u].length = [k].length from rfl) h⟩
    · refine formed.relaid (by simp) (fun t mem => ?_) _ _
      rcases List.mem_cons.mp mem with rfl | mem
      · exact judges.formed
      · exact formed.kid t (List.mem_cons_of_mem p mem)
    · have alike : exposure (.node .select ty attrs [[p], us, vs])
          (.node .select ty attrs [[u], us, vs]) = 0 := exposure_eq_zero rfl rfl rfl
      have cost := judges.cost yes
      have settled : u.isSettled = true := by simp [isSettled, judges.judge]
      simp only [Lowers, List.set_cons_zero, alike, potential_select, settled, if_true] at cost ⊢
      omega

end refinement

theorem foldPredicate (formed : (Tree.node .select ty attrs [[p], us, vs]).Formed)
    (ordered : Orderly s r₀ true p)
    (h : Forest r₀ ns₀ (.tree (.node .select ty attrs [[p], us, vs]) n up :: ps) r) :
    Meets (foldPredicate s n) r (Fault.ProperIf known)
      (SlotPassed known (OrderedSlot s r₀ true) r₀ ns₀ ps .select ty attrs [[p], us, vs] n up 0
        [p]) := by
  obtain ⟨ids, ks, fits, slot, lengths, h⟩ := h.splitSlot (i := 0) rfl
  obtain ⟨x, rfl⟩ := List.length_eq_one_iff.mp lengths.symm
  obtain ⟨inside, at_0⟩ := List.getElem?_eq_some_iff.mp slot
  obtain ⟨_, _, _, found⟩ := Region.node?_of_core (h.stub_found List.mem_cons_self)
  have formed' : p.Formed := formed.kid p (by simp)
  simp only [Peephole.foldPredicate, Edit.kid, meets_bind, meets_ask, Region.kid_of found slot,
    yields_ok]
  refine (foldIfAsked formed' h.swap).to ?_
  rintro ⟨k, changed⟩ r₁ ⟨u, ⟨becomes, keeps⟩, regrown⟩
  have single : [p].length = [u].length := rfl
  have slot' : OrderedSlot s r₀ true changed [u] :=
    List.forall_mem_singleton.mpr (keeps true ordered)
  have slotwise : Becomes known r₀.layout (.node .select ty attrs [[p], us, vs]) n (n, changed)
      (.node .select ty attrs ([[p], us, vs].set 0 [u])) :=
    .ofSlot formed rfl single (by simpa using becomes.formed)
      (fun yes => .single (becomes.lowers yes)) fun off => by rw [(becomes.idle off).1]
  cases changed with
  | true =>
    obtain ⟨_, _, h⟩ := regrown.placed
    refine Meets.bind (setKid inside h.swap) fun _ r₂ h =>
      ⟨[u], ⟨single, slot'⟩, slotwise, ?_⟩
    exact joinSlot fits inside (show [u].length = [k].length from rfl) h
  | false =>
    obtain ⟨rfl, rfl⟩ := becomes.idle rfl
    refine ⟨[u], ⟨single, slot'⟩, slotwise,
      joinSlot fits inside (show [u].length = [k].length from rfl) ?_⟩
    have stays : ids.set 0 [k] = ids := by
      rw [← show ids[0] = [k] from at_0, List.set_getElem_self]
    rw [stays]
    exact regrown.same.swap

/-- The root of the one tree in a slot. -/
theorem kidNode (h : Forest r₀ ns₀ (.tree (.node code ty attrs slots) n up :: ps) r)
    (found : slots[i]? = some [a]) :
    ∃ k d, r.kid n i = .ok k ∧ r.node k = .ok d ∧ Tops d a := by
  obtain ⟨ids, ks, fits, slot, lengths, h⟩ := h.splitSlot found
  obtain ⟨k, rfl⟩ := List.length_eq_one_iff.mp lengths.symm
  obtain ⟨_, _, _, at_n⟩ := Region.node?_of_core (h.stub_found List.mem_cons_self)
  obtain ⟨d, at_k, tops, _⟩ : ∃ d, r.node? k = some d ∧ Tops d a ∧ _ :=
    h.node (List.mem_cons_of_mem _ List.mem_cons_self)
  exact ⟨k, d, Region.kid_of at_n slot, Region.node_of at_k, tops⟩

/-- A selection after it was tried to make a negation of it. -/
def Negates (r₀ : Region) (ns₀ : List NodeId) (ps : List Piece) (ty : Ty) (attrs : Attrs)
    (p : Tree) (us vs : List Tree) (n : NodeId) (up : Option NodeId) :
    Option NodeId → Region → Prop
  | some m, r => ∃ c q attrs' a b, c.isBinary = true ∧ p = two c q attrs' a b ∧
      Forest r₀ ns₀ (.tree (one .lnot (.scalar .bool) .none a) m none :: .gone n :: ps) r
  | none, r => Forest r₀ ns₀ (.tree (.node .select ty attrs [[p], us, vs]) n up :: ps) r

/-- What stands left of a zero in a predicate is taken out, and its negation is built. -/
theorem negatePredicate (formed : p.Formed) (binary : p.code.isBinary = true)
    (fits : Fits [[p], us, vs] ids) (slot : ids[0]? = some [x])
    (split : Forest r₀ ns₀ (.stub (.fresh .select ty attrs ids) n up :: .tree p x (some n) ::
      (siblings [[p], us, vs] ids 0 n ++ ps)) r) :
    Meets (do
      if !(← Edit.node (← Edit.kid x 1)).isIntLit 0#64 then return none
      let a ← Edit.kid x 0
      discard (Edit.takeKid x 0)
      Edit.discardTree n
      Edit.fired .selectToNot n
      return some (← Edit.logicalNot a)) r (Fault.ProperIf known)
      (Negates r₀ ns₀ ps ty attrs p us vs n up) := by
  obtain ⟨inside, at_0⟩ := List.getElem?_eq_some_iff.mp slot
  have stays : ids.set 0 [x] = ids := by
    rw [← at_0, List.set_getElem_self]
  obtain ⟨c, q, attrs', kids⟩ := p
  obtain ⟨as, bs, rfl, fewA, fewB⟩ := formed.two_slots binary
  rcases nil_or_singleton fewB with rfl | ⟨b, rfl⟩
  · exact Meets.bind (split.swap.kid_none (i := 1) rfl) fun _ _ => id
  obtain ⟨_, zero, kid, node, _⟩ := split.swap.kidNode (i := 1) rfl
  simp only [Edit.kid, Edit.node, meets_bind, meets_ask, kid, node, yields_ok]
  split
  · exact joinSlot fits inside (show [_].length = [x].length from rfl) (by rwa [stays])
  simp only [meets_bind]
  rcases nil_or_singleton fewA with rfl | ⟨a, rfl⟩
  · exact split.swap.kid_none (i := 0) rfl
  obtain ⟨y, z, lower⟩ := split.swap.splitTwo
  obtain ⟨_, _, _, found⟩ := Region.node?_of_core (lower.stub_found List.mem_cons_self)
  simp only [meets_ask, Region.kid_of found (i := 0) rfl, yields_ok, meets_discard]
  refine (takeKid (i := 0) rfl lower).to fun _ r₁ lower => ?_
  have lower := join (show Fits [[], [b]] [[], [z]] from rfl) lower.swapNext
  have apart : (.tree a y none :: (siblings [[two c q attrs' a b], us, vs] ids 0 n ++ ps)).Perm
      (siblings [[two c q attrs' a b], us, vs] ids 0 n ++ .tree a y none :: ps) :=
    List.perm_middle.symm
  have rest := (front [_, _] lower).perm (.cons _ (.cons _ apart))
  have whole := joinSlot fits inside (show [_].length = [x].length from rfl) (by rwa [stays])
  refine whole.discardTree.properly.to fun _ r₂ h => ?_
  refine (h.swap.fired _).to fun _ r₃ h => ?_
  refine h.logicalNot.to ?_
  rintro m r₄ ⟨_, h⟩
  exact ⟨c, q, attrs', a, b, binary, rfl, h⟩

theorem selectToNot (formed : (Tree.node .select ty attrs [[p], us, vs]).Formed)
    (few : us.length ≤ 1) (few' : vs.length ≤ 1)
    (h : Forest r₀ ns₀ (.tree (.node .select ty attrs [[p], us, vs]) n up :: ps) r) :
    Meets (selectToNot n) r (Fault.ProperIf known)
      (Negates r₀ ns₀ ps ty attrs p us vs n up) := by
  have formed' : p.Formed := formed.kid p (by simp)
  obtain ⟨ids, ks, fits, slot, lengths, split⟩ := h.splitSlot (i := 0) rfl
  obtain ⟨x, rfl⟩ := List.length_eq_one_iff.mp lengths.symm
  obtain ⟨_, _, _, found⟩ := Region.node?_of_core (split.stub_found List.mem_cons_self)
  obtain ⟨d, at_x, tops, _⟩ : ∃ d, r.node? x = some d ∧ Tops d p ∧ _ :=
    split.node (List.mem_cons_of_mem _ List.mem_cons_self)
  simp only [Peephole.selectToNot, meets_bind]
  rw [Edit.kid, meets_ask, Region.kid_of found slot, yields_ok]
  rcases nil_or_singleton few with rfl | ⟨b₁, rfl⟩
  · exact h.kid_none (i := 1) rfl
  obtain ⟨_, yes, kid, node, _⟩ := h.kidNode (i := 1) rfl
  simp only [Edit.kid, Edit.node, meets_ask, kid, node, yields_ok]
  split
  · exact h
  simp only [meets_bind]
  rcases nil_or_singleton few' with rfl | ⟨b₂, rfl⟩
  · exact h.kid_none (i := 2) rfl
  obtain ⟨_, no, kid, node, _⟩ := h.kidNode (i := 2) rfl
  simp only [meets_ask, kid, node, yields_ok]
  split
  · exact h
  simp only [meets_bind, meets_ask, Region.node_of at_x, yields_ok, tops.code]
  split
  · rename_i ne
    split
    · exact h
    · exact negatePredicate formed' (by rw [ne]; rfl) fits slot split
  · rename_i eq
    split
    · exact h
    · exact negatePredicate formed' (by rw [eq]; rfl) fits slot split
  · exact h

/-- The tree in a slot takes the place of the node. -/
theorem spliceSlot (found : slots[i]? = some us) (few : us.length ≤ 1)
    (h : Forest r₀ ns₀ (.tree (.node code ty attrs slots) n up :: ps) r) :
    Meets (Edit.spliceKid n i) r (Fault.ProperIf known) fun k r' =>
      ∃ a ∈ us, Forest r₀ ns₀ (.tree a k none :: .gone n :: ps) r' := by
  rcases nil_or_singleton few with rfl | ⟨a, rfl⟩
  · exact Meets.bind (h.kid_none found) fun _ _ => id
  · exact (h.spliceKid found).properly.to fun k r' h => ⟨a, List.mem_singleton_self a, h⟩

theorem dropExpired (h : Forest r₀ ns₀ (.tree t n up :: ps) r) :
    Meets (Edit.dropExpired n) r Fault.Proper fun _ r' =>
      Forest r₀ ns₀ (.tree t n up :: ps) r' := by
  obtain ⟨ms, _, _, subtree⟩ := h.subtree
  refine h.quiet dropExpired_quiet ?_
  simp only [Edit.dropExpired, Edit.subtree, meets_bind, meets_ask, subtree, yields_ok]
  exact (dropExpiredOf_quiet r rfl).imp (fun _ => Fault.Plain.proper) fun _ _ _ => trivial

theorem inheritLoad {ld : NodeId} (h : Forest r₀ ns₀ (.tree t ld up :: ps) r) :
    Meets (Peephole.inheritLoad ld n) r Fault.Proper
      fun _ r' => Forest r₀ ns₀ (.tree t ld up :: ps) r' := by
  have moved (edges inexact : Bool) {r₁} (h : Forest r₀ ns₀ (.tree t ld up :: ps) r₁) :
      Meets (do
        if edges then
          Edit.changeUse ld n
          if inexact then discard (Edit.dropExpired ld)) r₁ Fault.Proper
        fun _ r' => Forest r₀ ns₀ (.tree t ld up :: ps) r' := by
    split
    · refine Meets.bind (h.ordinary changeUse_quiet) fun _ r₂ h => ?_
      split
      · exact meets_discard.mpr h.dropExpired
      · exact h
    · exact h
  simp only [Peephole.inheritLoad, Edit.hasEdges, meets_bind, meets_ask, meets_get, meets_pure]
  refine Region.exactRef?_answers.yields (fun _ => Fault.Plain.proper) fun ref? _ => ?_
  split
  · refine Meets.bind (h.ordinary locateLoad_quiet) fun m r₁ h => ?_
    refine Meets.bind (h.ordinary modifyAccess_quiet) fun _ r₂ h => ?_
    exact moved _ _ h
  · refine Meets.bind (h.ordinary copyAccess_quiet) fun _ r₁ h => ?_
    exact moved _ _ h

/-- A load takes the place of an indirect load. -/
theorem loadDirectly {v : VarId} {ofst : Int} (h : Forest r₀ ns₀ (.tree t n up :: ps) r) :
    Meets (do
      let ld ← load v ofst ty
      Peephole.inheritLoad ld n
      Edit.discardTree n
      Edit.fired .ildOfLda n
      return (ld, true)) r (Fault.ProperIf known) fun out r' => out.2 = true ∧
        Regrown r₀ ns₀ ps n up (leaf .ld ty (.ofVar v ofst)) out.1 r' := by
  refine Meets.bind (build (show Fits [] [] from rfl) .nil h) fun ld r₁ h => ?_
  refine Meets.bind h.inheritLoad.properly fun _ r₂ h => ?_
  refine Meets.bind h.swap.discardTree.properly fun _ r₃ h => ?_
  exact Meets.bind (h.swap.fired _) fun _ r₄ h => ⟨rfl, .moved h⟩

section refinement

variable (below : RefinesBelow known s r₀ ns₀ bound refine)
  (wide : known → r₀.layout.pointerSize ∈ [2, 4, 8])
include below

/-- What is done with a selection whose kids are refined. -/
theorem settleSelect (wide : known → r₀.layout.pointerSize ∈ [2, 4, 8])
    (first : Becomes known r₀.layout t n (n, changed) (.node .select ty attrs [[p], us, vs]))
    (few : us.length ≤ 1) (few' : vs.length ≤ 1)
    (small : known → potential r₀.layout (.node .select ty attrs [[p], us, vs]) ≤ bound)
    (kids : OrderlyBelow s r₀ (.node .select ty attrs [[p], us, vs]))
    (h : Forest r₀ ns₀ (.tree (.node .select ty attrs [[p], us, vs]) n up :: ps) r) :
    Meets (do
      match (← Edit.node (← Edit.kid n 0)).truth? with
      | some taken => do
        Edit.fired .selectConstPred n
        return (← Edit.spliceKid n (if taken then 1 else 2), true)
      | none => do
        if !s.selectToNot then return (n, changed)
        let ty := (← Edit.node n).ty
        match ← Peephole.selectToNot n with
        | some negation => do
          let (new, _) ← Peephole.settleNot s refine negation
          return (← Peephole.retype s new ty, true)
        | none => return (n, changed)) r (Fault.ProperIf known)
      (Passed known (Ordered s r₀) r₀ ns₀ ps t n up) := by
  obtain ⟨d, found, tops, _⟩ := h.node List.mem_cons_self
  have type : d.ty = ty := tops.ty
  obtain ⟨_, e, kid, node, _⟩ := h.kidNode (i := 0) rfl
  obtain ⟨predicate, yes, no⟩ := orderlyBelow_select.mp kids
  have stays : Orderly s r₀ false (.node .select ty attrs [[p], us, vs]) := kids.orderly rfl
  have formed := first.formed
  simp only [Edit.kid, Edit.node, meets_bind, meets_ask, kid, node, yields_ok]
  split
  · rename_i taken _
    refine Meets.bind (h.fired _) fun _ r₁ h => ?_
    cases taken with
    | true =>
      refine Meets.bind (spliceSlot (i := 1) rfl few h) ?_
      rintro k r₂ ⟨a, mem, h⟩
      have both := List.mem_append_left vs mem
      exact ⟨a, ⟨first.gives (formed.kid a (by simpa using .inr (by simpa using both)))
        fun _ => lowers_select both, yes a mem⟩, .moved h⟩
    | false =>
      refine Meets.bind (spliceSlot (i := 2) rfl few' h) ?_
      rintro k r₂ ⟨a, mem, h⟩
      have both := List.mem_append_right us mem
      exact ⟨a, ⟨first.gives (formed.kid a (by simpa using .inr (by simpa using both)))
        fun _ => lowers_select both, no a mem⟩, .moved h⟩
  · split
    · exact .here first stays h
    simp only [meets_bind, meets_ask, Region.node_of found, yields_ok, type]
    refine (selectToNot formed few few' h).to fun out r₁ done => ?_
    cases out with
    | none => exact .here first stays done
    | some m =>
      obtain ⟨c, q, attrs', a, b, binary, rfl, negated⟩ := done
      have operand : a.Formed := (formed.kid (two c q attrs' a b) (by simp)).left
      have lighter : potential r₀.layout (one .lnot (.scalar .bool) .none a) + 31 ≤
          potential r₀.layout (.node .select ty attrs [[two c q attrs' a b], us, vs]) :=
        potential_negation binary
      have small' (yes : known) :
          potential r₀.layout (one .lnot (.scalar .bool) .none a) ≤ bound :=
        (Nat.le_add_right _ _).trans (lighter.trans (small yes))
      obtain ⟨left, _⟩ : Orderly s r₀ false a ∧ Orderly s r₀ false b :=
        (orderlyBelow_two (isBinary_ne binary).2.1).mp (predicate _ List.mem_cons_self).orderlyBelow
      refine Meets.bind (settleNot below wide (.inl rfl) (.ofOne rfl operand) small'
        ((orderlyBelow_one (by decide)).mpr left) negated) ?_
      rintro ⟨k, _⟩ r₂ ⟨u, ⟨becomes, ordered⟩, regrown⟩
      refine Meets.bind regrown.loose.retype.properly ?_
      rintro k' r₃ ⟨_, loose, h⟩
      rw [loose rfl] at h
      exact ⟨_, ⟨first.gives becomes.formed.retyped
        fun yes => lowers_selectToNot binary (becomes.potential_le yes), ordered.retyped⟩, .moved h⟩

include wide

theorem refineSelect (formed : (Tree.node .select ty attrs slots).Formed)
    (small : known → potential r₀.layout (.node .select ty attrs slots) ≤ bound)
    (h : Forest r₀ ns₀ (.tree (.node .select ty attrs slots) n up :: ps) r) :
    Meets (refineSelect s refine n) r (Fault.ProperIf known)
      (Passed known (Ordered s r₀) r₀ ns₀ ps (.node .select ty attrs slots) n up) := by
  obtain ⟨us, vs, ws, rfl, one, few, few'⟩ := formed.select_slots
  match us, one with
  | [], _ =>
    simp only [Peephole.refineSelect, Peephole.refinePredicate, meets_bind]
    exact h.kid_none (i := 0) rfl
  | [p], _ =>
  refine Meets.bind (refinePredicate below wide formed small h) ?_
  rintro inPred r₁ ⟨us', ⟨length, condition⟩, first, h⟩
  obtain ⟨p₁, rfl⟩ := List.length_eq_one_iff.mp length.symm
  have small₁ (yes : known) := (first.potential_le yes).trans (small yes)
  refine Meets.bind (refineSlot below first.formed (i := 1) rfl small₁ h few) ?_
  rintro inYes r₂ ⟨vs', ⟨length, yes⟩, second, h⟩
  have few₂ : vs'.length ≤ 1 := length ▸ few
  have small₂ (yes : known) := (second.potential_le yes).trans (small₁ yes)
  refine Meets.bind (refineSlot below second.formed (i := 2) rfl small₂ h few') ?_
  rintro inNo r₃ ⟨ws', ⟨length, no⟩, third, h⟩
  have few₃ : ws'.length ≤ 1 := length ▸ few'
  have small₃ (yes : known) := (third.potential_le yes).trans (small₂ yes)
  refine Meets.bind (foldPredicate third.formed (condition p₁ (by simp)) h) ?_
  rintro folded r₄ ⟨us', ⟨length, condition⟩, fourth, h⟩
  obtain ⟨p₂, rfl⟩ := List.length_eq_one_iff.mp length.symm
  have small₄ (yes : known) := (fourth.potential_le yes).trans (small₃ yes)
  exact settleSelect below wide (((first.trans second).trans third).trans fourth) few₂ few₃ small₄
    (orderlyBelow_select.mpr ⟨condition, yes, no⟩) h

omit wide

/-! ### Loads and array elements -/

theorem refineIndirectLoad (formed : (Tree.node .ild ty attrs slots).Formed)
    (small : known → potential r₀.layout (.node .ild ty attrs slots) ≤ bound)
    (h : Forest r₀ ns₀ (.tree (.node .ild ty attrs slots) n up :: ps) r) :
    Meets (refineIndirectLoad refine n) r (Fault.ProperIf known)
      (Passed known (Ordered s r₀) r₀ ns₀ ps (.node .ild ty attrs slots) n up) := by
  obtain ⟨us, rfl, few⟩ := formed.single_slot rfl rfl rfl
  refine Meets.bind (refineSlot below formed (i := 0) rfl small h few) ?_
  rintro changed r₁ ⟨us', ⟨_, operands⟩, first, h⟩
  rcases first.formed.one_slot rfl rfl rfl with ⟨a, slot⟩ | slot
  swap
  · exact Meets.bind (h.kid_none (i := 0) (by rw [slot]; rfl)) fun _ _ => id
  obtain rfl := List.head_eq_of_cons_eq slot
  obtain ⟨d, found, tops, _⟩ := h.node List.mem_cons_self
  have type : d.ty = ty := tops.ty
  obtain ⟨_, base, kid, node, _⟩ := h.kidNode (i := 0) rfl
  simp only [Edit.kid, Edit.node, meets_bind, meets_ask, kid, node, yields_ok]
  split
  · exact .here first (.one rfl (by decide) (operands a (by simp))) h
  · rw [meets_bind, meets_ask, Region.node_of found, yields_ok, meets_bind, meets_lift, type]
    refine Yields.imp Region.addOffsets_answers (fun _ plain _ => plain.proper) fun sum _ _ => ?_
    refine h.loadDirectly.to ?_
    rintro ⟨ld, _⟩ r₂ ⟨rfl, regrown⟩
    exact ⟨_, ⟨first.gives (.ofLeaf rfl) fun _ => lowers_load, OrderlyBelow.leaf.orderly rfl⟩,
      regrown⟩

theorem refineElement (formed : (Tree.node .array ty attrs slots).Formed)
    (small : known → potential r₀.layout (.node .array ty attrs slots) ≤ bound)
    (h : Forest r₀ ns₀ (.tree (.node .array ty attrs slots) n up :: ps) r) :
    Meets (refineElement refine n) r (Fault.ProperIf known)
      (Passed known (Ordered s r₀) r₀ ns₀ ps (.node .array ty attrs slots) n up) := by
  obtain ⟨us, vs, rfl⟩ : ∃ us vs, slots = [us, vs] := by
    cases formed with
    | node laid _ => exact List.length_eq_two.mp (laid rfl).1
  have few := formed.slot_le rfl (i := 0) rfl rfl
  refine Meets.bind (refineSlot below formed (i := 0) rfl small h few) ?_
  rintro inBase r₁ ⟨us', ⟨_, base⟩, first, h⟩
  have small₁ (yes : known) := (first.potential_le yes).trans (small yes)
  refine Meets.bind (refineSlotList below first.formed (i := 1) rfl small₁ h) ?_
  rintro inSubs r₂ ⟨vs', ⟨_, subs⟩, second, h⟩
  have kids : OrderlyBelow s r₀ (.node .array ty attrs [us', vs']) :=
    orderlyBelow_operands (by decide) base subs
  exact .here (first.trans second) (kids.orderly rfl) h

end refinement

/-! ### Expressions -/

/-- What is not supported is left alone, without strict checks. -/
theorem refuse {v : Violation} (h : Forest r₀ ns₀ ps r) :
    Meets (Edit.require s false v) r Fault.Proper
      fun _ r' => s.strict = false ∧ Forest r₀ ns₀ ps r' := by
  cases strict : s.strict with
  | true =>
    unfold Edit.require
    rw [if_neg Bool.false_ne_true, if_pos strict]
    exact fun h => Fault.noConfusion h
  | false => exact (h.require s false v).to fun _ _ kept => ⟨rfl, kept.2⟩

/-- Refinement within a bound above the potential of a tree. -/
theorem refineExprWithin (wide : known → r₀.layout.pointerSize ∈ [2, 4, 8]) :
    RefinesBelow known s r₀ ns₀ fuel (refineExprWithin s fuel) := by
  induction fuel with
  | zero => exact fun t n up ps r _ small _ => fun yes => absurd (small yes) (Nat.not_lt_zero _)
  | succ fuel ih =>
    intro t n up ps r formed small h
    obtain ⟨code, ty, attrs, slots⟩ := t
    obtain ⟨d, found, tops, _⟩ := h.node List.mem_cons_self
    have code' : d.code = code := tops.code
    have small (yes : known) : potential r₀.layout (.node code ty attrs slots) ≤ fuel :=
      Nat.lt_succ_iff.mp (small yes)
    simp only [Peephole.refineExprWithin, Edit.node, meets_bind, meets_ask, Region.node_of found,
      yields_ok, code']
    split
    case h_1 | h_2 | h_3 | h_4 | h_5 =>
      obtain rfl := formed.leaf_slots rfl rfl
      exact .here (.refl formed) (OrderlyBelow.leaf.orderly rfl) h
    case h_6 => exact refineIndirectLoad ih formed small h
    case h_7 => exact refineElement ih formed small h
    case h_8 => exact refineSelect ih wide formed small h
    case h_9 => exact refineNeg ih formed small h
    case h_10 => exact refineNot ih wide (.inl rfl) formed small h
    case h_11 => exact refineNot ih wide (.inr rfl) formed small h
    case h_12 => exact refineCvt ih formed small h
    case h_13 =>
      split
      · rename_i binary
        refine (refineBinary ih wide formed binary small h).to ?_
        rintro out r₁ ⟨u, ⟨_, ordered, becomes⟩, regrown⟩
        exact ⟨u, ⟨becomes, ordered⟩, regrown⟩
      · simp only [meets_bind, meets_discard]
        refine h.refuse.properly.to ?_
        rintro _ r₁ ⟨off, h⟩
        exact .here (.refl formed) (.lenient off) h

theorem refineExpr (wide : known → r₀.layout.pointerSize ∈ [2, 4, 8]) (formed : t.Formed)
    (h : Forest r₀ ns₀ (.tree t n up :: ps) r) :
    Meets (refineExpr s n) r (Fault.ProperIf known)
      (Passed known (Ordered s r₀) r₀ ns₀ ps t n up) := by
  rw [Peephole.refineExpr, meets_bind, meets_get]
  exact refineExprWithin wide t n up ps r formed (fun _ => h.potential_lt_stepBound) h

end Forest

end Peephole
