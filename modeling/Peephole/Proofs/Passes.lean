import Peephole.Proofs.Settling
import Peephole.Refine.Expr

/-!
# Passes over expressions

Refining an expression, from its operands upwards, ends with a term that may stand in its
place. In a condition only the truth of the value is kept.
-/

namespace Peephole

open Edit

variable {linked : Links} {l : Layout} {r r' r₁ : Region} {e e' a b p : Term} {n k : NodeId}
  {ns : List NodeId} {F : Fault → Prop} {op : Op} {t q : Ty} {v w : Word} {s : Setting}
  {pass : Pass}

theorem refineSlot_refining (place : Place) (h : Stands linked l r (place.fill a) n ns)
    (refining : Refining linked l pass a) :
    Meets (refineSlot pass n place.slot) r (fun _ => linked = .live) fun _ r' =>
      Turns linked l r ns (fun e => ∃ a', e = place.fill a' ∧ a.Refines l a') n r' := by
  refine refineSlot_meets place (R := fun _ => a.Refines l) h (fun k below stands => ?_) ?_
  · exact refining r k below stands
  · exact fun _ a' _ below => (Place.refines_fill place h.typed below).typed

theorem refineBinary_refining {foldNode : Bool} (left : Refining linked l pass a)
    (right : Refining linked l pass b) :
    Refining linked l (refineBinary s pass foldNode) (.binary op t a b) := by
  intro r n ns h
  simp only [refineBinary, meets_bind, meets_pure]
  refine (refineSlot_refining (.left op t b) h left).to fun _ r₁ turned₁ => ?_
  obtain ⟨_, ns₁, h₁, within₁, kept₁, a', rfl, refinesA⟩ := turned₁
  refine (refineSlot_refining (.right op t a') h₁ right).to fun _ r₂ turned₂ => ?_
  obtain ⟨_, ns₂, h₂, within₂, kept₂, b', rfl, refinesB⟩ := turned₂
  refine (settle_refining r₂ n ns₂ h₂).to fun out r' turned => ?_
  have operands := (Place.refines_fill (.left op t b) h.typed refinesA).trans
    (Place.refines_fill (.right op t a') h₁.typed refinesB)
  exact ((turned.imp fun _ _ refines => operands.trans refines).trans within₂ kept₂).trans
    within₁ kept₁

theorem foldIfAsked_folds : Folds linked l (foldIfAsked s) e := by
  intro r n ns h
  unfold foldIfAsked
  split
  · exact foldTree_folds r n ns h
  · exact ⟨h.turns rfl, fun _ => rfl⟩

theorem Folded.refines {c : Bool} (h : e.typed l = true) (folded : Folded l e c e') :
    e.Refines l e' := by
  cases c with
  | false =>
    obtain rfl : e' = e := folded
    exact .refl h
  | true => exact (show Smaller l e e' from folded).refines

theorem foldIfAsked_refining : Refining linked l (foldIfAsked s) e := by
  intro r n ns h
  exact (foldIfAsked_folds r n ns h).to fun out r' folded =>
    folded.1.imp fun _ _ => Folded.refines h.typed

/-! ### Negations -/

theorem exists_unary (h : a.typed l = true) (unary : a.code.isUnary = true) :
    ∃ op t x, a = .unary op t x := by
  cases a with
  | unary op t x => exact ⟨op, t, x, rfl⟩
  | binary op t x y =>
    have binary := Term.isBinary_of_typed h
    cases op <;>
      first | exact absurd unary Bool.false_ne_true | exact absurd binary Bool.false_ne_true
  | _ => exact absurd unary Bool.false_ne_true

theorem isBinary_of_isRelation (h : op.isRelation = true) : op.isBinary = true := by
  cases op <;> first | rfl | exact absurd h Bool.false_ne_true

/-- Nothing has to be done for a tree in place of a truth value. -/
theorem retypeBool_meets (h : Stands linked l r e n ns) :
    Meets (retype s n (.scalar .bool)) r F fun n' r' => n' = n ∧ r' = r := by
  obtain ⟨d, found, _⟩ := h.reads
  have bool : (Ty.scalar .bool).isBool = true := rfl
  simp [retype, Edit.node, Region.node_of found, bool]

/-- The operand of a unary node is detached and the node is released. -/
theorem releaseAbove_meets {below : List NodeId} {attrs : Attrs} (h : Stands linked l r a k below)
    (shape : r.shape linked n = some (.fresh op t attrs [[k]])) (apart : n ∉ below) :
    Meets (takeKid n 0) r (fun _ => linked = .live) fun _ r₁ =>
      Meets (release n) r₁ (fun _ => linked = .live) fun _ r' =>
        Turns linked l r (n :: below) (fun e => e = a) k r' := by
  have live : ∀ k' ∈ [k], r.Live k' := by simpa using h.spells.live h.spells.root_mem
  refine (takeKid_meets shape rfl live).to fun _ r₁ taken => ?_
  have calm := taken.grown.calm h.calm
  refine (release_meets taken.shape_node rfl calm).to fun _ r' released => ?_
  have kept : Kept linked r r' [n] := taken.kept_node.trans released.kept_node .refl
  refine ⟨a, below, h.kept_node kept apart, fun m mem => ?_, kept.mono (by simp), rfl⟩
  exact .inl (List.mem_cons_of_mem n mem)

/-- The negation of a comparison is a truth value. -/
theorem isBool_of_lnot {op' : Op} (h : (Term.unary .lnot t (.binary op' q a b)).typed l = true)
    (relation : op'.isRelation = true) : t = .scalar .bool := by
  obtain ⟨typed, fits⟩ := Term.typed_unary.mp h
  obtain ⟨rfl, _⟩ := Term.comparison typed relation
  simp only [Op.fitsUnary, Bool.or_eq_true, Bool.and_eq_true, beq_iff_eq] at fits
  rcases fits with bool | ⟨_, same⟩
  · exact beq_iff_eq.mp bool
  · exact same.symm

/-- The operand of a negation is inverted in place, and the negation is released. -/
theorem invertOperand_meets {inverted : Op} (h : Stands linked l r (.unary .lnot t a) n ns)
    (kid : r.kid n 0 = .ok k) (inverts : a.code.inverted? = some inverted) :
    Meets (do
      setCode k inverted
      discard (takeKid n 0)
      release n
      fired .lnotOfRelation n) r (fun _ => linked = .live) fun _ r' => t = .scalar .bool ∧
        Turns linked l r ns ((Term.unary .lnot t a).Refines l) k r' := by
  obtain ⟨k', below, attrs, rfl, shape, kid', stands, apart⟩ := h.operand
  obtain rfl : k = k' := Except.ok.inj (kid.symm.trans kid')
  have relation := Term.isRelation_of_inverted inverts
  obtain ⟨op', q, x, y, rfl⟩ := exists_binary stands.typed (isBinary_of_isRelation relation.1)
  obtain rfl : t = .scalar .bool := isBool_of_lnot h.typed relation.1
  have refines := Term.refines_lnot_comparison inverts h.typed rfl
  simp only [meets_bind, meets_discard]
  refine (setBinaryCode_meets stands refines.typed).to fun _ r₁ coded => ?_
  obtain ⟨stands₁, kept₁⟩ := coded
  have shape₁ : r₁.shape linked n = some (.fresh .lnot (.scalar .bool) attrs [[k]]) := by
    rw [kept₁.shape n apart (Region.lt_size_of_shape shape), shape]
  refine (releaseAbove_meets stands₁ shape₁ apart).to fun _ r₂ taken => ?_
  refine taken.to fun _ r₃ turned => ?_
  refine (fired_meets linked .lnotOfRelation n).to fun _ r₄ noted => ⟨trivial, ?_⟩
  obtain ⟨_, ns₃, h₃, within, kept₃, rfl⟩ := turned
  refine ⟨_, ns₃, h₃.edited_same noted, fun m mem => ?_, ?_, refines⟩
  · exact (within m mem).imp_right kept₁.grown.size.trans
  · exact ((kept₁.mono fun m => List.mem_cons_of_mem n).trans kept₃ .refl).trans
      noted.kept_same .refl

theorem settleNot_refining : Refining linked l (settleNot s pass) (.unary op t a) := by
  intro r n ns h
  obtain ⟨d, found, reads⟩ := h.reads
  obtain ⟨k, below, attrs, rfl, shape, kid, stands, apart⟩ := h.operand
  obtain ⟨d₀, found₀, reads₀⟩ := stands.reads
  have code : d.code = op := reads.code
  have ty : d.ty = t := reads.ty
  simp only [settleNot, meets_bind, Edit.kid, Edit.node, meets_ask, kid, yields_ok,
    Region.node_of found₀, Region.node_of found, reads₀.code, code, ty]
  split
  · rename_i inverted inverts
    have inverting := invertOperand_meets h kid inverts
    simp only [meets_bind, meets_pure] at inverting ⊢
    refine inverting.to fun _ r₁ h => h.to fun _ r₂ h => h.to fun _ r₃ h => h.to ?_
    rintro _ r₄ ⟨rfl, _, ns₄, h₄, within, kept, refines⟩
    refine (settle_refining r₄ k ns₄ h₄).to fun out r₅ settled => ?_
    obtain ⟨e', ns', h₅, within', kept₅, refines'⟩ := settled
    refine (retypeBool_meets h₅).to ?_
    rintro _ _ ⟨rfl, rfl⟩
    exact Turns.trans within kept ⟨e', ns', h₅, within', kept₅, refines.trans refines'⟩
  · exact foldIfAsked_refining r n _ h

theorem refineNot_refining (below : Refining linked l pass a) :
    Refining linked l (refineNot s pass) (.unary op t a) := by
  intro r n ns h
  simp only [refineNot, meets_bind, meets_pure]
  refine (refineSlot_refining (.operand op t) h below).to fun _ r₁ turned => ?_
  obtain ⟨_, ns₁, h₁, within, kept, a', rfl, refines⟩ := turned
  refine (settleNot_refining r₁ n ns₁ h₁).to fun out r' settled => ?_
  exact (settled.imp fun _ _ => (Place.refines_fill (.operand op t) h.typed refines).trans).trans
    within kept

theorem refineNeg_refining (below : Refining linked l pass a) :
    Refining linked l (refineNeg s pass) (.unary .neg t a) := by
  intro r n ns h
  simp only [refineNeg, meets_bind]
  refine (refineSlot_refining (.operand .neg t) h below).to fun _ r₁ turned => ?_
  obtain ⟨_, ns₁, h₁, within₁, kept₁, a', rfl, refines⟩ := turned
  have first := Place.refines_fill (.operand .neg t) h.typed refines
  refine (foldIfAsked_folds r₁ n ns₁ h₁).to fun out r₂ folded => ?_
  obtain ⟨n', changed⟩ := out
  obtain ⟨turned, same⟩ := folded
  cases changed with
  | true =>
    refine (turned.imp fun e' _ smaller => ?_).trans within₁ kept₁
    exact first.trans (show Smaller l _ e' from smaller).refines
  | false =>
    obtain rfl : n' = n := same rfl
    obtain ⟨_, ns₂, h₂, within₂, kept₂, unchanged⟩ := turned
    rw [show _ = _ from unchanged] at h₂
    have done : Turns linked l r ns ((Term.unary .neg t a).Refines l) n' r₂ :=
      ((h₂.turns first).trans within₂ kept₂).trans within₁ kept₁
    obtain ⟨k, below₀, attrs, _, shape, kid, stands, _⟩ := h₂.operand
    obtain ⟨d₀, found₀, reads₀⟩ := stands.reads
    simp only [Bool.false_eq_true, if_false, meets_bind, Edit.kid, Edit.node, meets_ask, kid,
      yields_ok, Region.node_of found₀, reads₀.code]
    by_cases double : a'.code = .neg
    · obtain ⟨op', q, x, rfl⟩ := exists_unary stands.typed (by rw [double]; rfl)
      obtain rfl : op' = .neg := double
      obtain ⟨k', _, _, _, _, kid', _⟩ := stands.operand
      simp only [Term.code, ne_eq, not_true_eq_false, if_false, meets_bind, meets_ask, kid',
        yields_ok]
      refine Meets.to (meets_bind.mp (spliceBelow_meets (.operand .neg t) (.operand .neg q) h₂
        kid kid')) fun _ r₃ taken => ?_
      refine taken.to fun _ r₄ dropped => ?_
      refine (fired_meets linked .doubleNeg n').to fun _ r' noted => ?_
      obtain ⟨_, ns₄, h₄, within₄, kept₄, rfl⟩ := dropped
      have negated := first.trans (Term.refines_neg_neg h₁.typed)
      exact ((Turns.trans within₄ (kept₄.trans noted.kept_same .refl)
        ((h₄.edited_same noted).turns negated)).trans within₂ kept₂).trans within₁ kept₁
    · simp only [double, ne_eq, not_false_eq_true, if_true, meets_pure]
      exact done

/-! ### Conversions -/

theorem keepsValues_of_isSmall (source : q.isSmall = true) (target : t.isSmall = true)
    (keeps : keepsValues l q t = true) :
    q = t ∨ q.byteSize l < t.byteSize l ∧ (t.isSigned = true ∨ q.isSigned = false) := by
  simpa [keepsValues, Ty.isInt_of_isSmall source, Ty.isInt_of_isSmall target] using keeps

/-- A conversion that keeps all values is dropped below another one. -/
theorem dropInnerCvt_meets (h : Stands linked l r (.unary .cvt t a) n ns) :
    Meets (dropInnerCvt n) r (fun _ => linked = .live) fun _ r' => Turns linked l r ns
      (fun e => ∃ a', e = .unary .cvt t a' ∧ (Term.unary .cvt t a).Refines l e) n r' := by
  obtain ⟨k, below, attrs, rfl, shape, kid, stands, apart⟩ := h.operand
  obtain ⟨d, found, reads⟩ := stands.reads
  have keep : Turns linked l r (n :: below)
      (fun e => ∃ a', e = .unary .cvt t a' ∧ (Term.unary .cvt t a).Refines l e) n r :=
    h.turns ⟨a, rfl, .refl h.typed⟩
  simp only [dropInnerCvt, meets_bind, Edit.kid, Edit.node, meets_ask, kid, yields_ok,
    Region.node_of found, reads.code, reads.ty]
  by_cases nested : a.code = .cvt
  · obtain ⟨op', q, x, rfl⟩ := exists_unary stands.typed (by rw [nested]; rfl)
    obtain rfl : op' = .cvt := nested
    obtain ⟨k', below', attrs', rfl, shape', kid', stands', apart'⟩ := stands.operand
    obtain ⟨d', found', reads'⟩ := stands'.reads
    have tyQ : (Term.unary .cvt q x).ty = q := rfl
    simp only [Term.code, ne_eq, not_true_eq_false, if_false, meets_bind, meets_ask, kid',
      yields_ok, Edit.layout, meets_get, meets_pure, h.layout, Region.node_of found', reads'.ty,
      tyQ]
    by_cases keeps : keepsValues l x.ty q = true
    · simp only [keeps, Bool.not_true, Bool.false_eq_true, if_false, meets_bind, meets_discard]
      have small := Term.isSmall_of_typed stands'.typed
      have smallQ : q.isSmall = true := Term.isSmall_of_typed stands.typed
      have refines := Term.refines_cvt_cvt h.typed (keepsValues_of_isSmall small smallQ keeps)
      simp only [List.mem_cons, not_or] at apart
      have other : k ≠ n := fun eq => apart.1 eq.symm
      have live' : ∀ m ∈ [k'], r.Live m := by
        simpa using stands'.spells.live stands'.spells.root_mem
      refine (takeKid_meets shape' rfl live').to fun _ r₁ taken => ?_
      have shape₁ : r₁.shape linked n = some (.fresh .cvt t attrs [[k]]) := by
        rw [taken.shape, Function.update_of_ne (Ne.symm other), shape]
      have live₁ : ∀ m ∈ [k], r₁.Live m := by simpa using Region.live_of_shape taken.shape_node
      refine (takeKid_meets shape₁ rfl live₁).to fun _ r₂ taken' => ?_
      have shape₂ : r₂.shape linked k = some (.fresh .cvt q attrs' [[]]) := by
        rw [taken'.shape, Function.update_of_ne other, taken.shape_node]
        rfl
      have calm := taken'.grown.calm (taken.grown.calm h.calm)
      refine (release_meets shape₂ rfl calm).to fun _ r₃ released => ?_
      have shape₃ : r₃.shape linked n = some (.fresh .cvt t attrs [[]]) := by
        rw [released.shape, Function.update_of_ne (Ne.symm other), taken'.shape_node]
        rfl
      have kept₃ : Kept linked r r₃ [n, k] := by
        refine ((taken.kept_node.mono ?_).trans (taken'.kept_node.mono ?_) .refl).trans
          (released.kept_node.mono ?_) .refl <;> simp
      have clear : ∀ m ∈ below', m ∉ [n, k] := by
        intro m mem
        simp only [List.mem_cons, List.not_mem_nil, or_false, not_or]
        exact ⟨fun eq => apart.2 (eq ▸ mem), fun eq => apart' (eq ▸ mem)⟩
      have stands₃ := stands'.kept kept₃ clear
      have live₃ := stands₃.spells.live stands₃.spells.root_mem
      refine (setKid_meets shape₃ (by simp) live₃).to fun _ r₄ filled => ?_
      refine (fired_meets linked .nestedCvt n).to fun _ r' noted => ?_
      have kept₄ : Kept linked r₃ r' [n] := filled.kept_node.trans noted.kept_same .refl
      have final : r'.shape linked n = some (.fresh .cvt t attrs [[k']]) := by
        rw [noted.shape, filled.shape_node]
        rfl
      have stands₄ := stands₃.kept_node kept₄ apart.2
      refine ⟨_, _, stands₄.of_operand apart.2 final refines.typed, ?_, ?_, x, rfl, refines⟩
      · intro m mem
        rcases List.mem_cons.mp mem with rfl | mem
        · exact .inl List.mem_cons_self
        · exact .inl (List.mem_cons_of_mem n (List.mem_cons_of_mem k mem))
      · refine (kept₃.trans (kept₄.mono ?_) .refl).mono ?_ <;> simp
    · simp only [keeps, Bool.not_false, if_true, meets_pure]
      exact keep
  · simp only [nested, ne_eq, not_false_eq_true, if_true, meets_pure]
    exact keep

/-- A conversion of a literal becomes a literal. -/
theorem foldCvt_sound : Sound linked l ((Term.unary .cvt t a).Refines l) (foldCvt s t)
    (.unary .cvt t a) := by
  intro r n ns h
  have small : t.isSmall = true := Term.isSmall_of_typed h.typed
  obtain ⟨k, _, _, _, _, kid, _⟩ := h.operand
  obtain ⟨below, stands, lift⟩ := h.focus (.operand .cvt t) kid
  obtain ⟨d, found, reads⟩ := stands.reads
  simp only [foldCvt, meets_bind, Edit.kid, Edit.node, meets_ask, kid, yields_ok,
    Region.node_of found, reads.intLit, reads.floatLit, Ty.isInt_of_isSmall small, Bool.and_true]
  cases lit : a.lit? with
  | none => exact h.turns rfl
  | some x =>
    obtain ⟨q, rfl⟩ := Term.lit?_eq_some.mp lit
    have refines := Term.refines_fold_unary h.typed (v := x) rfl
    have word : t.isWord = true := (Term.typed_unary.mp h.typed).2
    simp only [Option.isSome_some, if_true, meets_bind, meets_pure]
    refine (restamp_meets stands small).to fun _ r₁ stamped => ?_
    obtain ⟨_, ns₁, h₁, within, kept, _, rfl, rfl⟩ := lift _ _ stamped fun a' typed same => by
      subst same
      exact Term.typed_cvt typed word
    refine (spliceNoted_meets .foldCvtInt (.operand .cvt t) h₁ refines).to fun _ r₂ noted => ?_
    exact noted.to fun n' r' turned => turned.trans within kept

theorem refineCvt_refining (below : Refining linked l pass a) :
    Refining linked l (refineCvt s pass) (.unary .cvt t a) := by
  intro r n ns h
  simp only [refineCvt, meets_bind]
  refine (refineSlot_refining (.operand .cvt t) h below).to fun _ r₁ turned => ?_
  obtain ⟨_, ns₁, h₁, within₁, kept₁, a₁, rfl, refines₁⟩ := turned
  refine (dropInnerCvt_meets h₁).to fun _ r₂ dropped => ?_
  obtain ⟨_, ns₂, h₂, within₂, kept₂, a₂, rfl, refines₂⟩ := dropped
  have first := (Place.refines_fill (.operand .cvt t) h.typed refines₁).trans refines₂
  have back {P : Term → Prop} {n' : NodeId} {r' : Region} (last : Turns linked l r₂ ns₂ P n' r') :
      Turns linked l r ns P n' r' := (last.trans within₂ kept₂).trans within₁ kept₁
  obtain ⟨d, found, reads⟩ := h₂.reads
  obtain ⟨k, _, _, _, _, kid, stands, _⟩ := h₂.operand
  obtain ⟨d₀, found₀, reads₀⟩ := stands.reads
  have ty : d.ty = t := reads.ty
  simp only [Edit.kid, Edit.node, meets_ask, kid, yields_ok, Region.node_of found₀,
    Region.node_of found, ty, reads₀.ty]
  by_cases same : a₂.ty = t
  · simp only [same, if_true, meets_bind, meets_pure]
    have refines := first.trans (Term.refines_cvt_same h₂.typed same)
    refine (spliceNoted_meets .identityCvt (.operand .cvt t) h₂ refines).to fun _ r₃ noted => ?_
    exact noted.to fun n' r' turned => back turned
  · simp only [same, if_false]
    by_cases asked : s.foldConst = true
    · simp only [asked, if_true, meets_bind]
      refine (foldCvt_sound r₂ n ns₂ h₂).to fun out r' stepped => ?_
      cases out with
      | none => exact back (Turns.becomes stepped first)
      | some n' => exact back (stepped.imp fun _ _ => first.trans)
    · simp only [asked, Bool.false_eq_true, if_false, meets_pure]
      exact back (h₂.turns first)

/-! ### Conditions -/

/-- A condition becomes a comparison or logical operation that decides the same. -/
theorem refineCondition_decides (whole : Refining linked l pass e)
    (operands : ∀ op t a b, e = .binary op t a b →
      Refining linked l pass a ∧ Refining linked l pass b)
    (h : Stands linked l r e n ns) :
    Meets (refineCondition s pass n) r (fun _ => linked = .live) fun out r' =>
      Turns linked l r ns (fun p => e.Decides l p ∧ p.code.isJudge = true) out.1 r' := by
  obtain ⟨d, found, reads⟩ := h.reads
  -- a truth value is made of what is no truth value yet
  have judged (new : NodeId) (changed : Bool) (r₁ : Region)
      (turned : Turns linked l r ns (e.Refines l) new r₁) :
      Meets (Edit.node new) r₁ (fun _ => linked = .live) fun d r₁ =>
        Meets (if d.code.isJudge = true then pure (new, changed) else do
          let j ← judgement new
          pure (j, true)) r₁ (fun _ => linked = .live) fun out r' =>
          Turns linked l r ns (fun p => e.Decides l p ∧ p.code.isJudge = true) out.1 r' := by
    obtain ⟨e', ns', h', within, kept, refines⟩ := turned
    obtain ⟨d', found', reads'⟩ := h'.reads
    simp only [Edit.node, meets_ask, Region.node_of found', yields_ok, reads'.code]
    split
    · rename_i judge
      exact (h'.turns ⟨refines.decides, judge⟩).trans within kept
    · simp only [meets_bind, meets_pure]
      refine (judgement_meets h').to fun j r' made => ?_
      have decides := refines.decides.trans (Term.decides_judgement h'.typed)
      exact (made.becomes ⟨decides, rfl⟩).trans within kept
  simp only [refineCondition, meets_bind, Edit.node, meets_ask, Region.node_of found, yields_ok,
    reads.code]
  by_cases relation : e.code.isRelation = true
  · obtain ⟨op, t, a, b, rfl⟩ := exists_binary h.typed (isBinary_of_isRelation relation)
    obtain ⟨left, right⟩ := operands op t a b rfl
    simp only [relation, if_true, meets_bind]
    refine (refineBinary_refining left right r n ns h).to fun out r₁ turned => ?_
    simpa only [Edit.node, meets_ask] using judged out.1 out.2 r₁ turned
  · simp only [relation, Bool.false_eq_true, if_false, meets_bind]
    refine (whole r n ns h).to fun out r₁ turned => ?_
    simpa only [Edit.node, meets_ask] using judged out.1 out.2 r₁ turned

/-! ### Selections -/

/-- The parts of a selection, as rules find them. -/
structure Branches (linked : Links) (l : Layout) (r : Region) (t : Ty) (p a b : Term)
    (n k₀ k₁ k₂ : NodeId) (d d₀ d₁ d₂ : Node) : Prop where
  node : r.node n = .ok d
  kid₀ : r.kid n 0 = .ok k₀
  kid₁ : r.kid n 1 = .ok k₁
  kid₂ : r.kid n 2 = .ok k₂
  node₀ : r.node k₀ = .ok d₀
  node₁ : r.node k₁ = .ok d₁
  node₂ : r.node k₂ = .ok d₂
  reads : Reads d (.select t p a b)
  reads₀ : Reads d₀ p
  reads₁ : Reads d₁ a
  reads₂ : Reads d₂ b
  pred : ∃ below, Stands linked l r p k₀ below

theorem Stands.branches (h : Stands linked l r (.select t p a b) n ns) :
    ∃ k₀ k₁ k₂ d d₀ d₁ d₂, Branches linked l r t p a b n k₀ k₁ k₂ d d₀ d₁ d₂ := by
  obtain ⟨_, k₀, below₀, k₁, below₁, k₂, below₂, attrs, _, shape, pred, yes, no⟩ := h.spells
  obtain ⟨typedP, typedA, typedB, _⟩ := Term.typed_select.mp h.typed
  have standsP : Stands linked l r p k₀ below₀ := ⟨pred, typedP, h.layout, h.calm⟩
  have standsA : Stands linked l r a k₁ below₁ := ⟨yes, typedA, h.layout, h.calm⟩
  have standsB : Stands linked l r b k₂ below₂ := ⟨no, typedB, h.layout, h.calm⟩
  obtain ⟨d, found, reads⟩ := h.reads
  obtain ⟨d₀, found₀, reads₀⟩ := standsP.reads
  obtain ⟨d₁, found₁, reads₁⟩ := standsA.reads
  obtain ⟨d₂, found₂, reads₂⟩ := standsB.reads
  obtain ⟨parent, record, found', _⟩ := Region.node?_of_shape shape
  exact ⟨k₀, k₁, k₂, d, d₀, d₁, d₂, Region.node_of found, Region.kid_of found' rfl,
    Region.kid_of found' rfl, Region.kid_of found' rfl, Region.node_of found₀,
    Region.node_of found₁, Region.node_of found₂, reads, reads₀, reads₁, reads₂, below₀, standsP⟩

theorem refinePredicate_meets (h : Stands linked l r (.select t p a b) n ns)
    (whole : Refining linked l pass p)
    (operands : ∀ op t a b, p = .binary op t a b →
      Refining linked l pass a ∧ Refining linked l pass b) :
    Meets (refinePredicate s pass n) r (fun _ => linked = .live) fun _ r' =>
      Turns linked l r ns (fun e => ∃ p', e = .select t p' a b ∧ p.Decides l p') n r' := by
  obtain ⟨k₀, k₁, k₂, d, d₀, d₁, d₂, view⟩ := h.branches
  have typed := Term.typed_select.mp h.typed
  have slot := refineSlot_meets (.pred t a b) (R := fun _ => p.Decides l) h
    (fun k below stands => (refineCondition_decides (s := s) whole operands stands).to
      fun _ _ turned => turned.imp fun _ _ decides => decides.1)
    fun _ p' _ decides => Term.typed_select.mpr ⟨decides.typed, typed.2⟩
  have kid? := Region.kid?_of_kid view.kid₀
  simp only [refinePredicate, meets_bind, Edit.kid, Edit.node, meets_ask, view.kid₀, yields_ok,
    view.node₀]
  split
  · exact h.turns ⟨p, rfl, (Term.Refines.refl typed.1).decides⟩
  · simpa only [refineSlot, Place.slot, Place.fill, meets_bind, meets_ask, kid?, yields_ok]
      using slot

theorem foldPredicate_meets (h : Stands linked l r (.select t p a b) n ns) :
    Meets (foldPredicate s n) r (fun _ => linked = .live) fun _ r' =>
      Turns linked l r ns (fun e => ∃ p', e = .select t p' a b ∧ p.Refines l p') n r' := by
  have distinct := h.spells.nodup
  have typed := Term.typed_select.mp h.typed
  obtain ⟨k, before, below, after, attrs, slots, rfl, around, above, stands, apart, _⟩ :=
    Stands.unfill (.pred t a b) h
  obtain ⟨parent, record, found, _⟩ := Region.node?_of_shape above
  have kid : r.kid n 0 = .ok k := Region.kid_of found (around.slot_eq k)
  have refill (p' : Term) (_ : p'.typed l = true) (refines : p.Refines l p') :
      ((Place.pred t a b).fill p').typed l = true :=
    Term.typed_select.mpr ⟨refines.typed, typed.2⟩
  simp only [foldPredicate, meets_bind, Edit.kid, meets_ask, kid, yields_ok]
  refine (foldIfAsked_folds r k below stands).to fun out r' folded => ?_
  obtain ⟨k', changed⟩ := out
  have inner : Turns linked l r below (p.Refines l) k' r' :=
    folded.1.imp fun _ _ => Folded.refines stands.typed
  cases changed with
  | false =>
    obtain rfl : k' = k := folded.2 rfl
    exact Turns.refill around above distinct inner (.inl ⟨rfl, rfl⟩) refill
  | true =>
    obtain ⟨above', live, _⟩ := inner.above above apart
    have inside : (Place.pred t a b).slot < (slots k).length :=
      (List.getElem?_eq_some_iff.mp (around.slot_eq k)).1
    simp only [if_true, meets_bind, meets_pure]
    refine (setKid_meets above' inside live).to fun _ r'' edited => ?_
    rw [around.set_slot] at edited
    exact Turns.refill around above distinct inner (.inr edited) refill

/-- `(x != 0) ? 0 : 1` and `(x == 0) ? 1 : 0` become the negation of `x`. -/
theorem selectToNot_sound : Sound linked l (fun e' => (∃ x, e' = .unary .lnot (.scalar .bool) x) ∧
    (Term.select t p a b).Refines l (.unary .cvt t e')) selectToNot (.select t p a b) := by
  intro r n ns h
  obtain ⟨k₀, k₁, k₂, d, d₀, d₁, d₂, view⟩ := h.branches
  simp only [selectToNot, meets_bind, Edit.kid, Edit.node, meets_ask, view.kid₀, view.kid₁,
    yields_ok, view.node₁, view.reads₁.intLit]
  cases litA : a.lit? with
  | none => exact h.turns rfl
  | some u =>
    simp only [meets_bind, meets_ask, view.kid₂, yields_ok, view.node₂, view.reads₂.intLit]
    cases litB : b.lit? with
    | none => exact h.turns rfl
    | some w =>
      obtain ⟨qA, rfl⟩ := Term.lit?_eq_some.mp litA
      obtain ⟨qB, rfl⟩ := Term.lit?_eq_some.mp litB
      simp only [meets_bind, meets_ask, view.node₀, yields_ok, view.reads₀.code]
      by_cases which : p.code = .ne ∧ u = 0#64 ∧ w = 1#64 ∨ p.code = .eq ∧ u = 1#64 ∧ w = 0#64
      · rw [if_neg (by rcases which with ⟨code, rfl, rfl⟩ | ⟨code, rfl, rfl⟩ <;> simp [code])]
        have binary : p.code.isBinary = true := by
          rcases which with ⟨code, _⟩ | ⟨code, _⟩ <;> rw [code] <;> rfl
        obtain ⟨below, standsP⟩ := view.pred
        obtain ⟨op, q, x, y, rfl⟩ := exists_binary standsP.typed binary
        obtain ⟨m₀, m₁, e₀, e₁, e₂, _, _, _, operands⟩ := standsP.operands
        simp only [meets_bind, meets_ask, operands.kid₁, yields_ok, operands.node₁]
        by_cases zero : e₂.isIntLit 0#64 = true
        · obtain ⟨q', rfl⟩ := operands.reads₁.isIntLit.mp zero
          have refines := Term.refines_select_lnot h.typed which
          simp only [zero, Bool.not_true, Bool.false_eq_true, if_false, meets_bind, meets_ask,
            operands.kid₀, yields_ok, meets_pure]
          refine Meets.to (meets_bind.mp (spliceBelow_meets (.pred t (.lit qA u) (.lit qB w))
            (.left op q (.lit q' 0#64)) h view.kid₀ operands.kid₀)) fun _ r₁ taken => ?_
          refine taken.to fun _ r₂ dropped => ?_
          refine (fired_meets linked .selectToNot n).to fun _ r₃ noted => ?_
          obtain ⟨_, ns₂, h₂, within, kept, rfl⟩ := dropped
          refine (logicalNot_meets (h₂.edited_same noted)).to fun n' r' made => ?_
          exact (made.becomes ⟨⟨_, rfl⟩, refines⟩).trans within (kept.trans noted.kept_same .refl)
        · simp only [zero, Bool.not_false, if_true]
          exact h.turns rfl
      · rw [if_pos (by split <;> simp_all [imp_iff_not_or])]
        exact h.turns rfl

theorem truth?_of_reads {d : Node} (h : Reads d e) (typed : e.typed l = true) :
    d.truth? = e.lit?.map (· != 0#64) := by
  have notStr : d.isStrConst = false := by
    rw [Node.isStrConst, h.ty, (Ty.kind_of_isSmall (Term.isSmall_of_typed typed)).2.2.2.2.2,
      Bool.and_false]
  rw [Node.truth?, h.intLit, h.floatLit]
  cases e.lit? with
  | none => simp [notStr]
  | some v => rfl

theorem refineSelect_refining (pred : Refining linked l pass p)
    (operands : ∀ op t a b, p = .binary op t a b →
      Refining linked l pass a ∧ Refining linked l pass b)
    (yes : Refining linked l pass a) (no : Refining linked l pass b) :
    Refining linked l (refineSelect s pass) (.select t p a b) := by
  intro r n ns h
  have word := (Term.typed_select.mp h.typed).2.2.2.1
  simp only [refineSelect, meets_bind]
  refine (refinePredicate_meets h pred operands).to fun _ r₁ turned => ?_
  obtain ⟨_, ns₁, h₁, within₁, kept₁, p₁, rfl, decides⟩ := turned
  refine (refineSlot_refining (.yes t p₁ b) h₁ yes).to fun _ r₂ turned => ?_
  obtain ⟨_, ns₂, h₂, within₂, kept₂, a', rfl, refinesA⟩ := turned
  refine (refineSlot_refining (.no t p₁ a') h₂ no).to fun _ r₃ turned => ?_
  obtain ⟨_, ns₃, h₃, within₃, kept₃, b', rfl, refinesB⟩ := turned
  refine (foldPredicate_meets h₃).to fun _ r₄ turned => ?_
  obtain ⟨_, ns₄, h₄, within₄, kept₄, p', rfl, refinesP⟩ := turned
  have first : (Term.select t p a b).Refines l (.select t p' a' b') :=
    .select h.typed (decides.trans refinesP.decides) refinesA refinesB
  have back {P : Term → Prop} {n' : NodeId} {r' : Region} (last : Turns linked l r₄ ns₄ P n' r') :
      Turns linked l r ns P n' r' :=
    (((last.trans within₄ kept₄).trans within₃ kept₃).trans within₂ kept₂).trans within₁ kept₁
  obtain ⟨k₀, k₁, k₂, d, d₀, d₁, d₂, view⟩ := h₄.branches
  have ty : d.ty = t := view.reads.ty
  have typed := Term.typed_select.mp h₄.typed
  simp only [Edit.kid, Edit.node, meets_ask, view.kid₀, yields_ok, view.node₀,
    truth?_of_reads view.reads₀ typed.1]
  cases lit : p'.lit? with
  | some c =>
    obtain ⟨q, rfl⟩ := Term.lit?_eq_some.mp lit
    simp only [Option.map_some, meets_bind, meets_pure]
    by_cases zero : c = 0#64
    · subst zero
      have refines := first.trans (Term.refines_select_no h₄.typed)
      refine (spliceNoted_meets .selectConstPred (.no t (.lit q 0#64) a') h₄ refines).to ?_
      exact fun _ r₅ noted => noted.to fun n' r' turned => back turned
    · have refines := first.trans (Term.refines_select_yes h₄.typed zero)
      simp only [bne_iff_ne, ne_eq, zero, not_false_eq_true, if_true]
      refine (spliceNoted_meets .selectConstPred (.yes t (.lit q c) b') h₄ refines).to ?_
      exact fun _ r₅ noted => noted.to fun n' r' turned => back turned
  | none =>
    by_cases asked : s.selectToNot = true
    · simp only [Option.map_none, asked, Bool.not_true, Bool.false_eq_true, if_false, meets_bind,
        meets_ask, view.node, yields_ok, ty]
      refine (selectToNot_sound r₄ n ns₄ h₄).to fun out r₅ stepped => ?_
      cases out with
      | none => exact back (Turns.becomes stepped first)
      | some n₅ =>
        obtain ⟨_, ns₅, h₅, within₅, kept₅, ⟨x, rfl⟩, refines⟩ := stepped
        simp only [meets_bind, meets_pure]
        refine (settleNot_refining r₅ n₅ ns₅ h₅).to fun out r₆ settled => ?_
        obtain ⟨e₆, ns₆, h₆, within₆, kept₆, refines₆⟩ := settled
        refine (retype_meets h₆ word).to fun n' r' turned => ?_
        have converted := (first.trans refines).trans (.unary refines.typed refines₆)
        exact back (((turned.imp fun _ _ last => converted.trans last.1).trans within₆ kept₆).trans
          within₅ kept₅)
    · simp only [Option.map_none, asked, Bool.not_false, if_true, meets_pure]
      exact back (h₄.turns first)

end Peephole
