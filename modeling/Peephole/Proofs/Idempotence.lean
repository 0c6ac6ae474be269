import Peephole.Proofs.Normalization

/-!
# Idempotence

Refining an expression of integer operators a second time changes nothing. What the first pass ends
in is settled, and settled trees rest; neither depends on the links from nodes to their parents.
-/

namespace Peephole

open Edit Peephole.Tree

variable {s : Setting} {l : Layout} {r r₀ r' : Region} {n m x : NodeId} {ns ns₀ : List NodeId}
  {ps : List Piece} {up : Option NodeId} {code : Op} {ty : Ty} {attrs : Attrs} {a b p t u : Tree}
  {pass : Pass} {fuel : Nat} {F : Fault → Prop}

/-! ### Conditions -/

/-- What the predicate of a selection is before it is folded: settled but for a comparison that
constants decide. -/
inductive Pending (s : Setting) (l : Layout) : Tree → Prop
  | const {ty : Ty} {attrs : Attrs} : Pending s l (leaf .const ty attrs)
  | settled {u : Tree} (h : Settled s l true u) (judge : u.code.isJudge = true) : Pending s l u
  | waiting {code : Op} {ty : Ty} {attrs : Attrs} {a b : Tree} (relation : code.isRelation = true)
      (left : Settled s l false a) (right : Settled s l false b)
      (still : Still s l false code ty a b) : Pending s l (two code ty attrs a b)

theorem Pending.ofSettled (h : Settled s l false u) : Pending s l (u.judged l) := by
  unfold Tree.judged
  split
  · exact .settled h.predicate (by assumption)
  · exact .waiting rfl h settled_zeroOf (still_judgement nofun)

theorem Pending.ofFinished (h : Finished s l false true u) : Pending s l (u.judged l) := by
  cases h with
  | @still code ty attrs a b _ kind left right rests =>
    have judge : (two code ty attrs a b).code.isJudge = true := isJudge_of_isRelation (kind rfl)
    rw [Tree.judged, if_pos judge]
    have still := (restless_eq_false.mp rests).2
    rw [Bool.and_false] at still
    exact .waiting (kind rfl) left right still
  | settled h => exact .ofSettled h

/-- A condition is made a truth value. -/
theorem Regrown.judged {changed : Bool} (regrown : Regrown r₀ ns₀ ps n up u m r) :
    Meets (do
      if (← node m).code.isJudge then return (m, changed)
      return (← judgement m, true)) r F fun out r' =>
        Placed r₀ ns₀ ps n up (u.judged r₀.layout) out.1 r' := by
  obtain ⟨_, _, h⟩ := regrown.placed
  obtain ⟨e, found, tops, _⟩ := h.node List.mem_cons_self
  rw [meets_bind, (Gives.node (Region.node_of found)).meets, tops.code, Tree.judged]
  cases judge : u.code.isJudge with
  | true => exact regrown.placed
  | false =>
    rcases regrown with ⟨rfl, h⟩ | h
    · refine Meets.bind h.judgement ?_
      rintro k r₁ ⟨other, h⟩
      exact ⟨none, fun same => absurd same other, h⟩
    · refine Meets.bind h.judgement ?_
      rintro k r₁ ⟨_, h⟩
      exact Regrown.placed (.moved h)

theorem refineCondition_settles {bound : Nat} (below : Normalizes s l pass bound)
    (small : p.size ≤ bound) (h : Forest r₀ ns₀ (.tree p n up :: ps) r)
    (standing : Standing l r n) :
    Meets (refineCondition s pass n) r (fun _ => True) fun out r' => ∃ u, Pending s l u ∧
      Placed r₀ ns₀ ps n up u out.1 r' := by
  have stood := h.stood standing
  obtain ⟨d, found, tops, _⟩ := stood.node
  obtain rfl := h.layout_eq standing
  rw [refineCondition, meets_bind, (Gives.node (Region.node_of found)).meets, tops.code]
  by_cases relation : p.code.isRelation = true
  · rw [if_pos relation]
    obtain ⟨code, ty, attrs, a, b, rfl⟩ :=
      stood.spelled.exists_two (Tree.isBinary_of_isRelation relation)
    rw [size_two] at small
    refine Meets.bind (refineBinary_finishes below (Tree.isBinary_of_isRelation relation)
      (fun _ => relation) (by omega) (by omega) h standing) ?_
    rintro ⟨m, changed⟩ r₁ ⟨u, finished, regrown, _⟩
    rw [relation] at finished
    exact regrown.judged.to fun out r₂ placed => ⟨_, .ofFinished finished, placed⟩
  · rw [if_neg relation]
    refine Meets.bind (below.settles _ _ _ _ _ _ _ small h standing) ?_
    rintro ⟨m, changed⟩ r₁ ⟨u, settled, regrown, _⟩
    exact regrown.judged.to fun out r₂ placed => ⟨_, .ofSettled settled, placed⟩

/-- Folding decides the comparisons that are still open. -/
theorem foldIfAsked_pending (pending : Pending s l p) (h : Forest r₀ ns₀ (.tree p n up :: ps) r)
    (standing : Standing l r n) :
    Meets (foldIfAsked s n) r (fun _ => True) fun out r' =>
      out = (n, false) ∧ r' = r ∧ (p.isConst = true ∨ Settled s l true p ∧ p.code.isJudge = true) ∨
        out.2 = true ∧ ∃ u, u.isConst = true ∧ Regrown r₀ ns₀ ps n up u out.1 r' := by
  have stood := h.stood standing
  cases pending with
  | @const ty attrs =>
    have settled : Settled s l false (leaf .const ty attrs) := .leaf (.inl rfl)
    rw [(foldIfAsked_rests settled stood).meets]
    exact .inl ⟨rfl, rfl, .inl rfl⟩
  | settled settled judge =>
    rw [(foldIfAsked_rests settled stood).meets]
    exact .inl ⟨rfl, rfl, .inr ⟨settled, judge⟩⟩
  | @waiting code ty attrs a b relation left right still =>
    have binary := Tree.isBinary_of_isRelation relation
    have int : ty.isFloat = false := (Ty.kind_of_isSmall stood.small).1
    have guarded : Guarded l (foldNode s) (two code ty attrs a b) _ := foldNode_guarded binary
    refine (foldIfAsked_told (fun on Q => foldTree_two binary left right on stood) guarded h
      standing).to ?_
    rintro out r' (⟨rfl, rfl, value⟩ | ⟨fired, u, remains, regrown⟩)
    · have judge : code.isJudge = true := isJudge_of_isRelation relation
      refine .inl ⟨rfl, rfl, .inr ⟨.binary binary left right value ?_, judge⟩⟩
      simpa [relation] using still
    · exact .inr ⟨fired, u, remains.isConst int (isJudge_of_isRelation relation), regrown⟩

/-! ### Selections -/

theorem Stood.size_eq {e : Term} {ns : List NodeId} (h : Stood l t n r)
    (stands : Stands .live l r e n ns) : e.size = t.size := by
  obtain ⟨_, _, _, _, forest⟩ := h.drawn
  exact (forest.spelled stands.typed stands.spells).2.symm

/-- The term of a selection. -/
theorem Forest.selectTerm (h : Forest r₀ ns₀ (.tree (three .select ty attrs p a b) n up :: ps) r)
    (standing : Standing l r n) :
    ∃ e e₁ e₂ ns, Stands .live l r (.select ty e e₁ e₂) n ns ∧ e.size = p.size ∧
      e₁.size = a.size ∧ e₂.size = b.size := by
  obtain ⟨x, y, z, _, _, _, _, q⟩ := (h.stood standing).triple
  obtain ⟨e, ns, stands⟩ := standing
  obtain ⟨d, found, tops, reads, code', ty'⟩ := h.reads List.mem_cons_self stands
  obtain ⟨t, e₀, e₁, e₂, rfl⟩ := exists_select stands.typed code'.symm
  obtain rfl : ty = t := ty'
  obtain ⟨_, pred, _⟩ := stands.focus (.pred ty e₁ e₂) q.predKid
  obtain ⟨_, yes, _⟩ := stands.focus (.yes ty e₀ e₂) q.yesKid
  obtain ⟨_, no, _⟩ := stands.focus (.no ty e₀ e₁) q.noKid
  exact ⟨e₀, e₁, e₂, ns, stands, q.predStood.size_eq pred, q.yesStood.size_eq yes,
    q.noStood.size_eq no⟩

/-- A pass keeps what comparisons of a bounded size compare. -/
theorem Normalizes.operands {bound : Nat} {e : Term} (below : Normalizes s l pass bound)
    (small : e.size ≤ bound) : ∀ op t a b, e = .binary op t a b →
      Refining .live l pass a ∧ Refining .live l pass b := by
  rintro op t a b rfl
  rw [Term.size] at small
  exact ⟨below.refines a (by omega), below.refines b (by omega)⟩

theorem refinePredicate_settles {bound : Nat} (below : Normalizes s l pass bound)
    (small : p.size ≤ bound)
    (h : Forest r₀ ns₀ (.tree (three .select ty attrs p a b) n up :: ps) r)
    (standing : Standing l r n) :
    Meets (refinePredicate s pass n) r (fun _ => True) fun _ r' => ∃ u, Pending s l u ∧
      Forest r₀ ns₀ (.tree (three .select ty attrs u a b) n up :: ps) r' ∧ Standing l r' n := by
  obtain ⟨e, _, _, ns, stands, size, _⟩ := h.selectTerm standing
  obtain ⟨x, y, z, split⟩ := h.splitThree
  obtain ⟨x', _, _, _, d₀, _, _, q⟩ := (h.stood standing).triple
  obtain ⟨_, _, _, found⟩ := Region.node?_of_core (split.stub_found List.mem_cons_self)
  obtain rfl : x' = x := Except.ok.inj (q.predKid.symm.trans (Region.kid_of found (i := 0) rfl))
  have terms := refinePredicate_meets (s := s) stands (below.refines e (size ▸ small))
    (below.operands (size ▸ small))
  have trees : Meets (refinePredicate s pass n) r (fun _ => True) fun _ r' => ∃ u, Pending s l u ∧
      Forest r₀ ns₀ (.tree (three .select ty attrs u a b) n up :: ps) r' := by
    rw [refinePredicate, meets_bind, (Gives.kid q.predKid).meets, meets_bind,
      (Gives.node q.predNode).meets, q.predTops.isConst]
    by_cases const : p.isConst = true
    · obtain ⟨q, attrs', rfl⟩ := q.predStood.spelled.const_leaf (beq_iff_eq.mp const)
      exact ⟨_, .const, h⟩
    · rw [if_neg const]
      refine Meets.bind (refineCondition_settles below small split.swap q.predStood.stands) ?_
      rintro ⟨k, changed⟩ r₁ ⟨u, pending, placed⟩
      refine (Forest.refill (i := 0) rfl placed).to ?_
      rintro _ r₂ ⟨_, h⟩
      exact ⟨u, pending, h.joinThree⟩
  refine (trees.and terms.anyway).to ?_
  rintro _ r' ⟨⟨u, pending, h⟩, turned⟩
  exact ⟨u, pending, h, turned.standing⟩

theorem foldPredicate_settles (pending : Pending s l p)
    (h : Forest r₀ ns₀ (.tree (three .select ty attrs p a b) n up :: ps) r)
    (standing : Standing l r n) :
    Meets (foldPredicate s n) r (fun _ => True) fun _ r' => ∃ u,
      (u.isConst = true ∨ Settled s l true u ∧ u.code.isJudge = true) ∧
        Forest r₀ ns₀ (.tree (three .select ty attrs u a b) n up :: ps) r' ∧ Standing l r' n := by
  obtain ⟨_, _, _, ns, stands, _⟩ := h.selectTerm standing
  obtain ⟨x, y, z, split⟩ := h.splitThree
  obtain ⟨x', _, _, _, d₀, _, _, q⟩ := (h.stood standing).triple
  obtain ⟨_, _, _, found⟩ := Region.node?_of_core (split.stub_found List.mem_cons_self)
  obtain rfl : x' = x := Except.ok.inj (q.predKid.symm.trans (Region.kid_of found (i := 0) rfl))
  have trees : Meets (foldPredicate s n) r (fun _ => True) fun _ r' => ∃ u,
      (u.isConst = true ∨ Settled s l true u ∧ u.code.isJudge = true) ∧
        Forest r₀ ns₀ (.tree (three .select ty attrs u a b) n up :: ps) r' := by
    rw [foldPredicate, meets_bind, (Gives.kid q.predKid).meets]
    refine Meets.bind (foldIfAsked_pending pending split.swap q.predStood.stands) ?_
    rintro ⟨k, changed⟩ r₁ (⟨same, rfl, settled⟩ | ⟨rfl, u, const, regrown⟩)
    · obtain ⟨rfl, rfl⟩ := Prod.mk.inj same
      exact ⟨p, settled, h⟩
    · obtain ⟨_, _, h⟩ := regrown.placed
      refine Meets.bind (Forest.setKid (i := 0) (by simp) h.swap) fun _ r₂ h => ?_
      exact ⟨u, .inl const, h.joinThree⟩
  refine (trees.and (foldPredicate_meets stands).anyway).to ?_
  rintro _ r' ⟨⟨u, known, h⟩, turned⟩
  exact ⟨u, known, h, turned.standing⟩

/-- A selection whose parts are settled, and whose predicate is folded. -/
theorem settleSelect_settles {changed : Bool}
    (choice : p.isConst = true ∨ Settled s l true p ∧ p.code.isJudge = true)
    (yes : Settled s l false a) (no : Settled s l false b)
    (h : Forest r₀ ns₀ (.tree (three .select ty attrs p a b) n up :: ps) r)
    (standing : Standing l r n) :
    Meets (do
      match (← node (← kid n 0)).truth? with
      | some taken => do
        fired .selectConstPred n
        return (← spliceKid n (if taken then 1 else 2), true)
      | none => do
        if !s.selectToNot then return (n, changed)
        let ty := (← node n).ty
        match ← selectToNot n with
        | some negation => do
          let (new, _) ← settleNot s pass negation
          return (← retype s new ty, true)
        | none => return (n, changed)) r (fun _ => True) fun out r' =>
          ∃ u, Settled s l false u ∧ Regrown r₀ ns₀ ps n up u out.1 r' := by
  have stood := h.stood standing
  obtain rfl := h.layout_eq standing
  obtain ⟨x, y, z, d, d₀, d₁, d₂, q⟩ := stood.triple
  obtain ⟨_, _, _, ns, stands, _⟩ := h.selectTerm standing
  have type : d.ty = ty := q.tops.ty
  rw [meets_bind, (Gives.kid q.predKid).meets, meets_bind, (Gives.node q.predNode).meets]
  rcases choice with const | ⟨settled, judge⟩
  · have literal : p.lit?.isSome = true := q.predStood.isConst.symm.trans const
    obtain ⟨v, value⟩ := Option.isSome_iff_exists.mp literal
    have truth : d₀.truth? = some (v != 0#64) := by
      rw [Node.truth?, q.predTops.intLit?, show p.top.intLit? = some v from value]
    rw [truth, meets_bind]
    refine (h.fired _).to fun _ r₁ h => ?_
    cases v != 0#64 with
    | true => exact Meets.bind (h.spliceKid (i := 1) rfl).anyway fun _ _ h => ⟨a, yes, .moved h⟩
    | false => exact Meets.bind (h.spliceKid (i := 2) rfl).anyway fun _ _ h => ⟨b, no, .moved h⟩
  · rw [truth?_of_judge q.predTops judge]
    have stays (value : s.selectToNot = true → negates p a b = false) :
        ∃ u, Settled s r₀.layout false u ∧ Regrown r₀ ns₀ ps n up u n r :=
      ⟨_, .select settled judge yes no value, .here h⟩
    have guarded : Guarded r₀.layout selectToNot (three .select ty attrs p a b) _ :=
      selectToNot_guarded
    by_cases on : s.selectToNot = true
    · simp only [on, Bool.not_true, Bool.false_eq_true, if_false, meets_bind, type,
        (Gives.node q.node).meets]
      cases fits : negates p a b with
      | false =>
        rw [fits] at guarded
        rw [(guarded.rests stood).meets]
        exact stays fun _ => fits
      | true =>
        rw [fits] at guarded
        have made := (h.selectToNot stood.spelled.formed le_rfl le_rfl).surely
        refine ((guarded.fires stood).and (made.and
          (selectToNot_sound r n ns stands).anyway)).to ?_
        rintro out r₁ ⟨some, done, turned⟩
        obtain ⟨m, rfl⟩ := Option.isSome_iff_exists.mp some
        obtain ⟨c, t, attrs', x, y, _, rfl, h₁⟩ := done
        cases settled with
        | binary _ left =>
          refine Meets.bind (settleNot_settles (.inl rfl) left h₁ (Turns.standing turned)) ?_
          rintro ⟨k, _⟩ r₂ ⟨u, ⟨settled, plain⟩, regrown, _⟩
          refine Meets.bind regrown.loose.retype.anyway ?_
          rintro k' r₃ ⟨_, loose, h⟩
          rw [loose rfl] at h
          exact ⟨_, settled.retyped (plain rfl), .moved h⟩
    · simp only [on, Bool.not_false, if_true]
      exact stays fun yes => absurd yes on

theorem refineSelect_settles {bound : Nat} (below : Normalizes s l pass bound)
    (smallP : p.size ≤ bound) (smallA : a.size ≤ bound) (smallB : b.size ≤ bound)
    (h : Forest r₀ ns₀ (.tree (three .select ty attrs p a b) n up :: ps) r)
    (standing : Standing l r n) :
    Meets (refineSelect s pass n) r (fun _ => True) fun out r' =>
      Ends l r₀ ns₀ ps n up (Settled s l false) out.1 r' := by
  obtain ⟨e, e₁, e₂, ns, stands, size, size₁, size₂⟩ := h.selectTerm standing
  have refining : Refining .live l (refineSelect s pass) (.select ty e e₁ e₂) :=
    refineSelect_refining (below.refines e (size ▸ smallP)) (below.operands (size ▸ smallP))
      (below.refines e₁ (size₁ ▸ smallA)) (below.refines e₂ (size₂ ▸ smallB))
  refine refining.ends stands ?_
  have direct : Op.select ≠ .ild := nofun
  refine Meets.bind (refinePredicate_settles below smallP h standing) ?_
  rintro _ r₁ ⟨p₁, pending, h, standing⟩
  refine Meets.bind (refineSlot_settles below (i := 1) rfl smallA direct h standing) ?_
  rintro _ r₂ ⟨a₁, yes, h, standing⟩
  refine Meets.bind (refineSlot_settles below (i := 2) rfl smallB direct h standing) ?_
  rintro _ r₃ ⟨b₁, no, h, standing⟩
  refine Meets.bind (foldPredicate_settles pending h standing) ?_
  rintro _ r₄ ⟨p₂, choice, h, standing⟩
  exact settleSelect_settles choice yes no h standing

/-! ### Expressions -/

/-- The induction is on the fuel: the operands of a comparison are entered from the selection that
it is the predicate of. -/
theorem refineExprWithin_normalizes : Normalizes s l (refineExprWithin s fuel) fuel := by
  refine ⟨fun e deep => refineExprWithin_refining deep, ?_⟩
  induction fuel with
  | zero =>
    intro r₀ ns₀ ps t n up r deep
    obtain ⟨_, impossible⟩ := exists_succ_of_size_le deep
    cases impossible
  | succ fuel ih =>
    intro r₀ ns₀ ps t n up r deep h standing
    have below : Normalizes s l (refineExprWithin s fuel) fuel :=
      ⟨fun e deep => refineExprWithin_refining deep, ih⟩
    have stood := h.stood standing
    obtain ⟨d, found, tops, _⟩ := stood.node
    have found := Region.node_of found
    cases stood.spelled with
    | @leaf code ty attrs known =>
      have settled : Settled s l false (leaf code ty attrs) := .leaf known
      rw [refineExprWithin, meets_bind, (Gives.node found).meets, show d.code = code from tops.code]
      rcases known with rfl | rfl | rfl <;> exact ⟨_, settled, .here h, standing⟩
    | @indirect ty q attrs attrs' =>
      obtain ⟨e, ns, stands⟩ := standing
      obtain ⟨t, v, base, ofst, rfl⟩ := h.indirectTerm stands
      rw [size_one] at deep
      have small : (leaf .lda q attrs').size ≤ fuel := by omega
      obtain ⟨fuel, rfl⟩ := exists_succ_of_size_le small
      rw [refineExprWithin, meets_bind, (Gives.node found).meets, show d.code = .ild from tops.code]
      refine refineIndirectLoad_settles (fun r k d found code => ?_) h stands
      exact gives_iff.mpr (refineExprWithin_address found (.inl code))
    | through =>
      rw [(refineExprWithin_rests .through stood deep).meets]
      exact ⟨_, .through, .here h, standing⟩
    | @unary code ty attrs a known =>
      rw [size_one] at deep
      have small : a.size ≤ fuel := by omega
      rw [refineExprWithin, meets_bind, (Gives.node found).meets, show d.code = code from tops.code]
      rcases known with rfl | rfl | rfl | rfl
      · exact refineNeg_settles below small h standing
      · exact refineNot_settles below (.inr rfl) small h standing
      · exact refineNot_settles below (.inl rfl) small h standing
      · exact refineCvt_settles below small h standing
    | @binary code ty attrs a b known =>
      rw [size_two] at deep
      have smallA : a.size ≤ fuel := by omega
      have smallB : b.size ≤ fuel := by omega
      have whole : true = false → code.isRelation = true := fun off => Bool.noConfusion off
      rw [refineExprWithin_binary found (tops.code ▸ known)]
      refine (refineBinary_finishes below known whole smallA smallB h standing).to ?_
      exact fun out r' ends => ends.mono fun u finished => finished.settles.1
    | @select ty attrs p a b =>
      rw [size_three] at deep
      rw [refineExprWithin, meets_bind, (Gives.node found).meets,
        show d.code = .select from tops.code]
      exact refineSelect_settles below (by omega) (by omega) (by omega) h standing

/-- Refinement settles a well-typed tree whose links are right. -/
theorem refineExpr_settles (h : Forest r₀ ns₀ (.tree t n up :: ps) r) (standing : Standing l r n) :
    Meets (refineExpr s n) r (fun _ => True) fun out r' =>
      Ends l r₀ ns₀ ps n up (Settled s l false) out.1 r' := by
  rw [refineExpr, meets_bind, meets_get]
  refine refineExprWithin_normalizes.settles _ _ _ _ _ _ _ ?_ h standing
  calc t.size ≤ r.nodes.size := h.size_le
    _ ≤ r.nodes.size + 9 := Nat.le_add_right _ _
    _ ≤ r.stepBound := Nat.lt_two_pow_self.le

/-- After refinement of a well-typed tree whose links are right, refinement rests. -/
theorem refineExpr_twice {out : NodeId × Bool} (h : Forest r₀ ns₀ (.tree t n up :: ps) r)
    (standing : Standing l r n) (run : (refineExpr s n).run r = .ok (out, r')) :
    Gives (refineExpr s out.1) r' (out.1, false) := by
  obtain ⟨u, settled, regrown, standing⟩ := (meets_iff.mp (refineExpr_settles h standing)).1 _ _ run
  obtain ⟨_, _, h⟩ := regrown.placed
  exact refineExpr_rests settled (h.stood standing)

/-! ### Links to parents -/

theorem Region.shape_relinked {hidden : Bool} :
    (r.relinked ns).shape hidden = r.shape hidden := by
  funext x
  rw [shape, shape, node?_relinked]
  cases r.node? x <;> rfl

/-- Refinement that returns what it was given, on a region that looks the same in the end, has
changed nothing. -/
theorem Untouched.eq (h : Untouched r r') (same : r'.orphaned = r.orphaned) : r' = r := by
  have types : r'.types = r.types := (congrArg Region.types same :)
  have events : r'.events = r.events := (congrArg Region.events same :)
  have rest := h.rest
  rw [← types, ← events] at rest
  exact rest

/-- Refining a well-typed expression again returns its root and reports no change, and the region
stays as it is: whatever the depth of the expression, the setting, and the rest of the region. -/
theorem refineExpr_idempotent {e : Term} {out : NodeId × Bool} (s : Setting)
    (tree : Spells (r.shape true) e n ns) (typed : e.typed r.layout = true)
    (run : (refineExpr s n).run r = .ok (out, r')) :
    (refineExpr s out.1).run r' = .ok ((out.1, false), r') := by
  -- no pass reads the links to parents, so they may as well be right
  have hidden : (r.relinked ns).orphaned = r.orphaned := Region.orphaned_relinked
  obtain ⟨t, up, _, forest⟩ := Region.forest_relinked tree.tree tree.nodup
  have tree' : Spells ((r.relinked ns).shape true) e n ns := by rwa [Region.shape_relinked]
  have standing : Standing r.layout (r.relinked ns) n := ⟨e, ns, tree', typed, rfl, trivial⟩
  obtain ⟨r₁, run₁, same₁⟩ := refineExpr_blind.returns hidden run
  have rests : Gives (refineExpr s out.1) r₁ (out.1, false) := refineExpr_twice forest standing run₁
  obtain ⟨r₂, run₂, same₂⟩ := refineExpr_blind.returns same₁.symm rests
  have untouched := ((meets_iff.mp (refineExpr_honest r')).1 _ _ run₂ rfl).2
  rw [run₂, untouched.eq (same₂.trans same₁)]

/-- `($1 != 0) ? 0 : 1` in 32 bits. -/
def Region.zeroTest : Region :=
  { Region.empty ⟨8⟩ with
    nodes := #[
      some (.fresh .select (.scalar .i32) .none [[⟨1⟩], [⟨4⟩], [⟨5⟩]]),
      some { Node.fresh .ne (.scalar .bool) .none [[⟨2⟩], [⟨3⟩]] with parent := some ⟨0⟩ },
      some { Node.fresh .pr (.scalar .i32) (.ofRegister 1) [] with parent := some ⟨1⟩ },
      some { Node.fresh .const (.scalar .i32) (.ofLiteral (.int 0)) [] with parent := some ⟨1⟩ },
      some { Node.fresh .const (.scalar .i32) (.ofLiteral (.int 0)) [] with parent := some ⟨0⟩ },
      some { Node.fresh .const (.scalar .i32) (.ofLiteral (.int 1)) [] with parent := some ⟨0⟩ }] }

/-- The selection becomes a negation, which stays. -/
theorem refineExpr_idempotent_zeroTest : ∃ out r',
    (refineExpr ⟨.standard, true⟩ ⟨0⟩).run .zeroTest = .ok (out, r') ∧ out.2 = true ∧
    (refineExpr ⟨.standard, true⟩ out.1).run r' = .ok ((out.1, false), r') := by
  have tree : Spells (Region.zeroTest.shape true)
      (.select (.scalar .i32)
        (.binary .ne (.scalar .bool) (.reg (.scalar .i32) 1) (.lit (.scalar .i32) 0))
        (.lit (.scalar .i32) 0) (.lit (.scalar .i32) 1)) ⟨0⟩ [⟨0⟩, ⟨1⟩, ⟨2⟩, ⟨3⟩, ⟨4⟩, ⟨5⟩] :=
    ⟨by decide, ⟨1⟩, [⟨1⟩, ⟨2⟩, ⟨3⟩], ⟨4⟩, [⟨4⟩], ⟨5⟩, [⟨5⟩], _, rfl, rfl,
      ⟨by decide, ⟨2⟩, [⟨2⟩], ⟨3⟩, [⟨3⟩], _, rfl, rfl, ⟨rfl, _, rfl, rfl⟩, ⟨rfl, _, rfl, rfl⟩⟩,
      ⟨rfl, _, rfl, rfl⟩, ⟨rfl, _, rfl, rfl⟩⟩
  have ends : Meets (refineExpr ⟨.standard, true⟩ ⟨0⟩) .zeroTest (fun _ => False) fun out _ =>
      out.2 = true := by
    decide +kernel
  obtain ⟨out, r', run⟩ := ends.returns
  have changed := (meets_iff.mp ends).1 out r' run
  exact ⟨out, r', run, changed, refineExpr_idempotent _ tree (by decide) run⟩

end Peephole
