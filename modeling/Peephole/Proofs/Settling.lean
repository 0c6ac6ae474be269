import Peephole.Proofs.Identities

/-!
# Settling

The steps on a binary node are repeated until none fires. Each makes the term simpler, so
this ends within the bound on the number of steps, with a term that may stand in place of
the first one.
-/

namespace Peephole

open Edit

variable {linked : Links} {l : Layout} {r r' r₁ : Region} {e e' a b : Term} {n k : NodeId}
  {ns : List NodeId} {F : Fault → Prop} {op : Op} {t q : Ty} {v w : Word} {s : Setting}
  {step : Step} {R : Term → Prop} {pass : Pass}

theorem foldStep_sound : Sound linked l (Simpler l (.binary op t a b)) (foldStep s)
    (.binary op t a b) := by
  intro r n ns h
  unfold foldStep
  split
  · exact h.turns rfl
  · rw [meets_bind]
    refine (foldTree_folds r n ns h).to fun out r' folded => ?_
    obtain ⟨n', changed⟩ := out
    obtain ⟨turned, same⟩ := folded
    cases changed with
    | false =>
      obtain rfl : n' = n := same rfl
      exact turned
    | true =>
      refine turned.imp fun e' _ smaller => ?_
      have less : Smaller l (.binary op t a b) e' := smaller
      have pos := @Term.work_pos a b t op
      exact .of_work less.refines (by rcases less.work with less | ⟨_, none⟩ <;> omega)

theorem commuteStep_sound : Sound linked l (Simpler l (.binary op t a b)) commuteStep
    (.binary op t a b) := by
  intro r n ns h
  have swapped (op' : Op) (may : op.commuted? = some op') :
      op' = op.swapped ∧ (op.isCommutative = true ∨ op.isRelation = true) := by
    unfold Op.commuted? at may
    split at may
    · rename_i either
      exact ⟨(Option.some.inj may).symm, by simpa using either⟩
    · exact absurd may (by simp)
  have refines (op' : Op) (may : op.commuted? = some op') :
      (Term.binary op t a b).Refines l (.binary op' t b a) := by
    obtain ⟨rfl, either⟩ := swapped op' may
    exact Term.refines_swapped h.typed either
  simp only [commuteStep, meets_bind, meets_pure]
  refine (commute_meets h fun op' may => (refines op' may).typed).to fun moved r' commuted => ?_
  cases moved with
  | false =>
    obtain rfl : r' = r := commuted
    exact h.turns rfl
  | true =>
    obtain ⟨op', may, lit₀, lit₁, turned⟩ := commuted
    refine turned.becomes ⟨refines op' may, ?_⟩
    obtain ⟨rfl, either⟩ := swapped op' may
    refine Term.rank_swapped ?_
    rcases either with yes | yes <;> simp [Term.turns, yes, lit₀, lit₁]

theorem exists_binary (h : a.typed l = true) (binary : a.code.isBinary = true) :
    ∃ op t x y, a = .binary op t x y := by
  have kind := Term.kind_code h
  cases a with
  | binary op t x y => exact ⟨op, t, x, y, rfl⟩
  | unary op t x =>
    have fits := (Term.typed_unary.mp h).2
    cases op <;>
      first | exact absurd binary Bool.false_ne_true | exact absurd fits Bool.false_ne_true
  | _ => exact absurd binary Bool.false_ne_true

theorem isRelation_of_mergeable (h : op.isAssociative = true ∨ op = .sub) :
    op.isRelation = false := by
  cases op <;> first | rfl | simp [Op.isAssociative] at h

/-- The literal that merges two of one word type has that type. -/
theorem mergedLiteral_meets {Q : NodeId → Region → Prop} (h : t.isWord = true)
    (next : Meets (intLiteral (t.wrapInt l v) t) r F Q) :
    Meets (mergedType t t) r F fun ty r₁ =>
      Meets (liftM (ty.normalizeInt l v)) r₁ F fun x r₂ => Meets (intLiteral x ty) r₂ F Q := by
  have small := Ty.isSmall_of_isWord h
  simp only [mergedType, Edit.layout, meets_bind, meets_get, meets_pure,
    Ty.kind_of_isSmall small, Bool.false_eq_true, if_false, meets_lift, yields_ok,
    Ty.normalizeInt_of_isInt l (Ty.isInt_of_isWord h)]
  exact next

theorem mergeConstants_sound : Sound linked l (Simpler l (.binary op t a b)) (mergeConstants s)
    (.binary op t a b) := by
  intro r n ns h
  obtain ⟨k₀, k₁, d, d₀, d₁, below₀, below₁, rfl, view⟩ := h.operands
  have code : d.code = op := view.reads.code
  have ty : d.ty = t := view.reads.ty
  unfold mergeConstants
  simp only [meets_bind, view.node_meets, view.operands_meets, view.node₁_meets,
    view.reads₁.intLit]
  cases lit : b.lit? with
  | none => exact h.turns rfl
  | some c₂ =>
    obtain ⟨q₂, rfl⟩ := Term.lit?_eq_some.mp lit
    have ty₁ : d₁.ty = q₂ := view.reads₁.ty
    simp only [meets_bind, view.node₀_meets]
    by_cases merges : mayMerge d d₀ = true
    · have conditions := merges
      simp only [mayMerge, Bool.and_eq_true, Bool.or_eq_true, beq_iff_eq, code, ty,
        view.reads₀.code, view.reads₀.ty] at conditions
      obtain ⟨⟨⟨assoc, outer⟩, level⟩, sameTy⟩ := conditions
      obtain ⟨inner, t', x, y, rfl⟩ :=
        exists_binary view.left.typed (isBinary_of_isAssociative assoc)
      obtain rfl : t' = t := sameTy
      obtain ⟨word, _, tyB, _⟩ := Term.arithmetic h.typed (isRelation_of_mergeable outer)
      obtain rfl : q₂ = t' := tyB
      obtain ⟨below, standsA, lift⟩ := h.focus (.left op q₂ (.lit q₂ c₂)) view.kid₀
      obtain ⟨k₂, k₃, e₀, e₁, e₂, belowX, belowY, rfl, innerView⟩ := standsA.operands
      simp only [merges, Bool.not_true, Bool.false_eq_true, if_false, meets_bind, Edit.kid,
        meets_ask, innerView.kid₁, yields_ok, innerView.node₁_meets, innerView.reads₁.intLit]
      cases lit' : y.lit? with
      | none => exact h.turns rfl
      | some c₁ =>
        obtain ⟨q₁, rfl⟩ := Term.lit?_eq_some.mp lit'
        obtain rfl : q₁ = q₂ :=
          (Term.arithmetic standsA.typed (isRelation_of_mergeable (.inl assoc))).2.2.1
        have ty₂ : e₂.ty = q₁ := innerView.reads₁.ty
        simp only [meets_bind, Edit.layout, meets_get, meets_pure, h.layout, code, ty, ty₁, ty₂,
          max_self, Bool.or_self, byteSize_le (Ty.isSmall_of_isWord word), decide_true]
        refine (require_meets _).to ?_
        rintro _ _ ⟨rfl, rfl⟩
        rw [if_pos rfl]
        cases result : intBinary op c₁ c₂ q₁.isUnsigned (q₁.byteSize l * 8) with
        | none => exact h.turns rfl
        | some v =>
          have refines := Term.refines_merge ⟨assoc, outer, level⟩ h.typed result
          have typedM := refines.typed
          have literal : (Term.lit q₁ (q₁.wrapInt l v)).typed l = true :=
            (Term.typed_binary.mp typedM).2.1
          simp only [meets_bind, meets_pure]
          refine mergedLiteral_meets word ?_
          refine (intLiteral_meets literal h.layout h.calm).to fun k r₁ made => ?_
          obtain ⟨rfl, stands, kept⟩ := made
          refine (replaceRight_meets innerView standsA.typed typedM stands le_rfl kept).to ?_
          intro _ r₂ taken
          refine taken.to fun _ r₃ dropped => dropped.to fun _ r₄ inside => ?_
          obtain ⟨_, ns₄, h₄, within, keptAll, x', rfl, rfl⟩ :=
            lift _ _ inside fun x' typed same => by
            subst same
            exact Term.typed_binary.mpr
              ⟨typed, view.right.typed, rfl, (Term.typed_binary.mp h.typed).2.2.2⟩
          have simpler := Simpler.of_work refines Term.work_merge
          refine (spliceNoted_meets .reassociate (.left op q₁ (.lit q₁ c₂)) h₄ simpler).to ?_
          exact fun _ r₅ noted => noted.to fun n' r' turned => turned.trans within keptAll
    · simp only [merges, Bool.not_false, if_true]
      exact h.turns rfl

theorem mergeStep_sound : Sound linked l (Simpler l (.binary op t a b)) (mergeStep s)
    (.binary op t a b) := by
  intro r n ns h
  obtain ⟨d, found, _⟩ := h.reads
  simp only [mergeStep, meets_bind, Edit.node, meets_ask, Region.node_of found, yields_ok]
  split
  · exact mergeConstants_sound r n ns h
  · exact h.turns rfl

/-- A register read without a static single assignment value is defined by no phi. -/
theorem phiStep_sound : Sound linked l R phiStep (.binary op t a b) := by
  intro r n ns h
  obtain ⟨k₀, k₁, d, d₀, d₁, below₀, below₁, rfl, view⟩ := h.operands
  have none : Meets (definingPhis? d₀ d₁) r (fun _ => linked = .live)
      fun x r' => x = none ∧ r' = r := by
    unfold definingPhis?
    split
    · exact ⟨rfl, rfl⟩
    · simp [Region.ssaDefOf, view.reads₀.ssa]
  unfold phiStep
  simp only [meets_bind, view.node_meets]
  split
  · simp only [decideByPhis, meets_bind, view.operands_meets, view.node₀_meets, view.node₁_meets]
    refine none.to ?_
    rintro _ _ ⟨rfl, rfl⟩
    exact h.turns rfl
  · exact h.turns rfl

/-! ### Operand types

Operands of one type, which is as wide as that of the operator, need no conversion. -/

theorem fitOperand_meets {d : Node} (found : r.node? k = some d) (small : d.ty.isSmall = true)
    (smallT : t.isSmall = true) (wide : t.byteSize r.layout ≤ d.ty.byteSize r.layout) :
    Meets (fitOperand s t k) r F fun out r' => out = (k, false) ∧ r' = r := by
  simp [fitOperand, Edit.node, Edit.layout, Region.node_of found, Ty.kind_of_isSmall small,
    Ty.kind_of_isSmall smallT, wide]

theorem byteSize_le_operand (h : (Term.binary op t a b).typed l = true) :
    t.byteSize l ≤ a.ty.byteSize l := by
  cases relation : op.isRelation with
  | true =>
    obtain ⟨rfl, _, typedA, _⟩ := Term.comparison h relation
    have := Ty.bits_of_isSmall l (Term.isSmall_of_typed typedA)
    have one : (Ty.scalar .bool).byteSize l = 1 := rfl
    omega
  | false => rw [(Term.arithmetic h relation).2.1]

theorem coerceOperands_meets (h : Stands linked l r (.binary op t a b) n ns) :
    Meets (coerceOperands s n) r F fun out r' => out = false ∧ r' = r := by
  obtain ⟨k₀, k₁, d, d₀, d₁, below₀, below₁, rfl, view⟩ := h.operands
  obtain ⟨typedA, typedB, same, _⟩ := Term.typed_binary.mp h.typed
  have ty : d.ty = t := view.reads.ty
  have wide := byteSize_le_operand h.typed
  have smallT : t.isSmall = true := Term.isSmall_of_typed h.typed
  have fits (i : Nat) (k : NodeId) (d' : Node) (kid : r.kid n i = .ok k) (node : r.node k = .ok d')
      (tyA : d'.ty = a.ty) : Meets (fitSlot s n i t) r F fun out r' => out = false ∧ r' = r := by
    simp only [fitSlot, Edit.kid, meets_bind, meets_ask, kid, yields_ok]
    refine (fitOperand_meets (Region.node?_of_node node) ?_ smallT ?_).to ?_
    · rw [tyA]
      exact Term.isSmall_of_typed typedA
    · rw [tyA, h.layout]
      exact wide
    · rintro _ _ ⟨rfl, rfl⟩
      simp
  have balanced : Meets (balanceOperands s n) r F fun out r' => out = false ∧ r' = r := by
    simp [balanceOperands, view.operands_meets, view.node₀_meets, view.node₁_meets,
      view.reads₀.ty, view.reads₁.ty, same, Edit.layout]
  simp only [coerceOperands, meets_bind, view.node_meets, ty, meets_someOf_cons]
  refine (fits 0 k₀ d₀ view.kid₀ view.node₀ view.reads₀.ty).to ?_
  rintro _ _ ⟨rfl, rfl⟩
  refine (fits 1 k₁ d₁ view.kid₁ view.node₁ (view.reads₁.ty.trans same)).to ?_
  rintro _ _ ⟨rfl, rfl⟩
  simp only [meets_someOf_nil]
  refine balanced.to ?_
  rintro _ _ ⟨rfl, rfl⟩
  exact ⟨rfl, rfl⟩

theorem coerceStep_meets (h : Stands linked l r (.binary op t a b) n ns) :
    Meets (coerceStep s pass n) r F fun out r' => out = none ∧ r' = r := by
  unfold coerceStep
  split
  · exact ⟨rfl, rfl⟩
  · rw [meets_bind]
    refine (coerceOperands_meets h).to ?_
    rintro _ _ ⟨rfl, rfl⟩
    exact ⟨rfl, rfl⟩

theorem coerceStep_sound : Sound linked l R (coerceStep s pass) (.binary op t a b) := by
  intro r n ns h
  refine (coerceStep_meets h).to ?_
  rintro _ _ ⟨rfl, rfl⟩
  exact h.turns rfl

/-! ### Repeated steps -/

theorem firstOf_sound {steps : List Step} (each : ∀ x ∈ steps, Sound linked l R x e) :
    Sound linked l R (firstOf steps) e := by
  induction steps with
  | nil => exact fun r n ns h => h.turns rfl
  | cons step rest ih =>
    intro r n ns h
    have others := ih fun x mem => each x (List.mem_cons_of_mem _ mem)
    rw [firstOf, meets_bind]
    refine (each step List.mem_cons_self r n ns h).to fun out r₁ stepped => ?_
    cases out with
    | none => exact others.next r n ns stepped
    | some n' => exact stepped

theorem settleStep_sound {foldNode : Bool} :
    Sound linked l (Simpler l e) (settleStep s pass foldNode) e := by
  intro r n ns h
  obtain ⟨d, found, reads⟩ := h.reads
  simp only [settleStep, meets_bind, Edit.node, meets_ask, Region.node_of found, yields_ok,
    reads.code]
  by_cases binary : e.code.isBinary = true
  · obtain ⟨op, t, a, b, rfl⟩ := exists_binary h.typed binary
    simp only [binary, Bool.not_true, Bool.false_eq_true, if_false]
    refine firstOf_sound ?_ r n ns h
    simp only [List.mem_cons, List.not_mem_nil, or_false, forall_eq_or_imp, forall_eq]
    exact ⟨foldStep_sound, commuteStep_sound, mergeStep_sound, identityStep_sound, phiStep_sound,
      coerceStep_sound⟩
  · simp only [binary, Bool.not_false, if_true]
    exact h.turns rfl

/-- A pass turns trees that stand for `e` into trees that stand for terms in its place. -/
def Refining (linked : Links) (l : Layout) (pass : Pass) (e : Term) : Prop :=
  ∀ r n ns, Stands linked l r e n ns → Meets (pass n) r (fun _ => linked = .live) fun out r' =>
    Turns linked l r ns (e.Refines l) out.1 r'

theorem repeatStep_refining {fuel : Nat} (sound : ∀ e, Sound linked l (Simpler l e) step e)
    (enough : e.rank < fuel) : Refining linked l (repeatStep step fuel) e := by
  induction fuel generalizing e with
  | zero => omega
  | succ fuel ih =>
    intro r n ns h
    rw [repeatStep, meets_bind]
    refine (sound e r n ns h).to fun out r₁ stepped => ?_
    cases out with
    | none => exact Turns.becomes stepped (.refl h.typed)
    | some n' =>
      obtain ⟨e', ns', stands, within, kept, simpler⟩ := stepped
      have rest := ih (e := e') (by have := simpler.rank; omega)
      simp only [meets_bind, meets_pure]
      refine (rest r₁ n' ns' stands).to fun out r' turned => ?_
      exact (turned.imp fun _ _ refines => simpler.refines.trans refines).trans within kept

theorem settle_refining {foldNode : Bool} : Refining linked l (settle s pass foldNode) e := by
  intro r n ns h
  have enough := Term.rank_lt_bound h.spells.size_le
  simp only [settle, meets_bind, meets_get]
  exact repeatStep_refining (fun _ => settleStep_sound) enough r n ns h

end Peephole
