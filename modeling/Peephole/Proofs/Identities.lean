import Peephole.Proofs.Folding

/-!
# Identities on trees

Every identity that fires leaves the value of a tree as it is and brings the tree nearer
to one on which no step fires.
-/

namespace Peephole

open Edit

variable {linked : Links} {l : Layout} {r r' r₁ : Region} {e e' a b : Term} {n k : NodeId}
  {ns : List NodeId} {F : Fault → Prop} {op : Op} {t q : Ty} {v w : Word} {s : Setting}
  {step : Step} {R : Term → Prop}

/-- `e'` may stand in place of `e`, and fewer steps can fire on it. -/
structure Simpler (l : Layout) (e e' : Term) : Prop where
  refines : e.Refines l e'
  rank : e'.rank < e.rank

theorem Simpler.of_work (refines : e.Refines l e') (work : e'.work < e.work) : Simpler l e e' :=
  ⟨refines, Term.rank_lt_of_work work⟩

theorem Simpler.literal (refines : (Term.binary op t a b).Refines l (.lit q v)) :
    Simpler l (.binary op t a b) (.lit q v) :=
  .of_work refines Term.work_pos

theorem Simpler.left (refines : (Term.binary op t a b).Refines l a) :
    Simpler l (.binary op t a b) a :=
  .of_work refines Term.work_left

/-! ### A literal on the right -/

theorem dropRight_sound {fits : Node → Node → Bool}
    (refines : ∀ d d₁, (Term.binary op t a b).typed l = true → Reads d (.binary op t a b) →
      Reads d₁ b → fits d d₁ = true → (Term.binary op t a b).Refines l a) :
    Sound linked l (Simpler l (.binary op t a b)) (dropRight fits) (.binary op t a b) := by
  intro r n ns h
  obtain ⟨k₀, k₁, d, d₀, d₁, below₀, below₁, rfl, view⟩ := h.operands
  unfold dropRight
  rw [meets_bind, view.withOperands_meets]
  by_cases fires : fits d d₁ = true
  · simp only [fires, if_true, meets_bind, meets_pure]
    refine (spliceKid_meets (.left op t b) h).to fun k r' turned => turned.becomes (.left ?_)
    exact refines d d₁ h.typed view.reads view.reads₁ fires
  · simp only [fires]
    exact h.turns rfl

theorem addZero_sound : Sound linked l (Simpler l (.binary .add t a b)) addZero
    (.binary .add t a b) :=
  dropRight_sound fun d d₁ typed _ right zero => by
    obtain ⟨q, rfl⟩ := right.isIntLit.mp zero
    exact Term.refines_add_zero typed

theorem borZero_sound : Sound linked l (Simpler l (.binary .bor t a b)) borZero
    (.binary .bor t a b) :=
  dropRight_sound fun d d₁ typed _ right zero => by
    obtain ⟨q, rfl⟩ := right.isIntLit.mp zero
    exact Term.refines_bor_zero typed

theorem mulOne_sound : Sound linked l (Simpler l (.binary .mul t a b)) mulOne
    (.binary .mul t a b) :=
  dropRight_sound fun d d₁ typed _ right one => by
    obtain ⟨q, rfl⟩ := right.isIntLit.mp one
    exact Term.refines_mul_one typed

theorem bandAllOnes_sound : Sound linked l (Simpler l (.binary .band t a b)) bandAllOnes
    (.binary .band t a b) := by
  intro r n ns h
  simp only [bandAllOnes, Edit.layout, meets_bind, meets_get, meets_pure, h.layout]
  refine dropRight_sound (fun d d₁ typed reads right ones => ?_) r n ns h
  have ty : d.ty = t := reads.ty
  simp only [isAllOnes, right.intLit] at ones
  cases lit : b.lit? with
  | none => simp [lit] at ones
  | some c =>
    obtain ⟨q, rfl⟩ := Term.lit?_eq_some.mp lit
    simp only [Term.lit?, Bool.or_eq_true, beq_iff_eq, Bool.and_eq_true, ty] at ones
    refine Term.refines_band_allOnes typed ?_
    rcases ones with word | ⟨_, own⟩
    · exact .inl word
    · exact .inr own

theorem zeroIfRight_sound {c : Word}
    (refines : ∀ q, b = .lit q c → (Term.binary op t a b).typed l = true →
      (Term.binary op t a b).Refines l (.lit t 0#64)) :
    Sound linked l (Simpler l (.binary op t a b)) (zeroIfRight c) (.binary op t a b) := by
  intro r n ns h
  obtain ⟨k₀, k₁, d, d₀, d₁, below₀, below₁, rfl, view⟩ := h.operands
  have ty : d.ty = t := view.reads.ty
  unfold zeroIfRight
  rw [meets_bind, view.withOperands_meets]
  by_cases fires : d₁.isIntLit c = true
  · obtain ⟨q, same⟩ := view.reads₁.isIntLit.mp fires
    have zero := refines q same h.typed
    have int : t.isInt = true := Ty.isInt_of_isSmall (Term.isSmall_of_typed h.typed)
    simp only [fires, Bool.not_true, Bool.false_eq_true, if_false, meets_bind, meets_pure,
      intInPlace, ty, int, if_true]
    exact replaceByNew_meets h zero.typed (.literal zero)
  · simp only [fires, Bool.not_false, if_true]
    exact h.turns rfl

theorem mulZero_sound : Sound linked l (Simpler l (.binary .mul t a b)) mulZero
    (.binary .mul t a b) :=
  zeroIfRight_sound fun q same typed => by
    subst same
    exact Term.refines_mul_zero typed

theorem remOne_sound (remainder : op = .rem ∨ op = .mod) :
    Sound linked l (Simpler l (.binary op t a b)) remOne (.binary op t a b) :=
  zeroIfRight_sound fun q same typed => by
    subst same
    exact Term.refines_rem_one typed remainder

/-! ### Equal operands -/

theorem subSelf_sound : Sound linked l (Simpler l (.binary .sub t a b)) (subSelf s)
    (.binary .sub t a b) := by
  intro r n ns h
  obtain ⟨k₀, k₁, d, d₀, d₁, below₀, below₁, rfl, view⟩ := h.operands
  have ty : d.ty = t := view.reads.ty
  have kind := Ty.kind_of_isSmall (t := t) (Term.isSmall_of_typed h.typed)
  unfold subSelf
  rw [meets_bind]
  refine view.sameOperands_meets (h.turns rfl) ?_
  rintro rfl
  have refines := Term.refines_sub_self h.typed
  simp only [if_true, meets_bind, view.node_meets, ty, kind, Bool.false_and, Bool.false_eq_true,
    if_false, meets_pure]
  exact replaceByNew_meets h refines.typed (.literal refines)

theorem divSelf_sound : Sound linked l (Simpler l (.binary .div t a b)) (divSelf s)
    (.binary .div t a b) := by
  intro r n ns h
  obtain ⟨k₀, k₁, d, d₀, d₁, below₀, below₁, rfl, view⟩ := h.operands
  have ty : d.ty = t := view.reads.ty
  have int : t.isInt = true := Ty.isInt_of_isSmall (Term.isSmall_of_typed h.typed)
  have kind := Ty.kind_of_isSmall (Term.isSmall_of_typed view.left.typed)
  unfold divSelf
  rw [meets_bind]
  refine view.sameOperands_meets (h.turns rfl) ?_
  rintro rfl
  have refines := Term.refines_div_self h.typed
  simp only [if_true, meets_bind, view.withOperands_meets, view.reads₀.ty, kind, Bool.false_and,
    Bool.false_eq_true, if_false, meets_pure, intInPlace, ty, int]
  exact replaceByNew_meets h refines.typed (.literal refines)

theorem xorSelf_sound : Sound linked l (Simpler l (.binary .xor t a b)) (xorSelf s)
    (.binary .xor t a b) := by
  intro r n ns h
  obtain ⟨k₀, k₁, d, d₀, d₁, below₀, below₁, rfl, view⟩ := h.operands
  have ty : d.ty = t := view.reads.ty
  have int : t.isInt = true := Ty.isInt_of_isSmall (Term.isSmall_of_typed h.typed)
  have intA := Ty.isInt_of_isSmall (Term.isSmall_of_typed view.left.typed)
  unfold xorSelf
  rw [meets_bind]
  refine view.sameOperands_meets (h.turns rfl) ?_
  rintro rfl
  have refines := Term.refines_xor_self h.typed
  simp only [if_true, meets_bind, view.withOperands_meets, view.reads₀.ty, intA, Bool.true_or]
  refine (require_meets _).to ?_
  rintro _ _ ⟨rfl, rfl⟩
  simp only [if_true, meets_bind, intInPlace, ty, int, meets_pure]
  exact replaceByNew_meets h refines.typed (.literal refines)

theorem compareSelf_sound (equality : op = .eq ∨ op = .ne) :
    Sound linked l (Simpler l (.binary op t a b)) (compareSelf s (op == .eq))
      (.binary op t a b) := by
  intro r n ns h
  obtain ⟨k₀, k₁, d, d₀, d₁, below₀, below₁, rfl, view⟩ := h.operands
  have ty : d.ty = t := view.reads.ty
  unfold compareSelf
  simp only [meets_bind, view.withOperands_meets]
  split
  · exact h.turns rfl
  · rw [meets_bind]
    refine view.sameOperands_meets (h.turns rfl) ?_
    rintro rfl
    have refines := Term.refines_same h.typed equality
    simp only [if_true, meets_bind, ty, meets_pure]
    exact replaceByNew_meets h refines.typed (.literal refines)

/-! ### Floating operands

No operand is a floating literal, so the rules for these never fire. -/

theorem mulFloatTwo_sound : Sound linked l R (mulFloatTwo s) (.binary op t a b) := by
  intro r n ns h
  obtain ⟨k₀, k₁, d, d₀, d₁, below₀, below₁, rfl, view⟩ := h.operands
  have never : (none == some (2.0 : Float)) = false := rfl
  simp only [mulFloatTwo, meets_bind, view.withOperands_meets, view.reads₁.floatLit, never,
    Bool.and_false, Bool.false_eq_true, if_false]
  exact h.turns rfl

theorem divFloatConst_sound : Sound linked l R (divFloatConst s) (.binary op t a b) := by
  intro r n ns h
  obtain ⟨k₀, k₁, d, d₀, d₁, below₀, below₁, rfl, view⟩ := h.operands
  simp only [divFloatConst, meets_bind, view.operands_meets, view.withOperands_meets,
    view.reads₁.floatLit]
  exact h.turns rfl

/-! ### Powers of two -/

theorem mulIntTwo_sound : Sound linked l (Simpler l (.binary .mul t a b)) mulIntTwo
    (.binary .mul t a b) := by
  intro r n ns h
  obtain ⟨k₀, k₁, d, d₀, d₁, below₀, below₁, rfl, view⟩ := h.operands
  simp only [mulIntTwo, meets_bind, view.withOperands_meets]
  by_cases fires : d₁.isIntLit 2#64 = true
  · obtain ⟨q, rfl⟩ := view.reads₁.isIntLit.mp fires
    have refines := Term.refines_mul_two h.typed
    simp only [fires, if_true, meets_bind, meets_pure]
    refine (double_meets h refines.typed).to fun n' r' turned => turned.becomes ?_
    exact .of_work refines Term.work_double
  · simp only [fires]
    exact h.turns rfl

theorem shiftBy_sound {code : Op} {allowed : Node → Bool}
    (simpler : ∀ q c d₀, (Term.binary op t a (.lit q c)).typed l = true → Reads d₀ a →
      c.isPowerOfTwo = true → allowed d₀ = true → Simpler l (.binary op t a (.lit q c))
        (.binary code t a (.lit q (BitVec.ofNat 64 c.trailingZeros)))) :
    Sound linked l (Simpler l (.binary op t a b)) (shiftBy code allowed) (.binary op t a b) := by
  intro r n ns h
  obtain ⟨k₀, k₁, d, d₀, d₁, below₀, below₁, rfl, view⟩ := h.operands
  simp only [shiftBy, meets_bind, view.operands_meets, view.withOperands_meets, view.reads₁.intLit]
  cases lit : b.lit? with
  | none => exact h.turns rfl
  | some c =>
    obtain ⟨q, rfl⟩ := Term.lit?_eq_some.mp lit
    by_cases fires : c.isPowerOfTwo = true ∧ allowed d₀ = true
    · have shifted := simpler q c d₀ h.typed view.reads₀ fires.1 fires.2
      simp only [fires.1, fires.2, Bool.not_true, Bool.or_self, Bool.false_eq_true, if_false,
        meets_bind, meets_pure]
      refine (recode_meets view (Term.isBinary_of_typed h.typed) shifted.refines.typed).to ?_
      exact fun _ r₁ coded => coded.to fun _ r' turned => turned.becomes shifted
    · rw [not_and_or, Bool.not_eq_true, Bool.not_eq_true] at fires
      have stays : (!c.isPowerOfTwo || !allowed d₀) = true := by
        rcases fires with no | no <;> simp [no]
      simp only [stays, if_true]
      exact h.turns rfl

theorem mulPowerOfTwo_sound : Sound linked l (Simpler l (.binary .mul t a b)) (mulPowerOfTwo s)
    (.binary .mul t a b) :=
  shiftBy_sound fun _ _ _ typed _ power _ =>
    .of_work (Term.refines_mul_power typed power) Term.work_mul_power

theorem divPowerOfTwo_sound : Sound linked l (Simpler l (.binary .div t a b)) (divPowerOfTwo s)
    (.binary .div t a b) := by
  refine shiftBy_sound fun q c d₀ typed left power allowed => ?_
  have ty : d₀.ty = t := left.ty.trans (Term.arithmetic typed rfl).2.1
  simp only [Bool.and_eq_true, ty] at allowed
  exact .of_work (Term.refines_div_power typed allowed.2 power) Term.work_div_power

/-! ### Truth -/

theorem lorOne_sound : Sound linked l (Simpler l (.binary .lor t a b)) lorOne
    (.binary .lor t a b) := by
  intro r n ns h
  obtain ⟨k₀, k₁, d, d₀, d₁, below₀, below₁, rfl, view⟩ := h.operands
  simp only [lorOne, meets_bind, view.withOperands_meets]
  by_cases fires : d₀.isIntLit 1#64 = true
  · obtain ⟨q, rfl⟩ := view.reads₀.isIntLit.mp fires
    simp only [fires, if_true, meets_bind, meets_pure]
    refine (spliceKid_meets (.left .lor t b) h).to fun k r' turned => turned.becomes ?_
    exact .left (Term.refines_lor_one h.typed)
  · simp only [fires]
    exact h.turns rfl

theorem landOne_sound : Sound linked l (Simpler l (.binary .land t a b)) (landOne s)
    (.binary .land t a b) := by
  intro r n ns h
  obtain ⟨k₀, k₁, d, d₀, d₁, below₀, below₁, rfl, view⟩ := h.operands
  obtain ⟨word, _, tyB, _⟩ := Term.arithmetic h.typed rfl
  have ty : d.ty = t := view.reads.ty
  simp only [landOne, meets_bind, view.withOperands_meets]
  by_cases fires : d₀.isIntLit 1#64 = true
  · obtain ⟨q, rfl⟩ := view.reads₀.isIntLit.mp fires
    simp only [fires, Bool.not_true, Bool.false_eq_true, if_false, meets_bind, ty]
    refine (spliceKid_meets (.right .land t (.lit q 1#64)) h).to fun k r₁ spliced => ?_
    obtain ⟨_, ns₁, h₁, within, kept, same⟩ := spliced
    rw [same] at h₁
    obtain ⟨d', found, reads⟩ := h₁.reads
    simp only [Edit.node, meets_ask, Region.node_of found, yields_ok, reads.code]
    by_cases judge : b.code.isJudge = true
    · simp only [judge, if_true, meets_bind, meets_pure]
      refine (retype_meets h₁ word).to fun n' r' turned => (turned.imp ?_).trans within kept
      rintro e' _ ⟨_, same⟩
      rw [if_pos tyB] at same
      rw [same]
      exact .of_work (Term.refines_land_one_judge h.typed judge) Term.work_right
    · simp only [judge, Bool.false_eq_true, if_false, meets_bind, meets_pure]
      refine (judgement_meets h₁).to fun j r₂ judged => ?_
      obtain ⟨_, ns₂, h₂, within', kept', rfl⟩ := judged
      refine (retype_meets h₂ word).to fun n' r' turned =>
        ((turned.imp ?_).trans within' kept').trans within kept
      rintro e' _ ⟨refines, rest⟩
      have differ : ¬Ty.scalar .bool = t := by
        rintro rfl
        exact absurd word (by decide)
      rw [show (Term.binary .ne (.scalar .bool) b (.lit b.ty 0#64)).ty = .scalar .bool from rfl,
        if_neg differ] at rest
      exact .of_work ((Term.refines_land_one h.typed).trans refines) (rest ▸ Term.work_pos)
  · simp only [fires]
    exact h.turns rfl

/-! ### The first rule that fires -/

/-- A step that did not fire, and one after it. -/
theorem Stepped.trans {ns' : List NodeId} {r'' : Region} {out : Option NodeId}
    (within : Within r ns ns') (kept : Kept linked r r' ns)
    (h : Stepped linked l r' e n ns' R out r'') : Stepped linked l r e n ns R out r'' := by
  cases out with
  | none => exact Turns.trans within kept h
  | some n' => exact Turns.trans within kept h

/-- Two steps of which the second is tried if the first does not fire. -/
theorem Sound.next {next : Step} (r : Region) (n : NodeId) (ns : List NodeId)
    (stepped : Turns linked l r ns (fun e' => e' = e) n r') (h : Sound linked l R next e) :
    Meets (next n) r' (fun _ => linked = .live) (Stepped linked l r e n ns R) := by
  obtain ⟨_, ns', stands, within, kept, same⟩ := stepped
  rw [same] at stands
  exact (h r' n ns' stands).to fun out r'' last => last.trans within kept

theorem applyFirst_sound {rules : List (Rule × Step)}
    (each : ∀ x ∈ rules, Sound linked l R x.2 e) : Sound linked l R (applyFirst rules) e := by
  induction rules with
  | nil => exact fun r n ns h => h.turns rfl
  | cons x rest ih =>
    intro r n ns h
    obtain ⟨rule, step⟩ := x
    have first : Sound linked l R step e := each (rule, step) List.mem_cons_self
    have others := ih fun x mem => each x (List.mem_cons_of_mem _ mem)
    rw [applyFirst, meets_bind]
    refine (first r n ns h).to fun out r₁ stepped => ?_
    cases out with
    | none => exact others.next r n ns stepped
    | some n' =>
      simp only [meets_bind, meets_pure]
      refine (fired_meets linked rule n).to fun _ r' noted => ?_
      obtain ⟨e', ns', stands, within, kept, holds⟩ := stepped
      exact ⟨e', ns', stands.edited_same noted, within, kept.trans noted.kept_same .refl, holds⟩

theorem identities_sound :
    ∀ x ∈ identities s op, Sound linked l (Simpler l (.binary op t a b)) x.2
      (.binary op t a b) := by
  cases op <;> simp only [identities, List.mem_cons, List.not_mem_nil, or_false, forall_eq_or_imp,
    forall_eq, false_implies, implies_true]
  case add => exact addZero_sound
  case sub => exact subSelf_sound
  case mul =>
    exact ⟨mulFloatTwo_sound, mulIntTwo_sound, mulOne_sound, mulZero_sound, mulPowerOfTwo_sound⟩
  case div => exact ⟨divFloatConst_sound, divPowerOfTwo_sound, divSelf_sound⟩
  case rem => exact remOne_sound (.inl rfl)
  case mod => exact remOne_sound (.inr rfl)
  case band => exact bandAllOnes_sound
  case bor => exact borZero_sound
  case xor => exact xorSelf_sound
  case land => exact landOne_sound
  case lor => exact lorOne_sound
  case eq => exact compareSelf_sound (.inl rfl)
  case ne => exact compareSelf_sound (.inr rfl)

theorem identityStep_sound : Sound linked l (Simpler l (.binary op t a b)) (identityStep s)
    (.binary op t a b) := by
  intro r n ns h
  obtain ⟨d, found, reads⟩ := h.reads
  simp only [identityStep, Edit.node, meets_bind, meets_ask, Region.node_of found, yields_ok,
    reads.code]
  exact applyFirst_sound identities_sound r n ns h

end Peephole
