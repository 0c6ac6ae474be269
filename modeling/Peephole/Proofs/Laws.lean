import Peephole.Proofs.Reductions

/-!
# Identities on trees

What the identities of the binary operations, and the rule that compares phis, make of a tree.
-/

namespace Peephole

open Edit Peephole.Tree

variable {F : Fault → Prop} {s : Setting} {r r' r₀ : Region} {n m k x y : NodeId}
  {ns₀ : List NodeId} {ps : List Piece} {code : Op} {ty q : Ty} {attrs : Attrs} {a b t u : Tree}
  {d left right : Node} {up up' : Option NodeId} {slots : List (List Tree)}

theorem Tops.isIntLit_const {v : Word} (h : Tops d t) (value : d.isIntLit v = true) :
    t.code = .const := by
  rw [Node.isIntLit, h.intLit?, beq_iff_eq] at value
  exact intLit?_const value

namespace Forest

theorem intInPlace {like : Node} {v : Word} (h : Forest r₀ ns₀ ps r) :
    Meets (intInPlace d like v) r F fun m r' =>
      ∃ w q, Forest r₀ ns₀ (.tree (lit w q) m none :: ps) r' := by
  unfold Peephole.intInPlace intLike
  split
  · exact (h.literal _ _).to fun m r₁ h => ⟨_, _, h⟩
  · split
    · refine Meets.bind (h.intern _) fun q r₁ kept => ?_
      exact (kept.2.literal _ _).to fun m r₂ h => ⟨_, _, h⟩
    · exact (h.literal _ _).to fun m r₂ h => ⟨_, _, h⟩

theorem sameOperands (h : Forest r₀ ns₀ (.tree (two code ty attrs a b) n up :: ps) r) :
    Meets (sameOperands n) r Fault.Proper fun _ r' => r' = r := by
  obtain ⟨x, y, d, left, right, p, split⟩ := h.pair
  simp only [Peephole.sameOperands, meets_bind, p.operands]
  exact split.swap.sameTree

/-- A literal in place of a binary node. -/
theorem value {v : Literal} (binary : code.isBinary = true)
    (h : Forest r₀ ns₀ (.tree (lit v q) k none :: .tree (two code ty attrs a b) n up :: ps) r) :
    Meets (Edit.replaceBy n k) r Fault.Proper fun m r' => ∃ u,
      Tree.Step r₀.layout (two code ty attrs a b) u ∧ Regrown r₀ ns₀ ps n up u m r' :=
  h.replaceBy.to fun _ _ h => ⟨_, .value binary, .moved h⟩

section steps

variable (h : Forest r₀ ns₀ (.tree (two code ty attrs a b) n up :: ps) r)
  (binary : code.isBinary = true)
include h binary

theorem dropRight {fits : Node → Node → Bool} (calm : code.isJudge = false) :
    Meets (dropRight fits n) r Fault.Proper (Reduces r₀ ns₀ ps (two code ty attrs a b) n up) := by
  obtain ⟨x, y, d, left, right, p, _⟩ := h.pair
  simp only [Peephole.dropRight, meets_bind, p.withOperands]
  split
  · exact Meets.bind (h.spliceKid rfl) fun m r₁ h => ⟨a, .left binary (by simp [calm]), .moved h⟩
  · exact h

theorem subSelf : Meets (subSelf s n) r Fault.Proper
    (Reduces r₀ ns₀ ps (two code ty attrs a b) n up) := by
  obtain ⟨x, y, d, left, right, p, _⟩ := h.pair
  unfold Peephole.subSelf
  refine Meets.bind h.sameOperands ?_
  rintro same _ rfl
  cases same with
  | false => exact h
  | true =>
    simp only [if_true, Edit.node, meets_bind, meets_ask, p.node, yields_ok]
    split
    · exact h
    · split
      · exact Meets.bind (h.literal _ _) fun k r₁ h =>
          Meets.bind (h.value binary) fun m r₂ done => done
      · exact Meets.bind (h.literal _ _) fun k r₁ h =>
          Meets.bind (h.value binary) fun m r₂ done => done

theorem divSelf : Meets (divSelf s n) r Fault.Proper
    (Reduces r₀ ns₀ ps (two code ty attrs a b) n up) := by
  obtain ⟨x, y, d, left, right, p, _⟩ := h.pair
  unfold Peephole.divSelf
  refine Meets.bind h.sameOperands ?_
  rintro same _ rfl
  cases same with
  | false => exact h
  | true =>
    simp only [if_true, meets_bind, p.withOperands]
    split
    · exact h
    · split
      · exact Meets.bind (h.literal _ _) fun k r₁ h =>
          Meets.bind (h.value binary) fun m r₂ done => done
      · refine Meets.bind h.intInPlace ?_
        rintro k r₁ ⟨w, q, h⟩
        exact Meets.bind (h.value binary) fun m r₂ done => done

theorem xorSelf : Meets (xorSelf s n) r Fault.Proper
    (Reduces r₀ ns₀ ps (two code ty attrs a b) n up) := by
  obtain ⟨x, y, d, left, right, p, _⟩ := h.pair
  unfold Peephole.xorSelf
  refine Meets.bind h.sameOperands ?_
  rintro same _ rfl
  cases same with
  | false => exact h
  | true =>
    simp only [if_true, meets_bind, p.withOperands]
    refine (h.require _ _ _).to ?_
    rintro ok r₁ ⟨_, h⟩
    cases ok with
    | false => exact h
    | true =>
      refine Meets.bind h.intInPlace ?_
      rintro k r₂ ⟨w, q, h⟩
      exact Meets.bind (h.value binary) fun m r₂ done => done

theorem compareSelf {truth : Bool} : Meets (compareSelf s truth n) r Fault.Proper
    (Reduces r₀ ns₀ ps (two code ty attrs a b) n up) := by
  obtain ⟨x, y, d, left, right, p, _⟩ := h.pair
  simp only [Peephole.compareSelf, meets_bind, p.withOperands]
  split
  · exact h
  · refine Meets.bind h.sameOperands ?_
    rintro same _ rfl
    cases same with
    | false => exact h
    | true =>
      exact Meets.bind (h.literal _ _) fun k r₁ h =>
        Meets.bind (h.value binary) fun m r₂ done => done

theorem zeroIfRight {c : Word} : Meets (zeroIfRight c n) r Fault.Proper
    (Reduces r₀ ns₀ ps (two code ty attrs a b) n up) := by
  obtain ⟨x, y, d, left, right, p, _⟩ := h.pair
  simp only [Peephole.zeroIfRight, meets_bind, p.withOperands]
  split
  · exact h
  · refine Meets.bind h.intInPlace ?_
    rintro k r₁ ⟨w, q, h⟩
    exact Meets.bind (h.value binary) fun m r₂ done => done

end steps

theorem double (h : Forest r₀ ns₀ (.tree (two .mul ty attrs a b) n up :: ps) r) :
    Meets (double n) r Fault.Proper fun m r' =>
      ∃ u, Tree.Step r₀.layout (two .mul ty attrs a b) u ∧ Regrown r₀ ns₀ ps n up u m r' := by
  obtain ⟨x, y, d, left, right, p, split⟩ := h.pair
  simp only [Peephole.double, meets_bind, p.operands, meets_discard]
  refine (takeKid (i := 1) rfl split.swapNext).to fun _ r₁ split => ?_
  refine split.swap.discardTree.to fun _ r₂ split => ?_
  refine split.forget.swap.duplicate.to fun copy r₃ split => ?_
  have finish {r : Region} (split : Forest r₀ ns₀ (.tree a copy none :: .tree a x (some n) ::
      .stub (.fresh .mul ty attrs [[x], []]) n up :: ps) r) :
      Meets (do
        Edit.setCode n .add
        Edit.setKid n 1 (some copy)
        return n) r Fault.Proper fun m r' => ∃ u,
      Tree.Step r₀.layout (two .mul ty attrs a b) u ∧ Regrown r₀ ns₀ ps n up u m r' := by
    refine Meets.bind ((front [_, _] split).setCode rfl) fun _ r₄ split => ?_
    refine Meets.bind (setKid (i := 1) (by simp) split) fun _ r₅ split => ?_
    exact ⟨_, .double, .here split.swapNext.joinTwo⟩
  simp only [Edit.hasEdges, meets_bind, meets_get, meets_pure]
  split
  · exact Meets.bind split.copyTreeAccess fun _ r₄ split => finish split
  · exact finish split

theorem mulFloatTwo (h : Forest r₀ ns₀ (.tree (two .mul ty attrs a b) n up :: ps) r) :
    Meets (mulFloatTwo s n) r Fault.Proper (Reduces r₀ ns₀ ps (two .mul ty attrs a b) n up) := by
  obtain ⟨x, y, d, left, right, p, _⟩ := h.pair
  simp only [Peephole.mulFloatTwo, meets_bind, p.withOperands]
  split
  · exact Meets.bind h.double fun m r₁ done => done
  · exact h

theorem mulIntTwo (h : Forest r₀ ns₀ (.tree (two .mul ty attrs a b) n up :: ps) r) :
    Meets (mulIntTwo n) r Fault.Proper (Reduces r₀ ns₀ ps (two .mul ty attrs a b) n up) := by
  obtain ⟨x, y, d, left, right, p, _⟩ := h.pair
  simp only [Peephole.mulIntTwo, meets_bind, p.withOperands]
  split
  · exact Meets.bind h.double fun m r₁ done => done
  · exact h

/-- Another operation, and another literal on the right. -/
theorem recode {code' : Op} {v : Literal} (arity : code.numSlots = code'.numSlots)
    (split : Forest r₀ ns₀ (.stub (.fresh code ty attrs [[x], [y]]) n up ::
      .tree a x (some n) :: .tree b y (some n) :: ps) r) :
    Meets (do
      Edit.setCode n code'
      Edit.modifyNode y (·.setLiteral v)
      return some n) r Fault.Proper fun out r' => out = some n ∧
        Forest r₀ ns₀ (.tree (two code' ty attrs a (b.relit v)) n up :: ps) r' := by
  refine Meets.bind (split.setCode arity) fun _ r₁ split => ?_
  obtain ⟨inner, q, attrs', slots⟩ := b
  obtain ⟨ids, fits, lower⟩ := (front [_, _] split).split
  have changed : Meets (Edit.modifyNode y (·.setLiteral v)) r₁ Fault.Proper fun _ r' =>
      Forest r₀ ns₀ (.stub (.fresh inner q { attrs' with value := some v } ids) y (some n) :: _)
        r' :=
    lower.modifyNode fun _ _ _ => rfl
  refine Meets.bind changed fun _ r₂ lower => ⟨rfl, ?_⟩
  exact (join fits lower).swap.swapNext.joinTwo

theorem shiftBy {code' : Op} {allowed : Node → Bool}
    (codes : code = .mul ∧ code' = .lsl ∨ code = .div ∧ code' = .lsr)
    (h : Forest r₀ ns₀ (.tree (two code ty attrs a b) n up :: ps) r) :
    Meets (shiftBy code' allowed n) r Fault.Proper
      (Reduces r₀ ns₀ ps (two code ty attrs a b) n up) := by
  obtain ⟨x, y, d, left, right, p, split⟩ := h.pair
  simp only [Peephole.shiftBy, meets_bind, p.operands, p.withOperands]
  split
  · rename_i c value
    split
    · exact h
    · have const := intLit?_const (p.rightTops.intLit?.symm.trans value)
      have arity : code.numSlots = code'.numSlots := by
        rcases codes with ⟨rfl, rfl⟩ | ⟨rfl, rfl⟩ <;> rfl
      refine (split.recode arity).to ?_
      rintro _ r₁ ⟨rfl, h⟩
      exact ⟨_, .shift codes const, .here h⟩
  · exact h

theorem divFloatConst (h : Forest r₀ ns₀ (.tree (two .div ty attrs a b) n up :: ps) r) :
    Meets (divFloatConst s n) r Fault.Proper (Reduces r₀ ns₀ ps (two .div ty attrs a b) n up) := by
  obtain ⟨x, y, d, left, right, p, split⟩ := h.pair
  simp only [Peephole.divFloatConst, meets_bind, p.operands, p.withOperands]
  split
  · rename_i c value
    split
    · exact h
    · rename_i proper
      simp only [Bool.or_eq_true, not_or, Bool.not_eq_true, p.leftTops.isConst] at proper
      split
      · exact Meets.bind (h.spliceKid rfl) fun m r₁ h =>
          ⟨a, .left rfl fun judge => absurd judge Bool.false_ne_true, .moved h⟩
      · split
        · exact h
        · have const := floatLit?_const (p.rightTops.floatLit?.symm.trans value)
          have arity : Op.div.numSlots = Op.mul.numSlots := rfl
          refine (split.recode arity).to ?_
          rintro _ r₁ ⟨rfl, h⟩
          exact ⟨_, .reciprocal proper.1.2 const, .here h⟩
  · exact h

theorem landOne (h : Forest r₀ ns₀ (.tree (two .land ty attrs a b) n up :: ps) r) :
    Meets (landOne s n) r Fault.Proper (Reduces r₀ ns₀ ps (two .land ty attrs a b) n up) := by
  obtain ⟨x, y, d, left, right, p, _⟩ := h.pair
  simp only [Peephole.landOne, meets_bind, p.withOperands]
  split
  · exact h
  · rw [meets_bind]
    refine (h.spliceKid (i := 1) rfl).to fun k r₁ h => ?_
    obtain ⟨dk, found, tops, _⟩ := h.node List.mem_cons_self
    have type : d.ty = ty := p.tops.ty
    have finish {k : NodeId} {r : Region}
        (h : Forest r₀ ns₀ (.tree (b.judged r₀.layout) k none :: .gone n :: ps) r) :
        Meets (do return some (← Peephole.retype s k d.ty)) r Fault.Proper
          (Reduces r₀ ns₀ ps (two .land ty attrs a b) n up) := by
      rw [type]
      refine Meets.bind h.retype ?_
      rintro m r₂ ⟨_, loose, h⟩
      rw [loose rfl] at h
      exact ⟨_, .truth, .moved h⟩
    simp only [Edit.node, meets_bind, meets_ask, Region.node_of found, yields_ok, tops.code]
    split
    · rename_i judge
      rw [← show b.judged r₀.layout = b from if_pos judge] at h
      exact finish h
    · rename_i judge
      refine Meets.bind h.judgement ?_
      rintro m r₂ ⟨_, h⟩
      rw [← show b.judged r₀.layout = b.judgement r₀.layout from if_neg judge] at h
      exact finish h

theorem lorOne (h : Forest r₀ ns₀ (.tree (two .lor ty attrs a b) n up :: ps) r) :
    Meets (lorOne n) r Fault.Proper (Reduces r₀ ns₀ ps (two .lor ty attrs a b) n up) := by
  obtain ⟨x, y, d, left, right, p, _⟩ := h.pair
  simp only [Peephole.lorOne, meets_bind, p.withOperands]
  split
  · rename_i one
    have const := p.leftTops.isIntLit_const one
    exact Meets.bind (h.spliceKid rfl) fun m r₁ h => ⟨a, .left rfl fun _ => const, .moved h⟩
  · exact h

theorem applyFirst {rules : List (Rule × Step)}
    (each : ∀ rule ∈ rules, ∀ r, Forest r₀ ns₀ (.tree t n up :: ps) r →
      Meets (rule.2 n) r Fault.Proper (Reduces r₀ ns₀ ps t n up))
    (h : Forest r₀ ns₀ (.tree t n up :: ps) r) :
    Meets (applyFirst rules n) r Fault.Proper (Reduces r₀ ns₀ ps t n up) := by
  induction rules generalizing r with
  | nil => exact h
  | cons rule rules ih =>
    refine Meets.bind (each rule List.mem_cons_self r h) fun out r₁ done => ?_
    cases out with
    | none => exact ih (fun x mem => each x (List.mem_cons_of_mem rule mem)) done
    | some m =>
      obtain ⟨u, step, ⟨same, h⟩ | h⟩ := done
      · exact Meets.bind (h.fired _) fun _ r₂ h => ⟨u, step, .inl ⟨same, h⟩⟩
      · exact Meets.bind (h.fired _) fun _ r₂ h => ⟨u, step, .moved h⟩

theorem identity {rule : Rule × Step} (binary : code.isBinary = true)
    (mem : rule ∈ identities s code)
    (h : Forest r₀ ns₀ (.tree (two code ty attrs a b) n up :: ps) r) :
    Meets (rule.2 n) r Fault.Proper (Reduces r₀ ns₀ ps (two code ty attrs a b) n up) := by
  cases code <;> simp only [identities, List.mem_cons, List.not_mem_nil, or_false] at mem
  case add =>
    subst mem
    dsimp only [addZero]
    exact h.dropRight binary rfl
  case sub => exact mem ▸ h.subSelf binary
  case mul =>
    rcases mem with rfl | rfl | rfl | rfl | rfl
    · exact h.mulFloatTwo
    · exact h.mulIntTwo
    · dsimp only [mulOne]
      exact h.dropRight binary rfl
    · exact h.zeroIfRight binary
    · dsimp only [mulPowerOfTwo]
      exact h.shiftBy (.inl ⟨rfl, rfl⟩)
  case div =>
    rcases mem with rfl | rfl | rfl
    · exact h.divFloatConst
    · dsimp only [divPowerOfTwo]
      exact h.shiftBy (.inr ⟨rfl, rfl⟩)
    · exact h.divSelf binary
  case rem => exact mem ▸ h.zeroIfRight binary
  case mod => exact mem ▸ h.zeroIfRight binary
  case land => exact mem ▸ h.landOne
  case lor => exact mem ▸ h.lorOne
  case band =>
    subst mem
    simp only [bandAllOnes, Edit.layout, meets_bind, meets_get, meets_pure]
    exact h.dropRight binary rfl
  case bor =>
    subst mem
    dsimp only [borZero]
    exact h.dropRight binary rfl
  case xor => exact mem ▸ h.xorSelf binary
  case eq => exact mem ▸ h.compareSelf binary
  case ne => exact mem ▸ h.compareSelf binary

/-- Every identity reads both operands first. -/
theorem identity_gap {rule : Rule × Step} (mem : rule ∈ identities s code) (gap : Gap slots)
    (h : Forest r₀ ns₀ (.tree (.node code ty attrs slots) n up :: ps) r) :
    Meets (rule.2 n) r Fault.Proper (Reduces r₀ ns₀ ps (.node code ty attrs slots) n up) := by
  have stuck {Q : NodeId × NodeId → Region → Prop} : Meets (operands n) r Fault.Proper Q :=
    (h.operands_gap gap).to fun _ _ => False.elim
  cases code <;> simp only [identities, List.mem_cons, List.not_mem_nil, or_false] at mem
  case mul =>
    rcases mem with rfl | rfl | rfl | rfl | rfl
    all_goals
      simp only [Peephole.mulFloatTwo, Peephole.mulIntTwo, mulOne, Peephole.dropRight, mulZero,
        Peephole.zeroIfRight, mulPowerOfTwo, Peephole.shiftBy, withOperands, meets_bind]
      exact stuck
  case div =>
    rcases mem with rfl | rfl | rfl
    all_goals
      simp only [Peephole.divFloatConst, divPowerOfTwo, Peephole.shiftBy, Peephole.divSelf,
        Peephole.sameOperands, meets_bind]
      exact stuck
  all_goals
    subst mem
    simp only [addZero, borZero, bandAllOnes, Edit.layout, meets_get, meets_pure,
      Peephole.dropRight, Peephole.subSelf, remOne, Peephole.zeroIfRight, Peephole.xorSelf,
      Peephole.landOne, Peephole.lorOne, Peephole.compareSelf, Peephole.sameOperands,
      withOperands, meets_bind]
    exact stuck

theorem identityStep (formed : (Tree.node code ty attrs slots).Formed)
    (binary : code.isBinary = true)
    (h : Forest r₀ ns₀ (.tree (.node code ty attrs slots) n up :: ps) r) :
    Meets (identityStep s n) r Fault.Proper
      (Reduces r₀ ns₀ ps (.node code ty attrs slots) n up) := by
  obtain ⟨d, found, tops, _⟩ := h.node List.mem_cons_self
  have code' : d.code = code := tops.code
  simp only [Peephole.identityStep, Edit.node, meets_bind, meets_ask, Region.node_of found,
    yields_ok, code']
  refine applyFirst (fun rule mem r h => ?_) h
  rcases formed.binary_slots binary with ⟨a, b, rfl⟩ | gap
  · exact h.identity binary mem
  · exact h.identity_gap mem gap

/-- Comparisons with themselves are all that an identity decides of comparisons. -/
theorem identityStep_declines (formed : (Tree.node code ty attrs slots).Formed)
    (binary : code.isBinary = true) (relation : code.isRelation = true) (off : s.foldConst = false)
    (h : Forest r₀ ns₀ (.tree (.node code ty attrs slots) n up :: ps) r) :
    Meets (Peephole.identityStep s n) r Fault.Proper fun out r' => out = none ∧ r' = r := by
  obtain ⟨d, found, tops, _⟩ := h.node List.mem_cons_self
  have code' : d.code = code := tops.code
  have declines (truth : Bool) : Meets (Peephole.compareSelf s truth n) r Fault.Proper
      fun out r' => out = none ∧ r' = r := by
    rcases formed.binary_slots binary with ⟨a, b, rfl⟩ | gap
    · obtain ⟨x, y, d, left, right, p, _⟩ := h.pair
      simp [Peephole.compareSelf, p.withOperands, off]
    · simp only [Peephole.compareSelf, withOperands, meets_bind]
      exact (h.operands_gap gap).to fun _ _ => False.elim
  simp only [Peephole.identityStep, Edit.node, meets_bind, meets_ask, Region.node_of found,
    yields_ok, code']
  cases code <;> simp only [Op.isRelation, Bool.false_eq_true] at relation
  case eq =>
    refine Meets.bind (declines true) ?_
    rintro _ _ ⟨rfl, rfl⟩
    exact ⟨rfl, rfl⟩
  case ne =>
    refine Meets.bind (declines false) ?_
    rintro _ _ ⟨rfl, rfl⟩
    exact ⟨rfl, rfl⟩
  all_goals exact ⟨rfl, rfl⟩

end Forest

/-! ### Phis -/

section phis

variable {e : Node}

theorem mergeSame_reads : Meets (mergeSame d e) r Fault.Proper fun _ r' => r' = r := by
  have keeps : Keeps (· = r) Fault.Plain (mergeSame d e) := by
    refine .bind (.lift Region.slot_answers) fun _ => .bind (.lift Region.slot_answers) fun _ => ?_
    refine .ite (.pure _) (.allM fun (x, y) => ?_)
    refine .bind (.ask fun _ => Region.node_answers) fun _ => ?_
    refine .bind (.ask fun _ => Region.node_answers) fun _ => ?_
    split
    · exact .pure _
    · exact .pure _
  exact (keeps r rfl).imp (fun _ => Fault.Plain.proper) fun _ _ => id

theorem definingPhis?_reads : Meets (definingPhis? d e) r Fault.Proper fun out r' =>
    (out ≠ none → d.code = .pr ∧ e.code = .pr) ∧ r' = r := by
  unfold definingPhis?
  split
  · exact ⟨nofun, rfl⟩
  · rename_i registers
    have registers : d.code = .pr ∧ e.code = .pr := by
      simpa [not_or] using registers
    have keeps : Keeps (· = r) Fault.Plain (definingPhis? d e) := by
      refine .ite (.pure _) (.bind (.ask fun _ => Region.ssaDefOf_answers) fun defA => ?_)
      split
      · exact .pure _
      · refine .bind (.ask fun _ => Region.ssaDefOf_answers) fun defB => ?_
        split
        · exact .pure _
        · refine .bind (.ask fun _ => Region.node_answers) fun _ => .ite (.pure _) ?_
          exact .bind (.ask fun _ => Region.node_answers) fun _ => .ite (.pure _) (.pure _)
    have reads := keeps r rfl
    simp only [definingPhis?, registers, ne_eq, not_true_eq_false, decide_false, Bool.or_self,
      Bool.false_eq_true, if_false] at reads
    exact reads.imp (fun _ => Fault.Plain.proper) fun _ _ same => ⟨fun _ => registers, same⟩

end phis

/-- Phis decide a comparison of registers only. -/
theorem Forest.phiStep (formed : (Tree.node code ty attrs slots).Formed)
    (binary : code.isBinary = true)
    (h : Forest r₀ ns₀ (.tree (.node code ty attrs slots) n up :: ps) r) :
    Meets (phiStep n) r Fault.Proper (Fires r₀ ns₀ ps (.node code ty attrs slots) n up fun u =>
      Tree.Step r₀.layout (.node code ty attrs slots) u ∧ u.code = .const ∧
        ∃ a b, slots = [[a], [b]] ∧ a.code = .pr ∧ b.code = .pr) := by
  obtain ⟨d, found, _⟩ := h.node List.mem_cons_self
  simp only [Peephole.phiStep, Edit.node, meets_bind, meets_ask, Region.node_of found, yields_ok]
  split
  swap
  · exact h
  simp only [decideByPhis, Edit.node, meets_bind]
  rcases formed.binary_slots binary with ⟨a, b, rfl⟩ | gap
  swap
  · exact (h.operands_gap gap).to fun _ _ => False.elim
  obtain ⟨x, y, d, left, right, p, _⟩ := h.pair
  simp only [p.operands, meets_ask, p.leftNode, p.rightNode, yields_ok]
  refine definingPhis?_reads.to ?_
  rintro phis _ ⟨registers, rfl⟩
  rw [p.leftTops.code, p.rightTops.code] at registers
  split
  · split
    · exact h
    · refine Meets.bind mergeSame_reads ?_
      rintro same _ rfl
      cases same with
      | false => exact h
      | true =>
        simp only [if_true, meets_bind, meets_ask, p.node, yields_ok]
        refine (h.literal _ _).to fun k r₁ h => ?_
        refine (h.fired _).to fun _ r₂ h => ?_
        refine h.replaceBy.to fun m r₃ h => ?_
        exact ⟨_, ⟨.value binary, rfl, a, b, rfl, registers (by simp)⟩, .moved h⟩
  · exact h

end Peephole
