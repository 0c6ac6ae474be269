import Peephole.Proofs.Statements

/-!
# Refining a conditional branch

The condition of a branch is refined as a condition: only its truth has to stay, and it becomes
a comparison or a logical operation. A branch on a false `a != b` is turned into one on a true
`a == b`. Whatever becomes of the two, the branch is taken where it was
(`refine_preserves_branch`).
-/

namespace Peephole

open Edit

/-- The conditions of branches: a uniform term, or a comparison of two of one type. -/
inductive Term.Condition (l : Layout) : Term → Prop
  | word {t : Ty} {e : Term} : e.Uniform l t → Condition l e
  | comparison {op : Op} {t : Ty} {x y : Term} : op.isRelation = true → x.Uniform l t →
    y.Uniform l t → Condition l (.binary op (.scalar .bool) x y)

theorem Term.Condition.typed {l : Layout} {e : Term} (h : e.Condition l) : e.typed l = true := by
  cases h with
  | word uniform => exact uniform.typed.2.2
  | comparison relation left right =>
    obtain ⟨_, tyX, typedX⟩ := left.typed
    obtain ⟨_, tyY, typedY⟩ := right.typed
    exact typed_binary.mpr ⟨typedX, typedY, tyY.trans tyX.symm,
      (if_pos relation).trans (rfl : (Ty.scalar .bool).isBool = true)⟩

/-- Whether a branch is taken on a condition with this truth. -/
def Branch.takes (code : Op) (truth : Bool) : Bool := if code = .falseBr then !truth else truth

/-- Whether the branch at `n` is taken, where its condition has a value. -/
def Region.branchTaken (r : Region) (env : Env) (n : NodeId) : Except Fault (Option Bool) := do
  let code := (← r.node n).code
  let v ← r.eval env (← r.kid n 0)
  return v.map fun v => Branch.takes code v.isTrue

namespace Branch

/-- What refining a branch with the condition `p` ends in: one of the condition `p'`, which is
taken where the former was. -/
structure Settles (l : Layout) (code : Op) (p : Term) (code' : Op) (p' : Term) : Prop where
  branch : code' = .trueBr ∨ code' = .falseBr
  judge : p'.code.isJudge = true
  normal : code' = .falseBr → p'.code ≠ .ne
  follows : ∀ env v, p.value l env = some v →
    ∃ w, p'.value l env = some w ∧ takes code' (w != 0#64) = takes code (v != 0#64)

/-- The node `n` branches on the tree at `k`, which has the nodes `ns`. -/
structure At (l : Layout) (r : Region) (code : Op) (p : Term) (n k : NodeId) (ns : List NodeId) :
    Prop where
  node : ∃ d, r.shape true n = some d ∧ d.code = code ∧ d.slots = [[k]]
  cond : Stands .idle l r p k ns
  apart : n ∉ ns

variable {l : Layout} {r r' : Region} {code code' : Op} {p p' : Term} {n k k' : NodeId}
  {ns ns' : List NodeId} {s : Setting} {F : Fault → Prop}

/-- A condition that decides the same is taken in the same way. -/
theorem takes_of_decides (h : p.Decides l p') (env : Env) (v : Word)
    (value : p.value l env = some v) :
    ∃ w, p'.value l env = some w ∧ takes code (w != 0#64) = takes code (v != 0#64) := by
  obtain ⟨w, value', same⟩ := h.truth env v value
  have truth : (w != 0#64) = (v != 0#64) := by
    rw [Bool.eq_iff_iff, bne_iff_ne, bne_iff_ne]
    exact not_congr same
  exact ⟨w, value', by rw [truth]⟩

/-- A branch on a false `a != b` is taken where one on a true `a == b` is. -/
theorem takes_of_ne {t : Ty} {a b : Term} (typed : (Term.binary .ne t a b).typed l = true)
    (env : Env) (v : Word) (value : (Term.binary .ne t a b).value l env = some v) :
    ∃ w, (Term.binary .eq t a b).value l env = some w ∧
      takes .trueBr (w != 0#64) = takes .falseBr (v != 0#64) := by
  -- the comparison is inverted as under a negation
  have inverts := Term.refines_lnot_comparison rfl (Term.typed_lnot typed) rfl
  have negated : (Term.unary .lnot (.scalar .bool) (.binary .ne t a b)).value l env =
      some ((Ty.scalar .bool).wrapInt l (Word.ofBool (v == 0#64))) := by
    rw [Term.value, value]
    rfl
  refine ⟨_, inverts.value env _ negated, ?_⟩
  by_cases zero : v = 0#64 <;> simp [takes, zero, Word.ofBool, Ty.wrapInt_bool]

namespace At

variable (h : At l r code p n k ns)
include h

theorem found : ∃ d, r.node? n = some d ∧ d.code = code ∧ d.slots = [[k]] := by
  obtain ⟨_, shape, rfl, slots⟩ := h.node
  obtain ⟨d, found, rfl⟩ := Option.map_eq_some_iff.mp shape
  exact ⟨d, found, rfl, slots⟩

theorem kid : r.kid n 0 = .ok k := by
  obtain ⟨d, found, _, slots⟩ := h.found
  exact Region.kid_of found (by rw [slots]; rfl)

theorem old : n.index < r.nodes.size := by
  obtain ⟨_, found, _⟩ := h.found
  exact Region.lt_size_of_node? found

theorem edited (other : Edited .idle r r' (r.shape true)) : At l r' code p n k ns :=
  ⟨other.shape ▸ h.node, h.cond.edited_same other, h.apart⟩

/-- The branch is no part of what its condition is turned into. -/
theorem fresh (within : Within r ns ns') : n ∉ ns' := by
  intro mem
  rcases within n mem with mem | new
  · exact h.apart mem
  · exact absurd h.old (Nat.not_lt.mpr new)

/-- Refining the condition. -/
theorem refineConditionSlot_meets : Meets (refineConditionSlot s n) r (fun _ => False) fun _ r' =>
    ∃ p' k' ns', At l r' code p' n k' ns' ∧ p.Decides l p' ∧ p'.code.isJudge = true := by
  simp only [refineConditionSlot, refineDeterminant, Edit.kid, meets_bind, meets_ask, h.kid,
    yields_ok]
  refine (refineCondition_decides refineExpr_refining
    (fun _ _ _ _ _ => ⟨refineExpr_refining, refineExpr_refining⟩) h.cond).imp (fun _ => by simp)
    fun out r₁ inner => ?_
  obtain ⟨k', changed⟩ := out
  obtain ⟨p', ns', stands, within, kept, decides⟩ := inner
  obtain ⟨d, shape, same, slots⟩ := h.node
  have shape₁ : r₁.shape true n = some d := (kept.shape n h.apart h.old).trans shape
  by_cases stays : k' = k
  · subst stays
    simp only [ne_eq, not_true_eq_false, if_false, meets_pure]
    exact ⟨p', k', ns', ⟨⟨d, shape₁, same, slots⟩, stands, h.fresh within⟩, decides⟩
  · simp only [ne_eq, stays, not_false_eq_true, if_true, meets_bind, meets_pure]
    obtain ⟨d₁, found₁, rfl⟩ := Option.map_eq_some_iff.mp shape₁
    have one : d₁.slots = [[k]] := slots
    have live : r₁.Live k' := stands.spells.live stands.spells.root_mem
    refine (setKid_edits .idle found₁ (by simp [one]) live).to fun _ r₂ set => ?_
    have holds : ((d₁.holding 0 [k']).bare true).slots = [[k']] := by
      simp [Node.bare, Node.holding, one]
    exact ⟨p', k', ns', ⟨⟨_, set.shape_node, same, holds⟩,
      stands.kept_node set.kept_node (h.fresh within), h.fresh within⟩, decides⟩

theorem finishStmt_meets {changed : Bool} : Meets (finishStmt s n changed) r F fun out r' =>
    out = .stands n changed ∧ At l r' code p n k ns := by
  obtain ⟨d, found, _, slots⟩ := h.found
  have live : ∀ m ∈ d.kids, r.Live m := by
    intro m mem
    obtain rfl : m = k := by simpa [Node.kids, slots] using mem
    exact h.cond.spells.live h.cond.spells.root_mem
  have calm : r.hasEdges = false := h.cond.calm.edges (by simp)
  refine (finishStmt_edits .idle found live calm).to fun out r' finished => ?_
  exact ⟨finished.1, h.edited finished.2⟩

theorem adoptAll_meets : Meets (adoptAll n) r F fun _ r' => At l r' code p n k ns := by
  obtain ⟨d, found, _, slots⟩ := h.found
  have tree : Grove r.kidsOf d.kids ns := by
    simpa [Node.kids, slots] using h.cond.spells.tree
  have deep : ns.length ≤ r.nodes.size :=
    Region.length_le_size h.cond.spells.nodup fun m mem => h.cond.spells.live mem
  exact (adoptAll_edits .idle found tree deep).to fun _ r' adopted => h.edited adopted

/-- A branch on a false `a != b`. -/
theorem flip_meets {t : Ty} {a b : Term} (ne : p = .binary .ne t a b) (negative : code = .falseBr) :
    Meets (do setCode k .eq; setCode n .trueBr; fired .falseBrOfNe n) r F fun _ r' =>
      At l r' .trueBr (.binary .eq t a b) n k ns := by
  subst ne
  have typed : (Term.binary .eq t a b).typed l = true :=
    (Term.refines_lnot_comparison rfl (Term.typed_lnot h.cond.typed) rfl).typed
  obtain ⟨d, shape, same, slots⟩ := h.node
  refine Meets.bind (setBinaryCode_meets h.cond typed) fun _ r₁ coded => ?_
  obtain ⟨cond, kept⟩ := coded
  obtain ⟨d₁, found₁, rfl⟩ :=
    Option.map_eq_some_iff.mp ((kept.shape n h.apart h.old).trans shape)
  have arity : d₁.code.numSlots = Op.numSlots .trueBr := by
    rw [show d₁.code = .falseBr from same.trans negative]
    rfl
  have recoded : Edited .idle r₁ (r₁.put n (some { d₁ with code := .trueBr }))
      (Function.update (r₁.shape true) n
        (some (({ d₁ with code := .trueBr } : Node).bare true))) :=
    ⟨Region.shape_put (Region.lt_size_of_node? found₁), .put found₁ rfl⟩
  rw [meets_bind]
  refine (meets_setCode found₁ arity).mpr ?_
  refine (fired_meets .idle .falseBrOfNe n).to fun _ r' noted => ?_
  refine At.edited ⟨⟨_, recoded.shape_node, rfl, slots⟩, ?_, h.apart⟩ noted
  exact cond.kept_node recoded.kept_node h.apart

/-- Refining a branch. -/
theorem refineBranch_meets (branch : code = .trueBr ∨ code = .falseBr) :
    Meets (refineBranch s n) r (fun _ => False) fun out r' => out.node = some n ∧
      ∃ code' p' k' ns', At l r' code' p' n k' ns' ∧ Settles l code p code' p' := by
  unfold refineBranch
  refine Meets.bind h.refineConditionSlot_meets fun inCond r₁ refined => ?_
  obtain ⟨p', k', ns', h₁, decides, judge⟩ := refined
  obtain ⟨d, found, same, slots⟩ := h₁.found
  obtain ⟨c, foundC, reads⟩ := h₁.cond.reads
  -- the condition was refined and nothing else is done
  have plain (normal : code = .falseBr → p'.code ≠ .ne) :
      Meets (finishStmt s n inCond) r₁ (fun _ => False) fun out r' => out.node = some n ∧
        ∃ code' p' k' ns', At l r' code' p' n k' ns' ∧ Settles l code p code' p' := by
    refine h₁.finishStmt_meets.to fun out r' finished => ?_
    obtain ⟨rfl, h'⟩ := finished
    exact ⟨rfl, code, p', k', ns', h', branch, judge, normal, takes_of_decides decides⟩
  simp only [Edit.kid, Edit.node, meets_bind, meets_ask, h₁.kid, yields_ok, Region.node_of found,
    same]
  by_cases negative : code = .falseBr
  · simp only [if_pos negative, meets_bind, meets_ask, Region.node_of foundC, yields_ok, reads.code]
    by_cases ne : p'.code = .ne
    · obtain ⟨op, t, a, b, rfl⟩ := exists_binary h₁.cond.typed (by rw [ne]; rfl)
      obtain rfl : op = .ne := ne
      simp only [Term.code, if_true, meets_bind]
      have flipped := h₁.flip_meets (F := fun _ => False) rfl negative
      simp only [meets_bind] at flipped
      refine flipped.to fun _ r₂ flipped => flipped.to fun _ r₃ flipped => ?_
      refine flipped.to fun _ r₄ h₄ => h₄.finishStmt_meets.to fun out r' finished => ?_
      obtain ⟨rfl, h'⟩ := finished
      refine ⟨rfl, .trueBr, _, k', ns', h', .inl rfl, rfl, by simp, fun env v value => ?_⟩
      obtain ⟨w, value', same⟩ := takes_of_decides decides env v value
      obtain ⟨u, value'', again⟩ := takes_of_ne h₁.cond.typed env w value'
      exact ⟨u, value'', again.trans (negative ▸ same)⟩
    · simp only [if_neg ne]
      exact plain fun _ => ne
  · simp only [if_neg negative]
    exact plain fun eq => absurd eq negative

theorem refineStmt_meets {again : NodeId → Edit Outcome}
    (branch : code = .trueBr ∨ code = .falseBr) :
    Meets (refineStmt s again n) r (fun _ => False) fun out r' => out.node = some n ∧
      ∃ code' p' k' ns', At l r' code' p' n k' ns' ∧ Settles l code p code' p' := by
  obtain ⟨d, found, same, slots⟩ := h.found
  simp only [refineStmt, Edit.node, meets_bind, meets_ask, Region.node_of found, yields_ok, same]
  rcases branch with rfl | rfl
  · exact h.refineBranch_meets (.inl rfl)
  · exact h.refineBranch_meets (.inr rfl)

theorem refine_meets (branch : code = .trueBr ∨ code = .falseBr) :
    Meets (Peephole.refine s n) r (fun _ => False) fun out r' => out.node = some n ∧
      ∃ code' p' k' ns', At l r' code' p' n k' ns' ∧ Settles l code p code' p' := by
  obtain ⟨d, found, same, slots⟩ := h.found
  have stmt : d.isStmt = true := by
    rw [Node.isStmt, same]
    rcases branch with rfl | rfl <;> rfl
  simp only [Peephole.refine, Region.depthBound, refineWithin, meets_bind, meets_get, isExpr,
    Edit.node, meets_ask, Region.node_of found, yields_ok, meets_pure, stmt, Bool.not_true,
    Bool.false_eq_true, if_false]
  refine (h.refineStmt_meets branch).to fun out r₁ refined => ?_
  obtain ⟨rfl | m, changed, unlinked⟩ := out
  · exact refined
  obtain ⟨eq, code', p', k', ns', h₁, settles⟩ := refined
  obtain rfl : m = n := Option.some.inj eq
  cases changed with
  | false => exact ⟨rfl, code', p', k', ns', h₁, settles⟩
  | true =>
    simp only [if_true, meets_bind, meets_pure]
    exact h₁.adoptAll_meets.to fun _ r' h' => ⟨trivial, code', p', k', ns', h', settles⟩

/-- Whether the branch is taken is up to the value of its condition. -/
theorem taken (env : Env) : r.branchTaken env n =
    .ok ((p.value l env).map fun v => takes code (v != 0#64)) := by
  obtain ⟨d, found, same, _⟩ := h.found
  have value : r.eval env k = .ok ((p.value r.layout env).map .int) :=
    Region.eval_of_spells h.cond.spells (h.cond.layout ▸ h.cond.typed)
  simp only [Region.branchTaken, Region.node_of found, h.kid, value, bind, Except.bind, pure,
    Except.pure, same, h.cond.layout, Option.map_map]
  rfl

end At

end Branch

/-- Refining a branch, in a region without edges, keeps the decision. The branch stays where it
is, on a comparison or a logical operation, and never on a false `a != b`. -/
theorem refine_preserves_branch (s : Setting) (env : Env) {r : Region} {n k : NodeId} {d : Node}
    {e : Term} {ns : List NodeId} {taken : Bool} (found : r.node? n = some d)
    (branch : d.code = .trueBr ∨ d.code = .falseBr) (slots : d.slots = [[k]])
    (tree : Spells (r.shape true) e k ns) (apart : n ∉ ns) (condition : e.Condition r.layout)
    (unlinked : r.Unlinked) (before : r.branchTaken env n = .ok (some taken)) :
    ∃ out r', (refine s n).run r = .ok (out, r') ∧ out.node = some n ∧
      (∃ d' k' c, r'.node n = .ok d' ∧ r'.kid n 0 = .ok k' ∧ r'.node k' = .ok c ∧
        (d'.code = .trueBr ∨ d'.code = .falseBr ∧ c.code ≠ .ne) ∧ c.code.isJudge = true) ∧
      r'.branchTaken env n = .ok (some taken) := by
  have h : Branch.At r.layout r d.code e n k ns :=
    ⟨⟨d.bare true, by simp [Region.shape, found], rfl, slots⟩,
      ⟨tree, condition.typed, rfl, unlinked⟩, apart⟩
  have refined : Meets (refine s n) r (fun _ => False) _ := h.refine_meets branch
  obtain ⟨out, r', run⟩ := refined.returns
  obtain ⟨stays, code', p', k', ns', h', settles⟩ := (meets_iff.mp refined).1 out r' run
  obtain ⟨d', found', same', _⟩ := h'.found
  obtain ⟨c, foundC, reads⟩ := h'.cond.reads
  refine ⟨out, r', run, stays, ⟨d', k', c, Region.node_of found', h'.kid, Region.node_of foundC,
    ?_, reads.code ▸ settles.judge⟩, ?_⟩
  · rw [same', reads.code]
    exact settles.branch.imp_right fun negative => ⟨negative, settles.normal negative⟩
  · rw [h.taken, Except.ok.injEq, Option.map_eq_some_iff] at before
    obtain ⟨v, value, rfl⟩ := before
    obtain ⟨w, value', same⟩ := settles.follows env v value
    rw [h'.taken, value', Option.map_some, same]

/-- A branch on a false `$1 + 0`, in 32 bits. -/
def Region.sumBranch : Region :=
  { Region.empty ⟨8⟩ with
    nodes := #[
      some (.fresh .falseBr (.scalar .void) (.ofLabel ⟨0⟩) [[⟨1⟩]]),
      some { Node.fresh .add (.scalar .i32) .none [[⟨2⟩], [⟨3⟩]] with parent := some ⟨0⟩ },
      some { Node.fresh .pr (.scalar .i32) (.ofRegister 1) [] with parent := some ⟨1⟩ },
      some { Node.fresh .const (.scalar .i32) (.ofLiteral (.int 0)) [] with parent := some ⟨1⟩ }] }

/-- It becomes a branch on a true `$1 == 0`. -/
theorem refine_sumBranch : ∃ out r',
    (refine ⟨.standard, true⟩ ⟨0⟩).run .sumBranch = .ok (out, r') ∧ out.node = some ⟨0⟩ ∧
    r'.branchTaken (Env.empty.setReg 1 (.int 5)) ⟨0⟩ = .ok (some false) := by
  have tree : Spells (Region.sumBranch.shape true)
      (.binary .add (.scalar .i32) (.reg (.scalar .i32) 1) (.lit (.scalar .i32) 0)) ⟨1⟩
      [⟨1⟩, ⟨2⟩, ⟨3⟩] :=
    ⟨by decide, ⟨2⟩, [⟨2⟩], ⟨3⟩, [⟨3⟩], _, rfl, rfl, ⟨rfl, _, rfl, rfl⟩, ⟨rfl, _, rfl, rfl⟩⟩
  have unlinked : Region.sumBranch.Unlinked := by
    refine ⟨rfl, fun m d i found own => ?_⟩
    have free : ∀ x ∈ Region.sumBranch.nodes, x.bind (·.record) = none := by decide
    have mem := Array.mem_of_getElem? (Option.join_eq_some_iff.mp found)
    rw [show d.record = none from free _ mem] at own
    cases own
  have before : Region.sumBranch.branchTaken (Env.empty.setReg 1 (.int 5)) ⟨0⟩ =
      .ok (some false) := rfl
  obtain ⟨out, r', run, stays, _, after⟩ := refine_preserves_branch ⟨.standard, true⟩ _ rfl
    (.inr rfl) rfl tree (by decide) (.word (.binary rfl rfl (.reg rfl) (.lit rfl (by decide))))
    unlinked before
  exact ⟨out, r', run, stays, after⟩

/-- A branch on a true `$1 ? $2 : *(&x + 9223372036854775807 + 1)`. -/
def Region.farBranch : Region :=
  { Region.empty ⟨8⟩ with
    nodes := #[
      some (.fresh .trueBr (.scalar .void) (.ofLabel ⟨0⟩) [[⟨1⟩]]),
      some { Node.fresh .select (.scalar .i32) .none [[⟨2⟩], [⟨3⟩], [⟨4⟩]] with
        parent := some ⟨0⟩ },
      some { Node.fresh .pr (.scalar .i32) (.ofRegister 1) [] with parent := some ⟨1⟩ },
      some { Node.fresh .pr (.scalar .i32) (.ofRegister 2) [] with parent := some ⟨1⟩ },
      some { Node.fresh .ild (.scalar .i32) (.ofOffset 1) [[⟨5⟩]] with parent := some ⟨1⟩ },
      some { Node.fresh .lda (.pointer 8) (.ofVar ⟨0⟩ 9223372036854775807) [] with
        parent := some ⟨4⟩ }] }

/-- An indirect load out of range stops the refinement of a branch that does not read it. -/
theorem refine_farBranch :
    Region.farBranch.branchTaken ((Env.empty.setReg 1 (.int 1)).setReg 2 (.int 5)) ⟨0⟩ =
      .ok (some true) ∧
    (refine ⟨.standard, true⟩ ⟨0⟩).run .farBranch = .error .overflow := by
  refine ⟨rfl, Meets.stops ?_⟩
  decide +kernel

end Peephole
