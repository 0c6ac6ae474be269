import Peephole.Proofs.Composition

/-!
# Steady invariants

An invariant that the parts of refinement keep is `Steady`, and `Steady.keeps` says that every edit
composed of them keeps it.
-/

namespace Peephole

open Edit

structure Steady (o : Options) (I : Region → Prop) (F : Fault → Prop) : Prop where
  fault : ∀ f, (∀ n, f ≠ .violation (.staleEdge n)) → F f
  aside : ∀ r blocks types, I r → I { r with blocks, types }
  note : ∀ r e, (e.isListCap = true → e = .listCapReached o.sweepCap) → I r →
    I { r with events := r.events.push e }
  put : ∀ r n d d', I r → r.node? n = some d → d.SameLinks d' → I (r.put n (some d'))
  push : ∀ r code ty attrs slots, I r → I (r.push (.fresh code ty attrs slots))
  removeSsaUse : ∀ u, Keeps I F (removeSsaUse u)
  clearSsaUses : ∀ v, Keeps I F (clearSsaUses v)
  cutUses : ∀ n, Keeps I F (cutUses n)
  cutAll : ∀ n, Keeps I F (cutAll n)
  releaseAll : ∀ ns, Keeps I F (releaseAll ns)
  linkedCopy : ∀ n, Keeps I F (linkedCopy n)
  loadFor : ∀ n v ofst ty, Keeps I F (loadFor n v ofst ty)
  storeFor : ∀ n v ofst ty stored, Keeps I F (storeFor n v ofst ty stored)
  checkEdges : ∀ s n, Keeps I F (checkEdges s n)

namespace Steady

variable {α β : Type} {o : Options} {I : Region → Prop} {F : Fault → Prop} {s : Setting}
  {n k : NodeId} {i : Nat}

/-! ### Questions and notes -/

theorem isReleased : Keeps I F (isReleased n) := .bind .get fun _ => .pure _

variable (h : Steady o I F)
include h

theorem plain (f : Fault) (ordinary : f.Plain) : F f := by
  refine h.fault f fun n same => ?_
  subst same
  exact ordinary

theorem ordinary (f : Fault) (ordinary : f.Ordinary) : F f := by
  rcases ordinary with ordinary | rfl
  · exact h.plain f ordinary
  · exact h.fault _ nofun

theorem misuse (m : Misuse) : Keeps I F (throw (.misuse m) : Edit α) := .throw (h.fault _ nofun)

theorem ask {q : Region → Except Fault α} (answers : ∀ r, Answers Fault.Plain (q r)) :
    Keeps I F (ask q) :=
  .ask fun r => (answers r).imp h.plain

theorem node : Keeps I F (node n) := h.ask fun _ => Region.node_answers

theorem stmts {b : BlockId} : Keeps I F (stmts b) := h.ask fun _ => Region.lookup_answers

theorem report {e : Event} (known : e.isListCap = true → e = .listCapReached o.sweepCap) :
    Keeps I F (report e) :=
  .modify fun r start => h.note r e known start

theorem intern (t : Ty) : Keeps I F (intern t) := by
  refine .bind (.modify fun r start => ?_) fun _ => .pure _
  split
  · exact start
  · exact h.aside r r.blocks (r.types.push t) start

theorem require (holds : Bool) {v : Violation} (other : ∀ n, v ≠ .staleEdge n) :
    Keeps I F (require s holds v) := by
  refine .ite (.pure _) (.ite (.throw (h.fault _ fun n same => ?_)) ?_)
  · exact other n (Fault.violation.inj same)
  · exact (h.report (e := .skipped v) nofun).bind fun _ => .pure _

/-! ### Edits of nodes -/

/-- An edit of a node whose rest sees the node. -/
theorem nodeToEdit {k : Node → Edit α}
    (rest : ∀ r d, I r → r.node? n = some d → Meets (k d) r F fun _ => I) :
    Keeps I F (Edit.ask (·.nodeToEdit n) >>= k) := by
  intro r start
  rw [meets_bind, meets_ask]
  exact Region.nodeToEdit_answers.yields h.plain fun d found =>
    rest r d start (Region.node?_of_nodeToEdit found)

theorem modifyNode {f : Node → Node} (links : ∀ d : Node, d.SameLinks (f d)) :
    Keeps I F (modifyNode n f) :=
  h.nodeToEdit fun r d start found => h.put r n d _ start found (links d)

theorem setParent {p : Option NodeId} : Keeps I F (setParent n p) :=
  h.modifyNode fun _ => ⟨rfl, rfl, .inl rfl⟩

theorem setCode {code : Op} (binary : code.isBinary = true) : Keeps I F (setCode n code) := by
  have two : code.numSlots = 2 ∧ code.carriesValue = false := by
    cases code <;> first | exact ⟨rfl, rfl⟩ | cases binary
  refine h.nodeToEdit fun r d start found => ?_
  split
  · exact h.misuse _ r start
  · rename_i same
    have silent : d.code.carriesValue = false := by
      have slots : d.code.numSlots = 2 := (not_not.mp same).trans two.1
      cases code : d.code <;> rw [code] at slots <;> first | rfl | cases slots
    exact h.put r n d _ start found ⟨rfl, rfl, .inr ⟨silent, two.2⟩⟩

theorem build {code : Op} {ty : Ty} {attrs : Attrs} {slots : List (List NodeId)} :
    Keeps I F (build code ty attrs slots) := by
  unfold Edit.build Edit.create
  rw [if_neg (by simp [Node.fresh])]
  refine .bind (.modifyGet fun r start => h.push r _ _ _ _ start) fun _ => ?_
  exact .bind (.forM fun _ => h.setParent) fun _ => .pure _

/-- Writing a node back with other kids in one slot. -/
theorem putSlot {r : Region} {d : Node} {ks : List NodeId} {next : Edit α} (start : I r)
    (found : r.node? n = some d) (rest : Keeps I F next) :
    Meets (do let d' ← d.setSlot i ks; putNode n d'; next) r F fun _ => I := by
  simp only [meets_bind, meets_lift, meets_putNode]
  refine Region.setSlot_answers.yields h.plain fun d' changed => ?_
  have kept : d.SameLinks d' := by
    unfold Node.setSlot at changed
    split at changed
    · cases changed
      exact ⟨rfl, rfl, .inl rfl⟩
    · cases changed
  exact rest _ (h.put r n d d' start found kept)

theorem setKid {x : Option NodeId} : Keeps I F (setKid n i x) := by
  refine h.nodeToEdit fun r d start found => h.putSlot start found ?_
  rw [setParent_option]
  exact .forM fun _ => h.setParent

theorem setKids {ks : List NodeId} : Keeps I F (setKids n i ks) := by
  refine .bind (.forM fun _ => h.setParent) fun _ => h.nodeToEdit fun r d start found => ?_
  have put : Meets (do let d' ← d.setSlot i ks; putNode n d'; pure PUnit.unit) r F fun _ => I :=
    h.putSlot start found (.pure _)
  simpa only [meets_bind, meets_lift, meets_putNode, meets_pure] using put

theorem takeKids : Keeps I F (takeKids n i) := by
  refine h.nodeToEdit fun r d start found => ?_
  rw [meets_bind, meets_lift]
  refine Region.slot_answers.yields h.plain fun ks _ => h.putSlot start found ?_
  exact .bind (.forM fun _ => h.setParent) fun _ => .pure _

theorem replaceKid {old new : NodeId} : Keeps I F (replaceKid n old new) := by
  refine h.nodeToEdit fun r d start found => ?_
  split
  · exact (h.setParent.bind fun _ => .pure _) _ (h.put r n d _ start found ⟨rfl, rfl, .inl rfl⟩)
  · exact start

theorem setStmts {b : BlockId} {ss : List NodeId} : Keeps I F (setStmts b ss) :=
  .modify fun r start => h.aside r _ r.types start

theorem insertStmt {b : BlockId} {pos : Nat} : Keeps I F (insertStmt b pos n) := by
  have attached : Keeps I F (attach b n) := by
    refine h.nodeToEdit fun r d start found => ?_
    dsimp only
    split
    · exact h.fault _ nofun
    · split
      · exact h.fault _ nofun
      · exact h.put r n d _ start found ⟨rfl, rfl, .inl rfl⟩
  refine attached.bind fun _ => h.stmts.bind fun _ => ?_
  exact .ite (.bind (.throw (h.fault _ nofun)) fun _ => h.setStmts) h.setStmts

theorem unlinkStmt {b : BlockId} : Keeps I F (unlinkStmt b n) := by
  refine h.stmts.bind fun _ => .ite (h.setStmts.bind fun _ => isReleased.bind fun _ => ?_) (.pure _)
  refine .ite ?_ (.pure _)
  intro r start
  simp only [Edit.node, meets_bind, meets_ask]
  refine Region.node_answers.yields h.plain fun d found => ?_
  split
  · exact h.put r n d _ start (Region.node?_of_node found) ⟨rfl, rfl, .inl rfl⟩
  · exact start

theorem leaveBlock : Keeps I F (leaveBlock n) := by
  refine h.node.bind fun d => ?_
  cases d.block with
  | none => exact .pure _
  | some b => exact h.unlinkStmt

theorem invertBranch {cond : NodeId} : Keeps I F (invertBranch n cond) := by
  intro r start
  refine invertBranch_meets h.plain start fun d c isFalseBr foundCond isNe kept rule => ?_
  refine h.note _ _ nofun (h.put _ n d _ ?_ kept ⟨rfl, rfl, .inr ⟨by rw [isFalseBr]; rfl, rfl⟩⟩)
  exact h.put r cond c _ start foundCond ⟨rfl, rfl, .inr ⟨by rw [isNe]; rfl, rfl⟩⟩

/-! ### Composed edits -/

variable {b b' whole c : Bool} {m m' : Edit α} {Q : Bool → α → Prop}

theorem change {x : Scope} (made : Change x m) : Keeps I F m := by
  cases made with
  | modifyNode _ same =>
    refine h.modifyNode fun d => ?_
    obtain ⟨_, _, _, new⟩ := same d
    exact new ▸ ⟨rfl, rfl, .inl rfl⟩
  | setCode binary => exact h.setCode binary
  | setKid => exact h.setKid
  | setKids => exact h.setKids
  | takeKids => exact h.takeKids
  | build => exact h.build
  | removeSsaUse => exact h.removeSsaUse _
  | cutUses => exact h.cutUses _
  | releaseAll => exact h.releaseAll _
  | linkedCopy => exact h.linkedCopy _
  | loadFor => exact h.loadFor _ _ _ _
  | storeFor => exact h.storeFor _ _ _ _ _
  | replaceKid => exact h.replaceKid
  | clearSsaUses => exact h.clearSsaUses _
  | cutAll => exact h.cutAll _
  | insertStmt => exact h.insertStmt
  | leaveBlock => exact h.leaveBlock

theorem marks (made : Composed ⟨o, b, b', whole⟩ c m m' Q) :
    ∀ r, I r → Meets m r F fun a r' => I r' ∧ ∃ c', Q c' a := by
  have part {α : Type} {c : Bool} {m : Edit α} {Q : Bool → α → Prop} (kept : Keeps I F m)
      (any : ∀ a, Q c a) : ∀ r, I r → Meets m r F fun a r' => I r' ∧ ∃ c', Q c' a :=
    fun r start => (kept r start).to fun a _ there => ⟨there, c, any a⟩
  induction made with
  | pure q => exact fun r start => ⟨start, _, q⟩
  | throw known =>
    rintro _ _
    rcases known with known | ⟨_, rfl⟩
    · exact h.ordinary _ known
    · exact h.fault _ nofun
  | bind _ _ first next =>
    exact fun r start => Meets.bind (first r start) fun a r' there =>
      there.2.elim fun c' p => next c' a p r' there.1
  | ask _ answers => exact part (.ask fun r => (answers r).imp h.ordinary) fun _ => rfl
  | lift answers => exact part (.lift (answers.imp h.plain)) fun _ => rfl
  | get _ _ next => exact fun r start => next r r start
  | node _ _ next =>
    exact fun r start => Meets.bind (h.node r start) fun d r' there => next d r' there
  | report known => exact part (h.report known) fun _ => rfl
  | intern => exact part (h.intern _) fun _ => rfl
  | require other => exact part (h.require _ other) fun _ => rfl
  | change made => exact part (c := true) (h.change made) fun _ => trivial
  | checkEdges => exact part (c := true) (h.checkEdges _ _) fun _ => trivial
  | invertBranch => exact part h.invertBranch fun _ _ => rfl

theorem keeps (made : Uniform ⟨o, b, b, true⟩ false m Q) : Keeps I F m :=
  fun r start => (h.marks made r start).to fun _ _ there => there.1

end Steady

end Peephole
