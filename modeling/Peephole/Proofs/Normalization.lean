import Peephole.Proofs.Resting

/-!
# Normalization

What refinement makes of a well-typed tree is settled. With rest this says that refining twice is
refining once.
-/

namespace Peephole

open Edit Peephole.Tree

namespace Tree

variable {s : Setting} {l : Layout} {rel fold : Bool} {code : Op} {ty q : Ty} {attrs : Attrs}
  {a b t u x : Tree} {v : Literal}

/-! ### Trees that stay settled -/

theorem Settled.relit (h : Settled s l false t) (const : t.code = .const) :
    Settled s l false (t.relit v) := by
  obtain ⟨ty, attrs, rfl⟩ := h.spelled.const_leaf const
  exact .leaf (.inl rfl)

theorem lit?_const {w : Word} (h : t.lit? = some w) : t.code = .const := intLit?_const h

/-- Bringing a settled tree to a type leaves it settled, unless it is a conversion. -/
theorem Settled.retyped (h : Settled s l false t) (plain : t.code ≠ .cvt) :
    Settled s l false (t.retyped l ty) := by
  unfold Tree.retyped
  split
  · exact h
  · rename_i proper
    simp only [Bool.or_eq_true, not_or, decide_eq_true_eq] at proper
    split
    · rename_i value
      obtain ⟨q, attrs, rfl⟩ := h.spelled.const_leaf (lit?_const value)
      exact .leaf (.inl rfl)
    · rename_i value
      refine .cvt h proper.1.1 ?_ fun _ => value
      unfold keeps
      split
      · exact absurd rfl plain
      · rfl

theorem lit?_of_isConst (h : t.isConst = false) : t.lit? = none := by
  cases value : t.lit? with
  | none => rfl
  | some w =>
    rw [isConst, lit?_const value] at h
    cases h

theorem code_of_same (h : same a b = true) : a.code = b.code := by
  obtain ⟨code, ty, attrs, slots⟩ := a
  obtain ⟨code', ty', attrs', slots'⟩ := b
  simp only [same, Bool.and_eq_true, Bool.not_eq_true', Bool.or_eq_false_iff,
    decide_eq_false_iff_not, not_not] at h
  exact h.1.1.1

/-- Nothing but folding applies to a comparison with zero. -/
theorem still_judgement (apart : fold = true → x.isConst = false) :
    Still s l fold .ne (.scalar .bool) x (zeroOf l x.ty) := by
  refine ⟨?_, fun _ _ => ?_, ?_⟩
  · simp [commutes, zeroOf_isConst]
  · simp [merges, mayMerge, Node.fresh, Op.isAssociative]
  · cases on : fold with
    | false => rfl
    | true =>
      cases alike : same x (zeroOf l x.ty) with
      | false => simp [simplifies, alike]
      | true =>
        have const : x.isConst = (zeroOf l x.ty).isConst := by
          rw [isConst, isConst, code_of_same alike]
        rw [apart on, zeroOf_isConst] at const
        cases const

theorem settled_zeroOf {pred : Bool} : Settled s l pred (zeroOf l ty) := by
  unfold zeroOf
  split
  · exact .lit _
  · split <;> exact .lit _

theorem Settled.judged (h : Settled s l false x) (apart : s.foldConst = true → x.isConst = false) :
    Settled s l false (x.judged l) ∧ (x.judged l).code.isJudge = true := by
  unfold Tree.judged
  split
  · exact ⟨h, by assumption⟩
  · refine ⟨.binary rfl h settled_zeroOf (fun on => ?_) ?_, rfl⟩
    · simp [folds, evaluates, decided, lit?_of_isConst (apart on)]
    · simpa using still_judgement apart

theorem Still.mono (h : Still s l fold code ty a b) : Still s l false code ty a b := by
  refine ⟨h.ordered, h.merged, ?_⟩
  have simple := h.simple
  cases fold with
  | false => exact simple
  | true => cases code <;> first | exact simple | rfl

/-- What is settled is settled as a predicate. -/
theorem Settled.predicate (h : Settled s l false t) : Settled s l true t := by
  cases h with
  | leaf known => exact .leaf known
  | through => exact .through
  | neg operand single value => exact .neg operand single value
  | not known operand inverts value => exact .not known operand inverts value
  | cvt operand other single value => exact .cvt operand other single value
  | @binary _ code _ _ _ _ known left right value still =>
    refine .binary known left right value ?_
    cases relation : code.isRelation with
    | false => simpa [relation] using still
    | true => simpa [relation] using still.mono
  | select choice judge yes no value => exact .select choice judge yes no value

/-! ### Binary operations with settled operands -/

/-- A binary operation with settled operands, a comparison if `rel` says so. -/
inductive Open (s : Setting) (l : Layout) (rel : Bool) : Tree → Prop
  | two {code : Op} {ty : Ty} {attrs : Attrs} {a b : Tree} (known : code.isBinary = true)
      (kind : rel = true → code.isRelation = true) (left : Settled s l false a)
      (right : Settled s l false b) : Open s l rel (two code ty attrs a b)

/-- What a comparison, or any binary operation, has become: settled it is, or open. -/
def Becoming (s : Setting) (l : Layout) (rel : Bool) (u : Tree) : Prop :=
  Open s l rel u ∨ Settled s l false u ∧ (rel = true → u.isConst = true)

theorem Becoming.mono {rel' : Bool} (h : Becoming s l rel' u) (le : rel = true → rel' = true) :
    Becoming s l rel u := by
  rcases h with ⟨known, kind, left, right⟩ | ⟨settled, const⟩
  · exact .inl (.two known (kind ∘ le) left right)
  · exact .inr ⟨settled, const ∘ le⟩

/-- What is left of a tree of integers whose kids are settled. -/
theorem Remains.settled (h : t.Remains u) (int : t.ty.isFloat = false)
    (kids : ∀ a ∈ t.slots.flatten, Settled s l false a) : Settled s l false u := by
  cases h with
  | value => exact .lit _
  | converted float =>
    rw [int] at float
    cases float
  | operand _ _ mem => exact kids u mem

/-- A truth value is folded to a literal. -/
theorem Remains.isConst (h : t.Remains u) (int : t.ty.isFloat = false)
    (judge : t.code.isJudge = true) : u.isConst = true := by
  cases h with
  | value => rfl
  | converted float =>
    rw [int] at float
    cases float
  | operand _ calm =>
    rw [calm] at judge
    cases judge

theorem Remains.becoming (h : (two code ty attrs a b).Remains u) (int : ty.isFloat = false)
    (left : Settled s l false a) (right : Settled s l false b) :
    Becoming s l code.isRelation u := by
  cases h with
  | value => exact .inr ⟨.lit _, fun _ => rfl⟩
  | converted float =>
    rw [show (two code ty attrs a b).ty = ty from rfl, int] at float
    cases float
  | operand _ calm mem =>
    have plain (relation : code.isRelation = true) : u.isConst = true := by
      have judge : code.isJudge = false := calm
      rw [isJudge_of_isRelation relation] at judge
      cases judge
    rcases (by simpa [slots] using mem : u = a ∨ u = b) with rfl | rfl
    · exact .inr ⟨left, plain⟩
    · exact .inr ⟨right, plain⟩

theorem Step.becoming (h : Step l (two code ty attrs a b) u) (int : ty.isFloat = false)
    (left : Settled s l false a) (right : Settled s l false b)
    (truth : code = .land → s.foldConst = true → b.isConst = false) :
    Becoming s l code.isRelation u := by
  cases h with
  | value => exact .inr ⟨.lit _, fun _ => rfl⟩
  | converted _ float =>
    rw [int] at float
    cases float
  | left _ value =>
    refine .inr ⟨left, fun relation => ?_⟩
    rw [isConst, value (isJudge_of_isRelation relation)]
    rfl
  | commute binary may =>
    obtain ⟨_, _, relation, binary', _⟩ := commuted?_spec ty may
    exact .inl (.two (binary'.trans binary) relation.trans right left)
  | merge _ value associative =>
    have plain (relation : code.isRelation = true) : False := by
      rw [isJudge_of_isRelation relation] at value
      cases value
    cases left with
    | binary known left =>
      exact .inl (.two known (fun relation => (plain relation).elim) left (.lit _))
  | double => exact .inl (.two rfl id left left)
  | shift codes const =>
    rcases codes with ⟨rfl, rfl⟩ | ⟨rfl, rfl⟩ <;>
      exact .inl (.two rfl id left (right.relit const))
  | reciprocal _ const => exact .inl (.two rfl id left (right.relit const))
  | truth =>
    obtain ⟨settled, judge⟩ := right.judged (truth rfl)
    refine .inr ⟨settled.retyped fun cvt => ?_, fun relation => absurd relation Bool.false_ne_true⟩
    rw [cvt] at judge
    cases judge

end Tree

variable {s : Setting} {l : Layout} {r r₀ r' : Region} {n m x : NodeId} {ns₀ : List NodeId}
  {ps : List Piece} {up : Option NodeId} {code : Op} {ty : Ty} {attrs : Attrs} {a b p t u : Tree}
  {pass : Pass} {step : Step} {steps : List Step} {rel whole : Bool} {fuel i : Nat}
  {F : Fault → Prop}

/-- A well-typed term is spelled at `n`. -/
def Standing (l : Layout) (r : Region) (n : NodeId) : Prop := ∃ e ns, Stands .live l r e n ns

theorem Turns.standing {ns : List NodeId} {P : Term → Prop} (h : Turns .live l r ns P m r') :
    Standing l r' m := by
  obtain ⟨e, ns', stands, _⟩ := h
  exact ⟨e, ns', stands⟩

theorem Forest.stood (h : Forest r₀ ns₀ (.tree t n up :: ps) r) (standing : Standing l r n) :
    Stood l t n r :=
  ⟨⟨r₀, ns₀, ps, up, h⟩, standing⟩

theorem Forest.layout_eq (h : Forest r₀ ns₀ ps r) (standing : Standing l r n) : r₀.layout = l := by
  obtain ⟨e, ns, stands⟩ := standing
  exact h.layout.symm.trans stands.layout

/-- In place of the tree at `n` there is a well-typed one with `P`, at `m`. -/
def Ends (l : Layout) (r₀ : Region) (ns₀ : List NodeId) (ps : List Piece) (n : NodeId)
    (up : Option NodeId) (P : Tree → Prop) (m : NodeId) (r : Region) : Prop :=
  ∃ u, P u ∧ Regrown r₀ ns₀ ps n up u m r ∧ Standing l r m

theorem Ends.mono {P Q : Tree → Prop} (h : Ends l r₀ ns₀ ps n up P m r) (weaker : ∀ u, P u → Q u) :
    Ends l r₀ ns₀ ps n up Q m r := by
  obtain ⟨u, known, rest⟩ := h
  exact ⟨u, weaker u known, rest⟩

/-- What a run makes of the tree is made of the tree that it was before. -/
theorem Regrown.ends {α : Type} {run : Edit α} {P : Tree → Prop} (root : α → NodeId)
    (h : Regrown r₀ ns₀ ps n up u m r)
    (next : ∀ up ps, Forest r₀ ns₀ (.tree u m up :: ps) r →
      Meets run r F fun out r' => Ends l r₀ ns₀ ps m up P (root out) r') :
    Meets run r F fun out r' => Ends l r₀ ns₀ ps n up P (root out) r' := by
  rcases h with ⟨rfl, h⟩ | h
  · exact next up ps h
  · refine (next none _ h).to ?_
    rintro out r' ⟨w, known, h, standing⟩
    exact ⟨w, known, h.late, standing⟩

/-! ### Settling a binary operation -/

/-- What is left of a binary operation when no step applies to it any more. -/
inductive Finished (s : Setting) (l : Layout) (whole rel : Bool) : Tree → Prop
  | still {code : Op} {ty : Ty} {attrs : Attrs} {a b : Tree} (known : code.isBinary = true)
      (kind : rel = true → code.isRelation = true) (left : Settled s l false a)
      (right : Settled s l false b) (rests : restless s l whole code ty a b = false) :
      Finished s l whole rel (two code ty attrs a b)
  | settled {u : Tree} (h : Settled s l false u) (const : rel = true → u.isConst = true) :
      Finished s l whole rel u

theorem firstOf_declined {Q : Option NodeId → Region → Prop} (here : Gives (step n) r none) :
    Meets (firstOf (step :: steps) n) r F Q ↔ Meets (firstOf steps n) r F Q := by
  rw [firstOf, meets_bind, here.meets]

theorem firstOf_fired {Q : Option NodeId → Region → Prop}
    (here : Meets (step n) r F fun out r' => out.isSome = true ∧ Q out r') :
    Meets (firstOf (step :: steps) n) r F Q := by
  rw [firstOf]
  refine Meets.bind here fun out r' done => ?_
  cases out with
  | none => cases done.1
  | some m => exact done.2

/-- A step that fires if `c` holds has fired, or the next ones are tried where it was. -/
theorem Guarded.cons {c : Bool} {Q : Option NodeId → Region → Prop} (h : Guarded l step t c)
    (stood : Stood l t n r) (here : c = true → Meets (step n) r (fun _ => True) Q)
    (next : c = false → Meets (Peephole.firstOf steps n) r (fun _ => True) Q) :
    Meets (Peephole.firstOf (step :: steps) n) r (fun _ => True) Q := by
  cases known : c with
  | false =>
    rw [known] at h
    exact (firstOf_declined (h.rests stood)).mpr (next known)
  | true =>
    rw [known] at h
    exact firstOf_fired ((h.fires stood).and (here known))

/-- What a run ends in if it returns, whatever faults it may stop with. -/
theorem Meets.anyway {α : Type} {m : Edit α} {Q : α → Region → Prop} (h : Meets m r F Q) :
    Meets m r (fun _ => True) Q :=
  h.imp (fun _ _ => trivial) fun _ _ => id

/-- The same of what is known to end where the width of a pointer is known. -/
theorem Meets.surely {α : Type} {m : Edit α} {Q : α → Region → Prop}
    (h : Meets m r (Fault.ProperIf True) Q) : Meets m r (fun _ => True) Q :=
  h.anyway

/-- Of two literals, the conjunction is folded. -/
theorem Stood.const_land (h : Stood l b n r) (one : a.isLit 1#64 = true)
    (declined : folds l .land a b = false) : b.isConst = false := by
  rw [h.isConst]
  cases value : b.lit? with
  | none => rfl
  | some w =>
    have literal : a.lit? = some 1#64 := by simpa [isLit] using one
    simp [folds, evaluates, literal, value, intBinary] at declined

/-- A step on a binary operation with settled operands makes something of it that is settled or has
settled operands. -/
theorem settleStep_becoming (known : code.isBinary = true) (left : Settled s l false a)
    (right : Settled s l false b) (kind : whole = false → code.isRelation = true)
    (h : Forest r₀ ns₀ (.tree (two code ty attrs a b) n up :: ps) r) (standing : Standing l r n) :
    Meets (settleStep s pass whole n) r (fun _ => True)
      (Fires r₀ ns₀ ps (two code ty attrs a b) n up (Becoming s l code.isRelation)) := by
  have stood := h.stood standing
  obtain rfl := h.layout_eq standing
  obtain ⟨x, y, d, dx, dy, p⟩ := stood.couple known
  have formed := stood.spelled.formed
  have int : ty.isFloat = false := (Ty.kind_of_isSmall stood.small).1
  let own : Setting := { s with foldConst := s.foldConst && whole }
  have asked (on : own.foldConst = true) : s.foldConst = true := (Bool.and_eq_true_iff.mp on).1
  have code' : d.code = code := p.tops.code
  have folding : Guarded r₀.layout (foldStep own) (two code ty attrs a b) _ :=
    foldStep_guarded known left right asked
  have coercing : Guarded r₀.layout (coerceStep s pass) (two code ty attrs a b) _ :=
    coerceStep_guarded known
  rw [settleStep, meets_bind, (Gives.node p.node).meets, code', known]
  refine folding.cons stood (fun fires => ?_) fun declined => ?_
  · obtain ⟨on, _⟩ := Bool.and_eq_true_iff.mp fires
    refine (foldStep_two known left right (asked on) on stood).mpr
      (h.foldNode formed).anyway |>.to ?_
    exact fun _ _ out => out.2.mono fun u rests => rests.2.becoming int left right
  refine (commuteStep_guarded known).cons stood (fun fires => ?_) fun _ => ?_
  · refine (h.commuteStep formed known).anyway.to fun _ _ out => out.1.mono fun u step => ?_
    exact step.1.becoming int left right fun land => by rw [land] at fires; cases fires
  refine (mergeStep_guarded (s := s) known).cons stood (fun fires => ?_) fun _ => ?_
  · refine (h.mergeStep formed known).anyway.to fun _ _ out => out.mono fun u step => ?_
    refine step.1.becoming int left right fun land => ?_
    rw [land] at fires
    simp [Op.mergesConstants, Op.isCommutative] at fires
  refine (identityStep_guarded (s := own) known).cons stood (fun fires => ?_) fun _ => ?_
  · refine (h.identityStep formed known).anyway.to fun _ _ out => out.mono fun u step => ?_
    refine step.becoming int left right fun land on => ?_
    subst land
    have entire : whole = true := by
      cases whole with
      | true => rfl
      | false => cases kind rfl
    refine p.rightStood.const_land fires ?_
    simpa [own, on, entire] using declined
  have never {P : Prop} (off : false = true) : P := Bool.noConfusion off
  exact (phiStep_guarded known).cons stood never fun _ => coercing.cons stood never fun _ => h

theorem settleStep_settled (settled : Settled s l false t) (stood : Stood l t n r)
    (plain : whole = false → t.isConst = true) : Gives (settleStep s pass whole n) r none := by
  obtain ⟨d, found, tops, _⟩ := stood.node
  cases binary : t.code.isBinary with
  | false =>
    refine (Gives.node (Region.node_of found)).bind ?_
    rw [tops.code, binary]
    rfl
  | true =>
    cases whole with
    | false =>
      rw [isConst, beq_iff_eq] at plain
      exact absurd (plain rfl) (isBinary_ne binary).1
    | true =>
      obtain ⟨code, ty, attrs, a, b, rfl⟩ := stood.spelled.exists_two binary
      exact settleStep_rests settled stood

theorem repeatStep_idle (here : Gives (step n) r none) : Gives (repeatStep step (fuel + 1) n) r
    (n, false) :=
  here.bind rfl

theorem settleStep_standing (standing : Standing l r n) :
    Meets (settleStep s pass whole n) r (fun _ => True) fun out r' =>
      ∀ m, out = some m → Standing l r' m := by
  obtain ⟨e, ns, stands⟩ := standing
  refine (settleStep_sound r n ns stands).anyway.to ?_
  rintro out r' stepped m rfl
  exact Turns.standing stepped

/-- The steps on a binary operation end when none applies. -/
theorem repeatStep_finishes (kind : whole = false → rel = true) (start : Becoming s l rel t)
    (h : Forest r₀ ns₀ (.tree t n up :: ps) r) (standing : Standing l r n) :
    Meets (repeatStep (settleStep s pass whole) fuel n) r (fun _ => True) fun out r' =>
      Ends l r₀ ns₀ ps n up (Finished s l whole rel) out.1 r' := by
  induction fuel generalizing t n up ps r with
  | zero => trivial
  | succ fuel ih =>
    have stood := h.stood standing
    rcases start with ⟨known, compares, left, right⟩ | ⟨settled, const⟩
    · rename_i code ty attrs a b
      cases more : restless s l whole code ty a b with
      | false =>
        have guarded : Guarded l (settleStep s pass whole) (two code ty attrs a b) _ :=
          settleStep_guarded known left right
        rw [more] at guarded
        rw [(repeatStep_idle (guarded.rests stood)).meets]
        exact ⟨_, .still known compares left right more, .here h, standing⟩
      | true =>
        have guarded : Guarded l (settleStep s pass whole) (two code ty attrs a b) _ :=
          settleStep_guarded known left right
        rw [more] at guarded
        rw [repeatStep]
        refine Meets.bind (((settleStep_becoming known left right (compares ∘ kind) h
          standing).and (settleStep_standing standing)).and (guarded.fires stood)) ?_
        rintro out r₁ ⟨⟨fires, stands⟩, some⟩
        obtain ⟨m, rfl⟩ := Option.isSome_iff_exists.mp some
        obtain ⟨u, becoming, regrown⟩ := fires
        have next := regrown.ends Prod.fst fun up ps h =>
          ih (becoming.mono compares) h (stands m rfl)
        exact Meets.bind next fun _ _ => id
    · rw [(repeatStep_idle (settleStep_settled settled stood (const ∘ kind))).meets]
      exact ⟨_, .settled settled const, .here h, standing⟩

theorem settle_finishes (kind : whole = false → rel = true) (start : Becoming s l rel t)
    (h : Forest r₀ ns₀ (.tree t n up :: ps) r) (standing : Standing l r n) :
    Meets (settle s pass whole n) r (fun _ => True) fun out r' =>
      Ends l r₀ ns₀ ps n up (Finished s l whole rel) out.1 r' := by
  rw [settle, meets_bind, meets_get]
  exact repeatStep_finishes kind start h standing

/-- What is finished as a whole is settled. -/
theorem Finished.settles (h : Finished s l true rel u) : Settled s l false u ∧
    (rel = true → u.isConst = true ∨ u.code.isRelation = true) := by
  cases h with
  | still known kind left right rests =>
    obtain ⟨value, still⟩ := restless_eq_false.mp rests
    refine ⟨.binary known left right (fun on => value on rfl) (by simpa using still), fun yes => ?_⟩
    exact .inr (kind yes)
  | settled h const => exact ⟨h, fun yes => .inl (const yes)⟩

/-! ### Refining operands -/

/-- At trees of at most that size, the pass keeps what they stand for and ends in settled ones. -/
structure Normalizes (s : Setting) (l : Layout) (pass : Pass) (bound : Nat) : Prop where
  refines : ∀ e : Term, e.size ≤ bound → Refining .live l pass e
  settles : ∀ r₀ ns₀ ps t n up r, t.size ≤ bound → Forest r₀ ns₀ (.tree t n up :: ps) r →
    Standing l r n → Meets (pass n) r (fun _ => True) fun out r' =>
      Ends l r₀ ns₀ ps n up (Settled s l false) out.1 r'

/-- The operand in a slot stands at a place of the term. -/
theorem Stands.place {e : Term} {ns : List NodeId} (h : Stands .live l r e n ns)
    (direct : e.code ≠ .ild) (kid : r.kid n i = .ok x) :
    ∃ place a below, e = Place.fill place a ∧ place.slot = i ∧ Stands .live l r a x below := by
  have leaf {ty : Ty} {attrs : Attrs} {code : Op}
      (shape : r.shape true n = some (.fresh code ty attrs [])) : False := by
    obtain ⟨_, _, found, _⟩ := Region.node?_of_shape shape
    simp [Region.kid, Region.node_of found, Node.slot, bind, Except.bind] at kid
  have place (place : Place) (a : Term) (same : e = place.fill a) (slot : place.slot = i) :
      ∃ place a below, e = Place.fill place a ∧ place.slot = i ∧ Stands .live l r a x below := by
    subst same slot
    obtain ⟨below, stands, _⟩ := h.focus place kid
    exact ⟨place, a, below, rfl, rfl, stands⟩
  cases e with
  | lit ty v =>
    obtain ⟨_, attrs, shape, _⟩ := h.spells
    exact (leaf shape).elim
  | reg ty q =>
    obtain ⟨_, attrs, shape, _⟩ := h.spells
    exact (leaf shape).elim
  | load ty v ofst =>
    obtain ⟨_, attrs, shape, _⟩ := h.spells
    exact (leaf shape).elim
  | indirect ty v base ofst => exact absurd rfl direct
  | through ty q ofst => exact absurd rfl direct
  | unary op ty a =>
    obtain ⟨_, k, below, attrs, _, shape, _⟩ := h.spells
    obtain ⟨_, _, found, _⟩ := Region.node?_of_shape shape
    rcases i with _ | i
    · exact place (.operand op ty) a rfl rfl
    · simp [Region.kid, Region.node_of found, Node.slot, bind, Except.bind] at kid
  | binary op ty a b =>
    obtain ⟨_, _, _, _, _, attrs, _, shape, _⟩ := h.spells
    obtain ⟨_, _, found, _⟩ := Region.node?_of_shape shape
    rcases i with _ | _ | i
    · exact place (.left op ty b) a rfl rfl
    · exact place (.right op ty a) b rfl rfl
    · simp [Region.kid, Region.node_of found, Node.slot, bind, Except.bind] at kid
  | select ty p a b =>
    obtain ⟨_, _, _, _, _, _, _, attrs, _, shape, _⟩ := h.spells
    obtain ⟨_, _, found, _⟩ := Region.node?_of_shape shape
    rcases i with _ | _ | _ | i
    · exact place (.pred ty a b) p rfl rfl
    · exact place (.yes ty p b) a rfl rfl
    · exact place (.no ty p a) b rfl rfl
    · simp [Region.kid, Region.node_of found, Node.slot, bind, Except.bind] at kid

theorem Forest.code_ne_ild {e : Term} {ns : List NodeId} {slots : List (List Tree)}
    (h : Forest r₀ ns₀ (.tree (.node code ty attrs slots) n up :: ps) r) (direct : code ≠ .ild)
    (stands : Stands .live l r e n ns) : e.code ≠ .ild := by
  obtain ⟨_, _, _, _, same, _⟩ := h.reads List.mem_cons_self stands
  exact fun ild => direct (same.trans ild)

/-- The one tree in a slot, and the term it stands for. -/
theorem Forest.operand {slots : List (List Tree)}
    (h : Forest r₀ ns₀ (.tree (.node code ty attrs slots) n up :: ps) r)
    (found : slots[i]? = some [a]) (direct : code ≠ .ild) (standing : Standing l r n) :
    ∃ k place e ns, r.kid n i = .ok k ∧ Stood l a k r ∧ place.slot = i ∧ e.size = a.size ∧
      Stands .live l r (Place.fill place e) n ns ∧ Standing l r k := by
  obtain ⟨e, ns, stands⟩ := standing
  obtain ⟨ids, ks, fits, slot, lengths, split⟩ := h.splitSlot found
  obtain ⟨k, rfl⟩ := List.length_eq_one_iff.mp lengths.symm
  obtain ⟨_, _, _, at_n⟩ := Region.node?_of_core (split.stub_found List.mem_cons_self)
  have kid := Region.kid_of at_n slot
  obtain ⟨place, e₀, below, rfl, at_i, stands₀⟩ := stands.place (h.code_ne_ild direct stands) kid
  have size := (split.swap.spelled stands₀.typed stands₀.spells).2
  exact ⟨k, place, e₀, ns, kid, split.swap.stood ⟨e₀, below, stands₀⟩, at_i, size.symm, stands,
    e₀, below, stands₀⟩

/-- Refining the tree in a slot. -/
theorem refineSlot_settles {bound : Nat} {slots : List (List Tree)}
    (below : Normalizes s l pass bound) (found : slots[i]? = some [a]) (small : a.size ≤ bound)
    (direct : code ≠ .ild) (h : Forest r₀ ns₀ (.tree (.node code ty attrs slots) n up :: ps) r)
    (standing : Standing l r n) :
    Meets (refineSlot pass n i) r (fun _ => True) fun _ r' => ∃ u, Settled s l false u ∧
      Forest r₀ ns₀ (.tree (.node code ty attrs (slots.set i [u])) n up :: ps) r' ∧
        Standing l r' n := by
  obtain ⟨k, place, e, ns, kid, _, rfl, size, stands, standing⟩ := h.operand found direct standing
  have trees : Meets (refineSlot pass n place.slot) r (fun _ => True) _ :=
    h.refineKid (Q := fun _ _ u => Settled s l false u) found fun k' ps kid' h => by
      obtain rfl : k = k' := Except.ok.inj (kid.symm.trans kid')
      refine (below.settles _ _ _ _ _ _ _ small h standing).to ?_
      rintro out r' ⟨u, settled, regrown, _⟩
      exact ⟨u, settled, regrown⟩
  have terms := refineSlot_refining place stands (below.refines e (size ▸ small))
  refine (trees.and terms.anyway).to ?_
  rintro _ r' ⟨⟨_, _, u, _, settled, h⟩, turned⟩
  exact ⟨u, settled, h, turned.standing⟩

theorem refineBinary_finishes {bound : Nat} (below : Normalizes s l pass bound)
    (known : code.isBinary = true) (kind : whole = false → code.isRelation = true)
    (smallA : a.size ≤ bound) (smallB : b.size ≤ bound)
    (h : Forest r₀ ns₀ (.tree (two code ty attrs a b) n up :: ps) r) (standing : Standing l r n) :
    Meets (refineBinary s pass whole n) r (fun _ => True) fun out r' =>
      Ends l r₀ ns₀ ps n up (Finished s l whole code.isRelation) out.1 r' := by
  have direct : code ≠ .ild := by
    rintro rfl
    cases known
  refine Meets.bind (refineSlot_settles below (i := 0) rfl smallA direct h standing) ?_
  rintro _ r₁ ⟨a', left, h, standing⟩
  refine Meets.bind (refineSlot_settles below (i := 1) rfl smallB direct h standing) ?_
  rintro _ r₂ ⟨b', right, h, standing⟩
  exact Meets.bind (settle_finishes kind (.inl (.two known id left right)) h standing) fun _ _ => id

/-! ### Negations -/

/-- Folding where it comes down to one node, at which it applies if `c` holds. -/
theorem foldIfAsked_told (here : s.foldConst = true → ∀ Q : NodeId × Bool → Region → Prop,
      Meets (foldTree s n) r (fun _ => True) Q ↔ Meets (foldNode s n) r (fun _ => True)
        fun out r' => Q (out.elim (n, false) (·, true)) r')
    (guarded : Guarded l (foldNode s) t c) (h : Forest r₀ ns₀ (.tree t n up :: ps) r)
    (standing : Standing l r n) :
    Meets (foldIfAsked s n) r (fun _ => True) fun out r' =>
      out = (n, false) ∧ r' = r ∧ (s.foldConst = true → c = false) ∨
        out.2 = true ∧ ∃ u, t.Remains u ∧ Regrown r₀ ns₀ ps n up u out.1 r' := by
  have stood := h.stood standing
  unfold foldIfAsked
  by_cases on : s.foldConst = true
  · rw [if_pos on, here on]
    cases c with
    | false =>
      rw [(guarded.rests stood).meets]
      exact .inl ⟨rfl, rfl, fun _ => rfl⟩
    | true =>
      refine ((guarded.fires stood).and (h.foldNode stood.spelled.formed).anyway).to ?_
      rintro out r' ⟨some, _, done⟩
      obtain ⟨m, rfl⟩ := Option.isSome_iff_exists.mp some
      obtain ⟨u, remains, regrown⟩ := done
      exact .inr ⟨rfl, u, remains.2, regrown⟩
  · rw [if_neg on]
    exact .inl ⟨rfl, rfl, fun yes => absurd yes on⟩

theorem foldIfAsked_negation (unary : code = .neg ∨ code = .lnot ∨ code = .bnot)
    (operand : Settled s l false a) (h : Forest r₀ ns₀ (.tree (one code ty attrs a) n up :: ps) r)
    (standing : Standing l r n) :
    Meets (foldIfAsked s n) r (fun _ => True) fun out r' =>
      out = (n, false) ∧ r' = r ∧ (s.foldConst = true → a.lit? = none) ∨
        out.2 = true ∧ ∃ u, Settled s l false u ∧ (code.isJudge = true → u.isConst = true) ∧
          Regrown r₀ ns₀ ps n up u out.1 r' := by
  have stood := h.stood standing
  have int : ty.isFloat = false := (Ty.kind_of_isSmall stood.small).1
  have unary' : code.isUnary = true := by rcases unary with rfl | rfl | rfl <;> rfl
  have guarded : Guarded l (foldNode s) (one code ty attrs a) _ := foldNode_guarded_unary unary
  refine (foldIfAsked_told (fun on Q => foldTree_one unary' operand on stood) guarded h
    standing).to ?_
  rintro out r' (⟨same, same', value⟩ | ⟨fired, u, remains, regrown⟩)
  · refine .inl ⟨same, same', fun on => ?_⟩
    simpa using value on
  · refine .inr ⟨fired, u, remains.settled int ?_, remains.isConst int, regrown⟩
    simpa [slots] using operand

/-- What a pass makes of a tree, with the term that it stands for. -/
theorem Refining.ends {e : Term} {ns : List NodeId} {P : Tree → Prop}
    (refining : Refining .live l pass e) (stands : Stands .live l r e n ns)
    (trees : Meets (pass n) r (fun _ => True) fun out r' =>
      ∃ u, P u ∧ Regrown r₀ ns₀ ps n up u out.1 r') :
    Meets (pass n) r (fun _ => True) fun out r' => Ends l r₀ ns₀ ps n up P out.1 r' := by
  refine (trees.and (refining r n ns stands).anyway).to ?_
  rintro out r' ⟨⟨u, holds, regrown⟩, turned⟩
  exact ⟨u, holds, regrown, turned.standing⟩

/-- The term of a unary tree. -/
theorem Forest.unaryTerm (h : Forest r₀ ns₀ (.tree (one code ty attrs a) n up :: ps) r)
    (unary : code.isUnary = true) (standing : Standing l r n) :
    ∃ e ns, Stands .live l r (.unary code ty e) n ns ∧ e.size = a.size := by
  obtain ⟨e, ns, stands⟩ := standing
  obtain ⟨d, found, tops, reads, code', ty'⟩ := h.reads List.mem_cons_self stands
  obtain ⟨op, q, x, rfl⟩ := exists_unary stands.typed (code' ▸ unary)
  obtain rfl : code = op := code'
  obtain rfl : ty = q := ty'
  have size := (h.spelled stands.typed stands.spells).2
  rw [size_one, Term.size] at size
  exact ⟨x, ns, stands, by omega⟩

theorem Stood.code_eq {e : Term} {ns : List NodeId} (h : Stood l t n r)
    (stands : Stands .live l r e n ns) : t.code = e.code := by
  obtain ⟨_, _, _, _, forest⟩ := h.drawn
  obtain ⟨_, _, _, _, same, _⟩ := forest.reads List.mem_cons_self stands
  exact same

/-- A negation that is not inverted is folded or stays. -/
theorem foldIfAsked_not (unary : code = .lnot ∨ code = .bnot) (operand : Settled s l false a)
    (inverts : code = .lnot → a.code.inverted? = none)
    (h : Forest r₀ ns₀ (.tree (one code ty attrs a) n up :: ps) r) (standing : Standing l r n) :
    Meets (foldIfAsked s n) r (fun _ => True) fun out r' => ∃ u,
      (Settled s l false u ∧ (code = .lnot → u.code ≠ .cvt)) ∧
        Regrown r₀ ns₀ ps n up u out.1 r' := by
  refine (foldIfAsked_negation (.inr unary) operand h standing).to ?_
  rintro out r' (⟨rfl, rfl, value⟩ | ⟨_, u, settled, const, regrown⟩)
  · have settled : Settled s l false (one code ty attrs a) := .not unary operand inverts value
    refine ⟨_, ⟨settled, ?_⟩, .here h⟩
    rintro rfl cvt
    cases cvt
  · refine ⟨u, ⟨settled, ?_⟩, regrown⟩
    rintro rfl cvt
    have value := const rfl
    rw [isConst, cvt] at value
    cases value

/-- The negation of a comparison has become the inverted comparison. -/
theorem settleInverted_settles {c c' : Op} {q : Ty} {attrs' : Attrs} (pass : Pass)
    (up : Option NodeId) (inverts : c.inverted? = some c') (left : Settled s l false a)
    (right : Settled s l false b)
    (h : Forest r₀ ns₀ (.tree (two c' q attrs' a b) x none :: .gone n :: ps) r)
    (standing : Standing l r x) :
    Meets (do
      let (new, _) ← settle s pass true x
      return (← retype s new (.scalar .bool), true)) r (fun _ => True) fun out r' => ∃ u,
      (Settled s l false u ∧ u.code ≠ .cvt) ∧ Regrown r₀ ns₀ ps n up u out.1 r' := by
  obtain ⟨_, _, same, same', _, _, _, binary⟩ := inverted?_spec q inverts
  have relation : c'.isRelation = true := same.trans (Term.isRelation_of_inverted inverts).1
  have start : Becoming s l true (two c' q attrs' a b) :=
    .inl (.two (same'.trans binary) (fun _ => relation) left right)
  refine Meets.bind (settle_finishes nofun start h standing) ?_
  rintro ⟨k, _⟩ r₁ ⟨u, finished, regrown, _⟩
  obtain ⟨settled, kind⟩ := finished.settles
  have plain : u.code ≠ .cvt := by
    intro cvt
    rcases kind rfl with const | compares
    · rw [isConst, cvt] at const
      cases const
    · rw [cvt] at compares
      cases compares
  refine Meets.bind regrown.loose.retype.anyway ?_
  rintro k' r₂ ⟨up', loose, h⟩
  rw [loose rfl] at h
  refine ⟨_, ⟨settled.retyped plain, ?_⟩, .moved h⟩
  rw [Tree.retyped, if_pos (by simp [Ty.isBool])]
  exact plain

/-- A negation with a settled operand is settled. That of a truth value ends in no conversion. -/
theorem settleNot_settles (unary : code = .lnot ∨ code = .bnot) (operand : Settled s l false a)
    (h : Forest r₀ ns₀ (.tree (one code ty attrs a) n up :: ps) r) (standing : Standing l r n) :
    Meets (settleNot s pass n) r (fun _ => True) fun out r' => Ends l r₀ ns₀ ps n up
      (fun u => Settled s l false u ∧ (code = .lnot → u.code ≠ .cvt)) out.1 r' := by
  have unary' : code.isUnary = true := by rcases unary with rfl | rfl <;> rfl
  have stood := h.stood standing
  obtain ⟨x, d, dx, p⟩ := stood.single unary'
  obtain ⟨e, ns, stands, _⟩ := h.unaryTerm unary' standing
  refine settleNot_refining.ends stands ?_
  have code' : d.code = code := p.tops.code
  have ty' : d.ty = ty := p.tops.ty
  rw [settleNot]
  simp only [meets_bind, (Gives.kid p.kid).meets, (Gives.node p.operandNode).meets,
    (Gives.node p.node).meets, code', ty', p.operandTops.code]
  rcases unary with rfl | rfl
  · cases inverts : a.code.inverted? with
    | none => exact foldIfAsked_not (.inl rfl) operand (fun _ => inverts) h standing
    | some inverted =>
      have binary := (inverted?_spec ty inverts).2.2.2.2.2.2.2
      obtain ⟨c, q, attrs', y, z, rfl⟩ := p.stood.spelled.exists_two binary
      obtain ⟨x', split⟩ := h.splitOne
      obtain ⟨_, _, _, found⟩ := Region.node?_of_core (split.stub_found List.mem_cons_self)
      obtain rfl : x = x' := Except.ok.inj (p.kid.symm.trans (Region.kid_of found (i := 0) rfl))
      obtain ⟨k, _, _, _, _, kid, stands', _⟩ := stands.operand
      obtain rfl : x = k := Except.ok.inj (p.kid.symm.trans kid)
      have inverts' : e.code.inverted? = some inverted := p.stood.code_eq stands' ▸ inverts
      have inverting := (split.invertOperand inverts).surely.and
        (invertOperand_meets stands kid inverts').anyway
      simp only [meets_bind] at inverting ⊢
      refine inverting.to fun _ r₁ h => h.to fun _ r₂ h => h.to fun _ r₃ h => h.to ?_
      rintro _ r₄ ⟨h₄, rfl, turned⟩
      cases operand with
      | binary _ left right =>
        have rest := settleInverted_settles pass up inverts left right h₄ turned.standing
        simp only [meets_bind] at rest
        exact rest.to fun _ _ h => h.to fun _ _ ⟨u, ⟨settled, plain⟩, regrown⟩ =>
          ⟨u, ⟨settled, fun _ => plain⟩, regrown⟩
  · exact foldIfAsked_not (.inr rfl) operand nofun h standing

theorem refineNot_settles {bound : Nat} (below : Normalizes s l pass bound)
    (unary : code = .lnot ∨ code = .bnot) (small : a.size ≤ bound)
    (h : Forest r₀ ns₀ (.tree (one code ty attrs a) n up :: ps) r) (standing : Standing l r n) :
    Meets (refineNot s pass n) r (fun _ => True) fun out r' =>
      Ends l r₀ ns₀ ps n up (Settled s l false) out.1 r' := by
  have direct : code ≠ .ild := by rcases unary with rfl | rfl <;> nofun
  refine Meets.bind (refineSlot_settles below (i := 0) rfl small direct h standing) ?_
  rintro _ r₁ ⟨a', operand, h, standing⟩
  refine Meets.bind (settleNot_settles unary operand h standing) fun out r₂ ends => ?_
  exact ends.mono fun _ => And.left

theorem refineNeg_settles {bound : Nat} (below : Normalizes s l pass bound)
    (small : a.size ≤ bound) (h : Forest r₀ ns₀ (.tree (one .neg ty attrs a) n up :: ps) r)
    (standing : Standing l r n) :
    Meets (refineNeg s pass n) r (fun _ => True) fun out r' =>
      Ends l r₀ ns₀ ps n up (Settled s l false) out.1 r' := by
  obtain ⟨e, ns, stands, size⟩ := h.unaryTerm rfl standing
  refine (refineNeg_refining (below.refines e (size ▸ small))).ends stands ?_
  have direct : Op.neg ≠ .ild := nofun
  refine Meets.bind (refineSlot_settles below (i := 0) rfl small direct h standing) ?_
  rintro _ r₁ ⟨a', operand, h, standing⟩
  refine Meets.bind (foldIfAsked_negation (.inl rfl) operand h standing) ?_
  rintro ⟨m, changed⟩ r₂ (⟨same, rfl, value⟩ | ⟨rfl, u, settled, _, regrown⟩)
  · obtain ⟨rfl, rfl⟩ := Prod.mk.inj same
    have spelled : (one .neg ty attrs a').Spelled := (h.stood standing).spelled
    obtain ⟨x, split⟩ := h.splitOne
    obtain ⟨_, _, _, found⟩ := Region.node?_of_core (split.stub_found List.mem_cons_self)
    obtain ⟨dx, at_x, tops, _⟩ : ∃ d, r₂.node? x = some d ∧ Tops d a' ∧ _ :=
      split.node (List.mem_cons_of_mem _ List.mem_cons_self)
    simp only [Bool.false_eq_true, if_false, meets_bind,
      (Gives.kid (Region.kid_of found (i := 0) rfl)).meets,
      (Gives.node (Region.node_of at_x)).meets, tops.code]
    by_cases double : a'.code = .neg
    · obtain ⟨c, q, attrs', b, rfl⟩ := (spelled.operand direct).exists_one (double ▸ rfl)
      obtain rfl : c = .neg := double
      rw [if_neg (not_not.mpr (show (one .neg q attrs' b).code = .neg from rfl))]
      refine split.dropNegations.surely.to ?_
      rintro ⟨k, _⟩ r₃ ⟨_, h⟩
      exact ⟨b, operand.operand, .moved h⟩
    · rw [if_pos double]
      exact ⟨_, .neg operand double value, .here h⟩
  · exact ⟨u, settled, regrown⟩

/-! ### Conversions -/

theorem dropInnerCvt_fires {d operand : Node} (p : Single l r .cvt ty attrs a n x d operand)
    (keeps : a.keeps l = true) :
    Meets (dropInnerCvt n) r (fun _ => True) fun dropped _ => dropped = true := by
  unfold Tree.keeps at keeps
  split at keeps
  · obtain ⟨y, _, inner, c⟩ := p.stood.single rfl
    have code : operand.code = .cvt := p.operandTops.code
    have ty' : operand.ty = _ := p.operandTops.ty
    have keeps' : keepsValues l inner.ty operand.ty = true := by
      rw [c.operandTops.ty, ty']
      exact keeps
    simp only [dropInnerCvt, Edit.layout, meets_bind, (Gives.kid p.kid).meets,
      (Gives.node p.operandNode).meets, code, ne_eq, not_true_eq_false, if_false,
      (Gives.kid c.kid).meets, (Gives.node c.operandNode).meets, meets_get, meets_pure, c.layout,
      keeps', Bool.not_true, Bool.false_eq_true]
    exact Meets.all (fun _ => trivial) fun _ _ => Meets.all (fun _ => trivial) fun _ _ =>
      Meets.all (fun _ => trivial) fun _ _ => Meets.all (fun _ => trivial) fun _ _ =>
      Meets.all (fun _ => trivial) fun _ _ => trivial
  · cases keeps

/-- Below a conversion no conversion is left that keeps all values. -/
theorem dropInnerCvt_settles (operand : Settled s l false a)
    (h : Forest r₀ ns₀ (.tree (one .cvt ty attrs a) n up :: ps) r) (standing : Standing l r n) :
    Meets (dropInnerCvt n) r (fun _ => True) fun _ r' => ∃ a', Settled s l false a' ∧
      a'.keeps l = false ∧ Forest r₀ ns₀ (.tree (one .cvt ty attrs a') n up :: ps) r' ∧
        Standing l r' n := by
  have stood := h.stood standing
  obtain ⟨x, d, dx, p⟩ := stood.single rfl
  obtain ⟨e, ns, stands, _⟩ := h.unaryTerm rfl standing
  cases keeps : a.keeps l with
  | false =>
    rw [(dropInnerCvt_rests p keeps).meets]
    exact ⟨a, operand, keeps, h, standing⟩
  | true =>
    refine (((h.dropInnerCvt stood.spelled.formed).surely.and
      (dropInnerCvt_fires p keeps)).and (dropInnerCvt_meets stands).anyway).to ?_
    rintro _ r' ⟨⟨⟨a', becomes, origin, h'⟩, rfl⟩, turned⟩
    rcases origin with rfl | ⟨q, attrs', rfl⟩
    · have lower := becomes.lowers trivial
      simp only [Lowers, Bool.toNat_true] at lower
      omega
    · cases operand with
      | cvt inner _ single => exact ⟨a', inner, single, h', turned.standing⟩
      | not known => rcases known with known | known <;> cases known

theorem refineCvt_settles {bound : Nat} (below : Normalizes s l pass bound)
    (small : a.size ≤ bound) (h : Forest r₀ ns₀ (.tree (one .cvt ty attrs a) n up :: ps) r)
    (standing : Standing l r n) :
    Meets (refineCvt s pass n) r (fun _ => True) fun out r' =>
      Ends l r₀ ns₀ ps n up (Settled s l false) out.1 r' := by
  obtain ⟨e, ns, stands, size⟩ := h.unaryTerm rfl standing
  refine (refineCvt_refining (below.refines e (size ▸ small))).ends stands ?_
  have direct : Op.cvt ≠ .ild := nofun
  refine Meets.bind (refineSlot_settles below (i := 0) rfl small direct h standing) ?_
  rintro _ r₁ ⟨a', operand, h, standing⟩
  refine Meets.bind (dropInnerCvt_settles operand h standing) ?_
  rintro _ r₂ ⟨b, operand, single, h, standing⟩
  have stood := h.stood standing
  obtain ⟨x, d, dx, p⟩ := stood.single rfl
  have type : d.ty = ty := p.tops.ty
  simp only [meets_bind, (Gives.kid p.kid).meets, (Gives.node p.node).meets, type,
    (Gives.node p.operandNode).meets, p.operandTops.ty]
  by_cases same : b.ty = ty
  · rw [if_pos same, meets_bind]
    refine (h.fired _).to fun _ r₃ h => ?_
    exact Meets.bind (h.spliceKid (i := 0) rfl).anyway fun _ _ h => ⟨b, operand, .moved h⟩
  rw [if_neg same]
  have guarded : Guarded l (foldCvt s ty) (one .cvt ty attrs b) _ := foldCvt_guarded
  by_cases on : s.foldConst = true
  · rw [if_pos on, meets_bind]
    cases value : b.lit? with
    | none =>
      rw [value] at guarded
      rw [(guarded.rests stood).meets]
      exact ⟨_, .cvt operand same single fun _ => value, .here h⟩
    | some v =>
      rw [value] at guarded
      refine ((guarded.fires stood).and
        (h.foldCvt stood.spelled.formed).surely).to ?_
      rintro out r₃ ⟨some, done⟩
      obtain ⟨m, rfl⟩ := Option.isSome_iff_exists.mp some
      obtain ⟨u, ⟨_, _, _, attrs', rfl⟩, regrown⟩ := done
      obtain ⟨q, attrs'', rfl⟩ := operand.spelled.const_leaf (lit?_const value)
      exact ⟨_, .leaf (.inl rfl), regrown⟩
  · rw [if_neg on]
    exact ⟨_, .cvt operand same single fun yes => absurd yes on, .here h⟩

/-! ### Indirect loads -/

/-- The term of a load through an address. -/
theorem Forest.indirectTerm {q : Ty} {attrs' : Attrs} {e : Term} {ns : List NodeId}
    (h : Forest r₀ ns₀ (.tree (one .ild ty attrs (leaf .lda q attrs')) n up :: ps) r)
    (stands : Stands .live l r e n ns) : ∃ t v base ofst, e = .indirect t v base ofst := by
  have same : e.code = .ild := ((h.stood ⟨e, ns, stands⟩).code_eq stands).symm
  cases e with
  | indirect t v base ofst => exact ⟨t, v, base, ofst, rfl⟩
  | through t v ofst =>
    obtain ⟨_, k, _, ⟨_, shape, _⟩, _, _, pointer, _⟩ := stands.spells
    obtain ⟨x, split⟩ := h.splitOne
    obtain rfl : x = k := by simpa using split.stub_slots shape
    obtain ⟨_, other, _⟩ := split.swap.shaped List.mem_cons_self pointer
    cases other
  | unary op t a =>
    obtain rfl : op = .ild := same
    cases (Term.typed_unary.mp stands.typed).2
  | binary op t a b =>
    obtain rfl : op = .ild := same
    cases (Term.typed_binary.mp stands.typed).2.2.2
  | _ => cases same

theorem refineIndirectLoad_settles {v : VarId} {base ofst : Int} {ns : List NodeId}
    (address : ∀ r k d, r.node k = .ok d → d.code = .lda → Gives (pass k) r (k, false))
    (h : Forest r₀ ns₀ (.tree t n up :: ps) r)
    (stands : Stands .live l r (.indirect ty v base ofst) n ns) :
    Meets (refineIndirectLoad pass n) r (fun _ => True) fun out r' =>
      Ends l r₀ ns₀ ps n up (Settled s l false) out.1 r' := by
  have refining : Refining .live l (refineIndirectLoad pass) (.indirect ty v base ofst) :=
    refineIndirectLoad_refining fun r k d found code =>
      (address r k d found code).meets.mpr ⟨rfl, rfl⟩
  refine refining.ends stands ?_
  obtain ⟨_, k, _, ⟨_, shape, _⟩, _, _, shape', var, _⟩ := stands.spells
  obtain ⟨_, _, found, _⟩ := Region.node?_of_shape shape
  obtain ⟨_, _, found', _⟩ := Region.node?_of_shape shape'
  have kid : r.kid n 0 = .ok k := Region.kid_of found rfl
  have slot := refineSlot_rests kid (address r k _ (Region.node_of found') rfl)
  rw [refineIndirectLoad, meets_bind, slot.meets, meets_bind, (Gives.kid kid).meets, meets_bind,
    (Gives.node (Region.node_of found')).meets]
  simp only [addressTarget?, if_true, var, Option.map_some]
  rw [meets_bind, (Gives.node (Region.node_of found)).meets, meets_bind, meets_lift]
  refine Yields.imp Region.addOffsets_answers (fun _ _ => trivial) fun sum _ _ => ?_
  refine h.loadDirectly.surely.to ?_
  rintro ⟨ld, _⟩ r' ⟨_, regrown⟩
  exact ⟨_, .leaf (.inr (.inr rfl)), regrown⟩

end Peephole
