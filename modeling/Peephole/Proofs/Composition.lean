import Peephole.Proofs.Agreement
import Peephole.Proofs.Quiet

/-!
# How refinement is composed

Refinement acts on a region by few means. It asks questions, none of which looks at the parents of
nodes while expressions are refined; it notes events and types; and it changes nodes and their links
by a handful of edits. `Composed` says so of an edit together with the edit in its place under
another setting: both are put together alike from the same parts. What all parts have, the whole
has, by one induction on `Composed`.

On the way account is kept of changes. `Composed x c m m' Q` starts from the mark `c`, which only a
change may alter, and `Q` relates the mark in the end to the result. A result that reports no change
is to leave the mark as it was.
-/

namespace Peephole

open Edit

/-- The operations of nodes that read or define a static single assignment value. -/
def Op.carriesValue (code : Op) : Bool := code == .pr || code == .phi || code == .stpr

/-- `d'` has the record and the value of `d`, in the same role. -/
structure Node.SameLinks (d d' : Node) : Prop where
  record : d'.record = d.record
  ssa : d'.ssa = d.ssa
  code : d'.code = d.code ∨ d.code.carriesValue = false ∧ d'.code.carriesValue = false

/-- A copy of the tree at `n`, with its accesses and edges where there are edges. -/
def linkedCopy (n : NodeId) : Edit NodeId := do
  let copy ← duplicate n
  if ← hasEdges then copyTreeAccess copy n
  return copy

/-- A load that takes over from the indirect load `n`. -/
def loadFor (n : NodeId) (v : VarId) (ofst : Int) (ty : Ty) : Edit NodeId := do
  let ld ← load v ofst ty
  inheritLoad ld n
  return ld

/-- A store that takes over from the indirect store `n`. -/
def storeFor (n : NodeId) (v : VarId) (ofst : Int) (ty : Ty) (stored : NodeId) : Edit NodeId := do
  let st ← store v ty ofst stored
  inheritStore st n
  return st

/-- Turn a branch on a false `a != b` into one on a true `a == b`; whether it was one. -/
def invertBranch (n cond : NodeId) : Edit Bool := do
  if (← node n).code = .falseBr then
    if (← node cond).code = .ne then
      setCode cond .eq
      setCode n .trueBr
      fired .falseBrOfNe n
      return true
  return false

/-- What becomes of a branch and its condition, if the branch is turned around. -/
theorem invertBranch_meets {F : Fault → Prop} {r : Region} {n cond : NodeId}
    {Q : Bool → Region → Prop} (plain : ∀ f, f.Plain → F f) (declines : Q false r)
    (fires : ∀ d c, d.code = .falseBr → r.node? cond = some c → c.code = .ne →
      (r.put cond (some { c with code := .eq })).node? n = some d → ∀ rule,
      Q true { (r.put cond (some { c with code := .eq })).put n
        (some { d with code := .trueBr }) with events := r.events.push (.ruleFired rule n) }) :
    Meets (invertBranch n cond) r F Q := by
  simp only [invertBranch, Edit.node, meets_bind, meets_ask]
  refine Region.node_answers.yields plain fun d found => ?_
  split
  · rename_i isFalseBr
    rw [meets_bind, meets_ask]
    refine Region.node_answers.yields plain fun c foundCond => ?_
    split
    · rename_i isNe
      replace found := Region.node?_of_node found
      replace foundCond := Region.node?_of_node foundCond
      -- The branch is not its own condition, so its operation is still as it was read.
      have other : n ≠ cond := by
        rintro rfl
        rw [found, Option.some.injEq] at foundCond
        rw [foundCond, isNe] at isFalseBr
        cases isFalseBr
      have kept : (r.put cond (some { c with code := .eq })).node? n = some d := by
        rw [Region.node?_put (Region.lt_size_of_node? foundCond), if_neg other, found]
      rw [meets_bind, meets_setCode foundCond (by rw [isNe]; rfl), meets_bind,
        meets_setCode kept (by rw [isFalseBr]; rfl)]
      exact fires d c isFalseBr foundCond isNe kept _
    · exact declines
  · exact declines

/-- What is compared. -/
structure Scope where
  options : Options
  strict : Bool
  strict' : Bool
  /-- Whether the parents of nodes are compared too. -/
  whole : Bool

abbrev Scope.s (x : Scope) : Setting := ⟨x.options, x.strict⟩

abbrev Scope.s' (x : Scope) : Setting := ⟨x.options, x.strict'⟩

class Whole (x : Scope) : Prop where
  whole : x.whole = true

instance {o : Options} {b b' : Bool} : Whole ⟨o, b, b', true⟩ := ⟨rfl⟩

/-- The edits that change nodes and their links. Some of them belong to statements, which are
compared as a whole. -/
inductive Change (x : Scope) : {α : Type} → Edit α → Prop
  | modifyNode {n : NodeId} {f : Node → Node}
      (blind : ∀ d p, (f (d.under p)).under none = (f d).under none)
      (same : ∀ d, ∃ ty attrs parent, f d = { d with ty, attrs, parent }) :
      Change x (modifyNode n f)
  | setCode {n : NodeId} {code : Op} (binary : code.isBinary = true) : Change x (setCode n code)
  | setKid {n : NodeId} {i : Nat} {k : Option NodeId} : Change x (setKid n i k)
  | setKids {n : NodeId} {i : Nat} {ks : List NodeId} : Change x (setKids n i ks)
  | takeKids {n : NodeId} {i : Nat} : Change x (takeKids n i)
  | build {code : Op} {ty : Ty} {attrs : Attrs} {slots : List (List NodeId)} :
      Change x (build code ty attrs slots)
  | removeSsaUse {n : NodeId} : Change x (removeSsaUse n)
  | cutUses {n : NodeId} : Change x (cutUses n)
  | releaseAll {ns : List NodeId} : Change x (releaseAll ns)
  | linkedCopy {n : NodeId} : Change x (linkedCopy n)
  | loadFor {n : NodeId} {v : VarId} {ofst : Int} {ty : Ty} : Change x (loadFor n v ofst ty)
  | storeFor {n stored : NodeId} {v : VarId} {ofst : Int} {ty : Ty} (seen : x.whole = true) :
      Change x (storeFor n v ofst ty stored)
  | replaceKid {n old new : NodeId} (seen : x.whole = true) : Change x (replaceKid n old new)
  | clearSsaUses {v : SsaId} (seen : x.whole = true) : Change x (clearSsaUses v)
  | cutAll {n : NodeId} (seen : x.whole = true) : Change x (cutAll n)
  | leaveBlock {n : NodeId} (seen : x.whole = true) : Change x (leaveBlock n)
  | insertStmt {b : BlockId} {pos : Nat} {n : NodeId} (seen : x.whole = true) :
      Change x (insertStmt b pos n)

/-! ### Results -/

/-- Whatever the result and the mark are. -/
abbrev Any {α : Type} : Bool → α → Prop := fun _ _ => True

/-- The mark stays as it was. -/
abbrev Unmarked {α : Type} (c : Bool) : Bool → α → Prop := fun c' _ => c' = c

/-- A quiet result is `ok` and leaves the mark as it was. -/
abbrev Telling {α : Type} (quiet ok : α → Prop) (c : Bool) : Bool → α → Prop :=
  fun c' a => quiet a → ok a ∧ c' = c

abbrev TellingFlag (c : Bool) : Bool → Bool → Prop := fun c' a => a = false → c' = c

abbrev TellingStep {α : Type} (c : Bool) : Bool → Option α → Prop := fun c' a => a = none → c' = c

abbrev TellingPass (n : NodeId) (c : Bool) : Bool → NodeId × Bool → Prop :=
  Telling (·.2 = false) (·.1 = n) c

abbrev TellingOutcome (n : NodeId) (c : Bool) : Bool → Outcome → Prop :=
  Telling (·.changed = false) (·.node = some n) c

/-- Under the two settings of `x`, `m` and `m'` are put together alike. -/
inductive Composed (x : Scope) : {α : Type} → Bool → Edit α → Edit α → (Bool → α → Prop) → Prop
  | pure {α : Type} {c : Bool} {a : α} {Q : Bool → α → Prop} (q : Q c a) :
      Composed x c (pure a) (pure a) Q
  | throw {α : Type} {c : Bool} {f : Fault} {Q : Bool → α → Prop}
      (known : f.Ordinary ∨ ∃ m, f = .misuse m) : Composed x c (throw f) (throw f) Q
  | bind {α β : Type} {c : Bool} {m m' : Edit α} {k k' : α → Edit β} {P : Bool → α → Prop}
      {Q : Bool → β → Prop} (first : Composed x c m m' P)
      (next : ∀ c' a, P c' a → Composed x c' (k a) (k' a) Q) :
      Composed x c (m >>= k) (m' >>= k') Q
  | ask {α : Type} {c : Bool} {q : Region → Except Fault α} (blind : ∀ r, q r.orphaned = q r)
      (answers : ∀ r, Answers Fault.Ordinary (q r)) : Composed x c (ask q) (ask q) (Unmarked c)
  | lift {α : Type} {c : Bool} {v : Except Fault α} (answers : Answers Fault.Plain v) :
      Composed x c (liftM v) (liftM v) (Unmarked c)
  | get {α : Type} {c : Bool} {k k' : Region → Edit α} {Q : Bool → α → Prop}
      (blind : ∀ r, k' r.orphaned = k' r) (next : ∀ r, Composed x c (k r) (k' r) Q) :
      Composed x c (get >>= k) (get >>= k') Q
  | node {α : Type} {c : Bool} {n : NodeId} {k k' : Node → Edit α} {Q : Bool → α → Prop}
      (blind : x.whole = false → ∀ d p, k' (d.under p) = k' d)
      (next : ∀ d, Composed x c (k d) (k' d) Q) : Composed x c (node n >>= k) (node n >>= k') Q
  | report {c : Bool} {e : Event}
      (known : e.isListCap = true → e = .listCapReached x.options.sweepCap) :
      Composed x c (report e) (report e) (Unmarked c)
  | intern {c : Bool} {t : Ty} : Composed x c (intern t) (intern t) (Unmarked c)
  | require {o : Options} {c holds : Bool} {v : Violation} (other : ∀ n, v ≠ .staleEdge n) :
      Composed x c (require ⟨o, x.strict⟩ holds v) (require ⟨o, x.strict'⟩ holds v) (Unmarked c)
  | change {α : Type} {c : Bool} {m : Edit α} (h : Change x m) : Composed x c m m Any
  | checkEdges {o : Options} {c : Bool} {n : NodeId} (seen : x.whole = true) :
      Composed x c (checkEdges ⟨o, x.strict⟩ n) (checkEdges ⟨o, x.strict'⟩ n) Any
  | invertBranch {c : Bool} {n cond : NodeId} (seen : x.whole = true) :
      Composed x c (invertBranch n cond) (invertBranch n cond) (TellingFlag c)

/-- An edit that does not depend on the setting. -/
abbrev Uniform {α : Type} (x : Scope) (c : Bool) (m : Edit α) : (Bool → α → Prop) → Prop :=
  Composed x c m m

/-- An edit under both settings. -/
abbrev Both {α : Type} (x : Scope) (c : Bool) (m : Setting → Edit α) :
    (Bool → α → Prop) → Prop := Composed x c (m x.s) (m x.s')

/-- Of the options, the number of sweeps is all that matters. -/
theorem Composed.under {α : Type} {x : Scope} {o : Options} {c : Bool} {m m' : Edit α}
    {Q : Bool → α → Prop} (made : Composed { x with options := o } c m m' Q)
    (sweeps : o.sweepCap = x.options.sweepCap) : Composed x c m m' Q := by
  induction made with
  | pure q => exact pure q
  | throw known => exact throw known
  | bind _ _ first next => exact bind first next
  | ask blind answers => exact ask blind answers
  | lift answers => exact lift answers
  | get blind _ next => exact get blind next
  | node blind _ next => exact node blind next
  | report known => exact report (sweeps ▸ known)
  | intern => exact intern
  | require other => exact require other
  | change made => exact change (by cases made <;> constructor <;> assumption)
  | checkEdges seen => exact checkEdges seen
  | invertBranch seen => exact invertBranch seen

namespace Composed

variable {α β : Type} {x : Scope} {c c₀ : Bool} {n m k : NodeId} {i : Nat}

section

variable {e e' : Edit α} {f f' : α → Edit β} {P : Bool → α → Prop} {Q : Bool → β → Prop}

/-- After a question. -/
theorem after (first : Composed x c e e' (Unmarked c)) (next : ∀ a, Composed x c (f a) (f' a) Q) :
    Composed x c (e >>= f) (e' >>= f') Q := by
  refine first.bind fun c' a same => ?_
  subst same
  exact next a

/-- Whatever came before. -/
theorem andThen (first : Composed x c e e' P) (next : ∀ c a, Composed x c (f a) (f' a) Q) :
    Composed x c (e >>= f) (e' >>= f') Q :=
  first.bind fun c' a _ => next c' a

theorem imp {S : Bool → α → Prop} (h : Composed x c e e' P) (le : ∀ c a, P c a → S c a) :
    Composed x c e e' S := by
  have same : Composed x c (e >>= Pure.pure) (e' >>= Pure.pure) S :=
    h.bind fun c' a p => pure (le c' a p)
  rwa [bind_pure, bind_pure] at same

theorem map {g : α → β} (h : Composed x c e e' fun c a => Q c (g a)) :
    Composed x c (g <$> e) (g <$> e') Q := by
  rw [map_eq_pure_bind, map_eq_pure_bind]
  exact h.bind fun c' a q => pure q

theorem discard {S : Bool → Prop} (h : Composed x c e e' fun c _ => S c) :
    Composed x c (discard e) (discard e') fun c _ => S c := h.map

theorem split {p : Prop} [Decidable p] {g g' : Edit α} (yes : p → Composed x c e e' P)
    (no : ¬p → Composed x c g g' P) :
    Composed x c (if p then e else g) (if p then e' else g') P := by
  by_cases h : p
  · rw [if_pos h, if_pos h]
    exact yes h
  · rw [if_neg h, if_neg h]
    exact no h

theorem ite {p : Prop} [Decidable p] {g g' : Edit α} (yes : Composed x c e e' P)
    (no : Composed x c g g' P) : Composed x c (if p then e else g) (if p then e' else g') P :=
  split (fun _ => yes) fun _ => no

end

section

variable {e e' f f' : Edit Bool} (first : Composed x c e e' (Unmarked c))
  (second : Composed x c f f' (Unmarked c))
include first second

theorem and : Composed x c (e <&&> f) (e' <&&> f') (Unmarked c) := by
  refine first.after fun held => ?_
  cases held
  · exact pure rfl
  · exact second

theorem or : Composed x c (e <||> f) (e' <||> f') (Unmarked c) := by
  refine first.after fun held => ?_
  cases held
  · exact second
  · exact pure rfl

end

theorem misuse {wrong : Misuse} {Q : Bool → α → Prop} :
    Uniform x c (MonadExcept.throw (Fault.misuse wrong)) Q := throw (.inr ⟨_, rfl⟩)

theorem exhausted {Q : Bool → α → Prop} :
    Uniform x c (MonadExcept.throw Fault.exhausted) Q := throw (.inl (.inr rfl))

theorem off : Uniform x c (Pure.pure false) (TellingFlag c) := pure fun _ => rfl

theorem on : Uniform x c (Pure.pure true) (TellingFlag c₀) := pure fun off => Bool.noConfusion off

theorem declines : Uniform x c (Pure.pure none) (TellingStep (α := α) c) := pure fun _ => rfl

theorem fires {a : α} : Uniform x c (Pure.pure (some a)) (TellingStep c₀) :=
  pure fun none => absurd none (Option.some_ne_none a)

theorem stays : Uniform x c (Pure.pure (n, false)) (TellingPass n c) := pure fun _ => ⟨rfl, rfl⟩

theorem moves : Uniform x c (Pure.pure (m, true)) (TellingPass n c₀) :=
  pure fun off => Bool.noConfusion off

/-- A step that fires with what `e` makes. -/
theorem firing {e e' : Edit NodeId} (h : Composed x c e e' Any) :
    Composed x c (do return some (← e)) (do return some (← e')) (TellingStep c₀) :=
  h.andThen fun _ _ => fires

/-! ### Loops -/

section loops

variable {xs : List α}

theorem forM {f f' : α → Edit PUnit} (each : ∀ c a, Composed x c (f a) (f' a) Any) :
    Composed x c (xs.forM f) (xs.forM f') Any := by
  induction xs generalizing c with
  | nil => exact pure trivial
  | cons a xs ih => exact (each c a).andThen fun _ _ => ih

theorem anyM {f f' : α → Edit Bool} (each : ∀ a, Composed x c (f a) (f' a) (Unmarked c)) :
    Composed x c (xs.anyM f) (xs.anyM f') (Unmarked c) := by
  induction xs with
  | nil => exact pure rfl
  | cons a xs ih =>
    refine (each a).after fun found => ?_
    cases found
    · exact ih
    · exact pure rfl

theorem allM {f f' : α → Edit Bool} (each : ∀ a, Composed x c (f a) (f' a) (Unmarked c)) :
    Composed x c (xs.allM f) (xs.allM f') (Unmarked c) := by
  induction xs with
  | nil => exact pure rfl
  | cons a xs ih =>
    refine (each a).after fun held => ?_
    cases held
    · exact pure rfl
    · exact ih

theorem mapM {f f' : α → Edit β} {Q : β → Prop} {S : α → β → Prop}
    (each : ∀ c a, Composed x c (f a) (f' a) (Telling Q (S a) c)) :
    Composed x c (xs.mapM f) (xs.mapM f')
      (Telling (fun ys => ∀ y ∈ ys, Q y) (List.Forall₂ S xs) c) := by
  induction xs generalizing c with
  | nil => exact pure fun _ => ⟨.nil, rfl⟩
  | cons a xs ih =>
    rw [List.mapM_cons, List.mapM_cons]
    refine (each c a).bind fun c₁ y here => ?_
    refine ih.bind fun c₂ ys there => pure fun still => ?_
    obtain ⟨still, others⟩ := List.forall_mem_cons.mp still
    obtain ⟨first, same⟩ := here still
    obtain ⟨rest, same'⟩ := there others
    exact ⟨.cons first rest, same'.trans same⟩

theorem someOf {f f' : α → Edit Bool} (each : ∀ c a, Composed x c (f a) (f' a) (TellingFlag c)) :
    Composed x c (someOf f xs) (someOf f' xs) (TellingFlag c) := by
  have all : Composed x c (xs.mapM f) (xs.mapM f')
      (Telling (fun ys => ∀ y ∈ ys, y = false) (List.Forall₂ (fun _ _ => True) xs) c) :=
    mapM fun c a => (each c a).imp fun _ _ told off => ⟨trivial, told off⟩
  exact all.bind fun c' flags told => pure fun none => (told (by simpa using none)).2

end loops

theorem passes {pass pass' : Pass} {ks : List NodeId}
    (each : ∀ c k, Composed x c (pass k) (pass' k) (TellingPass k c)) :
    Composed x c (ks.mapM pass) (ks.mapM pass')
      (Telling (fun outs => outs.any (·.2) = false) (fun outs => outs.map (·.1) = ks) c) := by
  refine (mapM each).imp fun c' outs told none => ?_
  obtain ⟨all, same⟩ := told (by simpa using none)
  have roots : outs.map (·.1) = ks := by
    clear told none
    induction all with
    | nil => rfl
    | cons here _ ih => rw [List.map_cons, ih, here]
  exact ⟨roots, same⟩

/-! ### Questions -/

theorem askPlain {q : Region → Except Fault α} (blind : ∀ r, q r.orphaned = q r)
    (answers : ∀ r, Answers Fault.Plain (q r)) : Uniform x c (Edit.ask q) (Unmarked c) :=
  ask blind fun r => (answers r).imp fun _ => .inl

theorem kids : Uniform x c (kids n i) (Unmarked c) :=
  askPlain (fun _ => Region.kids_orphaned) fun _ => Region.kids_answers

theorem kid? : Uniform x c (Edit.ask (·.kid? n i)) (Unmarked c) :=
  askPlain (fun _ => Region.kid?_orphaned) fun _ => Region.kid?_answers

theorem kid : Uniform x c (kid n i) (Unmarked c) :=
  askPlain (fun _ => Region.kid_orphaned) fun _ => Region.kid_answers

theorem subtree : Uniform x c (subtree n) (Unmarked c) :=
  ask (fun _ => Region.subtree_orphaned) fun _ => Region.subtree_answers

theorem sameTree : Uniform x c (sameTree n m) (Unmarked c) :=
  ask (fun _ => Region.sameTree_orphaned) fun _ => Region.sameTree_answers

theorem normalizeInt {l : Layout} {t : Ty} {v : Word} :
    Uniform x c (liftM (t.normalizeInt l v)) (Unmarked c) := lift Region.normalizeInt_answers

theorem slot {d : Node} : Uniform x c (liftM (d.slot i)) (Unmarked c) := lift Region.slot_answers

/-- After the operands are found. -/
theorem both {f f' : NodeId × NodeId → Edit α} {Q : Bool → α → Prop}
    (next : ∀ ops, Composed x c (f ops) (f' ops) Q) :
    Composed x c (Edit.operands n >>= f) (Edit.operands n >>= f') Q := by
  simp only [Edit.operands, bind_assoc, pure_bind]
  exact kid.after fun _ => kid.after fun _ => next _

theorem isStmt : Uniform x c (isStmt n) (Unmarked c) := node (fun _ _ _ => rfl) fun _ => pure rfl

theorem isExpr : Uniform x c (isExpr n) (Unmarked c) := node (fun _ _ _ => rfl) fun _ => pure rfl

theorem layout : Uniform x c layout (Unmarked c) := get (fun _ => rfl) fun _ => pure rfl

theorem hasEdges : Uniform x c hasEdges (Unmarked c) := get (fun _ => rfl) fun _ => pure rfl

/-- An event that is not one of a sweep cap. -/
theorem noted {e : Event} (other : e.isListCap = false) :
    Uniform x c (Edit.report e) (Unmarked c) :=
  report fun reached => absurd (other.symm.trans reached) Bool.false_ne_true

theorem fired {rule : Rule} : Uniform x c (fired rule n) (Unmarked c) := noted rfl

theorem scalarType {t : Scalar} : Uniform x c (scalarType t) (Unmarked c) := intern

/-- After an invariant is checked. -/
theorem requires {holds : Bool} {v : Violation} (other : ∀ n, v ≠ .staleEdge n) :
    Both x c (fun s => Functor.discard (Edit.require s holds v)) (Unmarked c) :=
  (require other).discard

/-! ### Changes -/

theorem takeKid : Uniform x c (Functor.discard (Edit.takeKid n i)) Any :=
  ((change .takeKids).andThen fun _ _ => pure trivial).discard

theorem setKid : Uniform x c (setKid n i (some k)) Any := change .setKid

theorem setCode {code : Op} (binary : code.isBinary = true) : Uniform x c (setCode n code) Any :=
  change (.setCode binary)

theorem setLiteral {v : Node → Literal} (blind : ∀ d p, v (d.under p) = v d) :
    Uniform x c (modifyNode n fun d => d.setLiteral (v d)) Any := by
  refine change (.modifyNode (fun d p => ?_) fun _ => ⟨_, _, _, rfl⟩)
  rw [blind]
  rfl

theorem restamped {v : Literal} {ty : Ty} :
    Uniform x c (modifyNode n fun d => { d.setLiteral v with ty }) Any :=
  change (.modifyNode (fun _ _ => rfl) fun _ => ⟨_, _, _, rfl⟩)

theorem literal {v : Literal} {ty : Ty} : Uniform x c (literal v ty) Any := change .build

theorem unary {code : Op} {ty : Ty} : Uniform x c (unary code ty n) Any :=
  ite misuse (change .build)

theorem convert {ty : Ty} : Uniform x c (convert n ty) Any := unary

theorem logicalNot : Uniform x c (logicalNot n) Any := scalarType.after fun _ => unary

theorem judgement : Uniform x c (judgement n) Any := by
  have compared {code : Op} {zero : NodeId} {c : Bool} : Uniform x c (comparison code n zero) Any :=
    ite misuse (scalarType.after fun _ => ite misuse (change .build))
  refine node (fun _ _ _ => rfl) fun d => ?_
  refine andThen (P := Any) (ite literal (ite literal ?_)) fun _ zero => compared
  exact layout.after fun _ => scalarType.after fun _ => literal

theorem removeSsaUsesIn : Uniform x c (removeSsaUsesIn n) Any := by
  refine subtree.after fun ns => forM fun _ k => ?_
  exact node (fun _ _ _ => rfl) fun d => ite (change .removeSsaUse) (pure trivial)

theorem release : Uniform x c (release n) Any :=
  node (fun _ _ _ => rfl) fun _ => ite misuse (change .releaseAll)

theorem releaseTree : Uniform x c (releaseTree n) Any :=
  subtree.after fun _ => change .releaseAll

theorem discardTree : Uniform x c (discardTree n) Any := by
  have rest {c : Bool} : Uniform x c (do Edit.removeSsaUsesIn n; Edit.releaseTree n) Any :=
    removeSsaUsesIn.andThen fun _ _ => releaseTree
  exact hasEdges.after fun _ => ite ((change .cutUses).andThen fun _ _ => rest) rest

theorem spliceKid : Uniform x c (spliceKid n i) Any := by
  refine kid.after fun k => ?_
  refine takeKid.andThen fun _ _ => ?_
  exact discardTree.andThen fun _ _ => pure trivial

theorem replaceBy : Uniform x c (replaceBy n m) Any :=
  discardTree.andThen fun _ _ => pure trivial

/-! ### Coercion -/

theorem restamp {ty : Ty} : Both x c (restamp · n ty) Any := by
  refine node (fun _ _ _ => rfl) fun d => ?_
  cases d.intLit? with
  | none => exact (requires (by simp)).imp fun _ _ _ => trivial
  | some v => exact layout.after fun l => normalizeInt.after fun w => restamped

theorem retype {ty : Ty} : Both x c (retype · n ty) Any := by
  refine node (fun _ _ _ => rfl) fun d => ite (pure trivial) (ite ?_ convert)
  exact restamp.andThen fun _ _ => pure trivial

theorem fitOperand {ty : Ty} : Both x c (fitOperand · ty n) (TellingPass n c) := by
  have literalType : Uniform x c (literalType ty) (Unmarked c) :=
    ite (layout.after fun _ => scalarType) (pure rfl)
  refine node (fun _ _ _ => rfl) fun d => layout.after fun l => ite stays (ite ?_ ?_)
  · exact (requires (by simp)).after fun _ => stays
  refine ite stays (ite stays (ite ?_ ?_))
  · refine literalType.after fun t => ?_
    refine restamp.andThen fun _ _ => ?_
    exact fired.after fun _ => moves
  · exact fired.after fun _ => convert.andThen fun _ _ => moves

theorem refill {e e' : Edit (NodeId × Bool)} (h : Composed x c e e' (TellingPass k c)) :
    Composed x c (do
      let (new, changed) ← e
      if new ≠ k then Edit.setKid n i (some new)
      return changed) (do
      let (new, changed) ← e'
      if new ≠ k then Edit.setKid n i (some new)
      return changed) (TellingFlag c) := by
  refine h.bind fun c' out told => split (fun moved => ?_) fun _ => ?_
  · exact setKid.andThen fun _ _ => pure fun off => absurd (told off).1 moved
  · exact pure fun off => (told off).2

theorem fitSlot {ty : Ty} : Both x c (fitSlot · n i ty) (TellingFlag c) :=
  kid.after fun _ => refill fitOperand

theorem wrapOperand {ty : Ty} : Uniform x c (wrapOperand n i ty) Any := by
  refine kid.after fun k => takeKid.andThen fun _ _ => ?_
  refine convert.andThen fun _ cvt => ?_
  exact setKid.andThen fun _ _ => fired.imp fun _ _ _ => trivial

theorem balanceAddend {t0 t1 : Ty} : Both x c (balanceAddend · n t0 t1) (TellingFlag c) := by
  refine layout.after fun l => ite off ?_
  refine (require (by simp)).after fun _ => ite ?_ off
  exact scalarType.after fun _ => wrapOperand.andThen fun _ _ => on

theorem balanceWidths {t0 t1 : Ty} : Uniform x c (balanceWidths n t0 t1) (TellingFlag c) := by
  refine layout.after fun l => intern.after fun common => ?_
  exact someOf fun _ _ => ite off (wrapOperand.andThen fun _ _ => on)

theorem balanceOperands : Both x c (balanceOperands · n) (TellingFlag c) := by
  refine both fun ops => ?_
  refine node (fun _ _ _ => rfl) fun d0 => ?_
  refine node (fun _ _ _ => rfl) fun d1 => ?_
  refine layout.after fun l => ite off (ite ((requires (by simp)).after fun _ => off) ?_)
  refine ite balanceAddend (node (fun _ _ _ => rfl) fun d => ite ?_ ?_)
  · refine (require (by simp)).after fun _ => ite (ite ?_ balanceWidths) off
    exact (requires (by simp)).after fun _ => off
  · exact ite ((requires (by simp)).after fun _ => off) balanceWidths

theorem coerceOperands : Both x c (coerceOperands · n) (TellingFlag c) := by
  refine node (fun _ _ _ => rfl) fun d => ?_
  refine (someOf fun _ _ => fitSlot).bind fun c₁ fitted first => ?_
  exact balanceOperands.bind fun c₂ balanced second => pure (by grind)


/-! ### Folding -/

theorem foldFloatValue {v : Value} : Uniform x c (foldFloatValue v n) (TellingStep c) := by
  refine node (fun _ _ _ => rfl) fun d => layout.after fun l => ?_
  cases v.literal? l d.ty with
  | none => exact declines
  | some lit =>
    refine literal.andThen fun _ new => ?_
    exact fired.after fun _ => firing replaceBy

theorem intResult {ty t0 t1 : Ty} {v : Word} : Uniform x c (intResult ty t0 t1 v) Any := by
  refine layout.after fun l => ite (intern.after fun common => ?_) ?_
  · exact normalizeInt.after fun w => literal.andThen fun _ new => convert
  · exact normalizeInt.after fun w => literal

theorem foldIntBinary {d d0 d1 : Node} {v w : Word} :
    Both x c (foldIntBinary · d d0 d1 v w n) (TellingStep c) := by
  refine layout.after fun l => (require (by simp)).after fun _ => ite ?_ declines
  cases intBinary d.code v w (d0.ty.isUnsigned || d1.ty.isUnsigned)
      (max (d0.ty.byteSize l) (d1.ty.byteSize l) * 8) with
  | none => exact declines
  | some v =>
    refine intResult.andThen fun _ new => ?_
    exact fired.after fun _ => firing replaceBy

theorem foldInts {d d0 d1 : Node} : Composed x c
    (match d0.intLit?, d1.intLit? with
      | some v, some w => Peephole.foldIntBinary x.s d d0 d1 v w n
      | _, _ => Pure.pure none)
    (match d0.intLit?, d1.intLit? with
      | some v, some w => Peephole.foldIntBinary x.s' d d0 d1 v w n
      | _, _ => Pure.pure none) (TellingStep c) := by
  cases d0.intLit? with
  | none => exact declines
  | some _ =>
    cases d1.intLit? with
    | none => exact declines
    | some _ => exact foldIntBinary

theorem foldBinary : Both x c (foldBinary · n) (TellingStep c) := by
  refine node (fun _ _ _ => rfl) fun d => both fun ops => ?_
  refine node (fun _ _ _ => rfl) fun d0 => ?_
  refine node (fun _ _ _ => rfl) fun d1 => ?_
  dsimp only [Scope.s, Scope.s']
  cases x.options.optFloat with
  | false => exact foldInts
  | true =>
    cases d0.floatLit? with
    | none => exact foldInts
    | some v =>
      cases d1.floatLit? with
      | none => exact foldInts
      | some w =>
        dsimp only
        cases floatBinary d.code v w with
        | none => exact declines
        | some v => exact foldFloatValue

theorem foldIntUnary {d operand : Node} {v : Word} :
    Both x c (foldIntUnary · d operand v n) (TellingStep c) := by
  refine layout.after fun l => (require (by simp)).after fun _ => ite (ite declines ?_) declines
  cases intUnary d.code v with
  | none => exact declines
  | some v =>
    refine normalizeInt.after fun w => literal.andThen fun _ new => ?_
    exact fired.after fun _ => firing replaceBy

theorem foldInt {d operand : Node} : Composed x c
    (match operand.intLit? with
      | some v => Peephole.foldIntUnary x.s d operand v n
      | none => Pure.pure none)
    (match operand.intLit? with
      | some v => Peephole.foldIntUnary x.s' d operand v n
      | none => Pure.pure none) (TellingStep c) := by
  cases operand.intLit? with
  | none => exact declines
  | some _ => exact foldIntUnary

theorem foldUnary : Both x c (foldUnary · n) (TellingStep c) := by
  refine node (fun _ _ _ => rfl) fun d => kid.after fun k => ?_
  refine node (fun _ _ _ => rfl) fun operand => ?_
  dsimp only [Scope.s, Scope.s']
  cases x.options.optFloat with
  | false => exact foldInt
  | true =>
    cases operand.floatLit? with
    | none => exact foldInt
    | some v =>
      dsimp only
      cases floatUnary d.code v with
      | none => exact declines
      | some v => exact foldFloatValue

theorem replaceByInt {v : Word} : Uniform x c (replaceByInt n v) Any :=
  node (fun _ _ _ => rfl) fun _ => literal.andThen fun _ _ => replaceBy

theorem stringAddressAndNull {d e : Node} : Uniform x c (stringAddressAndNull d e) (Unmarked c) :=
  and (askPlain (fun _ => rfl) fun _ => Region.isStringAddress_answers) (pure rfl)

theorem substituteBinary : Uniform x c (substituteBinary n) (TellingStep c) := by
  refine node (fun _ _ _ => rfl) fun d => both fun ops => ?_
  refine node (fun _ _ _ => rfl) fun d0 => ?_
  refine node (fun _ _ _ => rfl) fun d1 => ?_
  cases d.code
  case lt | ge => exact ite (fired.after fun _ => firing replaceByInt) declines
  case eq | ne =>
    refine (stringAddressAndNull.or stringAddressAndNull).after fun known => ?_
    exact ite (fired.after fun _ => firing replaceByInt) declines
  case asr | lsr => exact ite (fired.after fun _ => firing spliceKid) declines
  case lsl =>
    refine ite (fired.after fun _ => firing spliceKid) (layout.after fun l => ?_)
    refine (lift Region.bitWidth_answers).after fun width => ?_
    exact ite (fired.after fun _ => firing replaceByInt) declines
  all_goals exact declines

theorem foldNode : Both x c (foldNode · n) (TellingStep c) := by
  refine node (fun _ _ _ => rfl) fun d => ite (foldBinary.bind fun c' new? told => ?_) ?_
  · cases new? with
    | none =>
      obtain rfl := told rfl
      exact substituteBinary
    | some new => exact fires
  · cases d.code
    case neg | lnot | bnot => exact foldUnary
    all_goals exact declines

theorem foldSlot {fold fold' : Pass}
    (folds : ∀ c k, Composed x c (fold k) (fold' k) (TellingPass k c)) :
    Composed x c (foldSlot fold n i) (foldSlot fold' n i) (TellingFlag c) := by
  refine kids.after fun ks => (anyM fun _ => isStmt).after fun nested => ite off ?_
  refine (passes folds).bind fun c' outs told => split (fun _ => ?_) fun none => ?_
  · exact (change .setKids).andThen fun _ _ => on
  · exact pure fun _ => (told (Bool.eq_false_of_not_eq_true none)).2

theorem foldWithin {fuel : Nat} : Both x c (foldWithin · fuel n) (TellingPass n c) := by
  induction fuel generalizing n c with
  | zero => exact exhausted
  | succ fuel ih =>
    refine node (fun _ _ _ => rfl) fun d => ?_
    refine (someOf fun _ _ => foldSlot fun _ _ => ih).bind fun c₁ changed first => ?_
    refine foldNode.bind fun c₂ new? second => ?_
    cases new? with
    | none => exact pure fun off => ⟨rfl, (second rfl).trans (first off)⟩
    | some new => exact moves

theorem foldTree : Both x c (foldTree · n) (TellingPass n c) := by
  refine get (fun r => ?_) fun _ => foldWithin
  rw [Region.depthBound_orphaned]

theorem foldIfAsked : Both x c (foldIfAsked · n) (TellingPass n c) := ite foldTree stays

/-! ### Phis -/

theorem definingPhis? {a b : Node} {f f' : Option (Node × Node) → Edit β} {Q : Bool → β → Prop}
    (blind : ∀ d e p q, f' (some (d.under p, e.under q)) = f' (some (d, e)))
    (neither : Composed x c (f none) (f' none) Q)
    (both : ∀ d e, Composed x c (f (some (d, e))) (f' (some (d, e))) Q) :
    Composed x c (definingPhis? a b >>= f) (definingPhis? a b >>= f') Q := by
  have definition {d : Node} : Uniform x c (Edit.ask (·.ssaDefOf d)) (Unmarked c) :=
    askPlain (fun _ => rfl) fun _ => Region.ssaDefOf_answers
  unfold Peephole.definingPhis?
  rw [apply_ite (· >>= f), apply_ite (· >>= f'), bind_assoc, bind_assoc]
  refine ite neither (definition.after fun defX => ?_)
  cases defX with
  | none => exact neither
  | some defX =>
    rw [bind_assoc, bind_assoc]
    refine definition.after fun defY => ?_
    cases defY with
    | none => exact neither
    | some defY =>
      simp only [bind_assoc, apply_ite (· >>= f), apply_ite (· >>= f'), pure_bind]
      have left (d e : Node) (p : Option NodeId) : f' (some (d.under p, e)) = f' (some (d, e)) :=
        blind d e p e.parent
      have right (d e : Node) (q : Option NodeId) : f' (some (d, e.under q)) = f' (some (d, e)) :=
        blind d e d.parent q
      refine node (fun _ d p => ?_) fun d => ite neither (node (fun _ e q => ?_) fun e => ?_)
      · simp only [left]
        rfl
      · rw [right]
        rfl
      · exact ite neither (both d e)

theorem mergeSame {a b : Node} : Uniform x c (mergeSame a b) (Unmarked c) := by
  refine slot.after fun ks => slot.after fun js => ite (pure rfl) ?_
  refine allM fun pair => ?_
  refine node (fun _ _ _ => rfl) fun d => ?_
  refine node (fun _ _ _ => rfl) fun e => ?_
  cases d.intLit? with
  | none => exact pure rfl
  | some v =>
    cases e.intLit? with
    | none => exact pure rfl
    | some w => exact pure rfl

theorem decideByPhis : Uniform x c (decideByPhis n) (TellingStep c) := by
  refine both fun ops => ?_
  refine node (fun _ _ _ => rfl) fun d0 => ?_
  refine node (fun _ _ _ => rfl) fun d1 => ?_
  refine definingPhis? (fun _ _ _ _ => rfl) declines fun phi0 phi1 => ite declines ?_
  refine mergeSame.after fun same => ite (node (fun _ _ _ => rfl) fun d => ?_) declines
  refine literal.andThen fun _ new => ?_
  exact fired.after fun _ => firing replaceBy

/-! ### Identities -/

theorem withOperands {f f' : Node × Node × Node → Edit β} {Q : Bool → β → Prop}
    (blind : ∀ d a b p q t, f' (d.under p, a.under q, b.under t) = f' (d, a, b))
    (next : ∀ d a b, Composed x c (f (d, a, b)) (f' (d, a, b)) Q) :
    Composed x c (withOperands n >>= f) (withOperands n >>= f') Q := by
  simp only [Peephole.withOperands, bind_assoc, pure_bind]
  have first (d a b : Node) (p : Option NodeId) : f' (d.under p, a, b) = f' (d, a, b) :=
    blind d a b p a.parent b.parent
  have second (d a b : Node) (q : Option NodeId) : f' (d, a.under q, b) = f' (d, a, b) :=
    blind d a b d.parent q b.parent
  refine both fun ops => node (fun _ d p => ?_) fun d => node (fun _ a q => ?_) fun a =>
    node (fun _ b t => ?_) fun b => next d a b
  · simp only [first]
  · simp only [second]
  · exact blind d a b d.parent a.parent t

theorem sameOperands : Uniform x c (sameOperands n) (Unmarked c) := both fun _ => sameTree

theorem intInPlace {d like : Node} {v : Word} : Uniform x c (intInPlace d like v) Any :=
  ite literal (ite (scalarType.after fun _ => literal) literal)

theorem dropRight {fits : Node → Node → Bool}
    (blind : ∀ d a p q, fits (d.under p) (a.under q) = fits d a) :
    Uniform x c (dropRight fits n) (TellingStep c) := by
  refine withOperands (fun d a b p q t => ?_) fun d a b => ite (firing spliceKid) declines
  simp only [blind]

/-- A literal in place of the node. -/
theorem replaced {e e' : Edit NodeId} (made : Composed x c e e' Any) :
    Composed x c (do let new ← e; return some (← Edit.replaceBy n new))
      (do let new ← e'; return some (← Edit.replaceBy n new)) (TellingStep c₀) :=
  made.andThen fun _ _ => firing replaceBy

theorem subSelf : Both x c (subSelf · n) (TellingStep c) := by
  refine sameOperands.after fun same => ite ?_ declines
  refine node (fun _ _ _ => rfl) fun d => ite declines ?_
  exact ite (replaced literal) (replaced literal)

theorem divSelf : Both x c (divSelf · n) (TellingStep c) := by
  refine sameOperands.after fun same => ite ?_ declines
  refine withOperands (fun _ _ _ _ _ _ => rfl) fun d a b => ite declines ?_
  exact ite (replaced literal) (replaced intInPlace)

theorem xorSelf : Both x c (xorSelf · n) (TellingStep c) := by
  refine sameOperands.after fun same => ite ?_ declines
  refine withOperands (fun _ _ _ _ _ _ => rfl) fun d a b => ?_
  exact (require (by simp)).after fun _ => ite (replaced intInPlace) declines

theorem compareSelf {truth : Bool} : Both x c (compareSelf · truth n) (TellingStep c) := by
  refine withOperands (fun _ _ _ _ _ _ => rfl) fun d a b => ite declines ?_
  exact sameOperands.after fun same => ite (replaced literal) declines

theorem zeroIfRight {w : Word} : Uniform x c (zeroIfRight w n) (TellingStep c) :=
  withOperands (fun _ _ _ _ _ _ => rfl) fun _ _ _ => ite declines (replaced intInPlace)

theorem double_eq : Peephole.double n = (do
    let (op0, op1) ← Edit.operands n
    Functor.discard (Edit.takeKid n 1)
    Edit.discardTree op1
    let copy ← linkedCopy op0
    Edit.setCode n .add
    Edit.setKid n 1 (some copy)
    return n) := by
  simp only [Peephole.double, linkedCopy, bind_assoc]
  refine bind_congr fun ops => bind_congr fun _ => bind_congr fun _ => bind_congr fun copy =>
    bind_congr fun edges => ?_
  cases edges <;> simp

theorem double : Uniform x c (double n) Any := by
  rw [double_eq]
  refine both fun ops => takeKid.andThen fun _ _ => ?_
  refine discardTree.andThen fun _ _ => ?_
  refine (change .linkedCopy).andThen fun _ copy => ?_
  refine (setCode rfl).andThen fun _ _ => ?_
  exact setKid.andThen fun _ _ => pure trivial

theorem mulFloatTwo : Both x c (mulFloatTwo · n) (TellingStep c) :=
  withOperands (fun _ _ _ _ _ _ => rfl) fun _ _ _ => ite (firing double) declines

theorem mulIntTwo : Uniform x c (mulIntTwo n) (TellingStep c) :=
  withOperands (fun _ _ _ _ _ _ => rfl) fun _ _ _ => ite (firing double) declines

theorem shiftBy {code : Op} {allowed : Node → Bool}
    (blind : ∀ d p, allowed (d.under p) = allowed d) (binary : code.isBinary = true) :
    Uniform x c (shiftBy code allowed n) (TellingStep c) := by
  refine both fun ops => withOperands (fun d a b p q t => ?_) fun d a b => ?_
  · simp only [blind]
    rfl
  · dsimp only
    cases b.intLit? with
    | none => exact declines
    | some v =>
      refine ite declines ((setCode binary).andThen fun _ _ => ?_)
      exact (setLiteral fun _ _ => rfl).andThen fun _ _ => fires

theorem divFloatConst : Both x c (divFloatConst · n) (TellingStep c) := by
  refine both fun ops => withOperands (fun _ _ _ _ _ _ => rfl) fun d a b => ?_
  dsimp only
  cases b.floatLit? with
  | none => exact declines
  | some v =>
    refine ite declines (ite (firing spliceKid) (ite declines ?_))
    refine (setCode rfl).andThen fun _ _ => ?_
    exact (setLiteral fun _ _ => rfl).andThen fun _ _ => fires

theorem landOne : Both x c (landOne · n) (TellingStep c) := by
  refine withOperands (fun _ _ _ _ _ _ => rfl) fun d a b => ite declines ?_
  refine spliceKid.andThen fun _ kept => ?_
  refine node (fun _ _ _ => rfl) fun e => ite (firing retype) ?_
  exact judgement.andThen fun _ judged => firing retype

theorem lorOne : Uniform x c (lorOne n) (TellingStep c) :=
  withOperands (fun _ _ _ _ _ _ => rfl) fun _ _ _ => ite (firing spliceKid) declines

/-- The rules for an operation are the same, and each is put together alike. -/
theorem identities {code : Op} : List.Forall₂ (fun rule rule' : Rule × Step => rule.1 = rule'.1 ∧
      ∀ c, Composed x c (rule.2 n) (rule'.2 n) (TellingStep c))
    (identities x.s code) (identities x.s' code) := by
  cases code <;> simp only [Peephole.identities, List.forall₂_cons, List.Forall₂.nil, and_true,
    true_and]
  case add => exact fun _ => dropRight fun _ _ _ _ => rfl
  case sub => exact fun _ => subSelf
  case mul =>
    refine ⟨fun _ => mulFloatTwo, fun _ => mulIntTwo, ?_, fun _ => zeroIfRight, ?_⟩
    · exact fun _ => dropRight fun _ _ _ _ => rfl
    · exact fun _ => shiftBy (fun _ _ => rfl) rfl
  case div =>
    exact ⟨fun _ => divFloatConst, fun _ => shiftBy (fun _ _ => rfl) rfl, fun _ => divSelf⟩
  case rem => exact fun _ => zeroIfRight
  case mod => exact fun _ => zeroIfRight
  case land => exact fun _ => landOne
  case lor => exact fun _ => lorOne
  case band => exact fun _ => layout.after fun _ => dropRight fun _ _ _ _ => rfl
  case bor => exact fun _ => dropRight fun _ _ _ _ => rfl
  case xor => exact fun _ => xorSelf
  case eq => exact fun _ => compareSelf
  case ne => exact fun _ => compareSelf

theorem applyFirst {rules rules' : List (Rule × Step)} (each : List.Forall₂
      (fun rule rule' : Rule × Step => rule.1 = rule'.1 ∧
        ∀ c, Composed x c (rule.2 n) (rule'.2 n) (TellingStep c)) rules rules') :
    Composed x c (applyFirst rules n) (applyFirst rules' n) (TellingStep c) := by
  induction each generalizing c with
  | nil => exact declines
  | @cons rule rule' rules rules' here _ ih =>
    refine (here.2 c).bind fun c' new? told => ?_
    cases new? with
    | none =>
      obtain rfl := told rfl
      exact ih
    | some new =>
      rw [here.1]
      exact fired.after fun _ => fires

/-! ### Binary operators -/

theorem commute : Uniform x c (commute n) (TellingFlag c) := by
  refine node (fun _ _ _ => rfl) fun d => ?_
  cases commuted : d.code.commuted? with
  | none => exact off
  | some code =>
    have binary : code.isBinary = true := by
      unfold Op.commuted? at commuted
      split at commuted
      · rename_i may
        have swapped : d.code.swapped = code := Option.some.inj commuted
        subst swapped
        cases found : d.code <;> rw [found] at may <;> first | rfl | cases may
      · cases commuted
    refine both fun ops => ?_
    refine node (fun _ _ _ => rfl) fun d0 => ite off (node (fun _ _ _ => rfl) fun d1 => ite off ?_)
    refine takeKid.andThen fun _ _ => takeKid.andThen fun _ _ => ?_
    refine setKid.andThen fun _ _ => setKid.andThen fun _ _ => ?_
    exact (setCode binary).andThen fun _ _ => fired.after fun _ => on

theorem mergeConstants : Both x c (mergeConstants · n) (TellingStep c) := by
  have merged {ty right : Ty} {c : Bool} : Uniform x c (mergedType ty right) (Unmarked c) :=
    layout.after fun _ => ite scalarType (ite scalarType (pure rfl))
  refine node (fun _ _ _ => rfl) fun outer => both fun ops => ?_
  refine node (fun _ _ _ => rfl) fun right => ?_
  dsimp only
  cases right.intLit? with
  | none => exact declines
  | some c2 =>
    refine node (fun _ _ _ => rfl) fun inner => ite declines ?_
    refine kid.after fun k => node (fun _ _ _ => rfl) fun innerRight => ?_
    cases innerRight.intLit? with
    | none => exact declines
    | some c1 =>
      refine layout.after fun l => (require (by simp)).after fun _ => ite ?_ declines
      cases intBinary outer.code c1 c2 (innerRight.ty.isUnsigned || right.ty.isUnsigned)
          (max (innerRight.ty.byteSize l) (right.ty.byteSize l) * 8) with
      | none => exact declines
      | some v =>
        refine merged.after fun ty => normalizeInt.after fun w => ?_
        refine literal.andThen fun _ new => takeKid.andThen fun _ _ => ?_
        refine discardTree.andThen fun _ _ => setKid.andThen fun _ _ => ?_
        exact fired.after fun _ => firing spliceKid

theorem foldStep : Both x c (foldStep · n) (TellingStep c) := by
  refine ite declines (foldTree.bind fun c' out told => ?_)
  obtain ⟨new, changed⟩ := out
  cases changed with
  | false =>
    obtain rfl := (told rfl).2
    exact declines
  | true => exact fires

theorem firstOf {steps steps' : List Step} (each : List.Forall₂ (fun step step' =>
      ∀ c, Composed x c (step n) (step' n) (TellingStep c)) steps steps') :
    Composed x c (firstOf steps n) (firstOf steps' n) (TellingStep c) := by
  induction each generalizing c with
  | nil => exact declines
  | cons here _ ih =>
    refine (here c).bind fun c' new? told => ?_
    cases new? with
    | none =>
      obtain rfl := told rfl
      exact ih
    | some new => exact fires

section passes

variable {refine refine' : Pass}
  (refines : ∀ c k, Composed x c (refine k) (refine' k) (TellingPass k c))
include refines

theorem refineSlot :
    Composed x c (refineSlot refine n i) (refineSlot refine' n i) (TellingFlag c) := by
  refine kid?.after fun k? => ?_
  cases k? with
  | none => exact off
  | some k => exact refill (refines c k)

theorem refineSlotList :
    Composed x c (refineSlotList refine n i) (refineSlotList refine' n i) (TellingFlag c) := by
  refine kids.after fun ks => (passes refines).bind fun c' outs told => ?_
  refine split (fun moved => ?_) fun _ => pure fun off => (told off).2
  exact (change .setKids).andThen fun _ _ => pure fun off => absurd (told off).1 moved

variable {whether : Bool}

theorem coerceStep :
    Composed x c (coerceStep x.s refine n) (coerceStep x.s' refine' n) (TellingStep c) := by
  have again {c : Bool} {i : Nat} : Composed x c (Functor.discard (Peephole.refineSlot refine n i))
      (Functor.discard (Peephole.refineSlot refine' n i)) Any :=
    ((refineSlot refines).imp fun _ _ _ => trivial).discard
  refine ite declines (coerceOperands.bind fun c' changed told => ?_)
  cases changed with
  | false =>
    obtain rfl := told rfl
    exact declines
  | true => exact again.andThen fun _ _ => again.andThen fun _ _ => fires

omit refines in
theorem identityStep : Both x c (identityStep · n) (TellingStep c) :=
  node (fun _ _ _ => rfl) fun _ => applyFirst identities

theorem settleStep : Composed x c (settleStep x.s refine whether n)
    (settleStep x.s' refine' whether n) (TellingStep c) := by
  refine node (fun _ _ _ => rfl) fun d => ite declines (firstOf ?_)
  simp only [List.forall₂_cons, List.Forall₂.nil, and_true]
  refine ⟨fun _ => foldStep.under rfl, fun _ => commute.bind fun c' changed told => ?_, fun _ => ?_,
    fun _ => identityStep.under rfl, fun _ => ?_, fun _ => coerceStep refines⟩
  · cases changed with
    | false =>
      obtain rfl := told rfl
      exact declines
    | true => exact fires
  · exact node (fun _ _ _ => rfl) fun _ => ite mergeConstants declines
  · exact node (fun _ _ _ => rfl) fun _ => ite decideByPhis declines

theorem settle : Composed x c (settle x.s refine whether n)
    (settle x.s' refine' whether n) (TellingPass n c) := by
  have repeated (fuel : Nat) (n : NodeId) (c : Bool) :
      Composed x c (repeatStep (Peephole.settleStep x.s refine whether) fuel n)
        (repeatStep (Peephole.settleStep x.s' refine' whether) fuel n) (TellingPass n c) := by
    induction fuel generalizing n c with
    | zero => exact exhausted
    | succ fuel ih =>
      refine (settleStep refines).bind fun c' new? told => ?_
      cases new? with
      | none => exact pure fun _ => ⟨rfl, told rfl⟩
      | some new => exact (ih new c').andThen fun _ _ => moves
  refine get (fun r => ?_) fun _ => repeated _ _ _
  rw [Region.stepBound_orphaned]

theorem refineBinary : Composed x c (refineBinary x.s refine whether n)
    (refineBinary x.s' refine' whether n) (TellingPass n c) := by
  refine (refineSlot refines).bind fun c₁ left first => ?_
  refine (refineSlot refines).bind fun c₂ right second => ?_
  exact (settle refines).bind fun c₃ out third => pure (by grind)

/-! ### Unary operators, selections and loads -/

theorem settleNot : Composed x c (settleNot x.s refine n) (settleNot x.s' refine' n)
    (TellingPass n c) := by
  refine kid.after fun operand => ?_
  refine node (fun _ _ _ => rfl) fun e => ?_
  refine node (fun _ _ _ => rfl) fun d => ?_
  dsimp only
  cases found : e.code.inverted? with
  | none => cases d.code <;> exact foldIfAsked
  | some inverted =>
    have binary : inverted.isBinary = true := by
      cases code : e.code <;> rw [code] at found <;> cases found <;> rfl
    cases d.code
    case lnot =>
      refine (setCode binary).andThen fun _ _ => takeKid.andThen fun _ _ => ?_
      refine release.andThen fun _ _ => fired.after fun _ => ?_
      refine (settle refines).andThen fun _ out => ?_
      exact retype.andThen fun _ new => moves
    all_goals exact foldIfAsked

theorem refineNot : Composed x c (refineNot x.s refine n) (refineNot x.s' refine' n)
    (TellingPass n c) := by
  refine (refineSlot refines).bind fun c₁ below first => ?_
  exact (settleNot refines).bind fun c₂ out second => pure (by grind)

theorem refineNeg : Composed x c (refineNeg x.s refine n) (refineNeg x.s' refine' n)
    (TellingPass n c) := by
  refine (refineSlot refines).bind fun c₁ below first => ?_
  refine foldIfAsked.bind fun c₂ out second => split (fun _ => moves) fun still => ?_
  refine kid.after fun inner => ?_
  refine node (fun _ _ _ => rfl) fun e => ite ?_ ?_
  · have unmarked : c₂ = c₁ := (second (Bool.eq_false_of_not_eq_true still)).2
    exact pure fun off => ⟨rfl, unmarked.trans (first off)⟩
  · refine kid.after fun operand => takeKid.andThen fun _ _ => ?_
    refine discardTree.andThen fun _ _ => ?_
    exact fired.after fun _ => moves

omit refines in
theorem dropInnerCvt : Uniform x c (dropInnerCvt n) (TellingFlag c) := by
  refine kid.after fun inner => ?_
  refine node (fun _ _ _ => rfl) fun e => ite off ?_
  refine kid.after fun operand => layout.after fun l => ?_
  refine node (fun _ _ _ => rfl) fun d => ite off ?_
  refine takeKid.andThen fun _ _ => takeKid.andThen fun _ _ => ?_
  refine release.andThen fun _ _ => setKid.andThen fun _ _ => ?_
  exact fired.after fun _ => on

omit refines in
theorem foldCvt {ty : Ty} : Both x c (foldCvt · ty n) (TellingStep c) := by
  refine kid.after fun operand => ?_
  refine node (fun _ _ _ => rfl) fun d => ite ?_ ?_
  · exact restamp.andThen fun _ _ => fired.after fun _ => firing spliceKid
  · cases d.floatLit? with
    | none => exact declines
    | some v =>
      cases ty.isFloat with
      | false => exact declines
      | true => exact restamped.andThen fun _ _ => fired.after fun _ => firing spliceKid

theorem refineCvt : Composed x c (refineCvt x.s refine n) (refineCvt x.s' refine' n)
    (TellingPass n c) := by
  refine (refineSlot refines).bind fun c₁ below first => ?_
  refine dropInnerCvt.bind fun c₂ dropped second => ?_
  refine kid.after fun operand => ?_
  refine node (fun _ _ _ => rfl) fun d => ?_
  refine node (fun _ _ _ => rfl) fun e => ite ?_ (ite ?_ ?_)
  · exact fired.after fun _ => spliceKid.andThen fun _ kept => moves
  · refine foldCvt.bind fun c₃ new? third => ?_
    cases new? with
    | none => exact pure (by grind)
    | some new => exact moves
  · exact pure (by grind)

theorem refineCondition : Composed x c (refineCondition x.s refine n)
    (refineCondition x.s' refine' n) (TellingPass n c) := by
  have judged (c' : Bool) (out : NodeId × Bool) (told : TellingPass n c c' out) :
      Uniform x c' (do
        if (← Edit.node out.1).code.isJudge then return (out.1, out.2)
        return (← Edit.judgement out.1, true)) (TellingPass n c) :=
    node (fun _ _ _ => rfl) fun _ => ite (pure told) (judgement.andThen fun _ _ => moves)
  refine node (fun _ _ _ => rfl) fun d => ite ?_ ?_
  · exact (refineBinary refines).bind judged
  · exact (refines c n).bind judged

omit refines in
theorem selectToNot : Uniform x c (selectToNot n) (TellingStep c) := by
  refine kid.after fun pred => kid.after fun yes => ?_
  refine node (fun _ _ _ => rfl) fun dYes => ?_
  cases dYes.intLit? with
  | none => exact declines
  | some v =>
    refine kid.after fun no => ?_
    refine node (fun _ _ _ => rfl) fun dNo => ?_
    cases dNo.intLit? with
    | none => exact declines
    | some w =>
      refine node (fun _ _ _ => rfl) fun dPred => ite declines ?_
      refine kid.after fun right => ?_
      refine node (fun _ _ _ => rfl) fun dRight => ite declines ?_
      refine kid.after fun left => takeKid.andThen fun _ _ => ?_
      refine discardTree.andThen fun _ _ => ?_
      exact fired.after fun _ => firing logicalNot

theorem refinePredicate : Composed x c (refinePredicate x.s refine n)
    (refinePredicate x.s' refine' n) (TellingFlag c) :=
  kid.after fun _ => node (fun _ _ _ => rfl) fun _ => ite off (refill (refineCondition refines))

omit refines in
theorem foldPredicate : Both x c (foldPredicate · n) (TellingFlag c) := by
  refine kid.after fun pred => foldIfAsked.bind fun c' out told => ?_
  refine split (fun changed => ?_) fun _ => ?_
  · exact setKid.andThen fun _ _ => pure fun off => absurd (changed.symm.trans off) (by decide)
  · exact pure fun off => (told off).2

theorem refineSelect : Composed x c (refineSelect x.s refine n)
    (refineSelect x.s' refine' n) (TellingPass n c) := by
  refine (refinePredicate refines).bind fun c₁ inPred h₁ => ?_
  refine (refineSlot refines).bind fun c₂ inYes h₂ => ?_
  refine (refineSlot refines).bind fun c₃ inNo h₃ => ?_
  refine foldPredicate.bind fun c₄ folded h₄ => ?_
  refine kid.after fun pred => ?_
  refine node (fun _ _ _ => rfl) fun dPred => ?_
  cases dPred.truth? with
  | some taken => exact fired.after fun _ => spliceKid.andThen fun _ branch => moves
  | none =>
    refine ite (pure (by grind)) (node (fun _ _ _ => rfl) fun d => ?_)
    refine selectToNot.bind fun c₅ negation? h₅ => ?_
    cases negation? with
    | none => exact pure (by grind)
    | some negation =>
      refine (settleNot refines).andThen fun _ out => ?_
      exact retype.andThen fun _ new => moves

theorem refineIndirectLoad : Composed x c (refineIndirectLoad refine n)
    (refineIndirectLoad refine' n) (TellingPass n c) := by
  refine (refineSlot refines).bind fun c' below told => ?_
  refine kid.after fun base => ?_
  refine node (fun _ _ _ => rfl) fun dBase => ?_
  cases addressTarget? dBase with
  | none => exact pure fun off => ⟨rfl, told off⟩
  | some target =>
    refine node (fun _ _ _ => rfl) fun d => (lift Region.addOffsets_answers).after fun sum => ?_
    have rest : Uniform x c' (loadFor n target.1 sum d.ty >>= fun ld => do
        Edit.discardTree n
        Edit.fired .ildOfLda n
        return (ld, true)) (TellingPass n c) := by
      refine (change .loadFor).andThen fun _ ld => discardTree.andThen fun _ _ => ?_
      exact fired.after fun _ => moves
    simpa only [loadFor, bind_assoc, pure_bind] using rest

theorem refineElement :
    Composed x c (refineElement refine n) (refineElement refine' n) (TellingPass n c) := by
  refine (refineSlot refines).bind fun c₁ inBase first => ?_
  exact (refineSlotList refines).bind fun c₂ inSubs second => pure (by grind)

end passes

theorem refineExprWithin {fuel : Nat} :
    Both x c (refineExprWithin · fuel n) (TellingPass n c) := by
  induction fuel generalizing n c with
  | zero => exact exhausted
  | succ fuel ih =>
    have below (c : Bool) (k : NodeId) := ih (n := k) (c := c)
    refine node (fun _ _ _ => rfl) fun d => ?_
    dsimp only
    cases d.code
    case const | id | ld | pr | lda => exact stays
    case ild => exact refineIndirectLoad below
    case array => exact refineElement below
    case select => exact refineSelect below
    case neg => exact refineNeg below
    case lnot | bnot => exact refineNot below
    case cvt => exact refineCvt below
    all_goals exact ite (refineBinary below) ((requires (by simp)).after fun _ => stays)

theorem refineExpr : Both x c (refineExpr · n) (TellingPass n c) := by
  refine get (fun r => ?_) fun _ => refineExprWithin
  rw [Region.stepBound_orphaned]


/-! ### Parents and blocks -/

theorem setParent {p : Option NodeId} : Uniform x c (setParent n p) Any :=
  change (.modifyNode (fun _ _ => rfl) fun _ => ⟨_, _, _, rfl⟩)

theorem adoptKids : Uniform x c (adoptKids n) Any :=
  node (fun _ _ _ => rfl) fun _ => forM fun _ _ => setParent

theorem adoptAll : Uniform x c (adoptAll n) Any := by
  have within (fuel : Nat) (n : NodeId) (c : Bool) : Uniform x c (adoptAllWithin fuel n) Any := by
    induction fuel generalizing n c with
    | zero => exact exhausted
    | succ fuel ih =>
      refine node (fun _ _ _ => rfl) fun d => forM fun _ k => ?_
      exact setParent.andThen fun _ _ => ih k _
  refine get (fun r => ?_) fun _ => within _ _ _
  rw [Region.depthBound_orphaned]

/-! ### Statements -/

theorem gone {unlinked : Bool} :
    Uniform x c (Pure.pure (Outcome.deleted unlinked)) (TellingOutcome m c₀) :=
  pure fun off => Bool.noConfusion off

theorem stands {changed : Bool} (still : changed = false → c = c₀) :
    Uniform x c (Pure.pure (Outcome.stands n changed)) (TellingOutcome n c₀) :=
  pure fun off => ⟨rfl, still off⟩

theorem fitStored : Both x c (fitStored · n i) (TellingFlag c) :=
  ite (node (fun _ _ _ => rfl) fun _ => fitSlot) Composed.off

theorem isRegisterSelfCopy : Uniform x c (isRegisterSelfCopy n) (Unmarked c) := by
  refine kid.after fun k => ?_
  refine node (fun _ _ _ => rfl) fun e => ?_
  refine node (fun _ _ _ => rfl) fun d => ?_
  exact pure rfl

theorem sameLocation? : Uniform x c (sameLocation? n m) (Unmarked c) := by
  have located (k : NodeId) : Uniform x c (Edit.ask (·.exactRef? k)) (Unmarked c) :=
    askPlain (fun _ => Region.exactRef?_orphaned) fun _ => Region.exactRef?_answers
  refine (located n).after fun x? => (located m).after fun y? => ?_
  cases x? <;> cases y? <;> exact pure rfl

theorem storesBack : Uniform x c (storesBack n m) (Unmarked c) := by
  refine sameLocation?.after fun same? => ?_
  cases same? with
  | some same => exact pure rfl
  | none => exact node (fun _ _ _ => rfl) fun d => node (fun _ _ _ => rfl) fun e => pure rfl

theorem storesElementBack : Uniform x c (storesElementBack n m) (Unmarked c) := by
  refine sameLocation?.after fun same? => ?_
  cases same? with
  | some same => exact pure rfl
  | none =>
    refine node (fun _ _ _ => rfl) fun d => ?_
    refine node (fun _ _ _ => rfl) fun e => ite (pure rfl) ?_
    refine slot.after fun subs => slot.after fun storedSubs => ?_
    refine kid.after fun base => kid.after fun storedBase => ?_
    refine sameTree.after fun same => ite (pure rfl) (ite (pure rfl) ?_)
    exact allM fun _ => sameTree

theorem uniformValue? : Uniform x c (uniformValue? n) (Unmarked c) := by
  refine kids.after fun ks => ?_
  cases ks with
  | nil => exact pure rfl
  | cons k ks =>
    refine node (fun _ _ _ => rfl) fun d => ?_
    cases d.intLit? with
    | none => exact pure rfl
    | some v =>
      refine (allM fun _ => ?_).after fun same => pure rfl
      exact node (fun _ _ _ => rfl) fun e => pure rfl

theorem refineConditionSlot : Both x c (refineConditionSlot · n) (TellingFlag c) :=
  kid.after fun _ => refill (refineCondition fun _ _ => refineExpr)

section statements

variable [seen : Whole x]

theorem deleteStmt : Uniform x c (deleteStmt n) Any := by
  refine hasEdges.after fun edges => ite ((change (.cutAll seen.whole)).andThen fun _ _ => ?_) ?_
  all_goals
    refine (change (.leaveBlock seen.whole)).andThen fun _ unlinked => ?_
    refine removeSsaUsesIn.andThen fun _ _ => ?_
    exact releaseTree.andThen fun _ _ => pure trivial

theorem deleted {rule : Rule} : Uniform x c (do
      Edit.fired rule n
      return Outcome.deleted (← Edit.deleteStmt n)) (TellingOutcome m c₀) :=
  fired.after fun _ => deleteStmt.andThen fun _ _ => gone

/-! ### Stores -/

theorem finishStmt {changed : Bool} : Both x c (finishStmt · n changed) fun c' out =>
    out = .stands n changed ∧ (changed = false → c' = c) := by
  refine split (fun on => ?_) fun _ => pure ⟨rfl, fun _ => rfl⟩
  refine adoptKids.andThen fun _ _ => (checkEdges seen.whole).andThen fun _ _ => ?_
  exact pure ⟨rfl, fun off => Bool.noConfusion (on.symm.trans off)⟩

theorem finishes {changed : Bool} (still : changed = false → c = c₀) :
    Both x c (Peephole.finishStmt · n changed) (TellingOutcome n c₀) := by
  refine finishStmt.imp fun c' out told off => ?_
  obtain ⟨rfl, same⟩ := told
  exact ⟨rfl, (same off).trans (still off)⟩

/-- What is left to do after the operands. -/
theorem finishing {e e' : Edit Bool} (h : Composed x c e e' (TellingFlag c)) :
    Composed x c (do Peephole.finishStmt x.s n (← e))
      (do Peephole.finishStmt x.s' n (← e')) (TellingOutcome n c) :=
  h.bind fun _ _ told => finishes told

theorem directStore? : Uniform x c (directStore? n) (TellingStep c) := by
  refine kid.after fun base => ?_
  refine node (fun _ _ _ => rfl) fun dBase => ?_
  cases addressTarget? dBase with
  | none => exact declines
  | some target =>
    refine node (fun _ _ _ => rfl) fun d => kid.after fun stored => takeKid.andThen fun c₁ _ => ?_
    refine (lift Region.addOffsets_answers).after fun sum => ?_
    have rest : Uniform x c₁ (storeFor n target.1 sum d.ty stored >>= fun st => do
        Functor.discard (Edit.leaveBlock n)
        Edit.discardTree n
        Edit.fired .istOfLda n
        return some st) (TellingStep c) := by
      refine (change (.storeFor seen.whole)).andThen fun _ st => ?_
      refine (change (.leaveBlock seen.whole)).discard.andThen fun _ _ => ?_
      refine discardTree.andThen fun _ _ => ?_
      exact fired.after fun _ => fires
    simpa only [storeFor, bind_assoc, pure_bind] using rest

section stores

variable {refine refine' : Pass}
  (refines : ∀ c k, Composed x c (refine k) (refine' k) (TellingPass k c))
include refines

theorem refineIndirectStore : Composed x c (refineIndirectStore x.s refine n)
    (refineIndirectStore x.s' refine' n) (TellingOutcome n c) := by
  refine (refineSlot refines).bind fun c₁ inBase h₁ => ?_
  refine (refineSlot refines).bind fun c₂ inStored h₂ => ?_
  refine directStore?.bind fun c₃ direct? h₃ => ?_
  refine fitStored.bind fun c₄ fitted h₄ => ?_
  cases direct? with
  | none => exact finishes (by grind)
  | some st =>
    refine finishStmt.imp fun c₅ out told off => ?_
    obtain ⟨rfl, _⟩ := told
    simp [Outcome.stands] at off

theorem refineStore : Composed x c (refineStore x.s refine n) (refineStore x.s' refine' n)
    (TellingOutcome n c) := by
  refine ite (isRegisterSelfCopy.after fun copy => ite deleted ?_) ?_
  all_goals
    refine (refineSlot refines).bind fun c₁ inStored h₁ => ?_
    refine kid.after fun stored => ?_
    refine node (fun _ _ _ => rfl) fun e => ?_
    refine ite (storesBack.after fun back => ite deleted ?_) ?_
    all_goals exact fitStored.bind fun c₂ fitted h₂ => finishes (by grind)

theorem refineElementStore : Composed x c (refineElementStore x.s refine n)
    (refineElementStore x.s' refine' n) (TellingOutcome n c) := by
  refine (refineSlot refines).bind fun c₁ inBase h₁ => ?_
  refine (refineSlotList refines).bind fun c₂ inSubs h₂ => ?_
  refine (refineSlot refines).bind fun c₃ inStored h₃ => kid.after fun stored => ?_
  refine ite (storesElementBack.after fun back => ite deleted ?_) ?_
  all_goals exact fitStored.bind fun c₄ fitted h₄ => finishes (by grind)

end stores

/-! ### Uniform phis -/

theorem replaceUse {v : Word} : Uniform x c (replaceUse v n) Any := by
  refine node (fun off => Bool.noConfusion (seen.whole.symm.trans off)) fun d => ?_
  cases d.parent with
  | none => exact pure trivial
  | some p =>
    refine layout.after fun l => normalizeInt.after fun w => ?_
    refine literal.andThen fun _ lit => ?_
    refine (change (.replaceKid seen.whole)).discard.andThen fun _ _ => ?_
    refine (change .removeSsaUse).andThen fun _ _ => ?_
    exact hasEdges.after fun _ => ite ((change .cutUses).andThen fun _ _ => release) release

theorem allAttached {us : List NodeId} : Both x c (allAttached · us) (Unmarked c) := by
  induction us with
  | nil => exact pure rfl
  | cons u us ih =>
    refine node (fun off => Bool.noConfusion (seen.whole.symm.trans off)) fun d => ?_
    exact (require (by simp)).after fun _ => ite ih (pure rfl)

theorem propagatePhi : Both x c (propagatePhi · n) (TellingStep c) := by
  refine uniformValue?.after fun v? => ?_
  refine node (fun _ _ _ => rfl) fun d => ?_
  dsimp only
  cases v? with
  | none => exact declines
  | some v =>
    cases d.ssa with
    | none => exact declines
    | some value =>
      refine (askPlain (fun _ => rfl) fun _ => Region.lookup_answers).after fun known => ?_
      refine allAttached.after fun attached => ite ?_ declines
      refine (forM fun _ _ => replaceUse).andThen fun _ _ => ?_
      refine (change (.clearSsaUses seen.whole)).andThen fun _ _ => ?_
      exact fired.after fun _ => deleteStmt.andThen fun _ unlinked => fires

/-! ### Conditions and bodies -/

theorem refineBranch : Both x c (refineBranch · n) (TellingOutcome n c) := by
  have asOne (s : Setting) : Peephole.refineBranch s n = (do
      let inCond ← Peephole.refineConditionSlot s n
      let cond ← Edit.kid n 0
      let inverted ← Peephole.invertBranch n cond
      Peephole.finishStmt s n (inCond || inverted)) := by
    refine bind_congr fun inCond => bind_congr fun cond => ?_
    simp only [Peephole.invertBranch, bind_assoc]
    refine bind_congr fun d => ?_
    split
    · rw [bind_assoc]
      refine bind_congr fun e => ?_
      split <;> simp
    · simp
  simp only [asOne]
  refine refineConditionSlot.bind fun c₁ inCond h₁ => kid.after fun cond => ?_
  exact (invertBranch seen.whole).bind fun c₂ inverted h₂ => finishes (by grind)

section compounds

variable {refine refine' : NodeId → Edit Outcome}
  (refines : ∀ c k, Composed x c (refine k) (refine' k) (TellingOutcome k c))
include refines

omit seen in
theorem sweepList {left : Nat} {ns : List NodeId} :
    Composed x c (sweepList refine x.options.sweepCap left ns)
      (sweepList refine' x.options.sweepCap left ns)
      (Telling (·.2 = false) (·.1 = ns) c) := by
  induction left generalizing ns c with
  | zero => exact pure fun _ => ⟨rfl, rfl⟩
  | succ left ih =>
    refine (mapM refines).bind fun c₁ outs told => ?_
    refine split (fun off => ?_) fun _ => ite ?_ ?_
    · obtain ⟨all, same⟩ := told (by simpa using off)
      have kept : outs.filterMap (·.node) = ns := by
        clear off told
        induction all with
        | nil => rfl
        | cons here _ ih => rw [List.filterMap_cons_some here, ih]
      exact pure fun _ => ⟨kept, same⟩
    · exact (report fun _ => rfl).after fun _ => pure fun off => Bool.noConfusion off
    · exact ih.andThen fun _ _ => pure fun off => Bool.noConfusion off

omit seen in
theorem refineBody : Composed x c (refineBody x.s refine n i) (refineBody x.s' refine' n i)
    (TellingFlag c) := by
  refine kids.after fun ks => (sweepList refines).bind fun c₁ out told => ?_
  refine split (fun on => (change .setKids).andThen fun _ _ => ?_) fun _ => ?_
  · exact pure fun off => Bool.noConfusion (on.symm.trans off)
  · exact pure fun off => (told off).2

omit seen in
theorem refineCompound {bodies : List Nat} : Composed x c (refineCompound x.s refine bodies n)
    (refineCompound x.s' refine' bodies n) (TellingOutcome n c) := by
  refine refineConditionSlot.bind fun c₁ inCond h₁ => ?_
  exact (someOf fun _ _ => refineBody refines).bind fun c₂ inBodies h₂ => stands (by grind)

theorem refineSwitch : Composed x c (refineSwitch x.s refine n)
    (refineSwitch x.s' refine' n) (TellingOutcome n c) := by
  refine (refineSlot fun _ _ => refineExpr).bind fun c₁ inValue h₁ => ?_
  refine split (fun on => (checkEdges seen.whole).andThen fun _ _ => ?_) fun _ => ?_
  · refine (refineBody refines).andThen fun _ inBody => ?_
    exact stands (by simp [on])
  · exact (refineBody refines).bind fun c₂ inBody h₂ => stands (by grind)

omit refines in
theorem refineIndirectCall : Both x c (fun s => do
      let inCallee ← Peephole.refineSlot (Peephole.refineExpr s) n 0
      let inArgs ← Peephole.refineSlotList (Peephole.refineExpr s) n 1
      Peephole.finishStmt s n (inCallee || inArgs)) (TellingOutcome n c) := by
  refine (refineSlot fun _ _ => refineExpr).bind fun c₁ inCallee h₁ => ?_
  refine (refineSlotList fun _ _ => refineExpr).bind fun c₂ inArgs h₂ => ?_
  exact finishes (by grind)

theorem refineStmt : Composed x c (refineStmt x.s refine n) (refineStmt x.s' refine' n)
    (TellingOutcome n c) := by
  refine node (fun _ _ _ => rfl) fun d => ?_
  dsimp only
  cases d.code
  case st | stpr => exact refineStore fun _ _ => refineExpr
  case starray => exact refineElementStore fun _ _ => refineExpr
  case ist => exact refineIndirectStore fun _ _ => refineExpr
  case phi =>
    refine propagatePhi.bind fun c₁ unlinked? told => ?_
    cases unlinked? with
    | none => exact stands fun _ => told rfl
    | some unlinked => exact gone
  case call => exact finishing (refineSlotList fun _ _ => refineExpr)
  case icall => exact refineIndirectCall
  case ret | igoto => exact finishing (refineSlot fun _ _ => refineExpr)
  case ifElse | whileDo | doWhile | doLoop => exact refineCompound refines
  case switch => exact refineSwitch refines
  case trueBr | falseBr => exact refineBranch
  case goto | label | breakLoop | continueLoop => exact stands fun _ => rfl
  all_goals exact (requires (by simp)).after fun _ => stands fun _ => rfl

end compounds

theorem refineWithin {fuel : Nat} : Both x c (refineWithin · fuel n) (TellingOutcome n c) := by
  induction fuel generalizing n c with
  | zero => exact exhausted
  | succ fuel ih =>
    refine isExpr.after fun expr => ite (refineExpr.bind fun c₁ out told => ?_) ?_
    · exact pure fun off => ⟨congrArg some (told off).1, (told off).2⟩
    · refine (refineStmt fun _ _ => ih).bind fun c₁ outcome told => ?_
      cases here : outcome.node with
      | none => exact pure told
      | some new =>
        refine split (fun on => adoptAll.andThen fun _ _ => ?_) fun _ => pure told
        exact pure fun off => Bool.noConfusion (on.symm.trans off)

theorem refine : Both x c (refine · n) (TellingOutcome n c) := by
  refine get (fun r => ?_) fun _ => refineWithin
  rw [Region.depthBound_orphaned]

/-! ### Blocks -/

variable {b : BlockId}

theorem refineList {ns : List NodeId} :
    Both x c (refineList · ns) (Telling (·.2 = false) (·.1 = ns) c) :=
  sweepList fun _ _ => refine

omit seen in
theorem stmts : Uniform x c (stmts b) (Unmarked c) :=
  askPlain (fun _ => rfl) fun _ => Region.lookup_answers

theorem refineInBlock : Both x c (refineInBlock · b n) (TellingFlag c) := by
  refine stmts.after fun ss => ?_
  cases ss.idxOf? n with
  | none => exact Composed.off
  | some pos =>
    refine refine.bind fun c₁ outcome told => ?_
    have still (off : outcome.changed = false) : outcome.node = some n ∧ c₁ = c := told off
    cases here : outcome.node with
    | none =>
      refine ite (.bind (P := fun _ _ => False) misuse fun _ _ none => none.elim) ?_
      exact pure fun off => (still off).2
    | some new =>
      rw [here] at still
      refine split (fun moved => ?_) fun _ => pure fun off => (still off).2
      refine (change (.insertStmt seen.whole)).andThen fun _ _ => pure fun off => ?_
      exact absurd (Option.some.inj (still off).1) moved

theorem refineBlock : Both x c (refineBlock · b) Any := by
  have sweeps (left done : Nat) (c : Bool) : Both x c (sweepsOfBlock · b left done) Any := by
    induction left generalizing done c with
    | zero => exact pure trivial
    | succ left ih =>
      refine (stmts.after fun ss => someOf fun _ _ => refineInBlock).andThen ?_
      intro _ changed
      exact ite ((ih _ _).andThen fun _ _ => pure trivial) (pure trivial)
  refine (sweeps _ _ _).andThen fun _ done => ite ((noted rfl).after fun _ => ?_) ?_
  all_goals exact (noted rfl).after fun _ => pure trivial

theorem refineRegion : Both x c (refineRegion ·) Any := by
  have each (c : Bool) (b : BlockId) : Both x c (Peephole.refineBlock · b)
      (Telling (fun _ => False) (fun _ => True) c) := refineBlock.imp fun _ _ _ => False.elim
  refine ite (pure trivial) (get (fun _ => rfl) fun r => ?_)
  exact (mapM each).andThen fun _ reports => (noted rfl).after fun _ => pure trivial

end statements

end Composed

end Peephole
