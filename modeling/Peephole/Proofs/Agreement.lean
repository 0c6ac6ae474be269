import Peephole.Proofs.Nodes
import Peephole.Refine.Blocks

/-!
# Agreement of edits

One edit agrees with another if the other follows each of its runs that return: from a region that
looks the same it returns the same result and leaves a region that looks the same. A run that is
exhausted is followed too. Regions are compared as a whole, or without the links from nodes to their
parents, which no edit of an expression reads.
-/

namespace Peephole

open Edit

variable {α β : Type} {parents : Bool} {r r₁ : Region} {n : NodeId} {i : Nat}

namespace Region

/-- The region without the links from nodes to their parents. -/
def orphaned (r : Region) : Region :=
  { r with nodes := r.nodes.map (Option.map (Node.under · none)) }

/-- What is compared of a region, with the parents of nodes or without them. -/
def seen (parents : Bool) (r : Region) : Region := if parents then r else r.orphaned

theorem size_orphaned : r.orphaned.nodes.size = r.nodes.size := by simp [orphaned]

theorem isReleased_orphaned : r.orphaned.isReleased n = r.isReleased n := by
  simp only [isReleased, orphaned, Array.getElem?_map]
  rcases r.nodes[n.index]? with _ | _ | d <;> rfl

theorem node_orphaned : r.orphaned.node n = (r.node n).map (Node.under · none) := by
  simp only [node, orphaned, Array.getElem?_map]
  rcases r.nodes[n.index]? with _ | _ | d <;> rfl

theorem orphaned_put {d : Option Node} :
    (r.put n d).orphaned = r.orphaned.put n (d.map (Node.under · none)) := by
  simp only [orphaned, put, Array.map_setIfInBounds]

theorem orphaned_push {d : Node} : (r.push d).orphaned = r.orphaned.push (d.under none) := by
  simp [orphaned, push]

theorem orphaned_orphaned : r.orphaned.orphaned = r.orphaned := by
  simp only [orphaned, Array.map_map]
  congr 2
  funext d
  cases d <;> rfl

theorem depthBound_orphaned : r.orphaned.depthBound = r.depthBound :=
  congrArg (· + 1) size_orphaned

theorem stepBound_orphaned : r.orphaned.stepBound = r.stepBound := by
  unfold stepBound
  rw [size_orphaned]

/-- What does not depend on parents is the same in regions that look the same. -/
theorem congr_of_seen {f : Region → α} (blind : ∀ r, f r.orphaned = f r)
    (same : r₁.seen parents = r.seen parents) : f r₁ = f r := by
  cases parents with
  | true => exact congrArg f same
  | false => rw [← blind r₁, ← blind r, show r₁.orphaned = r.orphaned from same]

theorem orphaned_of_seen (same : r₁.seen parents = r.seen parents) : r₁.orphaned = r.orphaned :=
  congr_of_seen (fun _ => orphaned_orphaned) same

theorem nodeToEdit_orphaned :
    r.orphaned.nodeToEdit n = (r.nodeToEdit n).map (Node.under · none) := by
  simp only [nodeToEdit, orphaned, Array.getElem?_map]
  rcases r.nodes[n.index]? with _ | _ | d <;> rfl

/-! ### Questions about a region -/

theorem node_orphaned_bind {k : Node → Except Fault α} (blind : ∀ d, k (d.under none) = k d) :
    r.orphaned.node n >>= k = r.node n >>= k := by
  rw [node_orphaned]
  cases r.node n with
  | error f => rfl
  | ok d => exact blind d

theorem kid_orphaned : r.orphaned.kid n i = r.kid n i := node_orphaned_bind fun _ => rfl

theorem kid?_orphaned : r.orphaned.kid? n i = r.kid? n i := node_orphaned_bind fun _ => rfl

theorem kids_orphaned : r.orphaned.kids n i = r.kids n i := node_orphaned_bind fun _ => rfl

theorem access_orphaned : r.orphaned.access n = r.access n := node_orphaned_bind fun _ => rfl

theorem peers_orphaned : r.orphaned.peers n = r.peers n := by
  unfold peers
  rw [access_orphaned]

theorem exactRef?_orphaned : r.orphaned.exactRef? n = r.exactRef? n := by
  unfold exactRef?
  rw [access_orphaned]
  rfl

theorem touched_orphaned : r.orphaned.touched n = r.touched n := by
  unfold touched
  rw [access_orphaned]
  rfl

theorem edgeJustified_orphaned {a b : NodeId} :
    r.orphaned.edgeJustified a b = r.edgeJustified a b := by
  unfold edgeJustified
  rw [touched_orphaned, touched_orphaned]
  rfl

theorem checkUnlinked_orphaned : r.orphaned.checkUnlinked n = r.checkUnlinked n :=
    node_orphaned_bind fun _ => rfl

theorem checkNoEdges_orphaned {ns : List NodeId} :
    r.orphaned.checkNoEdges ns n = r.checkNoEdges ns n := by
  unfold checkNoEdges
  simp only [peers_orphaned, isReleased_orphaned]

theorem checkNoUses_orphaned {ns : List NodeId} :
    r.orphaned.checkNoUses ns n = r.checkNoUses ns n := by
  unfold checkNoUses
  simp only [isReleased_orphaned]
  exact node_orphaned_bind fun _ => rfl

theorem checkUnreferenced_orphaned {ns : List NodeId} :
    r.orphaned.checkUnreferenced ns = r.checkUnreferenced ns := by
  unfold checkUnreferenced
  simp only [checkNoEdges_orphaned, checkNoUses_orphaned]

theorem subtree_orphaned : r.orphaned.subtree n = r.subtree n := by
  have within (fuel : Nat) (n : NodeId) :
      r.orphaned.subtreeWithin fuel n = r.subtreeWithin fuel n := by
    induction fuel generalizing n with
    | zero => rfl
    | succ fuel ih =>
      unfold subtreeWithin
      rw [show r.orphaned.subtreeWithin fuel = r.subtreeWithin fuel from funext ih]
      exact node_orphaned_bind fun _ => rfl
  unfold subtree
  rw [depthBound_orphaned, within]

theorem sameTree_orphaned {a b : NodeId} : r.orphaned.sameTree a b = r.sameTree a b := by
  have within (fuel : Nat) (a b : NodeId) :
      r.orphaned.sameTreeWithin fuel a b = r.sameTreeWithin fuel a b := by
    induction fuel generalizing a b with
    | zero => rfl
    | succ fuel ih =>
      unfold sameTreeWithin
      simp only [ih]
      by_cases same : a = b
      · rw [if_pos same, if_pos same]
      · rw [if_neg same, if_neg same, node_orphaned_bind]
        · exact bind_congr fun _ => node_orphaned_bind fun _ => rfl
        · exact fun _ => rfl
  unfold sameTree
  rw [depthBound_orphaned, within]

end Region

/-- `out'` follows `out`: it has the same result and a region that looks the same, or is exhausted
as well. -/
def Follows (parents : Bool) : Except Fault (α × Region) → Except Fault (α × Region) → Prop
  | .ok (a, r), out' => ∃ r', out' = .ok (a, r') ∧ r'.seen parents = r.seen parents
  | .error f, out' => f = .exhausted → out' = .error f

/-- Every run of `m` that returns or is exhausted is followed by `m'` on any region that looks the
same. -/
def Agrees (parents : Bool) (m m' : Edit α) : Prop :=
  ∀ r r₁, r₁.seen parents = r.seen parents → Follows parents (m.run r) (m'.run r₁)

/-- The edit depends on no parent of a node. -/
abbrev Blind (m : Edit α) : Prop := Agrees false m m

theorem run_bind_eq_ok {m : Edit α} {k : α → Edit β} {b : β} {r' : Region} :
    (m >>= k).run r = .ok (b, r') ↔
      ∃ a r'', m.run r = .ok (a, r'') ∧ (k a).run r'' = .ok (b, r') := by
  rw [StateT.run_bind]
  cases first : m.run r with
  | error f => simp [bind, Except.bind]
  | ok out => simp [bind, Except.bind, Prod.ext_iff]

theorem run_ask_eq_ok {q : Region → Except Fault α} {a : α} {r' : Region} :
    (ask q).run r = .ok (a, r') ↔ q r = .ok a ∧ r' = r := by
  have unfolded : (ask q).run r = (liftM (q r) : Edit α).run r := rfl
  rw [unfolded]
  cases q r with
  | error f => exact ⟨nofun, fun answer => nomatch answer.1⟩
  | ok a' =>
    have ran : (liftM (Except.ok a' : Except Fault α) : Edit α).run r = .ok (a', r) := rfl
    simp [ran, eq_comm]

namespace Agrees

variable {m m' : Edit α}

theorem returns {a : α} {r' : Region} (h : Agrees parents m m')
    (same : r₁.seen parents = r.seen parents) (run : m.run r = .ok (a, r')) :
    ∃ r₁', m'.run r₁ = .ok (a, r₁') ∧ r₁'.seen parents = r'.seen parents := by
  have follows := h r r₁ same
  rwa [run] at follows

theorem refl : Agrees true m m := by
  intro r r₁ same
  have same : r₁ = r := same
  subst same
  cases m.run r₁ with
  | ok out => exact ⟨out.2, rfl, rfl⟩
  | error f => exact fun _ => rfl

theorem of_blind (h : Blind m) : Agrees parents m m := by
  cases parents with
  | true => exact refl
  | false => exact h

theorem pure (a : α) : Agrees parents (Pure.pure a : Edit α) (Pure.pure a) :=
  fun _ r₁ same => ⟨r₁, rfl, same⟩

theorem throw (f : Fault) : Agrees parents (throw f : Edit α) (throw f) := fun _ _ _ _ => rfl

/-- A run that stops for another reason need not be followed. -/
theorem stop {f : Fault} (other : f ≠ .exhausted) : Agrees parents (MonadExcept.throw f) m' :=
  fun _ _ _ same => absurd same other

/-- Only results that a run returns have to be followed. -/
theorem bind_of {k k' : α → Edit β} (first : Agrees parents m m')
    (next : ∀ a r r', m.run r = .ok (a, r') → Agrees parents (k a) (k' a)) :
    Agrees parents (m >>= k) (m' >>= k') := by
  intro r r₁ same
  have start := first r r₁ same
  rw [StateT.run_bind, StateT.run_bind]
  cases ran : m.run r with
  | error f =>
    rw [ran] at start
    intro exhausted
    rw [start exhausted]
    rfl
  | ok out =>
    rw [ran] at start
    obtain ⟨mid, start, same'⟩ := start
    rw [start]
    exact next out.1 r out.2 ran out.2 mid same'

theorem bind {k k' : α → Edit β} (first : Agrees parents m m')
    (next : ∀ a, Agrees parents (k a) (k' a)) : Agrees parents (m >>= k) (m' >>= k') :=
  first.bind_of fun a _ _ _ => next a

theorem map {f : α → β} (h : Agrees parents m m') : Agrees parents (f <$> m) (f <$> m') := by
  rw [map_eq_pure_bind, map_eq_pure_bind]
  exact h.bind fun _ => pure _

theorem discard (h : Agrees parents m m') : Agrees parents (discard m) (discard m') := h.map

theorem ite {c : Prop} [Decidable c] {k k' : Edit α} (yes : Agrees parents m m')
    (no : Agrees parents k k') : Agrees parents (if c then m else k) (if c then m' else k') := by
  by_cases h : c
  · rw [if_pos h, if_pos h]
    exact yes
  · rw [if_neg h, if_neg h]
    exact no

theorem and {m m' k k' : Edit Bool} (first : Agrees parents m m') (second : Agrees parents k k') :
    Agrees parents (m <&&> k) (m' <&&> k') := by
  refine first.bind fun held => ?_
  cases held
  · exact pure _
  · exact second

/-! ### Loops -/

section loops

variable {xs : List α}

theorem forM {f f' : α → Edit PUnit} (each : ∀ x, Agrees parents (f x) (f' x)) :
    Agrees parents (xs.forM f) (xs.forM f') := by
  induction xs with
  | nil => exact pure _
  | cons x xs ih => exact (each x).bind fun _ => ih

theorem mapM {f f' : α → Edit β} (each : ∀ x, Agrees parents (f x) (f' x)) :
    Agrees parents (xs.mapM f) (xs.mapM f') := by
  induction xs with
  | nil => exact pure _
  | cons x xs ih =>
    rw [List.mapM_cons, List.mapM_cons]
    exact (each x).bind fun _ => ih.bind fun _ => pure _

theorem someOf {f f' : α → Edit Bool} (each : ∀ x, Agrees parents (f x) (f' x)) :
    Agrees parents (someOf f xs) (someOf f' xs) :=
  (mapM each).bind fun _ => pure _

end loops

/-! ### Questions -/

theorem lift (x : Except Fault α) : Agrees parents (liftM x : Edit α) (liftM x) := by
  cases x with
  | error f => exact throw f
  | ok a => exact pure a

theorem get {k k' : Region → Edit β} (blind : ∀ r, k' r.orphaned = k' r)
    (next : ∀ r, Agrees parents (k r) (k' r)) :
    Agrees parents (get >>= k) (get >>= k') := by
  intro r r₁ same
  have here : k' r₁ = k' r := Region.congr_of_seen blind same
  have rest := next r r r₁ same
  rwa [← here] at rest

theorem ask {q : Region → Except Fault α} (blind : ∀ r, q r.orphaned = q r) :
    Agrees parents (ask q) (ask q) :=
  get (fun r => congrArg _ (blind r)) fun _ => lift _

/-- A node that is read may have another parent. -/
theorem read {q : Region → Except Fault Node} {k k' : Node → Edit β}
    (blind : ∀ r, q r.orphaned = (q r).map (Node.under · none))
    (next : ∀ d p, Agrees parents (k d) (k' (d.under p))) :
    Agrees parents (Edit.ask q >>= k) (Edit.ask q >>= k') := by
  intro r r₁ same
  have shown : (q r₁).map (Node.under · none) = (q r).map (Node.under · none) := by
    rw [← blind, ← blind, Region.orphaned_of_seen same]
  have asked {r : Region} {k : Node → Edit β} : (Edit.ask q >>= k).run r =
      (liftM (q r) >>= k : Edit β).run r := rfl
  rw [asked, asked]
  cases found : q r with
  | error f =>
    cases found₁ : q r₁ with
    | ok d₁ => simp [found, found₁, Except.map] at shown
    | error f₁ =>
      obtain rfl : f₁ = f := by simpa [found, found₁, Except.map] using shown
      exact fun _ => rfl
  | ok d =>
    cases found₁ : q r₁ with
    | error f₁ => simp [found, found₁, Except.map] at shown
    | ok d₁ =>
      have fields : d₁.under none = d.under none := by
        simpa [found, found₁, Except.map] using shown
      have restored : (d₁.under none).under d₁.parent = (d.under none).under d₁.parent := by
        rw [fields]
      rw [show d₁ = d.under d₁.parent from restored]
      exact next d d₁.parent r r₁ same

/-- What is read of a node does not depend on its parent. -/
theorem node {k k' : Node → Edit β} (blind : ∀ d p, k' (d.under p) = k' d)
    (next : ∀ d, Agrees parents (k d) (k' d)) :
    Agrees parents (node n >>= k) (node n >>= k') :=
  read (fun _ => Region.node_orphaned) fun d p => blind d p ▸ next d

/-- A node that goes into an edit may have another parent, which stays. -/
theorem node_under {k k' : Node → Edit β} (next : ∀ d p, Agrees false (k d) (k' (d.under p))) :
    Agrees false (Edit.node n >>= k) (Edit.node n >>= k') :=
  read (fun _ => Region.node_orphaned) next

theorem edit {k k' : Node → Edit β} (next : ∀ d p, Agrees false (k d) (k' (d.under p))) :
    Agrees false (Edit.ask (·.nodeToEdit n) >>= k) (Edit.ask (·.nodeToEdit n) >>= k') :=
  read (fun _ => Region.nodeToEdit_orphaned) next

/-! ### Changes -/

theorem change {f : Region → Region} (blind : ∀ r, (f r.orphaned).orphaned = (f r).orphaned) :
    Agrees parents (modify f : Edit PUnit) (modify f) := by
  refine of_blind fun r r₁ same => ?_
  exact ⟨f r₁, rfl, Region.congr_of_seen (f := fun r => (f r).orphaned) blind same⟩

/-- A change of something else than nodes. -/
theorem aside {f : Region → Region} (blind : ∀ r, f r.orphaned = (f r).orphaned) :
    Agrees parents (modify f : Edit PUnit) (modify f) := by
  refine change fun r => ?_
  rw [blind, Region.orphaned_orphaned]

theorem changeGet {f : Region → α × Region} (result : ∀ r, (f r.orphaned).1 = (f r).1)
    (blind : ∀ r, (f r.orphaned).2.orphaned = (f r).2.orphaned) :
    Agrees parents (modifyGet f : Edit α) (modifyGet f) := by
  refine of_blind fun r r₁ same => ?_
  have results : (f r₁).1 = (f r).1 := Region.congr_of_seen (f := fun r => (f r).1) result same
  have regions : (f r₁).2.orphaned = (f r).2.orphaned :=
    Region.congr_of_seen (f := fun r => (f r).2.orphaned) blind same
  exact ⟨(f r₁).2, congrArg Except.ok (Prod.ext results rfl), regions⟩

theorem asideGet {f : Region → α × Region}
    (blind : ∀ r, f r.orphaned = ((f r).1, (f r).2.orphaned)) :
    Agrees parents (modifyGet f : Edit α) (modifyGet f) := by
  refine changeGet (fun r => ?_) fun r => ?_
  · rw [blind]
  · rw [blind, Region.orphaned_orphaned]

/-- The same node under another parent. -/
theorem putNode_under {d : Node} {p : Option NodeId} :
    Agrees false (Edit.putNode n d) (Edit.putNode n (d.under p)) := by
  intro r r₁ same
  have same : r₁.orphaned = r.orphaned := same
  refine ⟨r₁.put n (some (d.under p)), rfl, ?_⟩
  change (r₁.put n _).orphaned = (r.put n (some d)).orphaned
  rw [Region.orphaned_put, Region.orphaned_put, same]
  rfl

theorem modifyNode {f : Node → Node}
    (blind : ∀ d p, (f (d.under p)).under none = (f d).under none) :
    Agrees parents (modifyNode n f) (modifyNode n f) := by
  refine of_blind (edit fun d p => ?_)
  have fields : ((f (d.under p)).under none).under (f (d.under p)).parent =
      ((f d).under none).under (f (d.under p)).parent := by rw [blind]
  have moved : f (d.under p) = (f d).under (f (d.under p)).parent := fields
  rw [moved]
  exact putNode_under

/-! ### Single nodes -/

theorem isStmt : Agrees parents (isStmt n) (isStmt n) := node (fun _ _ => rfl) fun _ => pure _

theorem isExpr : Agrees parents (isExpr n) (isExpr n) := node (fun _ _ => rfl) fun _ => pure _

theorem hasEdges : Agrees parents hasEdges hasEdges := get (fun _ => rfl) fun _ => pure _

theorem isReleased : Agrees parents (isReleased n) (isReleased n) :=
  get (fun _ => by rw [Region.isReleased_orphaned]) fun _ => pure _

theorem subtree : Agrees parents (subtree n) (subtree n) := ask fun _ => Region.subtree_orphaned

theorem report {e : Event} : Agrees parents (report e) (report e) :=
  aside fun _ => rfl

theorem intern {t : Ty} : Agrees parents (intern t) (intern t) := by
  refine bind (aside fun r => ?_) fun _ => pure _
  change (if r.types.contains t = true then _ else _) = _
  by_cases known : r.types.contains t = true
  · rw [if_pos known, if_pos known]
  · rw [if_neg known, if_neg known]
    rfl

theorem setParent {p : Option NodeId} : Agrees parents (setParent n p) (setParent n p) :=
  modifyNode fun _ _ => rfl

theorem setCode {code : Op} : Agrees parents (setCode n code) (setCode n code) :=
  of_blind (edit fun _ _ => ite (throw _) putNode_under)

/-- A slot of the same node under another parent. -/
theorem setSlot {k k' : Node → Edit β} {d : Node} {p : Option NodeId} {ks : List NodeId}
    (next : ∀ d, Agrees false (k d) (k' (d.under p))) :
    Agrees false (liftM (d.setSlot i ks) >>= k) (liftM ((d.under p).setSlot i ks) >>= k') := by
  by_cases inside : i < d.slots.length
  · have inside' : i < (d.under p).slots.length := inside
    rw [Node.setSlot_of inside, Node.setSlot_of inside']
    exact next _
  · unfold Node.setSlot
    rw [if_neg inside]
    exact stop (f := .outOfRange) (by simp)

theorem setParents {ks : List NodeId} {p : Option NodeId} :
    Agrees parents (ks.forM (Edit.setParent · p)) (ks.forM (Edit.setParent · p)) :=
  forM fun _ => setParent

theorem setKid {x : Option NodeId} : Agrees parents (setKid n i x) (setKid n i x) := by
  refine of_blind (edit fun d p => setSlot fun d' => putNode_under.bind fun _ => ?_)
  cases x with
  | none => exact pure _
  | some k => exact setParent

theorem setKids {ks : List NodeId} : Agrees parents (setKids n i ks) (setKids n i ks) :=
  of_blind (setParents.bind fun _ => edit fun _ _ => setSlot fun _ => putNode_under)

theorem takeKids : Agrees parents (takeKids n i) (takeKids n i) := by
  refine of_blind (edit fun d p => (lift (d.slot i)).bind fun ks => setSlot fun _ => ?_)
  exact putNode_under.bind fun _ => setParents.bind fun _ => pure _

theorem create {d : Node} : Agrees parents (create d) (create d) := by
  refine ite (throw _)
    (bind (changeGet (fun r => ?_) fun r => ?_) fun _ => setParents.bind fun _ => pure _)
  · exact congrArg Handle.mk Region.size_orphaned
  · change (r.orphaned.push d).orphaned = (r.push d).orphaned
    rw [Region.orphaned_push, Region.orphaned_push, Region.orphaned_orphaned]

end Agrees

end Peephole
