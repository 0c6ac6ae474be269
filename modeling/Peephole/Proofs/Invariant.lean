import Peephole.Proofs.Nodes
import Peephole.Release

/-!
# Invariants of edits

A question `Answers F` if it is refused only with faults that have `F`. An edit `Keeps I F`
if every run from a region with `I` ends in one with `I`, or stops with such a fault.
-/

namespace Peephole

open Edit

variable {α β : Type} {F G : Fault → Prop} {I : Region → Prop} {r : Region}

/-- Faults that a call or an index out of place gives rise to; that a dropped statement is still
linked is a finding of the block driver itself. -/
def Fault.Plain : Fault → Prop
  | .misuse (.droppedNotUnlinked _ _) => False
  | .misuse _ | .overflow | .outOfRange => True
  | .violation _ | .exhausted => False

/-- A plain fault, or a recursion that was cut off. -/
abbrev Fault.Ordinary (f : Fault) : Prop := f.Plain ∨ f = .exhausted

def Answers (F : Fault → Prop) (x : Except Fault α) : Prop := Yields x F fun _ => True

def Keeps (I : Region → Prop) (F : Fault → Prop) (m : Edit α) : Prop :=
  ∀ r, I r → Meets m r F fun _ r' => I r'

/-! ### Questions -/

/-- What holds after each part of a loop of questions. -/
theorem Yields.forM_forall {f : α → Except Fault PUnit} {xs : List α} {P : α → Prop}
    (h : ∀ x ∈ xs, Yields (f x) F fun _ => P x) : Yields (xs.forM f) F fun _ => ∀ x ∈ xs, P x := by
  induction xs with
  | nil => simp
  | cons x xs ih =>
    have unfolded : (x :: xs).forM f = f x >>= fun _ => xs.forM f := rfl
    rw [unfolded, yields_bind]
    refine (h x List.mem_cons_self).imp (fun _ => id) fun _ _ here => ?_
    refine (ih fun y mem => h y (List.mem_cons_of_mem x mem)).imp (fun _ => id) fun _ _ rest => ?_
    exact List.forall_mem_cons.mpr ⟨here, rest⟩

namespace Answers

theorem ok (a : α) : Answers F (.ok a : Except Fault α) := trivial

theorem pure (a : α) : Answers F (Pure.pure a : Except Fault α) := trivial

theorem throw {f : Fault} (h : F f) : Answers F (throw f : Except Fault α) := h

theorem bind {x : Except Fault α} {k : α → Except Fault β} (first : Answers F x)
    (next : ∀ a, Answers F (k a)) : Answers F (x >>= k) := by
  unfold Answers
  rw [yields_bind]
  exact Yields.imp first (fun _ => id) fun a _ _ => next a

theorem ite {c : Prop} [Decidable c] {x y : Except Fault α} (yes : Answers F x)
    (no : Answers F y) : Answers F (if c then x else y) := by
  split
  · exact yes
  · exact no

theorem imp {x : Except Fault α} (h : Answers F x) (faults : ∀ f, F f → G f) : Answers G x :=
  Yields.imp h faults fun _ _ => id

/-- What a question is answered with, and that it may be refused. -/
theorem yields {x : Except Fault α} {Q : α → Prop} (h : Answers F x) (faults : ∀ f, F f → G f)
    (results : ∀ a, x = .ok a → Q a) : Yields x G Q :=
  Yields.imp h faults fun a answer _ => results a answer

theorem forM {f : α → Except Fault PUnit} {xs : List α} (h : ∀ x, Answers F (f x)) :
    Answers F (xs.forM f) := by
  induction xs with
  | nil => exact pure _
  | cons x xs ih => exact bind (h x) fun _ => ih

theorem mapM {f : α → Except Fault β} {xs : List α} (h : ∀ x, Answers F (f x)) :
    Answers F (xs.mapM f) := by
  induction xs with
  | nil => exact pure _
  | cons x xs ih =>
    rw [List.mapM_cons]
    exact bind (h x) fun _ => bind ih fun _ => pure _

theorem anyM {f : α → Except Fault Bool} {xs : List α} (h : ∀ x, Answers F (f x)) :
    Answers F (xs.anyM f) := by
  induction xs with
  | nil => exact pure _
  | cons x xs ih =>
    refine bind (h x) fun found => ?_
    cases found
    · exact ih
    · exact pure _

theorem allM {f : α → Except Fault Bool} {xs : List α} (h : ∀ x ∈ xs, Answers F (f x)) :
    Answers F (xs.allM f) := by
  induction xs with
  | nil => exact pure _
  | cons x xs ih =>
    refine bind (h x List.mem_cons_self) fun held => ?_
    cases held
    · exact pure _
    · exact ih fun y mem => h y (List.mem_cons_of_mem x mem)

end Answers

namespace Region

variable {n : NodeId} {i : Nat} {d : Node}

theorem lookup_answers {k : Kind} {xs : Array α} {h : Handle k} :
    Answers Fault.Plain (lookup xs h) := by
  unfold lookup
  split <;> trivial

theorem node_answers : Answers Fault.Plain (r.node n) := by
  unfold node
  split <;> trivial

theorem nodeToEdit_answers : Answers Fault.Plain (r.nodeToEdit n) := by
  unfold nodeToEdit
  split <;> trivial

theorem slot_answers : Answers Fault.Plain (d.slot i) := by
  unfold Node.slot
  split <;> trivial

theorem setSlot_answers {ks : List NodeId} : Answers Fault.Plain (d.setSlot i ks) := by
  unfold Node.setSlot
  split <;> trivial

theorem kid_answers : Answers Fault.Plain (r.kid n i) := by
  refine node_answers.bind fun d => slot_answers.bind fun ks => ?_
  cases ks
  · exact .throw trivial
  · exact .pure _

theorem kid?_answers : Answers Fault.Plain (r.kid? n i) :=
  node_answers.bind fun _ => slot_answers.bind fun _ => .pure _

theorem kids_answers : Answers Fault.Plain (r.kids n i) :=
  node_answers.bind fun _ => slot_answers

theorem isStringAddress_answers : Answers Fault.Plain (r.isStringAddress d) := by
  unfold isStringAddress
  split
  · exact lookup_answers.bind fun _ => .pure _
  · exact .ok _

theorem access?_answers : Answers Fault.Plain (r.access? d) := by
  unfold access?
  split
  · exact lookup_answers.bind fun _ => .pure _
  · exact .ok _

theorem access_answers : Answers Fault.Plain (r.access n) :=
  node_answers.bind fun _ => access?_answers.bind fun _ => .pure _

theorem peers_answers : Answers Fault.Plain (r.peers n) := access_answers.bind fun _ => .pure _

theorem exactRef?_answers : Answers Fault.Plain (r.exactRef? n) := by
  refine access_answers.bind fun a => ?_
  cases a.must
  · exact .pure _
  · exact lookup_answers.bind fun _ => .pure _

theorem touched_answers : Answers Fault.Plain (r.touched n) := by
  refine access_answers.bind fun a => ?_
  cases a.may
  · exact .pure _
  · exact lookup_answers.bind fun _ => .pure _

theorem addOffsets_answers {a b : Int} : Answers Fault.Plain (addOffsets a b) := by
  unfold addOffsets
  split <;> trivial

theorem locationsOverlap_answers {a b : LocationId} :
    Answers Fault.Plain (r.locationsOverlap a b) := by
  refine .ite (.ok _) (lookup_answers.bind fun x => lookup_answers.bind fun y => ?_)
  refine .ite (.ok _) (.ite (.ok _) ?_)
  exact addOffsets_answers.bind fun _ => addOffsets_answers.bind fun _ => .pure _

theorem edgeJustified_answers {a b : NodeId} : Answers Fault.Plain (r.edgeJustified a b) :=
  touched_answers.bind fun _ => touched_answers.bind fun _ =>
    .ite (.pure _) (.anyM fun _ => .anyM fun _ => locationsOverlap_answers)

theorem ssaDefOf_answers : Answers Fault.Plain (r.ssaDefOf d) := by
  unfold ssaDefOf
  split
  · exact lookup_answers.bind fun _ => .pure _
  · exact .ok _

theorem bitWidth_answers {l : Layout} {t : Ty} : Answers Fault.Plain (t.bitWidth l) := by
  unfold Ty.bitWidth
  exact .ite (.ok _) trivial

theorem normalizeInt_answers {l : Layout} {t : Ty} {v : Word} :
    Answers Fault.Plain (t.normalizeInt l v) := by
  unfold Ty.normalizeInt
  split
  · exact .ok _
  · exact bitWidth_answers.bind fun _ => .pure _
  · exact .ok _

theorem checkUnlinked_answers : Answers Fault.Plain (r.checkUnlinked n) := by
  refine node_answers.bind fun d => ?_
  split
  · exact lookup_answers.bind fun _ => .ite (.throw trivial) (.pure _)
  · exact .pure _

theorem checkNoEdges_answers {ns : List NodeId} : Answers Fault.Plain (r.checkNoEdges ns n) := by
  refine peers_answers.bind fun ps => .forM fun p => ?_
  exact .ite (peers_answers.bind fun _ => .ite (.throw trivial) (.pure _)) (.pure _)

theorem checkNoUses_answers {ns : List NodeId} : Answers Fault.Plain (r.checkNoUses ns n) := by
  refine node_answers.bind fun d => ?_
  split
  · rename_i v _
    refine lookup_answers.bind fun value => ?_
    have last : Answers Fault.Plain (do
        if value.defn = some n then
          if !value.uses.toList.all fun u => ns.contains u || r.isReleased u then
            throw (.misuse (.definesLiveUses n v))) :=
      .ite (.ite (.throw trivial) (.pure _)) (.pure _)
    exact .ite (.bind (.throw trivial) fun _ => last) last
  · exact .pure _

/-- Walks down a tree may also be cut off. -/
theorem subtree_answers : Answers Fault.Ordinary (r.subtree n) := by
  have within (fuel : Nat) (n : NodeId) :
      Answers Fault.Ordinary (r.subtreeWithin fuel n) := by
    induction fuel generalizing n with
    | zero => exact .inr rfl
    | succ fuel ih =>
      exact (node_answers.imp fun _ => .inl).bind fun d => (Answers.mapM ih).bind fun _ => .pure _
  exact within _ _

theorem sameTree_answers {a b : NodeId} :
    Answers Fault.Ordinary (r.sameTree a b) := by
  have within (fuel : Nat) (a b : NodeId) :
      Answers Fault.Ordinary (r.sameTreeWithin fuel a b) := by
    induction fuel generalizing a b with
    | zero => exact .inr rfl
    | succ fuel ih =>
      have node (n : NodeId) : Answers Fault.Ordinary (r.node n) :=
        node_answers.imp fun _ => .inl
      refine .ite (.ok _) ((node a).bind fun x => (node b).bind fun y => ?_)
      refine .ite (.pure _) (.ite (.pure _) (.allM fun (sa, sb) _ => ?_))
      exact .ite (.pure _) (.allM fun (x, y) _ => ih x y)
  exact within _ _ _

end Region

/-! ### Edits -/

namespace Keeps

theorem pure (a : α) : Keeps I F (Pure.pure a : Edit α) := fun _ => id

theorem throw {f : Fault} (h : F f) : Keeps I F (throw f : Edit α) := fun _ _ => h

theorem get : Keeps I F (get : Edit Region) := fun _ => id

theorem ask {q : Region → Except Fault α} (h : ∀ r, Answers F (q r)) : Keeps I F (ask q) := by
  intro r start
  rw [meets_ask]
  exact Yields.imp (h r) (fun _ => id) fun _ _ _ => start

theorem lift {x : Except Fault α} (h : Answers F x) : Keeps I F (liftM x : Edit α) := by
  intro r start
  rw [meets_lift]
  exact Yields.imp h (fun _ => id) fun _ _ _ => start

theorem modify {f : Region → Region} (h : ∀ r, I r → I (f r)) :
    Keeps I F (modify f : Edit PUnit) := h

theorem modifyGet {f : Region → α × Region} (h : ∀ r, I r → I (f r).2) :
    Keeps I F (modifyGet f : Edit α) := h

theorem bind {m : Edit α} {k : α → Edit β} (first : Keeps I F m) (next : ∀ a, Keeps I F (k a)) :
    Keeps I F (m >>= k) :=
  fun r start => Meets.bind (first r start) fun a r' now => next a r' now

theorem map {m : Edit α} {f : α → β} (h : Keeps I F m) : Keeps I F (f <$> m) := by
  intro r start
  rw [meets_map]
  exact h r start

theorem discard {m : Edit α} (h : Keeps I F m) : Keeps I F (discard m) := h.map

theorem ite {c : Prop} [Decidable c] {m k : Edit α} (yes : Keeps I F m) (no : Keeps I F k) :
    Keeps I F (if c then m else k) := by
  split
  · exact yes
  · exact no

theorem and {m k : Edit Bool} (first : Keeps I F m) (second : Keeps I F k) :
    Keeps I F (m <&&> k) := by
  refine first.bind fun a => ?_
  cases a
  · exact pure _
  · exact second

theorem forM {f : α → Edit PUnit} {xs : List α} (h : ∀ x, Keeps I F (f x)) :
    Keeps I F (xs.forM f) :=
  fun _ start => Meets.forM start fun x _ r now => h x r now

theorem mapM {f : α → Edit β} {xs : List α} (h : ∀ x, Keeps I F (f x)) : Keeps I F (xs.mapM f) :=
  fun _ start => Meets.mapM start fun x _ r now => h x r now

theorem someOf {f : α → Edit Bool} {xs : List α} (h : ∀ x, Keeps I F (f x)) :
    Keeps I F (someOf f xs) :=
  fun _ start => Meets.someOf start fun x _ r now => h x r now

theorem allM {f : α → Edit Bool} {xs : List α} (h : ∀ x, Keeps I F (f x)) :
    Keeps I F (xs.allM f) := by
  induction xs with
  | nil => exact pure _
  | cons x xs ih =>
    refine (h x).bind fun held => ?_
    cases held
    · exact pure _
    · exact ih

end Keeps

end Peephole
