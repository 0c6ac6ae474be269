import Peephole.Proofs.Custody
import Peephole.Proofs.Values

/-!
# Canonical order of operands

A constant belongs on the right side of an operation whose operands may change places. Refinement
with strict checks leaves no such operation with a constant on its left side only, at any depth.
There is one exception: a predicate is settled with folding off and is folded afterwards, so its
left operand may become a constant at the last moment.

* `refineExpr_orders_operands`: the order of operands in what refinement makes of an expression.
* `refineExpr_foldedPredicate`: a predicate that ends with a constant on its left side only.
-/

namespace Peephole

open Peephole.Tree

variable {s : Setting} {r r' r₀ : Region} {n k : NodeId} {ns ms below : List NodeId} {i : Nat}
  {t : Tree} {code : Op} {ty : Ty} {attrs : Attrs} {slots : List (List Tree)}
  {ids : List (List NodeId)} {us : List Tree} {ps : List Piece} {up : Option NodeId} {c : Bool}

namespace Region

/-- Whether the operand in a slot is a constant. -/
def operandIsConst (r : Region) (n : NodeId) (i : Nat) : Except Fault Bool := do
  return (← r.node (← r.kid n i)).isConst

/-- The operands of `n` may change places, and only the left one is a constant. -/
def Crossed (r : Region) (n : NodeId) : Prop :=
  (r.node? n).any (·.code.commuted?.isSome) = true ∧
    r.operandIsConst n 0 = .ok true ∧ r.operandIsConst n 1 = .ok false

instance (r : Region) (n : NodeId) : Decidable (r.Crossed n) :=
  inferInstanceAs (Decidable (_ ∧ _ ∧ _))

/-- `n` is the predicate of a selection among `ns`. -/
def IsPredicate (r : Region) (ns : List NodeId) (n : NodeId) : Prop :=
  ∃ k ∈ ns, (r.node? k).any (·.code == .select) = true ∧ r.kid k 0 = .ok n

instance (r : Region) (ns : List NodeId) (n : NodeId) : Decidable (r.IsPredicate ns n) :=
  inferInstanceAs (Decidable (∃ k ∈ ns, _ ∧ _))

/-! Neither depends on the links to parents. -/

theorem any_orphaned {f : Node → Bool} (blind : ∀ d, f (d.under none) = f d) :
    (r.orphaned.node? n).any f = (r.node? n).any f := by
  simp only [node?, orphaned, Array.getElem?_map]
  rcases r.nodes[n.index]? with _ | _ | d
  · rfl
  · rfl
  · exact blind d

theorem operandIsConst_orphaned : r.orphaned.operandIsConst n i = r.operandIsConst n i := by
  unfold operandIsConst
  rw [kid_orphaned]
  exact bind_congr fun _ => node_orphaned_bind fun _ => rfl

theorem crossed_orphaned : r.orphaned.Crossed n ↔ r.Crossed n := by
  unfold Crossed
  rw [any_orphaned fun _ => rfl, operandIsConst_orphaned, operandIsConst_orphaned]

theorem isPredicate_orphaned : r.orphaned.IsPredicate ns n ↔ r.IsPredicate ns n := by
  unfold IsPredicate
  simp only [any_orphaned (f := (·.code == .select)) fun _ => rfl, kid_orphaned]

end Region

theorem mem_of_planted {ks : List NodeId} {up' : Option NodeId}
    (mem : .tree t k up' ∈ planted us ks up) : t ∈ us ∧ k ∈ ks := by
  obtain ⟨i, inside, same⟩ := List.getElem_of_mem mem
  simp only [planted, List.getElem_zipWith, Piece.tree.injEq] at same
  obtain ⟨rfl, rfl, _⟩ := same
  exact ⟨List.getElem_mem _, List.getElem_mem _⟩

/-- What is planted among all kids is planted in one slot. -/
theorem Fits.slot_of_planted {p : Piece} (h : Fits slots ids)
    (mem : p ∈ planted slots.flatten ids.flatten up) :
    ∃ (i : Nat) (us : List Tree) (ks : List NodeId), slots[i]? = some us ∧ ids[i]? = some ks ∧
      us.length = ks.length ∧ p ∈ planted us ks up := by
  induction slots generalizing ids with
  | nil => simp [planted] at mem
  | cons us slots ih =>
    cases ids with
    | nil => simp [planted] at mem
    | cons ks ids =>
      have heads : us.length = ks.length ∧ Fits slots ids := by simpa [Fits] using h
      rw [List.flatten_cons, List.flatten_cons, planted_append heads.1] at mem
      rcases List.mem_append.mp mem with here | there
      · exact ⟨0, us, ks, rfl, rfl, heads.1, here⟩
      · obtain ⟨i, us', ks', found, slot, rest⟩ := ih heads.2 there
        exact ⟨i + 1, us', ks', found, slot, rest⟩

/-- An operand of a node, and the tree drawn there. -/
theorem Draws.operandIsConst (found : r.core n = some ((Node.fresh code ty attrs ids).under up))
    (fits : Fits slots ids) (kids : Draws r.core (planted slots.flatten ids.flatten (some n)) below)
    (slot : slots[i]? = some us) (few : us.length ≤ 1) (const : r.operandIsConst n i = .ok c) :
    ∃ a, us = [a] ∧ a.isConst = c := by
  obtain ⟨_, _, _, at_n⟩ := Region.node?_of_core found
  simp only [Region.operandIsConst, bind_eq_ok] at const
  obtain ⟨k, kid, d, node, same⟩ := const
  obtain ⟨ks, ids_i⟩ := Region.slot_of_kid at_n kid
  obtain ⟨js, ids_i', lengths⟩ := fits.get slot
  obtain rfl : k :: ks = js := Option.some.inj (ids_i.symm.trans ids_i')
  obtain ⟨a, us, rfl⟩ := List.exists_cons_of_length_eq_add_one lengths
  obtain rfl : us = [] := List.length_eq_zero_iff.mp (by simpa using few)
  have mem : .tree a k (some n) ∈ planted slots.flatten ids.flatten (some n) := by
    rw [(fits.planted_perm slot ids_i').mem_iff]
    exact List.mem_append_left _ List.mem_cons_self
  obtain ⟨_, core, _⟩ := kids.tree_found mem
  obtain ⟨_, _, _, at_k⟩ := Region.node?_of_core core
  obtain rfl := Except.ok.inj ((Region.node_of at_k).symm.trans node)
  exact ⟨a, rfl, Except.ok.inj same⟩

/-- The top of a tree whose operands are crossed. -/
theorem Draws.crossed (formed : (Tree.node code ty attrs slots).Formed)
    (found : r.core n = some ((Node.fresh code ty attrs ids).under up)) (fits : Fits slots ids)
    (kids : Draws r.core (planted slots.flatten ids.flatten (some n)) below)
    (crossed : r.Crossed n) : code.commuted?.isSome = true ∧
      ∃ a b, slots = [[a], [b]] ∧ a.isConst = true ∧ b.isConst = false := by
  obtain ⟨may, left, right⟩ := crossed
  obtain ⟨_, _, _, at_n⟩ := Region.node?_of_core found
  rw [at_n] at may
  have binary : code.isBinary = true := by
    cases plain : code.isBinary with
    | true => rfl
    | false =>
      rw [Option.any_some, commuted?_eq_none plain] at may
      cases may
  obtain ⟨us, vs, rfl, few, few'⟩ := formed.two_slots binary
  obtain ⟨a, rfl, const⟩ := Draws.operandIsConst found fits kids (i := 0) rfl few left
  obtain ⟨b, rfl, other⟩ := Draws.operandIsConst found fits kids (i := 1) rfl few' right
  exact ⟨may, a, b, rfl, const, other⟩

/-- A tree in order; where it is held to less, it is a predicate. -/
def Piece.InOrder (s : Setting) (r₀ r : Region) (ns : List NodeId) (p : Piece) : Prop :=
  ∃ t k up pred, p = .tree t k up ∧ t.Formed ∧ Orderly s r₀ pred t ∧
    (pred = true → r.IsPredicate ns k)

/-- So are the kids of a tree in order. -/
theorem Piece.inOrder_planted (formed : (Tree.node code ty attrs slots).Formed)
    (found : r.core n = some ((Node.fresh code ty attrs ids).under up)) (fits : Fits slots ids)
    (inside : n ∈ ms) (ordered : OrderlyBelow s r₀ (.node code ty attrs slots)) :
    ∀ p ∈ planted slots.flatten ids.flatten (some n), p.InOrder s r₀ r ms := by
  intro p mem
  obtain ⟨i, us, ks, slot, ids_i, lengths, mem⟩ := fits.slot_of_planted mem
  obtain ⟨t, k, up', rfl⟩ := planted_whole p mem
  have among : t ∈ us ∧ k ∈ ks := mem_of_planted mem
  have kid : t.Formed :=
    formed.kid t (List.mem_flatten.mpr ⟨us, List.mem_of_getElem? slot, among.1⟩)
  refine ⟨t, k, up', _, rfl, kid, ordered i us slot t among.1, fun pred => ?_⟩
  obtain ⟨select, first⟩ := Bool.and_eq_true_iff.mp pred
  obtain rfl : code = .select := beq_iff_eq.mp select
  obtain rfl : i = 0 := beq_iff_eq.mp first
  obtain ⟨j, rfl⟩ : ∃ j, ks = [j] :=
    List.length_eq_one_iff.mp (Nat.le_antisymm (lengths ▸ formed.slot_le rfl slot rfl)
      (List.length_pos_of_mem among.2))
  obtain rfl := List.mem_singleton.mp among.2
  obtain ⟨_, _, _, at_n⟩ := Region.node?_of_core found
  exact ⟨n, inside, by rw [at_n]; rfl, Region.kid_of at_n ids_i⟩

/-- Of pieces in order, only predicates are crossed, and only where they are folded. -/
theorem Draws.crossed_isPredicate (strict : s.strict = true) (h : Draws r.core ps ns)
    (inside : ∀ m ∈ ns, m ∈ ms) (ordered : ∀ p ∈ ps, p.InOrder s r₀ r ms) :
    ∀ m ∈ ns, r.Crossed m → s.foldConst = true ∧ r.IsPredicate ms m := by
  induction h with
  | nil => simp
  | @tree code ty attrs slots ids n up ps below ns found fits kids _ ihKids ihRest =>
    obtain ⟨here, rest⟩ := List.forall_mem_cons.mp ordered
    obtain ⟨_, _, _, pred, same, formed, orderly, excused⟩ := here
    cases same
    intro m mem crossed
    rcases List.mem_cons.mp mem with rfl | mem
    · obtain ⟨may, a, b, rfl, const, other⟩ := Draws.crossed formed found fits kids crossed
      cases orderly with
      | lenient off =>
        rw [strict] at off
        cases off
      | node _ held =>
        cases free : pred && s.foldConst with
        | true =>
          obtain ⟨yes, on⟩ := Bool.and_eq_true_iff.mp free
          exact ⟨on, excused yes⟩
        | false =>
          rcases held a b rfl may free with right | ⟨left, _⟩
          · rw [other] at right
            cases right
          · rw [const] at left
            cases left
    · rcases List.mem_append.mp mem with mem | mem
      · have planted := Piece.inOrder_planted formed found fits (inside n List.mem_cons_self)
          orderly.orderlyBelow
        exact ihKids (fun m mem => inside m (List.mem_cons_of_mem _ (List.mem_append_left _ mem)))
          planted m mem crossed
      · exact ihRest (fun m mem => inside m (List.mem_cons_of_mem _ (List.mem_append_right _ mem)))
          rest m mem crossed
  | stub | gone =>
    obtain ⟨t, k, up, pred, same, _⟩ := ordered _ List.mem_cons_self
    cases same

/-- With strict checks, refinement of an expression that owns a tree of arranged nodes, whatever
parents they name, leaves no operation crossed but the predicate of a selection, and that one only
where constants are folded. -/
theorem refineExpr_orders_operands {out : NodeId × Bool} (strict : s.strict = true)
    (walk : r.subtree n = .ok ns) (distinct : ns.Nodup) (arranged : r.Arranged ns)
    (run : (refineExpr s n).run r = .ok (out, r')) :
    ∃ ms, r'.subtree out.1 = .ok ms ∧ ms.Nodup ∧
      ∀ m ∈ ms, r'.Crossed m → s.foldConst = true ∧ r'.IsPredicate ms m := by
  -- no pass reads the links to parents, so they may as well be right
  obtain ⟨t, up, formed, start⟩ := Region.forest_relinked (Region.grove_of_walk walk) distinct
  have hidden : (r.relinked ns).orphaned = r.orphaned := Region.orphaned_relinked
  obtain ⟨r₁, run₁, same⟩ := refineExpr_blind.returns hidden run
  have same : r₁.orphaned = r'.orphaned := same
  have meets : Meets (refineExpr s n) (r.relinked ns) (Fault.ProperIf False)
      (Passed False (Ordered s (r.relinked ns)) (r.relinked ns) ns [] t n up) :=
    start.refineExpr (fun no => no.elim) (formed arranged)
  obtain ⟨u, ⟨becomes, ordered⟩, regrown⟩ := (meets_iff.mp meets).1 out r₁ run₁
  obtain ⟨up', _, h⟩ := regrown.placed
  obtain ⟨ms, drawn, distinct', walk'⟩ := h.subtree
  have inOrder : Piece.InOrder s (r.relinked ns) r₁ ms (.tree u out.1 up') :=
    ⟨u, out.1, up', false, rfl, becomes.formed, ordered, fun off => Bool.noConfusion off⟩
  have crossed := drawn.crossed_isPredicate strict (fun _ => id)
    (List.forall_mem_singleton.mpr inOrder)
  refine ⟨ms, ?_, distinct', fun m mem => ?_⟩
  · rw [← Region.subtree_orphaned, ← same, Region.subtree_orphaned, walk']
  · rw [← Region.crossed_orphaned, ← Region.isPredicate_orphaned, ← same,
      Region.crossed_orphaned, Region.isPredicate_orphaned]
    exact crossed m mem

/-- `5 < $1 ? 1 + $2 : $3` in 32 bits. -/
def Region.crossedChoice : Region :=
  { Region.empty ⟨8⟩ with
    nodes := #[
      some { Node.fresh .const (.scalar .i32) (.ofLiteral (.int 5)) [] with parent := some ⟨2⟩ },
      some { Node.fresh .pr (.scalar .i32) (.ofRegister 1) [] with parent := some ⟨2⟩ },
      some { Node.fresh .lt (.scalar .bool) .none [[⟨0⟩], [⟨1⟩]] with parent := some ⟨7⟩ },
      some { Node.fresh .const (.scalar .i32) (.ofLiteral (.int 1)) [] with parent := some ⟨5⟩ },
      some { Node.fresh .pr (.scalar .i32) (.ofRegister 2) [] with parent := some ⟨5⟩ },
      some { Node.fresh .add (.scalar .i32) .none [[⟨3⟩], [⟨4⟩]] with parent := some ⟨7⟩ },
      some { Node.fresh .pr (.scalar .i32) (.ofRegister 3) [] with parent := some ⟨7⟩ },
      some (.fresh .select (.scalar .i32) .none [[⟨2⟩], [⟨5⟩], [⟨6⟩]])] }

/-- Both constants move to the right. -/
theorem refineExpr_crossedChoice :
    Region.crossedChoice.Arranged [⟨7⟩, ⟨2⟩, ⟨0⟩, ⟨1⟩, ⟨5⟩, ⟨3⟩, ⟨4⟩, ⟨6⟩] ∧
    Region.crossedChoice.Crossed ⟨2⟩ ∧ Region.crossedChoice.Crossed ⟨5⟩ ∧ ∃ r',
      (refineExpr ⟨{ Options.standard with foldConst := false }, true⟩ ⟨7⟩).run .crossedChoice =
        .ok ((⟨7⟩, true), r') ∧
      r'.subtree ⟨7⟩ = .ok [⟨7⟩, ⟨2⟩, ⟨1⟩, ⟨0⟩, ⟨5⟩, ⟨4⟩, ⟨3⟩, ⟨6⟩] ∧
      ∀ m ∈ [⟨7⟩, ⟨2⟩, ⟨1⟩, ⟨0⟩, ⟨5⟩, ⟨4⟩, ⟨3⟩, ⟨6⟩], ¬ r'.Crossed m := by
  have arranged : Region.crossedChoice.Arranged [⟨7⟩, ⟨2⟩, ⟨0⟩, ⟨1⟩, ⟨5⟩, ⟨3⟩, ⟨4⟩, ⟨6⟩] := by
    decide
  have owned : Region.crossedChoice.subtree ⟨7⟩ = .ok
      [⟨7⟩, ⟨2⟩, ⟨0⟩, ⟨1⟩, ⟨5⟩, ⟨3⟩, ⟨4⟩, ⟨6⟩] := rfl
  obtain ⟨out, r', run, rfl, walk⟩ : ∃ out r',
      (refineExpr ⟨{ Options.standard with foldConst := false }, true⟩ ⟨7⟩).run .crossedChoice =
        .ok (out, r') ∧ out = (⟨7⟩, true) ∧
      r'.subtree ⟨7⟩ = .ok [⟨7⟩, ⟨2⟩, ⟨1⟩, ⟨0⟩, ⟨5⟩, ⟨4⟩, ⟨3⟩, ⟨6⟩] :=
    Meets.ends (by decide +kernel)
  obtain ⟨ms, walk', _, ordered⟩ :=
    refineExpr_orders_operands rfl owned (by decide) arranged run
  obtain rfl := Except.ok.inj (walk'.symm.trans walk)
  refine ⟨arranged, by decide, by decide, r', run, walk, fun m mem crossed => ?_⟩
  exact Bool.noConfusion (ordered m mem crossed).1

/-- `((1 && 2.5) == $1) ? $2 : $3`, where the conjunction is converted to a truth value. -/
def Region.foldedPredicate : Region :=
  { Region.empty ⟨8⟩ with
    nodes := #[
      some { Node.fresh .const (.scalar .i32) (.ofLiteral (.int 1)) [] with parent := some ⟨2⟩ },
      some { Node.fresh .const (.scalar .f64) (.ofLiteral (.float 2.5)) [] with
        parent := some ⟨2⟩ },
      some { Node.fresh .land (.scalar .i32) .none [[⟨0⟩], [⟨1⟩]] with parent := some ⟨3⟩ },
      some { Node.fresh .cvt (.scalar .bool) .none [[⟨2⟩]] with parent := some ⟨5⟩ },
      some { Node.fresh .pr (.scalar .bool) (.ofRegister 1) [] with parent := some ⟨5⟩ },
      some { Node.fresh .eq (.scalar .bool) .none [[⟨3⟩], [⟨4⟩]] with parent := some ⟨8⟩ },
      some { Node.fresh .pr (.scalar .i32) (.ofRegister 2) [] with parent := some ⟨8⟩ },
      some { Node.fresh .pr (.scalar .i32) (.ofRegister 3) [] with parent := some ⟨8⟩ },
      some (.fresh .select (.scalar .i32) .none [[⟨5⟩], [⟨6⟩], [⟨7⟩]])] }

/-- The conjunction becomes `2.5 != 0`, which is folded to `1` after the comparison is settled. -/
theorem refineExpr_foldedPredicate :
    Region.foldedPredicate.Arranged [⟨8⟩, ⟨5⟩, ⟨3⟩, ⟨2⟩, ⟨0⟩, ⟨1⟩, ⟨4⟩, ⟨6⟩, ⟨7⟩] ∧
    Region.foldedPredicate.TreeAt ⟨8⟩ [⟨8⟩, ⟨5⟩, ⟨3⟩, ⟨2⟩, ⟨0⟩, ⟨1⟩, ⟨4⟩, ⟨6⟩, ⟨7⟩] ∧
    ¬ Region.foldedPredicate.Crossed ⟨5⟩ ∧ ∃ r',
      (refineExpr ⟨.standard, true⟩ ⟨8⟩).run .foldedPredicate = .ok ((⟨8⟩, true), r') ∧
      r'.Crossed ⟨5⟩ ∧ r'.IsPredicate [⟨8⟩] ⟨5⟩ := by
  obtain ⟨out, r', run, rfl, rest⟩ : ∃ out r',
      (refineExpr ⟨.standard, true⟩ ⟨8⟩).run .foldedPredicate = .ok (out, r') ∧
      out = (⟨8⟩, true) ∧ r'.Crossed ⟨5⟩ ∧ r'.IsPredicate [⟨8⟩] ⟨5⟩ :=
    Meets.ends (by decide +kernel)
  exact ⟨by decide, ⟨rfl, by decide, by decide⟩, by decide, r', run, rest⟩

end Peephole
