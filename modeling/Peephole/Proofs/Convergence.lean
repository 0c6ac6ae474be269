import Peephole.Proofs.Coercions
import Peephole.Refine.Expr

/-!
# Binary nodes settle

A binary node is settled by steps that each lower the potential of its tree, so they come to an
end. The refinement of the operands that a coercion asks for is at trees of a lower potential
than the node had.
-/

namespace Peephole

open Edit Peephole.Tree

variable {F : Fault → Prop} {s : Setting} {r r' r₀ : Region} {n m k x y : NodeId} {i : Nat}
  {ns₀ : List NodeId} {ps : List Piece} {code : Op} {ty q q' : Ty} {attrs : Attrs}
  {a a' b b' c t t' u w : Tree} {ids : List (List NodeId)} {slots : List (List Tree)}
  {us : List Tree} {l : Layout} {bound fuel : Nat} {refine : Pass} {foldNode changed : Bool}
  {up up' : Option NodeId} {known : Prop}

namespace Tree

theorem potential_kid_lt (mem : a ∈ slots.flatten) :
    potential l a < potential l (.node code ty attrs slots) := by
  have own := one_le_weight code ty
  have kid : potential l a ≤ potentialList l slots.flatten := by
    generalize slots.flatten = ts at mem
    induction ts with
    | nil => simp at mem
    | cons t ts ih =>
      rw [potentialList]
      rcases List.mem_cons.mp mem with rfl | mem
      · omega
      · have := ih mem
        omega
  rw [potential_node]
  rcases factor_eq code with f | f <;> rw [f] <;> omega

theorem weight_le_potential (t : Tree) : weight t.code t.ty ≤ potential l t := by
  obtain ⟨code, ty, attrs, slots⟩ := t
  rw [potential_node, Tree.code, Tree.ty, Nat.add_assoc]
  exact Nat.le_add_right _ _

theorem weight_le (code : Op) (ty : Ty) : weight code ty ≤ 206 := by
  cases code <;> simp only [weight] <;> first | omega | (split <;> omega)

theorem strain_le_59 (l : Layout) (code : Op) (ty : Ty) (slots : List (List Tree)) :
    strain l code ty slots ≤ 59 := by
  unfold strain
  split
  · rename_i a b
    have := crossed_le_one code a b
    have := mismatch_le l code.isRelation ty a.ty b.ty
    split <;> omega
  · split <;> omega
  · omega

theorem potentialList_le {ts : List Tree}
    (each : ∀ t ∈ ts, potential l t + 265 ≤ 265 * 2 ^ t.size) :
    potentialList l ts + 265 ≤ 265 * 2 ^ sizeList ts := by
  induction ts with
  | nil => simp [potentialList, sizeList]
  | cons t ts ih =>
    obtain ⟨here, there⟩ := List.forall_mem_cons.mp each
    have rest := ih there
    rw [potentialList, sizeList, Nat.pow_add]
    have one : 1 ≤ 2 ^ t.size := Nat.one_le_two_pow
    have one' : 1 ≤ 2 ^ sizeList ts := Nat.one_le_two_pow
    nlinarith

/-- The potential at most doubles with every node. -/
theorem potential_lt (t : Tree) : potential l t < 2 ^ (t.size + 9) := by
  have bounded : potential l t + 265 ≤ 265 * 2 ^ t.size := by
    induction size : t.size using Nat.strong_induction_on generalizing t with
    | h size ih =>
      cases t with
      | node code ty attrs slots =>
        subst size
        have kids : potentialList l slots.flatten + 265 ≤ 265 * 2 ^ sizeList slots.flatten :=
          potentialList_le fun u mem => by
            refine ih u.size ?_ u rfl
            have := size_le_sizeList mem
            rw [size_node]
            omega
        have own := weight_le code ty
        have strained := strain_le_59 l code ty slots
        rw [potential_node, size_node, Nat.pow_add]
        rcases factor_eq code with f | f <;> rw [f] <;> omega
  rw [Nat.pow_add]
  omega

/-- A comparison stays one, unless it compares registers and is decided. -/
structure Compares (known : Prop) (l : Layout) (t u : Tree) : Prop where
  relation : t.code.isRelation = true →
    u.code.isRelation = true ∨ u.isConst = true ∧ (known → 60 ≤ potential l t)
  const : t.isConst = true → u.isConst = true

namespace Compares

theorem refl : Compares known l t t := ⟨.inl, id⟩

theorem trans {out : NodeId × Bool} (first : Compares known l t u)
    (becomes : Becomes known l t n out u) (second : Compares known l u w) :
    Compares known l t w where
  relation := fun relation => by
    rcases first.relation relation with stays | ⟨const, heavy⟩
    · rcases second.relation stays with stays | ⟨const, heavy⟩
      · exact .inl stays
      · exact .inr ⟨const, fun yes => (heavy yes).trans (becomes.potential_le yes)⟩
    · exact .inr ⟨second.const const, heavy⟩
  const := second.const ∘ first.const

theorem ofBinary (binary : t.code.isBinary = true) (relation : t.code.isRelation = true →
      u.code.isRelation = true ∨ u.isConst = true ∧ (known → 60 ≤ potential l t)) :
    Compares known l t u :=
  ⟨relation, fun const => absurd (beq_iff_eq.mp const) (isBinary_ne binary).1⟩

end Compares

end Tree

theorem Forest.potential_lt_stepBound (h : Forest r₀ ns₀ (.tree t n up :: ps) r) :
    potential l t < r.stepBound := by
  have doubles : 2 ^ (t.size + 9) ≤ 2 ^ (r.nodes.size + 9) :=
    Nat.pow_le_pow_right (by decide) (Nat.add_le_add_right h.size_le 9)
  exact (potential_lt t).trans_le doubles

/-- Under `known`, a run ends without running out of steps. -/
def Fault.ProperIf (known : Prop) (f : Fault) : Prop := known → f.Proper

theorem Meets.properly {α : Type} {m : Edit α} {Q : α → Region → Prop}
    (h : Meets m r Fault.Proper Q) : Meets m r (Fault.ProperIf known) Q :=
  h.imp (fun _ proper _ => proper) fun _ _ => id

/-- The trees that refinement makes are in order. -/
abbrev Ordered (s : Setting) (r₀ : Region) : Bool → Tree → Prop := fun _ => Orderly s r₀ false

/-- What `refine` does at every tree of a potential below a bound. -/
def RefinesBelow (known : Prop) (s : Setting) (r₀ : Region) (ns₀ : List NodeId) (bound : Nat)
    (refine : Pass) : Prop :=
  ∀ t n up ps r, t.Formed → (known → potential r₀.layout t < bound) →
    Forest r₀ ns₀ (.tree t n up :: ps) r →
    Meets (refine n) r (Fault.ProperIf known) (Passed known (Ordered s r₀) r₀ ns₀ ps t n up)

/-- So are the trees of a slot; those of a predicate are held to less. -/
abbrev OrderedSlot (s : Setting) (r₀ : Region) (pred : Bool) : Bool → List Tree → Prop :=
  fun _ us => ∀ u ∈ us, Orderly s r₀ pred u

/-- What one step makes of the binary tree `t`. With `foldNode` off, a comparison stays one. -/
structure Settles (known : Prop) (s : Setting) (r₀ : Region) (foldNode : Bool) (t u : Tree) :
    Prop where
  formed : u.Formed
  lowers : known → Lowers r₀.layout 1 t u
  compares : foldNode = false → Compares known r₀.layout t u
  below : OrderlyBelow s r₀ t → OrderlyBelow s r₀ u

theorem Settles.ofStep (formed : t.Formed) (step : Tree.Step r₀.layout t u)
    (compares : foldNode = false → Compares known r₀.layout t u) :
    Settles known s r₀ foldNode t u :=
  ⟨step.formed formed, fun _ => step.lowers, compares, step.orderlyBelow⟩

namespace Forest

/-! ### Refining the kids of a node -/

/-- Refining the one tree in a slot. -/
theorem refineKid {Q : NodeId → NodeId × Bool → Tree → Prop} (found : slots[i]? = some [a])
    (pass : ∀ k ps, r.kid n i = .ok k → Forest r₀ ns₀ (.tree a k (some n) :: ps) r →
      Meets (refine k) r F fun out r' =>
        ∃ u, Q k out u ∧ Regrown r₀ ns₀ ps k (some n) u out.1 r')
    (h : Forest r₀ ns₀ (.tree (.node code ty attrs slots) n up :: ps) r) :
    Meets (refineSlot refine n i) r F fun changed r' => ∃ k out u, out.2 = changed ∧ Q k out u ∧
      Forest r₀ ns₀ (.tree (.node code ty attrs (slots.set i [u])) n up :: ps) r' := by
  obtain ⟨inside, _⟩ := List.getElem?_eq_some_iff.mp found
  obtain ⟨ids, ks, fits, slot, lengths, h⟩ := h.splitSlot found
  obtain ⟨k, rfl⟩ := List.length_eq_one_iff.mp lengths.symm
  obtain ⟨_, _, _, at_n⟩ := Region.node?_of_core (h.stub_found List.mem_cons_self)
  simp only [Peephole.refineSlot, meets_bind, meets_ask, Region.kid?_of at_n slot, yields_ok]
  refine Meets.bind (pass k _ (Region.kid_of at_n slot) h.swap) ?_
  rintro ⟨k', changed⟩ r₁ ⟨u, becomes, regrown⟩
  refine (refill slot regrown.placed).to ?_
  rintro _ r₂ ⟨rfl, h⟩
  exact ⟨k, (k', _), u, rfl, becomes,
    joinSlot fits (fits.length ▸ inside) (show [u].length = [k'].length from rfl) h⟩

section kids

variable (below : RefinesBelow known s r₀ ns₀ bound refine)
  (formed : (Tree.node code ty attrs slots).Formed) (found : slots[i]? = some us)
  (small : known → potential r₀.layout (.node code ty attrs slots) ≤ bound)
  (h : Forest r₀ ns₀ (.tree (.node code ty attrs slots) n up :: ps) r)
include below formed found small h

theorem refineSlot (few : us.length ≤ 1) :
    Meets (refineSlot refine n i) r (Fault.ProperIf known)
      (SlotPassed known (OrderedSlot s r₀ false) r₀ ns₀ ps code ty attrs slots n up i us) := by
  rcases nil_or_singleton few with rfl | ⟨a, rfl⟩
  · obtain ⟨inside, at_i⟩ := List.getElem?_eq_some_iff.mp found
    obtain ⟨ids, ks, fits, slot, lengths, split⟩ := h.splitSlot found
    obtain ⟨_, _, _, at_n⟩ := Region.node?_of_core (split.stub_found List.mem_cons_self)
    simp only [Peephole.refineSlot, meets_bind, meets_ask, Region.kid?_of at_n slot, yields_ok]
    obtain rfl := List.length_eq_zero_iff.mp lengths.symm
    have idle : slots.set i [] = slots := by rw [← at_i, List.set_getElem_self]
    exact ⟨[], ⟨rfl, fun u mem => absurd mem List.not_mem_nil⟩,
      by rw [idle]; exact .refl formed, by rwa [idle]⟩
  · have mem : a ∈ slots.flatten :=
      List.mem_flatten.mpr ⟨[a], List.mem_of_getElem? found, List.mem_singleton_self a⟩
    have lower (yes : known) : potential r₀.layout a < bound :=
      (potential_kid_lt mem).trans_le (small yes)
    refine (refineKid found (fun k ps _ h => below a k _ ps r (formed.kid a mem) lower h) h).to ?_
    rintro _ r₁ ⟨k, out, u, rfl, ⟨becomes, ordered⟩, h⟩
    have single : [a].length = [u].length := rfl
    refine ⟨[u], ⟨single, List.forall_mem_singleton.mpr ordered⟩, ?_, h⟩
    exact .ofSlot formed found single (by simpa using becomes.formed)
      (fun yes => .single (becomes.lowers yes)) fun off => by rw [(becomes.idle off).1]

theorem refineSlotList :
    Meets (refineSlotList refine n i) r (Fault.ProperIf known)
      (SlotPassed known (OrderedSlot s r₀ false) r₀ ns₀ ps code ty attrs slots n up i us) := by
  obtain ⟨ids, ks, fits, slot, lengths, h⟩ := h.splitSlot found
  obtain ⟨_, _, _, at_n⟩ := Region.node?_of_core (h.stub_found List.mem_cons_self)
  have inside : i < ids.length := (List.getElem?_eq_some_iff.mp slot).1
  simp only [Peephole.refineSlotList, Edit.kids, meets_bind, meets_ask, Region.kids_of at_n slot,
    yields_ok]
  have each : ∀ u ∈ us, ∀ k ps r, Forest r₀ ns₀ (.tree u k (some n) :: ps) r →
      Meets (refine k) r (Fault.ProperIf known)
        (Passed known (Ordered s r₀) r₀ ns₀ ps u k (some n)) := by
    intro u mem k ps r h
    have mem : u ∈ slots.flatten := List.mem_flatten.mpr ⟨us, List.mem_of_getElem? found, mem⟩
    exact below u k _ ps r (formed.kid u mem)
      (fun yes => (potential_kid_lt mem).trans_le (small yes)) h
  refine (passList lengths each (h.back _)).to ?_
  rintro outs r₁ ⟨us', qs, passed, h⟩
  have h := h.front qs
  have becomes := Becomes.ofSlot (n := n) formed found passed.length passed.formed passed.lowers
    fun off => (passed.idle off).1
  have ordered : ∀ u ∈ us', Orderly s r₀ false u := by
    intro u mem
    obtain ⟨i, inside, rfl⟩ := List.getElem_of_mem mem
    have before : i < us.length := passed.length ▸ inside
    obtain ⟨_, _, ordered⟩ := passed.each.get before inside
    exact ordered
  split
  · exact Meets.bind (rejoinSlot fits inside passed h) fun _ _ h =>
      ⟨us', ⟨passed.length, ordered⟩, becomes, h⟩
  · rename_i same
    exact ⟨us', ⟨passed.length, ordered⟩, becomes,
      resumeSlot fits slot passed (not_not.mp same) h⟩

end kids

/-! ### Steps at a binary node -/

theorem firstOf {steps : List Step} {Q : Tree → Prop}
    (each : ∀ step ∈ steps, ∀ r, Forest r₀ ns₀ (.tree t n up :: ps) r →
      Meets (step n) r F (Fires r₀ ns₀ ps t n up Q))
    (h : Forest r₀ ns₀ (.tree t n up :: ps) r) :
    Meets (firstOf steps n) r F (Fires r₀ ns₀ ps t n up Q) := by
  induction steps generalizing r with
  | nil => exact h
  | cons step steps ih =>
    refine Meets.bind (each step List.mem_cons_self r h) fun out r₁ done => ?_
    cases out with
    | none => exact ih (fun x mem => each x (List.mem_cons_of_mem step mem)) done
    | some m => exact done

/-- A step before others, and what is known if none fires. -/
theorem firstOf_cons {step : Step} {steps : List Step} {Q : Tree → Prop} {N N' : Prop}
    (here : Meets (step n) r F fun out r' => Fires r₀ ns₀ ps t n up Q out r' ∧ (out = none → N))
    (there : ∀ r, Forest r₀ ns₀ (.tree t n up :: ps) r → Meets (Peephole.firstOf steps n) r F
      fun out r' => Fires r₀ ns₀ ps t n up Q out r' ∧ (out = none → N')) :
    Meets (Peephole.firstOf (step :: steps) n) r F fun out r' =>
      Fires r₀ ns₀ ps t n up Q out r' ∧ (out = none → N ∧ N') := by
  refine Meets.bind here fun out r₁ done => ?_
  cases out with
  | none =>
    refine (there r₁ done.1).to fun out r₂ later => ⟨later.1, fun stays => ?_⟩
    exact ⟨done.2 rfl, later.2 stays⟩
  | some m => exact ⟨done.1, fun fired => absurd fired (by simp)⟩

section steps

variable (below : RefinesBelow known s r₀ ns₀ bound refine)
  (wide : known → r₀.layout.pointerSize ∈ [2, 4, 8])
include below wide

theorem coerceStep (formed : (Tree.node code ty attrs slots).Formed) (binary : code.isBinary = true)
    (small : known → potential r₀.layout (.node code ty attrs slots) ≤ bound)
    (h : Forest r₀ ns₀ (.tree (.node code ty attrs slots) n up :: ps) r) :
    Meets (coerceStep s refine n) r (Fault.ProperIf known)
      (Fires r₀ ns₀ ps (.node code ty attrs slots) n up fun u => u.code = code ∧ u.Formed ∧
        (known → Lowers r₀.layout 1 (.node code ty attrs slots) u) ∧ OrderlyBelow s r₀ u) := by
  unfold Peephole.coerceStep
  split
  · exact h
  rcases formed.binary_slots binary with ⟨a, b, rfl⟩ | gap
  swap
  · exact Meets.bind (h.coerceOperands_gap gap).properly fun _ _ => False.elim
  refine Meets.bind (coerceOperands wide binary formed h).properly ?_
  rintro fires r₁ ⟨a', b', formed₁, becomes, after⟩
  cases fires with
  | false =>
    obtain ⟨rfl, rfl⟩ := becomes
    exact after
  | true =>
    have first : Becomes known r₀.layout (two code ty attrs a b) n (n, true) _ :=
      .fired formed₁ becomes
    simp only [if_true, meets_bind, meets_discard]
    have small₁ (yes : known) := (first.potential_le yes).trans (small yes)
    refine (refineSlot below formed₁ (i := 0) rfl small₁ after (by simp)).to ?_
    rintro changed r₂ ⟨us, ⟨_, left⟩, second, h⟩
    have small₂ (yes : known) := (second.potential_le yes).trans (small₁ yes)
    refine (refineSlot below second.formed (i := 1) rfl small₂ h (by simp)).to ?_
    rintro changed' r₃ ⟨vs, ⟨_, right⟩, third, h⟩
    have all := (first.trans second).trans third
    refine ⟨_, ⟨rfl, all.formed, all.lowers, ?_⟩, .here h⟩
    exact orderlyBelow_operands (isBinary_ne binary).2.1 left right

/-- What one step makes of a binary node, and what is known if none fires. -/
theorem settleStep (formed : t.Formed) (small : known → potential r₀.layout t ≤ bound)
    (h : Forest r₀ ns₀ (.tree t n up :: ps) r) :
    Meets (settleStep s refine foldNode n) r (Fault.ProperIf known) fun out r' =>
      Fires r₀ ns₀ ps t n up (Settles known s r₀ foldNode t) out r' ∧
      (out = none → OrderlyBelow s r₀ t → Orderly s r₀ (!foldNode) t) := by
  obtain ⟨code, ty, attrs, slots⟩ := t
  obtain ⟨d, found, tops, _⟩ := h.node List.mem_cons_self
  have code' : d.code = code := tops.code
  simp only [Peephole.settleStep, Edit.node, meets_bind, meets_ask, Region.node_of found, yields_ok,
    code']
  cases binary : code.isBinary with
  | false => exact ⟨h, fun _ below => below.orderly binary⟩
  | true =>
    simp only [Bool.not_true, Bool.false_eq_true, if_false]
    have folds (r : Region) (h : Forest r₀ ns₀ (.tree (.node code ty attrs slots) n up :: ps) r) :
        Meets (Peephole.foldStep { s with foldConst := s.foldConst && foldNode } n) r
          (Fault.ProperIf known) fun out r' =>
          Fires r₀ ns₀ ps (.node code ty attrs slots) n up
            (Settles known s r₀ foldNode (.node code ty attrs slots)) out r' ∧
          (out = none → (s.foldConst && foldNode) = true →
            Frozen s r₀ (.node code ty attrs slots)) := by
      cases foldNode with
      | false =>
        unfold Peephole.foldStep
        rw [if_pos (by simp)]
        exact ⟨h, fun _ on => by rw [Bool.and_false] at on; cases on⟩
      | true =>
        have own : { s with foldConst := s.foldConst && true } = s := by rw [Bool.and_true]
        rw [own, Bool.and_true]
        refine (foldStep formed h).properly.to fun _ _ out => ⟨out.1.mono ?_, out.2⟩
        rintro u ⟨formed', lowers, ordered⟩
        exact ⟨formed', fun _ => lowers, fun off => Bool.noConfusion off, ordered⟩
    have commutes (r : Region)
        (h : Forest r₀ ns₀ (.tree (.node code ty attrs slots) n up :: ps) r) :
        Meets (Peephole.commuteStep n) r (Fault.ProperIf known) fun out r' =>
          Fires r₀ ns₀ ps (.node code ty attrs slots) n up
            (Settles known s r₀ foldNode (.node code ty attrs slots)) out r' ∧
          (out = none → crosses (.node code ty attrs slots) = false) := by
      refine (commuteStep formed binary h).properly.to fun _ _ out => ⟨out.1.mono ?_, out.2⟩
      rintro u ⟨step, stays⟩
      exact .ofStep formed step fun _ => .ofBinary binary (.inl ∘ stays)
    refine (firstOf_cons (folds r h) fun r h => firstOf_cons (commutes r h) fun r h =>
      (firstOf (fun step mem r h => ?_) h).to fun _ _ out => ⟨out, fun _ => trivial⟩).to
      fun out r' done => ⟨done.1, fun stays below => ?_⟩
    swap
    · obtain ⟨frozen, ordered, _⟩ := done.2 stays
      exact below.settled (fun _ => ordered) fun _ => frozen
    simp only [List.mem_cons, List.not_mem_nil, or_false] at mem
    rcases mem with rfl | rfl | rfl | rfl
    · refine (mergeStep formed binary h).properly.to fun _ _ out => out.mono ?_
      rintro u ⟨step, stays⟩
      exact .ofStep formed step fun _ => .ofBinary binary (.inl ∘ stays)
    · cases compares : !foldNode && code.isRelation with
      | true =>
        obtain ⟨off, relation⟩ := Bool.and_eq_true_iff.mp compares
        have unasked : (s.foldConst && foldNode) = false := by
          rw [(Bool.not_eq_true' _).mp off, Bool.and_false]
        refine (identityStep_declines formed binary relation unasked h).properly.to ?_
        rintro _ _ ⟨rfl, rfl⟩
        exact h
      | false =>
        refine (identityStep formed binary h).properly.to fun _ _ out => out.mono fun u step => ?_
        refine .ofStep formed step fun off => .ofBinary binary fun relation => ?_
        rw [off, show code.isRelation = true from relation] at compares
        cases compares
    · refine (phiStep formed binary h).properly.to fun _ _ out => out.mono ?_
      rintro u ⟨step, const, a, b, rfl, left, right⟩
      refine .ofStep formed step fun _ => .ofBinary binary fun _ => .inr ⟨?_, fun _ => ?_⟩
      · rw [Tree.isConst, const]
        rfl
      · have heavy := weight_binary ty binary
        have := weight_le_potential (l := r₀.layout) a
        have := weight_le_potential (l := r₀.layout) b
        rw [left, weight] at *
        rw [right, weight] at *
        rw [potential_two]
        rcases factor_eq code with f | f <;> rw [f] <;> omega
    · refine (coerceStep below wide formed binary small h).to fun _ _ out => out.mono ?_
      rintro u ⟨same, formed', lowers, ordered⟩
      exact ⟨formed', lowers, fun _ => .ofBinary binary fun relation => .inl (same ▸ relation),
        fun _ => ordered⟩

/-- A binary node is settled after fewer steps than its tree has potential. -/
theorem repeatStep (formed : t.Formed) (small : known → potential r₀.layout t ≤ bound)
    (enough : known → potential r₀.layout t < fuel) (h : Forest r₀ ns₀ (.tree t n up :: ps) r) :
    Meets (repeatStep (Peephole.settleStep s refine foldNode) fuel n) r (Fault.ProperIf known)
      fun out r' => ∃ u, ((foldNode = false → Compares known r₀.layout t u) ∧
        (OrderlyBelow s r₀ t → Orderly s r₀ (!foldNode) u) ∧
        Becomes known r₀.layout t n out u) ∧ Regrown r₀ ns₀ ps n up u out.1 r' := by
  induction fuel generalizing t n up ps r with
  | zero => exact fun yes => absurd (enough yes) (Nat.not_lt_zero _)
  | succ fuel ih =>
    refine Meets.bind (settleStep below wide formed small h) ?_
    rintro out r₁ ⟨done, stays⟩
    cases out with
    | none => exact ⟨t, ⟨fun _ => .refl, stays rfl, .refl formed⟩, .here done⟩
    | some m =>
      obtain ⟨u, settles, regrown⟩ := done
      have first : Becomes known r₀.layout t n (m, true) u := .fired settles.formed settles.lowers
      have lower (yes : known) := (settles.lowers yes).potential_le
      have rest := regrown.andThen Prod.fst fun up ps h => ih settles.formed
        (fun yes => (Nat.le_add_right _ _).trans ((lower yes).trans (small yes)))
        (fun yes => by have := lower yes; have := enough yes; omega) h
      refine Meets.bind rest ?_
      rintro ⟨k, later⟩ r₂ ⟨w, ⟨compares, ordered, second⟩, regrown⟩
      have both := first.trans second
      rw [Bool.true_or] at both
      exact ⟨w, ⟨fun off => (settles.compares off).trans first (compares off),
        ordered ∘ settles.below, both⟩, regrown⟩

theorem settle (formed : t.Formed) (small : known → potential r₀.layout t ≤ bound)
    (h : Forest r₀ ns₀ (.tree t n up :: ps) r) :
    Meets (settle s refine foldNode n) r (Fault.ProperIf known)
      fun out r' => ∃ u, ((foldNode = false → Compares known r₀.layout t u) ∧
        (OrderlyBelow s r₀ t → Orderly s r₀ (!foldNode) u) ∧
        Becomes known r₀.layout t n out u) ∧ Regrown r₀ ns₀ ps n up u out.1 r' := by
  rw [Peephole.settle, meets_bind, meets_get]
  exact repeatStep below wide formed small (fun _ => h.potential_lt_stepBound) h

theorem refineBinary (formed : t.Formed) (binary : t.code.isBinary = true)
    (small : known → potential r₀.layout t ≤ bound) (h : Forest r₀ ns₀ (.tree t n up :: ps) r) :
    Meets (refineBinary s refine foldNode n) r (Fault.ProperIf known)
      fun out r' => ∃ u, ((foldNode = false → Compares known r₀.layout t u) ∧
        Orderly s r₀ (!foldNode) u ∧ Becomes known r₀.layout t n out u) ∧
        Regrown r₀ ns₀ ps n up u out.1 r' := by
  obtain ⟨code, ty, attrs, slots⟩ := t
  obtain ⟨us, vs, rfl, few, few'⟩ := formed.two_slots binary
  refine Meets.bind (refineSlot below formed (i := 0) rfl small h few) ?_
  rintro changed r₁ ⟨us', ⟨_, left⟩, first, h⟩
  have small₁ (yes : known) := (first.potential_le yes).trans (small yes)
  refine Meets.bind (refineSlot below first.formed (i := 1) rfl small₁ h few') ?_
  rintro changed' r₂ ⟨vs', ⟨_, right⟩, second, h⟩
  have small₂ (yes : known) := (second.potential_le yes).trans (small₁ yes)
  refine Meets.bind (settle below wide second.formed small₂ h) ?_
  rintro ⟨m, settled⟩ r₃ ⟨u, ⟨compares, ordered, third⟩, regrown⟩
  have both := first.trans second
  have operands : OrderlyBelow s r₀ (.node code ty attrs [us', vs']) :=
    orderlyBelow_operands (isBinary_ne binary).2.1 left right
  refine ⟨u, ⟨fun off => ?_, ordered operands, both.trans third⟩, regrown⟩
  refine Compares.trans ?_ both (compares off)
  exact .ofBinary binary .inl

end steps

end Forest

end Peephole
