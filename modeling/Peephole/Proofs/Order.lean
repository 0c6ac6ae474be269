import Peephole.Proofs.Potential

/-!
# Trees in order

Constants are moved to the right of other operands. Folding may later make a constant of a left
operand, so an operation stays in order only if nothing is left to fold on its left side, or if a
constant stands on its right. Predicates of selections are held to less, since they are folded
after they were settled.
-/

namespace Peephole

theorem Ty.bitWidth_eq {l : Layout} {t : Ty} {bits : Nat} (h : t.bitWidth l = .ok bits) :
    bits = t.byteSize l * 8 := by
  simp only [bitWidth] at h
  split at h
  · exact (Except.ok.inj h).symm
  · cases h

namespace Tree

/-! ### Where folding applies -/

/-- The integer that a tree is a literal of. -/
def lit? (t : Tree) : Option Word := t.top.intLit?

def isLit (t : Tree) (v : Word) : Bool := t.lit? == some v

/-- The floating number that a tree is a literal of. -/
def float? (t : Tree) : Option Float := t.top.floatLit?

/-- Two literals that have a result. -/
def evaluates (l : Layout) (code : Op) (a b : Tree) : Bool :=
  match a.lit?, b.lit? with
  | some v, some w =>
    (intBinary code v w (a.ty.isUnsigned || b.ty.isUnsigned)
      (max (a.ty.byteSize l) (b.ty.byteSize l) * 8)).isSome
  | _, _ => false

/-- Two floating literals that have a result in a type. -/
def evaluatesFloat (l : Layout) (code : Op) (ty : Ty) (a b : Tree) : Bool :=
  match a.float?, b.float? with
  | some v, some w => ((floatBinary code v w).bind (Value.literal? l ty)).isSome
  | _, _ => false

/-- An operation that one literal decides. -/
def decided (l : Layout) (code : Op) (a b : Tree) : Bool :=
  match code with
  | .lt | .ge => a.ty.isUnsigned && b.isLit 0#64
  | .asr | .lsr => a.isLit 0#64 || b.isLit 0#64
  | .lsl => a.isLit 0#64 || b.isLit 0#64 || b.isLit (BitVec.ofNat 64 (a.ty.byteSize l * 8))
  | _ => false

/-- The address of a string literal. -/
def isString (r : Region) (t : Tree) : Bool :=
  match r.isStringAddress t.top with
  | .ok answer => answer
  | .error _ => false

/-- The address of a string literal, compared with zero. -/
def meetsNull (r : Region) (code : Op) (a b : Tree) : Bool :=
  (code == .eq || code == .ne) &&
    (a.isString r && b.isLit 0#64 || b.isString r && a.isLit 0#64)

/-- Folding puts something in place of a tree whose kids are folded. -/
def collapses (s : Setting) (r : Region) : Tree → Bool
  | node code ty _ [[a], [b]] =>
    code.isBinary &&
      (s.optFloat && evaluatesFloat r.layout code ty a b ||
        (max (a.ty.byteSize r.layout) (b.ty.byteSize r.layout) ≤ 8 &&
          evaluates r.layout code a b) ||
        decided r.layout code a b || meetsNull r code a b)
  | node code ty _ [[a]] =>
    (code == .neg || code == .lnot || code == .bnot) &&
      (s.optFloat && ((a.float?.bind (floatUnary code)).bind (Value.literal? r.layout ty)).isSome ||
        (a.ty.byteSize r.layout ≤ 8 && ty.isInt && (a.lit?.bind (intUnary code)).isSome))
  | _ => false

variable {s : Setting} {r : Region} {l : Layout} {pred changed : Bool} {code : Op} {ty q : Ty}
  {attrs : Attrs} {slots slots' : List (List Tree)} {us us' : List Tree} {a b t u : Tree}
  {v w : Word} {x y : Float}

theorem meetsNull_of (relation : code = .eq ∨ code = .ne) : meetsNull r code a b =
    (a.isString r && b.isLit 0#64 || b.isString r && a.isLit 0#64) := by
  rcases relation with rfl | rfl <;> rfl

theorem evaluates_of (left : a.lit? = some v) (right : b.lit? = some w) : evaluates l code a b =
    (intBinary code v w (a.ty.isUnsigned || b.ty.isUnsigned)
      (max (a.ty.byteSize l) (b.ty.byteSize l) * 8)).isSome := by
  rw [evaluates, left, right]

theorem evaluates_eq_false (other : ∀ v w, a.lit? = some v → b.lit? = some w → False) :
    evaluates l code a b = false := by
  unfold evaluates
  split
  · rename_i left right
    exact (other _ _ left right).elim
  · rfl

theorem lit?_of_float? (float : a.float? = some x) : a.lit? = none := by
  rw [float?, Node.floatLit?] at float
  rw [lit?, Node.intLit?]
  split at float
  · split
    · simp_all
    · rfl
  · cases float

theorem evaluates_of_float (float : a.float? = some x) : evaluates l code a b = false := by
  refine evaluates_eq_false fun v _ left _ => ?_
  rw [lit?_of_float? float] at left
  cases left

theorem evaluatesFloat_of (left : a.float? = some x) (right : b.float? = some y) :
    evaluatesFloat l code ty a b = ((floatBinary code x y).bind (Value.literal? l ty)).isSome := by
  rw [evaluatesFloat, left, right]

theorem evaluatesFloat_eq_false {on : Bool}
    (other : ∀ x y, on = true → a.float? = some x → b.float? = some y → False) :
    (on && evaluatesFloat l code ty a b) = false := by
  cases on with
  | false => rfl
  | true =>
    rw [Bool.true_and]
    unfold evaluatesFloat
    split
    · rename_i left right
      exact (other _ _ rfl left right).elim
    · rfl

theorem collapses_binary (binary : code.isBinary = true) :
    collapses s r (two code ty attrs a b) =
      ((s.optFloat && evaluatesFloat r.layout code ty a b ||
        decide (max (a.ty.byteSize r.layout) (b.ty.byteSize r.layout) ≤ 8) &&
          evaluates r.layout code a b) ||
        (decided r.layout code a b || meetsNull r code a b)) := by
  rw [collapses, binary, Bool.true_and, Bool.or_assoc]

theorem collapses_unary (unary : code = .neg ∨ code = .lnot ∨ code = .bnot) :
    collapses s r (one code ty attrs a) =
      (s.optFloat && ((a.float?.bind (floatUnary code)).bind (Value.literal? r.layout ty)).isSome ||
        decide (a.ty.byteSize r.layout ≤ 8) && ty.isInt &&
          (a.lit?.bind (intUnary code)).isSome) := by
  rcases unary with rfl | rfl | rfl <;> rfl

/-- Other operations are not folded. -/
theorem collapses_other (plain : code.isBinary = false) (neg : code ≠ .neg) (lnot : code ≠ .lnot)
    (bnot : code ≠ .bnot) : collapses s r (node code ty attrs slots) = false := by
  unfold collapses
  split
  · rename_i same
    obtain ⟨rfl, _⟩ := Tree.node.inj same
    rw [plain, Bool.false_and]
  · rename_i same
    obtain ⟨rfl, _⟩ := Tree.node.inj same
    rw [beq_eq_false_iff_ne.mpr neg, beq_eq_false_iff_ne.mpr lnot, beq_eq_false_iff_ne.mpr bnot]
    rfl
  · rfl

/-- Folding has nothing to do. It passes over the slots that hold statements. -/
inductive Frozen (s : Setting) (r : Region) : Tree → Prop
  | node {code : Op} {ty : Ty} {attrs : Attrs} {slots : List (List Tree)}
      (kids : ∀ us ∈ slots, (∀ u ∈ us, u.code.isStmt = false) → ∀ u ∈ us, Frozen s r u)
      (still : collapses s r (node code ty attrs slots) = false) :
      Frozen s r (node code ty attrs slots)

theorem Frozen.const (formed : t.Formed) (const : t.isConst = true) : Frozen s r t := by
  obtain ⟨code, ty, attrs, slots⟩ := t
  obtain rfl : code = .const := beq_iff_eq.mp const
  obtain rfl := formed.leaf_slots rfl rfl
  exact .node (by simp) rfl

/-! ### Operands in order -/

/-- A constant waits to move to the right. -/
def commutes (code : Op) (a b : Tree) : Bool := code.commuted?.isSome && a.isConst && !b.isConst

/-- So it is at the top of a tree. -/
def crosses : Tree → Bool
  | node code _ _ [[a], [b]] => commutes code a b
  | _ => false

theorem crosses_of_fixed (fixed : code.commuted? = none) :
    crosses (node code ty attrs slots) = false := by
  unfold crosses
  split
  · rename_i same
    obtain ⟨rfl, _⟩ := Tree.node.inj same
    rw [commutes, fixed]
    rfl
  · rfl

/-- The left operand is no constant, and folding will not make it one; or the right operand is a
constant. -/
def InOrder (s : Setting) (r : Region) (a b : Tree) : Prop :=
  b.isConst = true ∨
    a.isConst = false ∧ (s.foldConst = true → a.code.isStmt = false → Frozen s r a)

/-- All operands are in order, up to the top of every predicate: with `pred` on, the tree is one.
Without strict checks, a tree may hold anything. -/
inductive Orderly (s : Setting) (r : Region) : Bool → Tree → Prop
  | node {pred : Bool} {code : Op} {ty : Ty} {attrs : Attrs} {slots : List (List Tree)}
      (kids : ∀ i us, slots[i]? = some us → ∀ u ∈ us, Orderly s r (code == .select && i == 0) u)
      (ordered : ∀ a b, slots = [[a], [b]] → code.commuted?.isSome = true →
        (pred && s.foldConst) = false → InOrder s r a b) :
      Orderly s r pred (node code ty attrs slots)
  | lenient {pred : Bool} {t : Tree} (off : s.strict = false) : Orderly s r pred t

/-- The kids of a tree are in order. -/
def OrderlyBelow (s : Setting) (r : Region) (t : Tree) : Prop :=
  ∀ i us, t.slots[i]? = some us → ∀ u ∈ us, Orderly s r (t.code == .select && i == 0) u

theorem Orderly.orderlyBelow (h : Orderly s r pred t) : OrderlyBelow s r t := by
  cases h with
  | node kids _ => exact kids
  | lenient off => exact fun _ _ _ _ _ => .lenient off

theorem Orderly.predicate (h : Orderly s r false t) : Orderly s r pred t := by
  cases h with
  | node kids ordered => exact .node kids fun a b shape may _ => ordered a b shape may rfl
  | lenient off => exact .lenient off

theorem commuted?_eq_none (plain : code.isBinary = false) : code.commuted? = none := by
  cases code <;> first | rfl | cases plain

theorem orderlyBelow_iff (other : code ≠ .select) :
    OrderlyBelow s r (node code ty attrs slots) ↔ ∀ u ∈ slots.flatten, Orderly s r false u := by
  have plain : (code == .select) = false := beq_eq_false_iff_ne.mpr other
  simp only [OrderlyBelow, Tree.slots, Tree.code, plain, Bool.false_and, List.mem_flatten]
  constructor
  · rintro kids u ⟨us, slot, mem⟩
    obtain ⟨i, found⟩ := List.mem_iff_getElem?.mp slot
    exact kids i us found u mem
  · intro kids i us found u mem
    exact kids u ⟨us, List.mem_of_getElem? found, mem⟩

theorem orderlyBelow_one (other : code ≠ .select) :
    OrderlyBelow s r (one code ty attrs a) ↔ Orderly s r false a := by
  simp [orderlyBelow_iff other]

theorem orderlyBelow_two (other : code ≠ .select) :
    OrderlyBelow s r (two code ty attrs a b) ↔ Orderly s r false a ∧ Orderly s r false b := by
  simp [orderlyBelow_iff other]

theorem orderlyBelow_slot (other : code ≠ .select) (kids : ∀ u ∈ us, Orderly s r false u) :
    OrderlyBelow s r (node code ty attrs [us]) :=
  (orderlyBelow_iff other).mpr (by simpa using kids)

theorem orderlyBelow_operands {vs : List Tree} (other : code ≠ .select)
    (left : ∀ u ∈ us, Orderly s r false u) (right : ∀ u ∈ vs, Orderly s r false u) :
    OrderlyBelow s r (node code ty attrs [us, vs]) := by
  refine (orderlyBelow_iff other).mpr fun u mem => ?_
  simp only [List.flatten_cons, List.flatten_nil, List.append_nil, List.mem_append] at mem
  exact mem.elim (left u) (right u)

theorem orderlyBelow_select {vs ws : List Tree} :
    OrderlyBelow s r (node .select ty attrs [us, vs, ws]) ↔
      (∀ u ∈ us, Orderly s r true u) ∧ (∀ u ∈ vs, Orderly s r false u) ∧
        ∀ u ∈ ws, Orderly s r false u := by
  constructor
  · intro kids
    exact ⟨kids 0 us rfl, kids 1 vs rfl, kids 2 ws rfl⟩
  · rintro ⟨first, second, third⟩ i us' found u mem
    rcases i with _ | _ | _ | i
    · obtain rfl := Option.some.inj found
      exact first u mem
    · obtain rfl := Option.some.inj found
      exact second u mem
    · obtain rfl := Option.some.inj found
      exact third u mem
    · cases found

namespace OrderlyBelow

/-- An operation that has no order to keep. -/
theorem orderly (h : OrderlyBelow s r t) (plain : t.code.isBinary = false) :
    Orderly s r pred t := by
  cases t with
  | node code ty attrs slots =>
    refine .node h fun _ _ _ may _ => ?_
    have never : code.commuted? = none := commuted?_eq_none plain
    rw [never] at may
    cases may

theorem leaf : OrderlyBelow s r (Tree.leaf code ty attrs) := by
  intro i us found
  cases found

/-- An operation that needs no more moves, with nothing left to fold if it is folded. -/
theorem settled {whole : Bool} (h : OrderlyBelow s r t)
    (ordered : t.code.isBinary = true → crosses t = false)
    (frozen : t.code.isBinary = true → (s.foldConst && whole) = true → Frozen s r t) :
    Orderly s r (!whole) t := by
  cases binary : t.code.isBinary with
  | false => exact h.orderly binary
  | true =>
    obtain ⟨code, ty, attrs, slots⟩ := t
    refine .node h fun a b shape may held => ?_
    subst shape
    have same : commutes code a b = false := ordered binary
    rw [commutes, may, Bool.true_and] at same
    cases right : b.isConst with
    | true => exact .inl right
    | false =>
      rw [right, Bool.not_false, Bool.and_true] at same
      refine .inr ⟨same, fun on expr => ?_⟩
      have asked : (s.foldConst && whole) = true := by
        rw [on, Bool.true_and]
        simpa [on] using held
      cases frozen binary asked with
      | node kids _ => exact kids [a] (by simp) (by simpa using expr) a (by simp)

/-- The inverse comparison has the same kids. -/
theorem inverted {code' : Op} (h : OrderlyBelow s r (node code ty attrs slots))
    (invert : code.inverted? = some code') : OrderlyBelow s r (node code' ty attrs slots) := by
  have same : (code == .select) = (code' == .select) := by
    cases code <;> cases invert <;> rfl
  unfold OrderlyBelow at h ⊢
  rwa [Tree.code, ← same]

/-- An operation on operands in order. -/
theorem inOrder (h : OrderlyBelow s r (two code ty attrs a b))
    (ordered : (pred && s.foldConst) = false → InOrder s r a b) :
    Orderly s r pred (two code ty attrs a b) := by
  refine .node h fun a' b' shape _ held => ?_
  simp only [List.cons.injEq, and_true] at shape
  obtain ⟨rfl, rfl⟩ := shape
  exact ordered held

end OrderlyBelow

namespace Orderly

theorem lit {v : Literal} : Orderly s r pred (Tree.lit v q) := OrderlyBelow.leaf.orderly rfl

theorem const (formed : t.Formed) (const : t.isConst = true) : Orderly s r pred t := by
  obtain ⟨code, ty, attrs, slots⟩ := t
  obtain rfl : code = .const := beq_iff_eq.mp const
  obtain rfl := formed.leaf_slots rfl rfl
  exact OrderlyBelow.leaf.orderly rfl

/-- A constant with another value. -/
theorem restamped (h : Orderly s r false t) (const : t.code = .const) (q : Ty) (w : Attrs) :
    Orderly s r pred (Tree.node t.code q w t.slots) := by
  refine OrderlyBelow.orderly h.orderlyBelow ?_
  rw [Tree.code, const]
  rfl

theorem one (plain : code.isBinary = false) (other : code ≠ .select) (h : Orderly s r false a) :
    Orderly s r pred (Tree.one code ty attrs a) :=
  ((orderlyBelow_one other).mpr h).orderly plain

theorem zeroOf : Orderly s r pred (Tree.zeroOf l ty) := by
  unfold Tree.zeroOf
  split
  · exact lit
  · split <;> exact lit

theorem judgement (h : Orderly s r false t) : Orderly s r pred (t.judgement l) :=
  ((orderlyBelow_two (by decide)).mpr ⟨h, zeroOf⟩).inOrder fun _ => .inl zeroOf_isConst

theorem judged (h : Orderly s r false t) : Orderly s r pred (t.judged l) := by
  unfold Tree.judged
  split
  · exact h.predicate
  · exact h.judgement

theorem retyped (h : Orderly s r false t) : Orderly s r false (t.retyped l ty) := by
  unfold Tree.retyped
  split
  · exact h
  · split
    · rename_i v value
      exact h.restamped (intLit?_const value) _ _
    · exact .one rfl (by decide) h

end Orderly

/-- What a step makes of a tree with kids in order has such kids. -/
theorem Step.orderlyBelow (h : Step l t u) (below : OrderlyBelow s r t) : OrderlyBelow s r u := by
  have select {code : Op} (binary : code.isBinary = true) : code ≠ .select :=
    (isBinary_ne binary).2.1
  cases h with
  | folded | value => exact .leaf
  | converted => exact (orderlyBelow_one (by decide)).mpr .lit
  | left binary => exact ((orderlyBelow_two (select binary)).mp below).1.orderlyBelow
  | @commute code code' ty attrs a b binary may =>
    obtain ⟨left, right⟩ := (orderlyBelow_two (select binary)).mp below
    have binary' := (commuted?_spec ty may).2.2.2.1.trans binary
    exact (orderlyBelow_two (select binary')).mpr ⟨right, left⟩
  | @merge code inner ty q attrs attrs' xs c₁ c₂ v binary value associative few =>
    have inner' := select (isBinary_of_isAssociative associative)
    obtain ⟨left, _⟩ := (orderlyBelow_two (select binary)).mp below
    have kids := (orderlyBelow_iff inner').mp left.orderlyBelow
    refine (orderlyBelow_iff inner').mpr fun u mem => ?_
    simp only [List.flatten_cons, List.flatten_nil, List.append_nil, List.mem_append,
      List.mem_singleton] at mem kids
    rcases mem with mem | rfl
    · exact kids u (.inl mem)
    · exact .lit
  | double =>
    obtain ⟨left, _⟩ := (orderlyBelow_two (by decide)).mp below
    exact (orderlyBelow_two (by decide)).mpr ⟨left, left⟩
  | @shift code code' ty attrs a b v codes const =>
    obtain ⟨left, right⟩ : Orderly s r false a ∧ Orderly s r false b := by
      refine (orderlyBelow_two ?_).mp below
      rcases codes with ⟨rfl, _⟩ | ⟨rfl, _⟩ <;> decide
    refine (orderlyBelow_two ?_).mpr ⟨left, ?_⟩
    · rcases codes with ⟨_, rfl⟩ | ⟨_, rfl⟩ <;> decide
    · cases b
      exact right.restamped const _ _
  | @reciprocal ty attrs a b v other const =>
    obtain ⟨left, right⟩ := (orderlyBelow_two (by decide)).mp below
    refine (orderlyBelow_two (by decide)).mpr ⟨left, ?_⟩
    cases b
    exact right.restamped const _ _
  | truth =>
    obtain ⟨_, right⟩ := (orderlyBelow_two (by decide)).mp below
    exact right.judged.retyped.orderlyBelow

/-! ### Folding -/

/-- What folding makes of a tree, and that it has nothing to do there if it changes nothing. -/
structure Folded (s : Setting) (r : Region) (t : Tree) (changed : Bool) (u : Tree) : Prop where
  frozen : changed = false → Frozen s r t
  rests : Frozen s r t → u = t
  below : s.foldConst = true → OrderlyBelow s r t → OrderlyBelow s r u
  orderly : ∀ pred, s.foldConst = true → Orderly s r pred t → Orderly s r pred u

/-- What folding makes of the trees in one slot. -/
def FoldedSlot (s : Setting) (r : Region) (us : List Tree) (changed : Bool) (us' : List Tree) :
    Prop :=
  (∃ u ∈ us, u.code.isStmt = true) ∧ us' = us ∨
    (∀ u ∈ us, u.code.isStmt = false) ∧
      List.Forall₂ (fun u u' => ∃ c, (changed = false → c = false) ∧ Folded s r u c u') us us'

/-- What folding makes of the trees in all slots. -/
structure FoldedSlots (s : Setting) (r : Region) (changed : Bool)
    (slots slots' : List (List Tree)) : Prop where
  length : slots'.length = slots.length
  each : ∀ (i : Nat) us us', slots[i]? = some us → slots'[i]? = some us' →
    FoldedSlot s r us changed us'

/-- What folding makes of the trees in some slots. -/
structure FoldedAt (s : Setting) (r : Region) (is : List Nat) (changed : Bool)
    (slots slots' : List (List Tree)) : Prop where
  length : slots'.length = slots.length
  each : ∀ i ∈ is, ∀ us us', slots[i]? = some us → slots'[i]? = some us' →
    FoldedSlot s r us changed us'
  rest : ∀ i ∉ is, slots'[i]? = slots[i]?

theorem FoldedSlot.weaken {changed' : Bool} (h : FoldedSlot s r us changed us')
    (le : changed' = false → changed = false) : FoldedSlot s r us changed' us' := by
  rcases h with stmt | ⟨exprs, each⟩
  · exact .inl stmt
  · refine .inr ⟨exprs, each.imp ?_⟩
    rintro u u' ⟨c, off, folded⟩
    exact ⟨c, off ∘ le, folded⟩

namespace FoldedAt

variable {is : List Nat} {i : Nat}

theorem nil : FoldedAt s r [] false slots slots :=
  ⟨rfl, fun _ mem => absurd mem List.not_mem_nil, fun _ _ => rfl⟩

theorem cons {changed' : Bool} (h : FoldedAt s r is changed' (slots.set i us') slots')
    (fresh : i ∉ is) (found : slots[i]? = some us) (folded : FoldedSlot s r us changed us') :
    FoldedAt s r (i :: is) (changed || changed') slots slots' where
  length := by simpa using h.length
  each := fun j mem vs vs' slot slot' => by
    have inside := (List.getElem?_eq_some_iff.mp found).1
    rcases List.mem_cons.mp mem with rfl | mem
    · obtain rfl := Option.some.inj (found.symm.trans slot)
      rw [h.rest j fresh, List.getElem?_set_self inside] at slot'
      obtain rfl := Option.some.inj slot'
      exact folded.weaken fun off => (Bool.or_eq_false_iff.mp off).1
    · have other : i ≠ j := fun same => fresh (same ▸ mem)
      refine (h.each j mem vs vs' ?_ slot').weaken fun off => (Bool.or_eq_false_iff.mp off).2
      rw [List.getElem?_set_ne other, slot]
  rest := fun j out => by
    obtain ⟨other, out⟩ := not_or.mp (out ∘ List.mem_cons.mpr)
    rw [h.rest j out, List.getElem?_set_ne (Ne.symm other)]

theorem all (h : FoldedAt s r (List.range slots.length) changed slots slots') :
    FoldedSlots s r changed slots slots' :=
  ⟨h.length, fun i us us' found => h.each i
    (List.mem_range.mpr (List.getElem?_eq_some_iff.mp found).1) us us' found⟩

end FoldedAt

theorem FoldedSlot.single (h : FoldedSlot s r us changed [u]) : ∃ t, us = [t] := by
  rcases h with ⟨_, rfl⟩ | ⟨_, each⟩
  · exact ⟨u, rfl⟩
  · exact List.length_eq_one_iff.mp each.length_eq

namespace FoldedSlots

/-- Frozen kids stay. -/
theorem same (h : FoldedSlots s r changed slots slots')
    (frozen : ∀ us ∈ slots, (∀ u ∈ us, u.code.isStmt = false) → ∀ u ∈ us, Frozen s r u) :
    slots' = slots := by
  refine List.ext_getElem h.length fun i inside' inside => ?_
  have mem : slots[i] ∈ slots := List.getElem_mem inside
  rcases h.each i _ _ (List.getElem?_eq_getElem inside) (List.getElem?_eq_getElem inside')
    with ⟨_, same⟩ | ⟨exprs, each⟩
  · exact same
  · have kids := frozen _ mem exprs
    clear mem exprs
    generalize slots[i] = us, slots'[i] = us' at each kids
    induction each with
    | nil => rfl
    | cons first _ ih =>
      obtain ⟨_, _, folded⟩ := first
      obtain ⟨here, there⟩ := List.forall_mem_cons.mp kids
      rw [folded.rests here, ih there]

/-- Kids that were not changed are frozen. -/
theorem frozen (h : FoldedSlots s r false slots slots') :
    ∀ us ∈ slots, (∀ u ∈ us, u.code.isStmt = false) → ∀ u ∈ us, Frozen s r u := by
  intro us slot exprs
  obtain ⟨i, inside, rfl⟩ := List.getElem_of_mem slot
  have inside' : i < slots'.length := h.length ▸ inside
  rcases h.each i _ _ (List.getElem?_eq_getElem inside) (List.getElem?_eq_getElem inside')
    with ⟨⟨u, mem, stmt⟩, _⟩ | ⟨_, each⟩
  · rw [exprs u mem] at stmt
    cases stmt
  · clear slot exprs
    generalize slots[i] = us, slots'[i] = us' at each
    induction each with
    | nil => simp
    | cons first _ ih =>
      obtain ⟨c, off, folded⟩ := first
      exact List.forall_mem_cons.mpr ⟨folded.frozen (off rfl), ih⟩

theorem orderlyBelow (h : FoldedSlots s r changed slots slots') (on : s.foldConst = true)
    (below : OrderlyBelow s r (node code ty attrs slots)) :
    OrderlyBelow s r (node code ty attrs slots') := by
  intro i us' found'
  have inside : i < slots.length := h.length ▸ (List.getElem?_eq_some_iff.mp found').1
  have found := List.getElem?_eq_getElem inside
  have kids := below i _ found
  rcases h.each i _ _ found found' with ⟨_, rfl⟩ | ⟨_, each⟩
  · exact kids
  · clear found found'
    generalize slots[i] = us at each kids
    induction each with
    | nil => simp
    | cons first _ ih =>
      obtain ⟨_, _, folded⟩ := first
      obtain ⟨here, there⟩ := List.forall_mem_cons.mp kids
      exact List.forall_mem_cons.mpr ⟨folded.orderly _ on here, ih there⟩

theorem two {a' b' : Tree} (h : FoldedSlots s r changed slots [[a'], [b']]) :
    ∃ a b, slots = [[a], [b]] := by
  obtain ⟨us, vs, rfl⟩ := List.length_eq_two.mp h.length.symm
  obtain ⟨a, rfl⟩ := (h.each 0 _ _ rfl rfl).single
  obtain ⟨b, rfl⟩ := (h.each 1 _ _ rfl rfl).single
  exact ⟨a, b, rfl⟩

/-- Operands in order stay so. -/
theorem inOrder {a' b' : Tree} (h : FoldedSlots s r changed [[a], [b]] [[a'], [b']])
    (on : s.foldConst = true) (formed : b.Formed) (ordered : InOrder s r a b) :
    InOrder s r a' b' := by
  have kept {i : Nat} {c c' : Tree} (found : [[a], [b]][i]? = some [c])
      (found' : [[a'], [b']][i]? = some [c']) (frozen : c.code.isStmt = false → Frozen s r c) :
      c' = c := by
    rcases h.each i _ _ found found' with ⟨_, same⟩ | ⟨exprs, each⟩
    · exact List.head_eq_of_cons_eq same
    · cases each with
      | cons first _ =>
        obtain ⟨_, _, folded⟩ := first
        exact folded.rests (frozen (exprs c (by simp)))
  rcases ordered with const | ⟨other, frozen⟩
  · rw [kept (i := 1) rfl rfl fun _ => .const formed const]
    exact .inl const
  · rw [InOrder, kept (i := 0) rfl rfl (frozen on)]
    exact .inr ⟨other, frozen⟩

end FoldedSlots

namespace Folded

/-- Folding at the top has nothing to do. -/
theorem still (h : FoldedSlots s r changed slots slots')
    (formed : (node code ty attrs slots).Formed) (idle : changed = false → slots' = slots)
    (declined : collapses s r (node code ty attrs slots') = false) :
    Folded s r (node code ty attrs slots) changed (node code ty attrs slots') where
  frozen := fun off => by
    subst off
    obtain rfl := idle rfl
    exact .node h.frozen declined
  rests := fun frozen => by
    cases frozen with
    | node kids _ => rw [h.same kids]
  below := h.orderlyBelow
  orderly := fun pred on orderly => by
    have below : OrderlyBelow s r (node code ty attrs slots') :=
      h.orderlyBelow on orderly.orderlyBelow
    cases orderly with
    | lenient off => exact .lenient off
    | node kids ordered =>
      refine .node below fun a' b' shape may held => ?_
      subst shape
      obtain ⟨a, b, rfl⟩ := h.two
      exact h.inOrder on (formed.kid b (by simp)) (ordered a b rfl may held)

/-- Folding puts something in place of the tree. -/
theorem collapsed (h : FoldedSlots s r changed slots slots')
    (fires : collapses s r (node code ty attrs slots') = true)
    (step : Step l (node code ty attrs slots') u)
    (remains : (node code ty attrs slots').Remains u) :
    Folded s r (node code ty attrs slots) true u where
  frozen := fun off => Bool.noConfusion off
  rests := fun frozen => by
    cases frozen with
    | node kids declined =>
      rw [← h.same kids, fires] at declined
      cases declined
  below := fun on below => step.orderlyBelow (h.orderlyBelow on below)
  orderly := fun pred on orderly => by
    have below : OrderlyBelow s r (node code ty attrs slots') :=
      h.orderlyBelow on orderly.orderlyBelow
    cases remains with
    | value => exact .lit
    | converted => exact .one rfl (by decide) .lit
    | operand other calm mem => exact ((orderlyBelow_iff other).mp below u mem).predicate

end Folded

end Tree

end Peephole
