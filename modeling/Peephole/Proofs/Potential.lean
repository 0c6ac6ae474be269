import Peephole.Proofs.Balance
import Peephole.Proofs.Trees
import Peephole.Refine.Settle

/-!
# The potential of a tree

Every rewriting of a tree lowers its potential. An operation weighs more than what it is
rewritten into, and a node is under strain as long as its operands are to be converted or to
change places, or a predicate is to become a truth value. A kid that changes its type, becomes
a constant or stops to be a truth value may put strain on the node above; a rewriting is
`Lowers` only if it pays for that.
-/

namespace Peephole

namespace Tree

variable {l : Layout} {code code' : Op} {ty ty' : Ty} {attrs attrs' : Attrs}
  {slots slots' : List (List Tree)} {t t' t'' a a' b b' x : Tree} {us us' vs vs' : List Tree}
  {j k : Nat}

abbrev leaf (code : Op) (ty : Ty) (attrs : Attrs) : Tree := .node code ty attrs []

abbrev one (code : Op) (ty : Ty) (attrs : Attrs) (a : Tree) : Tree := .node code ty attrs [[a]]

abbrev two (code : Op) (ty : Ty) (attrs : Attrs) (a b : Tree) : Tree :=
  .node code ty attrs [[a], [b]]

abbrev three (code : Op) (ty : Ty) (attrs : Attrs) (a b c : Tree) : Tree :=
  .node code ty attrs [[a], [b], [c]]

abbrev lit (v : Literal) (ty : Ty) : Tree := leaf .const ty (.ofLiteral v)

theorem size_one {code : Op} {ty : Ty} {attrs : Attrs} {a : Tree} :
    (one code ty attrs a).size = 1 + a.size := by
  simp [size_node, sizeList]

theorem size_two {code : Op} {ty : Ty} {attrs : Attrs} {a b : Tree} :
    (two code ty attrs a b).size = 1 + (a.size + b.size) := by
  simp [size_node, sizeList]

theorem size_three {code : Op} {ty : Ty} {attrs : Attrs} {p a b : Tree} :
    (three code ty attrs p a b).size = 1 + (p.size + (a.size + b.size)) := by
  simp [size_node, sizeList]

theorem exists_succ_of_size_le {t : Tree} {fuel : Nat} (deep : t.size ≤ fuel) :
    ∃ f, fuel = f + 1 := by
  cases t
  rw [size_node] at deep
  exact ⟨fuel - 1, by omega⟩

def isConst (t : Tree) : Bool := t.code == .const

/-- A predicate that is a truth value or a constant stays as it is. -/
def isSettled (t : Tree) : Bool := t.code.isJudge || t.isConst

/-! ### Weights -/

def weight (code : Op) (ty : Ty) : Nat :=
  match code with
  | .const | .id | .ld | .lda | .array => 1
  | .ild | .cvt => 2
  | .pr => 15
  | .neg | .bnot => 29
  | .lnot => 90
  | .select => 121
  | .mul => 31
  | .div => 32
  | .land | .lor => 147 + if ty.isFloat then 59 else 0
  | .lt | .le | .gt | .ge | .eq | .ne => 30 + if ty.isFloat then 59 else 0
  | .add | .sub | .rem | .mod | .band | .bor | .xor | .asr | .lsr | .lsl => 30
  | _ => 1

/-- A product may become a sum of two copies of its left operand, and a quotient a product. -/
def factor : Op → Nat
  | .mul | .div => 2
  | _ => 1

/-- A constant is to change places with the operand on its right. -/
def crossed (code : Op) (a b : Tree) : Nat :=
  if code.commuted?.isSome && a.isConst && !b.isConst then 1 else 0

/-- Operands of these types are to be converted. -/
def mismatch (l : Layout) (rel : Bool) (ty t0 t1 : Ty) : Nat :=
  (if ty.unfit l t0 || ty.unfit l t1 then 18 else 0) +
    (if t0.unbalanced l rel t1 || t1.unbalanced l rel t0 then 9 else 0)

/-- What is still to be done at a node with these kids. -/
def strain (l : Layout) (code : Op) (ty : Ty) : List (List Tree) → Nat
  | [[a], [b]] =>
    if code.isBinary then crossed code a b + mismatch l code.isRelation ty a.ty b.ty else 0
  | [[p], _, _] => if code = .select && !p.isSettled then 59 else 0
  | _ => 0

theorem crossed_le_one (code : Op) (a b : Tree) : crossed code a b ≤ 1 := by
  unfold crossed
  split <;> omega

theorem mismatch_le (l : Layout) (rel : Bool) (ty t0 t1 : Ty) : mismatch l rel ty t0 t1 ≤ 27 := by
  unfold mismatch
  split <;> split <;> omega

mutual

def potential (l : Layout) : Tree → Nat
  | node code ty _ slots => weight code ty + strain l code ty slots +
      factor code * potentialSlots l slots

def potentialSlots (l : Layout) : List (List Tree) → Nat
  | [] => 0
  | ts :: slots => potentialList l ts + potentialSlots l slots

def potentialList (l : Layout) : List Tree → Nat
  | [] => 0
  | t :: ts => potential l t + potentialList l ts

end

theorem potentialList_append (us vs : List Tree) :
    potentialList l (us ++ vs) = potentialList l us + potentialList l vs := by
  induction us with
  | nil => simp [potentialList]
  | cons u us ih => simp [potentialList, ih, Nat.add_assoc]

theorem potentialSlots_eq : potentialSlots l slots = potentialList l slots.flatten := by
  induction slots with
  | nil => rfl
  | cons us slots ih => rw [potentialSlots, List.flatten_cons, potentialList_append, ih]

theorem potential_node : potential l (.node code ty attrs slots) =
    weight code ty + strain l code ty slots +
      factor code * potentialList l slots.flatten := by
  rw [potential, potentialSlots_eq]

@[simp] theorem potential_leaf : potential l (leaf code ty attrs) = weight code ty := by
  simp [potential_node, strain, potentialList]

@[simp] theorem potential_one :
    potential l (one code ty attrs a) = weight code ty + factor code * potential l a := by
  simp [potential_node, strain, potentialList]

@[simp] theorem potential_two : potential l (two code ty attrs a b) =
    weight code ty + strain l code ty [[a], [b]] + factor code *
      (potential l a + potential l b) := by
  simp [potential_node, potentialList]

@[simp] theorem weight_const : weight .const ty = 1 := rfl

@[simp] theorem weight_cvt : weight .cvt ty = 2 := rfl

@[simp] theorem factor_cvt : factor .cvt = 1 := rfl

theorem one_le_weight (code : Op) (ty : Ty) : 1 ≤ weight code ty := by
  cases code <;> simp only [weight] <;> omega

theorem factor_eq (code : Op) : factor code = 1 ∨ factor code = 2 := by
  cases code <;> simp [factor]

theorem potential_pos : 1 ≤ potential l t := by
  cases t with
  | node code ty attrs slots =>
    rw [potential_node]
    have := one_le_weight code ty
    omega

/-! ### Lowering -/

/-- The strain that a tree may put on the node above when it becomes another one. -/
def exposure (t t' : Tree) : Nat :=
  (if t.isConst = t'.isConst then 0 else 1) + (if t.ty = t'.ty then 0 else 27) +
    (if t.isSettled && !t'.isSettled then 59 else 0)

theorem exposure_eq_zero (const : t.isConst = t'.isConst) (type : t.ty = t'.ty)
    (settled : t.isSettled = t'.isSettled) : exposure t t' = 0 := by
  simp [exposure, const, type, settled]

theorem exposure_self : exposure t t = 0 := exposure_eq_zero rfl rfl rfl

theorem exposure_triangle (t t' t'' : Tree) : exposure t t'' ≤ exposure t t' + exposure t' t'' := by
  unfold exposure
  have const : (if t.isConst = t''.isConst then 0 else 1) ≤
      (if t.isConst = t'.isConst then 0 else 1) + (if t'.isConst = t''.isConst then 0 else 1) := by
    cases t.isConst <;> cases t'.isConst <;> cases t''.isConst <;> decide
  have type : (if t.ty = t''.ty then 0 else 27) ≤
      (if t.ty = t'.ty then 0 else 27) + (if t'.ty = t''.ty then 0 else 27) := by
    by_cases first : t.ty = t'.ty
    · simp [first]
    · simp only [first, if_false]
      split <;> omega
  have settled : (if t.isSettled && !t''.isSettled then 59 else 0) ≤
      (if t.isSettled && !t'.isSettled then 59 else 0) +
        (if t'.isSettled && !t''.isSettled then 59 else 0) := by
    cases t.isSettled <;> cases t'.isSettled <;> cases t''.isSettled <;> decide
  omega

/-- A rewriting lowers the potential by `k` besides the strain above. -/
def Lowers (l : Layout) (k : Nat) (t t' : Tree) : Prop :=
  potential l t' + exposure t t' + k ≤ potential l t

namespace Lowers

theorem refl : Lowers l 0 t t := by
  simp [Lowers, exposure_self]

theorem trans (first : Lowers l j t t') (second : Lowers l k t' t'') : Lowers l (j + k) t t'' := by
  have := exposure_triangle t t' t''
  unfold Lowers at *
  omega

theorem weaken (h : Lowers l k t t') (le : j ≤ k) : Lowers l j t t' := by
  unfold Lowers at *
  omega

theorem potential_le (h : Lowers l k t t') : potential l t' + k ≤ potential l t := by
  unfold Lowers at h
  omega

end Lowers

/-- A list of trees is rewritten one by one. -/
def LowersAll (l : Layout) (k : Nat) (us us' : List Tree) : Prop :=
  us.length = us'.length ∧
    potentialList l us' + (List.zipWith exposure us us').sum + k ≤ potentialList l us

namespace LowersAll

theorem refl : LowersAll l 0 us us := by
  refine ⟨rfl, ?_⟩
  have none : (List.zipWith exposure us us).sum = 0 := by
    induction us with
    | nil => rfl
    | cons u us ih => simp [exposure_self]
  omega

theorem single (h : Lowers l k t t') : LowersAll l k [t] [t'] := by
  refine ⟨rfl, ?_⟩
  unfold Lowers at h
  simp [potentialList]
  omega

theorem append (left : LowersAll l j us us') (right : LowersAll l k vs vs') :
    LowersAll l (j + k) (us ++ vs) (us' ++ vs') := by
  refine ⟨by simp [left.1, right.1], ?_⟩
  rw [List.zipWith_append left.1, List.sum_append, potentialList_append, potentialList_append]
  have := left.2
  have := right.2
  omega

theorem cons (head : Lowers l j t t') (rest : LowersAll l k us us') :
    LowersAll l (j + k) (t :: us) (t' :: us') :=
  (single head).append rest

theorem weaken (h : LowersAll l k us us') (le : j ≤ k) : LowersAll l j us us' := by
  refine ⟨h.1, ?_⟩
  have := h.2
  omega

theorem set {i : Nat} (found : slots[i]? = some us) (h : LowersAll l k us us') :
    LowersAll l k slots.flatten (slots.set i us').flatten := by
  induction slots generalizing i with
  | nil => simp at found
  | cons vs slots ih =>
    cases i with
    | zero =>
      obtain rfl : vs = us := by simpa using found
      exact h.append refl
    | succ i =>
      have rest := ih (by simpa using found)
      have same : LowersAll l 0 vs vs := refl
      simpa using same.append rest

end LowersAll

theorem crossed_le (code : Op) (a a' b b' : Tree) : crossed code a' b' ≤ crossed code a b +
    (if a.isConst = a'.isConst then 0 else 1) + (if b.isConst = b'.isConst then 0 else 1) := by
  by_cases left : a.isConst = a'.isConst
  · by_cases right : b.isConst = b'.isConst
    · simp [crossed, left, right]
    · have := crossed_le_one code a' b'
      simp [right]
      omega
  · have := crossed_le_one code a' b'
    simp [left]
    omega

theorem mismatch_le_add (l : Layout) (rel : Bool) (ty t0 t0' t1 t1' : Ty) :
    mismatch l rel ty t0' t1' ≤ mismatch l rel ty t0 t1 + (if t0 = t0' then 0 else 27) +
      (if t1 = t1' then 0 else 27) := by
  by_cases left : t0 = t0'
  · by_cases right : t1 = t1'
    · simp [left, right]
    · have := mismatch_le l rel ty t0' t1'
      simp [right]
      omega
  · have := mismatch_le l rel ty t0' t1'
    simp [left]
    omega

/-- What the node above has to do more is paid for by its kids. -/
theorem strain_le (l : Layout) (code : Op) (ty : Ty)
    (same : slots.map List.length = slots'.map List.length) :
    strain l code ty slots' ≤
      strain l code ty slots + (List.zipWith exposure slots.flatten slots'.flatten).sum := by
  match slots', same with
  | [[a'], [b']], same =>
    obtain ⟨a, b, rfl⟩ : ∃ a b, slots = [[a], [b]] := by
      match slots, same with
      | [[a], [b]], _ => exact ⟨a, b, rfl⟩
    have crosses := crossed_le code a a' b b'
    have types := mismatch_le_add l code.isRelation ty a.ty a'.ty b.ty b'.ty
    simp only [strain, exposure, List.flatten_cons, List.flatten_nil, List.cons_append,
      List.nil_append, List.zipWith_cons_cons, List.zipWith_nil_left, List.sum_cons, List.sum_nil]
    split
    · omega
    · omega
  | [[p'], us', vs'], same =>
    obtain ⟨p, us, vs, rfl⟩ : ∃ p us vs, slots = [[p], us, vs] := by
      obtain ⟨ps, us, vs, rfl⟩ : ∃ ps us vs, slots = [ps, us, vs] :=
        List.length_eq_three.mp (by simpa using congrArg List.length same)
      obtain ⟨p, rfl⟩ := List.length_eq_one_iff.mp (List.cons.inj same).1
      exact ⟨p, us, vs, rfl⟩
    have pays : (if p.isSettled && !p'.isSettled then 59 else 0) ≤ exposure p p' := by
      unfold exposure
      omega
    simp only [strain, List.flatten_cons, List.cons_append, List.nil_append,
      List.zipWith_cons_cons, List.sum_cons]
    by_cases select : code = .select
    · cases before : p.isSettled <;> cases after : p'.isSettled
      all_goals
        simp only [select, before, after] at pays ⊢
        simp at pays ⊢
      omega
    · simp [select]
  | [], _ | [[]], _ | [_ :: _], _ | [[], _], _ | [[_], []], _ | [[_], _ :: _ :: _], _
  | [_ :: _ :: _, _], _ | [[], _, _], _ | [_ :: _ :: _, _, _], _ | _ :: _ :: _ :: _ :: _, _ =>
    simp [strain]

theorem Lowers.kids (same : slots.map List.length = slots'.map List.length)
    (h : LowersAll l k slots.flatten slots'.flatten) :
    Lowers l k (.node code ty attrs slots) (.node code ty attrs slots') := by
  have strained := strain_le l code ty same
  have lower := h.2
  have alike : exposure (.node code ty attrs slots) (.node code ty attrs slots') = 0 :=
    exposure_eq_zero rfl rfl rfl
  rw [Lowers, alike, potential_node, potential_node]
  rcases factor_eq code with f | f <;> rw [f] <;> omega

/-! ### Steps -/

/-- The tree with another literal on top. -/
def relit (v : Literal) : Tree → Tree
  | node code ty attrs slots => node code ty { attrs with value := some v } slots

/-- The tree, brought to an integer type. -/
def retyped (l : Layout) (ty : Ty) (t : Tree) : Tree :=
  if t.ty = ty || ty.isBool || !ty.isInt then t
  else match t.top.intLit? with
  | some v => node t.code ty { t.attrs with value := some (.int (ty.wrapInt l v)) } t.slots
  | none => one .cvt ty .none t

/-- The zero that a value of a type is compared with. -/
def zeroOf (l : Layout) (ty : Ty) : Tree :=
  if ty.isFloat then lit (.float 0.0) ty
  else if ty.isInt then lit (.int 0#64) ty
  else lit (.int 0#64) (.scalar l.addressScalar)

def judgement (l : Layout) (t : Tree) : Tree := two .ne (.scalar .bool) .none t (zeroOf l t.ty)

/-- The truth value of a tree. -/
def judged (l : Layout) (t : Tree) : Tree := if t.code.isJudge then t else t.judgement l

/-- What one step makes of the tree whose top it is tried at, conversions apart. -/
inductive Step (l : Layout) : Tree → Tree → Prop
  | folded {code : Op} {ty q : Ty} {attrs : Attrs} {a : Tree} {v : Literal}
      (unary : code = .neg ∨ code = .lnot ∨ code = .bnot) : Step l (one code ty attrs a) (lit v q)
  | value {code : Op} {ty q : Ty} {attrs : Attrs} {a b : Tree} {v : Literal}
      (binary : code.isBinary = true) : Step l (two code ty attrs a b) (lit v q)
  | converted {code : Op} {ty q : Ty} {attrs : Attrs} {a b : Tree} {v : Literal}
      (binary : code.isBinary = true) (float : ty.isFloat = true) :
      Step l (two code ty attrs a b) (one .cvt ty .none (lit v q))
  | left {code : Op} {ty : Ty} {attrs : Attrs} {a b : Tree} (binary : code.isBinary = true)
      (value : code.isJudge = true → a.code = .const) : Step l (two code ty attrs a b) a
  | commute {code code' : Op} {ty : Ty} {attrs : Attrs} {a b : Tree}
      (binary : code.isBinary = true) (may : code.commuted? = some code')
      (const : a.isConst = true) (other : b.isConst = false) :
      Step l (two code ty attrs a b) (two code' ty attrs b a)
  | merge {code inner : Op} {ty q : Ty} {attrs attrs' : Attrs} {xs : List Tree} {c₁ c₂ : Tree}
      {v : Literal} (binary : code.isBinary = true) (value : code.isJudge = false)
      (associative : inner.isAssociative = true) (few : xs.length ≤ 1) :
      Step l (two code ty attrs (.node inner ty attrs' [xs, [c₁]]) c₂)
        (.node inner ty attrs' [xs, [lit v q]])
  | double {ty : Ty} {attrs : Attrs} {a b : Tree} :
      Step l (two .mul ty attrs a b) (two .add ty attrs a a)
  | shift {code code' : Op} {ty : Ty} {attrs : Attrs} {a b : Tree} {v : Literal}
      (codes : code = .mul ∧ code' = .lsl ∨ code = .div ∧ code' = .lsr)
      (const : b.code = .const) : Step l (two code ty attrs a b) (two code' ty attrs a (b.relit v))
  | reciprocal {ty : Ty} {attrs : Attrs} {a b : Tree} {v : Literal} (other : a.isConst = false)
      (const : b.code = .const) : Step l (two .div ty attrs a b) (two .mul ty attrs a (b.relit v))
  | truth {ty : Ty} {attrs : Attrs} {a x : Tree} :
      Step l (two .land ty attrs a x) ((x.judged l).retyped l ty)

/-- What is left of a tree that is folded. -/
inductive Remains (t : Tree) : Tree → Prop
  | value {q : Ty} {v : Literal} : Remains t (lit v q)
  | converted {q : Ty} {v : Literal} (float : t.ty.isFloat = true) :
      Remains t (one .cvt t.ty .none (lit v q))
  | operand {a : Tree} (other : t.code ≠ .select) (calm : t.code.isJudge = false)
      (mem : a ∈ t.slots.flatten) : Remains t a

theorem isBinary_ne (binary : code.isBinary = true) :
    code ≠ .const ∧ code ≠ .select ∧ code ≠ .lnot ∧ code ≠ .cvt := by
  cases code <;> simp_all [Op.isBinary]

theorem isJudge_of_isRelation (relation : code.isRelation = true) : code.isJudge = true := by
  cases code <;> simp_all [Op.isRelation, Op.isJudge]

theorem isBinary_of_isRelation (relation : code.isRelation = true) : code.isBinary = true := by
  cases code <;> simp_all [Op.isRelation, Op.isBinary]

theorem weight_binary (ty : Ty) (binary : code.isBinary = true) : 30 ≤ weight code ty := by
  cases code <;> simp_all only [Op.isBinary, weight] <;> first | contradiction | omega

theorem weight_judge_float (binary : code.isBinary = true) (judge : code.isJudge = true)
    (float : ty.isFloat = true) : 89 ≤ weight code ty := by
  cases code <;> simp_all [Op.isBinary, Op.isJudge, Op.isRelation, weight]

theorem exposure_le (t t' : Tree) : exposure t t' ≤ 87 := by
  unfold exposure
  split <;> split <;> split <;> omega

theorem exposure_le_of_settled (h : t.isSettled = true → t'.isSettled = true) :
    exposure t t' ≤ 28 := by
  have kept : (t.isSettled && !t'.isSettled) = false := by
    cases before : t.isSettled with
    | false => rfl
    | true => simp [h before]
  unfold exposure
  rw [kept]
  split <;> split <;> simp

theorem mismatch_comm {rel : Bool} (t0 : Ty) {t1 : Ty} :
    mismatch l rel ty t0 t1 = mismatch l rel ty t1 t0 := by
  unfold mismatch
  rw [Bool.or_comm, Bool.or_comm (t0.unbalanced l rel t1)]

/-- Two operands of one type are as well fitted as the worse one of two others. -/
theorem mismatch_self_le (l : Layout) (rel : Bool) (ty t0 t1 : Ty) :
    mismatch l rel ty t0 t0 ≤ mismatch l rel ty t0 t1 := by
  unfold mismatch
  cases ty.unfit l t0 <;> simp [Ty.unbalanced_self]

theorem commuted?_spec (ty : Ty) (may : code.commuted? = some code') :
    weight code' ty = weight code ty ∧ factor code' = factor code ∧
      code'.isRelation = code.isRelation ∧ code'.isBinary = code.isBinary ∧
      code'.isJudge = code.isJudge := by
  cases code <;> simp_all [Op.commuted?, Op.isCommutative, Op.isRelation, Op.swapped] <;>
    subst may <;> simp [weight, factor, Op.isRelation, Op.isBinary, Op.isJudge]

@[simp] theorem potential_relit {v : Literal} : potential l (t.relit v) = potential l t := by
  cases t
  rw [relit, potential_node, potential_node]

@[simp] theorem ty_relit {v : Literal} : (t.relit v).ty = t.ty := by
  cases t
  rfl

theorem potential_const (const : t.code = .const) (q : Ty) (w : Attrs) :
    potential l (.node t.code q w t.slots) = potential l t := by
  cases t with
  | node code ty attrs slots =>
    obtain rfl : code = .const := const
    rw [Tree.code, Tree.slots, potential_node, potential_node]
    simp only [weight, strain, Op.isBinary]
    rfl

theorem intLit?_const {v : Word} (h : t.top.intLit? = some v) : t.code = .const := by
  cases t with
  | node code ty attrs slots =>
    simp only [top, Tree.code, Tree.ty, Tree.attrs, Node.intLit?, Node.fresh] at h
    split at h
    · rfl
    · contradiction

theorem floatLit?_const {v : Float} (h : t.top.floatLit? = some v) : t.code = .const := by
  cases t with
  | node code ty attrs slots =>
    simp only [top, Tree.code, Tree.ty, Tree.attrs, Node.floatLit?, Node.fresh] at h
    split at h
    · rfl
    · contradiction

theorem potential_retyped (l : Layout) (ty : Ty) (t : Tree) :
    potential l (t.retyped l ty) ≤ potential l t + 2 := by
  unfold retyped
  split
  · omega
  · split
    · rename_i v found
      rw [potential_const (intLit?_const found)]
      omega
    · rw [potential_one]
      simp only [weight, factor]
      omega

theorem potential_zeroOf : potential l (zeroOf l ty) = 1 := by
  unfold zeroOf
  split
  · simp [weight]
  · split <;> simp [weight]

theorem zeroOf_isConst : (zeroOf l ty).isConst = true := by
  unfold zeroOf
  split
  · rfl
  · split <;> rfl

/-- A comparison with zero is worth less than the strain that it relieves. -/
theorem potential_judgement : potential l (t.judgement l) ≤ potential l t + 58 := by
  have types := mismatch_le l true (.scalar .bool) t.ty (zeroOf l t.ty).ty
  have straight : crossed .ne t (zeroOf l t.ty) = 0 := by
    simp [crossed, zeroOf_isConst]
  rw [judgement, potential_two, potential_zeroOf]
  simp only [weight, strain, straight, factor, Op.isBinary, Op.isRelation, Ty.isFloat,
    Scalar.isFloat]
  simp
  omega

theorem potential_judged : potential l (t.judged l) ≤ potential l t + 58 := by
  unfold judged
  split
  · omega
  · exact potential_judgement

section steps

variable {inner : Op} {q : Ty} {xs : List Tree} {c₁ c₂ : Tree} {v : Literal}

theorem lowers_folded (unary : code = .neg ∨ code = .lnot ∨ code = .bnot) :
    Lowers l 1 (one code ty attrs a) (lit v q) := by
  have exposed : exposure (one code ty attrs a) (lit v q) ≤ 28 :=
    exposure_le_of_settled fun _ => rfl
  have := potential_pos (l := l) (t := a)
  rw [Lowers, potential_one, potential_leaf]
  rcases unary with rfl | rfl | rfl <;> simp only [weight, factor] <;> omega

theorem lowers_value (binary : code.isBinary = true) :
    Lowers l 1 (two code ty attrs a b) (lit v q) := by
  have exposed : exposure (two code ty attrs a b) (lit v q) ≤ 28 :=
    exposure_le_of_settled fun _ => rfl
  have heavy := weight_binary ty binary
  have := potential_pos (l := l) (t := a)
  have := potential_pos (l := l) (t := b)
  rw [Lowers, potential_two, potential_leaf]
  rcases factor_eq code with f | f <;> rw [f, weight_const] <;> omega

theorem lowers_converted (binary : code.isBinary = true) (float : ty.isFloat = true) :
    Lowers l 1 (two code ty attrs a b) (one .cvt ty .none (lit v q)) := by
  have := potential_pos (l := l) (t := a)
  have := potential_pos (l := l) (t := b)
  rw [Lowers, potential_two, potential_one, potential_leaf]
  have size : 31 + (exposure (two code ty attrs a b) (one .cvt ty .none (lit v q)) - 28) ≤
      weight code ty + 1 := by
    by_cases judge : code.isJudge = true
    · have heavy := weight_judge_float binary judge float
      have := exposure_le (two code ty attrs a b) (one .cvt ty .none (lit v q))
      omega
    · have heavy := weight_binary ty binary
      have exposed : exposure (two code ty attrs a b) (one .cvt ty .none (lit v q)) ≤ 28 :=
        exposure_le_of_settled fun settled => by
          simp [isSettled, isConst, Tree.code, judge, (isBinary_ne binary).1] at settled
      omega
  rcases factor_eq code with f | f <;>
    rw [f, weight_const, weight_cvt, factor_cvt] <;> omega

theorem lowers_left (binary : code.isBinary = true)
    (value : code.isJudge = true → t'.code = .const) :
    Lowers l 1 (two code ty attrs t' b) t' := by
  have exposed : exposure (two code ty attrs t' b) t' ≤ 28 :=
    exposure_le_of_settled fun settled => by
    by_cases judge : code.isJudge = true
    · simp [isSettled, isConst, value judge]
    · simp [isSettled, isConst, Tree.code, judge, (isBinary_ne binary).1] at settled
  have heavy := weight_binary ty binary
  have := potential_pos (l := l) (t := b)
  rw [Lowers, potential_two]
  rcases factor_eq code with f | f <;> rw [f] <;> omega

theorem lowers_commuted (binary : code.isBinary = true) (may : code.commuted? = some code')
    (const : a.isConst = true) (other : b.isConst = false) :
    Lowers l 1 (two code ty attrs a b) (two code' ty attrs b a) := by
  obtain ⟨heavy, twice, relation, binary', judge⟩ := commuted?_spec ty may
  have alike : exposure (two code ty attrs a b) (two code' ty attrs b a) = 0 := by
    refine exposure_eq_zero ?_ rfl ?_
    · simp [isConst, Tree.code, (isBinary_ne binary).1, (isBinary_ne (binary'.trans binary)).1]
    · have plain := beq_eq_false_iff_ne.mpr (isBinary_ne binary).1
      have plain' := beq_eq_false_iff_ne.mpr (isBinary_ne (binary'.trans binary)).1
      simp only [isSettled, isConst, Tree.code, judge, plain, plain']
  rw [Lowers, alike, potential_two, potential_two, heavy, twice]
  simp only [strain, binary, binary', relation, if_true, crossed, const, other, may,
    mismatch_comm b.ty]
  simp
  rw [Nat.add_comm (potential l b)]
  omega

theorem lowers_merged (binary : code.isBinary = true) (value : code.isJudge = false)
    (associative : inner.isAssociative = true) (few : xs.length ≤ 1) :
    Lowers l 1 (two code ty attrs (.node inner ty attrs' [xs, [c₁]]) c₂)
      (.node inner ty attrs' [xs, [lit v q]]) := by
  have inner2 : inner.isBinary = true ∧ inner.isJudge = false := by
    cases inner <;> simp_all [Op.isAssociative, Op.isBinary, Op.isJudge, Op.isRelation]
  have alike : exposure (two code ty attrs (.node inner ty attrs' [xs, [c₁]]) c₂)
      (.node inner ty attrs' [xs, [lit v q]]) = 0 := by
    refine exposure_eq_zero ?_ rfl ?_
    · simp [isConst, Tree.code, (isBinary_ne binary).1, (isBinary_ne inner2.1).1]
    · simp [isSettled, isConst, Tree.code, value, inner2.2, (isBinary_ne binary).1,
        (isBinary_ne inner2.1).1]
  have heavy := weight_binary ty binary
  have := potential_pos (l := l) (t := c₁)
  have := potential_pos (l := l) (t := c₂)
  have literal : potential l (lit v q) = 1 := by rw [potential_leaf, weight_const]
  have strained : strain l inner ty [xs, [lit v q]] ≤ 27 := by
    rcases nil_or_singleton few with rfl | ⟨x, rfl⟩
    · simp [strain]
    · have types := mismatch_le l inner.isRelation ty x.ty (lit v q).ty
      have straight : crossed inner x (lit v q) = 0 := by
        have const : (lit v q).isConst = true := rfl
        simp [crossed, const]
      simp only [strain, inner2.1, if_true, straight]
      omega
  rw [Lowers, alike, potential_two, potential_node, potential_node]
  simp only [List.flatten_cons, List.flatten_nil, List.append_nil, potentialList_append,
    potentialList]
  rw [literal]
  rcases factor_eq code with f | f <;> rcases factor_eq inner with g | g <;>
    rw [f, g] <;> omega

theorem lowers_doubled : Lowers l 1 (two .mul ty attrs a b) (two .add ty attrs a a) := by
  have alike : exposure (two .mul ty attrs a b) (two .add ty attrs a a) = 0 :=
    exposure_eq_zero rfl rfl rfl
  have types := mismatch_self_le l false ty a.ty b.ty
  have straight : crossed .add a a = 0 := by
    simp [crossed]
  have := potential_pos (l := l) (t := b)
  rw [Lowers, alike, potential_two, potential_two]
  simp only [strain, straight, weight, factor, Op.isBinary, Op.isRelation, if_true]
  omega

theorem lowers_shifted (codes : code = .mul ∧ code' = .lsl ∨ code = .div ∧ code' = .lsr) :
    Lowers l 1 (two code ty attrs a b) (two code' ty attrs a (b.relit v)) := by
  have := potential_pos (l := l) (t := a)
  rcases codes with ⟨rfl, rfl⟩ | ⟨rfl, rfl⟩
  · have alike : exposure (two .mul ty attrs a b) (two .lsl ty attrs a (b.relit v)) = 0 :=
      exposure_eq_zero rfl rfl rfl
    rw [Lowers, alike, potential_two, potential_two, potential_relit]
    simp only [strain, weight, factor, Op.isBinary, Op.isRelation, if_true, ty_relit,
      show crossed .lsl a (b.relit v) = 0 from rfl]
    omega
  · have alike : exposure (two .div ty attrs a b) (two .lsr ty attrs a (b.relit v)) = 0 :=
      exposure_eq_zero rfl rfl rfl
    rw [Lowers, alike, potential_two, potential_two, potential_relit]
    simp only [strain, weight, factor, Op.isBinary, Op.isRelation, if_true, ty_relit,
      show crossed .lsr a (b.relit v) = 0 from rfl]
    omega

theorem lowers_reciprocal (other : a.isConst = false) :
    Lowers l 1 (two .div ty attrs a b) (two .mul ty attrs a (b.relit v)) := by
  have alike : exposure (two .div ty attrs a b) (two .mul ty attrs a (b.relit v)) = 0 :=
    exposure_eq_zero rfl rfl rfl
  have straight : crossed .mul a (b.relit v) = 0 := by
    simp [crossed, other]
  rw [Lowers, alike, potential_two, potential_two, potential_relit]
  simp only [strain, weight, factor, Op.isBinary, Op.isRelation, if_true, ty_relit, straight]
  omega

theorem lowers_truth : Lowers l 1 (two .land ty attrs a x) ((x.judged l).retyped l ty) := by
  have exposed := exposure_le (two .land ty attrs a x) ((x.judged l).retyped l ty)
  have first := potential_judged (l := l) (t := x)
  have second := potential_retyped l ty (x.judged l)
  have := potential_pos (l := l) (t := a)
  rw [Lowers, potential_two]
  simp only [weight, factor]
  omega

end steps

theorem Step.lowers (h : Step l t t') : Lowers l 1 t t' := by
  cases h with
  | folded unary => exact lowers_folded unary
  | value binary => exact lowers_value binary
  | converted binary float => exact lowers_converted binary float
  | left binary value => exact lowers_left binary value
  | commute binary may const other => exact lowers_commuted binary may const other
  | merge binary value associative few => exact lowers_merged binary value associative few
  | double => exact lowers_doubled
  | shift codes => exact lowers_shifted codes
  | reciprocal other => exact lowers_reciprocal other
  | truth => exact lowers_truth

theorem Formed.ofLeaf (arity : code.numSlots = 0) : (leaf code ty attrs).Formed :=
  .node (fun _ => ⟨arity.symm, by simp⟩) (by simp)

theorem Formed.ofOne (arity : code.numSlots = 1) (formed : a.Formed) :
    (one code ty attrs a).Formed := by
  refine .node (fun _ => ⟨arity.symm, fun i ts found _ => ?_⟩) (by simpa using formed)
  match i, found with
  | 0, found => simp [← Option.some.inj found]

theorem Formed.ofTwo (arity : code.numSlots = 2) (left : a.Formed) (right : b.Formed) :
    (two code ty attrs a b).Formed := by
  refine .node (fun _ => ⟨arity.symm, fun i ts found _ => ?_⟩) (by simpa using ⟨left, right⟩)
  match i, found with
  | 0, found => simp [← Option.some.inj found]
  | 1, found => simp [← Option.some.inj found]

theorem Formed.left (h : (two code ty attrs a b).Formed) : a.Formed := h.kid a (by simp)

theorem Formed.right (h : (two code ty attrs a b).Formed) : b.Formed := h.kid b (by simp)

theorem Formed.operand (h : (one code ty attrs a).Formed) : a.Formed := h.kid a (by simp)

theorem Formed.retyped (h : t.Formed) : (t.retyped l ty).Formed := by
  unfold Tree.retyped
  split
  · exact h
  · split
    · cases t with
      | node code _ attrs slots => exact h.relaid rfl h.kid _ _
    · exact .ofOne rfl h

theorem Formed.judgement (h : t.Formed) : (t.judgement l).Formed := by
  refine .ofTwo rfl h ?_
  unfold zeroOf
  split
  · exact .ofLeaf rfl
  · split <;> exact .ofLeaf rfl

theorem Formed.judged (h : t.Formed) : (t.judged l).Formed := by
  unfold Tree.judged
  split
  · exact h
  · exact h.judgement

theorem Formed.relit {v : Literal} (h : t.Formed) : (t.relit v).Formed := by
  cases t with
  | node code ty attrs slots => exact h.relaid rfl h.kid _ _

theorem Step.formed (h : Step l t t') (formed : t.Formed) : t'.Formed := by
  cases h with
  | folded => exact .ofLeaf rfl
  | value => exact .ofLeaf rfl
  | converted => exact .ofOne rfl (.ofLeaf rfl)
  | left => exact formed.left
  | commute binary may =>
    have arity := numSlots_of_isBinary ((commuted?_spec (.scalar .bool) may).2.2.2.1.trans binary)
    exact .ofTwo arity formed.right formed.left
  | @merge _ inner _ _ _ attrs' xs c₁ _ v _ _ associative few =>
    have lower := formed.left
    refine lower.relaid (by simp) (fun t mem => ?_) _ _
    simp only [List.flatten_cons, List.flatten_nil, List.append_nil, List.mem_append,
      List.mem_singleton] at mem
    rcases mem with mem | rfl
    · exact lower.kid t (by simp [mem])
    · exact .ofLeaf rfl
  | double => exact .ofTwo rfl formed.left formed.left
  | shift codes =>
    rcases codes with ⟨rfl, rfl⟩ | ⟨rfl, rfl⟩
    · exact .ofTwo rfl formed.left formed.right.relit
    · exact .ofTwo rfl formed.left formed.right.relit
  | reciprocal => exact .ofTwo rfl formed.left formed.right.relit
  | truth => exact formed.right.judged.retyped

end Tree

end Peephole
