import Peephole.Proofs.Custody
import Peephole.Proofs.Expressions

/-!
# Normal forms

When a rule of refinement applies to a tree of integer operators, told from the tree alone, and
the trees to which none applies anywhere. The tree of a predicate is settled apart from the rest:
a comparison there is not decided by its operands being the same.
-/

namespace Peephole

open Edit

namespace Tree

mutual

/-- Same operations, types, attributes and kids. -/
def same : Tree → Tree → Bool
  | node code ty attrs slots, node code' ty' attrs' slots' =>
    !(code ≠ code' || ty ≠ ty' || attrs != attrs') && sameSlots slots slots'

def sameSlots : List (List Tree) → List (List Tree) → Bool
  | [], [] => true
  | ts :: slots, ts' :: slots' => sameList ts ts' && sameSlots slots slots'
  | _, _ => false

def sameList : List Tree → List Tree → Bool
  | [], [] => true
  | t :: ts, t' :: ts' => same t t' && sameList ts ts'
  | _, _ => false

end

theorem sameList_of_length {ts ts' : List Tree} (differ : ts.length ≠ ts'.length) :
    sameList ts ts' = false := by
  induction ts generalizing ts' with
  | nil =>
    cases ts' with
    | nil => simp at differ
    | cons => rfl
  | cons t ts ih =>
    cases ts' with
    | nil => rfl
    | cons t' ts' => rw [sameList, ih (by simpa using differ), Bool.and_false]

theorem sameSlots_of_length {slots slots' : List (List Tree)}
    (differ : slots.length ≠ slots'.length) : sameSlots slots slots' = false := by
  induction slots generalizing slots' with
  | nil =>
    cases slots' with
    | nil => simp at differ
    | cons => rfl
  | cons ts slots ih =>
    cases slots' with
    | nil => rfl
    | cons ts' slots' => rw [sameSlots, ih (by simpa using differ), Bool.and_false]

/-! ### Trees of terms -/

/-- The trees that spell terms. -/
inductive Spelled : Tree → Prop
  | leaf {code : Op} {ty : Ty} {attrs : Attrs} (known : code = .const ∨ code = .pr ∨ code = .ld) :
      Spelled (leaf code ty attrs)
  | indirect {ty q : Ty} {attrs attrs' : Attrs} :
      Spelled (one .ild ty attrs (Tree.leaf .lda q attrs'))
  | through {ty q : Ty} {attrs attrs' : Attrs} :
      Spelled (one .ild ty attrs (Tree.leaf .pr q attrs'))
  | unary {code : Op} {ty : Ty} {attrs : Attrs} {a : Tree}
      (known : code = .neg ∨ code = .bnot ∨ code = .lnot ∨ code = .cvt) (operand : Spelled a) :
      Spelled (one code ty attrs a)
  | binary {code : Op} {ty : Ty} {attrs : Attrs} {a b : Tree} (known : code.isBinary = true)
      (left : Spelled a) (right : Spelled b) : Spelled (two code ty attrs a b)
  | select {ty : Ty} {attrs : Attrs} {p a b : Tree} (choice : Spelled p) (yes : Spelled a)
      (no : Spelled b) : Spelled (three .select ty attrs p a b)

namespace Spelled

variable {t : Tree}

theorem formed (h : Spelled t) : t.Formed := by
  induction h with
  | leaf known => exact .ofLeaf (by rcases known with rfl | rfl | rfl <;> rfl)
  | indirect | through => exact .ofOne rfl (.ofLeaf rfl)
  | unary known _ ih => exact .ofOne (by rcases known with rfl | rfl | rfl | rfl <;> rfl) ih
  | binary known _ _ ihL ihR => exact .ofTwo (numSlots_of_isBinary known) ihL ihR
  | select _ _ _ ihP ihY ihN =>
    refine .node (fun _ => ⟨rfl, fun i us found _ => ?_⟩) ?_
    · match i, found with
      | 0, rfl => exact le_rfl
      | 1, rfl => exact le_rfl
      | 2, rfl => exact le_rfl
    · simpa using ⟨ihP, ihY, ihN⟩

theorem exists_one (h : Spelled t) (unary : t.code.isUnary = true) :
    ∃ code ty attrs a, t = one code ty attrs a := by
  cases h with
  | leaf known => rcases known with rfl | rfl | rfl <;> cases unary
  | indirect | through => exact ⟨_, _, _, _, rfl⟩
  | unary => exact ⟨_, _, _, _, rfl⟩
  | @binary code _ _ _ _ known =>
    exact absurd unary (by cases code <;> first | exact Bool.false_ne_true | cases known)
  | select => cases unary

theorem exists_two (h : Spelled t) (binary : t.code.isBinary = true) :
    ∃ code ty attrs a b, t = two code ty attrs a b := by
  cases h with
  | leaf known => rcases known with rfl | rfl | rfl <;> cases binary
  | indirect | through => cases binary
  | unary known => rcases known with rfl | rfl | rfl | rfl <;> cases binary
  | binary => exact ⟨_, _, _, _, _, rfl⟩
  | select => cases binary

theorem const_leaf (h : Spelled t) (const : t.code = .const) :
    ∃ ty attrs, t = Tree.leaf .const ty attrs := by
  cases h with
  | @leaf code ty attrs known =>
    obtain rfl : code = .const := const
    exact ⟨ty, attrs, rfl⟩
  | unary known => rcases known with rfl | rfl | rfl | rfl <;> cases const
  | binary known => exact absurd const (isBinary_ne known).1
  | indirect | through | select => cases const

theorem operand {code : Op} {ty : Ty} {attrs : Attrs} {a : Tree}
    (h : Spelled (one code ty attrs a)) (direct : code ≠ .ild) : Spelled a := by
  cases h with
  | indirect | through => exact absurd rfl direct
  | unary _ operand => exact operand

end Spelled

/-! ### Where rules apply -/

/-- Folding puts something in place of a binary operation. -/
def folds (l : Layout) (code : Op) (a b : Tree) : Bool := evaluates l code a b || decided l code a b

/-- The second operand of a binary operation. -/
def right? : Tree → Option Tree
  | node _ _ _ [[_], [b]] => some b
  | _ => none

/-- The constants of two operations have one result. -/
def merges (l : Layout) (code : Op) (ty : Ty) (a b : Tree) : Bool :=
  mayMerge (.fresh code ty .none []) a.top && a.right?.any fun c => evaluates l code c b

/-- An identity applies. With `fold` off, a comparison of a tree with itself stays. -/
def simplifies (s : Setting) (l : Layout) (fold : Bool) (code : Op) (ty : Ty) (a b : Tree) : Bool :=
  match code with
  | .add | .bor => b.isLit 0#64
  | .sub | .xor => same a b
  | .mul =>
    b.isLit 2#64 || b.isLit 1#64 || b.isLit 0#64 ||
      (b.lit?.any Word.isPowerOfTwo && s.mulByShift)
  | .div => (b.lit?.any Word.isPowerOfTwo && s.divByShift && a.ty.isUnsigned) || same a b
  | .rem | .mod => b.isLit 1#64
  | .band => isAllOnes l (.fresh code ty .none []) b.top
  | .land | .lor => a.isLit 1#64
  | .eq | .ne => fold && same a b
  | _ => false

/-- A conversion that keeps all values, so that another one above makes it superfluous. -/
def keeps (l : Layout) : Tree → Bool
  | node .cvt ty _ [[a]] => keepsValues l a.ty ty
  | _ => false

/-- A selection that is the negation of what its predicate compares with zero. -/
def negates (p a b : Tree) : Bool :=
  (match p.code with
  | .ne => a.isLit 0#64 && b.isLit 1#64
  | .eq => a.isLit 1#64 && b.isLit 0#64
  | _ => false) && p.right?.any fun c => c.isLit 0#64

/-! ### Settled trees -/

/-- No rule but folding applies to a binary operation. -/
structure Still (s : Setting) (l : Layout) (fold : Bool) (code : Op) (ty : Ty) (a b : Tree) :
    Prop where
  ordered : commutes code a b = false
  merged : s.reassociate = true → code.mergesConstants = true → merges l code ty a b = false
  simple : simplifies s l fold code ty a b = false

/-- Some rule applies to a binary operation with settled operands. With `whole` off, constants do
not decide it. -/
def restless (s : Setting) (l : Layout) (whole : Bool) (code : Op) (ty : Ty) (a b : Tree) : Bool :=
  s.foldConst && whole && folds l code a b || commutes code a b ||
    s.reassociate && code.mergesConstants && merges l code ty a b ||
    simplifies s l (s.foldConst && whole) code ty a b

theorem restless_eq_false {s : Setting} {l : Layout} {whole : Bool} {code : Op} {ty : Ty}
    {a b : Tree} : restless s l whole code ty a b = false ↔
      (s.foldConst = true → whole = true → folds l code a b = false) ∧
        Still s l (s.foldConst && whole) code ty a b := by
  simp only [restless, Bool.or_eq_false_iff, Bool.and_eq_false_imp, Bool.and_eq_true, and_imp]
  constructor
  · rintro ⟨⟨⟨value, ordered⟩, merged⟩, simple⟩
    exact ⟨value, ordered, merged, simple⟩
  · rintro ⟨value, ordered, merged, simple⟩
    exact ⟨⟨⟨value, ordered⟩, merged⟩, simple⟩

/-- No rule applies anywhere in a tree of integer operators; `pred` says whether it is a
predicate. -/
inductive Settled (s : Setting) (l : Layout) : Bool → Tree → Prop
  | leaf {pred : Bool} {code : Op} {ty : Ty} {attrs : Attrs}
      (known : code = .const ∨ code = .pr ∨ code = .ld) : Settled s l pred (leaf code ty attrs)
  | through {pred : Bool} {ty q : Ty} {attrs attrs' : Attrs} :
      Settled s l pred (one .ild ty attrs (Tree.leaf .pr q attrs'))
  | neg {pred : Bool} {ty : Ty} {attrs : Attrs} {a : Tree} (operand : Settled s l false a)
      (single : a.code ≠ .neg) (value : s.foldConst = true → a.lit? = none) :
      Settled s l pred (one .neg ty attrs a)
  | not {pred : Bool} {code : Op} {ty : Ty} {attrs : Attrs} {a : Tree}
      (known : code = .lnot ∨ code = .bnot) (operand : Settled s l false a)
      (inverts : code = .lnot → a.code.inverted? = none)
      (value : s.foldConst = true → a.lit? = none) : Settled s l pred (one code ty attrs a)
  | cvt {pred : Bool} {ty : Ty} {attrs : Attrs} {a : Tree} (operand : Settled s l false a)
      (other : a.ty ≠ ty) (single : a.keeps l = false)
      (value : s.foldConst = true → a.lit? = none) : Settled s l pred (one .cvt ty attrs a)
  | binary {pred : Bool} {code : Op} {ty : Ty} {attrs : Attrs} {a b : Tree}
      (known : code.isBinary = true) (left : Settled s l false a) (right : Settled s l false b)
      (value : s.foldConst = true → folds l code a b = false)
      (still : Still s l (s.foldConst && !(pred && code.isRelation)) code ty a b) :
      Settled s l pred (two code ty attrs a b)
  | select {pred : Bool} {ty : Ty} {attrs : Attrs} {p a b : Tree} (choice : Settled s l true p)
      (judge : p.code.isJudge = true) (yes : Settled s l false a) (no : Settled s l false b)
      (value : s.selectToNot = true → negates p a b = false) :
      Settled s l pred (three .select ty attrs p a b)

namespace Settled

variable {s : Setting} {l : Layout} {pred : Bool} {code : Op} {ty : Ty} {attrs : Attrs}
  {a b t : Tree}

theorem lit (v : Literal) : Settled s l pred (Tree.lit v ty) := leaf (.inl rfl)

theorem spelled (h : Settled s l pred t) : Spelled t := by
  induction h with
  | leaf known => exact .leaf known
  | through => exact .through
  | neg _ _ _ ih => exact .unary (.inl rfl) ih
  | not known _ _ _ ih => exact .unary (by rcases known with rfl | rfl <;> simp) ih
  | cvt _ _ _ _ ih => exact .unary (by simp) ih
  | binary known _ _ _ _ ihL ihR => exact .binary known ihL ihR
  | select _ _ _ _ _ ihP ihY ihN => exact .select ihP ihY ihN

theorem operand (h : Settled s l pred (one code ty attrs a)) : Settled s l false a := by
  cases h with
  | through => exact .leaf (.inr (.inl rfl))
  | _ => assumption

end Settled

end Tree

end Peephole
