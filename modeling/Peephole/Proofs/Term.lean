import Peephole.Proofs.Words
import Peephole.Eval

/-!
# Integer terms

The expressions whose operators work on integers of at most 64 bits, apart from
the nodes that spell them: their types, their values, and when one may stand in
place of another.
-/

namespace Peephole

inductive Term
  | lit (ty : Ty) (v : Word)
  | reg (ty : Ty) (q : Nat)
  | load (ty : Ty) (x : VarId) (ofst : Int)
  /-- A load through the address of `x` plus `base`. -/
  | indirect (ty : Ty) (x : VarId) (base ofst : Int)
  /-- A load through the pointer in a register. -/
  | through (ty : Ty) (q : Nat) (ofst : Int)
  | unary (op : Op) (ty : Ty) (a : Term)
  | binary (op : Op) (ty : Ty) (a b : Term)
  | select (ty : Ty) (pred yes no : Term)
  deriving DecidableEq

/-- A value brought into an integer type. -/
def Value.word (l : Layout) (t : Ty) : Value → Word
  | .int v => t.wrapInt l v
  | .float v => t.wrapInt l (Word.ofFloat v)

/-- The result of a unary operator or of a conversion. -/
def Op.onWord (op : Op) (v : Word) : Option Word :=
  if op = .cvt then some v else intUnary op v

/-- Whether a unary operator of type `ty` may have an operand of type `t`. -/
def Op.fitsUnary (op : Op) (ty t : Ty) : Bool :=
  match op with
  | .neg | .bnot => ty.isWord && t == ty
  | .lnot => ty.isBool || (ty.isWord && t == ty)
  | .cvt => ty.isWord
  | _ => false

/-- Whether a binary operator of type `ty` may have two operands of type `t`. -/
def Op.fitsBinary (op : Op) (ty t : Ty) : Bool :=
  if op.isRelation then ty.isBool else op.isBinary && ty.isWord && t == ty

namespace Term

variable {l : Layout} {env : Env} {e e' a a' b b' p p' : Term} {t : Ty} {op : Op} {v w : Word}

def ty : Term → Ty
  | .lit ty _ | .reg ty _ | .load ty _ _ | .indirect ty _ _ _ | .through ty _ _ | .unary _ ty _
  | .binary _ ty _ _ | .select ty _ _ _ => ty

def code : Term → Op
  | .lit .. => .const
  | .reg .. => .pr
  | .load .. => .ld
  | .indirect .. | .through .. => .ild
  | .unary op _ _ | .binary op _ _ _ => op
  | .select .. => .select

/-- The number of nodes that spell a term. -/
def size : Term → Nat
  | .lit .. | .reg .. | .load .. => 1
  | .indirect .. | .through .. => 2
  | .unary _ _ a => a.size + 1
  | .binary _ _ a b => a.size + b.size + 1
  | .select _ p a b => p.size + a.size + b.size + 1

/-- Every operator works on small integers of one type. Truth values come from
comparisons and negations only, and are used by these, by conversions and by
selections. -/
def typed (l : Layout) : Term → Bool
  | .lit ty v => ty.isSmall && ty.wrapInt l v == v
  | .reg ty _ | .load ty _ _ | .through ty _ _ => ty.isWord
  | .indirect ty _ base ofst => ty.isWord && fitsOffset (base + ofst)
  | .unary op ty a => a.typed l && op.fitsUnary ty a.ty
  | .binary op ty a b => a.typed l && b.typed l && b.ty == a.ty && op.fitsBinary ty a.ty
  | .select ty p a b =>
    p.typed l && a.typed l && b.typed l && ty.isWord && a.ty == ty && b.ty == ty

/-- The value of a term, in the range of its type. What a pointer points to is not known. -/
def value (l : Layout) (env : Env) : Term → Option Word
  | .lit ty v => some (ty.wrapInt l v)
  | .reg ty q => (env.reg q).map (·.word l ty)
  | .load ty x ofst => (env.var x ofst).map (·.word l ty)
  | .indirect ty x base ofst => (env.var x (base + ofst)).map (·.word l ty)
  | .through .. => none
  | .unary op ty a => do
    let v ← a.value l env
    (op.onWord v).map (ty.wrapInt l)
  | .binary op ty a b => do
    let v ← a.value l env
    let w ← b.value l env
    (a.ty.apply l op v w).map (ty.wrapInt l)
  | .select ty p a b => do
    let c ← p.value l env
    (if c != 0#64 then a.value l env else b.value l env).map (ty.wrapInt l)

theorem size_pos : 0 < e.size := by
  cases e <;> simp [size]

theorem exists_succ_of_size_le {fuel : Nat} (h : e.size ≤ fuel) : ∃ f, fuel = f + 1 :=
  Nat.exists_eq_add_one.mpr (Nat.lt_of_lt_of_le size_pos h)

theorem typed_unary :
    (unary op t a).typed l = true ↔ a.typed l = true ∧ op.fitsUnary t a.ty = true := by
  simp [typed]

theorem typed_binary : (binary op t a b).typed l = true ↔
    a.typed l = true ∧ b.typed l = true ∧ b.ty = a.ty ∧ op.fitsBinary t a.ty = true := by
  simp [typed, and_assoc]

theorem typed_select : (select t p a b).typed l = true ↔ p.typed l = true ∧ a.typed l = true ∧
    b.typed l = true ∧ t.isWord = true ∧ a.ty = t ∧ b.ty = t := by
  simp [typed, and_assoc]

theorem typed_lit : (lit t v).typed l = true ↔ t.isSmall = true ∧ t.wrapInt l v = v := by
  simp [typed]

theorem isSmall_of_fitsUnary {s : Ty} (h : op.fitsUnary t s = true) : t.isSmall = true := by
  cases op <;> simp_all [Op.fitsUnary, Ty.isSmall]
  rcases h with h | h <;> simp [h]

theorem isSmall_of_fitsBinary {s : Ty} (h : op.fitsBinary t s = true) : t.isSmall = true := by
  unfold Op.fitsBinary at h
  split at h <;> simp_all [Ty.isSmall]

theorem isSmall_of_typed (h : e.typed l = true) : e.ty.isSmall = true := by
  cases e with
  | lit ty v => exact (typed_lit.mp h).1
  | unary op ty a => exact isSmall_of_fitsUnary (typed_unary.mp h).2
  | binary op ty a b => exact isSmall_of_fitsBinary (typed_binary.mp h).2.2.2
  | select ty p a b => exact Ty.isSmall_of_isWord (typed_select.mp h).2.2.2.1
  | _ => simp_all [typed, Term.ty, Ty.isSmall]

theorem value_range (h : e.typed l = true) (hv : e.value l env = some v) :
    e.ty.wrapInt l v = v := by
  have small := isSmall_of_typed h
  have again (x : Word) : e.ty.wrapInt l (e.ty.wrapInt l x) = e.ty.wrapInt l x :=
    Ty.wrapInt_wrapInt small x
  have word (x : Value) : e.ty.wrapInt l (x.word l e.ty) = x.word l e.ty := by
    cases x <;> exact again _
  cases e with
  | lit ty u =>
    simp only [value, Option.some.injEq] at hv
    rw [← hv]
    exact again u
  | reg ty q =>
    simp only [value, Option.map_eq_some_iff] at hv
    obtain ⟨x, _, rfl⟩ := hv
    exact word x
  | load ty x o =>
    simp only [value, Option.map_eq_some_iff] at hv
    obtain ⟨x, _, rfl⟩ := hv
    exact word x
  | indirect ty x base o =>
    simp only [value, Option.map_eq_some_iff] at hv
    obtain ⟨x, _, rfl⟩ := hv
    exact word x
  | through ty q o => cases hv
  | unary op ty a =>
    simp only [value, Option.bind_eq_bind, Option.bind_eq_some_iff, Option.map_eq_some_iff] at hv
    obtain ⟨_, _, x, _, rfl⟩ := hv
    exact again x
  | binary op ty a b =>
    simp only [value, Option.bind_eq_bind, Option.bind_eq_some_iff, Option.map_eq_some_iff] at hv
    obtain ⟨_, _, _, _, x, _, rfl⟩ := hv
    exact again x
  | select ty p a b =>
    simp only [value, Option.bind_eq_bind, Option.bind_eq_some_iff, Option.map_eq_some_iff] at hv
    obtain ⟨_, _, x, _, rfl⟩ := hv
    exact again x

/-! ### Terms in place of others -/

/-- `e'` may stand in place of `e`: it has the same type, and a value of `e` is one of
`e'`. -/
structure Refines (l : Layout) (e e' : Term) : Prop where
  ty : e'.ty = e.ty
  typed : e'.typed l = true
  value : ∀ env v, e.value l env = some v → e'.value l env = some v

/-- `p'` may stand in place of `p` where only the truth of a value counts. -/
structure Decides (l : Layout) (p p' : Term) : Prop where
  typed : p'.typed l = true
  truth : ∀ env v, p.value l env = some v → ∃ w, p'.value l env = some w ∧ (w = 0#64 ↔ v = 0#64)

theorem Refines.refl (h : e.typed l = true) : Refines l e e := ⟨rfl, h, fun _ _ => id⟩

theorem Refines.trans {e'' : Term} (first : Refines l e e') (second : Refines l e' e'') :
    Refines l e e'' :=
  ⟨second.ty.trans first.ty, second.typed, fun env v h => second.value env v (first.value env v h)⟩

theorem Refines.decides (h : Refines l p p') : Decides l p p' :=
  ⟨h.typed, fun env v hv => ⟨v, h.value env v hv, Iff.rfl⟩⟩

theorem Decides.trans {p'' : Term} (first : Decides l p p') (second : Decides l p' p'') :
    Decides l p p'' := by
  refine ⟨second.typed, fun env v hv => ?_⟩
  obtain ⟨w, hw, same⟩ := first.truth env v hv
  obtain ⟨u, hu, again⟩ := second.truth env w hw
  exact ⟨u, hu, again.trans same⟩

theorem Refines.unary (h : (unary op t a).typed l = true) (below : Refines l a a') :
    Refines l (unary op t a) (unary op t a') := by
  obtain ⟨_, fits⟩ := typed_unary.mp h
  refine ⟨rfl, typed_unary.mpr ⟨below.typed, below.ty ▸ fits⟩, fun env v hv => ?_⟩
  simp only [Term.value, Option.bind_eq_bind, Option.bind_eq_some_iff] at hv ⊢
  obtain ⟨x, hx, hv⟩ := hv
  exact ⟨x, below.value env x hx, hv⟩

theorem Refines.binary (h : (binary op t a b).typed l = true) (left : Refines l a a')
    (right : Refines l b b') : Refines l (binary op t a b) (binary op t a' b') := by
  obtain ⟨_, _, same, fits⟩ := typed_binary.mp h
  have tys : b'.ty = a'.ty := by rw [left.ty, right.ty, same]
  refine ⟨rfl, typed_binary.mpr ⟨left.typed, right.typed, tys, left.ty ▸ fits⟩, fun env v hv => ?_⟩
  simp only [Term.value, Option.bind_eq_bind, Option.bind_eq_some_iff] at hv ⊢
  obtain ⟨x, hx, y, hy, hv⟩ := hv
  exact ⟨x, left.value env x hx, y, right.value env y hy, left.ty ▸ hv⟩

theorem Refines.select (h : (select t p a b).typed l = true) (pred : Decides l p p')
    (yes : Refines l a a') (no : Refines l b b') :
    Refines l (select t p a b) (select t p' a' b') := by
  obtain ⟨_, _, _, word, tyA, tyB⟩ := typed_select.mp h
  refine ⟨rfl, typed_select.mpr ⟨pred.typed, yes.typed, no.typed, word, yes.ty.trans tyA,
    no.ty.trans tyB⟩, fun env v hv => ?_⟩
  simp only [Term.value, Option.bind_eq_bind, Option.bind_eq_some_iff, Option.map_eq_some_iff]
    at hv ⊢
  obtain ⟨c, hc, x, hx, hv⟩ := hv
  obtain ⟨d, hd, same⟩ := pred.truth env c hc
  refine ⟨d, hd, x, ?_, hv⟩
  by_cases zero : c = 0#64
  · simp only [zero, bne_self_eq_false, Bool.false_eq_true, if_false] at hx
    simp only [same.mpr zero, bne_self_eq_false, Bool.false_eq_true, if_false]
    exact no.value env x hx
  · have nonzero : d ≠ 0#64 := fun eq => zero (same.mp eq)
    simp only [bne_iff_ne, ne_eq, zero, not_false_eq_true, if_true] at hx
    simp only [bne_iff_ne, ne_eq, nonzero, not_false_eq_true, if_true]
    exact yes.value env x hx

end Term

end Peephole
