import Peephole.Proofs.Term

/-!
# Simpler terms

The terms that the steps on an operator put in place of others, one statement for
each step.
-/

namespace Peephole

namespace Term

variable {l : Layout} {env : Env} {e a b p : Term} {s t : Ty} {op : Op} {c u v w x y : Word}

/-! ### Values of operators -/

theorem isBinary_of_typed (h : (binary op t a b).typed l = true) : op.isBinary = true := by
  obtain ⟨_, _, _, fits⟩ := typed_binary.mp h
  cases op <;> simp_all [Op.fitsBinary, Op.isRelation, Op.isBinary]

theorem arithmetic (h : (binary op t a b).typed l = true) (other : op.isRelation = false) :
    t.isWord = true ∧ a.ty = t ∧ b.ty = t ∧ a.typed l = true ∧ b.typed l = true := by
  obtain ⟨typedA, typedB, same, fits⟩ := typed_binary.mp h
  simp only [Op.fitsBinary, other, Bool.false_eq_true, if_false, Bool.and_eq_true,
    beq_iff_eq] at fits
  exact ⟨fits.1.2, fits.2, same.trans fits.2, typedA, typedB⟩

theorem comparison (h : (binary op t a b).typed l = true) (relation : op.isRelation = true) :
    t = .scalar .bool ∧ b.ty = a.ty ∧ a.typed l = true ∧ b.typed l = true := by
  obtain ⟨typedA, typedB, same, fits⟩ := typed_binary.mp h
  simp only [Op.fitsBinary, relation, if_true, Ty.isBool, beq_iff_eq] at fits
  exact ⟨fits, same, typedA, typedB⟩

theorem value_arithmetic (h : (binary op t a b).typed l = true) (other : op.isRelation = false)
    (hv : (binary op t a b).value l env = some v) :
    ∃ x y, a.value l env = some x ∧ b.value l env = some y ∧ t.wrapInt l x = x ∧
      t.wrapInt l y = y ∧ t.combine l op x y = some v := by
  obtain ⟨_, tyA, tyB, typedA, typedB⟩ := arithmetic h other
  simp only [value, Option.bind_eq_bind, Option.bind_eq_some_iff] at hv
  obtain ⟨x, hx, y, hy, hv⟩ := hv
  have rangeX := value_range typedA hx
  have rangeY := value_range typedB hy
  rw [tyA] at rangeX hv
  rw [tyB] at rangeY
  exact ⟨x, y, hx, hy, rangeX, rangeY, hv⟩

theorem value_of_arithmetic (ty : a.ty = t) (hx : a.value l env = some x)
    (hy : b.value l env = some y) : (binary op t a b).value l env = t.combine l op x y := by
  simp only [value, hx, hy, Option.bind_eq_bind, Option.bind_some, ty, Ty.combine]

theorem value_comparison (h : (binary op t a b).typed l = true) (relation : op.isRelation = true)
    (hv : (binary op t a b).value l env = some v) :
    ∃ x y, a.value l env = some x ∧ b.value l env = some y ∧ a.ty.wrapInt l x = x ∧
      a.ty.wrapInt l y = y ∧ v = Word.ofBool (compareWords op a.ty.isUnsigned x y) := by
  obtain ⟨rfl, same, typedA, typedB⟩ := comparison h relation
  simp only [value, Option.bind_eq_bind, Option.bind_eq_some_iff] at hv
  obtain ⟨x, hx, y, hy, hv⟩ := hv
  have rangeX := value_range typedA hx
  have rangeY := value_range typedB hy
  rw [same] at rangeY
  have small := isSmall_of_typed typedA
  rw [Ty.apply_relation small rangeX rangeY relation, Option.map_some,
    Ty.wrapInt_ofBool rfl, Option.some.injEq] at hv
  exact ⟨x, y, hx, hy, rangeX, rangeY, hv.symm⟩

theorem value_of_comparison (same : b.ty = a.ty) (typedA : a.typed l = true)
    (typedB : b.typed l = true) (relation : op.isRelation = true)
    (hx : a.value l env = some x) (hy : b.value l env = some y) :
    (binary op (.scalar .bool) a b).value l env =
      some (Word.ofBool (compareWords op a.ty.isUnsigned x y)) := by
  have rangeX := value_range typedA hx
  have rangeY := value_range typedB hy
  rw [same] at rangeY
  simp only [value, hx, hy, Option.bind_eq_bind, Option.bind_some,
    Ty.apply_relation (isSmall_of_typed typedA) rangeX rangeY relation, Option.map_some,
    Ty.wrapInt_ofBool (t := .scalar .bool) rfl]

theorem value_lit (h : (lit t v).typed l = true) : (lit t v).value l env = some v := by
  simp [value, (typed_lit.mp h).2]

theorem typed_small_lit (small : t.isSmall = true) (q : Bool) :
    (lit t (Word.ofBool q)).typed l = true :=
  typed_lit.mpr ⟨small, Ty.wrapInt_ofBool small q⟩

/-- The value of a term whose operation is a judgement is a truth value. -/
theorem value_judge (h : e.typed l = true) (judge : e.code.isJudge = true)
    (hv : e.value l env = some v) : v = Word.ofBool (v != 0#64) := by
  have truth (q : Bool) : Word.ofBool q = Word.ofBool (Word.ofBool q != 0#64) := by
    cases q <;> rfl
  cases e with
  | unary op t a =>
    have small := isSmall_of_fitsUnary (typed_unary.mp h).2
    simp only [value, Option.bind_eq_bind, Option.bind_eq_some_iff, Option.map_eq_some_iff] at hv
    obtain ⟨x, _, y, hy, rfl⟩ := hv
    have negation : op = .lnot := by
      have fits := (typed_unary.mp h).2
      cases op <;> simp_all [Op.fitsUnary, code, Op.isJudge, Op.isRelation]
    subst negation
    simp only [Op.onWord, reduceCtorEq, if_false, intUnary, Option.some.injEq] at hy
    rw [← hy, Ty.wrapInt_ofBool small]
    exact truth _
  | binary op t a b =>
    by_cases relation : op.isRelation = true
    · obtain ⟨x, y, _, _, _, _, rfl⟩ := value_comparison h relation hv
      exact truth _
    · have other : op.isRelation = false := by simpa using relation
      obtain ⟨x, y, _, _, _, _, hv⟩ := value_arithmetic h other hv
      have small := Ty.isSmall_of_isWord (arithmetic h other).1
      cases op <;> simp [code, Op.isJudge, Op.isRelation] at judge relation
      · simp only [Ty.combine, Ty.apply_land, Option.map_some, Ty.wrapInt_ofBool small,
          Option.some.injEq] at hv
        rw [← hv]
        exact truth _
      · simp only [Ty.combine, Ty.apply_lor, Option.map_some, Ty.wrapInt_ofBool small,
          Option.some.injEq] at hv
        rw [← hv]
        exact truth _
      · exact absurd (isBinary_of_typed h) Bool.false_ne_true
  | _ => simp [code, Op.isJudge, Op.isRelation] at judge

/-! ### Constant operands -/

theorem refines_fold_binary (h : (binary op t (lit s x) (lit s y)).typed l = true)
    (hv : s.apply l op x y = some v) :
    Refines l (binary op t (lit s x) (lit s y)) (lit t (t.wrapInt l v)) := by
  have small := isSmall_of_typed h
  have range : t.wrapInt l (t.wrapInt l v) = t.wrapInt l v := Ty.wrapInt_wrapInt small v
  obtain ⟨typedX, typedY, _⟩ := typed_binary.mp h
  refine ⟨rfl, typed_lit.mpr ⟨small, range⟩, fun env u hu => ?_⟩
  simp only [value, Option.bind_eq_bind, Option.bind_some, (typed_lit.mp typedX).2,
    (typed_lit.mp typedY).2, Term.ty, hv, Option.map_some] at hu
  rw [value, range, hu]

theorem refines_fold_unary (h : (unary op t (lit s x)).typed l = true)
    (hv : op.onWord x = some v) : Refines l (unary op t (lit s x)) (lit t (t.wrapInt l v)) := by
  have small := isSmall_of_typed h
  have range : t.wrapInt l (t.wrapInt l v) = t.wrapInt l v := Ty.wrapInt_wrapInt small v
  obtain ⟨typedX, _⟩ := typed_unary.mp h
  refine ⟨rfl, typed_lit.mpr ⟨small, range⟩, fun env u hu => ?_⟩
  simp only [value, Option.bind_eq_bind, Option.bind_some, (typed_lit.mp typedX).2, hv,
    Option.map_some] at hu
  rw [value, range, hu]

/-- A term of the same type may stand for an operator that it agrees with on all values
of the operands. -/
theorem refines_arithmetic (h : (binary op t a b).typed l = true) (other : op.isRelation = false)
    (ty : e.ty = t) (typed : e.typed l = true)
    (agree : ∀ env x y v, a.value l env = some x → b.value l env = some y →
      t.wrapInt l x = x → t.wrapInt l y = y → t.combine l op x y = some v →
      e.value l env = some v) : Refines l (binary op t a b) e := by
  refine ⟨ty, typed, fun env v hv => ?_⟩
  obtain ⟨x, y, hx, hy, rangeX, rangeY, hv⟩ := value_arithmetic h other hv
  exact agree env x y v hx hy rangeX rangeY hv

/-- The left operand may stand for an operator with a constant that leaves it as it is. -/
theorem refines_left (h : (binary op t a (lit s y)).typed l = true)
    (other : op.isRelation = false)
    (neutral : ∀ x, t.wrapInt l x = x → t.combine l op x y = some x) :
    Refines l (binary op t a (lit s y)) a := by
  obtain ⟨_, tyA, _, typedA, typedB⟩ := arithmetic h other
  refine refines_arithmetic h other tyA typedA fun env x z v hx hz rangeX _ hv => ?_
  rw [value_lit typedB, Option.some.injEq] at hz
  rw [← hz, neutral x rangeX, Option.some.injEq] at hv
  rw [hx, hv]

/-- A constant may stand for an operator that has no other value. -/
theorem refines_constant (h : (binary op t a b).typed l = true) (other : op.isRelation = false)
    (q : Bool)
    (only : ∀ env x y v, a.value l env = some x → b.value l env = some y →
      t.wrapInt l x = x → t.wrapInt l y = y → t.combine l op x y = some v →
      v = Word.ofBool q) : Refines l (binary op t a b) (lit t (Word.ofBool q)) := by
  have small := Ty.isSmall_of_isWord (arithmetic h other).1
  have typed := typed_small_lit (l := l) small q
  refine refines_arithmetic h other rfl typed fun env x y v hx hy rangeX rangeY hv => ?_
  rw [value_lit typed, only env x y v hx hy rangeX rangeY hv]

theorem refines_add_zero (h : (binary .add t a (lit s 0#64)).typed l = true) :
    Refines l (binary .add t a (lit s 0#64)) a :=
  refines_left h rfl fun _ range => Ty.combine_add_zero range

theorem refines_bor_zero (h : (binary .bor t a (lit s 0#64)).typed l = true) :
    Refines l (binary .bor t a (lit s 0#64)) a :=
  refines_left h rfl fun _ range => Ty.combine_bor_zero range

theorem refines_mul_one (h : (binary .mul t a (lit s 1#64)).typed l = true) :
    Refines l (binary .mul t a (lit s 1#64)) a :=
  refines_left h rfl fun _ range => Ty.combine_mul_one range

theorem refines_band_allOnes (h : (binary .band t a (lit s c)).typed l = true)
    (ones : c = BitVec.allOnes 64 ∨ c = t.wrapInt l (BitVec.allOnes 64)) :
    Refines l (binary .band t a (lit s c)) a :=
  refines_left h rfl fun _ range => Ty.combine_band_allOnes (arithmetic h rfl).1 range ones

theorem refines_shift_zero (h : (binary op t a (lit s 0#64)).typed l = true)
    (shift : op.isShift = true) : Refines l (binary op t a (lit s 0#64)) a := by
  have other : op.isRelation = false := by cases op <;> simp_all [Op.isShift, Op.isRelation]
  exact refines_left h other fun _ range =>
    Ty.combine_shift_zero (arithmetic h other).1 range shift

theorem refines_zero_shift (h : (binary op t (lit s 0#64) b).typed l = true)
    (shift : op.isShift = true) : Refines l (binary op t (lit s 0#64) b) (lit s 0#64) := by
  have other : op.isRelation = false := by cases op <;> simp_all [Op.isShift, Op.isRelation]
  obtain ⟨word, tyA, _, typedA, _⟩ := arithmetic h other
  refine refines_arithmetic h other tyA typedA fun env x y v hx _ _ _ hv => ?_
  rw [value_lit typedA, Option.some.injEq] at hx
  rw [← hx] at hv
  rw [value_lit typedA, Ty.combine_zero_shift (Ty.isSmall_of_isWord word) shift hv]

theorem refines_shift_out (h : (binary .lsl t a (lit s (BitVec.ofNat 64 (s.byteSize l * 8)))).typed
    l = true) :
    Refines l (binary .lsl t a (lit s (BitVec.ofNat 64 (s.byteSize l * 8)))) (lit t 0#64) := by
  obtain ⟨word, _, tyB, _, typedB⟩ := arithmetic h rfl
  have tyB : s = t := tyB
  refine refines_constant h rfl false fun env x y v _ hy _ _ hv => ?_
  rw [value_lit typedB, Option.some.injEq] at hy
  rw [← hy, tyB, Ty.combine_shift_out (Ty.isSmall_of_isWord word)
    (Ty.bits_of_isWord l word).2] at hv
  exact absurd hv (by simp)

theorem refines_mul_zero (h : (binary .mul t a (lit s 0#64)).typed l = true) :
    Refines l (binary .mul t a (lit s 0#64)) (lit t 0#64) := by
  obtain ⟨word, _, _, _, typedB⟩ := arithmetic h rfl
  refine refines_constant h rfl false fun env x y v _ hy _ _ hv => ?_
  rw [value_lit typedB, Option.some.injEq] at hy
  rw [← hy, Ty.combine_mul_zero (Ty.isSmall_of_isWord word), Option.some.injEq] at hv
  exact hv.symm

theorem refines_rem_one (h : (binary op t a (lit s 1#64)).typed l = true)
    (remainder : op = .rem ∨ op = .mod) :
    Refines l (binary op t a (lit s 1#64)) (lit t 0#64) := by
  have other : op.isRelation = false := by rcases remainder with rfl | rfl <;> rfl
  obtain ⟨word, _, _, _, typedB⟩ := arithmetic h other
  refine refines_constant h other false fun env x y v _ hy range _ hv => ?_
  rw [value_lit typedB, Option.some.injEq] at hy
  rw [← hy, Ty.combine_rem_one (Ty.isSmall_of_isWord word) range remainder,
    Option.some.injEq] at hv
  exact hv.symm

theorem refines_lor_one (h : (binary .lor t (lit s 1#64) b).typed l = true) :
    Refines l (binary .lor t (lit s 1#64) b) (lit s 1#64) := by
  obtain ⟨word, tyA, _, typedA, _⟩ := arithmetic h rfl
  refine refines_arithmetic h rfl tyA typedA fun env x y v hx _ _ _ hv => ?_
  rw [value_lit typedA, Option.some.injEq] at hx
  rw [← hx, Ty.combine_lor_one (Ty.isSmall_of_isWord word), Option.some.injEq] at hv
  rw [value_lit typedA, hv]

/-! ### Equal operands -/

theorem refines_self (h : (binary op t a a).typed l = true) (other : op.isRelation = false)
    (q : Bool)
    (only : ∀ x v, t.wrapInt l x = x → t.combine l op x x = some v → v = Word.ofBool q) :
    Refines l (binary op t a a) (lit t (Word.ofBool q)) := by
  refine refines_constant h other q fun env x y v hx hy range _ hv => ?_
  rw [hx, Option.some.injEq] at hy
  exact only x v range (hy ▸ hv)

theorem refines_sub_self (h : (binary .sub t a a).typed l = true) :
    Refines l (binary .sub t a a) (lit t 0#64) := by
  have small := Ty.isSmall_of_isWord (arithmetic h rfl).1
  refine refines_self h rfl false fun x v _ hv => ?_
  rw [Ty.combine_sub_self small, Option.some.injEq] at hv
  exact hv.symm

theorem refines_xor_self (h : (binary .xor t a a).typed l = true) :
    Refines l (binary .xor t a a) (lit t 0#64) := by
  have small := Ty.isSmall_of_isWord (arithmetic h rfl).1
  refine refines_self h rfl false fun x v _ hv => ?_
  rw [Ty.combine_xor_self small, Option.some.injEq] at hv
  exact hv.symm

theorem refines_div_self (h : (binary .div t a a).typed l = true) :
    Refines l (binary .div t a a) (lit t 1#64) := by
  have small := Ty.isSmall_of_isWord (arithmetic h rfl).1
  exact refines_self h rfl true fun x v range hv => Ty.combine_div_self small range hv

/-! ### Powers of two -/

theorem refines_mul_two (h : (binary .mul t a (lit s 2#64)).typed l = true) :
    Refines l (binary .mul t a (lit s 2#64)) (binary .add t a a) := by
  obtain ⟨word, tyA, _, typedA, typedB⟩ := arithmetic h rfl
  have typed : (binary .add t a a).typed l = true :=
    typed_binary.mpr ⟨typedA, typedA, rfl, by simp [Op.fitsBinary, Op.isRelation, Op.isBinary, *]⟩
  refine refines_arithmetic h rfl rfl typed fun env x y v hx hy _ _ hv => ?_
  rw [value_lit typedB, Option.some.injEq] at hy
  rw [← hy, Ty.combine_mul_two] at hv
  rw [value_of_arithmetic tyA hx hx, hv]

theorem typed_exponent (word : t.isWord = true) (power : c.isPowerOfTwo = true) :
    (lit t (BitVec.ofNat 64 c.trailingZeros)).typed l = true := by
  have below := (Word.eq_twoPow_trailingZeros power).2
  refine typed_lit.mpr ⟨Ty.isSmall_of_isWord word, ?_⟩
  generalize c.trailingZeros = k at below
  have mem := Ty.isWord_cases word
  fin_cases mem <;> simp only [Ty.wrapInt, Scalar.isSigned, Scalar.isUnsigned, Scalar.byteSize] <;>
    interval_cases k <;> decide

theorem refines_mul_power (h : (binary .mul t a (lit s c)).typed l = true)
    (power : c.isPowerOfTwo = true) :
    Refines l (binary .mul t a (lit s c))
      (binary .lsl t a (lit s (BitVec.ofNat 64 c.trailingZeros))) := by
  obtain ⟨word, tyA, tyB, typedA, typedB⟩ := arithmetic h rfl
  have tyB : s = t := tyB
  subst tyB
  have exponent := typed_exponent (l := l) word power
  have typed : (binary .lsl s a (lit s (BitVec.ofNat 64 c.trailingZeros))).typed l = true :=
    typed_binary.mpr ⟨typedA, exponent, tyA.symm,
      by simp [Op.fitsBinary, Op.isRelation, Op.isBinary, *]⟩
  refine refines_arithmetic h rfl rfl typed fun env x y v hx hy _ _ hv => ?_
  rw [value_lit typedB, Option.some.injEq] at hy
  rw [← hy, Ty.combine_mul_power word (typed_lit.mp typedB).2 power] at hv
  rw [value_of_arithmetic tyA hx (value_lit exponent), hv]

theorem refines_div_power (h : (binary .div t a (lit s c)).typed l = true)
    (unsigned : t.isUnsigned = true) (power : c.isPowerOfTwo = true) :
    Refines l (binary .div t a (lit s c))
      (binary .lsr t a (lit s (BitVec.ofNat 64 c.trailingZeros))) := by
  obtain ⟨word, tyA, tyB, typedA, typedB⟩ := arithmetic h rfl
  have tyB : s = t := tyB
  subst tyB
  have exponent := typed_exponent (l := l) word power
  have typed : (binary .lsr s a (lit s (BitVec.ofNat 64 c.trailingZeros))).typed l = true :=
    typed_binary.mpr ⟨typedA, exponent, tyA.symm,
      by simp [Op.fitsBinary, Op.isRelation, Op.isBinary, *]⟩
  refine refines_arithmetic h rfl rfl typed fun env x y v hx hy range _ hv => ?_
  rw [value_lit typedB, Option.some.injEq] at hy
  rw [← hy, Ty.combine_div_power word unsigned range (typed_lit.mp typedB).2 power] at hv
  rw [value_of_arithmetic tyA hx (value_lit exponent), hv]

/-! ### Comparisons -/

/-- A term of boolean type may stand for a comparison that it agrees with on all values
of the operands. -/
theorem refines_comparison (h : (binary op t a b).typed l = true) (relation : op.isRelation = true)
    (ty : e.ty = .scalar .bool) (typed : e.typed l = true)
    (agree : ∀ env x y, a.value l env = some x → b.value l env = some y →
      a.ty.wrapInt l x = x → a.ty.wrapInt l y = y →
      e.value l env = some (Word.ofBool (compareWords op a.ty.isUnsigned x y))) :
    Refines l (binary op t a b) e := by
  refine ⟨ty.trans (comparison h relation).1.symm, typed, fun env v hv => ?_⟩
  obtain ⟨x, y, hx, hy, rangeX, rangeY, rfl⟩ := value_comparison h relation hv
  exact agree env x y hx hy rangeX rangeY

theorem refines_unsigned_zero (h : (binary op t a (lit s 0#64)).typed l = true)
    (unsigned : a.ty.isUnsigned = true) (bound : op = .lt ∨ op = .ge) :
    Refines l (binary op t a (lit s 0#64)) (lit t (Word.ofBool (op == .ge))) := by
  have relation : op.isRelation = true := by rcases bound with rfl | rfl <;> rfl
  obtain ⟨rfl, _, _, typedB⟩ := comparison h relation
  have typed := typed_small_lit (l := l) (t := .scalar .bool) rfl (op == .ge)
  refine refines_comparison h relation rfl typed fun env x y _ hy _ _ => ?_
  rw [value_lit typedB, Option.some.injEq] at hy
  rw [value_lit typed, ← hy, unsigned, Ty.compareWords_zero bound]

theorem refines_same (h : (binary op t a a).typed l = true) (equality : op = .eq ∨ op = .ne) :
    Refines l (binary op t a a) (lit t (Word.ofBool (op == .eq))) := by
  have relation : op.isRelation = true := by rcases equality with rfl | rfl <;> rfl
  obtain ⟨rfl, _⟩ := comparison h relation
  have typed := typed_small_lit (l := l) (t := .scalar .bool) rfl (op == .eq)
  refine refines_comparison h relation rfl typed fun env x y hx hy _ _ => ?_
  rw [hx, Option.some.injEq] at hy
  rw [value_lit typed, ← hy, Ty.compareWords_self _ equality]

/-- The comparison that holds when this one does not. -/
theorem compareWords_inverted {inverted : Op} (h : op.inverted? = some inverted) (q : Bool)
    (x y : Word) : compareWords inverted q x y = !compareWords op q x y := by
  cases op <;> simp [Op.inverted?] at h <;> subst h <;> simp [compareWords, bne]

theorem isRelation_of_inverted {inverted : Op} (h : op.inverted? = some inverted) :
    op.isRelation = true ∧ inverted.isRelation = true := by
  cases op <;> simp [Op.inverted?] at h <;> subst h <;> exact ⟨rfl, rfl⟩

theorem refines_lnot_comparison {inverted : Op} (h : op.inverted? = some inverted)
    (typed : (unary .lnot t (binary op s a b)).typed l = true) (bool : t = .scalar .bool) :
    Refines l (unary .lnot t (binary op s a b)) (binary inverted s a b) := by
  obtain ⟨before, after⟩ := isRelation_of_inverted h
  obtain ⟨below, _⟩ := typed_unary.mp typed
  obtain ⟨rfl, same, typedA, typedB⟩ := comparison below before
  have typed' : (binary inverted (.scalar .bool) a b).typed l = true :=
    typed_binary.mpr ⟨typedA, typedB, same, by simp [Op.fitsBinary, after, Ty.isBool]⟩
  refine ⟨bool.symm, typed', fun env v hv => ?_⟩
  simp only [value, Option.bind_eq_bind, Option.bind_eq_some_iff] at hv
  obtain ⟨c, ⟨x, hx, y, hy, hc⟩, hv⟩ := hv
  have compared := value_of_comparison same typedA typedB before hx hy
  simp only [value, hx, hy, hc, Option.bind_eq_bind, Option.bind_some, Option.some.injEq]
    at compared
  rw [value_of_comparison same typedA typedB after hx hy, compareWords_inverted h]
  rw [compared, bool] at hv
  cases hq : compareWords op a.ty.isUnsigned x y <;> rw [hq] at hv <;> exact hv

/-! ### Order of operands -/

theorem refines_swapped (h : (binary op t a b).typed l = true)
    (swaps : op.isCommutative = true ∨ op.isRelation = true) :
    Refines l (binary op t a b) (binary op.swapped t b a) := by
  obtain ⟨typedA, typedB, same, fits⟩ := typed_binary.mp h
  have fits' : op.swapped.fitsBinary t b.ty = true := by
    rw [same]
    cases op <;> simp_all [Op.swapped, Op.fitsBinary, Op.isRelation, Op.isBinary]
  refine ⟨rfl, typed_binary.mpr ⟨typedB, typedA, same.symm, fits'⟩, fun env v hv => ?_⟩
  simp only [value, Option.bind_eq_bind, Option.bind_eq_some_iff] at hv ⊢
  obtain ⟨x, hx, y, hy, hv⟩ := hv
  have rangeX := value_range typedA hx
  have rangeY := value_range typedB hy
  rw [same] at rangeY
  refine ⟨y, hy, x, hx, ?_⟩
  rw [same, Ty.apply_swapped (isSmall_of_typed typedA) rangeX rangeY swaps, hv]

/-- `(a inner c) outer c'` to `a inner (c outer c')`. -/
theorem refines_merge {inner outer : Op} {s' : Ty} {c' : Word}
    (merges : inner.isAssociative = true ∧ (outer.isAssociative = true ∨ outer = .sub) ∧
      inner.precedence = outer.precedence)
    (h : (binary outer t (binary inner t a (lit s c)) (lit s' c')).typed l = true)
    (hv : t.apply l outer c c' = some v) :
    Refines l (binary outer t (binary inner t a (lit s c)) (lit s' c'))
      (binary inner t a (lit t (t.wrapInt l v))) := by
  have other : outer.isRelation = false := by
    obtain ⟨_, outside, _⟩ := merges
    cases outer <;> simp_all [Op.isAssociative, Op.isRelation]
  have other' : inner.isRelation = false := by
    obtain ⟨assoc, _⟩ := merges
    cases inner <;> simp_all [Op.isAssociative, Op.isRelation]
  obtain ⟨word, _, _, typedInner, typedC'⟩ := arithmetic h other
  obtain ⟨_, tyA, _, typedA, typedC⟩ := arithmetic typedInner other'
  have small := Ty.isSmall_of_isWord word
  have typedV : (lit t (t.wrapInt l v)).typed l = true :=
    typed_lit.mpr ⟨small, Ty.wrapInt_wrapInt small v⟩
  have typed : (binary inner t a (lit t (t.wrapInt l v))).typed l = true :=
    typed_binary.mpr ⟨typedA, typedV, tyA.symm,
      by simp [Op.fitsBinary, other', isBinary_of_typed typedInner, word, tyA]⟩
  refine refines_arithmetic h other rfl typed fun env x y w hx hy _ _ hw => ?_
  obtain ⟨z, k, hz, hk, _, _, hx⟩ := value_arithmetic typedInner other' hx
  rw [value_lit typedC, Option.some.injEq] at hk
  rw [value_lit typedC', Option.some.injEq] at hy
  rw [← hk] at hx
  rw [← hy] at hw
  rw [value_of_arithmetic tyA hz (value_lit typedV)]
  exact Ty.combine_merge word merges hx hw hv

/-! ### Truth -/

theorem typed_judgement (h : a.typed l = true) :
    (binary .ne (.scalar .bool) a (lit a.ty 0#64)).typed l = true :=
  typed_binary.mpr ⟨h, typed_small_lit (isSmall_of_typed h) false, rfl,
    by simp [Op.fitsBinary, Op.isRelation, Ty.isBool]⟩

theorem value_judgement (h : a.typed l = true) (hx : a.value l env = some x) :
    (binary .ne (.scalar .bool) a (lit a.ty 0#64)).value l env =
      some (Word.ofBool (x != 0#64)) := by
  have zero : (lit a.ty 0#64).typed l = true := typed_small_lit (isSmall_of_typed h) false
  have same : (lit a.ty 0#64).ty = a.ty := rfl
  rw [value_of_comparison same h zero rfl hx (value_lit zero)]
  simp [compareWords]

theorem decides_judgement (h : a.typed l = true) :
    Decides l a (binary .ne (.scalar .bool) a (lit a.ty 0#64)) := by
  refine ⟨typed_judgement h, fun env x hx => ⟨_, value_judgement h hx, ?_⟩⟩
  rw [Word.ofBool_eq_zero]
  simp

theorem refines_land_one_judge (h : (binary .land t (lit s 1#64) b).typed l = true)
    (judge : b.code.isJudge = true) : Refines l (binary .land t (lit s 1#64) b) b := by
  obtain ⟨word, _, tyB, typedA, typedB⟩ := arithmetic h rfl
  refine refines_arithmetic h rfl tyB typedB fun env x y v hx hy _ _ hv => ?_
  rw [value_lit typedA, Option.some.injEq] at hx
  rw [← hx, Ty.combine_land_one (Ty.isSmall_of_isWord word), Option.some.injEq,
    ← value_judge typedB judge hy] at hv
  rw [hy, hv]

theorem typed_cvt (h : a.typed l = true) (word : t.isWord = true) :
    (unary .cvt t a).typed l = true :=
  typed_unary.mpr ⟨h, word⟩

theorem value_cvt_truth (word : t.isWord = true) {q : Bool}
    (hx : a.value l env = some (Word.ofBool q)) :
    (unary .cvt t a).value l env = some (Word.ofBool q) := by
  simp only [value, hx, Option.bind_eq_bind, Option.bind_some, Op.onWord, if_true, Option.map_some,
    Ty.wrapInt_ofBool (Ty.isSmall_of_isWord word)]

theorem refines_land_one (h : (binary .land t (lit s 1#64) b).typed l = true) :
    Refines l (binary .land t (lit s 1#64) b)
      (unary .cvt t (binary .ne (.scalar .bool) b (lit b.ty 0#64))) := by
  obtain ⟨word, _, _, typedA, typedB⟩ := arithmetic h rfl
  have typed := typed_cvt (typed_judgement typedB) word
  refine refines_arithmetic h rfl rfl typed fun env x y v hx hy _ _ hv => ?_
  rw [value_lit typedA, Option.some.injEq] at hx
  rw [← hx, Ty.combine_land_one (Ty.isSmall_of_isWord word)] at hv
  rw [value_cvt_truth word (value_judgement typedB hy), hv]

/-! ### Conversions and negations -/

theorem refines_cvt_same (h : (unary .cvt t a).typed l = true) (same : a.ty = t) :
    Refines l (unary .cvt t a) a := by
  obtain ⟨typedA, _⟩ := typed_unary.mp h
  refine ⟨same, typedA, fun env v hv => ?_⟩
  simp only [value, Op.onWord, if_true, Option.bind_eq_bind, Option.bind_eq_some_iff,
    Option.map_some, Option.some.injEq] at hv
  obtain ⟨x, hx, hv⟩ := hv
  rw [hx, ← hv, ← same, value_range typedA hx]

/-- A conversion below another may be left out if it keeps all values. -/
theorem refines_cvt_cvt (h : (unary .cvt t (unary .cvt s a)).typed l = true)
    (keeps : a.ty = s ∨
      a.ty.byteSize l < s.byteSize l ∧ (s.isSigned = true ∨ a.ty.isSigned = false)) :
    Refines l (unary .cvt t (unary .cvt s a)) (unary .cvt t a) := by
  obtain ⟨inner, word⟩ := typed_unary.mp h
  obtain ⟨typedA, wordS⟩ := typed_unary.mp inner
  refine ⟨rfl, typed_cvt typedA word, fun env v hv => ?_⟩
  simp only [value, Op.onWord, if_true, Option.bind_eq_bind, Option.bind_eq_some_iff,
    Option.map_some, Option.some.injEq] at hv ⊢
  obtain ⟨y, ⟨x, hx, hy⟩, hv⟩ := hv
  have kept := Ty.wrapInt_of_narrower (isSmall_of_typed typedA) wordS keeps (value_range typedA hx)
  exact ⟨x, hx, by rw [← hv, ← hy, kept]⟩

theorem refines_neg_neg (h : (unary .neg t (unary .neg s a)).typed l = true) :
    Refines l (unary .neg t (unary .neg s a)) a := by
  obtain ⟨inner, fits⟩ := typed_unary.mp h
  obtain ⟨typedA, fits'⟩ := typed_unary.mp inner
  simp only [Op.fitsUnary, Bool.and_eq_true, beq_iff_eq] at fits fits'
  obtain ⟨word, same⟩ := fits
  obtain ⟨_, same'⟩ := fits'
  have same : s = t := same
  subst same
  refine ⟨same', typedA, fun env v hv => ?_⟩
  simp only [value, Op.onWord, reduceCtorEq, if_false, intUnary, Option.bind_eq_bind,
    Option.bind_eq_some_iff, Option.map_some, Option.some.injEq] at hv
  obtain ⟨y, ⟨x, hx, hy⟩, hv⟩ := hv
  have range := value_range typedA hx
  rw [same'] at range
  have narrow := (Ty.bits_of_isWord l word).2
  have back : s.wrapInt l (-s.wrapInt l (-x)) = s.wrapInt l x := by
    rw [Ty.wrapInt_eq_iff word, Word.low_neg _ narrow, Ty.low_wrapInt word,
      Word.low_neg _ narrow, BitVec.neg_neg]
  rw [hx, ← hv, ← hy, back, range]

theorem refines_direct {z : VarId} {base ofst : Int}
    (h : (indirect t z base ofst).typed l = true) :
    Refines l (indirect t z base ofst) (load t z (base + ofst)) := by
  simp only [typed, Bool.and_eq_true] at h
  exact ⟨rfl, h.1, fun _ _ => id⟩

/-! ### Selections -/

theorem refines_select_yes (h : (select t (lit s c) a b).typed l = true) (nonzero : c ≠ 0#64) :
    Refines l (select t (lit s c) a b) a := by
  obtain ⟨typedP, typedA, _, _, tyA, _⟩ := typed_select.mp h
  refine ⟨tyA, typedA, fun env v hv => ?_⟩
  simp only [value, (typed_lit.mp typedP).2, Option.bind_eq_bind, Option.bind_some, bne_iff_ne,
    ne_eq, nonzero, not_false_eq_true, if_true, Option.map_eq_some_iff] at hv
  obtain ⟨x, hx, hv⟩ := hv
  rw [hx, ← hv, ← tyA, value_range typedA hx]

theorem refines_select_no (h : (select t (lit s 0#64) a b).typed l = true) :
    Refines l (select t (lit s 0#64) a b) b := by
  obtain ⟨typedP, _, typedB, _, _, tyB⟩ := typed_select.mp h
  refine ⟨tyB, typedB, fun env v hv => ?_⟩
  simp only [value, (typed_lit.mp typedP).2, Option.bind_eq_bind, Option.bind_some,
    bne_self_eq_false, Bool.false_eq_true, if_false, Option.map_eq_some_iff] at hv
  obtain ⟨x, hx, hv⟩ := hv
  rw [hx, ← hv, ← tyB, value_range typedB hx]

theorem typed_lnot (h : a.typed l = true) : (unary .lnot (.scalar .bool) a).typed l = true :=
  typed_unary.mpr ⟨h, rfl⟩

theorem value_lnot (hx : a.value l env = some x) :
    (unary .lnot (.scalar .bool) a).value l env = some (Word.ofBool (x == 0#64)) := by
  simp only [value, hx, Option.bind_eq_bind, Option.bind_some, Op.onWord, reduceCtorEq, if_false,
    intUnary, Option.map_some, Ty.wrapInt_ofBool (t := .scalar .bool) rfl]

/-- `(a != 0) ? 0 : 1` and `(a == 0) ? 1 : 0` are `!a`. -/
theorem refines_select_lnot {s' s'' r : Ty}
    (h : (select t (binary op r a (lit s 0#64)) (lit s' u) (lit s'' w)).typed l = true)
    (fits : op = .ne ∧ u = 0#64 ∧ w = 1#64 ∨ op = .eq ∧ u = 1#64 ∧ w = 0#64) :
    Refines l (select t (binary op r a (lit s 0#64)) (lit s' u) (lit s'' w))
      (unary .cvt t (unary .lnot (.scalar .bool) a)) := by
  obtain ⟨typedP, typedU, typedW, word, tyU, tyW⟩ := typed_select.mp h
  have relation : op.isRelation = true := by rcases fits with ⟨rfl, _⟩ | ⟨rfl, _⟩ <;> rfl
  obtain ⟨rfl, _, typedA, typedZ⟩ := comparison typedP relation
  have small := Ty.isSmall_of_isWord word
  refine ⟨rfl, typed_cvt (typed_lnot typedA) word, fun env v hv => ?_⟩
  simp only [value.eq_8, Option.bind_eq_bind, Option.bind_eq_some_iff, value_lit typedU,
    value_lit typedW] at hv
  obtain ⟨c, hc, hv⟩ := hv
  obtain ⟨x, y, hx, hy, _, _, rfl⟩ := value_comparison typedP relation hc
  rw [value_lit typedZ, Option.some.injEq] at hy
  subst hy
  rw [value_cvt_truth word (value_lnot hx), ← hv]
  have zero := Ty.wrapInt_zero (l := l) small
  have one := Ty.wrapInt_one (l := l) small
  rcases fits with ⟨rfl, rfl, rfl⟩ | ⟨rfl, rfl, rfl⟩ <;> by_cases eq : x = 0#64 <;>
    simp [compareWords, Word.ofBool, eq, zero, one]

/-! ### Work

A measure that every step on an operator makes smaller. Only the step from `a * 2` to
`a + a` makes a term larger, so a product counts for more than what it can become. -/

def work : Term → Nat
  | .binary op _ a b =>
    (if op = .mul then 6 else 3) * (a.size + b.size) +
      (if op = .mul then 20 else if op = .div then 11 else 10) + max a.work b.work
  | _ => 0

/-- The value of a literal. -/
def lit? : Term → Option Word
  | .lit _ v => some v
  | _ => none

def isLit (e : Term) : Bool := e.lit?.isSome

theorem lit?_eq_some : e.lit? = some v ↔ ∃ t, e = .lit t v := by
  cases e <;> simp [lit?]

theorem isLit_of_typed (h : e.typed l = true) : e.isLit = (e.code == .const) := by
  cases e with
  | unary op t a => cases op <;> first | rfl | simp [typed, Op.fitsUnary] at h
  | binary op t a b =>
    cases op <;> first | rfl | simp [typed, Op.fitsBinary, Op.isRelation, Op.isBinary] at h
  | _ => rfl

/-- Whether the operands wait to change places. -/
def turns : Term → Bool
  | .binary op _ a b => (op.isCommutative || op.isRelation) && a.isLit && !b.isLit
  | _ => false

def rank (e : Term) : Nat := 2 * e.work + if e.turns then 1 else 0

theorem work_le (e : Term) : e.work ≤ 26 * (e.size * e.size) := by
  induction e with
  | binary op t a b ihA ihB =>
    have positiveA := size_pos (e := a)
    have positiveB := size_pos (e := b)
    have below : max a.work b.work ≤ 26 * ((a.size + b.size) * (a.size + b.size)) := by
      apply max_le
      · refine ihA.trans (Nat.mul_le_mul_left 26 ?_)
        exact Nat.mul_le_mul (Nat.le_add_right _ _) (Nat.le_add_right _ _)
      · refine ihB.trans (Nat.mul_le_mul_left 26 ?_)
        exact Nat.mul_le_mul (Nat.le_add_left _ _) (Nat.le_add_left _ _)
    have own : (if op = .mul then 6 else 3) * (a.size + b.size) +
        (if op = .mul then 20 else if op = .div then 11 else 10) ≤ 6 * (a.size + b.size) + 20 := by
      split
      · omega
      · split <;> omega
    simp only [work, size]
    nlinarith
  | _ => simp [work]

theorem rank_lt_of_work (h : a.work < e.work) : a.rank < e.rank := by
  unfold rank
  split <;> split <;> omega

theorem square_le_two_pow (n : Nat) : n * n ≤ 2 * 2 ^ n := by
  induction n with
  | zero => simp
  | succ n ih =>
    rcases Nat.lt_or_ge n 3 with small | large
    · interval_cases n <;> simp
    · rw [Nat.pow_succ]
      nlinarith

theorem rank_lt_bound {n : Nat} (h : e.size ≤ n) : e.rank < 2 ^ (n + 9) := by
  have bound := e.work_le
  have square : e.size * e.size ≤ n * n := Nat.mul_le_mul h h
  have flag : e.rank ≤ 2 * e.work + 1 := by
    unfold rank
    split <;> omega
  have power := square_le_two_pow n
  have positive : 1 ≤ 2 ^ n := Nat.one_le_two_pow
  rw [Nat.pow_add]
  omega

theorem work_left : a.work < (binary op t a b).work := by
  have : a.work ≤ max a.work b.work := le_max_left ..
  simp only [work]
  split
  · omega
  · split <;> omega

theorem work_right : b.work < (binary op t a b).work := by
  have : b.work ≤ max a.work b.work := le_max_right ..
  simp only [work]
  split
  · omega
  · split <;> omega

theorem work_pos : 0 < (binary op t a b).work := Nat.zero_lt_of_lt work_left

theorem work_double : (binary .add t a a).work < (binary .mul t a (lit s c)).work := by
  simp only [work, size, reduceCtorEq, if_true, if_false]
  omega

theorem work_mul_power : (binary .lsl t a (lit s c)).work < (binary .mul t a (lit s v)).work := by
  simp only [work, size, reduceCtorEq, if_true, if_false]
  omega

theorem work_div_power : (binary .lsr t a (lit s c)).work < (binary .div t a (lit s v)).work := by
  simp only [work, size, reduceCtorEq, if_true, if_false]
  omega

theorem work_merge {inner outer : Op} {s' s'' : Ty} :
    (binary inner t a (lit s c)).work <
      (binary outer t (binary inner t a (lit s' v)) (lit s'' w)).work := by
  have same : (binary inner t a (lit s c)).work = (binary inner t a (lit s' v)).work := rfl
  rw [same]
  exact work_left

/-- Smaller operands make less work. -/
theorem work_lt_operands {a' b' : Term} (sizeA : a'.size ≤ a.size) (sizeB : b'.size ≤ b.size)
    (workA : a'.work ≤ a.work) (workB : b'.work ≤ b.work)
    (smaller : a'.size < a.size ∨ b'.size < b.size) :
    (binary op t a' b').work < (binary op t a b).work := by
  have below : max a'.work b'.work ≤ max a.work b.work := max_le_max workA workB
  have sum : a'.size + b'.size < a.size + b.size := by omega
  simp only [work]
  split
  · omega
  · split <;> omega

theorem rank_swapped (waits : (binary op t a b).turns = true) :
    (binary op.swapped t b a).rank < (binary op t a b).rank := by
  have same : (binary op.swapped t b a).work = (binary op t a b).work := by
    have mul : (op.swapped = .mul) = (op = .mul) := by cases op <;> simp [Op.swapped]
    have div : (op.swapped = .div) = (op = .div) := by cases op <;> simp [Op.swapped]
    simp only [work, mul, div, Nat.add_comm b.size, max_comm b.work]
  have still : (binary op.swapped t b a).turns = false := by
    simp only [turns, Bool.and_eq_true] at waits ⊢
    simp [waits.1.2]
  simp only [rank, same, waits, still, if_true, Bool.false_eq_true, if_false]
  omega

end Term

end Peephole
