import Mathlib
import Peephole.Value

/-!
# Words in the range of a type

An integer type of at most 64 bits keeps the low bits of a word: two words are
brought to the same value exactly if these bits agree. Sums, products and bit
operations act on the low bits alone, so their operands may be brought into the
type before or after.
-/

namespace Peephole

variable {l : Layout} {t : Ty} {a b c : Word}

/-! ### Low bits -/

namespace Word

theorem low_signExtended (v : Word) {w : Nat} (h : w ≤ 64) :
    (v.signExtended w).setWidth w = v.setWidth w := by
  unfold signExtended
  split
  · rfl
  · ext i hi
    simp only [BitVec.getElem_setWidth, BitVec.getLsbD_signExtend, BitVec.getLsbD_setWidth]
    have below : i < 64 := by omega
    simp [below, hi]

theorem low_zeroExtended (v : Word) {w : Nat} (h : w ≤ 64) :
    (v.zeroExtended w).setWidth w = v.setWidth w := by
  unfold zeroExtended
  split
  · rfl
  · rw [BitVec.setWidth_setWidth_of_le _ h, BitVec.setWidth_eq]

theorem eq_of_low {w : Nat} (h : 64 ≤ w) (low : a.setWidth w = b.setWidth w) : a = b := by
  have back := congrArg (BitVec.setWidth 64) low
  rwa [BitVec.setWidth_setWidth_of_le _ h, BitVec.setWidth_setWidth_of_le _ h,
    BitVec.setWidth_eq, BitVec.setWidth_eq] at back

theorem signExtended_congr {w : Nat} (low : a.setWidth w = b.setWidth w) :
    a.signExtended w = b.signExtended w := by
  unfold signExtended
  split
  · exact eq_of_low ‹_› low
  · rw [low]

theorem zeroExtended_congr {w : Nat} (low : a.setWidth w = b.setWidth w) :
    a.zeroExtended w = b.zeroExtended w := by
  unfold zeroExtended
  split
  · exact eq_of_low ‹_› low
  · rw [low]

theorem low_neg (v : Word) {w : Nat} (h : w ≤ 64) : (-v).setWidth w = -(v.setWidth w) := by
  rw [BitVec.neg_eq_not_add, BitVec.neg_eq_not_add, BitVec.setWidth_add _ _ h,
    BitVec.setWidth_not h]
  congr 1
  exact BitVec.setWidth_ofNat_of_le h 1

theorem low_sub (v u : Word) {w : Nat} (h : w ≤ 64) :
    (v - u).setWidth w = v.setWidth w - u.setWidth w := by
  rw [BitVec.sub_eq_add_neg, BitVec.setWidth_add _ _ h, low_neg u h, ← BitVec.sub_eq_add_neg]

theorem getLsbD_zeroExtended (v : Word) (w i : Nat) :
    (v.zeroExtended w).getLsbD i = (decide (i < w) && v.getLsbD i) := by
  unfold zeroExtended
  by_cases inside : i < 64
  · split
    · simp [show i < w by omega]
    · simp [BitVec.getLsbD_setWidth, inside]
  · simp [BitVec.getLsbD_of_ge _ i (by omega : 64 ≤ i)]

theorem getLsbD_signExtended (v : Word) {w i : Nat} (positive : 0 < w) (inside : i < 64) :
    (v.signExtended w).getLsbD i = v.getLsbD (if i < w then i else w - 1) := by
  unfold signExtended
  split
  · simp [show i < w by omega]
  · rw [BitVec.getLsbD_signExtend]
    by_cases below : i < w
    · simp [inside, below]
    · simp [inside, below, BitVec.msb_eq_getLsbD_last, positive]

theorem zeroExtended_zeroExtended (v : Word) {s w : Nat} (h : s ≤ w) :
    (v.zeroExtended s).zeroExtended w = v.zeroExtended s := by
  apply BitVec.eq_of_getLsbD_eq
  intro i _
  simp only [getLsbD_zeroExtended]
  by_cases below : i < s
  · simp [below, show i < w by omega]
  · simp [below]

theorem signExtended_zeroExtended (v : Word) {s w : Nat} (h : s < w) :
    (v.zeroExtended s).signExtended w = v.zeroExtended s := by
  apply BitVec.eq_of_getLsbD_eq
  intro i inside
  rw [getLsbD_signExtended _ (by omega) inside, getLsbD_zeroExtended, getLsbD_zeroExtended]
  by_cases below : i < w
  · simp [below]
  · simp [below, show ¬ i < s by omega, show ¬ w - 1 < s by omega]

theorem signExtended_signExtended (v : Word) {s w : Nat} (positive : 0 < s) (h : s ≤ w) :
    (v.signExtended s).signExtended w = v.signExtended s := by
  apply BitVec.eq_of_getLsbD_eq
  intro i inside
  rw [getLsbD_signExtended _ (by omega) inside]
  by_cases below : i < w
  · simp [below]
  · rw [if_neg below, getLsbD_signExtended _ positive (by omega),
      getLsbD_signExtended _ positive inside]
    by_cases last : w - 1 < s
    · simp [show w = s by omega, show ¬ i < s by omega, positive]
    · simp [last, show ¬ i < s by omega]

theorem ofBool_eq_zero {p : Bool} : ofBool p = 0#64 ↔ p = false := by
  cases p <;> decide

/-- The exponent of a power of two is the number of zeros below its bit. -/
theorem eq_twoPow_trailingZeros (h : a.isPowerOfTwo = true) :
    a = BitVec.twoPow 64 a.trailingZeros ∧ a.trailingZeros < 64 := by
  simp only [isPowerOfTwo, Bool.and_eq_true, beq_iff_eq] at h
  obtain ⟨positive, single⟩ := h
  have nonzero : a ≠ 0#64 := by
    rintro rfl
    exact absurd positive (by decide)
  have toNat_ne : a.toNat ≠ 0 := fun eq => nonzero (BitVec.eq_of_toNat_eq eq)
  have one_le : 1#64 ≤ a := by
    rw [BitVec.le_def]
    exact Nat.one_le_iff_ne_zero.mpr toNat_ne
  have bits := congrArg BitVec.toNat single
  rw [BitVec.toNat_and, BitVec.toNat_sub_of_le one_le] at bits
  obtain ⟨k, power⟩ := (Nat.and_sub_one_eq_zero_iff_isPowerOfTwo toNat_ne).mp bits
  have below : k < 64 := by
    have := a.isLt
    rw [power] at this
    exact (Nat.pow_lt_pow_iff_right (by decide)).mp this
  have shape : a = BitVec.twoPow 64 k := by
    apply BitVec.eq_of_toNat_eq
    rw [power, BitVec.toNat_twoPow, Nat.mod_eq_of_lt (Nat.pow_lt_pow_right (by decide) below)]
  have found : a.trailingZeros = k := by
    unfold trailingZeros
    rw [shape]
    have first : (List.range 64).find? (BitVec.twoPow 64 k).getLsbD = some k := by
      rw [List.find?_range_eq_some]
      refine ⟨by simp [below], List.mem_range.mpr below, fun j hj => ?_⟩
      simp [BitVec.getLsbD_twoPow, Nat.ne_of_gt hj]
    rw [first, Option.getD_some]
  rw [found]
  exact ⟨shape, below⟩

end Word

/-! ### Types -/

namespace Ty

/-- The signed and unsigned integers of 8 to 64 bits. -/
def isWord : Ty → Bool
  | .scalar .i8 | .scalar .i16 | .scalar .i32 | .scalar .i64 => true
  | .scalar .u8 | .scalar .u16 | .scalar .u32 | .scalar .u64 => true
  | _ => false

/-- A word type, or the type of truth values. -/
def isSmall (t : Ty) : Bool := t.isWord || t.isBool

/-- The operand of an operator of type `t` as the operator reads it. -/
def reads (l : Layout) (t : Ty) (v : Word) : Word :=
  if t.isUnsigned then v.zeroExtended (t.byteSize l * 8) else v.signExtended (t.byteSize l * 8)

theorem isWord_cases (h : t.isWord = true) :
    t ∈ [Scalar.i8, .i16, .i32, .i64, .u8, .u16, .u32, .u64].map Ty.scalar := by
  revert h
  cases t with
  | scalar s => cases s <;> simp [isWord]
  | _ => simp [isWord]

theorem isInt_of_isWord (h : t.isWord = true) : t.isInt = true := by
  have mem := isWord_cases h
  fin_cases mem <;> rfl

theorem isSmall_of_isWord (h : t.isWord = true) : t.isSmall = true := by
  simp [isSmall, h]

theorem isBool_of_isSmall (h : t.isSmall = true) (other : t.isWord = false) :
    t = .scalar .bool := by
  simpa [isSmall, other, isBool] using h

theorem isInt_of_isSmall (h : t.isSmall = true) : t.isInt = true := by
  cases word : t.isWord with
  | true => exact isInt_of_isWord word
  | false => rw [isBool_of_isSmall h word]; rfl

theorem kind_of_isSmall (h : t.isSmall = true) : t.isFloat = false ∧ t.isVoid = false ∧
    t.isPointer = false ∧ t.isChunk = false ∧ t.isVector = false ∧ t.isStr = false := by
  cases t with
  | scalar s => cases s <;> first | decide | exact absurd h (by decide)
  | _ => exact absurd h Bool.false_ne_true

theorem bits_of_isWord (l : Layout) (h : t.isWord = true) :
    0 < t.byteSize l * 8 ∧ t.byteSize l * 8 ≤ 64 := by
  have mem := isWord_cases h
  fin_cases mem <;> simp [byteSize, Scalar.byteSize]

theorem wrapInt_of_isWord (l : Layout) (h : t.isWord = true) (v : Word) :
    t.wrapInt l v = t.reads l v := by
  have mem := isWord_cases h
  fin_cases mem <;> rfl

theorem wrapInt_bool (l : Layout) (v : Word) :
    (Ty.scalar .bool).wrapInt l v = Word.ofBool (v != 0#64) := rfl

theorem low_wrapInt (h : t.isWord = true) (v : Word) :
    (t.wrapInt l v).setWidth (t.byteSize l * 8) = v.setWidth (t.byteSize l * 8) := by
  have small := (bits_of_isWord l h).2
  rw [wrapInt_of_isWord l h, reads]
  split
  · exact Word.low_zeroExtended v small
  · exact Word.low_signExtended v small

/-- Two words are brought to one value exactly if their low bits agree. -/
theorem wrapInt_eq_iff (h : t.isWord = true) :
    t.wrapInt l a = t.wrapInt l b ↔
      a.setWidth (t.byteSize l * 8) = b.setWidth (t.byteSize l * 8) := by
  constructor
  · intro same
    have low := congrArg (BitVec.setWidth (t.byteSize l * 8)) same
    rwa [low_wrapInt h, low_wrapInt h] at low
  · intro low
    rw [wrapInt_of_isWord l h, wrapInt_of_isWord l h, reads, reads]
    split
    · exact Word.zeroExtended_congr low
    · exact Word.signExtended_congr low

theorem wrapInt_wrapInt (h : t.isSmall = true) (v : Word) :
    t.wrapInt l (t.wrapInt l v) = t.wrapInt l v := by
  cases word : t.isWord with
  | true => rw [wrapInt_eq_iff word, low_wrapInt word]
  | false =>
    rw [isBool_of_isSmall h word, wrapInt_bool, wrapInt_bool]
    cases v != 0#64 <;> rfl

theorem wrapInt_ofBool (h : t.isSmall = true) (p : Bool) :
    t.wrapInt l (Word.ofBool p) = Word.ofBool p := by
  cases word : t.isWord with
  | true =>
    have mem := isWord_cases word
    fin_cases mem <;> simp only [wrapInt, Scalar.isSigned, Scalar.isUnsigned, Scalar.byteSize] <;>
      cases p <;> decide
  | false =>
    rw [isBool_of_isSmall h word, wrapInt_bool]
    cases p <;> rfl

theorem wrapInt_zero (h : t.isSmall = true) : t.wrapInt l 0#64 = 0#64 := wrapInt_ofBool h false

theorem wrapInt_one (h : t.isSmall = true) : t.wrapInt l 1#64 = 1#64 := wrapInt_ofBool h true

/-- An operator reads an operand in the range of its type as it is. -/
theorem reads_of_wrapInt (h : t.isSmall = true) (range : t.wrapInt l a = a) :
    t.reads l a = a := by
  cases word : t.isWord with
  | true => rw [← wrapInt_of_isWord l word, range]
  | false =>
    rw [isBool_of_isSmall h word] at range ⊢
    rw [wrapInt_bool] at range
    rw [← range]
    cases a != 0#64 <;> simp only [reads, isUnsigned, byteSize, Scalar.isUnsigned,
      Scalar.byteSize] <;> decide

/-- A wider type holds every value of a narrower one, unless it has no sign and the
narrower has. -/
theorem wrapInt_of_narrower {source : Ty} (hs : source.isSmall = true) (ht : t.isWord = true)
    (wider : source = t ∨
      source.byteSize l < t.byteSize l ∧ (t.isSigned = true ∨ source.isSigned = false))
    (ha : source.wrapInt l a = a) : t.wrapInt l a = a := by
  rcases wider with rfl | ⟨below, sign⟩
  · exact ha
  cases word : source.isWord with
  | false =>
    rw [isBool_of_isSmall hs word, wrapInt_bool] at ha
    rw [← ha, wrapInt_ofBool (isSmall_of_isWord ht)]
  | true =>
    have positive := (bits_of_isWord l word).1
    have more : source.byteSize l * 8 < t.byteSize l * 8 := by omega
    rw [wrapInt_of_isWord l word, reads] at ha
    rw [wrapInt_of_isWord l ht, reads, ← ha]
    have signed : source.isUnsigned = !source.isSigned := by
      have mem := isWord_cases word
      fin_cases mem <;> rfl
    have target : t.isUnsigned = !t.isSigned := by
      have mem := isWord_cases ht
      fin_cases mem <;> rfl
    by_cases unsigned : source.isUnsigned = true
    · rw [if_pos unsigned]
      split
      · exact Word.zeroExtended_zeroExtended a more.le
      · exact Word.signExtended_zeroExtended a more
    · have both : t.isUnsigned = false := by simp_all
      simp only [unsigned, both, if_false, Bool.false_eq_true]
      exact Word.signExtended_signExtended a positive more.le

/-! ### Operators -/

/-- The operator `op` on two operands of type `t`. -/
def apply (l : Layout) (t : Ty) (op : Op) (a b : Word) : Option Word :=
  intBinary op a b t.isUnsigned (t.byteSize l * 8)

/-- The operator `op` on operands of the types `t₀` and `t₁`. It is as wide as the wider of them,
and reads its operands without a sign if one of the types has none. -/
def applyMixed (l : Layout) (t₀ t₁ : Ty) (op : Op) (a b : Word) : Option Word :=
  intBinary op a b (t₀.isUnsigned || t₁.isUnsigned) (max (t₀.byteSize l) (t₁.byteSize l) * 8)

theorem applyMixed_self {op : Op} : t.applyMixed l t op a b = t.apply l op a b := by
  rw [applyMixed, apply, Bool.or_self, Nat.max_self]

/-- `apply`, with the result brought into `t` again. -/
def combine (l : Layout) (t : Ty) (op : Op) (a b : Word) : Option Word :=
  (t.apply l op a b).map (t.wrapInt l)

theorem bits_of_isSmall (l : Layout) (h : t.isSmall = true) :
    max 1 (min (t.byteSize l * 8) 64) = t.byteSize l * 8 := by
  cases word : t.isWord with
  | true =>
    have := bits_of_isWord l word
    omega
  | false => rw [isBool_of_isSmall h word]; rfl

@[simp] theorem apply_add : t.apply l .add a b = some (a + b) := rfl

@[simp] theorem apply_sub : t.apply l .sub a b = some (a - b) := rfl

@[simp] theorem apply_mul : t.apply l .mul a b = some (a * b) := rfl

@[simp] theorem apply_band : t.apply l .band a b = some (a &&& b) := rfl

@[simp] theorem apply_bor : t.apply l .bor a b = some (a ||| b) := rfl

@[simp] theorem apply_xor : t.apply l .xor a b = some (a ^^^ b) := rfl

@[simp] theorem apply_land :
    t.apply l .land a b = some (Word.ofBool (a != 0#64 && b != 0#64)) := rfl

@[simp] theorem apply_lor :
    t.apply l .lor a b = some (Word.ofBool (a != 0#64 || b != 0#64)) := rfl

theorem apply_asr (h : t.isSmall = true) : t.apply l .asr a b =
    if b.toNat < t.byteSize l * 8 then
      some ((a.signExtended (t.byteSize l * 8)).sshiftRight b.toNat) else none := by
  have bits := bits_of_isSmall l h
  conv_rhs => rw [← bits]
  rfl

theorem apply_lsr (h : t.isSmall = true) : t.apply l .lsr a b =
    if b.toNat < t.byteSize l * 8 then
      some (a.zeroExtended (t.byteSize l * 8) >>> b.toNat) else none := by
  have bits := bits_of_isSmall l h
  conv_rhs => rw [← bits]
  rfl

theorem apply_lsl (h : t.isSmall = true) : t.apply l .lsl a b =
    if b.toNat < t.byteSize l * 8 then some (a <<< b.toNat) else none := by
  have bits := bits_of_isSmall l h
  conv_rhs => rw [← bits]
  rfl

theorem reads_clamped (h : t.isSmall = true) (ha : t.wrapInt l a = a) :
    (if t.isUnsigned then a.zeroExtended (max 1 (min (t.byteSize l * 8) 64))
      else a.signExtended (max 1 (min (t.byteSize l * 8) 64))) = a := by
  rw [bits_of_isSmall l h]
  exact reads_of_wrapInt h ha

theorem apply_divide (h : t.isSmall = true) (ha : t.wrapInt l a = a) (hb : t.wrapInt l b = b)
    {op : Op} (division : op = .div ∨ op = .rem ∨ op = .mod) :
    t.apply l op a b = divide op t.isUnsigned a b := by
  conv_rhs => rw [← reads_clamped h ha, ← reads_clamped h hb]
  rcases division with rfl | rfl | rfl <;> rfl

theorem apply_relation (h : t.isSmall = true) (ha : t.wrapInt l a = a)
    (hb : t.wrapInt l b = b) {op : Op} (relation : op.isRelation = true) :
    t.apply l op a b = some (Word.ofBool (compareWords op t.isUnsigned a b)) := by
  conv_rhs => rw [← reads_clamped h ha, ← reads_clamped h hb]
  cases op <;> first | exact absurd relation Bool.false_ne_true | rfl

theorem compareWords_swapped (unsigned : Bool) {op : Op} (relation : op.isRelation = true) :
    compareWords op.swapped unsigned b a = compareWords op unsigned a b := by
  cases op <;> simp [Op.isRelation] at relation <;>
    simp [Op.swapped, compareWords, bne, Bool.beq_comm]

/-- Operands that change places, with the operator that this calls for. -/
theorem apply_swapped (h : t.isSmall = true) (ha : t.wrapInt l a = a) (hb : t.wrapInt l b = b)
    {op : Op} (swaps : op.isCommutative = true ∨ op.isRelation = true) :
    t.apply l op.swapped b a = t.apply l op a b := by
  by_cases relation : op.isRelation = true
  · have swapped : op.swapped.isRelation = true := by
      cases op <;> simp_all [Op.isRelation, Op.swapped]
    rw [apply_relation h hb ha swapped, apply_relation h ha hb relation,
      compareWords_swapped _ relation]
  · have commutes : op.isCommutative = true := by tauto
    cases op <;> simp [Op.isCommutative, Op.isRelation] at commutes relation <;>
      simp [Op.swapped, BitVec.add_comm, BitVec.mul_comm, BitVec.and_comm, BitVec.or_comm,
        BitVec.xor_comm]

/-! ### Identities -/

theorem combine_add_zero (ha : t.wrapInt l a = a) : t.combine l .add a 0#64 = some a := by
  simp [combine, ha]

theorem combine_bor_zero (ha : t.wrapInt l a = a) : t.combine l .bor a 0#64 = some a := by
  simp [combine, ha]

theorem combine_mul_one (ha : t.wrapInt l a = a) : t.combine l .mul a 1#64 = some a := by
  simp [combine, ha]

theorem combine_mul_zero (h : t.isSmall = true) : t.combine l .mul a 0#64 = some 0#64 := by
  simp [combine, wrapInt_zero h]

theorem combine_sub_self (h : t.isSmall = true) : t.combine l .sub a a = some 0#64 := by
  simp [combine, wrapInt_zero h]

theorem combine_xor_self (h : t.isSmall = true) : t.combine l .xor a a = some 0#64 := by
  simp [combine, wrapInt_zero h]

theorem combine_mul_two : t.combine l .mul a 2#64 = t.combine l .add a a := by
  simp [combine, BitVec.mul_two]

theorem combine_band_allOnes (h : t.isWord = true) (ha : t.wrapInt l a = a)
    (ones : c = BitVec.allOnes 64 ∨ c = t.wrapInt l (BitVec.allOnes 64)) :
    t.combine l .band a c = some a := by
  have low : c.setWidth (t.byteSize l * 8) =
      (BitVec.allOnes 64).setWidth (t.byteSize l * 8) := by
    rcases ones with rfl | rfl
    · rfl
    · exact low_wrapInt h _
  have same : t.wrapInt l (a &&& c) = t.wrapInt l a := by
    rw [wrapInt_eq_iff h, BitVec.setWidth_and, low, ← BitVec.setWidth_and, BitVec.and_allOnes]
  simp [combine, same, ha]

theorem combine_div_self (h : t.isSmall = true) (ha : t.wrapInt l a = a)
    {v : Word} (defined : t.combine l .div a a = some v) : v = 1#64 := by
  have one := wrapInt_one (l := l) h
  rw [combine, apply_divide h ha ha (.inl rfl)] at defined
  by_cases zero : a = 0#64
  · simp [divide, zero] at defined
  · have quotient : divide .div t.isUnsigned a a = some 1#64 := by
      cases t.isUnsigned <;> simp [divide, BitVec.sdiv_self, BitVec.udiv_self, zero]
    rw [quotient, Option.map_some, one] at defined
    exact (Option.some.inj defined).symm

theorem combine_rem_one (h : t.isSmall = true) (ha : t.wrapInt l a = a) {op : Op}
    (remainder : op = .rem ∨ op = .mod) : t.combine l op a 1#64 = some 0#64 := by
  have zero := wrapInt_zero (l := l) h
  rw [combine, apply_divide h ha (wrapInt_one h) (.inr remainder)]
  rcases remainder with rfl | rfl <;> cases unsigned : t.isUnsigned <;>
    simp [divide, BitVec.srem_one, BitVec.umod_one, zero]

theorem combine_land_one (h : t.isSmall = true) :
    t.combine l .land 1#64 a = some (Word.ofBool (a != 0#64)) := by
  simp [combine, wrapInt_ofBool h]

theorem combine_lor_one (h : t.isSmall = true) : t.combine l .lor 1#64 a = some 1#64 := by
  simp [combine, Word.ofBool, wrapInt_one h]

/-- The exponent of a power of two in the range of a type is below its width. -/
theorem trailingZeros_lt_bits (h : t.isWord = true) (hc : t.wrapInt l c = c)
    (power : c.isPowerOfTwo = true) : c.trailingZeros < t.byteSize l * 8 := by
  obtain ⟨shape, _⟩ := Word.eq_twoPow_trailingZeros power
  by_contra above
  have low : c.setWidth (t.byteSize l * 8) = (0#64).setWidth (t.byteSize l * 8) := by
    rw [shape]
    ext i hi
    have distinct : c.trailingZeros ≠ i := by omega
    simp [BitVec.getLsbD_twoPow, distinct]
  have zero : c = 0#64 := by
    rw [← hc, (wrapInt_eq_iff h).mpr low, wrapInt_zero (isSmall_of_isWord h)]
  rw [zero] at power
  exact absurd power (by decide)

theorem toNat_trailingZeros (power : c.isPowerOfTwo = true) :
    (BitVec.ofNat 64 c.trailingZeros).toNat = c.trailingZeros := by
  have := (Word.eq_twoPow_trailingZeros power).2
  rw [BitVec.toNat_ofNat]
  omega

theorem combine_mul_power (h : t.isWord = true) (hc : t.wrapInt l c = c)
    (power : c.isPowerOfTwo = true) :
    t.combine l .mul a c = t.combine l .lsl a (BitVec.ofNat 64 c.trailingZeros) := by
  have exponent := toNat_trailingZeros power
  have below := trailingZeros_lt_bits h hc power
  have product : a * c = a <<< c.trailingZeros := by
    rw [BitVec.shiftLeft_eq_mul_twoPow, ← (Word.eq_twoPow_trailingZeros power).1]
  rw [combine, combine, apply_mul, apply_lsl (isSmall_of_isWord h), exponent, if_pos below, product]

theorem combine_div_power (h : t.isWord = true) (unsigned : t.isUnsigned = true)
    (ha : t.wrapInt l a = a) (hc : t.wrapInt l c = c) (power : c.isPowerOfTwo = true) :
    t.combine l .div a c = t.combine l .lsr a (BitVec.ofNat 64 c.trailingZeros) := by
  obtain ⟨shape, inWord⟩ := Word.eq_twoPow_trailingZeros power
  have small := isSmall_of_isWord h
  have exponent := toNat_trailingZeros power
  have below := trailingZeros_lt_bits h hc power
  have nonzero : c ≠ 0#64 := by
    rintro rfl
    exact absurd power (by decide)
  have read := reads_of_wrapInt small ha
  rw [reads, if_pos unsigned] at read
  have quotient : a.udiv c = a >>> c.trailingZeros := by
    conv_lhs => rw [shape]
    exact BitVec.udiv_twoPow_eq_of_lt inWord
  have divided : divide .div t.isUnsigned a c = some (a.udiv c) := by
    simp [divide, nonzero, unsigned]
  rw [combine, combine, apply_divide small ha hc (.inl rfl), apply_lsr small, exponent,
    if_pos below, read, divided, quotient]

theorem combine_shift_zero (h : t.isWord = true) (ha : t.wrapInt l a = a) {op : Op}
    (shift : op.isShift = true) : t.combine l op a 0#64 = some a := by
  have small := isSmall_of_isWord h
  obtain ⟨wide, narrow⟩ := bits_of_isWord l h
  have signed : t.wrapInt l (a.signExtended (t.byteSize l * 8)) = a := by
    rw [← ha, wrapInt_eq_iff h, Word.low_signExtended _ narrow, ha]
  have unsigned : t.wrapInt l (a.zeroExtended (t.byteSize l * 8)) = a := by
    rw [← ha, wrapInt_eq_iff h, Word.low_zeroExtended _ narrow, ha]
  cases op <;> simp [Op.isShift] at shift
  · simp [combine, apply_asr small, wide, signed]
  · simp [combine, apply_lsr small, wide, unsigned]
  · simp [combine, apply_lsl small, wide, ha]

theorem combine_zero_shift (h : t.isSmall = true) {op : Op} (shift : op.isShift = true)
    {v : Word} (defined : t.combine l op 0#64 b = some v) : v = 0#64 := by
  have zero := wrapInt_zero (l := l) h
  have signed : Word.signExtended 0#64 (t.byteSize l * 8) = 0#64 := by
    unfold Word.signExtended
    split
    · rfl
    · ext i hi
      simp [BitVec.getElem_signExtend]
  have unsigned : Word.zeroExtended 0#64 (t.byteSize l * 8) = 0#64 := by
    unfold Word.zeroExtended
    split <;> simp
  cases op <;> simp [Op.isShift] at shift
  · simp only [combine, apply_asr h, signed] at defined
    split at defined <;> simp_all
  · simp only [combine, apply_lsr h, unsigned] at defined
    split at defined <;> simp_all
  · simp only [combine, apply_lsl h] at defined
    split at defined <;> simp_all

theorem combine_shift_out (h : t.isSmall = true) (fits : t.byteSize l * 8 ≤ 64) :
    t.combine l .lsl a (BitVec.ofNat 64 (t.byteSize l * 8)) = none := by
  have amount : (BitVec.ofNat 64 (t.byteSize l * 8)).toNat = t.byteSize l * 8 := by
    rw [BitVec.toNat_ofNat]
    omega
  simp [combine, apply_lsl h, amount]

theorem compareWords_zero {op : Op} (bound : op = .lt ∨ op = .ge) :
    compareWords op true a 0#64 = (op == .ge) := by
  rcases bound with rfl | rfl <;> simp [compareWords, BitVec.ult]

theorem compareWords_self (unsigned : Bool) {op : Op} (equality : op = .eq ∨ op = .ne) :
    compareWords op unsigned a a = (op == .eq) := by
  rcases equality with rfl | rfl <;> simp [compareWords]

/-- `(a inner b) outer c` and `a inner d` agree in `t`, where `b outer c` and `d` do. How the
operators read their operands is of no concern. -/
theorem wrapInt_merge (h : t.isWord = true) {inner outer : Op}
    (merges : inner.isAssociative = true ∧ (outer.isAssociative = true ∨ outer = .sub) ∧
      inner.precedence = outer.precedence)
    {d x y v : Word} {s₀ s₁ s₂ s₃ : Bool} {w₀ w₁ w₂ w₃ : Nat}
    (hx : intBinary inner a b s₀ w₀ = some x)
    (hy : intBinary outer (t.wrapInt l x) c s₁ w₁ = some y)
    (hv : intBinary outer b c s₂ w₂ = some v) (same : t.wrapInt l d = t.wrapInt l v) :
    ∃ z, intBinary inner a d s₃ w₃ = some z ∧ t.wrapInt l z = t.wrapInt l y := by
  obtain ⟨assoc, outside, level⟩ := merges
  have narrow := (bits_of_isWord l h).2
  rw [wrapInt_eq_iff h] at same
  cases inner <;> simp [Op.isAssociative] at assoc <;>
    cases outer <;> simp [Op.isAssociative, Op.precedence] at outside level <;>
    simp only [intBinary, Option.some.injEq, exists_eq_left'] at hx hy hv ⊢ <;>
    subst hx hy hv <;> rw [wrapInt_eq_iff h] <;>
    simp only [BitVec.setWidth_add _ _ narrow, BitVec.setWidth_mul _ _ narrow, BitVec.setWidth_and,
      BitVec.setWidth_or, BitVec.setWidth_xor, Word.low_sub _ _ narrow, low_wrapInt h, same]
  · exact (BitVec.add_assoc ..).symm
  · rw [BitVec.sub_eq_add_neg, BitVec.sub_eq_add_neg, BitVec.add_assoc]
  · exact (BitVec.mul_assoc ..).symm
  · exact (BitVec.and_assoc ..).symm
  · exact (BitVec.or_assoc ..).symm
  · exact (BitVec.xor_assoc ..).symm

/-- `(a inner b) outer c` is `a inner (b outer c)`, however often the parts are brought
into the type. -/
theorem combine_merge (h : t.isWord = true) {inner outer : Op}
    (merges : inner.isAssociative = true ∧ (outer.isAssociative = true ∨ outer = .sub) ∧
      inner.precedence = outer.precedence)
    {x y v : Word} (hx : t.combine l inner a b = some x) (hy : t.combine l outer x c = some y)
    (hv : t.apply l outer b c = some v) : t.combine l inner a (t.wrapInt l v) = some y := by
  obtain ⟨p, first, rfl⟩ := Option.map_eq_some_iff.mp hx
  obtain ⟨q, second, rfl⟩ := Option.map_eq_some_iff.mp hy
  have same := wrapInt_wrapInt (l := l) (isSmall_of_isWord h) v
  exact Option.map_eq_some_iff.mpr (wrapInt_merge h merges first second hv same)

end Ty

end Peephole
