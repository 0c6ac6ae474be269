import Peephole.Proofs.Words

/-!
# Machine arithmetic

The operators work on full words, whatever the width of their operands. On operands of `w` bits,
each extended in either way, they compute what a machine with words of `w` bits does
(`intBinary_computes`). Bringing results into a type of that width is the projection that makes up
for the extra bits (`normalizeInt_projects`).
-/

namespace Peephole

variable {w : Nat} {code : Op} {unsigned : Bool} {a b : Word} {x y : BitVec w}

/-- The full word `a` is the word `x`, extended by its sign or by zeros. -/
def Word.Extends (a : Word) (x : BitVec w) : Prop := a = x.signExtend 64 ∨ a = x.setWidth 64

/-! ### Words of `w` bits -/

namespace Machine

/-- The number that a word is read as. -/
def number (unsigned : Bool) (x : BitVec w) : Int := if unsigned then x.toNat else x.toInt

/-- The word that an operation computes. Results that do not fit wrap, and division drops the
fraction. -/
def result (code : Op) (unsigned : Bool) (x y : BitVec w) : BitVec w :=
  match code with
  | .add => x + y
  | .sub => x - y
  | .mul => x * y
  | .div => .ofInt w ((number unsigned x).tdiv (number unsigned y))
  | .rem | .mod => .ofInt w ((number unsigned x).tmod (number unsigned y))
  | .band => x &&& y
  | .bor => x ||| y
  | .xor => x ^^^ y
  | .asr => x.sshiftRight y.toNat
  | .lsr => x >>> y.toNat
  | _ => x <<< y.toNat

/-- What a comparison or connective says about two words. -/
def truth (code : Op) (unsigned : Bool) (x y : BitVec w) : Bool :=
  match code with
  | .lt => number unsigned x < number unsigned y
  | .le => number unsigned x ≤ number unsigned y
  | .gt => number unsigned y < number unsigned x
  | .ge => number unsigned y ≤ number unsigned x
  | .eq => x == y
  | .ne => x != y
  | .land => x != 0#w && y != 0#w
  | _ => x != 0#w || y != 0#w

/-- Division by zero and shifts by the width or more have no result. -/
def Undefined (code : Op) (y : BitVec w) : Prop :=
  (code = .div ∨ code = .rem ∨ code = .mod) ∧ y = 0#w ∨ code.isShift = true ∧ w ≤ y.toNat

/-- The word as an operator reads it. -/
def reading (unsigned : Bool) (x : BitVec w) : Word :=
  if unsigned then x.setWidth 64 else x.signExtend 64

theorem reading_zero (unsigned : Bool) : reading unsigned (0#w) = 0#64 := by
  unfold reading
  split
  · simp
  · ext i inside
    simp [BitVec.getElem_signExtend]

section fits

variable (fits : w ≤ 64)
include fits

theorem low_ofInt (i : Int) : (BitVec.ofInt 64 i).setWidth w = .ofInt w i := by
  have divides : ((2 ^ w : Nat) : Int) ∣ (2 ^ 64 : Nat) := by
    exact_mod_cast Nat.pow_dvd_pow 2 fits
  apply BitVec.eq_of_toInt_eq
  rw [BitVec.toInt_setWidth, BitVec.toInt_ofInt, BitVec.toNat_ofInt,
    Int.toNat_of_nonneg (Int.emod_nonneg _ (by decide)), ← Int.emod_bmod,
    Int.emod_emod_of_dvd _ divides, Int.emod_bmod]

theorem low_reading (unsigned : Bool) : (reading unsigned x).setWidth w = x := by
  unfold reading
  split
  · rw [BitVec.setWidth_setWidth_of_le _ fits, BitVec.setWidth_eq]
  · rw [BitVec.signExtend, low_ofInt fits, BitVec.ofInt_toInt]

theorem low_ushiftRight (k : Nat) : (x.setWidth 64 >>> k).setWidth w = x >>> k := by
  have small : x.toNat >>> k < 2 ^ w := (Nat.shiftRight_le _ _).trans_lt x.isLt
  apply BitVec.eq_of_toNat_eq
  rw [BitVec.toNat_setWidth, BitVec.toNat_ushiftRight, BitVec.toNat_ushiftRight,
    BitVec.toNat_setWidth_of_le fits, Nat.mod_eq_of_lt small]

theorem low_sshiftRight (k : Nat) :
    ((x.signExtend 64).sshiftRight k).setWidth w = x.sshiftRight k := by
  have sign : (x.signExtend 64).msb = x.msb := by
    rw [BitVec.msb_signExtend]
    grind
  ext i inside
  rw [BitVec.getElem_setWidth, BitVec.getLsbD_sshiftRight, BitVec.getElem_sshiftRight, sign,
    BitVec.getLsbD_signExtend]
  grind

theorem extended_eq (unsigned : Bool) : (if unsigned then a.zeroExtended w else a.signExtended w) =
    reading unsigned (a.setWidth w) := by
  unfold Word.zeroExtended Word.signExtended reading
  by_cases full : 64 ≤ w
  · obtain rfl : w = 64 := by omega
    simp
  · simp [full]

theorem reading_inj (unsigned : Bool) : reading unsigned x = reading unsigned y ↔ x = y := by
  constructor
  · intro same
    rw [← low_reading fits unsigned (x := x), same, low_reading fits]
  · exact congrArg _

theorem reading_eq_zero (unsigned : Bool) : reading unsigned x = 0#64 ↔ x = 0#w := by
  rw [← reading_zero unsigned, reading_inj fits]

theorem number_reading : number unsigned (reading unsigned x) = number unsigned x := by
  unfold number reading
  cases unsigned with
  | true => simp [BitVec.toNat_setWidth_of_le fits]
  | false => simp [BitVec.toInt_signExtend_of_le fits]

/-- Extension does not change an amount to shift by, and what is none stays none. -/
theorem amount (h : a.Extends x) :
    x.toNat < w ∧ a.toNat = x.toNat ∨ w ≤ x.toNat ∧ w ≤ a.toNat := by
  have zeros : (x.setWidth 64).toNat = x.toNat := BitVec.toNat_setWidth_of_le fits
  have same (eq : a.toNat = x.toNat) :
      x.toNat < w ∧ a.toNat = x.toNat ∨ w ≤ x.toNat ∧ w ≤ a.toNat := by
    rw [eq]
    exact (Nat.lt_or_ge x.toNat w).imp (fun below => ⟨below, rfl⟩) fun above => ⟨above, above⟩
  rcases h with rfl | rfl
  · cases sign : x.msb with
    | false => exact same (by rw [BitVec.signExtend_eq_setWidth_of_msb_false sign, zeros])
    | true =>
      have large := BitVec.toNat_ge_of_msb_true sign
      have wide : w - 1 < 2 ^ (w - 1) := Nat.lt_two_pow_self
      refine .inr ⟨by omega, ?_⟩
      rw [BitVec.toNat_signExtend, zeros]
      omega
  · exact same zeros

end fits

/-! ### Full words -/

/-- Division of full words. -/
theorem divide_eq (division : code = .div ∨ code = .rem ∨ code = .mod) (nonzero : b ≠ 0#64) :
    divide code unsigned a b = some (result code unsigned a b) := by
  have quotient : .ofInt 64 ((a.toNat : Int).tdiv b.toNat) = a.udiv b := by
    rw [← Int.ofNat_tdiv, BitVec.ofInt_natCast, ← BitVec.toNat_udiv, BitVec.ofNat_toNat,
      BitVec.setWidth_eq]
    rfl
  have remainder : .ofInt 64 ((a.toNat : Int).tmod b.toNat) = a.umod b := by
    rw [← Int.ofNat_tmod, BitVec.ofInt_natCast, ← BitVec.toNat_umod, BitVec.ofNat_toNat,
      BitVec.setWidth_eq]
    rfl
  have quotient' : .ofInt 64 (a.toInt.tdiv b.toInt) = a.sdiv b := by
    rw [← BitVec.toInt_inj, BitVec.toInt_ofInt, BitVec.toInt_sdiv]
  have remainder' : .ofInt 64 (a.toInt.tmod b.toInt) = a.srem b := by
    rw [← BitVec.toInt_srem, BitVec.ofInt_toInt]
  rcases division with rfl | rfl | rfl <;> cases unsigned <;>
    simp only [divide, nonzero, if_false, result, number, quotient, remainder, quotient',
      remainder', Bool.false_eq_true, if_true]

theorem compareWords_eq (relation : code.isRelation = true) :
    compareWords code unsigned a b = truth code unsigned a b := by
  cases code <;> simp [Op.isRelation] at relation <;> cases unsigned <;>
    simp [compareWords, truth, number, BitVec.slt_eq_decide, BitVec.ult_eq_decide,
      ← decide_not]

end Machine

namespace Word.Extends

open Machine

variable (fits : w ≤ 64) (h : a.Extends x)
include fits h

theorem low : a.setWidth w = x := by
  rcases h with rfl | rfl
  · exact low_reading fits false
  · exact low_reading fits true

theorem read (unsigned : Bool) :
    (if unsigned then a.zeroExtended w else a.signExtended w) = reading unsigned x := by
  rw [extended_eq fits, h.low fits]

theorem signed : a.signExtended w = x.signExtend 64 := h.read fits false

theorem zeroed : a.zeroExtended w = x.setWidth 64 := h.read fits true

theorem ne_zero : (a != 0#64) = (x != 0#w) := by
  have zero : a = 0#64 ↔ x = 0#w := by
    rcases h with rfl | rfl
    · exact reading_eq_zero fits false
    · exact reading_eq_zero fits true
  rw [bne, bne, Bool.beq_eq_decide_eq, Bool.beq_eq_decide_eq]
  simp [zero]

end Word.Extends

open Machine

/-- What an operator gives for two words: nothing, a truth value, or a word whose low bits count. -/
def Machine.Computes (code : Op) (unsigned : Bool) (x y : BitVec w) (out : Option Word) : Prop :=
  (out = none ↔ Undefined code y) ∧
  ∀ v, out = some v → if code.isJudge then v = Word.ofBool (truth code unsigned x y)
    else v.setWidth w = result code unsigned x y

namespace Machine.Computes

theorem some {v : Word} (defined : ¬Undefined code y)
    (value : if code.isJudge then v = Word.ofBool (truth code unsigned x y)
      else v.setWidth w = result code unsigned x y) : Computes code unsigned x y (some v) := by
  refine ⟨by simp [defined], ?_⟩
  rintro _ ⟨⟩
  exact value

theorem none (undefined : Undefined code y) : Computes code unsigned x y none :=
  ⟨by simp [undefined], by simp⟩

end Machine.Computes

section operators

variable (fits : w ≤ 64) (left : a.Extends x) (right : b.Extends y)
include fits

theorem divide_computes (division : code = .div ∨ code = .rem ∨ code = .mod) :
    Computes code unsigned x y
      (divide code unsigned (reading unsigned x) (reading unsigned y)) := by
  by_cases zero : y = 0#w
  · rw [divide.eq_def, if_pos ((reading_eq_zero fits unsigned).mpr zero)]
    exact .none (.inl ⟨division, zero⟩)
  · rw [divide_eq division ((reading_eq_zero fits unsigned).not.mpr zero)]
    refine .some (fun undefined => ?_) ?_
    · rcases undefined with ⟨_, zero'⟩ | ⟨shift, _⟩
      · exact zero zero'
      · rcases division with rfl | rfl | rfl <;> cases shift
    · rcases division with rfl | rfl | rfl <;>
        simp [Op.isJudge, Op.isRelation, result, low_ofInt fits, number_reading fits]

theorem truth_reading (relation : code.isRelation = true) :
    truth code unsigned (reading unsigned x) (reading unsigned y) = truth code unsigned x y := by
  have same := reading_inj fits unsigned (x := x) (y := y)
  cases code <;> simp [Op.isRelation] at relation <;>
    simp [truth, number_reading fits, bne, Bool.beq_eq_decide_eq, same]

theorem relation_computes (relation : code.isRelation = true) : Computes code unsigned x y
    (some (Word.ofBool
      (compareWords code unsigned (reading unsigned x) (reading unsigned y)))) := by
  rw [compareWords_eq relation, truth_reading fits relation]
  refine .some ?_ ?_
  · rintro (⟨rfl | rfl | rfl, _⟩ | ⟨shift, _⟩)
    all_goals first | cases relation | cases code <;> simp_all [Op.isRelation, Op.isShift]
  · have judge : code.isJudge = true := by cases code <;> first | rfl | cases relation
    rw [if_pos judge]

include left right

theorem shift_computes (shift : code.isShift = true) (positive : 0 < w) :
    Computes code unsigned x y (intBinary code a b unsigned w) := by
  have bits : max 1 (min w 64) = w := by omega
  have other : ¬(code = .div ∨ code = .rem ∨ code = .mod) := by
    rintro (rfl | rfl | rfl) <;> cases shift
  rcases amount fits right with ⟨below, same⟩ | ⟨above, beyond⟩
  · have defined : ¬Undefined code y := fun undefined => by
      rcases undefined with ⟨division, _⟩ | ⟨_, above⟩
      · exact other division
      · omega
    have inside : b.toNat < w := same ▸ below
    cases code <;> simp [Op.isShift] at shift <;>
      simp only [intBinary, bits, inside, if_true, left.signed fits, left.zeroed fits] <;>
      refine .some defined ?_ <;>
      simp only [Op.isJudge, Op.isRelation, Bool.false_eq_true, if_false, result, same]
    · exact low_sshiftRight fits _
    · exact low_ushiftRight fits _
    · rw [BitVec.setWidth_shiftLeft_of_le fits, left.low fits]
  · have out : ¬b.toNat < w := by omega
    cases code <;> simp [Op.isShift] at shift <;> simp only [intBinary, bits, out, if_false] <;>
      exact .none (.inr ⟨rfl, above⟩)

/-- On words of `w` bits, extended in either way, an operator computes what a machine of that width
does. -/
theorem intBinary_computes (positive : 0 < w) (binary : code.isBinary = true) :
    Computes code unsigned x y (intBinary code a b unsigned w) := by
  have bits : max 1 (min w 64) = w := by omega
  have readA := left.read fits unsigned
  have readB := right.read fits unsigned
  cases code <;> simp [Op.isBinary] at binary
  case div | rem | mod =>
    simp only [intBinary, bits, readA, readB]
    exact divide_computes fits (by simp)
  case asr | lsr | lsl => exact shift_computes fits left right rfl positive
  case lt | le | gt | ge | eq | ne =>
    simp only [intBinary, bits, readA, readB]
    exact relation_computes fits rfl
  case land | lor =>
    refine .some (by simp [Undefined, Op.isShift]) ?_
    simp [truth, Op.isJudge, left.ne_zero fits, right.ne_zero fits]
  all_goals
    refine .some (by simp [Undefined, Op.isShift]) ?_
    simp only [Op.isJudge, Op.isRelation, Bool.false_eq_true, if_false, result,
      BitVec.setWidth_add _ _ fits, BitVec.setWidth_mul _ _ fits, Word.low_sub _ _ fits,
      BitVec.setWidth_and, BitVec.setWidth_or, BitVec.setWidth_xor, left.low fits, right.low fits]

end operators

/-- The least word of eight bits divided by -1, which is extended by zeros, wraps. -/
theorem intBinary_computes_least :
    Computes .div false 128#8 255#8 (intBinary .div (-128#64) 255#64 false 8) :=
  intBinary_computes (by decide) (.inl (by decide)) (.inr (by decide)) (by decide) (by decide)

/-! ### Bringing words into a type -/

variable {l : Layout} {t : Ty}

/-- The least number of an integer type. -/
def Ty.least (l : Layout) (t : Ty) : Int :=
  if t.isUnsigned then 0 else -2 ^ (t.byteSize l * 8 - 1)

/-- The word `x` stands for the word `a` in the type `t`: it agrees with it in the bits that the
type has, and its value is one of the type. -/
structure Ty.Represents (l : Layout) (t : Ty) (x a : Word) : Prop where
  congruent : x.toInt ≡ a.toInt [ZMOD 2 ^ (t.byteSize l * 8)]
  least : t.least l ≤ number t.isUnsigned x
  below : number t.isUnsigned x < t.least l + 2 ^ (t.byteSize l * 8)
  full : t.byteSize l * 8 = 64 → x = a

/-- Two results that are the same in the type `t`. -/
def Ty.Alike (l : Layout) (t : Ty) (u v : Option Word) : Prop :=
  ∃ x y, u = some x ∧ v = some y ∧ t.normalizeInt l x = t.normalizeInt l y

theorem low_eq_iff (fits : w ≤ 64) :
    a.setWidth w = b.setWidth w ↔ a.toInt ≡ b.toInt [ZMOD 2 ^ w] := by
  have low (v : Word) : v.setWidth w = .ofInt w v.toInt := by
    rw [← low_ofInt fits, BitVec.ofInt_toInt]
  have positive : ((2 ^ w : Nat) : Int) ≠ 0 := by positivity
  rw [low, low, ← BitVec.toNat_inj, BitVec.toNat_ofInt, BitVec.toNat_ofInt, Int.ModEq,
    ← Int.ofNat_inj, Int.toNat_of_nonneg (Int.emod_nonneg _ positive),
    Int.toNat_of_nonneg (Int.emod_nonneg _ positive)]
  norm_cast

namespace Ty

variable (word : t.isWord = true)
include word

theorem represents_wrapInt : t.Represents l (t.wrapInt l a) a := by
  obtain ⟨positive, fits⟩ := bits_of_isWord l word
  have value : number t.isUnsigned (t.wrapInt l a) =
      number t.isUnsigned (a.setWidth (t.byteSize l * 8)) := by
    rw [wrapInt_of_isWord l word, reads, extended_eq fits, number_reading fits]
  have bound : (2 : Int) ^ (t.byteSize l * 8) = 2 * 2 ^ (t.byteSize l * 8 - 1) := by
    rw [← pow_succ', Nat.sub_add_cancel positive]
  refine ⟨(low_eq_iff fits).mp (low_wrapInt word a), ?_, ?_, fun full => ?_⟩
  · rw [value, number, Ty.least]
    split
    · exact Int.natCast_nonneg _
    · exact BitVec.le_toInt _
  · rw [value, number, Ty.least]
    split
    · have := (a.setWidth (t.byteSize l * 8)).isLt
      rw [zero_add]
      exact_mod_cast this
    · have := BitVec.toInt_lt (x := a.setWidth (t.byteSize l * 8))
      omega
  · rw [wrapInt_of_isWord l word, reads]
    simp [Word.zeroExtended, Word.signExtended, full]

theorem alike_of_low {u v : Word}
    (low : u.setWidth (t.byteSize l * 8) = v.setWidth (t.byteSize l * 8)) :
    t.Alike l (some u) (some v) := by
  have int := isInt_of_isWord word
  refine ⟨u, v, rfl, rfl, ?_⟩
  rw [normalizeInt_of_isInt l int, normalizeInt_of_isInt l int, (wrapInt_eq_iff word).mpr low]

end Ty

/-- Bringing words into an integer type takes one word of each class of words that agree in the bits
of the type, and operators that work bit by bit or wrap do not tell the words of a class apart. -/
theorem normalizeInt_projects (word : t.isWord = true) (a b : Word) : ∃ x y,
    t.normalizeInt l a = .ok x ∧ t.normalizeInt l b = .ok y ∧ t.Represents l x a ∧
    (x = y ↔ a.toInt ≡ b.toInt [ZMOD 2 ^ (t.byteSize l * 8)]) ∧
    (∀ code ∈ [Op.add, .sub, .mul, .band, .bor, .xor], ∀ unsigned bits,
      t.Alike l (intBinary code a b unsigned bits) (intBinary code x y unsigned bits)) ∧
    (∀ code ∈ [Op.neg, .bnot], t.Alike l (intUnary code a) (intUnary code x)) ∧
    ∀ k < 64, ∀ unsigned, t.Alike l (intBinary .lsl a (.ofNat 64 k) unsigned 64)
      (intBinary .lsl x (.ofNat 64 k) unsigned 64) := by
  have int := Ty.isInt_of_isWord word
  have fits := (Ty.bits_of_isWord l word).2
  refine ⟨t.wrapInt l a, t.wrapInt l b, Ty.normalizeInt_of_isInt l int a,
    Ty.normalizeInt_of_isInt l int b, Ty.represents_wrapInt word, ?_, ?_, ?_, ?_⟩
  · rw [Ty.wrapInt_eq_iff word, low_eq_iff fits]
  · intro code mem unsigned bits
    fin_cases mem <;> refine Ty.alike_of_low word ?_ <;>
      simp only [BitVec.setWidth_add _ _ fits, BitVec.setWidth_mul _ _ fits, Word.low_sub _ _ fits,
        BitVec.setWidth_and, BitVec.setWidth_or, BitVec.setWidth_xor, Ty.low_wrapInt word]
  · intro code mem
    fin_cases mem <;> refine Ty.alike_of_low word ?_ <;>
      simp only [Word.low_neg _ fits, BitVec.setWidth_not fits, Ty.low_wrapInt word]
  · intro k inside unsigned
    have shifted (v : Word) : intBinary .lsl v (.ofNat 64 k) unsigned 64 = some (v <<< k) := by
      have amount : (BitVec.ofNat 64 k).toNat = k := by
        rw [BitVec.toNat_ofNat]
        omega
      simp only [intBinary, amount]
      exact if_pos inside
    rw [shifted, shifted]
    refine Ty.alike_of_low word ?_
    rw [BitVec.setWidth_shiftLeft_of_le fits, BitVec.setWidth_shiftLeft_of_le fits,
      Ty.low_wrapInt word]

/-- The word -1 in an unsigned type of eight bits. -/
theorem normalizeInt_projects_byte : ∃ x y, (Ty.scalar .u8).normalizeInt ⟨8⟩ (-1#64) = .ok x ∧
    (Ty.scalar .u8).normalizeInt ⟨8⟩ 255#64 = .ok y ∧ x = y := by
  obtain ⟨x, y, first, second, _, same, _⟩ :=
    normalizeInt_projects (l := ⟨8⟩) (t := .scalar .u8) rfl (-1#64) 255#64
  exact ⟨x, y, first, second, same.mpr (by decide)⟩

end Peephole
