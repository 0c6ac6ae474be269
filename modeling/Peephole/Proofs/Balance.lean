import Mathlib
import Peephole.Refine.Coerce

/-!
# Conversions settle

When an operand is fitted to the type above it, or two operands to each other, and that no
conversion is due once this has been done.
-/

namespace Peephole

namespace Ty

variable {l : Layout} {ty t t0 t1 : Ty} {rel : Bool}

/-- An operand type that is narrower than the type of the node above. -/
def unfit (l : Layout) (ty t : Ty) : Bool :=
  !(ty.isVoid || t.isVoid) && !(ty.isVector || t.isVector) && !(ty.isFloat || t.isFloat) &&
    t.byteSize l < ty.byteSize l

def fitted (l : Layout) (ty t : Ty) (lit : Bool) : Ty :=
  if ty.unfit l t then
    if lit && !ty.isStr && ty.isPointer then .scalar l.addressScalar else ty
  else t

/-- Operand types of which one is to be converted. -/
def unbalanced (l : Layout) (rel : Bool) (t0 t1 : Ty) : Bool :=
  if t0.isVoid || t1.isVoid || t0 = t1 then false
  else if t0.isChunk || t1.isChunk then false
  else if t0.isPointer then t0.byteSize l < t1.byteSize l && t1.isPointerAddend
  else if !rel && t1.isPointer then false
  else if t0.isVector || t1.isVector then false
  else t0.byteSize l != (common l t0 t1).byteSize l || t1.byteSize l != (common l t0 t1).byteSize l

def balanced (l : Layout) (t0 t1 : Ty) : Ty × Ty :=
  if t0.isPointer then (t0, .scalar l.addressScalar)
  else
    (if t0.byteSize l == (common l t0 t1).byteSize l then t0 else common l t0 t1,
      if t1.byteSize l == (common l t0 t1).byteSize l then t1 else common l t0 t1)

theorem byteSize_addressScalar (known : l.pointerSize ∈ [2, 4, 8]) :
    l.addressScalar.byteSize l = l.pointerSize := by
  have cases3 : l.pointerSize = 2 ∨ l.pointerSize = 4 ∨ l.pointerSize = 8 := by simpa using known
  rcases cases3 with h | h | h <;> simp [Layout.addressScalar, Scalar.intOfSize, h, Scalar.byteSize]

theorem unfit_fitted (known : l.pointerSize ∈ [2, 4, 8]) (lit : Bool) :
    ty.unfit l (ty.fitted l t lit) = false := by
  unfold fitted
  split
  · split
    · rename_i wide
      cases ty with
      | pointer n => simp [unfit, byteSize, byteSize_addressScalar known]
      | _ => simp [isPointer] at wide
    · simp [unfit]
  · simp_all

theorem byteSize_intOfSize {n : Nat} {signed : Bool} {s : Scalar}
    (h : Scalar.intOfSize n signed = some s) : s.byteSize l = n ∧ s.isInt = true := by
  unfold Scalar.intOfSize at h
  split at h <;> simp_all <;> subst h <;>
    simp [Scalar.byteSize, Scalar.isInt, Scalar.isSigned, Scalar.isUnsigned]

/-- Types whose widths are compared. -/
def Measured (t : Ty) : Prop := t.isVoid = false ∧ t.isVector = false ∧ t.isFloat = false

theorem unfit_of_le {t' : Ty} (h : ty.unfit l t = false) (measured : t.Measured)
    (wider : t.byteSize l ≤ t'.byteSize l) : ty.unfit l t' = false := by
  obtain ⟨void, vector, float⟩ := measured
  simp only [unfit, void, vector, float, Bool.or_false, Bool.and_eq_false_iff] at h ⊢
  simp only [decide_eq_false_iff_not, Nat.not_lt] at h ⊢
  rcases h with ((h | h) | h) | h
  · exact .inl (.inl (.inl (by simp_all)))
  · exact .inl (.inl (.inr (by simp_all)))
  · exact .inl (.inr (by simp_all))
  · exact .inr (h.trans wider)

theorem unbalanced_self : unbalanced l rel t t = false := by
  simp [unbalanced]

/-- A type that is compared with others by its width alone. -/
theorem isInt_plain (h : t.isInt = true) :
    t.isVoid = false ∧ t.isVector = false ∧ t.isFloat = false ∧ t.isPointer = false ∧
      t.isChunk = false := by
  cases t with
  | scalar s => cases s <;>
      simp_all [isInt, Scalar.isInt, Scalar.isSigned, Scalar.isUnsigned, isVoid,
      isVector, isFloat, Scalar.isFloat, isPointer, isChunk]
  | _ => simp [isInt] at h

theorem intOfSize_isSome {n : Nat} {signed : Bool} (signed' : Bool)
    (h : (Scalar.intOfSize n signed).isSome = true) :
    (Scalar.intOfSize n signed').isSome = true := by
  unfold Scalar.intOfSize at h ⊢
  cases signed <;> cases signed' <;> split at h <;> simp_all

/-- Two types of one width, for which there is an integer type. -/
theorem unbalanced_of_width {n : Nat} {signed : Bool}
    (int : (Scalar.intOfSize n signed).isSome = true)
    (plain0 : t0.isFloat = false ∧ t0.isPointer = false)
    (plain1 : t1.isFloat = false ∧ t1.isPointer = false) (size0 : t0.byteSize l = n)
    (size1 : t1.byteSize l = n) : unbalanced l rel t0 t1 = false := by
  have width : (common l t0 t1).byteSize l = n := by
    unfold common
    split
    · exact size0
    · simp only [plain0, plain1, size0, size1, Bool.false_eq_true, if_false, max_self, if_true]
      split
      · rename_i s found
        exact (byteSize_intOfSize found).1
      · rename_i missing
        have := intOfSize_isSome (t0.isSigned && t1.isSigned) int
        simp [missing] at this
  simp [unbalanced, plain0.2, size0, size1, width]

/-- Operands that need no conversion, in either order. -/
def Calm (l : Layout) (rel : Bool) (ty t0 t1 : Ty) : Prop :=
  (ty.unfit l t0 = false ∧ ty.unfit l t1 = false) ∧
    unbalanced l rel t0 t1 = false ∧ unbalanced l rel t1 t0 = false

theorem calm_self (h : ty.unfit l t = false) : Calm l rel ty t t :=
  ⟨⟨h, h⟩, unbalanced_self, unbalanced_self⟩

theorem balanced_pointer (known : l.pointerSize ∈ [2, 4, 8]) (pointer : t0.isPointer = true)
    (fit0 : ty.unfit l t0 = false) : Calm l rel ty t0 (.scalar l.addressScalar) := by
  have size : l.addressScalar.byteSize l = l.pointerSize := byteSize_addressScalar known
  have int : (Ty.scalar l.addressScalar).isInt = true := by
    have some3 : l.pointerSize = 2 ∨ l.pointerSize = 4 ∨ l.pointerSize = 8 := by simpa using known
    rcases some3 with h | h | h <;>
      simp [Layout.addressScalar, Scalar.intOfSize, h, isInt, Scalar.isInt, Scalar.isUnsigned]
  obtain ⟨void, vector, float, notPointer, chunk⟩ := isInt_plain int
  cases t0 with
  | pointer n =>
    have measured : (Ty.pointer n).Measured := ⟨rfl, rfl, rfl⟩
    have other : (Ty.scalar l.addressScalar) ≠ .pointer n := nofun
    have common0 : common l (.scalar l.addressScalar) (.pointer n) = .pointer n := by
      simp only [common, if_neg other, float, notPointer]
      rfl
    have ptrFloat : (Ty.pointer n).isFloat = false := rfl
    refine ⟨⟨fit0, unfit_of_le fit0 measured (by simp [byteSize, size])⟩, ?_, ?_⟩
    · simp [unbalanced, isPointer, isChunk, byteSize, size]
    · simp [unbalanced, common0, byteSize, size]
  | _ => simp [isPointer] at pointer

/-- The common type of two types that are neither floats nor pointers is an integer that holds
both, or the wider one. -/
theorem exists_common_eq (differ : t0 ≠ t1) (float0 : ¬t0.isFloat = true)
    (float1 : ¬t1.isFloat = true)
    (pointer0 : t0.isPointer = false) (pointer1 : ¬t1.isPointer = true) :
    ∃ signed, common l t0 t1 =
      match Scalar.intOfSize (max (t0.byteSize l) (t1.byteSize l)) signed with
      | some s => .scalar s
      | none => if t1.byteSize l ≤ t0.byteSize l then t0 else t1 := by
  refine ⟨if t0.byteSize l = t1.byteSize l then t0.isSigned && t1.isSigned
    else if t1.byteSize l < t0.byteSize l then t0.isSigned else t1.isSigned, ?_⟩
  simp only [common, differ, float0, float1, pointer0, pointer1, if_false]
  rfl

theorem balanced_widths (plain : t0.isPointer = false) (fit0 : ty.unfit l t0 = false)
    (fit1 : ty.unfit l t1 = false) (fires : unbalanced l rel t0 t1 = true) :
    Calm l rel ty (balanced l t0 t1).1 (balanced l t0 t1).2 := by
  simp only [unbalanced, plain, Bool.false_eq_true, if_false] at fires
  split at fires
  · contradiction
  rename_i ends
  simp only [Bool.or_eq_true, decide_eq_true_eq, not_or, Bool.not_eq_true] at ends
  obtain ⟨⟨void0, void1⟩, differ⟩ := ends
  split at fires
  · contradiction
  split at fires
  · contradiction
  split at fires
  · contradiction
  rename_i noVector
  simp only [Bool.or_eq_true, not_or, Bool.not_eq_true] at noVector
  simp only [balanced, plain, Bool.false_eq_true, if_false]
  have sizes (h : (common l t0 t1).byteSize l = t0.byteSize l) :
      t1.byteSize l ≠ (common l t0 t1).byteSize l := by
    simpa [h] using fires
  -- Where one of the types is the common one, the other operand is converted to it.
  have left (h : common l t0 t1 = t0) : Calm l rel ty
      (if t0.byteSize l == (common l t0 t1).byteSize l then t0 else common l t0 t1)
      (if t1.byteSize l == (common l t0 t1).byteSize l then t1 else common l t0 t1) := by
    have other := sizes (by rw [h])
    rw [h] at other ⊢
    simpa [other] using calm_self fit0
  have right (h : common l t0 t1 = t1) : Calm l rel ty
      (if t0.byteSize l == (common l t0 t1).byteSize l then t0 else common l t0 t1)
      (if t1.byteSize l == (common l t0 t1).byteSize l then t1 else common l t0 t1) := by
    have other : t0.byteSize l ≠ t1.byteSize l := by
      simpa [h] using fires
    rw [h]
    simpa [other] using calm_self fit1
  by_cases float0 : t0.isFloat = true
  · by_cases float1 : t1.isFloat = true
    · by_cases narrow : t0.byteSize l < t1.byteSize l
      · exact right (by simp [common, differ, float0, float1, narrow])
      · exact left (by simp [common, differ, float0, float1, narrow])
    · exact left (by simp [common, differ, float0, float1])
  by_cases float1 : t1.isFloat = true
  · exact right (by simp [common, differ, float0, float1])
  by_cases pointer1 : t1.isPointer = true
  · exact right (by simp [common, differ, float0, float1, plain, pointer1])
  have measured0 : t0.Measured := ⟨void0, noVector.1, by simpa using float0⟩
  have measured1 : t1.Measured := ⟨void1, noVector.2, by simpa using float1⟩
  obtain ⟨signed, unfolded⟩ := exists_common_eq (l := l) differ float0 float1 plain pointer1
  split at unfolded
  · rename_i s found
    obtain ⟨width, int⟩ := byteSize_intOfSize (l := l) found
    have isSome : (Scalar.intOfSize (max (t0.byteSize l) (t1.byteSize l)) signed).isSome =
        true := by
      rw [found]
      rfl
    have size : (Ty.scalar s).byteSize l = max (t0.byteSize l) (t1.byteSize l) := width
    have plainS : (Ty.scalar s).isFloat = false ∧ (Ty.scalar s).isPointer = false := by
      obtain ⟨_, _, float, pointer, _⟩ := isInt_plain (t := .scalar s) int
      exact ⟨float, pointer⟩
    have plain0 : t0.isFloat = false ∧ t0.isPointer = false := ⟨by simpa using float0, plain⟩
    have plain1 : t1.isFloat = false ∧ t1.isPointer = false :=
      ⟨by simpa using float1, by simpa using pointer1⟩
    rw [unfolded, size] at fires ⊢
    by_cases wide0 : t0.byteSize l = max (t0.byteSize l) (t1.byteSize l)
    · have narrow1 : t1.byteSize l ≠ max (t0.byteSize l) (t1.byteSize l) := by
        simpa [← wide0] using fires
      have fitS : ty.unfit l (.scalar s) = false :=
        unfit_of_le fit0 measured0 (by rw [size, ← wide0])
      rw [if_pos (by simpa using wide0), if_neg (by simpa using narrow1)]
      exact ⟨⟨fit0, fitS⟩, unbalanced_of_width isSome plain0 plainS wide0 size,
        unbalanced_of_width isSome plainS plain0 size wide0⟩
    · have wide1 : t1.byteSize l = max (t0.byteSize l) (t1.byteSize l) := by omega
      have fitS : ty.unfit l (.scalar s) = false :=
        unfit_of_le fit1 measured1 (by rw [size, ← wide1])
      rw [if_neg (by simpa using wide0), if_pos (by simpa using wide1)]
      exact ⟨⟨fitS, fit1⟩, unbalanced_of_width isSome plainS plain1 size wide1,
        unbalanced_of_width isSome plain1 plainS wide1 size⟩
  · by_cases le : t1.byteSize l ≤ t0.byteSize l
    · exact left (by simpa [le] using unfolded)
    · exact right (by simpa [le] using unfolded)

theorem balanced_calm (known : l.pointerSize ∈ [2, 4, 8]) (fit0 : ty.unfit l t0 = false)
    (fit1 : ty.unfit l t1 = false) (fires : unbalanced l rel t0 t1 = true) :
    Calm l rel ty (balanced l t0 t1).1 (balanced l t0 t1).2 := by
  by_cases pointer : t0.isPointer = true
  · simp only [balanced, pointer, if_true]
    exact balanced_pointer known pointer fit0
  · exact balanced_widths (by simpa using pointer) fit0 fit1 fires

end Ty

end Peephole
