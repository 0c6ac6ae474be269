import Peephole.Scalar
import Peephole.Fault
import Peephole.Word

/-!
# Types of values

A type is a scalar, a pointer with the size of what it points to, an opaque
memory chunk, or a vector. Sizes are in bytes.
-/

namespace Peephole

inductive Ty
  | scalar (s : Scalar)
  | pointer (baseSize : Nat)
  | chunk (size : Nat)
  | vector (elem : Scalar) (size : Nat)
  deriving DecidableEq, Repr

namespace Ty

def scalar? : Ty → Option Scalar
  | .scalar s => some s
  | _ => none

def isInt : Ty → Bool
  | .scalar s => s.isInt
  | _ => false

def isSigned : Ty → Bool
  | .scalar s => s.isSigned
  | _ => false

/-- Unsigned integers, booleans and pointers compare unsigned. -/
def isUnsigned : Ty → Bool
  | .scalar s => s.isUnsigned
  | .pointer _ => true
  | _ => false

def isFloat : Ty → Bool
  | .scalar s => s.isFloat
  | _ => false

def isBool (t : Ty) : Bool := t == .scalar .bool

def isStr (t : Ty) : Bool := t == .scalar .str

/-- No value, or one of unknown type. -/
def isVoid (t : Ty) : Bool := t == .scalar .void || t == .scalar .any

def isPointer : Ty → Bool
  | .pointer _ => true
  | _ => false

def isChunk : Ty → Bool
  | .chunk _ => true
  | _ => false

def isVector : Ty → Bool
  | .vector _ _ => true
  | _ => false

/-- The types of what may be added to a pointer. -/
def isPointerAddend (t : Ty) : Bool := t.isInt && !t.isBool

def byteSize (l : Layout) : Ty → Nat
  | .scalar s => s.byteSize l
  | .pointer _ => l.pointerSize
  | .chunk size | .vector _ size => size

/-- Bit counts are kept in 32 bits. -/
def bitWidth (l : Layout) (t : Ty) : Except Fault Nat :=
  let bits := t.byteSize l * 8
  if bits < 4294967296 then .ok bits else .error .overflow

def text : Ty → String
  | .scalar s => s.name
  | .pointer baseSize => "*<" ++ baseSize.repr ++ ">"
  | .chunk size => "mc<" ++ size.repr ++ ">"
  | .vector elem size => "vec<" ++ elem.name ++ ":" ++ size.repr ++ ">"

/-- The number that a text of decimal digits writes. -/
def sizeOf? (cs : List Char) : Option Nat :=
  if !cs.isEmpty && cs.all Char.isDigit then
    some (cs.foldl (fun n c => 10 * n + (c.toNat - 48)) 0)
  else none

/-- What stands between `head<` and `>`. -/
def bracketed? (head : String) (s : String) : Option (List Char) :=
  let opening := head.toList ++ ['<']
  let cs := s.toList
  if opening.isPrefixOf cs && cs.getLast? == some '>' then
    some (cs.drop opening.length).dropLast
  else none

def vectorOfText? (body : List Char) : Option Ty := do
  let elem ← Scalar.ofName? (String.ofList (body.takeWhile (· != ':')))
  let size ← sizeOf? ((body.dropWhile (· != ':')).drop 1)
  return .vector elem size

/-- Read a type as `text` writes it. -/
def ofText? (s : String) : Option Ty :=
  ((Scalar.ofName? s).map .scalar)
    <|> ((bracketed? "*" s).bind fun cs => (sizeOf? cs).map .pointer)
    <|> ((bracketed? "mc" s).bind fun cs => (sizeOf? cs).map .chunk)
    <|> ((bracketed? "vec" s).bind vectorOfText?)

/-- Bring a word into the range of an integer type: to 0 or 1 for a boolean,
else by keeping the low bits and extending them by the signedness of the type.
Other types leave the word as it is. -/
def wrapInt (l : Layout) (t : Ty) (v : Word) : Word :=
  match t with
  | .scalar .bool => Word.ofBool (v != 0#64)
  | .scalar s =>
    if s.isSigned then v.signExtended (s.byteSize l * 8)
    else if s.isUnsigned then v.zeroExtended (s.byteSize l * 8)
    else v
  | _ => v

/-- `wrapInt` after the bits of a scalar other than the boolean are counted. The
count overflows only for text, which is as wide as a pointer. -/
def normalizeInt (l : Layout) (t : Ty) (v : Word) : Except Fault Word :=
  match t with
  | .scalar .bool => .ok (t.wrapInt l v)
  | .scalar _ => do
    let _ ← t.bitWidth l
    return t.wrapInt l v
  | _ => .ok v

theorem normalizeInt_of_isInt (l : Layout) {t : Ty} (h : t.isInt = true) (v : Word) :
    t.normalizeInt l v = .ok (t.wrapInt l v) := by
  cases t with
  | scalar s =>
    cases s with
    | str => exact absurd h Bool.false_ne_true
    | _ => rfl
  | _ => exact absurd h Bool.false_ne_true

/-- Round to the precision of a floating type; only `f32` is narrower than the
values themselves. -/
def normalizeFloat (t : Ty) (v : Float) : Float :=
  if t = .scalar .f32 then v.toFloat32.toFloat else v

/-- The common type of two operands: floats win, the wider first; then
pointers; among integers the wider, with equal widths signed only if both
are. Widths that no integer has leave the wider type itself. -/
def common (l : Layout) (t0 t1 : Ty) : Ty :=
  if t0 = t1 then t0
  else match t0.isFloat, t1.isFloat with
  | true, true => if t0.byteSize l < t1.byteSize l then t1 else t0
  | true, false => t0
  | false, true => t1
  | false, false =>
    if t0.isPointer then t0
    else if t1.isPointer then t1
    else
      let s0 := t0.byteSize l
      let s1 := t1.byteSize l
      let signed :=
        if s0 = s1 then t0.isSigned && t1.isSigned
        else if s1 < s0 then t0.isSigned
        else t1.isSigned
      match Scalar.intOfSize (max s0 s1) signed with
      | some s => .scalar s
      | none => if s1 ≤ s0 then t0 else t1

end Ty

end Peephole
