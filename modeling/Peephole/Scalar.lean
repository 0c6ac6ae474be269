/-!
# Scalar types and the target layout
-/

namespace Peephole

inductive Scalar
  | bool
  | i8
  | i16
  | i32
  | i64
  | i128
  | u8
  | u16
  | u32
  | u64
  | u128
  | f32
  | f64
  | f128
  /-- A string constant; laid out as a pointer. -/
  | str
  | void
  /-- Stands for the type of an untyped expression. -/
  | any
  deriving DecidableEq, Repr

namespace Scalar

def all : List Scalar :=
  [.bool, .i8, .i16, .i32, .i64, .i128, .u8, .u16, .u32, .u64, .u128, .f32, .f64, .f128,
    .str, .void, .any]

def isSigned : Scalar → Bool
  | .i8 | .i16 | .i32 | .i64 | .i128 => true
  | _ => false

/-- Booleans count as unsigned integers. -/
def isUnsigned : Scalar → Bool
  | .bool | .u8 | .u16 | .u32 | .u64 | .u128 => true
  | _ => false

def isFloat : Scalar → Bool
  | .f32 | .f64 | .f128 => true
  | _ => false

def isInt (s : Scalar) : Bool := s.isSigned || s.isUnsigned

def name : Scalar → String
  | .bool => "bool"
  | .i8 => "i8"
  | .i16 => "i16"
  | .i32 => "i32"
  | .i64 => "i64"
  | .i128 => "i128"
  | .u8 => "u8"
  | .u16 => "u16"
  | .u32 => "u32"
  | .u64 => "u64"
  | .u128 => "u128"
  | .f32 => "f32"
  | .f64 => "f64"
  | .f128 => "f128"
  | .str => "str"
  | .void => "void"
  | .any => "any"

def ofName? (s : String) : Option Scalar := all.find? (·.name == s)

/-- The integer type of a byte width and a signedness. -/
def intOfSize : Nat → (signed : Bool) → Option Scalar
  | 1, true => some .i8
  | 2, true => some .i16
  | 4, true => some .i32
  | 8, true => some .i64
  | 16, true => some .i128
  | 1, false => some .u8
  | 2, false => some .u16
  | 4, false => some .u32
  | 8, false => some .u64
  | 16, false => some .u128
  | _, _ => none

end Scalar

/-- What the target machine decides about sizes. -/
structure Layout where
  pointerSize : Nat
  deriving DecidableEq, Repr

namespace Layout

/-- Bits of a pointer on the architectures whose width is known. -/
def pointerBits? (architecture : String) : Option Nat :=
  if ["x86_64", "aarch64", "riscv64gc"].contains architecture then some 64
  else if ["i686", "armv7", "wasm32"].contains architecture then some 32
  else if ["avr", "msp430"].contains architecture then some 16
  else none

/-- The layout of a target triple such as `x86_64-unknown-linux-gnu`. A pointer
takes 8 bytes where the architecture does not say. -/
def ofTriple (triple : String) : Layout :=
  match (triple.splitOn "-").head?.bind pointerBits? with
  | some bits => ⟨bits / 8⟩
  | none => ⟨8⟩

def is64Bit (l : Layout) : Bool := l.pointerSize == 8

/-- The unsigned integer as wide as a pointer. -/
def addressScalar (l : Layout) : Scalar :=
  (Scalar.intOfSize l.pointerSize false).getD .u64

/-- The integer of a machine word. -/
def wordScalar (l : Layout) (signed : Bool) : Scalar :=
  (Scalar.intOfSize l.pointerSize signed).getD .i64

end Layout

def Scalar.byteSize (l : Layout) : Scalar → Nat
  | .bool | .i8 | .u8 => 1
  | .i16 | .u16 => 2
  | .i32 | .u32 | .f32 => 4
  | .i64 | .u64 | .f64 => 8
  | .i128 | .u128 | .f128 => 16
  | .str => l.pointerSize
  | .void | .any => 0

end Peephole
