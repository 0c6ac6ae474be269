import Peephole.Ty

/-!
# Structured documents

The form in which types and options are exchanged: values with named fields,
independent of how they are written down.
-/

namespace Peephole

inductive Document
  | null
  | bool (b : Bool)
  | int (i : Int)
  /-- A number with a fraction or an exponent. -/
  | real
  | text (s : String)
  | list (items : List Document)
  | record (fields : List (String × Document))

namespace Document

/-- A whole number of at most `bits` bits. -/
def toNat? (bits : Nat) : Document → Option Nat
  | .int i => if 0 ≤ i && i.toNat < Nat.pow 2 bits then some i.toNat else none
  | _ => none

/-- The values of named fields that must all be there; others are passed
over. -/
def fields? (names : List String) : Document → Option (List Document)
  | .record fields => names.mapM fun name => fields.lookup name
  | _ => none

end Document

namespace Scalar

/-- The name of a scalar in documents. -/
def tag : Scalar → String
  | .bool => "Bool"
  | .i8 => "I8"
  | .i16 => "I16"
  | .i32 => "I32"
  | .i64 => "I64"
  | .i128 => "I128"
  | .u8 => "U8"
  | .u16 => "U16"
  | .u32 => "U32"
  | .u64 => "U64"
  | .u128 => "U128"
  | .f32 => "F32"
  | .f64 => "F64"
  | .f128 => "F128"
  | .str => "Str"
  | .void => "Void"
  | .any => "Any"

/-- A scalar is its name, or a record whose one field has the name and no
value. -/
def ofDocument? : Document → Option Scalar
  | .text s | .record [(s, .null)] => all.find? (·.tag == s)
  | _ => none

end Scalar

namespace Ty

def toDocument : Ty → Document
  | .scalar s => .record [("Simplex", .text s.tag)]
  | .pointer baseSize => .record [("Pointer", .record [("base_size", .int baseSize)])]
  | .chunk size => .record [("MemoryChunk", .record [("size", .int size)])]
  | .vector elem size =>
    .record [("Vector", .record [("elem", .text elem.tag), ("size", .int size)])]

/-- Read a type; sizes have 32 bits. -/
def ofDocument? : Document → Option Ty
  | .record [("Simplex", d)] => (Scalar.ofDocument? d).map .scalar
  | .record [("Pointer", d)] => do
    let [size] ← d.fields? ["base_size"] | none
    return .pointer (← size.toNat? 32)
  | .record [("MemoryChunk", d)] => do
    let [size] ← d.fields? ["size"] | none
    return .chunk (← size.toNat? 32)
  | .record [("Vector", d)] => do
    let [elem, size] ← d.fields? ["elem", "size"] | none
    return .vector (← Scalar.ofDocument? elem) (← size.toNat? 32)
  | _ => none

end Ty

end Peephole
