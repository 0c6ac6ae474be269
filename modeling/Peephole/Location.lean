import Peephole.Value

/-!
# Storage locations

A location names a variable and the bytes of it that are meant: an exact one
precisely `size` bytes from `ofst` on, an inexact one some unknown part.
-/

namespace Peephole

structure Variable where
  name : String
  ty : Ty
  /-- Storage of a string literal; its address is never null. -/
  isString : Bool
  isArray : Bool
  /-- Made to describe a pseudo register. -/
  isRegister : Bool

structure Location where
  var : VarId
  ofst : Int
  size : Nat
  exact : Bool
  deriving DecidableEq, Repr

namespace Location

def bytes (var : VarId) (ofst : Int) (size : Nat) : Location := ⟨var, ofst, size, true⟩

def whole (var : VarId) : Location := ⟨var, 0, 0, false⟩

/-- Whether two locations may share a byte. -/
def overlaps (a b : Location) : Except Fault Bool :=
  if a.var ≠ b.var then .ok false
  else if !a.exact || !b.exact then .ok true
  else do
    let endA ← addOffsets a.ofst a.size
    let endB ← addOffsets b.ofst b.size
    return a.ofst < endB && b.ofst < endA

end Location

end Peephole
