import Peephole.Refine.Memory
import Peephole.Refine.Unary

/-!
# Expressions

Kids are refined before the node above them. `refineExprWithin` bounds the depth
of the recursion, which no tree of the region's nodes takes beyond the bound of
`refineExpr`.
-/

namespace Peephole

open Edit

def refineExprWithin (s : Setting) : Nat → Pass
  | 0, _ => throw .exhausted
  | fuel + 1, n => do
    let code := (← node n).code
    match code with
    | .const | .id | .ld | .pr | .lda => return (n, false)
    | .ild => refineIndirectLoad (refineExprWithin s fuel) n
    | .array => refineElement (refineExprWithin s fuel) n
    | .select => refineSelect s (refineExprWithin s fuel) n
    | .neg => refineNeg s (refineExprWithin s fuel) n
    | .lnot | .bnot => refineNot s (refineExprWithin s fuel) n
    | .cvt => refineCvt s (refineExprWithin s fuel) n
    | _ => do
      if code.isBinary then return ← refineBinary s (refineExprWithin s fuel) true n
      discard (require s false (.unreachableOp n code))
      return (n, false)

/-- Refine the expression at a node. -/
def refineExpr (s : Setting) : Pass := fun n => do
  refineExprWithin s (← get).stepBound n

/-- Refine the condition of a branch or loop. -/
def refineDeterminant (s : Setting) : Pass := fun n =>
  refineCondition s (refineExpr s) n

end Peephole
