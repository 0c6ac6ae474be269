import Peephole.Ssa

/-!
# Building nodes

Every builder returns a fresh node without a parent whose kids are linked to
it. Statements have the void type unless they store a value.
-/

namespace Peephole

namespace Edit

/-- A fresh node with the given kids. -/
def build (code : Op) (ty : Ty) (attrs : Attrs) (slots : List (List NodeId)) : Edit NodeId :=
  create (.fresh code ty attrs slots)

def scalarType (s : Scalar) : Edit Ty := intern (.scalar s)

def voidType : Edit Ty := scalarType .void

/-! ### Leaves -/

def literal (v : Literal) (ty : Ty) : Edit NodeId := build .const ty (.ofLiteral v) []

def intLiteral (v : Word) (ty : Ty) : Edit NodeId := literal (.int v) ty

def floatLiteral (v : Float) (ty : Ty) : Edit NodeId := literal (.float v) ty

def readRegister (reg : Nat) (ty : Ty) : Edit NodeId := build .pr ty (.ofRegister reg) []

def identifier (v : VarId) : Edit NodeId := do
  build .id (← ask (·.var v)).ty (.ofVar v 0) []

def load (v : VarId) (ofst : Int) (ty : Ty) : Edit NodeId := build .ld ty (.ofVar v ofst) []

/-- The address of `v` plus an offset; the type points to the whole variable. -/
def addressOf (v : VarId) (ofst : Int) : Edit NodeId := do
  let d ← ask (·.var v)
  let ty ← intern (.pointer (d.ty.byteSize (← layout)))
  build .lda ty (.ofVar v ofst) []

/-! ### Memory -/

def loadIndirect (base : NodeId) (ofst : Int) (ty : Ty) : Edit NodeId :=
  build .ild ty (.ofOffset ofst) [[base]]

def element (base : NodeId) (subs : List NodeId) (ty : Ty) : Edit NodeId :=
  build .array ty .none [[base], subs]

def store (v : VarId) (ty : Ty) (ofst : Int) (stored : NodeId) : Edit NodeId :=
  build .st ty (.ofVar v ofst) [[stored]]

def storeRegister (reg : Nat) (ty : Ty) (stored : NodeId) : Edit NodeId :=
  build .stpr ty (.ofRegister reg) [[stored]]

def storeIndirect (base : NodeId) (ofst : Int) (stored : NodeId) (ty : Ty) : Edit NodeId :=
  build .ist ty (.ofOffset ofst) [[base], [stored]]

def storeElement (base : NodeId) (subs : List NodeId) (stored : NodeId) (ty : Ty) : Edit NodeId :=
  build .starray ty .none [[base], subs, [stored]]

def callOf (callee : VarId) (args : List NodeId) (ty : Ty) : Edit NodeId :=
  build .call ty (.ofVar callee 0) [args]

def callIndirect (callee : NodeId) (args : List NodeId) (ty : Ty) : Edit NodeId :=
  build .icall ty .none [[callee], args]

def phi (reg : Nat) (ty : Ty) (merged : List NodeId) : Edit NodeId :=
  build .phi ty (.ofRegister reg) [merged]

/-! ### Operators -/

def binary (code : Op) (ty : Ty) (a b : NodeId) : Edit NodeId := do
  if !code.isBinary then throw (.misuse (.notBinary code))
  build code ty .none [[a], [b]]

/-- A comparison, which has the boolean type. -/
def comparison (code : Op) (a b : NodeId) : Edit NodeId := do
  if !code.isRelation then throw (.misuse (.notComparison code))
  binary code (← scalarType .bool) a b

def unary (code : Op) (ty : Ty) (a : NodeId) : Edit NodeId := do
  if !code.isUnary then throw (.misuse (.notUnary code))
  build code ty .none [[a]]

def logicalNot (a : NodeId) : Edit NodeId := do unary .lnot (← scalarType .bool) a

def convert (a : NodeId) (ty : Ty) : Edit NodeId := unary .cvt ty a

def selection (pred yes no : NodeId) (ty : Ty) : Edit NodeId :=
  build .select ty .none [[pred], [yes], [no]]

/-- The zero that a value of a type is compared with to get its truth. -/
def zeroFor (ty : Ty) : Edit NodeId := do
  if ty.isFloat then floatLiteral 0.0 ty
  else if ty.isInt then intLiteral 0#64 ty
  else intLiteral 0#64 (← scalarType (← layout).addressScalar)

/-- The truth value `a != 0`. -/
def judgement (a : NodeId) : Edit NodeId := do
  let d ← node a
  let zero ← zeroFor d.ty
  comparison .ne a zero

/-! ### Control flow -/

def control (code : Op) (attrs : Attrs) (slots : List (List NodeId)) : Edit NodeId := do
  build code (← voidType) attrs slots

def ifElse (cond : NodeId) (yes no : List NodeId) : Edit NodeId :=
  control .ifElse .none [[cond], yes, no]

def whileDo (cond : NodeId) (body : List NodeId) : Edit NodeId :=
  control .whileDo .none [[cond], body]

def doWhile (cond : NodeId) (body : List NodeId) : Edit NodeId :=
  control .doWhile .none [[cond], body]

def doLoop (cond : NodeId) (first step body : List NodeId) : Edit NodeId :=
  control .doLoop .none [[cond], first, step, body]

def switch (value : NodeId) (body cases : List NodeId) : Edit NodeId :=
  control .switch .none [[value], body, cases]

/-- A case of `switch` or `jumpIndirect`. -/
def caseOf (value : NodeId) (target : LabelId) : Edit NodeId :=
  control .caseOf (.ofLabel target) [[value]]

def jump (target : LabelId) : Edit NodeId := control .goto (.ofLabel target) []

def jumpIndirect (value : NodeId) (cases : List NodeId) : Edit NodeId :=
  control .igoto .none [[value], cases]

def labelled (l : LabelId) : Edit NodeId := control .label (.ofLabel l) []

/-- A branch taken when the condition has the given truth. -/
def branch (truth : Bool) (cond : NodeId) (target : LabelId) : Edit NodeId :=
  control (if truth then .trueBr else .falseBr) (.ofLabel target) [[cond]]

def returns (value : Option NodeId) : Edit NodeId := control .ret .none [value.toList]

def breakLoop : Edit NodeId := control .breakLoop .none []

def continueLoop : Edit NodeId := control .continueLoop .none []

/-! ### Copies -/

/-- A copy of the tree at `n`, at most `fuel` deep. -/
def duplicateWithin : Nat → NodeId → Edit NodeId
  | 0, _ => throw .exhausted
  | fuel + 1, n => do
    let d ← node n
    let slots ← d.slots.mapM fun ks => ks.mapM (duplicateWithin fuel)
    let copy ← build d.code d.ty d.attrs slots
    match d.code, d.ssa with
    | .pr, some v => addSsaUse v copy
    | _, _ => pure ()
    return copy

/-- A copy of the tree at `n`. Access records are not copied; a copied
register read is a further use of its value. -/
def duplicate (n : NodeId) : Edit NodeId := do duplicateWithin (← get).depthBound n

end Edit

end Peephole
