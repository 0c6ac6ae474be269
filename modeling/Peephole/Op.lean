/-!
# Operations

Every node has a fixed number of child slots, decided by its operation. A slot
holds a list of nodes: operand slots hold one node while attached, list slots
(arguments, subscripts, phi operands, statement bodies) any number.
-/

namespace Peephole

inductive Op
  -- leaves
  | const
  | id
  | ld
  | pr
  | lda
  -- memory expressions
  | ild
  | array
  -- memory statements
  | st
  | stpr
  | starray
  | ist
  | call
  | icall
  | phi
  -- binary arithmetic and logic
  | add
  | sub
  | mul
  | div
  | rem
  | mod
  | land
  | lor
  | band
  | bor
  | xor
  | asr
  | lsr
  | lsl
  -- comparisons
  | lt
  | le
  | gt
  | ge
  | eq
  | ne
  -- unary operations and selection
  | bnot
  | lnot
  | neg
  | cvt
  | select
  -- control flow
  | goto
  | igoto
  | label
  | ifElse
  | whileDo
  | doWhile
  | doLoop
  | switch
  | caseOf
  | trueBr
  | falseBr
  | ret
  | breakLoop
  | continueLoop
  deriving DecidableEq, Repr

namespace Op

def all : List Op :=
  [.const, .id, .ld, .pr, .lda, .ild, .array, .st, .stpr, .starray, .ist, .call, .icall, .phi,
    .add, .sub, .mul, .div, .rem, .mod, .land, .lor, .band, .bor, .xor, .asr, .lsr, .lsl,
    .lt, .le, .gt, .ge, .eq, .ne, .bnot, .lnot, .neg, .cvt, .select, .goto, .igoto, .label,
    .ifElse, .whileDo, .doWhile, .doLoop, .switch, .caseOf, .trueBr, .falseBr, .ret,
    .breakLoop, .continueLoop]

def name : Op → String
  | .const => "const"
  | .id => "id"
  | .ld => "ld"
  | .pr => "pr"
  | .lda => "lda"
  | .ild => "ild"
  | .array => "array"
  | .st => "st"
  | .stpr => "stpr"
  | .starray => "starray"
  | .ist => "ist"
  | .call => "call"
  | .icall => "icall"
  | .phi => "phi"
  | .add => "add"
  | .sub => "sub"
  | .mul => "mul"
  | .div => "div"
  | .rem => "rem"
  | .mod => "mod"
  | .land => "land"
  | .lor => "lor"
  | .band => "band"
  | .bor => "bor"
  | .xor => "xor"
  | .asr => "asr"
  | .lsr => "lsr"
  | .lsl => "lsl"
  | .lt => "lt"
  | .le => "le"
  | .gt => "gt"
  | .ge => "ge"
  | .eq => "eq"
  | .ne => "ne"
  | .bnot => "bnot"
  | .lnot => "lnot"
  | .neg => "neg"
  | .cvt => "cvt"
  | .select => "select"
  | .goto => "goto"
  | .igoto => "igoto"
  | .label => "label"
  | .ifElse => "if"
  | .whileDo => "whiledo"
  | .doWhile => "dowhile"
  | .doLoop => "doloop"
  | .switch => "switch"
  | .caseOf => "case"
  | .trueBr => "truebr"
  | .falseBr => "falsebr"
  | .ret => "return"
  | .breakLoop => "break"
  | .continueLoop => "continue"

def ofName? (s : String) : Option Op := all.find? (·.name == s)

def numSlots : Op → Nat
  | .const | .id | .ld | .pr | .lda | .goto | .label | .breakLoop | .continueLoop => 0
  | .ild | .st | .stpr | .call | .phi | .trueBr | .falseBr | .ret | .caseOf
  | .bnot | .lnot | .neg | .cvt => 1
  | .array | .ist | .icall | .whileDo | .doWhile | .igoto
  | .add | .sub | .mul | .div | .rem | .mod | .land | .lor | .band | .bor | .xor
  | .asr | .lsr | .lsl | .lt | .le | .gt | .ge | .eq | .ne => 2
  | .starray | .select | .ifElse | .switch => 3
  | .doLoop => 4

/-- The name of a list slot; operand slots have none. -/
def slotName : Op → Nat → String
  | .ifElse, 1 => "truebody"
  | .ifElse, 2 => "falsebody"
  | .whileDo, 1 | .doWhile, 1 => "body"
  | .doLoop, 1 => "init"
  | .doLoop, 2 => "step"
  | .doLoop, 3 => "body"
  | .switch, 1 => "body"
  | .switch, 2 | .igoto, 1 => "cases"
  | .call, 0 | .icall, 1 => "args"
  | .phi, 0 => "opnds"
  | .array, 1 | .starray, 1 => "subs"
  | _, _ => ""

/-- Slots that hold statements. -/
def isBody : Op → Nat → Bool
  | .ifElse, 1 | .ifElse, 2 | .whileDo, 1 | .doWhile, 1 => true
  | .doLoop, 1 | .doLoop, 2 | .doLoop, 3 | .switch, 1 => true
  | _, _ => false

def isStmt : Op → Bool
  | .st | .stpr | .starray | .ist | .call | .icall | .phi | .goto | .igoto | .label
  | .ifElse | .whileDo | .doWhile | .doLoop | .switch | .trueBr | .falseBr | .ret
  | .breakLoop | .continueLoop => true
  | _ => false

def isExpr (o : Op) : Bool := !o.isStmt

def isRelation : Op → Bool
  | .lt | .le | .gt | .ge | .eq | .ne => true
  | _ => false

def isShift : Op → Bool
  | .asr | .lsr | .lsl => true
  | _ => false

def isBinary : Op → Bool
  | .add | .sub | .mul | .div | .rem | .mod | .land | .lor | .band | .bor | .xor
  | .asr | .lsr | .lsl | .lt | .le | .gt | .ge | .eq | .ne => true
  | _ => false

def isUnary : Op → Bool
  | .bnot | .lnot | .neg | .cvt => true
  | _ => false

/-- Operations whose result is a truth value. -/
def isJudge : Op → Bool
  | .land | .lor | .lnot => true
  | o => o.isRelation

def isCommutative : Op → Bool
  | .add | .mul | .xor | .band | .bor | .eq | .ne => true
  | _ => false

/-- Operations `op` with `(a op b) op c = a op (b op c)` on words. -/
def isAssociative : Op → Bool
  | .add | .mul | .band | .bor | .xor => true
  | _ => false

def isCondBranch : Op → Bool
  | .trueBr | .falseBr => true
  | _ => false

/-- Nodes that read or write storage, and so may have def-use edges. -/
def isMemoryRef : Op → Bool
  | .ld | .pr | .ild | .array | .st | .stpr | .starray | .ist | .call | .icall | .phi | .id => true
  | _ => false

/-- A lower number binds tighter. -/
def precedence : Op → Nat
  | .array => 1
  | .neg | .bnot | .lnot | .ild | .lda | .cvt => 2
  | .mul | .div | .rem | .mod => 4
  | .add | .sub => 5
  | .asr | .lsr | .lsl => 6
  | .lt | .le | .gt | .ge => 7
  | .eq | .ne => 8
  | .band => 9
  | .xor => 10
  | .bor => 11
  | .land => 12
  | .lor => 13
  | .select => 14
  | _ => 15

/-- The comparison of the swapped operands: `a < b` is `b > a`. -/
def swapped : Op → Op
  | .lt => .gt
  | .le => .ge
  | .gt => .lt
  | .ge => .le
  | o => o

/-- The comparison that holds when this one does not: `!(a < b)` is `a >= b`. -/
def inverted? : Op → Option Op
  | .lt => some .ge
  | .le => some .gt
  | .gt => some .le
  | .ge => some .lt
  | .eq => some .ne
  | .ne => some .eq
  | _ => none

/-- The slot with the stored value of a store. -/
def storedSlot? : Op → Option Nat
  | .st | .stpr => some 0
  | .ist => some 1
  | .starray => some 2
  | _ => none

theorem swapped_swapped (o : Op) : o.swapped.swapped = o := by
  cases o <;> rfl

theorem swapped_numSlots (o : Op) : o.swapped.numSlots = o.numSlots := by
  cases o <;> rfl

theorem inverted?_numSlots {o p : Op} (h : o.inverted? = some p) : p.numSlots = o.numSlots := by
  cases o <;> simp [inverted?] at h <;> subst h <;> rfl

theorem ofName?_name (o : Op) : ofName? o.name = some o := by
  cases o <;> rfl

end Op

end Peephole
