import Peephole.Handle
import Peephole.Op

/-!
# Faults

Three things stop an operation: an invariant of refinement that does not hold
(`Violation`), a call that breaks the rules of a region (`Misuse`), and plain
arithmetic or indexing that leaves its range. `Fault.exhausted` is none of
these: it says that a bounded recursion was cut off.
-/

namespace Peephole

/-- What is wrong with a tree that no well-formed producer builds. -/
inductive Malformation
  | xorOperands
  | detachedPhiUse
  deriving DecidableEq, Repr

def Malformation.message : Malformation → String
  | .xorOperands => "xor of non-integer operands"
  | .detachedPhiUse => "phi use has no parent"

/-- An invariant that refinement relies on and finds broken. -/
inductive Violation
  | unreachableOp (n : NodeId) (code : Op)
  | nonConstOperand (n : NodeId)
  | operandTooWide (n : NodeId)
  | malformed (n : NodeId) (why : Malformation)
  | staleEdge (n : NodeId)
  | illegalPointerArith (n : NodeId)
  | aggregateSizes (n : NodeId)
  | vectorShapes (n : NodeId)
  deriving DecidableEq, Repr

def Violation.message : Violation → String
  | .unreachableOp n code => "Unreachable opcode " ++ code.name ++ " at " ++ n.text
  | .nonConstOperand n => "Fold operand " ++ n.text ++ " is not a constant"
  | .operandTooWide n => "Operand of " ++ n.text ++ " is wider than 8 bytes"
  | .malformed n why => "Malformed tree at " ++ n.text ++ ": " ++ why.message
  | .staleEdge n => "Stale DU edge left below " ++ n.text ++ " after rewriting"
  | .illegalPointerArith n => "Illegal pointer arithmetic at " ++ n.text
  | .aggregateSizes n => "Aggregate operands of " ++ n.text ++ " differ in size"
  | .vectorShapes n => "Vector operands of " ++ n.text ++ " differ in shape"

/-- The operations that need def-use chains to be maintained. -/
inductive LinkOp
  | addEdge
  | removeEdge
  | changeDef
  | changeUse
  | copyEdges
  | cutUses
  | cutAll
  | dropExpired
  deriving DecidableEq, Repr

def LinkOp.name : LinkOp → String
  | .addEdge => "add_du_edge"
  | .removeEdge => "remove_du_edge"
  | .changeDef => "change_def"
  | .changeUse => "change_use"
  | .copyEdges => "copy_du_set"
  | .cutUses => "remove_use_out_from_defset"
  | .cutAll => "remove_ir_out_from_du_mgr"
  | .dropExpired => "remove_expired_du"

/-- A call whose precondition does not hold. -/
inductive Misuse
  | readReleased (n : NodeId)
  | editReleased (n : NodeId)
  | freshAttached
  | slotsDiffer (old new : Op)
  | emptySlot (slot : Nat) (n : NodeId) (code : Op)
  | ownsKids (n : NodeId) (code : Op)
  | linkedIntoBlock (n : NodeId) (b : BlockId)
  | notStatement (n : NodeId) (code : Op)
  | alreadyAttached (n : NodeId)
  | notBinary (code : Op)
  | notComparison (code : Op)
  | notUnary (code : Op)
  | noLinks (op : LinkOp)
  | edgeEnds (stmt expr : NodeId)
  | notBothStatements (new old : NodeId)
  | notBothExpressions (new old : NodeId)
  | notLoad (n : NodeId)
  | notStore (n : NodeId)
  | noVariable (n : NodeId) (code : Op)
  | shapesDiffer (target source : NodeId)
  | expiredNotStatement (n : NodeId)
  | inEdgesOf (n peer : NodeId)
  | stillUse (n : NodeId) (v : SsaId)
  | definesLiveUses (n : NodeId) (v : SsaId)
  | notRegisterDef (n : NodeId) (code : Op)
  | notRegister (n : NodeId)
  | droppedNotUnlinked (n : NodeId) (b : BlockId)
  deriving DecidableEq, Repr

def Misuse.message : Misuse → String
  | .readReleased n => "node: " ++ n.text ++ " was released"
  | .editReleased n => "node_mut: " ++ n.text ++ " was released"
  | .freshAttached => "create_node: fresh node must not be attached to a parent or block"
  | .slotsDiffer old new =>
    "set_code: cannot turn " ++ old.name ++ " into " ++ new.name ++ " in place"
  | .emptySlot slot n code =>
    "kid: slot " ++ slot.repr ++ " of " ++ n.text ++ " (" ++ code.name ++ ") is empty"
  | .ownsKids n code =>
    "free_ir: " ++ n.text ++ " (" ++ code.name ++ ") still owns kids; use free_ir_tree"
  | .linkedIntoBlock n b =>
    "free_ir_tree: " ++ n.text ++ " is still linked into " ++ b.text ++ "; unlink it first"
  | .notStatement n code => "append_stmt: " ++ n.text ++ " (" ++ code.name ++ ") is not a statement"
  | .alreadyAttached n => "append_stmt: " ++ n.text ++ " is already attached; unlink it first"
  | .notBinary code => "build_binary: " ++ code.name ++ " is not a binary operator"
  | .notComparison code => "build_cmp: " ++ code.name ++ " is not a comparison"
  | .notUnary code => "build_unary_op: " ++ code.name ++ " is not a unary operator"
  | .noLinks op => op.name ++ ": region has no DU manager"
  | .edgeEnds stmt expr =>
    "add_du_edge: expected statement -> expression, got " ++ stmt.text ++ " -> " ++ expr.text
  | .notBothStatements new old =>
    "change_def: " ++ new.text ++ " and " ++ old.text ++ " must both be statements"
  | .notBothExpressions new old =>
    "change_use: " ++ new.text ++ " and " ++ old.text ++ " must both be expressions"
  | .notLoad n => "gen_md_for_load: " ++ n.text ++ " is not a load"
  | .notStore n => "gen_md_for_store: " ++ n.text ++ " is not a store"
  | .noVariable n code => "gen_md: " ++ n.text ++ " (" ++ code.name ++ ") names no variable"
  | .shapesDiffer target source =>
    "copy_ir_tree_du: " ++ target.text ++ " and " ++ source.text ++ " differ in shape"
  | .expiredNotStatement n => "remove_expired_du_for_stmt: " ++ n.text ++ " is not a statement"
  | .inEdgesOf n peer =>
    "free_ir_tree: " ++ n.text ++ " is still in the DU set of " ++ peer.text ++
      "; sever DU edges before releasing"
  | .stillUse n v =>
    "free_ir_tree: " ++ n.text ++ " is still a use of " ++ v.text ++ "; detach it before releasing"
  | .definesLiveUses n v =>
    "free_ir_tree: " ++ n.text ++ " defines " ++ v.text ++ " which still has live uses"
  | .notRegisterDef n code =>
    "new_ssa_info: " ++ n.text ++ " (" ++ code.name ++ ") does not define a register"
  | .notRegister n => "add_ssa_use: " ++ n.text ++ " is not a pr"
  | .droppedNotUnlinked n b =>
    "refine_stmt_list: " ++ n.text ++ " was dropped but is not unlinked from " ++ b.text

inductive Fault
  | violation (v : Violation)
  | misuse (m : Misuse)
  /-- A sum or product left its integer range. -/
  | overflow
  /-- A handle, slot or position names nothing. -/
  | outOfRange
  /-- A bounded recursion was cut off. -/
  | exhausted
  deriving DecidableEq, Repr

def Fault.message : Fault → String
  | .violation v => "refine: " ++ v.message
  | .misuse m => m.message
  | .overflow => "arithmetic overflow"
  | .outOfRange => "index out of range"
  | .exhausted => "recursion bound reached"

end Peephole
