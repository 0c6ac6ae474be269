import Peephole.Region

/-!
# Edits of a region

An `Edit` is a computation that changes a region and may stop with a fault.
This module holds the edits of single nodes and of the links between a node
and its kids.
-/

namespace Peephole

abbrev Edit := StateT Region (Except Fault)

namespace Edit

/-- Answer a question about the region. -/
def ask {α : Type} (question : Region → Except Fault α) : Edit α := do question (← get)

/-- Whether some computation says yes, all of them being run. -/
def someOf {α : Type} (f : α → Edit Bool) (xs : List α) : Edit Bool := do
  return (← xs.mapM f).any id

def node (n : NodeId) : Edit Node := ask (·.node n)

def kid (n : NodeId) (i : Nat) : Edit NodeId := ask (·.kid n i)

def kids (n : NodeId) (i : Nat) : Edit (List NodeId) := ask (·.kids n i)

def isStmt (n : NodeId) : Edit Bool := do return (← node n).isStmt

def isExpr (n : NodeId) : Edit Bool := do return !(← node n).isStmt

def layout : Edit Layout := do return (← get).layout

def isReleased (n : NodeId) : Edit Bool := do return (← get).isReleased n

def hasEdges : Edit Bool := do return (← get).hasEdges

def report (e : Event) : Edit Unit := modify fun r => { r with events := r.events.push e }

/-- Note that a rule fired at `n`. -/
def fired (rule : Rule) (n : NodeId) : Edit Unit := report (.ruleFired rule n)

/-- Put a type on record at its first use. -/
def intern (t : Ty) : Edit Ty := do
  modify fun r => if r.types.contains t then r else { r with types := r.types.push t }
  return t

def putNode (n : NodeId) (d : Node) : Edit Unit :=
  modify fun r => { r with nodes := r.nodes.setIfInBounds n.index (some d) }

def modifyNode (n : NodeId) (f : Node → Node) : Edit Unit := do
  let d ← ask (·.nodeToEdit n)
  putNode n (f d)

def setParent (n : NodeId) (parent : Option NodeId) : Edit Unit :=
  modifyNode n fun d => { d with parent }

def setTy (n : NodeId) (ty : Ty) : Edit Unit := modifyNode n fun d => { d with ty }

def setAttrs (n : NodeId) (attrs : Attrs) : Edit Unit := modifyNode n fun d => { d with attrs }

/-- Change the operation in place; the slots have to stay as many. -/
def setCode (n : NodeId) (code : Op) : Edit Unit := do
  let d ← ask (·.nodeToEdit n)
  if d.code.numSlots ≠ code.numSlots then throw (.misuse (.slotsDiffer d.code code))
  putNode n { d with code }

/-- Make a node and link its kids to it. -/
def create (d : Node) : Edit NodeId := do
  if d.parent.isSome || d.block.isSome then throw (.misuse .freshAttached)
  let n ← modifyGet fun r => (⟨r.nodes.size⟩, { r with nodes := r.nodes.push (some d) })
  d.kids.forM (setParent · (some n))
  return n

/-- Put at most one node into slot `i` of `n`. -/
def setKid (n : NodeId) (i : Nat) (k : Option NodeId) : Edit Unit := do
  let d ← ask (·.nodeToEdit n)
  putNode n (← d.setSlot i k.toList)
  k.forM (setParent · (some n))

/-- Put a list of nodes into slot `i` of `n`. -/
def setKids (n : NodeId) (i : Nat) (ks : List NodeId) : Edit Unit := do
  ks.forM (setParent · (some n))
  let d ← ask (·.nodeToEdit n)
  putNode n (← d.setSlot i ks)

/-- Empty slot `i` of `n`; its nodes lose their parent. -/
def takeKids (n : NodeId) (i : Nat) : Edit (List NodeId) := do
  let d ← ask (·.nodeToEdit n)
  let ks ← d.slot i
  putNode n (← d.setSlot i [])
  ks.forM (setParent · none)
  return ks

def takeKid (n : NodeId) (i : Nat) : Edit (Option NodeId) := do
  return (← takeKids n i).head?

/-- Put `new` wherever `old` is a kid of `parent`; whether it was one. -/
def replaceKid (parent old new : NodeId) : Edit Bool := do
  let d ← ask (·.nodeToEdit parent)
  if d.kids.contains old then
    putNode parent { d with slots := d.slots.map (·.map fun k => if k = old then new else k) }
    setParent new (some parent)
    return true
  else
    return false

/-- The two operands of a binary node. -/
def operands (n : NodeId) : Edit (NodeId × NodeId) := do
  let a ← kid n 0
  let b ← kid n 1
  return (a, b)

end Edit

end Peephole
