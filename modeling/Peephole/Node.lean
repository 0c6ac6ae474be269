import Peephole.Value

/-!
# Nodes

A node is a statement or an expression. Its kids sit in slots; parent and
block are back-references that edits of the tree have to keep right.
-/

namespace Peephole

inductive Literal
  | int (v : Word)
  | float (v : Float)
  | str (s : String)
  deriving BEq

/-- The scalar fields of a node; an operation uses those that concern it. -/
structure Attrs where
  /-- The variable accessed or addressed, or the callee. -/
  var : Option VarId
  ofst : Int
  /-- The pseudo register read or written. -/
  reg : Nat
  value : Option Literal
  /-- The target of a branch, or the label itself. -/
  label : Option LabelId
  deriving BEq

namespace Attrs

def none : Attrs := ⟨.none, 0, 0, .none, .none⟩

instance : Inhabited Attrs := ⟨none⟩

def ofVar (v : VarId) (ofst : Int) : Attrs := { none with var := some v, ofst }

def ofOffset (ofst : Int) : Attrs := { none with ofst }

def ofRegister (reg : Nat) : Attrs := { none with reg }

def ofLiteral (v : Literal) : Attrs := { none with value := some v }

def ofLabel (l : LabelId) : Attrs := { none with label := some l }

end Attrs

structure Node where
  code : Op
  ty : Ty
  attrs : Attrs
  slots : List (List NodeId)
  /-- The node whose kid this is. -/
  parent : Option NodeId
  /-- The block that lists this statement. -/
  block : Option BlockId
  /-- The record of what is accessed and of the def-use edges. -/
  record : Option RecordId
  /-- The static single assignment value read or defined. -/
  ssa : Option SsaId

namespace Node

/-- An unattached node with the given kids. -/
def fresh (code : Op) (ty : Ty) (attrs : Attrs) (slots : List (List NodeId)) : Node :=
  ⟨code, ty, attrs, slots, none, none, none, none⟩

/-- All kids, slot by slot. -/
def kids (d : Node) : List NodeId := d.slots.flatten

def slot (d : Node) (i : Nat) : Except Fault (List NodeId) :=
  match d.slots[i]? with
  | some ks => .ok ks
  | none => .error .outOfRange

def setSlot (d : Node) (i : Nat) (ks : List NodeId) : Except Fault Node :=
  if i < d.slots.length then .ok { d with slots := d.slots.set i ks } else .error .outOfRange

def isStmt (d : Node) : Bool := d.code.isStmt

def isConst (d : Node) : Bool := d.code == .const

/-- The value of an integer literal of integer type. -/
def intLit? (d : Node) : Option Word :=
  match d.code, d.attrs.value with
  | .const, some (.int v) => if d.ty.isInt then some v else none
  | _, _ => none

/-- The value of a floating literal of floating type. -/
def floatLit? (d : Node) : Option Float :=
  match d.code, d.attrs.value with
  | .const, some (.float v) => if d.ty.isFloat then some v else none
  | _, _ => none

def isIntLit (d : Node) (v : Word) : Bool := d.intLit? == some v

def isStrConst (d : Node) : Bool := d.isConst && d.ty.isStr

def setLiteral (d : Node) (v : Literal) : Node :=
  { d with attrs := { d.attrs with value := some v } }

end Node

end Peephole
