import Peephole.Tree

/-!
# Static single assignment values

A value has a defining phi or register store and a set of register reads. A
read carries the value, and the value lists the read.
-/

namespace Peephole

namespace Edit

def ssaValue (v : SsaId) : Edit SsaValue := ask (·.ssaValue v)

def putSsa (v : SsaId) (d : SsaValue) : Edit Unit :=
  modify fun r => { r with ssa := r.ssa.setIfInBounds v.index d }

def modifySsa (v : SsaId) (f : SsaValue → SsaValue) : Edit Unit := do
  let d ← ssaValue v
  putSsa v (f d)

def setSsa (n : NodeId) (v : Option SsaId) : Edit Unit := modifyNode n fun d => { d with ssa := v }

/-- A new value defined by a phi or a register store. -/
def newSsaValue (defn : NodeId) : Edit SsaId := do
  let d ← node defn
  if d.code ≠ .phi && d.code ≠ .stpr then throw (.misuse (.notRegisterDef defn d.code))
  let v ← modifyGet fun r => (⟨r.ssa.size⟩, { r with ssa := r.ssa.push ⟨some defn, .empty⟩ })
  setSsa defn (some v)
  return v

def addSsaUse (v : SsaId) (use : NodeId) : Edit Unit := do
  let d ← node use
  if d.code ≠ .pr then throw (.misuse (.notRegister use))
  setSsa use (some v)
  modifySsa v fun d => { d with uses := d.uses.insert use }

/-- Let a read forget its value, and the value the read. -/
def removeSsaUse (use : NodeId) : Edit Unit := do
  let d ← ask (·.nodeToEdit use)
  match d.ssa with
  | some v => do
    putNode use { d with ssa := none }
    modifySsa v fun d => { d with uses := d.uses.erase use }
  | none => return

/-- `removeSsaUse` for every register read at or below `n`. -/
def removeSsaUsesIn (n : NodeId) : Edit Unit := do
  (← subtree n).forM fun x => do
    if (← node x).code = .pr then removeSsaUse x

/-- Let a value forget all its reads. -/
def clearSsaUses (v : SsaId) : Edit Unit := do
  let d ← ssaValue v
  putSsa v { d with uses := .empty }
  d.uses.toList.forM fun u => do
    if !(← isReleased u) then
      if (← node u).ssa = some v then setSsa u none

/-- Cut a node that is about to be released out of the value it carries. -/
def forgetSsa (n : NodeId) : Edit Unit := do
  match (← node n).ssa with
  | some v =>
    modifySsa v fun d =>
      { defn := if d.defn = some n then none else d.defn, uses := d.uses.erase n }
  | none => return

end Edit

/-- The statement that defines the value `d` carries. -/
def Region.ssaDefOf (r : Region) (d : Node) : Except Fault (Option NodeId) :=
  match d.ssa with
  | some v => do return (← r.ssaValue v).defn
  | none => .ok none

end Peephole
