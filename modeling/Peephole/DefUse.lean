import Peephole.Tree

/-!
# Def-use edges

An edge joins a statement that defines a location with an expression that
reads it; each end lists the other. Access records may say what a node
accesses in any region, but edges exist only while the region counts them.
-/

namespace Peephole

namespace Region

/-- The access record of a node. -/
def access? (r : Region) (d : Node) : Except Fault (Option Access) :=
  match d.record with
  | some i => do return some (← lookup r.records i)
  | none => .ok none

/-- The record of a node; a clean one where there is none. -/
def access (r : Region) (n : NodeId) : Except Fault Access := do
  let d ← r.node n
  return (← r.access? d).getD .clean

def peers (r : Region) (n : NodeId) : Except Fault (HandleSet .node) := do
  return (← r.access n).peers

/-- The accessed location, if it is exact. -/
def exactRef? (r : Region) (n : NodeId) : Except Fault (Option LocationId) := do
  match (← r.access n).must with
  | some m => do return if (← r.location m).exact then some m else none
  | none => return none

/-- Every location a node may touch. -/
def touched (r : Region) (n : NodeId) : Except Fault (List LocationId) := do
  let a ← r.access n
  match a.may with
  | some s => do return a.must.toList ++ (← r.locationSet s).toList
  | none => return a.must.toList

def locationsOverlap (r : Region) (a b : LocationId) : Except Fault Bool :=
  if a = b then .ok true
  else do
    let x ← r.location a
    let y ← r.location b
    x.overlaps y

/-- Whether an edge is justified: one end touches nothing that is known, or
something that one end touches overlaps something the other touches. -/
def edgeJustified (r : Region) (stmt expr : NodeId) : Except Fault Bool := do
  let defined ← r.touched stmt
  let read ← r.touched expr
  if defined.isEmpty || read.isEmpty then return true
  defined.anyM fun x => read.anyM fun y => r.locationsOverlap x y

end Region

namespace Edit

/-- Start to maintain def-use edges. -/
def enableEdges : Edit Unit :=
  modify fun r => { r with edgeCounts := some (r.edgeCounts.getD ⟨0, 0, 0, 0⟩) }

/-- Count edges, in a region that maintains them. -/
def count (op : LinkOp) (f : EdgeCounts → EdgeCounts) : Edit Unit := do
  match (← get).edgeCounts with
  | some c => modify fun r => { r with edgeCounts := some (f c) }
  | none => throw (.misuse (.noLinks op))

/-! ### Records -/

def setRecord (n : NodeId) (i : Option RecordId) : Edit Unit :=
  modifyNode n fun d => { d with record := i }

/-- Change the record of a node, which is made at the first change. -/
def modifyAccess (n : NodeId) (f : Access → Access) : Edit Unit := do
  let d ← node n
  match d.record with
  | some i => do
    let a ← ask fun r => Region.lookup r.records i
    modify fun r => { r with records := r.records.setIfInBounds i.index (f a) }
  | none => do
    let i ← modifyGet fun r => (⟨r.records.size⟩, { r with records := r.records.push (f .clean) })
    putNode n { d with record := some i }

/-- Change the record of a node that has one. -/
def modifyOwnAccess (n : NodeId) (f : Access → Access) : Edit Unit := do
  if (← node n).record.isSome then modifyAccess n f

def setMust (n : NodeId) (m : Option LocationId) : Edit Unit :=
  modifyAccess n fun a => { a with must := m }

def setMay (n : NodeId) (s : Option LocationSetId) : Edit Unit :=
  modifyAccess n fun a => { a with may := s }

def clearMay (n : NodeId) : Edit Unit := modifyOwnAccess n fun a => { a with may := none }

/-- Let `target` access what `source` accesses. -/
def copyAccess (target source : NodeId) : Edit Unit := do
  let a ← ask (·.access source)
  if a.must.isNone && a.may.isNone && (← node target).record.isNone then return
  modifyAccess target fun b => { b with must := a.must, may := a.may }

/-! ### Locations -/

/-- The handle of a location, which is put on record at its first use. -/
def register (l : Location) : Edit LocationId := do
  match (← get).locations.idxOf? l with
  | some i => return ⟨i⟩
  | none =>
    modifyGet fun r => (⟨r.locations.size⟩, { r with locations := r.locations.push l })

def registerSet (s : HandleSet .location) : Edit LocationSetId := do
  match (← get).locationSets.idxOf? s with
  | some i => return ⟨i⟩
  | none =>
    modifyGet fun r => (⟨r.locationSets.size⟩, { r with locationSets := r.locationSets.push s })

def addVariable (v : Variable) : Edit VarId :=
  modifyGet fun r => (⟨r.vars.size⟩, { r with vars := r.vars.push v })

/-- The variable that stands for a pseudo register, made at the first use. -/
def registerVariable (reg : Nat) (ty : Ty) : Edit VarId := do
  match (← get).registers.lookup reg with
  | some v => return v
  | none => do
    let v ← addVariable ⟨"$" ++ reg.repr, ty, false, false, true⟩
    modify fun r => { r with registers := (reg, v) :: r.registers }
    return v

/-- The location of a node that names a variable and an offset. -/
def locateVariable (n : NodeId) (d : Node) : Edit LocationId := do
  match d.attrs.var with
  | some v => do register (.bytes v d.attrs.ofst ((← get).byteSize d))
  | none => throw (.misuse (.noVariable n d.code))

def locateLoad (n : NodeId) : Edit LocationId := do
  let d ← node n
  if d.code ≠ .ld then throw (.misuse (.notLoad n))
  locateVariable n d

def locateStore (n : NodeId) : Edit LocationId := do
  let d ← node n
  if d.code ≠ .st then throw (.misuse (.notStore n))
  locateVariable n d

/-- The location of the pseudo register that `n` reads or writes. -/
def locateRegister (n : NodeId) : Edit LocationId := do
  let d ← node n
  let v ← registerVariable d.attrs.reg d.ty
  register (.bytes v 0 ((← get).byteSize d))

/-! ### Edges -/

def addPeer (n peer : NodeId) : Edit Unit :=
  modifyAccess n fun a => { a with peers := a.peers.insert peer }

/-- Let the definition `stmt` reach the read `expr`. -/
def addEdge (stmt expr : NodeId) : Edit Unit := do
  unless ← isStmt stmt <&&> isExpr expr do throw (.misuse (.edgeEnds stmt expr))
  count .addEdge fun c => { c with added := c.added + 1 }
  addPeer stmt expr
  addPeer expr stmt

/-- Let `n`, unless it is released, forget `peer`. -/
def forgetPeer (n peer : NodeId) : Edit Unit := do
  if !(← isReleased n) then
    modifyOwnAccess n fun a => { a with peers := a.peers.erase peer }

/-- Let both ends of an edge forget each other. -/
def unlinkEdge (a b : NodeId) : Edit Unit := do
  forgetPeer a b
  forgetPeer b a

def removeEdge (stmt expr : NodeId) : Edit Unit := do
  count .removeEdge fun c => { c with removed := c.removed + 1 }
  unlinkEdge stmt expr

/-- Empty the edge set of a node and return what was in it. -/
def takePeers (n : NodeId) : Edit (List NodeId) := do
  let ps ← ask (·.peers n)
  modifyOwnAccess n fun a => { a with peers := .empty }
  return ps.toList

/-- Give every edge of `old` to `new`. -/
def moveEdges (op : LinkOp) (new old : NodeId) : Edit Unit := do
  let ps ← takePeers old
  count op fun c => { c with moved := c.moved + ps.length }
  ps.forM fun p => do
    modifyAccess p fun a => { a with peers := (a.peers.erase old).insert new }
    addPeer new p

/-- The statement `new` takes over every read that `old` reaches. -/
def changeDef (new old : NodeId) : Edit Unit := do
  unless ← isStmt new <&&> isStmt old do throw (.misuse (.notBothStatements new old))
  moveEdges .changeDef new old

/-- The expression `new` takes over every definition that reaches `old`. -/
def changeUse (new old : NodeId) : Edit Unit := do
  unless ← isExpr new <&&> isExpr old do throw (.misuse (.notBothExpressions new old))
  moveEdges .changeUse new old

/-- Give `target` the edges of `source` as well. -/
def copyEdges (target source : NodeId) : Edit Unit := do
  let ps ← ask (·.peers source)
  count .copyEdges fun c => { c with added := c.added + ps.size }
  ps.toList.forM fun p => do
    addPeer p target
    addPeer target p

/-- Copy accesses and edges node by node between trees of one shape. -/
def copyTreeAccess (target source : NodeId) : Edit Unit := do
  let targets ← subtree target
  let sources ← subtree source
  if targets.length ≠ sources.length then throw (.misuse (.shapesDiffer target source))
  (targets.zip sources).forM fun (t, s) => do
    if (← node s).record.isSome then
      copyAccess t s
      copyEdges t s

/-- Remove all edges of one node. -/
def cutNode (op : LinkOp) (n : NodeId) : Edit Unit := do
  let ps ← takePeers n
  count op fun c => { c with removed := c.removed + ps.length }
  ps.forM (unlinkEdge · n)

/-- Remove the edges of every expression at or below `n`. -/
def cutUses (n : NodeId) : Edit Unit := do
  (← subtree n).forM fun x => do
    if ← isExpr x then cutNode .cutUses x

/-- Remove the edges of every node at or below `n`. -/
def cutAll (n : NodeId) : Edit Unit := do
  (← subtree n).forM (cutNode .cutAll)

/-- Drop the edge between `n` and `p` if it is not justified, or if `p` is
released; whether it was dropped. -/
def dropIfExpired (n p : NodeId) : Edit Bool := do
  if ← isReleased p then
    unlinkEdge n p
    return true
  let (stmt, expr) := if ← isStmt n then (n, p) else (p, n)
  if ← ask (·.edgeJustified stmt expr) then return false
  report (.expiredEdge stmt expr)
  unlinkEdge stmt expr
  count .dropExpired fun c => { c with expired := c.expired + 1 }
  return true

/-- Drop every edge of the given nodes that has expired; whether there was one. -/
def dropExpiredOf (ns : List NodeId) : Edit Bool :=
  ns |> someOf fun n => do
    let ps ← ask (·.peers n)
    someOf (dropIfExpired n) ps.toList

/-- `dropExpiredOf` the nodes at and below `n`. -/
def dropExpired (n : NodeId) : Edit Bool := do dropExpiredOf (← subtree n)

/-- `dropExpiredOf` a statement, for its own definitions only. -/
def dropExpiredDefs (n : NodeId) : Edit Bool := do
  unless ← isStmt n do throw (.misuse (.expiredNotStatement n))
  dropExpiredOf [n]

end Edit

end Peephole
