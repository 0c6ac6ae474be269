import Peephole.Node
import Peephole.Location
import Peephole.Event

/-!
# Regions

A region owns all nodes, blocks, variables, locations, access records and
static single assignment values of one piece of code. Releasing a node empties
its place for good, so its handle never comes to mean another node.
-/

namespace Peephole

/-- What a node accesses, and the nodes at the other end of its def-use edges:
for a statement the expressions that read what it defines, for an expression
the statements that define what it reads. -/
structure Access where
  /-- The one location that is accessed. -/
  must : Option LocationId
  /-- Locations that might be accessed. -/
  may : Option LocationSetId
  peers : HandleSet .node
  deriving DecidableEq

namespace Access

def clean : Access := ⟨none, none, .empty⟩

instance : Inhabited Access := ⟨clean⟩

/-- A clean record says as much as no record. -/
def isClean (a : Access) : Bool := a.must.isNone && a.may.isNone && a.peers.isEmpty

end Access

/-- A value of static single assignment form: the statement that defines it
and the register reads that denote it. -/
structure SsaValue where
  defn : Option NodeId
  uses : HandleSet .node
  deriving DecidableEq

/-- How many def-use edges were added, moved, removed, and dropped as expired. -/
structure EdgeCounts where
  added : Nat
  moved : Nat
  removed : Nat
  expired : Nat
  deriving DecidableEq, Repr

structure Region where
  layout : Layout
  /-- Every node ever made; `none` stands where a node was released. -/
  nodes : Array (Option Node)
  /-- The statements of every block. -/
  blocks : Array (List NodeId)
  /-- The blocks in layout order. -/
  order : List BlockId
  nextLabel : Nat
  /-- The types in the order of their first use. -/
  types : Array Ty
  vars : Array Variable
  /-- The variables that stand for pseudo registers. -/
  registers : List (Nat × VarId)
  locations : Array Location
  locationSets : Array (HandleSet .location)
  records : Array Access
  ssa : Array SsaValue
  /-- Present while def-use chains are maintained. -/
  edgeCounts : Option EdgeCounts
  /-- What happened, oldest first. -/
  events : Array Event

namespace Region

def empty (layout : Layout) : Region where
  layout := layout
  nodes := #[]
  blocks := #[]
  order := []
  nextLabel := 0
  types := #[]
  vars := #[]
  registers := []
  locations := #[]
  locationSets := #[]
  records := #[]
  ssa := #[]
  edgeCounts := none
  events := #[]

/-- Look an entity up by its handle. -/
def lookup {α : Type} {k : Kind} (xs : Array α) (h : Handle k) : Except Fault α :=
  match xs[h.index]? with
  | some x => .ok x
  | none => .error .outOfRange

def isReleased (r : Region) (n : NodeId) : Bool :=
  match r.nodes[n.index]? with
  | some none => true
  | _ => false

def node (r : Region) (n : NodeId) : Except Fault Node :=
  match r.nodes[n.index]? with
  | some (some d) => .ok d
  | some none => .error (.misuse (.readReleased n))
  | none => .error .outOfRange

/-- Like `node`, for a node about to be changed. -/
def nodeToEdit (r : Region) (n : NodeId) : Except Fault Node :=
  match r.nodes[n.index]? with
  | some (some d) => .ok d
  | some none => .error (.misuse (.editReleased n))
  | none => .error .outOfRange

def stmts (r : Region) (b : BlockId) : Except Fault (List NodeId) := lookup r.blocks b

def var (r : Region) (v : VarId) : Except Fault Variable := lookup r.vars v

def location (r : Region) (m : LocationId) : Except Fault Location := lookup r.locations m

def locationSet (r : Region) (s : LocationSetId) : Except Fault (HandleSet .location) :=
  lookup r.locationSets s

def ssaValue (r : Region) (v : SsaId) : Except Fault SsaValue := lookup r.ssa v

def hasEdges (r : Region) : Bool := r.edgeCounts.isSome

/-- A kid path in a tree visits no node twice, so this bounds its length. -/
def depthBound (r : Region) : Nat := r.nodes.size + 1

/-- The one node in slot `i`. -/
def kid (r : Region) (n : NodeId) (i : Nat) : Except Fault NodeId := do
  let d ← r.node n
  match ← d.slot i with
  | k :: _ => return k
  | [] => throw (.misuse (.emptySlot i n d.code))

def kid? (r : Region) (n : NodeId) (i : Nat) : Except Fault (Option NodeId) := do
  let d ← r.node n
  let ks ← d.slot i
  return ks.head?

def kids (r : Region) (n : NodeId) (i : Nat) : Except Fault (List NodeId) := do
  let d ← r.node n
  d.slot i

/-- An address of a string literal. -/
def isStringAddress (r : Region) (d : Node) : Except Fault Bool :=
  match d.code, d.attrs.var with
  | .lda, some v => do return (← r.var v).isString
  | _, _ => .ok false

def byteSize (r : Region) (d : Node) : Nat := d.ty.byteSize r.layout

end Region

end Peephole
