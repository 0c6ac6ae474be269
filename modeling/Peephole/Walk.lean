import Peephole.Region

/-!
# Walks

A walk visits nodes in pre-order; what is done at a node depends on its
operation.
-/

namespace Peephole

/-- What a walk does after visiting a node. -/
inductive Visit
  | descend
  | skipKids
  | stop
  deriving DecidableEq, Repr

/-- The visited nodes in order, and the node where the walk was stopped. -/
structure Walk where
  seen : List NodeId
  stopped : Option NodeId
  deriving DecidableEq, Repr

namespace Walk

def empty : Walk := ⟨[], none⟩

/-- Walk one list item after another, until a walk is stopped. -/
def inOrder {α : Type} (walk : α → Except Fault Walk) : List α → Except Fault Walk
  | [] => .ok empty
  | x :: xs => do
    let w ← walk x
    if w.stopped.isSome then return w
    let rest ← inOrder walk xs
    return ⟨w.seen ++ rest.seen, rest.stopped⟩

end Walk

namespace Region

def walkWithin (r : Region) (visit : Op → Visit) : Nat → NodeId → Except Fault Walk
  | 0, _ => .error .exhausted
  | fuel + 1, n => do
    let d ← r.node n
    match visit d.code with
    | .stop => return ⟨[n], some n⟩
    | .skipKids => return ⟨[n], none⟩
    | .descend => do
      let w ← Walk.inOrder (r.walkWithin visit fuel) d.kids
      return { w with seen := n :: w.seen }

/-- Walk the tree at `n`. -/
def walk (r : Region) (visit : Op → Visit) (n : NodeId) : Except Fault Walk :=
  r.walkWithin visit r.depthBound n

def walkList (r : Region) (visit : Op → Visit) (ns : List NodeId) : Except Fault Walk :=
  Walk.inOrder (r.walk visit) ns

def walkBlock (r : Region) (visit : Op → Visit) (b : BlockId) : Except Fault Walk := do
  r.walkList visit (← r.stmts b)

/-- Walk the blocks in layout order. -/
def walkBlocks (r : Region) (visit : Op → Visit) : Except Fault Walk :=
  Walk.inOrder (r.walkBlock visit) r.order

/-- The nodes reachable from the blocks. -/
def reachable (r : Region) : Except Fault (List NodeId) := do
  return (← r.walkBlocks fun _ => .descend).seen

end Region

end Peephole
