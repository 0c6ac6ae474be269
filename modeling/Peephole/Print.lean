import Peephole.Region
import Peephole.Text.Decimal
import Peephole.Text.Quoted

/-!
# Text of trees and blocks

A node takes one line, and its kids follow one level deeper. A header line
names each body and each list of cases, with the nodes one level below it.
-/

namespace Peephole

/-- Numbers from 0.0001 to below 10 ^ 16 are written without an exponent, and a
whole number keeps a zero behind the point. -/
def literalFormat : Text.NumberFormat where
  positionalFrom := -4
  positionalBelow := 16
  exponentMark := "e"
  wholeEnd := ".0"
  notANumber := "NaN"
  infinity := "inf"

def Literal.text : Literal → String
  | .int v => v.toInt.repr
  | .float v => literalFormat.text v
  | .str s => Text.quoted s

/-- What a literal node is called. -/
def Literal.kindName : Literal → String
  | .int _ => "intconst"
  | .float _ => "fpconst"
  | .str _ => "strconst"

namespace Region

/-- A node without its kids. -/
def nodeText (r : Region) (d : Node) : Except Fault String :=
  match d.code with
  | .const =>
    match d.attrs.value with
    | some v => .ok (v.kindName ++ ":" ++ d.ty.text ++ " " ++ v.text)
    | none => .ok ("const:" ++ d.ty.text ++ " ?")
  | .pr => .ok ("$" ++ d.attrs.reg.repr ++ ":" ++ d.ty.text)
  | .stpr | .phi => .ok (d.code.name ++ " $" ++ d.attrs.reg.repr ++ ":" ++ d.ty.text)
  | .goto | .label | .trueBr | .falseBr | .caseOf =>
    match d.attrs.label with
    | some l => .ok (d.code.name ++ " " ++ l.text)
    | none => .ok d.code.name
  | _ => do
    let ty := if d.ty.isVoid then "" else ":" ++ d.ty.text
    let var ← match d.attrs.var with
      | some v => do pure (" '" ++ (← r.var v).name ++ "'")
      | none => pure ""
    let ofst := if d.attrs.ofst = 0 then "" else " ofst:" ++ d.attrs.ofst.repr
    return d.code.name ++ ty ++ var ++ ofst

def indented (depth : Nat) (line : String) : String :=
  String.ofList (List.replicate (4 * depth) ' ') ++ line

/-- Whether a header line introduces a slot. -/
def hasHeader (code : Op) (i : Nat) : Bool := code.isBody i || code.slotName i == "cases"

/-- The lines of the tree at `n`, at most `fuel` deep. -/
def treeLines (r : Region) : Nat → (depth : Nat) → NodeId → Except Fault (List String)
  | 0, _, _ => .error .exhausted
  | fuel + 1, depth, n => do
    let d ← r.node n
    let line ← r.nodeText d
    let below ← (d.slots.zipIdx).mapM fun (ks, i) => do
      if hasHeader d.code i then
        let lines ← ks.mapM (r.treeLines fuel (depth + 2))
        return indented (depth + 1) (d.code.slotName i ++ ":") :: lines.flatten
      else
        let lines ← ks.mapM (r.treeLines fuel (depth + 1))
        return lines.flatten
    return indented depth line :: below.flatten

def listLines (r : Region) (depth : Nat) (ns : List NodeId) : Except Fault (List String) := do
  return (← ns.mapM (r.treeLines r.depthBound depth)).flatten

/-- A block under a header with its name. -/
def blockLines (r : Region) (b : BlockId) : Except Fault (List String) := do
  return (b.text ++ ":") :: (← r.listLines 1 (← r.stmts b))

def joinLines (lines : List String) : String := "\n".intercalate lines

def treeText (r : Region) (n : NodeId) : Except Fault String := do
  return joinLines (← r.listLines 0 [n])

def listText (r : Region) (ns : List NodeId) : Except Fault String := do
  return joinLines (← r.listLines 0 ns)

/-- All blocks in layout order. -/
def blocksText (r : Region) : Except Fault String := do
  return joinLines (← r.order.mapM r.blockLines).flatten

end Region

end Peephole
