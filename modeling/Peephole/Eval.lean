import Peephole.Tree

/-!
# Evaluation

The value of an expression where registers and locations have values. There is
none for a zero divisor, a shift amount out of range, a register or location
without a value, and for addresses and calls. Every node's value lies in the
range of its type.
-/

namespace Peephole

/-- The values of registers, and of variables at offsets. -/
structure Env where
  reg : Nat → Option Value
  var : VarId → Int → Option Value

namespace Env

def empty : Env := ⟨fun _ => none, fun _ _ => none⟩

def setReg (e : Env) (reg : Nat) (v : Value) : Env :=
  { e with reg := fun q => if q = reg then some v else e.reg q }

def setVar (e : Env) (var : VarId) (ofst : Int) (v : Value) : Env :=
  { e with var := fun x o => if x = var ∧ o = ofst then some v else e.var x o }

end Env

namespace Region

/-- The value of a leaf. -/
def leafValue (env : Env) (d : Node) : Option Value :=
  match d.code with
  | .const =>
    match d.attrs.value with
    | some (.int v) => some (.int v)
    | some (.float v) => some (.float v)
    | _ => none
  | .ld | .id => d.attrs.var.bind fun v => env.var v d.attrs.ofst
  | .pr => env.reg d.attrs.reg
  | _ => none

/-- The value behind an indirect load, which has to go through an address. -/
def indirectValue (env : Env) (d base : Node) : Except Fault (Option Value) :=
  match base.code, base.attrs.var with
  | .lda, some v => do return env.var v (← addOffsets base.attrs.ofst d.attrs.ofst)
  | _, _ => .ok none

/-- Integers turn into floats by the signedness of their own type. -/
def convertValue (l : Layout) (target source : Ty) (v : Value) : Except Fault Value :=
  match v with
  | .int i =>
    if target.isFloat && source.isUnsigned then do
      return .float (i.zeroExtended (← source.bitWidth l)).toFloatUnsigned
    else .ok v
  | .float _ => .ok v

def unaryValue (code : Op) : Value → Option Value
  | .int v => (intUnary code v).map .int
  | .float v => floatUnary code v

def binaryValue (l : Layout) (code : Op) (t0 t1 : Ty) : Value → Value → Except Fault (Option Value)
  | .int a, .int b => do
    let b0 ← t0.bitWidth l
    let b1 ← t1.bitWidth l
    return (intBinary code a b (t0.isUnsigned || t1.isUnsigned) (max b0 b1)).map .int
  | .float a, .float b => .ok (floatBinary code a b)
  | _, _ => .ok none

/-- The value of the node `d` called `n` before it is brought into its type,
where `value` evaluates kids. -/
def rawValue (r : Region) (env : Env) (value : NodeId → Except Fault (Option Value))
    (n : NodeId) (d : Node) : Except Fault (Option Value) :=
  match d.code with
  | .ild => do
    let base ← r.node (← r.kid n 0)
    indirectValue env d base
  | .cvt => do
    let k ← r.kid n 0
    match ← value k with
    | some v => do return some (← convertValue r.layout d.ty (← r.node k).ty v)
    | none => return none
  | .select => do
    match ← value (← r.kid n 0) with
    | some p => do value (← r.kid n (if p.isTrue then 1 else 2))
    | none => return none
  | code =>
    if code.isUnary then do
      return (← value (← r.kid n 0)).bind (unaryValue code)
    else if code.isBinary then do
      let k0 ← r.kid n 0
      let k1 ← r.kid n 1
      match ← value k0 with
      | none => return none
      | some a =>
        match ← value k1 with
        | none => return none
        | some b => do binaryValue r.layout code (← r.node k0).ty (← r.node k1).ty a b
    else .ok (leafValue env d)

def evalWithin (r : Region) (env : Env) : Nat → NodeId → Except Fault (Option Value)
  | 0, _ => .error .exhausted
  | fuel + 1, n => do
    let d ← r.node n
    let raw ← r.rawValue env (r.evalWithin env fuel) n d
    raw.mapM (·.normalize r.layout d.ty)

/-- The value of the expression at `n`. -/
def eval (r : Region) (env : Env) (n : NodeId) : Except Fault (Option Value) :=
  r.evalWithin env r.depthBound n

end Region

end Peephole
