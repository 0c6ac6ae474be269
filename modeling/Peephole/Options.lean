import Peephole.Document

/-!
# Options of refinement
-/

namespace Peephole

structure Options where
  /-- When off, blocks are left as they are. -/
  enabled : Bool
  /-- Evaluate operations on constants. -/
  foldConst : Bool
  /-- Balance operand types by conversions. -/
  insertCvt : Bool
  /-- Divide by powers of two with shifts. -/
  divByShift : Bool
  /-- Multiply by powers of two with shifts. -/
  mulByShift : Bool
  /-- Delete statements that store a location back into itself. -/
  dropSelfStores : Bool
  /-- Turn `(a != 0) ? 0 : 1` and `(a == 0) ? 1 : 0` into `!a`. -/
  selectToNot : Bool
  /-- Fold and simplify floating operations. -/
  optFloat : Bool
  /-- Merge the constants of nested operations. -/
  reassociate : Bool
  /-- The most sweeps over one statement list; zero stands for the default. -/
  maxSweeps : Nat
  deriving DecidableEq, Repr

namespace Options

def standard : Options where
  enabled := true
  foldConst := true
  insertCvt := true
  divByShift := false
  mulByShift := true
  dropSelfStores := true
  selectToNot := true
  optFloat := true
  reassociate := true
  maxSweeps := 64

/-- Every family of rules off. -/
def withoutRules : Options :=
  { standard with
    foldConst := false
    insertCvt := false
    divByShift := false
    mulByShift := false
    dropSelfStores := false
    selectToNot := false
    optFloat := false
    reassociate := false }

def sweepCap (o : Options) : Nat := if o.maxSweeps = 0 then 64 else o.maxSweeps

/-- A truth-valued option: how it is called in documents, read and set. -/
structure Flag where
  name : String
  get : Options → Bool
  set : Bool → Options → Options

def flags : List Flag :=
  [⟨"enabled", (·.enabled), fun b o => { o with enabled := b }⟩,
    ⟨"fold_const", (·.foldConst), fun b o => { o with foldConst := b }⟩,
    ⟨"insert_cvt", (·.insertCvt), fun b o => { o with insertCvt := b }⟩,
    ⟨"refine_div_by_pow2", (·.divByShift), fun b o => { o with divByShift := b }⟩,
    ⟨"refine_mul_by_pow2", (·.mulByShift), fun b o => { o with mulByShift := b }⟩,
    ⟨"refine_stmt", (·.dropSelfStores), fun b o => { o with dropSelfStores := b }⟩,
    ⟨"hoist_select_to_not", (·.selectToNot), fun b o => { o with selectToNot := b }⟩,
    ⟨"opt_float", (·.optFloat), fun b o => { o with optFloat := b }⟩,
    ⟨"reassociate", (·.reassociate), fun b o => { o with reassociate := b }⟩]

def sweepsName : String := "max_list_iterations"

def fieldNames : List String := flags.map (·.name) ++ [sweepsName]

def toDocument (o : Options) : Document :=
  .record (flags.map (fun f => (f.name, .bool (f.get o))) ++ [(sweepsName, .int o.maxSweeps)])

/-- Set an option by name. A name that is no option changes nothing; a value
of the wrong kind is refused. -/
def set? (o : Options) (name : String) (value : Document) : Option Options :=
  if name = sweepsName then (value.toNat? 64).map fun n => { o with maxSweeps := n }
  else match flags.find? (·.name == name), value with
  | some f, .bool b => some (f.set b o)
  | some _, _ => none
  | none, _ => some o

def setAll? (o : Options) (fields : List (String × Document)) : Option Options :=
  fields.foldlM (fun o (name, value) => o.set? name value) o

/-- Read options: named fields, or values in the order of the fields. What is
left out has its standard value. -/
def ofDocument? : Document → Option Options
  | .record fields => standard.setAll? fields
  | .list items =>
    if items.length ≤ fieldNames.length then standard.setAll? (fieldNames.zip items) else none
  | _ => none

end Options

end Peephole
