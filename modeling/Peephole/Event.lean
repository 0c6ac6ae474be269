import Peephole.Fault

/-!
# Events

What an operation reports about its work beside its result.
-/

namespace Peephole

/-- The rules of refinement. -/
inductive Rule
  | commute
  | reassociate
  | addZero
  | subSelf
  | mulFloatTwo
  | mulIntTwo
  | mulOne
  | mulZero
  | mulPowerOfTwo
  | divFloatConst
  | divPowerOfTwo
  | divSelf
  | remOne
  | bandAllOnes
  | borZero
  | xorSelf
  | landOne
  | lorOne
  | eqSelf
  | neSelf
  | lnotOfRelation
  | doubleNeg
  | nestedCvt
  | identityCvt
  | foldCvtInt
  | foldCvtFloat
  | selectConstPred
  | selectToNot
  | foldIntBinary
  | foldIntUnary
  | foldFloat
  | unsignedVsZero
  | stringAddressVsNull
  | shiftZero
  | shiftOutAllBits
  | restampLiteral
  | insertCvt
  | balanceOperands
  | ildOfLda
  | istOfLda
  | selfRegisterCopy
  | selfCopy
  | selfCopyElement
  | uniformPhi
  | decidedByPhis
  | falseBrOfNe
  deriving DecidableEq, Repr

def Rule.name : Rule → String
  | .commute => "commute"
  | .reassociate => "reassociate"
  | .addZero => "add_zero"
  | .subSelf => "sub_self"
  | .mulFloatTwo => "mul_fp_two"
  | .mulIntTwo => "mul_int_two"
  | .mulOne => "mul_one"
  | .mulZero => "mul_zero"
  | .mulPowerOfTwo => "mul_pow2"
  | .divFloatConst => "div_fp_const"
  | .divPowerOfTwo => "div_pow2"
  | .divSelf => "div_self"
  | .remOne => "rem_one"
  | .bandAllOnes => "band_all_ones"
  | .borZero => "bor_zero"
  | .xorSelf => "xor_self"
  | .landOne => "land_one"
  | .lorOne => "lor_one"
  | .eqSelf => "eq_self"
  | .neSelf => "ne_self"
  | .lnotOfRelation => "lnot_of_relation"
  | .doubleNeg => "double_neg"
  | .nestedCvt => "nested_cvt"
  | .identityCvt => "identity_cvt"
  | .foldCvtInt => "fold_cvt_int"
  | .foldCvtFloat => "fold_cvt_fp"
  | .selectConstPred => "select_const_pred"
  | .selectToNot => "hoist_select_to_not"
  | .foldIntBinary => "fold_int_binary"
  | .foldIntUnary => "fold_int_unary"
  | .foldFloat => "fold_fp"
  | .unsignedVsZero => "unsigned_vs_zero"
  | .stringAddressVsNull => "string_addr_vs_null"
  | .shiftZero => "shift_zero"
  | .shiftOutAllBits => "shift_out_all_bits"
  | .restampLiteral => "restamp_literal"
  | .insertCvt => "insert_cvt"
  | .balanceOperands => "balance_operands"
  | .ildOfLda => "ild_of_lda"
  | .istOfLda => "ist_of_lda"
  | .selfRegisterCopy => "self_register_copy"
  | .selfCopy => "self_copy"
  | .selfCopyElement => "self_copy_element"
  | .uniformPhi => "uniform_phi"
  | .decidedByPhis => "det_via_phi"
  | .falseBrOfNe => "falsebr_of_ne"

inductive Event
  /-- A rule fired at a node. -/
  | ruleFired (rule : Rule) (n : NodeId)
  /-- A def-use edge whose ends share no location was dropped. -/
  | expiredEdge (stmt expr : NodeId)
  | blockRefined (b : BlockId) (sweeps : Nat) (changed : Bool)
  | regionRefined (changed : Bool) (sweeps : Nat)
  /-- A block was still changing at its last permitted sweep. -/
  | blockCapReached (b : BlockId) (sweeps : Nat)
  /-- A statement list was still changing at its last permitted sweep. -/
  | listCapReached (sweeps : Nat)
  /-- An invariant did not hold, and the rule that saw it was passed over. -/
  | skipped (v : Violation)
  deriving DecidableEq, Repr

namespace Event

def truthText (b : Bool) : String := if b then "true" else "false"

def text : Event → String
  | .ruleFired rule n => "TRACE rewrite rule=" ++ rule.name ++ " node=" ++ n.text
  | .expiredEdge stmt expr =>
    "TRACE dropping expired DU edge def=" ++ stmt.text ++ " use_=" ++ expr.text
  | .blockRefined b sweeps changed =>
    "DEBUG refined block bb=" ++ b.text ++ " sweeps=" ++ sweeps.repr ++
      " changed=" ++ truthText changed
  | .regionRefined changed sweeps =>
    "DEBUG refinement finished changed=" ++ truthText changed ++ " sweeps=" ++ sweeps.repr
  | .blockCapReached b sweeps =>
    "WARN refine_stmt_list: sweep cap reached before fixpoint bb=" ++ b.text ++
      " sweeps=" ++ sweeps.repr
  | .listCapReached sweeps =>
    "WARN refine_ir_list: sweep cap reached before fixpoint sweeps=" ++ sweeps.repr
  | .skipped v => "ERROR refine: invariant failed, rule skipped err=" ++ v.message

end Event

end Peephole
