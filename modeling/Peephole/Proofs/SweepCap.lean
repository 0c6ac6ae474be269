import Peephole.Refine.Statement

/-!
# The cap on sweeps

The number of sweeps that a setting permits is read by sweeps over statement lists only: under
another cap, expressions, conditions and single statements are refined in the same way.
-/

namespace Peephole

open Edit

/-- The same setting with another cap. -/
def Setting.sweeping (s : Setting) (cap : Nat) : Setting := { s with maxSweeps := cap }

variable {s : Setting} {cap fuel : Nat} {pass : Pass} {n : NodeId}

theorem sweepCap_sweeping (positive : 0 < cap) : (s.sweeping cap).sweepCap = cap :=
  if_neg (Nat.ne_of_gt positive)

/-! ### Expressions -/

theorem foldWithin_sweeping : foldWithin (s.sweeping cap) fuel = foldWithin s fuel := by
  have node : foldNode (s.sweeping cap) = foldNode s := rfl
  induction fuel with
  | zero => rfl
  | succ fuel ih =>
    funext n
    rw [foldWithin, foldWithin, ih, node]

theorem foldTree_sweeping : foldTree (s.sweeping cap) = foldTree s := by
  funext n
  simp only [foldTree, foldWithin_sweeping]

theorem foldIfAsked_sweeping : foldIfAsked (s.sweeping cap) = foldIfAsked s := by
  funext n
  simp only [foldIfAsked, foldTree_sweeping]
  rfl

theorem foldStep_sweeping : foldStep (s.sweeping cap) = foldStep s := by
  funext n
  simp only [foldStep, foldTree_sweeping]
  rfl

theorem settleStep_sweeping {folds : Bool} :
    settleStep (s.sweeping cap) pass folds = settleStep s pass folds := by
  have own : foldStep { s.sweeping cap with foldConst := s.foldConst && folds } =
      foldStep { s with foldConst := s.foldConst && folds } :=
    foldStep_sweeping (s := { s with foldConst := s.foldConst && folds })
  have merge : mergeStep (s.sweeping cap) = mergeStep s := rfl
  have identity : identityStep { s.sweeping cap with foldConst := s.foldConst && folds } =
      identityStep { s with foldConst := s.foldConst && folds } := rfl
  have coerce : coerceStep (s.sweeping cap) pass = coerceStep s pass := rfl
  have folding : (s.sweeping cap).foldConst = s.foldConst := rfl
  funext n
  simp only [settleStep, folding, own, merge, identity, coerce]

theorem settle_sweeping {folds : Bool} :
    settle (s.sweeping cap) pass folds = settle s pass folds := by
  funext n
  simp only [settle, settleStep_sweeping]

theorem refineBinary_sweeping {folds : Bool} :
    refineBinary (s.sweeping cap) pass folds = refineBinary s pass folds := by
  funext n
  simp only [refineBinary, settle_sweeping]

theorem settleNot_sweeping : settleNot (s.sweeping cap) pass = settleNot s pass := by
  have retypes : retype (s.sweeping cap) = retype s := rfl
  funext n
  simp only [settleNot, settle_sweeping, foldIfAsked_sweeping, retypes]

theorem refineNot_sweeping : refineNot (s.sweeping cap) pass = refineNot s pass := by
  funext n
  simp only [refineNot, settleNot_sweeping]

theorem refineNeg_sweeping : refineNeg (s.sweeping cap) pass = refineNeg s pass := by
  funext n
  simp only [refineNeg, foldIfAsked_sweeping]

theorem refineCondition_sweeping :
    refineCondition (s.sweeping cap) pass = refineCondition s pass := by
  funext n
  simp only [refineCondition, refineBinary_sweeping]

theorem refineSelect_sweeping : refineSelect (s.sweeping cap) pass = refineSelect s pass := by
  have retypes : retype (s.sweeping cap) = retype s := rfl
  have selects : (s.sweeping cap).selectToNot = s.selectToNot := rfl
  funext n
  simp only [refineSelect, refinePredicate, refineCondition_sweeping, foldPredicate,
    foldIfAsked_sweeping, settleNot_sweeping, retypes, selects]

theorem refineExprWithin_sweeping :
    refineExprWithin (s.sweeping cap) fuel = refineExprWithin s fuel := by
  have cvt (pass : Pass) : refineCvt (s.sweeping cap) pass = refineCvt s pass := rfl
  have requires : require (s.sweeping cap) = require s := rfl
  induction fuel with
  | zero => rfl
  | succ fuel ih =>
    funext n
    simp only [refineExprWithin, ih, refineSelect_sweeping, refineNeg_sweeping, refineNot_sweeping,
      cvt, refineBinary_sweeping, requires]

theorem refineExpr_sweeping : refineExpr (s.sweeping cap) = refineExpr s := by
  funext n
  simp only [refineExpr, refineExprWithin_sweeping]

theorem refineDeterminant_sweeping : refineDeterminant (s.sweeping cap) = refineDeterminant s := by
  funext n
  simp only [refineDeterminant, refineCondition_sweeping, refineExpr_sweeping]

/-! ### Statements -/

theorem refineConditionSlot_sweeping :
    refineConditionSlot (s.sweeping cap) = refineConditionSlot s := by
  funext n
  simp only [refineConditionSlot, refineDeterminant_sweeping]

theorem refineStore_sweeping : refineStore (s.sweeping cap) = refineStore s := rfl

theorem refineIndirectStore_sweeping :
    refineIndirectStore (s.sweeping cap) = refineIndirectStore s := rfl

theorem refineBranch_sweeping : refineBranch (s.sweeping cap) = refineBranch s := by
  have finish : finishStmt (s.sweeping cap) = finishStmt s := rfl
  funext n
  simp only [refineBranch, refineConditionSlot_sweeping, finish]

end Peephole
