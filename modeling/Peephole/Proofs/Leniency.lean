import Peephole.Proofs.Blindness
import Peephole.Proofs.Honesty

/-!
# Strict and lenient settings

A strict setting stops at a broken invariant, where a lenient one reports it and goes on. So a run
that returns under a strict setting met no broken invariant, and the lenient setting follows it step
by step.
-/

namespace Peephole

open Edit

variable {α : Type} {parents b b' : Bool} {n : NodeId} {o : Options} {m m' : Edit α}

namespace Agrees

theorem of_change (made : Change ⟨o, b, b', parents⟩ m) : Agrees parents m m := by
  cases made with
  | modifyNode blind _ => exact modifyNode blind
  | setCode => exact setCode
  | setKid => exact setKid
  | setKids => exact setKids
  | takeKids => exact takeKids
  | build => exact build
  | removeSsaUse => exact removeSsaUse
  | cutUses => exact cutUses
  | releaseAll => exact releaseAll
  | linkedCopy =>
    refine duplicate.bind fun _ => hasEdges.bind fun _ => ite ?_ (pure _)
    exact copyTreeAccess.bind fun _ => pure _
  | loadFor => exact build.bind fun _ => inheritLoad.bind fun _ => pure _
  | storeFor seen | replaceKid seen | clearSsaUses seen | cutAll seen | leaveBlock seen
  | insertStmt seen =>
    subst seen
    exact refl

variable (eases : b' = true → b = true)
include eases

/-- Where the strict setting goes on, so does the lenient one. -/
theorem require {holds : Bool} {v : Violation} :
    Agrees parents (require ⟨o, b⟩ holds v) (require ⟨o, b'⟩ holds v) := by
  refine ite (pure _) ?_
  cases b with
  | true => exact stop nofun
  | false =>
    rw [show b' = false from Bool.eq_false_iff.mpr fun on => nomatch eases on]
    exact report.bind fun _ => pure _

theorem checkEdges : Agrees true (checkEdges ⟨o, b⟩ n) (checkEdges ⟨o, b'⟩ n) :=
  refl.bind fun _ => ite (refl.bind fun _ => (require eases).discard) refl

omit eases in
/-- Regions compared as a whole: the same result and the same region. -/
theorem run_eq {m m' : Edit α} {out : α × Region} {r : Region} (h : Agrees true m m')
    (run : m.run r = .ok out) : m'.run r = .ok out := by
  obtain ⟨r', run', same⟩ := h.returns rfl run
  rw [run', show r' = out.2 from same]

end Agrees

/-- What is composed alike under two settings agrees. -/
theorem Composed.agrees {Q : Bool → α → Prop} (made : Composed ⟨o, b, b', parents⟩ false m m' Q)
    (eases : b' = true → b = true) : Agrees parents m m' := by
  generalize false = c at made
  induction made with
  | pure _ => exact .pure _
  | throw _ => exact .throw _
  | bind made _ first next =>
    refine first.bind_of fun a r r' ran => ?_
    obtain ⟨c', _, told⟩ := (meets_iff.mp (made.marks r r fun _ => .refl)).1 a r' ran
    exact next c' a told
  | ask blind => exact .ask blind
  | lift _ => exact .lift _
  | get blind _ next => exact .get blind next
  | node blind _ next =>
    cases parents with
    | true => exact Agrees.refl.bind next
    | false => exact .node (blind rfl) next
  | report => exact .report
  | intern => exact .intern
  | require _ => exact .require eases
  | change made => exact .of_change made
  | checkEdges seen =>
    subst seen
    exact .checkEdges eases
  | invertBranch seen =>
    subst seen
    exact .refl

theorem Agrees.refineExpr (eases : b' = true → b = true) :
    Agrees parents (refineExpr ⟨o, b⟩ n) (refineExpr ⟨o, b'⟩ n) := Composed.refineExpr.agrees eases

theorem refineExpr_blind {s : Setting} : Blind (refineExpr s n) := Agrees.refineExpr id

/-- Strict and lenient settings agree: what refinement returns under a strict setting, with its flag
and the region it leaves, it returns under the lenient setting too. -/
theorem lenient_follows_strict (o : Options) (r : Region) :
    (∀ n out, (refine ⟨o, true⟩ n).run r = .ok out → (refine ⟨o, false⟩ n).run r = .ok out) ∧
    (∀ n out, (refineExpr ⟨o, true⟩ n).run r = .ok out →
      (refineExpr ⟨o, false⟩ n).run r = .ok out) ∧
    (∀ ns out, (refineList ⟨o, true⟩ ns).run r = .ok out →
      (refineList ⟨o, false⟩ ns).run r = .ok out) ∧
    ∀ out, (refineRegion ⟨o, true⟩).run r = .ok out →
      (refineRegion ⟨o, false⟩).run r = .ok out := by
  have eases : false = true → true = true := nofun
  refine ⟨fun n out => ?_, fun n out => ?_, fun ns out => ?_, fun out => ?_⟩
  · exact (Composed.refine.agrees eases).run_eq
  · exact (Agrees.refineExpr eases).run_eq
  · exact (Composed.refineList.agrees eases).run_eq
  · exact (Composed.refineRegion.agrees eases).run_eq

/-- `$1 = $2 * 8`. -/
def Region.eightfold : Region :=
  { Region.empty ⟨8⟩ with
    nodes := #[
      some { Node.fresh .pr (.scalar .i32) (.ofRegister 2) [] with parent := some ⟨2⟩ },
      some { Node.fresh .const (.scalar .i32) (.ofLiteral (.int 8)) [] with parent := some ⟨2⟩ },
      some { Node.fresh .mul (.scalar .i32) .none [[⟨0⟩], [⟨1⟩]] with parent := some ⟨3⟩ },
      some { Node.fresh .stpr (.scalar .i32) (.ofRegister 1) [[⟨2⟩]] with block := some ⟨0⟩ }]
    blocks := #[[⟨3⟩]]
    order := [⟨0⟩] }

set_option maxRecDepth 20000 in
/-- Under either setting the product becomes a shift. -/
theorem lenient_follows_strict_eightfold :
    (∃ out, (refine ⟨.standard, true⟩ ⟨3⟩).run .eightfold = .ok out ∧
      (refine ⟨.standard, false⟩ ⟨3⟩).run .eightfold = .ok out) ∧
    (∃ out, (refineExpr ⟨.standard, true⟩ ⟨2⟩).run .eightfold = .ok out ∧
      (refineExpr ⟨.standard, false⟩ ⟨2⟩).run .eightfold = .ok out) ∧
    (∃ out, (refineList ⟨.standard, true⟩ [⟨3⟩]).run .eightfold = .ok out ∧
      (refineList ⟨.standard, false⟩ [⟨3⟩]).run .eightfold = .ok out) ∧
    ∃ out, (refineRegion ⟨.standard, true⟩).run .eightfold = .ok out ∧ out.1.changed = true ∧
      (refineRegion ⟨.standard, false⟩).run .eightfold = .ok out := by
  obtain ⟨stmt, expr, list, region⟩ := lenient_follows_strict .standard .eightfold
  have stmtEnds : Meets (refine ⟨.standard, true⟩ ⟨3⟩) .eightfold (fun _ => False)
      fun _ _ => True := by
    decide +kernel
  have exprEnds : Meets (refineExpr ⟨.standard, true⟩ ⟨2⟩) .eightfold (fun _ => False)
      fun _ _ => True := by
    decide +kernel
  have listEnds : Meets (refineList ⟨.standard, true⟩ [⟨3⟩]) .eightfold (fun _ => False)
      fun _ _ => True := by
    decide +kernel
  have regionEnds : Meets (refineRegion ⟨.standard, true⟩) .eightfold (fun _ => False)
      fun summary _ => summary.changed = true := by
    decide +kernel
  obtain ⟨_, _, stmtRun⟩ := stmtEnds.returns
  obtain ⟨_, _, exprRun⟩ := exprEnds.returns
  obtain ⟨_, _, listRun⟩ := listEnds.returns
  obtain ⟨_, _, regionRun⟩ := regionEnds.returns
  refine ⟨⟨_, stmtRun, stmt _ _ stmtRun⟩, ⟨_, exprRun, expr _ _ exprRun⟩,
    ⟨_, listRun, list _ _ listRun⟩, ⟨_, regionRun, ?_, region _ regionRun⟩⟩
  exact (meets_iff.mp regionEnds).1 _ _ regionRun

end Peephole
