import Peephole.Proofs.Dropping
import Peephole.Proofs.Steady

/-!
# Sweep caps on record

A list of statements that still changes in its last permitted sweep is put on record with the number
of sweeps. Nothing else writes such an event, so a cap on record after a run was there before, or it
is that of the setting.
-/

namespace Peephole

open Edit

variable {α : Type} {cap : Nat} {r₀ r r' : Region} {n : NodeId}

/-- Every cap on record in `r` is `cap`, or is on record in `r₀`. -/
def CapsFrom (cap : Nat) (r₀ r : Region) : Prop :=
  ∀ k, .listCapReached k ∈ r.events → k = cap ∨ .listCapReached k ∈ r₀.events

namespace CapsFrom

abbrev Kept (cap : Nat) (r₀ : Region) (m : Edit α) : Prop :=
  Keeps (CapsFrom cap r₀) (fun _ => True) m

theorem of_skeleton (h : CapsFrom cap r₀ r) (same : r'.skeleton = r.skeleton) :
    CapsFrom cap r₀ r' := by
  intro k mem
  have caps : r'.events.filter (·.isListCap) = r.events.filter (·.isListCap) :=
    congrArg Region.events same
  have kept : .listCapReached k ∈ r'.events.filter (·.isListCap) :=
    Array.mem_filter.mpr ⟨mem, rfl⟩
  rw [caps] at kept
  exact h k (Array.mem_filter.mp kept).1

theorem quiet {F : Fault → Prop} {m : Edit α} (h : ∀ r, Quiet r F m) : Kept cap r₀ m :=
  fun r start => (h r r rfl).imp (fun _ _ => trivial) fun _ _ same => start.of_skeleton same

theorem ask {q : Region → Except Fault α} : Kept cap r₀ (Edit.ask q) :=
  .ask fun _ => yields_iff.mpr ⟨fun _ _ => trivial, fun _ _ => trivial⟩

theorem modifySsa {v : SsaId} {f : SsaValue → SsaValue} : Kept cap r₀ (modifySsa v f) :=
  ask.bind fun _ => .modify fun _ => id

theorem modifyNode {f : Node → Node} : Kept cap r₀ (modifyNode n f) :=
  ask.bind fun _ => .modify fun _ => id

theorem removeSsaUse : Kept cap r₀ (removeSsaUse n) := by
  refine ask.bind fun d => ?_
  cases d.ssa with
  | none => exact .pure _
  | some v => exact .bind (.modify fun _ => id) fun _ => modifySsa

theorem clearSsaUses {v : SsaId} : Kept cap r₀ (clearSsaUses v) := by
  refine ask.bind fun d => .bind (.modify fun _ => id) fun _ => .forM fun u => ?_
  refine Steady.isReleased.bind fun _ => .ite (ask.bind fun _ => ?_) (.pure _)
  exact .ite modifyNode (.pure _)

theorem releaseAll {ns : List NodeId} : Kept cap r₀ (releaseAll ns) := by
  refine ask.bind fun _ => ask.bind fun _ => .forM fun x => ?_
  have forgets : Kept cap r₀ (forgetSsa x) := by
    refine ask.bind fun d => ?_
    cases d.ssa with
    | none => exact .pure _
    | some v => exact modifySsa
  exact forgets.bind fun _ => ask.bind fun _ => .modify fun _ => id

theorem build {code : Op} {ty : Ty} {attrs : Attrs} {slots : List (List NodeId)} :
    Kept cap r₀ (build code ty attrs slots) := by
  unfold Edit.build Edit.create
  rw [if_neg (by simp [Node.fresh])]
  exact .bind (.modifyGet fun _ => id) fun _ => .bind (.forM fun _ => modifyNode) fun _ => .pure _

theorem duplicateWithin {fuel : Nat} : Kept cap r₀ (duplicateWithin fuel n) := by
  induction fuel generalizing n with
  | zero => exact .throw trivial
  | succ fuel ih =>
    refine ask.bind fun d => .bind (.mapM fun _ => .mapM fun _ => ih) fun _ =>
      build.bind fun _ => ?_
    split
    · refine .bind (ask.bind fun _ => .ite (.bind (.throw trivial) fun _ => ?_) ?_) fun _ => .pure _
      all_goals exact modifyNode.bind fun _ => modifySsa
    · exact .pure _

end CapsFrom

theorem capsFrom_steady {o : Options} :
    Steady o (CapsFrom o.sweepCap r₀) fun _ => True where
  fault _ _ := trivial
  aside _ _ _ := id
  note r e known h k mem := by
    rcases Array.mem_push.mp mem with old | rfl
    · exact h k old
    · exact .inl (Event.listCapReached.inj (known rfl))
  put _ _ _ _ h _ _ := h
  push _ _ _ _ _ := id
  removeSsaUse _ := CapsFrom.removeSsaUse
  clearSsaUses _ := CapsFrom.clearSsaUses
  cutUses _ := CapsFrom.quiet fun _ => cutUses_quiet
  cutAll _ := CapsFrom.quiet fun _ => cutAll_quiet
  releaseAll _ := CapsFrom.releaseAll
  linkedCopy _ := .bind (.bind .get fun _ => CapsFrom.duplicateWithin) fun _ =>
    .bind (.bind .get fun _ => .pure _) fun _ =>
      .ite (.bind (CapsFrom.quiet fun _ => copyTreeAccess_quiet) fun _ => .pure _) (.pure _)
  loadFor _ _ _ _ := CapsFrom.build.bind fun _ =>
    .bind (CapsFrom.quiet fun _ => inheritLoad_quiet) fun _ => .pure _
  storeFor _ _ _ _ _ := CapsFrom.build.bind fun _ => 
    .bind (CapsFrom.quiet fun _ => inheritStore_quiet) fun _ => .pure _
  checkEdges s n := by
    have notes (v : Violation) : CapsFrom.Kept o.sweepCap r₀ (report (.skipped v)) :=
      CapsFrom.quiet fun _ => report_quiet (F := fun _ => True) rfl
    refine .bind (.bind .get fun _ => .pure _) fun _ => .ite (.bind ?_ fun stale => ?_) (.pure _)
    · exact CapsFrom.quiet fun _ => dropExpired_quiet
    · refine .discard (.ite (.pure _) (.ite (.throw trivial) ?_))
      exact (notes _).bind fun _ => .pure _

end Peephole
