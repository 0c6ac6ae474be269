import Peephole.Proofs.Nesting

/-!
# Sweeps over a list

A list of statements is swept until nothing changes. Where each statement comes to rest after two
refinements, the third sweep is the last, so that every cap of at least three has the same result
(`Converges.refineListWith_always`).
-/

namespace Peephole

open Edit

variable {α β : Type} {s : Setting} {r r' r₁ r₂ : Region} {n : NodeId} {ks ns ns' ms : List NodeId}
  {P B C : Region → NodeId → List NodeId → Prop} {f : Setting → NodeId → Edit Outcome}

/-! ### Every cap -/

/-- With each cap of at least three, the edit ends alike and with `Q`. -/
def Always (s : Setting) (m : Setting → Edit α) (r : Region) (Q : α → Region → Prop) : Prop :=
  ∃ a r', Q a r' ∧
    ∀ cap, 3 ≤ (s.sweeping cap).sweepCap → (m (s.sweeping cap)).run r = .ok (a, r')

namespace Always

theorem bind {m : Setting → Edit α} {k : Setting → α → Edit β} {A : α → Region → Prop}
    {Q : β → Region → Prop} (h : Always s m r A)
    (next : ∀ a r', A a r' → Always s (fun s => k s a) r' Q) :
    Always s (fun s => m s >>= k s) r Q := by
  obtain ⟨a, r₁, first, run⟩ := h
  obtain ⟨b, r₂, second, run'⟩ := next a r₁ first
  refine ⟨b, r₂, second, fun cap enough => ?_⟩
  rw [StateT.run_bind, run cap enough]
  exact run' cap enough

theorem imp {m : Setting → Edit α} {A Q : α → Region → Prop} (h : Always s m r A)
    (results : ∀ a r', A a r' → Q a r') : Always s m r Q := by
  obtain ⟨a, r', holds, run⟩ := h
  exact ⟨a, r', results a r' holds, run⟩

theorem ofGives {m : Setting → Edit α} {a : α} {Q : α → Region → Prop} (h : Q a r)
    (gives : ∀ cap, 3 ≤ (s.sweeping cap).sweepCap → Gives (m (s.sweeping cap)) r a) :
    Always s m r Q :=
  ⟨a, r, h, gives⟩

theorem pure {a : α} {Q : α → Region → Prop} (h : Q a r) :
    Always s (fun _ => Pure.pure a) r Q :=
  .ofGives h fun _ _ => rfl

theorem congr {m m' : Setting → Edit α} {Q : α → Region → Prop} (h : Always s m r Q)
    (same : ∀ s, (m' s).run r = (m s).run r) : Always s m' r Q := by
  obtain ⟨a, r', holds, run⟩ := h
  exact ⟨a, r', holds, fun cap enough => (same _).trans (run cap enough)⟩

/-- An edit that does not depend on the cap. -/
theorem ofMeets {m : Edit α} {m' : Setting → Edit α} {Q : α → Region → Prop}
    (h : Meets m r (fun _ => False) Q)
    (same : ∀ cap, (m' (s.sweeping cap)).run r = m.run r) : Always s m' r Q := by
  obtain ⟨a, r', run, holds⟩ := h.ends
  exact ⟨a, r', holds, fun cap _ => (same cap).trans run⟩

/-- What every run keeps. -/
theorem keeping {m : Setting → Edit α} {Q : α → Region → Prop} {I : Region → Prop}
    {F : Fault → Prop} (h : Always s m r Q) (keeps : ∀ s, Keeps I F (m s)) (start : I r) :
    Always s m r fun a r' => Q a r' ∧ I r' := by
  obtain ⟨a, r', holds, run⟩ := h
  have three := run 3 (sweepCap_sweeping (by decide)).ge
  exact ⟨a, r', ⟨holds, (meets_iff.mp (keeps _ r start)).1 a r' three⟩, run⟩

end Always

/-! ### One sweep -/

/-- What became of each of the statements `ks`. -/
inductive Results (B C : NodeId → List NodeId → Prop) :
    List NodeId → List Outcome → List NodeId → Prop
  | nil : Results B C [] [] []
  | cons {k : NodeId} {ks ns ms : List NodeId} {out : Outcome} {outs : List Outcome}
      (first : Leaves B C k out ns) (others : Results B C ks outs ms) :
      Results B C (k :: ks) (out :: outs) (ns ++ ms)

namespace Results

variable {B C : NodeId → List NodeId → Prop} {outs : List Outcome}

/-- The statements that are left. -/
theorem listed {D : NodeId → List NodeId → Prop} (h : Results B C ks outs ns)
    (new : ∀ n ns, B n ns → D n ns) (same : ∀ n ns, C n ns → D n ns) :
    Listed D (outs.filterMap (·.node)) ns := by
  induction h with
  | nil => exact .nil
  | cons first _ ih =>
    cases first with
    | gone => exact ih
    | changed here => exact .cons (new _ _ here) ih
    | still here => exact .cons (same _ _ here) ih

/-- A sweep without a change leaves the list as it is. -/
theorem still (h : Results B C ks outs ns) (none : outs.any (·.changed) = false) :
    outs.filterMap (·.node) = ks ∧ Listed C ks ns := by
  induction h with
  | nil => exact ⟨rfl, .nil⟩
  | cons first _ ih =>
    rw [List.any_cons, Bool.or_eq_false_iff] at none
    obtain ⟨here, rest⟩ := none
    obtain ⟨same, listed⟩ := ih rest
    cases first with
    | gone => cases here
    | changed => cases here
    | still last => exact ⟨congrArg (List.cons _) same, .cons last listed⟩

end Results

namespace Leaves

variable {out : Outcome} (new : Rooted B) (same : Rooted C)
include new same

theorem nodup (h : Leaves (B r) (C r) n out ns) : ns.Nodup := by
  cases h with
  | gone => exact List.nodup_nil
  | changed here => exact new.nodup here
  | still here => exact same.nodup here

theorem lt_size (h : Leaves (B r) (C r) n out ns) : ∀ m ∈ ns, m.index < r.nodes.size := by
  cases h with
  | gone => simp
  | changed here => exact new.lt_size here
  | still here => exact same.lt_size here

theorem framed (tidy : r.Tidy) (other : Framed r r' ms) (h : Leaves (B r) (C r) n out ns)
    (apart : ∀ m ∈ ns, m ∉ ms) : Leaves (B r') (C r') n out ns := by
  cases h with
  | gone unlinked => exact .gone unlinked
  | changed here => exact .changed (new.framed tidy other here apart)
  | still here => exact .still (same.framed tidy other here apart)

end Leaves

/-- What a sweep over the statements `ks`, which have the nodes `ns`, ends in. -/
def Swept (B C : Region → NodeId → List NodeId → Prop) (r : Region) (ks ns : List NodeId)
    (outs : List Outcome) (r' : Region) : Prop :=
  ∃ ns', Results (B r') (C r') ks outs ns' ∧ ns'.Nodup ∧ Within r ns ns' ∧ Framed r r' ns

/-- A sweep is the steps with each of the statements. -/
theorem sweep_always (before : Framing P) (new : Rooted B) (same : Rooted C)
    (step : ∀ {r n ns}, r.Tidy → P r n ns → Always s (fun s => f s n) r fun out r' =>
      Steps B C r n ns out r' ∧ SameTargets (·.index < r.nodes.size) r r')
    (tidy : r.Tidy) (listed : Listed (P r) ks ns) (distinct : ns.Nodup) :
    Always s (fun s => ks.mapM (f s)) r (Swept B C r ks ns) := by
  induction ks generalizing r ns with
  | nil =>
    cases listed
    exact .pure ⟨[], .nil, List.nodup_nil, .refl, .refl tidy⟩
  | cons k ks ih =>
    obtain _ | ⟨first, others⟩ := listed
    rename_i here rest
    obtain ⟨_, distinct', disjoint⟩ := List.nodup_append'.mp distinct
    simp only [List.mapM_cons]
    refine Always.bind (step tidy first) ?_
    rintro out r₁ ⟨⟨here₁, leaves, within, kept⟩, targets⟩
    have framed : Framed r r₁ here := ⟨kept, targets⟩
    have tidy₁ := framed.tidy tidy
    have apart : ∀ m ∈ here₁, m ∉ rest := within.apart disjoint (before.listed.lt_size others)
    have others₁ : Listed (P r₁) ks rest :=
      before.listed.framed tidy framed others fun m mem mem' => disjoint mem' mem
    refine Always.bind (ih tidy₁ others₁ distinct') ?_
    rintro outs r₂ ⟨rest₂, results, distinct₂, within₂, framed₂⟩
    have apart₂ : ∀ m ∈ rest₂, m ∉ here₁ :=
      within₂.apart (fun m mem mem' => apart m mem' mem) (leaves.lt_size new same)
    refine .pure ⟨here₁ ++ rest₂, .cons (leaves.framed new same tidy₁ framed₂ apart) results, ?_,
      within.append within₂ kept.grown.size, framed.append framed₂⟩
    exact List.nodup_append'.mpr ⟨leaves.nodup new same, distinct₂, fun m mem mem' =>
      apart₂ m mem' mem⟩

/-! ### Three sweeps -/

/-- Refinement brings the statements of `Q` to rest: the first may change them, the second deletes
them if anything, and the third leaves them alone. -/
structure Converges (s : Setting) (f : Setting → NodeId → Edit Outcome)
    (Q : Stage → Region → NodeId → List NodeId → Prop) : Prop where
  rooted : ∀ stage, Rooted (Q stage)
  refined : ∀ {r n ns}, Q .stable r n ns → Q .refined r n ns
  first : ∀ {r n ns}, r.Tidy → Q .given r n ns → Always s (fun s => f s n) r fun out r' =>
    Steps (Q .refined) (Q .stable) r n ns out r' ∧ SameTargets (·.index < r.nodes.size) r r'
  second : ∀ {r n ns}, r.Tidy → Q .refined r n ns → Always s (fun s => f s n) r fun out r' =>
    Steps (fun _ _ _ => False) (Q .stable) r n ns out r' ∧ SameTargets (·.index < r.nodes.size) r r'
  third : ∀ {r n ns cap}, Q .stable r n ns → 3 ≤ (s.sweeping cap).sweepCap →
    Gives (f (s.sweeping cap) n) r (.stands n false)

theorem Rooted.empty : Rooted fun _ _ _ => False where
  nodup := False.elim
  tree := False.elim
  framed := fun _ _ h => h.elim

section sweepList

variable {g : NodeId → Edit Outcome} {outs : List Outcome} {cap left : Nat}

theorem sweepList_still (run : (ks.mapM g).run r = .ok (outs, r'))
    (none : outs.any (·.changed) = false) :
    (sweepList g cap (left + 1) ks).run r = .ok ((outs.filterMap (·.node), false), r') := by
  rw [sweepList, StateT.run_bind, bind_eq_ok]
  refine ⟨_, run, ?_⟩
  simp only [none, Bool.not_false, if_true]
  rfl

theorem sweepList_again {out : List NodeId × Bool} (run : (ks.mapM g).run r = .ok (outs, r₁))
    (some : outs.any (·.changed) = true)
    (next : (sweepList g cap (left + 1) (outs.filterMap (·.node))).run r₁ = .ok (out, r₂)) :
    (sweepList g cap (left + 2) ks).run r = .ok ((out.1, true), r₂) := by
  rw [sweepList, StateT.run_bind, bind_eq_ok]
  refine ⟨_, run, ?_⟩
  simp only [some, Bool.not_true, Bool.false_eq_true, if_false]
  rw [if_neg (Nat.succ_ne_zero left), StateT.run_bind, bind_eq_ok]
  exact ⟨_, next, rfl⟩

end sweepList

namespace Converges

variable {Q : Stage → Region → NodeId → List NodeId → Prop} (h : Converges s f Q)
include h

/-- A sweep over a list at rest changes nothing. -/
theorem sweepList_gives {cap most left : Nat} (listed : Listed (Q .stable r) ks ns)
    (enough : 3 ≤ (s.sweeping cap).sweepCap) :
    Gives (sweepList (f (s.sweeping cap)) most (left + 1) ks) r (ks, false) := by
  have each : ∀ k ∈ ks, Gives (f (s.sweeping cap) k) r (.stands k false) := by
    intro k mem
    obtain ⟨_, here⟩ := listed.exists_of_mem mem
    exact h.third here enough
  have none : (ks.map fun k => Outcome.stands k false).any (·.changed) = false := by
    simp [Outcome.stands]
  have same : (ks.map fun k => Outcome.stands k false).filterMap (·.node) = ks := by
    simp [List.filterMap_map, Outcome.stands]
  exact (sweepList_still (Gives.mapM each) none).trans (by rw [same])

theorem refineListWith_gives {cap : Nat} (listed : Listed (Q .stable r) ks ns)
    (enough : 3 ≤ (s.sweeping cap).sweepCap) :
    Gives (refineListWith (s.sweeping cap) (f (s.sweeping cap)) ks) r (ks, false) := by
  obtain ⟨left, eq⟩ : ∃ left, (s.sweeping cap).sweepCap = left + 1 :=
    ⟨_, (Nat.sub_add_cancel (Nat.le_of_succ_le (Nat.le_of_succ_le enough))).symm⟩
  unfold refineListWith
  rw [eq]
  exact h.sweepList_gives listed enough

/-- The third sweep of a list is the last. -/
theorem refineListWith_always (tidy : r.Tidy) (listed : Listed (Q .given r) ks ns)
    (distinct : ns.Nodup) : Always s (fun s => refineListWith s (f s) ks) r fun out r' =>
      (out.2 = false → out.1 = ks) ∧ ∃ ns', Listed (Q .stable r') out.1 ns' ∧ ns'.Nodup ∧
        Within r ns ns' ∧ Framed r r' ns := by
  have left {cap : Nat} (enough : 3 ≤ (s.sweeping cap).sweepCap) :
      ∃ left, (s.sweeping cap).sweepCap = left + 3 := ⟨_, (Nat.sub_add_cancel enough).symm⟩
  obtain ⟨outs₁, r₁, ⟨ns₁, results₁, distinct₁, within₁, framed₁⟩, run₁⟩ :=
    sweep_always (h.rooted .given).toFraming (h.rooted .refined) (h.rooted .stable) h.first tidy
      listed distinct
  cases some₁ : outs₁.any (·.changed) with
  | false =>
    obtain ⟨same, listed₁⟩ := results₁.still some₁
    refine ⟨(ks, false), r₁, ⟨fun _ => rfl, ns₁, listed₁, distinct₁, within₁, framed₁⟩,
      fun cap enough => ?_⟩
    obtain ⟨left, eq⟩ := left enough
    dsimp only [refineListWith]
    rw [eq, sweepList_still (run₁ cap enough) some₁, same]
  | true =>
    have listed₁ := results₁.listed (D := Q .refined r₁) (fun _ _ => id) fun _ _ => h.refined
    obtain ⟨outs₂, r₂, ⟨ns₂, results₂, distinct₂, within₂, framed₂⟩, run₂⟩ :=
      sweep_always (h.rooted .refined).toFraming .empty (h.rooted .stable) h.second
        (framed₁.tidy tidy) listed₁ distinct₁
    have listed₂ := results₂.listed (D := Q .stable r₂) (fun _ _ => False.elim) fun _ _ => id
    refine ⟨(outs₂.filterMap (·.node), true), r₂, ⟨fun off => Bool.noConfusion off, ns₂, listed₂,
      distinct₂, within₁.trans within₂ framed₁.kept.grown.size, framed₁.trans framed₂ within₁⟩,
      fun cap enough => ?_⟩
    obtain ⟨left, eq⟩ := left enough
    have last : ∃ again, (sweepList (f (s.sweeping cap)) (s.sweeping cap).sweepCap (left + 2)
        (outs₁.filterMap (·.node))).run r₁ = .ok ((outs₂.filterMap (·.node), again), r₂) := by
      cases some₂ : outs₂.any (·.changed) with
      | false => exact ⟨_, sweepList_still (run₂ cap enough) some₂⟩
      | true =>
        exact ⟨_, sweepList_again (run₂ cap enough) some₂ (h.sweepList_gives listed₂ enough)⟩
    obtain ⟨again, last⟩ := last
    rw [eq] at last
    dsimp only [refineListWith]
    rw [eq, sweepList_again (run₁ cap enough) some₁ last]

end Converges

end Peephole
