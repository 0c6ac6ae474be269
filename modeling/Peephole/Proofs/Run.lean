import Mathlib
import Peephole.Edit

/-!
# Runs of edits

What a run of an edit on a region may end in, and how this is found from the
runs of the edits it is made of.
-/

namespace Peephole

open Edit

variable {α β : Type} {r r' : Region} {F G : Fault → Prop}

/-- A question is answered with `Q`, or refused with a fault that has `F`. -/
def Yields (x : Except Fault α) (F : Fault → Prop) (Q : α → Prop) : Prop :=
  match x with
  | .ok a => Q a
  | .error f => F f

/-- Run on `r`, the edit ends with a result and a region that have `Q`, or with a
fault that has `F`. -/
def Meets (m : Edit α) (r : Region) (F : Fault → Prop) (Q : α → Region → Prop) : Prop :=
  Yields (m.run r) F fun out => Q out.1 out.2

theorem bind_eq_ok {x : Except Fault α} {f : α → Except Fault β} {y : β} :
    x >>= f = .ok y ↔ ∃ a, x = .ok a ∧ f a = .ok y := by
  cases x with
  | error e => simp [bind, Except.bind]
  | ok a => simp [bind, Except.bind]

@[simp] theorem yields_ok {a : α} {Q : α → Prop} : Yields (.ok a) F Q ↔ Q a := Iff.rfl

@[simp] theorem yields_error {f : Fault} {Q : α → Prop} :
    Yields (.error f : Except Fault α) F Q ↔ F f := Iff.rfl

@[simp] theorem yields_pure {a : α} {Q : α → Prop} :
    Yields (pure a : Except Fault α) F Q ↔ Q a := Iff.rfl

@[simp] theorem yields_throw {f : Fault} {Q : α → Prop} :
    Yields (throw f : Except Fault α) F Q ↔ F f := Iff.rfl

@[simp] theorem yields_bind {x : Except Fault α} {k : α → Except Fault β} {Q : β → Prop} :
    Yields (x >>= k) F Q ↔ Yields x F fun a => Yields (k a) F Q := by
  cases x <;> rfl

theorem Yields.imp {x : Except Fault α} {P Q : α → Prop} (h : Yields x F P)
    (faults : ∀ f, F f → G f) (results : ∀ a, x = .ok a → P a → Q a) : Yields x G Q := by
  cases x with
  | ok a => exact results a rfl h
  | error f => exact faults f h

theorem yields_iff {x : Except Fault α} {Q : α → Prop} :
    Yields x F Q ↔ (∀ a, x = .ok a → Q a) ∧ ∀ f, x = .error f → F f := by
  cases x <;> simp

@[simp] theorem meets_pure {a : α} {Q : α → Region → Prop} :
    Meets (pure a) r F Q ↔ Q a r := Iff.rfl

@[simp] theorem meets_throw {f : Fault} {Q : α → Region → Prop} :
    Meets (throw f) r F Q ↔ F f := Iff.rfl

@[simp] theorem meets_bind {m : Edit α} {k : α → Edit β} {Q : β → Region → Prop} :
    Meets (m >>= k) r F Q ↔ Meets m r F fun a r' => Meets (k a) r' F Q := by
  unfold Meets
  rw [StateT.run_bind, yields_bind]

@[simp] theorem meets_map {m : Edit α} {f : α → β} {Q : β → Region → Prop} :
    Meets (f <$> m) r F Q ↔ Meets m r F fun a => Q (f a) := by
  rw [map_eq_pure_bind, meets_bind]
  rfl

@[simp] theorem meets_discard {m : Edit α} {Q : PUnit → Region → Prop} :
    Meets (discard m) r F Q ↔ Meets m r F fun _ => Q ⟨⟩ := by
  have mapped : discard m = (fun _ => PUnit.unit) <$> m := rfl
  rw [mapped, meets_map]

@[simp] theorem meets_get {Q : Region → Region → Prop} : Meets get r F Q ↔ Q r r := Iff.rfl

@[simp] theorem meets_modify {f : Region → Region} {Q : PUnit → Region → Prop} :
    Meets (modify f) r F Q ↔ Q ⟨⟩ (f r) := Iff.rfl

@[simp] theorem meets_modifyGet {f : Region → α × Region} {Q : α → Region → Prop} :
    Meets (modifyGet f) r F Q ↔ Q (f r).1 (f r).2 := Iff.rfl

@[simp] theorem meets_lift {x : Except Fault α} {Q : α → Region → Prop} :
    Meets (liftM x : Edit α) r F Q ↔ Yields x F fun a => Q a r := by
  cases x <;> rfl

@[simp] theorem meets_ask {q : Region → Except Fault α} {Q : α → Region → Prop} :
    Meets (ask q) r F Q ↔ Yields (q r) F fun a => Q a r := by
  unfold ask
  rw [meets_bind, meets_get, meets_lift]

@[simp] theorem meets_and {m k : Edit Bool} {Q : Bool → Region → Prop} :
    Meets (m <&&> k) r F Q ↔
      Meets m r F fun a r' => if a then Meets k r' F Q else Q false r' := by
  unfold andM
  rw [meets_bind]
  have branches (a : Bool) (r' : Region) :
      Meets (match a with | true => k | false => pure a) r' F Q ↔
        if a then Meets k r' F Q else Q false r' := by
    cases a <;> simp
  exact iff_of_eq (congrArg _ (funext fun a => funext fun r' => propext (branches a r')))

@[simp] theorem meets_or {m k : Edit Bool} {Q : Bool → Region → Prop} :
    Meets (m <||> k) r F Q ↔
      Meets m r F fun a r' => if a then Q true r' else Meets k r' F Q := by
  unfold orM
  rw [meets_bind]
  have branches (a : Bool) (r' : Region) :
      Meets (match a with | true => pure a | false => k) r' F Q ↔
        if a then Q true r' else Meets k r' F Q := by
    cases a <;> simp
  exact iff_of_eq (congrArg _ (funext fun a => funext fun r' => propext (branches a r')))

theorem Meets.imp {m : Edit α} {P Q : α → Region → Prop} (h : Meets m r F P)
    (faults : ∀ f, F f → G f) (results : ∀ a r', P a r' → Q a r') : Meets m r G Q :=
  Yields.imp h faults fun out _ => results out.1 out.2

/-- Weaken what a run ends in. -/
theorem Meets.to {m : Edit α} {P Q : α → Region → Prop} (h : Meets m r F P)
    (results : ∀ a r', P a r' → Q a r') : Meets m r F Q :=
  h.imp (fun _ => id) results

theorem Meets.bind {m : Edit α} {k : α → Edit β} {P : α → Region → Prop}
    {Q : β → Region → Prop} (h : Meets m r F P)
    (next : ∀ a r', P a r' → Meets (k a) r' F Q) : Meets (m >>= k) r F Q :=
  meets_bind.mpr (h.to next)

theorem Meets.and {m : Edit α} {P Q : α → Region → Prop} (hp : Meets m r F P)
    (hq : Meets m r G Q) : Meets m r F fun a r' => P a r' ∧ Q a r' := by
  unfold Meets Yields at *
  split at hp <;> simp_all

/-- What a run that returns ends in, and which faults the others end in. -/
theorem meets_iff {m : Edit α} {Q : α → Region → Prop} :
    Meets m r F Q ↔
      (∀ a r', m.run r = .ok (a, r') → Q a r') ∧ ∀ f, m.run r = .error f → F f := by
  unfold Meets
  rw [yields_iff]
  simp only [Prod.forall]

theorem meets_run {m : Edit α} :
    Meets m r (fun _ => True) fun a r' => m.run r = .ok (a, r') :=
  meets_iff.mpr ⟨fun _ _ => id, fun _ _ => trivial⟩

theorem Meets.returns {m : Edit α} {Q : α → Region → Prop} (h : Meets m r (fun _ => False) Q) :
    ∃ a r', m.run r = .ok (a, r') := by
  unfold Meets at h
  cases ran : m.run r with
  | ok out => exact ⟨out.1, out.2, rfl⟩
  | error f =>
    rw [ran] at h
    exact h.elim

theorem Meets.ends {m : Edit α} {Q : α → Region → Prop} (h : Meets m r (fun _ => False) Q) :
    ∃ a r', m.run r = .ok (a, r') ∧ Q a r' := by
  obtain ⟨a, r', run⟩ := h.returns
  exact ⟨a, r', run, (meets_iff.mp h).1 a r' run⟩

theorem Meets.stops {m : Edit α} {f : Fault} (h : Meets m r (fun g => g = f) fun _ _ => False) :
    m.run r = .error f := by
  unfold Meets at h
  cases ran : m.run r with
  | ok out =>
    rw [ran] at h
    exact h.elim
  | error g =>
    rw [ran] at h
    rw [show g = f from h]

instance {x : Except Fault α} {Q : α → Prop} [DecidablePred F] [DecidablePred Q] :
    Decidable (Yields x F Q) :=
  match x with
  | .ok a => inferInstanceAs (Decidable (Q a))
  | .error f => inferInstanceAs (Decidable (F f))

instance {m : Edit α} {Q : α → Region → Prop} [DecidablePred F] [∀ a r, Decidable (Q a r)] :
    Decidable (Meets m r F Q) :=
  inferInstanceAs (Decidable (Yields _ _ _))

/-! ### Loops -/

theorem Meets.forM {f : α → Edit PUnit} {xs : List α} {I : Region → Prop} (start : I r)
    (step : ∀ x ∈ xs, ∀ r, I r → Meets (f x) r F fun _ => I) :
    Meets (xs.forM f) r F fun _ => I := by
  induction xs generalizing r with
  | nil => exact start
  | cons x xs ih =>
    refine Meets.bind (step x List.mem_cons_self r start) fun _ r' now => ?_
    exact ih now fun y mem => step y (List.mem_cons_of_mem x mem)

theorem Meets.mapM {f : α → Edit β} {xs : List α} {I : Region → Prop} (start : I r)
    (step : ∀ x ∈ xs, ∀ r, I r → Meets (f x) r F fun _ => I) :
    Meets (xs.mapM f) r F fun _ => I := by
  induction xs generalizing r with
  | nil => exact start
  | cons x xs ih =>
    rw [List.mapM_cons]
    refine Meets.bind (step x List.mem_cons_self r start) fun _ r' now => ?_
    refine Meets.bind (ih now fun y mem => step y (List.mem_cons_of_mem x mem)) ?_
    exact fun _ _ => id

@[simp] theorem meets_someOf_nil {f : α → Edit Bool} {Q : Bool → Region → Prop} :
    Meets (someOf f []) r F Q ↔ Q false r := Iff.rfl

@[simp] theorem meets_someOf_cons {f : α → Edit Bool} {x : α} {xs : List α}
    {Q : Bool → Region → Prop} :
    Meets (someOf f (x :: xs)) r F Q ↔
      Meets (f x) r F fun a r' => Meets (someOf f xs) r' F fun b => Q (a || b) := by
  simp [Edit.someOf, List.mapM_cons]

theorem Meets.someOf {f : α → Edit Bool} {xs : List α} {I : Region → Prop} (start : I r)
    (step : ∀ x ∈ xs, ∀ r, I r → Meets (f x) r F fun _ => I) :
    Meets (someOf f xs) r F fun _ => I :=
  Meets.bind (Meets.mapM start step) fun _ _ => id

end Peephole
