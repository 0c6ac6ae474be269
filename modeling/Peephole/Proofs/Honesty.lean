import Peephole.Proofs.Composition

/-!
# Honest edits

Every pass says whether it changed anything, and the loops over statements stop on that flag.
An edit is `Honest` if a quiet result, one that reports no change, is given only when nothing
changed: the input stays in its place, and the region is `Untouched`. In a composed edit the mark
is off as long as the region is untouched, so an edit whose quiet results leave the mark alone is
honest. Refinement of a statement is (`refine_unchanged`), so a sweep that reports no change has
come to an end.
-/

namespace Peephole

open Edit

variable {α β : Type} {r r' r'' : Region} {n k : NodeId} {i : Nat} {s : Setting}

/-- From `r` to `r'`, nothing changed but the types on record and the events. -/
structure Untouched (r r' : Region) : Prop where
  types : r.types.toList <+: r'.types.toList
  rest : { r' with types := r.types, events := r.events } = r

theorem Untouched.refl : Untouched r r := ⟨List.prefix_rfl, rfl⟩

theorem Untouched.trans (first : Untouched r r') (second : Untouched r' r'') : Untouched r r'' := by
  refine ⟨first.types.trans second.types, ?_⟩
  have back :=
    congrArg (fun x : Region => { x with types := r.types, events := r.events }) second.rest
  exact back.trans first.rest

/-- Every run that returns leaves the region untouched. -/
def Harmless (m : Edit α) : Prop := ∀ r, Meets m r (fun _ => True) fun _ r' => Untouched r r'

/-- No result of the edit is quiet. -/
def Loud (quiet : α → Prop) (m : Edit α) : Prop :=
  ∀ r, Meets m r (fun _ => True) fun a _ => ¬quiet a

/-- A run with a quiet result leaves the region untouched, and the result is `ok`. -/
def Honest (quiet ok : α → Prop) (m : Edit α) : Prop :=
  ∀ r, Meets m r (fun _ => True) fun a r' => quiet a → ok a ∧ Untouched r r'

/-- The flag is off only if nothing changed and `n` stays. -/
abbrev HonestPass (n : NodeId) : Edit (NodeId × Bool) → Prop := Honest (·.2 = false) (·.1 = n)

/-! ### Harmless edits -/

namespace Harmless

theorem pure (a : α) : Harmless (Pure.pure a : Edit α) := fun _ => .refl

theorem throw (f : Fault) : Harmless (throw f : Edit α) := fun _ => trivial

theorem get : Harmless (get : Edit Region) := fun _ => .refl

theorem ask (q : Region → Except Fault α) : Harmless (ask q) := by
  intro r
  rw [meets_ask]
  exact yields_iff.mpr ⟨fun _ _ => .refl, fun _ _ => trivial⟩

theorem lift (x : Except Fault α) : Harmless (liftM x : Edit α) := by
  intro r
  rw [meets_lift]
  exact yields_iff.mpr ⟨fun _ _ => .refl, fun _ _ => trivial⟩

theorem bind {m : Edit α} {f : α → Edit β} (first : Harmless m) (next : ∀ a, Harmless (f a)) :
    Harmless (m >>= f) := by
  intro r
  refine Meets.bind (first r) fun a r' before => ?_
  exact (next a r').to fun _ _ after => before.trans after

theorem ite {c : Prop} [Decidable c] {m f : Edit α} (yes : Harmless m) (no : Harmless f) :
    Harmless (if c then m else f) := by
  split
  · exact yes
  · exact no

theorem and {m f : Edit Bool} (first : Harmless m) (second : Harmless f) : Harmless (m <&&> f) := by
  refine first.bind fun a => ?_
  cases a
  · exact pure _
  · exact second

theorem or {m f : Edit Bool} (first : Harmless m) (second : Harmless f) : Harmless (m <||> f) := by
  refine first.bind fun a => ?_
  cases a
  · exact second
  · exact pure _

theorem report (e : Event) : Harmless (report e) := fun _ => ⟨List.prefix_rfl, rfl⟩

theorem intern (t : Ty) : Harmless (intern t) := by
  intro r
  refine Meets.bind (P := fun _ r' => Untouched r r') ?_ fun _ _ => id
  rw [meets_modify]
  split
  · exact .refl
  · exact ⟨by simp, rfl⟩

theorem require (holds : Bool) (v : Violation) : Harmless (require s holds v) :=
  ite (pure _) (ite (throw _) ((report _).bind fun _ => pure _))

theorem node : Harmless (node n) := ask _

theorem kid : Harmless (kid n i) := ask _

theorem layout : Harmless layout := get.bind fun _ => pure _

theorem operands : Harmless (operands n) := kid.bind fun _ => kid.bind fun _ => pure _

end Harmless

/-! ### Loud edits -/

namespace Loud

variable {quiet : α → Prop}

theorem pure {a : α} (h : ¬quiet a) : Loud quiet (Pure.pure a : Edit α) := fun _ => h

/-- Only the last part of an edit decides whether it is loud. -/
theorem bind {m : Edit β} {f : β → Edit α} (next : ∀ b, Loud quiet (f b)) :
    Loud quiet (m >>= f) := by
  intro r
  have any : Meets m r (fun _ => True) fun _ _ => True :=
    meets_iff.mpr ⟨fun _ _ _ => trivial, fun _ _ => trivial⟩
  exact Meets.bind any fun b r' _ => next b r'

end Loud

/-! ### Honest edits -/

theorem invertBranch_quiet {cond : NodeId} :
    Meets (invertBranch n cond) r (fun _ => True) fun out r' => out = false → Untouched r r' :=
  invertBranch_meets (fun _ _ => trivial) (fun _ => .refl) fun _ _ _ _ _ _ _ off =>
    Bool.noConfusion off

/-- The mark is off only as long as nothing changed. -/
theorem Composed.marks {o : Options} {b b' whole c : Bool} {m m' : Edit α} {Q : Bool → α → Prop}
    (made : Composed ⟨o, b, b', whole⟩ c m m' Q) (r₀ : Region) :
    ∀ r, (c = false → Untouched r₀ r) →
      Meets m r (fun _ => True) fun a r' => ∃ c', (c' = false → Untouched r₀ r') ∧ Q c' a := by
  have harmless {α : Type} {c : Bool} {m : Edit α} (h : Harmless m) :
      ∀ r, (c = false → Untouched r₀ r) → Meets m r (fun _ => True) fun a r' =>
        ∃ c', (c' = false → Untouched r₀ r') ∧ Unmarked c c' a :=
    fun r start => (h r).to fun _ _ log => ⟨c, fun off => (start off).trans log, rfl⟩
  have any {α : Type} {m : Edit α} (r : Region) :
      Meets m r (fun _ => True) fun a r' => ∃ c', (c' = false → Untouched r₀ r') ∧ Any c' a :=
    meets_iff.mpr ⟨fun _ _ _ => ⟨true, fun off => Bool.noConfusion off, trivial⟩,
      fun _ _ => trivial⟩
  induction made with
  | pure q => exact fun r start => ⟨_, start, q⟩
  | throw _ => exact fun _ _ => trivial
  | bind _ _ first next =>
    exact fun r start => Meets.bind (first r start) fun a r' there =>
      there.elim fun c' told => next c' a told.2 r' told.1
  | ask => exact harmless (.ask _)
  | lift => exact harmless (.lift _)
  | get _ _ next => exact fun r start => next r r start
  | node _ _ next =>
    exact fun r start => Meets.bind (Harmless.node r) fun d r' log =>
      next d r' fun off => (start off).trans log
  | report => exact harmless (.report _)
  | intern => exact harmless (.intern _)
  | require => exact harmless (.require _ _)
  | change => exact fun r _ => any r
  | checkEdges => exact fun r _ => any r
  | @invertBranch c _ _ =>
    intro r start
    refine invertBranch_quiet.to fun out r' log => ?_
    refine ⟨out || c, fun off => ?_, fun off => by simp [off]⟩
    obtain ⟨quiet, off⟩ := Bool.or_eq_false_iff.mp off
    exact (start off).trans (log quiet)

/-- An edit is honest if its quiet results leave the mark as it was. -/
theorem Composed.honest {o : Options} {b : Bool} {m : Edit α} {quiet ok : α → Prop}
    (made : Uniform ⟨o, b, b, true⟩ false m (Telling quiet ok false)) : Honest quiet ok m := by
  intro r
  refine (made.marks r r fun _ => .refl).to fun a r' there still => ?_
  obtain ⟨c', log, told⟩ := there
  obtain ⟨fine, off⟩ := told still
  exact ⟨fine, log off⟩

theorem foldBinary_honest : Honest (· = none) (fun _ => True) (foldBinary s n) :=
  Composed.honest (Composed.foldBinary.imp fun _ _ told none => ⟨trivial, told none⟩)

theorem foldTree_honest : HonestPass n (foldTree s n) := Composed.foldTree.honest

theorem refineExpr_honest : HonestPass n (refineExpr s n) := Composed.refineExpr.honest

/-- The changed flag can be trusted: where `refine` leaves a node in place and reports no change,
it is the node itself, and nothing in the region but the types on record and the events differs
from before. -/
theorem refine_unchanged {m : NodeId} {unlinked : Bool}
    (h : (refine s n).run r = .ok (⟨some m, false, unlinked⟩, r')) : m = n ∧ Untouched r r' := by
  have honest : Honest (·.changed = false) (·.node = some n) (refine s n) := Composed.refine.honest
  obtain ⟨same, untouched⟩ := (meets_iff.mp (honest r)).1 _ _ h rfl
  exact ⟨Option.some.inj same, untouched⟩

/-- `$3 = $1 + $2` in 32 bits, where the right operand is unsigned. -/
def Region.mixedSum : Region :=
  { Region.empty ⟨8⟩ with
    nodes := #[
      some { Node.fresh .pr (.scalar .i32) (.ofRegister 1) [] with parent := some ⟨2⟩ },
      some { Node.fresh .pr (.scalar .u32) (.ofRegister 2) [] with parent := some ⟨2⟩ },
      some { Node.fresh .add (.scalar .i32) .none [[⟨0⟩], [⟨1⟩]] with parent := some ⟨3⟩ },
      some { Node.fresh .stpr (.scalar .i32) (.ofRegister 3) [[⟨2⟩]] with block := some ⟨0⟩ }]
    blocks := #[[⟨3⟩]]
    order := [⟨0⟩] }

/-- The common type of the operands is put on record, and that is all. -/
theorem refine_mixedSum : ∃ r',
    (refine ⟨.standard, true⟩ ⟨3⟩).run .mixedSum = .ok (⟨some ⟨3⟩, false, false⟩, r') ∧
    r'.types = #[.scalar .u32] ∧ Untouched .mixedSum r' := by
  have ends : Meets (refine ⟨.standard, true⟩ ⟨3⟩) .mixedSum (fun _ => False) fun out r' =>
      out = ⟨some ⟨3⟩, false, false⟩ ∧ r'.types = #[.scalar .u32] := by
    decide +kernel
  obtain ⟨out, r', ran⟩ := ends.returns
  obtain ⟨rfl, types⟩ := (meets_iff.mp ends).1 out r' ran
  exact ⟨r', ran, types, (refine_unchanged ran).2⟩

end Peephole
