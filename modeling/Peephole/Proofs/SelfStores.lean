import Peephole.Proofs.StoreLists
import Peephole.Proofs.Targets

/-!
# Deleted stores

A store is deleted if the value to be stored is read from the cell that it writes. A variable is
read at the type of the store, so that the store would write what is there
(`refineStore_deletes`). Of registers only the numbers are compared: a store that narrows what
its register holds is deleted as well (`refineStore_narrowing`).
-/

namespace Peephole

open Edit

variable {α : Type} {r r' r₁ : Region} {n k : NodeId} {d e : Node} {env : Env} {s : Setting}
  {pass : Pass} {c : Cell}

namespace Region

/-- A leaf has the value of the cell that it reads. -/
theorem eval_leaf (found : r.node? k = some e)
    (reads : e.code = .pr ∧ c = .reg e.attrs.reg ∨
      e.code = .ld ∧ ∃ x, e.attrs.var = some x ∧ c = .var x e.attrs.ofst) :
    r.eval env k = env.readAt r.layout c e.ty := by
  have raw : r.rawValue env (r.evalWithin env r.nodes.size) k e = .ok (env.get c) := by
    rcases reads with ⟨code, rfl⟩ | ⟨code, x, var, rfl⟩
    · simp [rawValue, code, leafValue, Op.isUnary, Op.isBinary, Env.get]
    · simp [rawValue, code, leafValue, Op.isUnary, Op.isBinary, Env.get, var]
  rw [eval, depthBound, evalWithin, node_of found]
  simp only [bind, Except.bind, raw]
  rfl

/-- The store at `n`, if it is on record with no exact location, writes a cell with what is read
from there; a variable is read at the type of the store. -/
def Idles (r : Region) (n : NodeId) : Prop :=
  ∃ d, r.node? n = some d ∧ ((r.accessOf n).must = none → ∃ c k e,
    r.storeTarget? n d = .ok (some c) ∧ r.kid n 0 = .ok k ∧ r.node? k = some e ∧
    (d.code = .st → e.ty = d.ty) ∧ ∀ env, r.eval env k = env.readAt r.layout c e.ty)

/-- So it is, at once or when the value it stores is refined. -/
def IdlesUnder (pass : Pass) (r : Region) (n : NodeId) : Prop :=
  r.Idles n ∨ ∃ changed r₁, (refineSlot pass n 0).run r = .ok (changed, r₁) ∧ r₁.Idles n

end Region

theorem isRegisterSelfCopy_idles : Meets (isRegisterSelfCopy n) r (fun _ => True) fun copy r' =>
    r' = r ∧ (copy = true → r.Idles n) := by
  simp only [isRegisterSelfCopy, Edit.kid, Edit.node, meets_bind, meets_ask, meets_pure]
  refine yields_iff.mpr ⟨fun k kid => yields_iff.mpr ⟨fun e foundE => ?_, fun _ _ => trivial⟩,
    fun _ _ => trivial⟩
  refine yields_iff.mpr ⟨fun d found => ⟨trivial, fun copy => ?_⟩, fun _ _ => trivial⟩
  simp only [Bool.and_eq_true, beq_iff_eq] at copy
  obtain ⟨⟨code, codeE⟩, same⟩ := copy
  have foundE := Region.node?_of_node foundE
  refine ⟨d, Region.node?_of_node found, fun _ => ⟨.reg d.attrs.reg, k, e, ?_, kid, foundE, ?_, ?_⟩⟩
  · simp [Region.storeTarget?, code]
  · exact fun other => absurd (code.symm.trans other) (by decide)
  · exact fun env => Region.eval_leaf foundE (.inl ⟨codeE, by rw [same]⟩)

/-- Without an exact location on record, locations are compared by name. -/
theorem sameLocation_inexact : Meets (sameLocation? n k) r (fun _ => True) fun same r' =>
    r' = r ∧ ((r.accessOf n).must = none → same = none) := by
  simp only [sameLocation?, meets_bind, meets_ask]
  refine yields_iff.mpr ⟨fun x exact => yields_iff.mpr ⟨fun y _ => ?_, fun _ _ => trivial⟩,
    fun _ _ => trivial⟩
  have unknown (none : (r.accessOf n).must = none) : x = Option.none := by
    obtain ⟨a, known, exact⟩ := bind_eq_ok.mp exact
    rw [Region.accessOf_of_access known] at none
    rw [none] at exact
    exact (Except.ok.inj exact).symm
  cases x with
  | none => exact ⟨rfl, fun _ => rfl⟩
  | some x =>
    have recorded (none : (r.accessOf n).must = none) : False := absurd (unknown none) (by simp)
    cases y <;> exact ⟨rfl, fun none => (recorded none).elim⟩

theorem storesBack_idles (found : r.node? n = some d) (kid : r.kid n 0 = .ok k) :
    Meets (storesBack n k) r (fun _ => True) fun copy r' =>
      r' = r ∧ (copy = true → r.Idles n) := by
  unfold storesBack
  refine Meets.bind sameLocation_inexact ?_
  rintro same _ ⟨rfl, unknown⟩
  cases same with
  | some same =>
    refine ⟨rfl, fun _ => ⟨d, found, fun none => ?_⟩⟩
    exact absurd (unknown none) (by simp)
  | none =>
    simp only [Edit.node, meets_bind, meets_ask, Region.node_of found, yields_ok, meets_pure]
    refine yields_iff.mpr ⟨fun e foundE => ⟨trivial, fun back => ?_⟩, fun _ _ => trivial⟩
    simp only [Bool.and_eq_true, beq_iff_eq] at back
    obtain ⟨⟨⟨⟨⟨code, codeE⟩, ty⟩, known⟩, var⟩, ofst⟩ := back
    obtain ⟨x, name⟩ := Option.isSome_iff_exists.mp known
    have foundE := Region.node?_of_node foundE
    refine ⟨d, found, fun _ => ⟨.var x d.attrs.ofst, k, e, ?_, kid, foundE, fun _ => ty.symm, ?_⟩⟩
    · simp [Region.storeTarget?, code, name]
    · exact fun env => Region.eval_leaf foundE
        (.inr ⟨codeE, x, var.symm.trans name, by rw [ofst]⟩)

theorem finishStmt_stands {changed : Bool} :
    Meets (finishStmt s n changed) r (fun _ => True) fun out _ => out.node = some n := by
  unfold finishStmt
  cases changed with
  | false => rfl
  | true => exact Meets.bind meets_run fun _ _ _ => Meets.bind meets_run fun _ _ _ => rfl

/-- A store that is deleted idles. -/
theorem refineStore_idles : Meets (refineStore s pass n) r (fun _ => True) fun out _ =>
    out.node = none → r.IdlesUnder pass n := by
  have rest : Meets (do
      let inStored ← refineSlot pass n 0
      let stored ← kid n 0
      if s.dropSelfStores && (← node stored).code ≠ .cvt then
        if ← storesBack n stored then
          fired .selfCopy n
          return .deleted (← deleteStmt n)
      let fitted ← fitStored s n 0
      finishStmt s n (inStored || fitted)) r (fun _ => True) fun out _ =>
        out.node = none → r.IdlesUnder pass n := by
    refine Meets.bind meets_run fun inStored r₁ refined => ?_
    have stands : Meets (do
        let fitted ← fitStored s n 0
        finishStmt s n (inStored || fitted)) r₁ (fun _ => True) fun out _ =>
          out.node = none → r.IdlesUnder pass n := by
      refine Meets.bind meets_run fun _ _ _ => finishStmt_stands.to fun out _ stands deleted => ?_
      rw [stands] at deleted
      cases deleted
    simp only [Edit.kid, Edit.node, meets_bind, meets_ask]
    refine yields_iff.mpr ⟨fun k kid => yields_iff.mpr ⟨fun e _ => ?_, fun _ _ => trivial⟩,
      fun _ _ => trivial⟩
    obtain ⟨d, found, _⟩ := bind_eq_ok.mp kid
    split
    · simp only [meets_bind]
      refine (storesBack_idles (Region.node?_of_node found) kid).to ?_
      rintro copy _ ⟨rfl, idles⟩
      cases copy with
      | true =>
        simp only [if_true, meets_bind, meets_pure]
        refine meets_run.to fun _ _ _ => meets_run.to fun _ _ _ _ => ?_
        exact .inr ⟨inStored, _, refined, idles rfl⟩
      | false => exact stands
    · exact stands
  unfold refineStore
  by_cases drops : s.dropSelfStores = true
  · rw [if_pos drops]
    refine Meets.bind isRegisterSelfCopy_idles ?_
    rintro copy _ ⟨rfl, idles⟩
    cases copy with
    | true =>
      simp only [if_true, meets_bind, meets_pure]
      refine meets_run.to fun _ _ _ => meets_run.to fun _ _ _ _ => ?_
      exact .inl (idles rfl)
    | false => exact rest
  · rw [if_neg drops]
    exact rest

/-- The values of `q` are values of `t`: the types are the same, or `t` is wider and has a sign if
`q` has. -/
def Ty.Covers (l : Layout) (t q : Ty) : Prop :=
  q = t ∨ t.isWord = true ∧ q.byteSize l < t.byteSize l ∧ (t.isSigned = true ∨ q.isSigned = false)

/-- A value that is read at a type is one of every type that covers it. -/
theorem Ty.Covers.normalize {l : Layout} {t q : Ty} {v : Value} (covers : t.Covers l q)
    (small : q.isSmall = true) (read : env.readAt l c q = .ok (some v)) :
    v.normalize l t = .ok v := by
  obtain ⟨x, _, rfl⟩ : ∃ x, env.get c = some x ∧ v = .int (x.word l q) := by
    rw [Env.readAt] at read
    cases held : env.get c with
    | none => simp [held, Option.mapM, pure, Except.pure] at read
    | some x =>
      simp only [held, Option.mapM, Value.normalize_small small, Functor.map, Except.map,
        Except.ok.injEq, Option.some.injEq] at read
      exact ⟨x, rfl, read.symm⟩
  have range : q.wrapInt l (x.word l q) = x.word l q := by
    cases x <;> exact wrapInt_wrapInt small _
  have smallT : t.isSmall = true := by
    rcases covers with rfl | ⟨word, _⟩
    · exact small
    · exact isSmall_of_isWord word
  have kept : t.wrapInt l (x.word l q) = x.word l q := by
    rcases covers with rfl | ⟨word, wider⟩
    · exact range
    · exact wrapInt_of_narrower small word (.inr wider) range
  rw [Value.normalize_small smallT]
  exact congrArg (fun w => Except.ok (Value.int w)) kept

/-- A store without an access record is deleted only if the value it stores, refined or as it
was, is read from the cell that it writes. A variable store reads this at its own type. Where its
type covers the one at which the cell is read, the store would leave the value as it is. -/
theorem refineStore_deletes (s : Setting) {out : Outcome} (found : r.node? n = some d)
    (unrecorded : d.record = none) (run : (refineStore s (refineExpr s) n).run r = .ok (out, r'))
    (deleted : out.node = none) :
    ∃ r₁ d₁ c k e,
      (r₁ = r ∨ ∃ changed, (refineSlot (refineExpr s) n 0).run r = .ok (changed, r₁)) ∧
      r₁.node? n = some d₁ ∧ r₁.storeTarget? n d₁ = .ok (some c) ∧
      r₁.kid n 0 = .ok k ∧ r₁.node? k = some e ∧
      (∀ env, r₁.eval env k = env.readAt r₁.layout c e.ty) ∧ (d₁.code = .st → e.ty = d₁.ty) ∧
      (e.ty.isSmall = true → d₁.ty.Covers r₁.layout e.ty →
        ∀ env v, r₁.eval env k = .ok (some v) → v.normalize r₁.layout d₁.ty = .ok v) := by
  obtain ⟨r₁, origin, inexact, d₁, found₁, idles⟩ : ∃ r₁,
      (r₁ = r ∨ ∃ changed, (refineSlot (refineExpr s) n 0).run r = .ok (changed, r₁)) ∧
      (r₁.accessOf n).must = none ∧ r₁.Idles n := by
    rcases (meets_iff.mp refineStore_idles).1 out r' run deleted with idles | ⟨_, r₁, ran, idles⟩
    · have clean := Region.accessOf_of_none ((Region.recordOf_of found).trans unrecorded)
      exact ⟨r, .inl rfl, by rw [clean]; rfl, idles⟩
    · exact ⟨r₁, .inr ⟨_, ran⟩, refineSlot_inexact found unrecorded ran, idles⟩
  obtain ⟨c, k, e, target, kid, foundE, typed, reads⟩ := idles inexact
  refine ⟨r₁, d₁, c, k, e, origin, found₁, target, kid, foundE, reads, typed, ?_⟩
  exact fun small covers env v value => covers.normalize small (reads env ▸ value)

/-- A store of 32 bits of a variable to itself. -/
def Region.selfStore : Region :=
  { Region.empty ⟨8⟩ with
    nodes := #[
      some (.fresh .st (.scalar .i32) (.ofVar ⟨0⟩ 4) [[⟨1⟩]]),
      some { Node.fresh .ld (.scalar .i32) (.ofVar ⟨0⟩ 4) [] with parent := some ⟨0⟩ }] }

theorem refineStore_selfStore : ∃ (out : Outcome) (r' r₁ : Region) (c : Cell) (k : NodeId) (t : Ty),
    (refineStore ⟨.standard, true⟩ (refineExpr ⟨.standard, true⟩) ⟨0⟩).run .selfStore =
      .ok (out, r') ∧ out.node = none ∧ r₁.kid ⟨0⟩ 0 = .ok k ∧
    ∀ env, r₁.eval env k = env.readAt r₁.layout c t := by
  have ends : Meets (refineStore ⟨.standard, true⟩ (refineExpr ⟨.standard, true⟩) ⟨0⟩) .selfStore
      (fun _ => False) fun out _ => out.node = none := by
    decide +kernel
  obtain ⟨out, r', run⟩ := ends.returns
  have deleted := (meets_iff.mp ends).1 out r' run
  obtain ⟨r₁, _, c, k, e, _, _, _, kid, _, reads, _⟩ := refineStore_deletes _ rfl rfl run deleted
  exact ⟨out, r', r₁, c, k, e.ty, run, deleted, kid, reads⟩

/-- A store of the 32 bits of a register to itself, in 8 bits. -/
def Region.narrowingStore : Region :=
  { Region.empty ⟨8⟩ with
    nodes := #[
      some (.fresh .stpr (.scalar .i8) (.ofRegister 1) [[⟨1⟩]]),
      some { Node.fresh .pr (.scalar .i32) (.ofRegister 1) [] with parent := some ⟨0⟩ }] }

/-- It is deleted, though it would turn `300` into `44`. -/
theorem refineStore_narrowing :
    Region.narrowingStore.eval (Env.empty.setReg 1 (.int 300)) ⟨1⟩ = .ok (some (.int 300)) ∧
    (Value.int 300).normalize ⟨8⟩ (.scalar .i8) = .ok (.int 44) ∧
    ∃ out r', (refineStore ⟨.standard, true⟩ (refineExpr ⟨.standard, true⟩) ⟨0⟩).run
      .narrowingStore = .ok (out, r') ∧ out.node = none := by
  have ends : Meets (refineStore ⟨.standard, true⟩ (refineExpr ⟨.standard, true⟩) ⟨0⟩)
      .narrowingStore (fun _ => False) fun out _ => out.node = none := by
    decide +kernel
  obtain ⟨out, r', run⟩ := ends.returns
  exact ⟨rfl, rfl, out, r', run, (meets_iff.mp ends).1 out r' run⟩

end Peephole
