import Peephole.Proofs.Branching
import Peephole.Proofs.Repose
import Peephole.Proofs.Targets

/-!
# Statements over one tree

Stores, returns and branches hold one tree of integer operators, next to the address of an
indirect store; loops and conditionals hold one as their condition. What refinement does to such a
statement where no edges are maintained, and when it leaves the statement alone.
-/

namespace Peephole

open Edit Peephole.Tree

variable {s : Setting} {l : Layout} {r r' r₁ : Region} {n k : NodeId} {d : Node}
  {front : List NodeId}
  {rest : List (List NodeId)} {e : Term} {below : List NodeId} {P : Term → Prop} {B : Tree → Prop}
  {F : Fault → Prop} {out : NodeId × Bool} {c : Bool}

/-- The node `n`, of the shape `d`, is a statement over the tree at `k`. Addresses stand before the
tree, and other statements after it. -/
structure Over (l : Layout) (r : Region) (n : NodeId) (d : Node) (front : List NodeId)
    (rest : List (List NodeId)) (k : NodeId) (e : Term) (below : List NodeId) : Prop where
  shape : r.shape true n = some d
  slots : d.slots = front.map ([·]) ++ [k] :: rest
  ssa : d.ssa = none
  listed : ∀ b, d.block = some b → b.index < r.blocks.size
  address : ∀ m ∈ front, ∃ code ty attrs, (code = .lda ∨ code = .pr) ∧
    r.shape true m = some (.fresh code ty attrs [])
  tree : Stands .idle l r e k below
  distinct : (n :: (front ++ below)).Nodup

/-- What refinement made of the tree at `k`: one with `P` that bears `B`; if no change is reported
it is the same tree. -/
def Remade (l : Layout) (r : Region) (k : NodeId) (below : List NodeId) (P : Term → Prop)
    (B : Tree → Prop) (out : NodeId × Bool) (r' : Region) : Prop :=
  ∃ e' below', Stands .idle l r' e' out.1 below' ∧ Within r below below' ∧ Kept .idle r r' below ∧
    P e' ∧ r'.Bears B out.1 below' ∧ (out.2 = false → out.1 = k ∧ Untouched r r')

theorem refineExpr_remakes (h : Stands .idle l r e k below) :
    Meets (refineExpr s k) r (fun _ => False)
      (Remade l r k below (fun e' => e'.ty = e.ty) (Settled s l false)) := by
  have refines : Meets (refineExpr s k) r (fun _ => False) fun out r' =>
      Turns .idle l r below (e.Refines l) out.1 r' :=
    (refineExpr_refining r k below h).imp (fun _ => by simp) fun _ _ => id
  refine ((refines.and meets_run).and (refineExpr_honest r)).to ?_
  rintro out r' ⟨⟨⟨e', below', stands, within, kept, refined⟩, run⟩, honest⟩
  have typed : e.typed r.layout = true := by rw [h.layout, h.typed]
  have bears := refineExpr_bears h.spells typed run stands.spells
  rw [h.layout] at bears
  exact ⟨e', below', stands, within, kept, refined.ty, bears, honest⟩

theorem refineDeterminant_remakes (h : Stands .idle l r e k below) :
    Meets (refineDeterminant s k) r (fun _ => False)
      (Remade l r k below (fun e' => e'.code.isJudge = true) (Decided s l)) := by
  have decides : Meets (refineDeterminant s k) r (fun _ => False) fun out r' =>
      Turns .idle l r below (fun p => e.Decides l p ∧ p.code.isJudge = true) out.1 r' :=
    (refineCondition_decides refineExpr_refining
      (fun _ _ _ _ _ => ⟨refineExpr_refining, refineExpr_refining⟩) h).imp (fun _ => by simp)
      fun _ _ => id
  refine ((decides.and meets_run).and (refineDeterminant_honest r)).to ?_
  rintro out r' ⟨⟨⟨e', below', stands, within, kept, _, judge⟩, run⟩, honest⟩
  have typed : e.typed r.layout = true := by rw [h.layout, h.typed]
  have typed' : e'.typed r'.layout = true := by rw [stands.layout, stands.typed]
  have bears := refineDeterminant_bears h.spells typed run stands.spells typed' judge
  rw [h.layout] at bears
  exact ⟨e', below', stands, within, kept, judge, bears, honest⟩

namespace Over

/-- The statement over what was made of its tree. -/
def Renewed (l : Layout) (r : Region) (n : NodeId) (d : Node) (front : List NodeId)
    (rest : List (List NodeId)) (k : NodeId) (below : List NodeId) (P : Term → Prop)
    (B : Tree → Prop) (c : Bool) (r' : Region) : Prop :=
  ∃ k' e' below', Over l r' n (d.holding front.length [k']) front rest k' e' below' ∧ P e' ∧
    r'.Bears B k' below' ∧ Within r below below' ∧ Kept .idle r r' (n :: below) ∧
    (c = false → k' = k ∧ Untouched r r')

variable (h : Over l r n d front rest k e below)
include h

theorem apart : n ∉ below := by
  have distinct := h.distinct
  simp_all

theorem front_apart : ∀ m ∈ front, m ≠ n ∧ m ∉ below := by
  have distinct := h.distinct
  grind

theorem mem_lt : ∀ m ∈ n :: (front ++ below), m.index < r.nodes.size := by
  intro m mem
  simp only [List.mem_cons, List.mem_append] at mem
  rcases mem with rfl | mem | mem
  · exact Region.lt_size_of_shape h.shape
  · obtain ⟨_, _, _, _, shape⟩ := h.address m mem
    exact Region.lt_size_of_shape shape
  · exact h.tree.lt_size mem

theorem kid : r.kid n front.length = .ok k := by
  obtain ⟨x, found, rfl⟩ := Option.map_eq_some_iff.mp h.shape
  have slots : x.slots = front.map ([·]) ++ [k] :: rest := h.slots
  have slot : x.slots[front.length]? = some [k] := by simp [slots]
  exact Region.kid_of found slot

theorem holding_self : d.holding front.length [k] = d := by
  have same : d.slots.set front.length [k] = d.slots := by simp [h.slots]
  rw [Node.holding, same]

theorem congr (shape : ∀ m ∈ n :: (front ++ below), r'.shape true m = r.shape true m)
    (grown : Grown .idle r r') : Over l r' n d front rest k e below := by
  refine ⟨(shape n List.mem_cons_self).trans h.shape, h.slots, h.ssa,
    fun b eq => grown.blocks.symm ▸ h.listed b eq, fun m mem => ?_, ?_, h.distinct⟩
  · obtain ⟨code, ty, attrs, known, found⟩ := h.address m mem
    have same := shape m (List.mem_cons_of_mem _ (List.mem_append_left _ mem))
    exact ⟨code, ty, attrs, known, same.trans found⟩
  · refine h.tree.congr (fun m mem => ?_) grown
    exact shape m (List.mem_cons_of_mem _ (List.mem_append_right _ mem))

theorem edited (other : Edited .idle r r' (r.shape true)) : Over l r' n d front rest k e below :=
  h.congr (fun _ _ => by rw [other.shape]) other.grown

/-- The statement after its tree has been made anew, and put in its place. -/
theorem renewed {k' : NodeId} (made : Remade l r k below P B (k', c) r₁)
    (placed : k' = k ∧ r' = r₁ ∨ k' ≠ k ∧ Edited .idle r₁ r' (Function.update (r₁.shape true) n
      (some (d.holding front.length [k'])))) :
    Renewed l r n d front rest k below P B c r' := by
  obtain ⟨e', below', stands, within, kept, holds, bears, honest⟩ := made
  have old := h.mem_lt
  have last : Kept .idle r₁ r' [n] ∧ r'.shape true n = some (d.holding front.length [k']) := by
    rcases placed with ⟨rfl, rfl⟩ | ⟨_, edited⟩
    · refine ⟨.refl, ?_⟩
      rw [h.holding_self, kept.shape n h.apart (old n List.mem_cons_self), h.shape]
    · exact ⟨edited.kept_node, edited.shape_node⟩
  obtain ⟨last, shape⟩ := last
  have fresh : ∀ m ∈ below', m ≠ n ∧ m ∉ front := by
    intro m mem
    rcases within m mem with mem | new
    · exact ⟨fun eq => h.apart (eq ▸ mem), fun other => (h.front_apart m other).2 mem⟩
    · constructor
      · rintro rfl
        exact absurd (old m List.mem_cons_self) (Nat.not_lt.mpr new)
      · intro other
        exact absurd (old m (List.mem_cons_of_mem _ (List.mem_append_left _ other)))
          (Nat.not_lt.mpr new)
  have both : Kept .idle r r' (n :: below) :=
    (kept.mono fun m mem => List.mem_cons_of_mem n mem).trans last
      fun m mem => .inl (List.mem_singleton.mp mem ▸ List.mem_cons_self)
  have slots : (d.holding front.length [k']).slots = front.map ([·]) ++ [k'] :: rest := by
    simp [Node.holding, h.slots]
  refine ⟨k', e', below', ⟨shape, slots, h.ssa, fun b eq => both.grown.blocks.symm ▸ h.listed b eq,
    fun m mem => ?_, ?_, ?_⟩, holds, ?_, within, both, fun none => ?_⟩
  · obtain ⟨code, ty, attrs, known, found⟩ := h.address m mem
    obtain ⟨other, outside⟩ := h.front_apart m mem
    refine ⟨code, ty, attrs, known, (both.shape m ?_ ?_).trans found⟩
    · simp [other, outside]
    · exact old m (List.mem_cons_of_mem _ (List.mem_append_left _ mem))
  · exact stands.kept_node last fun mem => (fresh n mem).1 rfl
  · have distinct := h.distinct
    have nodup := stands.spells.nodup
    grind
  · refine bears.congr fun m mem => last.shape m ?_ (stands.lt_size mem)
    simpa using (fresh m mem).1
  · obtain ⟨same, untouched⟩ := honest none
    obtain ⟨_, rfl⟩ := placed.resolve_right fun moved => moved.1 same
    exact ⟨same, untouched⟩

/-- Writing what was made of the tree back into the statement. -/
theorem refill_meets {k' : NodeId} (made : Remade l r k below P B (k', c) r₁) :
    Meets (do
      if k' ≠ k then setKid n front.length (some k')
      return c) r₁ F fun c r' => Renewed l r n d front rest k below P B c r' := by
  by_cases same : k' = k
  · simp only [same, ne_eq, not_true_eq_false, if_false, meets_pure]
    exact h.renewed (same ▸ made) (.inl ⟨rfl, rfl⟩)
  · simp only [ne_eq, same, not_false_eq_true, if_true, meets_bind, meets_pure]
    obtain ⟨_, _, stands, _, kept, _⟩ := id made
    have shape := (kept.shape n h.apart (h.mem_lt n List.mem_cons_self)).trans h.shape
    obtain ⟨x, found, rfl⟩ := Option.map_eq_some_iff.mp shape
    have slots : x.slots = front.map ([·]) ++ [k] :: rest := h.slots
    have live : r₁.Live k' := stands.spells.live stands.spells.root_mem
    refine (setKid_edits .idle found (by simp [slots]) live).to fun _ r' set => ?_
    exact h.renewed made (.inr ⟨same, set⟩)

/-- Refining the tree of a statement. -/
theorem refineSlot_meets : Meets (refineSlot (refineExpr s) n front.length) r (fun _ => False)
    (Renewed l r n d front rest k below (fun e' => e'.ty = e.ty) (Settled s l false)) := by
  simp only [refineSlot, meets_bind, meets_ask, Region.kid?_of_kid h.kid, yields_ok]
  refine (refineExpr_remakes h.tree).to ?_
  rintro ⟨k', c⟩ r₁ made
  exact h.refill_meets made

/-- Refining the condition of a statement. -/
theorem refineConditionSlot_meets (first : front = []) :
    Meets (refineConditionSlot s n) r (fun _ => False)
      (Renewed l r n d front rest k below (fun e' => e'.code.isJudge = true) (Decided s l)) := by
  subst first
  have kid : r.kid n 0 = .ok k := h.kid
  simp only [refineConditionSlot, Edit.kid, meets_bind, meets_ask, kid, yields_ok]
  refine (refineDeterminant_remakes h.tree).to ?_
  rintro ⟨k', c⟩ r₁ made
  exact h.refill_meets made

/-- A tree that rests is left in its place. -/
theorem refineSlot_gives (settled : r.Bears (Settled s l false) k below) :
    Gives (refineSlot (refineExpr s) n front.length) r false := by
  obtain rfl := h.tree.layout
  exact refineSlot_rests h.kid (settled.refineExpr_gives h.tree.spells h.tree.typed)

theorem refineConditionSlot_gives (first : front = []) (decided : r.Bears (Decided s l) k below) :
    Gives (refineConditionSlot s n) r false := by
  subst first
  obtain rfl := h.tree.layout
  have kid : r.kid n 0 = .ok k := h.kid
  have rests := decided.refineDeterminant_gives h.tree.spells h.tree.typed
  refine gives_iff.mpr ?_
  simp only [refineConditionSlot, Edit.kid, meets_bind, meets_ask, kid, yields_ok, rests.meets,
    ne_eq, not_true_eq_false, if_false, meets_pure, and_self]

/-- A stored tree of the type of the store fits. -/
theorem fitStored_gives (fits : e.ty = d.ty) : Gives (fitStored s n front.length) r false := by
  obtain ⟨x, found, rfl⟩ := Option.map_eq_some_iff.mp h.shape
  obtain ⟨c, foundK, reads⟩ := h.tree.reads
  have small := Term.isSmall_of_typed h.tree.typed
  have same : c.ty = x.ty := reads.ty.trans fits
  refine gives_iff.mpr ?_
  unfold fitStored
  by_cases asked : s.insertCvt = true
  · simp only [asked, if_true, Edit.node, meets_bind, meets_ask, Region.node_of found, yields_ok,
      fitSlot, Edit.kid, h.kid]
    rw [← reads.ty] at small
    refine (fitOperand_meets foundK small (same ▸ small) (same ▸ le_rfl)).to ?_
    rintro _ _ ⟨rfl, rfl⟩
    simp
  · simp [asked]

end Over

section single

variable (h : Over l r n d front [] k e below)
include h

namespace Over

theorem plain : Plain (r.shape true) (front ++ below) := by
  intro m mem
  rcases List.mem_append.mp mem with mem | mem
  · obtain ⟨code, ty, attrs, _, shape⟩ := h.address m mem
    exact ⟨code, ty, attrs, [], shape⟩
  · exact h.tree.spells.plain m mem

/-- The trees below the statement. -/
theorem trees : Grove r.kidsOf d.kids (front ++ below) := by
  have kids : d.kids = front ++ [k] := by
    rw [Node.kids, h.slots, List.flatten_append, ← List.flatMap_def, List.flatMap_singleton']
    rfl
  have leaves {ms : List NodeId} (sub : ∀ m ∈ ms, m ∈ front) : Grove r.kidsOf ms ms := by
    induction ms with
    | nil => exact .nil
    | cons m ms ih =>
      obtain ⟨_, _, _, _, shape⟩ := h.address m (sub m List.mem_cons_self)
      have leaf : Grove r.kidsOf [m] [m] := Grove.singleton_iff.mpr
        ⟨[], [], by rw [@Region.kidsOf_shape true, shape]; rfl, .nil, rfl⟩
      exact leaf.append (ih fun x mem => sub x (List.mem_cons_of_mem m mem))
  rw [kids]
  exact (leaves fun _ => id).append h.tree.spells.tree

theorem live : ∀ m ∈ d.kids, r.Live m := by
  intro m mem
  obtain ⟨_, _, _, _, shape⟩ := h.plain m (h.trees.roots_mem m mem)
  exact Region.live_of_shape shape

theorem finishStmt_meets : Meets (finishStmt s n c) r F fun out r' =>
    out = .stands n c ∧ Edited .idle r r' (r.shape true) ∧ (c = false → r' = r) := by
  obtain ⟨x, found, rfl⟩ := Option.map_eq_some_iff.mp h.shape
  cases c with
  | false => exact ⟨rfl, .refl, fun _ => rfl⟩
  | true =>
    refine (finishStmt_edits .idle found h.live (h.tree.calm.edges (by simp))).to ?_
    exact fun out r' finished => ⟨finished.1, finished.2, fun off => Bool.noConfusion off⟩

theorem deleteStmt_meets : Meets (deleteStmt n) r (fun _ => False) fun _ r' =>
    Kept .idle r r' (n :: (front ++ below)) := by
  obtain ⟨x, found, rfl⟩ := Option.map_eq_some_iff.mp h.shape
  exact deleteStmt_kept .idle (by simp) found h.ssa h.listed (by simp) h.trees h.plain h.distinct
    h.tree.calm

/-- A note, and the statement is gone. -/
theorem drop_meets (rule : Rule) : Meets (do
    fired rule n
    return Outcome.deleted (← deleteStmt n)) r (fun _ => False) fun out r' =>
      (∃ unlinked, out = .deleted unlinked) ∧ Kept .idle r r' (n :: (front ++ below)) := by
  refine Meets.bind (fired_meets .idle rule n) fun _ r₁ noted => ?_
  refine Meets.bind (h.edited noted).deleteStmt_meets fun unlinked r' dropped => ?_
  exact ⟨⟨unlinked, rfl⟩, noted.kept_same.trans dropped .refl⟩

end Over

end single

/-! ### Stores -/

namespace Region

/-- The register store at `n` stores the register itself. -/
def CopiesRegister (r : Region) (n k : NodeId) : Prop :=
  ∃ d c, r.shape true n = some d ∧ r.shape true k = some c ∧ d.code = .stpr ∧ c.code = .pr ∧
    c.attrs.reg = d.attrs.reg

/-- The store at `n` writes the location that `k` reads. Where one of them is not known exactly,
names decide. -/
def Restores (r : Region) (n k : NodeId) : Prop :=
  ∃ d c, r.shape true n = some d ∧ r.shape true k = some c ∧ c.code ≠ .cvt ∧
    ((∃ x, r.exactRef? n = .ok (some x) ∧ r.exactRef? k = .ok (some x)) ∨
      (r.exactRef? n = .ok none ∨ r.exactRef? k = .ok none) ∧ d.code = .st ∧ c.code = .ld ∧
        d.ty = c.ty ∧ d.attrs.var.isSome = true ∧ d.attrs.var = c.attrs.var ∧
        d.attrs.ofst = c.attrs.ofst)

end Region

/-- Refinement does not delete the store of `k` at `n`. -/
def Lasts (s : Setting) (r : Region) (n k : NodeId) : Prop :=
  s.dropSelfStores = true → ¬r.CopiesRegister n k ∧ ¬r.Restores n k

theorem Lasts.congr (h : Lasts s r n k)
    (shape : ∀ m, m = n ∨ m = k → r'.shape true m = r.shape true m)
    (refs : ∀ m, m = n ∨ m = k → r'.exactRef? m = r.exactRef? m) : Lasts s r' n k := by
  unfold Lasts Region.CopiesRegister Region.Restores at h ⊢
  rwa [shape n (.inl rfl), shape k (.inr rfl), refs n (.inl rfl), refs k (.inr rfl)]

/-- What is left to do for a store once its tree is refined. -/
def closeStore (s : Setting) (n : NodeId) (inStored : Bool) : Edit Outcome := do
  let stored ← kid n 0
  if s.dropSelfStores && (← node stored).code ≠ .cvt then
    if ← storesBack n stored then
      fired .selfCopy n
      return .deleted (← deleteStmt n)
  let fitted ← fitStored s n 0
  finishStmt s n (inStored || fitted)

/-- How the refinement of a store ends whose tree at `k` is refined: the store is deleted because it
writes what `k` reads, or stands. -/
def StoreEnds (s : Setting) (r : Region) (n k : NodeId) (below : List NodeId) (c : Bool)
    (out : Outcome) (r' : Region) : Prop :=
  (s.dropSelfStores = true ∧ r.Restores n k) ∧ (∃ unlinked, out = .deleted unlinked) ∧
    Kept .idle r r' (n :: below) ∨
  ¬(s.dropSelfStores = true ∧ r.Restores n k) ∧ out = .stands n c ∧
    Edited .idle r r' (r.shape true) ∧ (c = false → r' = r)

namespace Over

variable (h : Over l r n d [] [] k e below)
include h

theorem isRegisterSelfCopy_meets : Meets (isRegisterSelfCopy n) r F fun copy r' =>
    r' = r ∧ (copy = true ↔ r.CopiesRegister n k) := by
  have kid : r.kid n 0 = .ok k := h.kid
  obtain ⟨x, found, rfl⟩ := Option.map_eq_some_iff.mp h.shape
  obtain ⟨c, foundK, _⟩ := h.tree.reads
  have shapeK : r.shape true k = some (c.bare true) := by rw [Region.shape, foundK, Option.map_some]
  simp only [isRegisterSelfCopy, Edit.kid, Edit.node, meets_bind, meets_ask, kid, yields_ok,
    Region.node_of found, Region.node_of foundK, meets_pure, Bool.and_eq_true, beq_iff_eq, true_and,
    Region.CopiesRegister, h.shape, shapeK, Option.some.injEq]
  constructor
  · rintro ⟨⟨code, codeK⟩, same⟩
    exact ⟨_, _, rfl, rfl, code, codeK, same⟩
  · rintro ⟨_, _, rfl, rfl, code, codeK, same⟩
    exact ⟨⟨code, codeK⟩, same⟩

theorem storesBack_meets (other : e.code ≠ .cvt) : Meets (storesBack n k) r F fun back r' =>
    r' = r ∧ (back = true ↔ r.Restores n k) := by
  have unlinked : r.Unlinked := h.tree.calm
  obtain ⟨x, found, rfl⟩ := Option.map_eq_some_iff.mp h.shape
  obtain ⟨c, foundK, reads⟩ := h.tree.reads
  have shapeK : r.shape true k = some (c.bare true) := by rw [Region.shape, foundK, Option.map_some]
  have codeK : (c.bare true).code ≠ .cvt := fun eq => other (reads.code.symm.trans eq)
  obtain ⟨y, exact⟩ := unlinked.exactRef found
  obtain ⟨z, exactK⟩ := unlinked.exactRef foundK
  have restores : r.Restores n k ↔ (∃ i, y = some i ∧ z = some i) ∨ (y = none ∨ z = none) ∧
      x.code = .st ∧ c.code = .ld ∧ x.ty = c.ty ∧ x.attrs.var.isSome = true ∧
      x.attrs.var = c.attrs.var ∧ x.attrs.ofst = c.attrs.ofst := by
    simp only [Region.Restores, h.shape, shapeK, exact, exactK, Option.some.injEq, Except.ok.injEq]
    constructor
    · rintro ⟨_, _, rfl, rfl, _, same⟩
      exact same
    · exact fun same => ⟨_, _, rfl, rfl, codeK, same⟩
  rw [restores]
  cases y <;> cases z <;>
    simp [storesBack, sameLocation?, Edit.node, exact, exactK, Region.node_of found,
      Region.node_of foundK, and_assoc]
  exact eq_comm

theorem closeStore_meets (fits : e.ty = d.ty) :
    Meets (closeStore s n c) r (fun _ => False) (StoreEnds s r n k below c) := by
  have kid : r.kid n 0 = .ok k := h.kid
  obtain ⟨x, foundK, reads⟩ := h.tree.reads
  have finish (lasts : ¬(s.dropSelfStores = true ∧ r.Restores n k)) : Meets (do
      let fitted ← fitStored s n 0
      finishStmt s n (c || fitted)) r (fun _ => False) (StoreEnds s r n k below c) := by
    have fitted : Gives (fitStored s n 0) r false := h.fitStored_gives fits
    rw [meets_bind, fitted.meets, Bool.or_false]
    exact h.finishStmt_meets.to fun out r' finished => .inr ⟨lasts, finished⟩
  simp only [closeStore, Edit.kid, Edit.node, meets_bind, meets_ask, kid, yields_ok,
    Region.node_of foundK]
  rw [reads.code]
  split
  · rename_i asked
    obtain ⟨drops, other⟩ : s.dropSelfStores = true ∧ e.code ≠ .cvt := by simpa using asked
    rw [meets_bind]
    refine (h.storesBack_meets other).to ?_
    rintro back _ ⟨rfl, same⟩
    cases back with
    | true =>
      exact (h.drop_meets .selfCopy).to fun out r' dropped => .inl ⟨⟨drops, same.mp rfl⟩, dropped⟩
    | false => exact finish fun back => Bool.noConfusion (same.mpr back.2)
  · rename_i asked
    refine finish fun back => asked ?_
    obtain ⟨drops, _, c, _, shapeK, other, _⟩ := back
    have code : c.code = e.code := by
      rw [Region.shape, foundK, Option.map_some] at shapeK
      rw [← reads.code, ← Option.some.inj shapeK]
      rfl
    simpa [drops] using code ▸ other

/-- A store goes at once if it copies a register to itself. -/
theorem refineStore_cases {Q : Outcome → Region → Prop}
    (copies : s.dropSelfStores = true → r.CopiesRegister n k → ∀ unlinked r',
      Kept .idle r r' (n :: below) → Q (.deleted unlinked) r')
    (onward : (s.dropSelfStores = true → ¬r.CopiesRegister n k) →
      Meets (do closeStore s n (← refineSlot (refineExpr s) n 0)) r (fun _ => False) Q) :
    Meets (refineStore s (refineExpr s) n) r (fun _ => False) Q := by
  unfold refineStore
  by_cases drops : s.dropSelfStores = true
  · simp only [if_pos drops, meets_bind]
    refine h.isRegisterSelfCopy_meets.to ?_
    rintro copy _ ⟨rfl, same⟩
    cases copy with
    | true =>
      refine (h.drop_meets .selfRegisterCopy).to ?_
      rintro _ r' ⟨⟨unlinked, rfl⟩, dropped⟩
      exact copies drops (same.mp rfl) unlinked r' dropped
    | false => exact onward fun _ back => Bool.noConfusion (same.mpr back)
  · simp only [if_neg drops]
    exact onward fun on => absurd on drops

end Over

/-! ### Indirect stores -/

/-- What a store inherits does not show in the shapes. -/
theorem inheritStore_idle {st : NodeId} {ty : Ty} {attrs : Attrs} {slots : List (List NodeId)}
    {x : VarId} (unlinked : r.Unlinked) (new : r.shape true st = some (.fresh .st ty attrs slots))
    (var : attrs.var = some x) (old : r.Live n) :
    Meets (inheritStore st n) r F fun _ r' => Edited .idle r r' (r.shape true) := by
  -- none of the edits shows, so that the store is found again after each of them
  have again {r₁ : Region} (edited : Edited .idle r r₁ (r.shape true)) : r₁.Unlinked ∧
      ∃ parent record, r₁.node? st = some ⟨.st, ty, attrs, slots, parent, none, record, none⟩ := by
    have new₁ : r₁.shape true st = some (.fresh .st ty attrs slots) := by rw [edited.shape, new]
    obtain ⟨parent, record, found, _⟩ := Region.node?_of_shape new₁
    exact ⟨edited.grown.calm unlinked, parent, record, found⟩
  have edges {r₁ : Region} {m : Edit PUnit} (edited : Edited .idle r r₁ (r.shape true)) :
      Meets (do if ← hasEdges then m) r₁ F fun _ r' => Edited .idle r r' (r.shape true) := by
    have calm : r₁.hasEdges = false := edited.grown.edges.trans unlinked.edges
    simp only [Edit.hasEdges, meets_bind, meets_get, meets_pure, calm, Bool.false_eq_true, if_false]
    exact edited
  obtain ⟨_, found⟩ := old
  obtain ⟨_, _, _, foundSt⟩ := again .refl
  unfold inheritStore
  refine Meets.bind (copyAccess_idle unlinked foundSt found) fun _ r₁ copied => ?_
  obtain ⟨unlinked₁, _, _, found₁⟩ := again copied
  obtain ⟨a, access, _⟩ := unlinked₁.access found₁
  rw [meets_bind, meets_ask, access, yields_ok]
  dsimp only
  split
  · have located : Meets (locateStore st) r₁ F fun m r₂ => m.index < r₂.locations.size ∧
        Edited .idle r₁ r₂ (r₁.shape true) := by
      simp only [locateStore, locateVariable, Edit.node, meets_bind, meets_ask,
        Region.node_of found₁, yields_ok, var, meets_get, ne_eq, not_true_eq_false, if_false]
      exact register_meets .idle _
    refine Meets.bind located fun m r₂ known => ?_
    have placed := copied.trans (copied.shape ▸ known.2)
    obtain ⟨unlinked₂, _, _, found₂⟩ := again placed
    have setMust : Meets (setMust st (some m)) r₂ F fun _ r₃ =>
        Edited .idle r₂ r₃ (r₂.shape true) := by
      refine modifyAccess_idle unlinked₂ found₂ fun _ still _ => ⟨still, ?_⟩
      rintro _ ⟨⟩
      exact known.1
    refine Meets.bind setMust fun _ r₃ set => ?_
    have must := placed.trans (placed.shape ▸ set)
    obtain ⟨unlinked₃, _, _, found₃⟩ := again must
    have clearMay : Meets (clearMay st) r₃ F fun _ r₄ => Edited .idle r₃ r₄ (r₃.shape true) := by
      simp only [clearMay, modifyOwnAccess, Edit.node, meets_bind, meets_ask, Region.node_of found₃,
        yields_ok]
      split
      · exact modifyAccess_idle unlinked₃ found₃ fun _ still known => ⟨still, known⟩
      · exact .refl
    exact Meets.bind clearMay fun _ r₄ cleared => edges (must.trans (must.shape ▸ cleared))
  · exact edges copied

/-- A store through the address of a variable becomes a store into the variable. -/
theorem Over.directStore_meets {a : NodeId} {ty : Ty} {attrs : Attrs} {x : VarId}
    (h : Over l r n d [a] [] k e below) (address : r.shape true a = some (.fresh .lda ty attrs []))
    (var : attrs.var = some x) (fits : fitsOffset (attrs.ofst + d.attrs.ofst) = true) :
    Meets (directStore? n) r (fun _ => False) fun out r' => ∃ st d', out = some st ∧
      Over l r' st d' [] [] k e below ∧ d'.code = .st ∧ d'.ty = d.ty ∧ r.nodes.size ≤ st.index ∧
      Kept .idle r r' [n, a] := by
  have old := h.mem_lt
  have distinct := h.distinct
  obtain ⟨other, outside⟩ := h.front_apart a List.mem_cons_self
  obtain ⟨⟨code, t, attrs', slots, parent, block, record, ssa⟩, found, rfl⟩ :=
    Option.map_eq_some_iff.mp h.shape
  obtain rfl : slots = [[a], [k]] := h.slots
  obtain rfl : ssa = none := h.ssa
  obtain ⟨_, _, foundA, _⟩ := Region.node?_of_shape address
  have kid₀ : r.kid n 0 = .ok a := Region.kid_of found rfl
  have kid₁ : r.kid n 1 = .ok k := h.kid
  have liveK : ∀ m ∈ [k], r.Live m := by simpa using h.tree.spells.live h.tree.spells.root_mem
  have fits : fitsOffset (attrs.ofst + attrs'.ofst) = true := fits
  simp only [directStore?, Edit.kid, Edit.node, meets_bind, meets_ask, kid₀, kid₁, yields_ok,
    Region.node_of foundA, addressTarget?, if_true, var, Option.map_some, Region.node_of found,
    meets_discard]
  -- the stored tree is taken out
  have slot : [[a], [k]][1]? = some [k] := rfl
  refine (takeKid_edits .idle found slot liveK).to fun _ r₁ taken => ?_
  have kept₁ : Kept .idle r r₁ [n] := taken.kept_node
  have tree₁ := h.tree.kept_node kept₁ h.apart
  have liveK₁ : r₁.Live k := tree₁.spells.live tree₁.spells.root_mem
  simp only [addOffsets, fits, if_true, meets_lift, yields_ok, store]
  -- and put below a store into the variable
  refine (build_meets .idle (by simpa using liveK₁)).to fun st r₂ made => ?_
  obtain ⟨rfl, made⟩ := made
  have kept₂ : Kept .idle r₁ r₂ [] := made.kept_next
  have unlinked₂ : r₂.Unlinked := kept₂.grown.calm tree₁.calm
  have self₁ : r₁.shape true n = some ⟨code, t, attrs', [[a], []], none, block, none, none⟩ :=
    taken.shape_node
  have self₂ := (kept₂.shape n List.not_mem_nil (Region.lt_size_of_shape self₁)).trans self₁
  refine (inheritStore_idle unlinked₂ made.shape_node rfl (Region.live_of_shape self₂)).to
    fun _ r₃ inherited => ?_
  have new₃ := (congrFun inherited.shape r₁.next).trans made.shape_node
  have toThree : Kept .idle r₁ r₃ [] := kept₂.trans inherited.kept_same .refl
  have next : r.nodes.size ≤ r₁.next.index := kept₁.grown.size
  have apart {m : NodeId} (mem : m ∈ n :: ([a] ++ below)) : r₁.next ≠ m := by
    rintro rfl
    exact absurd (old _ mem) (Nat.not_lt.mpr next)
  -- what is left of the old store and of the address goes
  have address₃ : r₃.shape true a = some (.fresh .lda ty attrs []) := by
    rw [toThree.shape a List.not_mem_nil ((old a (by simp)).trans_le kept₁.grown.size),
      kept₁.shape a (by simpa using other) (old a (by simp)), address]
  have plain₃ : Plain (r₃.shape true) [a] := by
    intro m mem
    rw [List.mem_singleton.mp mem]
    exact ⟨_, _, _, _, address₃⟩
  have trees₃ : Grove r₃.kidsOf [a] [a] := Grove.singleton_iff.mpr
    ⟨[], [], by rw [@Region.kidsOf_shape true, address₃]; rfl, .nil, rfl⟩
  obtain ⟨⟨_, _, _, _, _, _, _, _⟩, found₃, same⟩ :=
    Option.map_eq_some_iff.mp ((congrFun inherited.shape n).trans self₂)
  simp only [Node.bare, Node.mk.injEq] at same
  obtain ⟨rfl, rfl, rfl, rfl, _, rfl, _, rfl⟩ := same
  have blocks : r₃.blocks.size = r.blocks.size := toThree.grown.blocks.trans kept₁.grown.blocks
  have discarded := discardStmt_kept .idle (by simp) found₃ rfl
    (fun b eq => blocks ▸ h.listed b eq) (by simp) trees₃ plain₃ (by grind)
    (inherited.grown.calm unlinked₂)
  rw [meets_bind, meets_discard] at discarded
  refine discarded.to fun _ r₄ inner => inner.to fun _ r₅ released => ?_
  refine (fired_meets .idle .istOfLda n).to fun _ r₆ noted => ?_
  have last : Kept .idle r₃ r₆ [n, a] := released.trans noted.kept_same .refl
  have stored : Stands .idle l r₆ e k below := by
    refine (tree₁.kept toThree fun _ _ => List.not_mem_nil).kept last fun m mem => ?_
    grind
  have new₆ := (last.shape r₁.next (by simp [apart]) (Region.lt_size_of_shape new₃)).trans new₃
  refine ⟨r₁.next, _, rfl, ⟨new₆, rfl, rfl, by simp [Node.fresh], by simp, stored, ?_⟩, rfl, rfl,
    next, ?_⟩
  · exact List.nodup_cons.mpr ⟨tree₁.next_not_mem, tree₁.spells.nodup⟩
  · have none : Within r [n, a] [] := fun _ mem => absurd mem List.not_mem_nil
    exact ((kept₁.mono (by simp)).trans toThree none).trans last .refl

end Peephole
