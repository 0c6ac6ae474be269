import Peephole.Proofs.Singles
import Peephole.Proofs.SweepCap

/-!
# Stages of refinement

A statement over one tree comes to rest after at most two refinements. The first refines the tree,
and may turn an indirect store into a direct one. The second may delete a store that writes what its
refined tree reads. A third leaves alone what stands then.
-/

namespace Peephole

open Edit Peephole.Tree

/-- How far refinement has come with a statement. -/
inductive Stage
  | given
  /-- The tree has been refined. -/
  | refined
  /-- The statement is left alone. -/
  | stable

/-- What is known at a stage of the statement `n` over the tree at `k`, with the addresses
`front`. -/
inductive Reached (s : Setting) (l : Layout) (r : Region) (n : NodeId) (d : Node) (k : NodeId)
    (e : Term) (below : List NodeId) : Stage → List NodeId → Prop
  | store {stage : Stage} (code : d.code = .st ∨ d.code = .stpr) (fits : e.ty = d.ty)
      (settled : stage ≠ .given → r.Bears (Settled s l false) k below)
      (lasts : stage = .stable → Lasts s r n k) : Reached s l r n d k e below stage []
  | through {stage : Stage} {a : NodeId} {x : Node} (code : d.code = .ist) (fits : e.ty = d.ty)
      (address : r.shape true a = some x) (away : addressTarget? x = none)
      (settled : stage ≠ .given → r.Bears (Settled s l false) k below) :
      Reached s l r n d k e below stage [a]
  | direct {a : NodeId} {x : Node} {v : VarId} {ofst : Int} (code : d.code = .ist)
      (fits : e.ty = d.ty) (address : r.shape true a = some x)
      (target : addressTarget? x = some (v, ofst))
      (inside : fitsOffset (ofst + d.attrs.ofst) = true) : Reached s l r n d k e below .given [a]
  | value {stage : Stage} (code : d.code = .ret)
      (settled : stage ≠ .given → r.Bears (Settled s l false) k below) :
      Reached s l r n d k e below stage []
  | branch {stage : Stage} (code : d.code = .trueBr ∨ d.code = .falseBr)
      (decided : stage ≠ .given → r.Bears (Decided s l) k below)
      (normal : stage ≠ .given → d.code = .falseBr → e.code ≠ .ne) :
      Reached s l r n d k e below stage []

/-- The statement `n` without statements below it, which has the nodes `ns`. -/
inductive Simple (s : Setting) (l : Layout) (stage : Stage) (r : Region) (n : NodeId) :
    List NodeId → Prop
  | bare {d : Node} (shape : r.shape true n = some d) (code : d.code = .ret)
      (slots : d.slots = [[]]) : Simple s l stage r n [n]
  | single {d : Node} {front : List NodeId} {k : NodeId} {e : Term} {below : List NodeId}
      (stands : Over l r n d front [] k e below)
        (reached : Reached s l r n d k e below stage front) :
      Simple s l stage r n (n :: (front ++ below))

/-- What becomes of the statement `n`: it is gone, a statement with `B` has taken its place, or it
is as it was and has `C`. -/
inductive Leaves (B C : NodeId → List NodeId → Prop) (n : NodeId) : Outcome → List NodeId → Prop
  | gone (unlinked : Bool) : Leaves B C n (.deleted unlinked) []
  | changed {m : NodeId} {ms : List NodeId} (new : B m ms) : Leaves B C n (.stands m true) ms
  | still {ms : List NodeId} (same : C n ms) : Leaves B C n (.stands n false) ms

/-- A step with the statement `n` touches none but its own nodes `ns`. -/
def Steps (B C : Region → NodeId → List NodeId → Prop) (r : Region) (n : NodeId)
    (ns : List NodeId) (out : Outcome) (r' : Region) : Prop :=
  ∃ ns', Leaves (B r') (C r') n out ns' ∧ Within r ns ns' ∧ Kept .idle r r' ns

variable {s : Setting} {l : Layout} {r r' : Region} {n k a : NodeId} {d x : Node} {e : Term}
  {front below ns : List NodeId} {stage : Stage} {f : NodeId → Edit Outcome}

theorem Within.apart {ns' ms : List NodeId} (h : Within r ns ns') (apart : ∀ m ∈ ns, m ∉ ms)
    (old : ∀ m ∈ ms, m.index < r.nodes.size) : ∀ m ∈ ns', m ∉ ms := by
  intro m mem other
  rcases h m mem with mem | fresh
  · exact apart m mem other
  · exact absurd (old m other) (Nat.not_lt.mpr fresh)

theorem Within.append {ns' ms ms' : List NodeId} (first : Within r ns ns')
    (second : Within r' ms ms')
    (later : r.nodes.size ≤ r'.nodes.size) : Within r (ns ++ ms) (ns' ++ ms') := by
  intro m mem
  rcases List.mem_append.mp mem with mem | mem
  · exact (first m mem).imp_left (List.mem_append_left _)
  · exact (second m mem).imp (List.mem_append_right _) later.trans

theorem Within.nil : Within r ns [] := fun _ mem => absurd mem List.not_mem_nil

theorem Within.cons {ns' : List NodeId} (h : Within r ns ns') : Within r (n :: ns) (n :: ns') := by
  intro m mem
  rcases List.mem_cons.mp mem with rfl | mem
  · exact .inl List.mem_cons_self
  · exact (h m mem).imp_left (List.mem_cons_of_mem n)

/-! ### Frames -/

theorem Reached.congr (h : Reached s l r n d k e below stage front)
    (shape : ∀ m ∈ n :: (front ++ below), r'.shape true m = r.shape true m) (root : k ∈ below)
    (refs : stage = .stable → ∀ m ∈ n :: (front ++ below), r'.exactRef? m = r.exactRef? m) :
    Reached s l r' n d k e below stage front := by
  have bears {P : Tree → Prop} (h : r.Bears P k below) : r'.Bears P k below := by
    refine h.congr fun m mem => shape m ?_
    exact List.mem_cons_of_mem _ (List.mem_append_right _ mem)
  cases h with
  | store code fits settled lasts =>
    refine .store code fits (fun later => bears (settled later)) fun last => ?_
    have sub : ∀ m, m = n ∨ m = k → m ∈ n :: ([] ++ below) := by
      rintro m (rfl | rfl)
      · exact List.mem_cons_self
      · exact List.mem_cons_of_mem _ root
    exact (lasts last).congr (fun m mem => shape m (sub m mem)) fun m mem => refs last m (sub m mem)
  | through code fits address away settled =>
    exact .through code fits ((shape _ (by simp)).trans address) away
      fun later => bears (settled later)
  | direct code fits address target inside =>
    exact .direct code fits ((shape _ (by simp)).trans address) target inside
  | value code settled => exact .value code fun later => bears (settled later)
  | branch code decided normal => exact .branch code (fun later => bears (decided later)) normal

theorem Reached.isStmt (h : Reached s l r n d k e below stage front) : d.isStmt = true := by
  rw [Node.isStmt]
  cases h with
  | store code => rcases code with code | code <;> rw [code] <;> rfl
  | through code | direct code | value code => rw [code]; rfl
  | branch code => rcases code with code | code <;> rw [code] <;> rfl

namespace Simple

theorem congr (h : Simple s l stage r n ns) (shape : ∀ m ∈ ns, r'.shape true m = r.shape true m)
    (grown : Grown .idle r r') (refs : stage = .stable → ∀ m ∈ ns, r'.exactRef? m = r.exactRef? m) :
    Simple s l stage r' n ns := by
  cases h with
  | bare found code slots => exact .bare ((shape n List.mem_cons_self).trans found) code slots
  | single stands reached =>
    exact .single (stands.congr shape grown) (reached.congr shape stands.tree.spells.root_mem refs)

variable (h : Simple s l stage r n ns)
include h

theorem nodup : ns.Nodup := by
  cases h with
  | bare => exact List.nodup_singleton n
  | single stands => exact stands.distinct

theorem mem_lt : ∀ m ∈ ns, m.index < r.nodes.size := by
  cases h with
  | bare shape =>
    intro m mem
    rw [List.mem_singleton.mp mem]
    exact Region.lt_size_of_shape shape
  | single stands => exact stands.mem_lt

theorem isStmt : ∃ d, r.shape true n = some d ∧ d.isStmt = true := by
  cases h with
  | bare shape code => exact ⟨_, shape, by rw [Node.isStmt, code]; rfl⟩
  | single stands reached => exact ⟨_, stands.shape, reached.isStmt⟩

theorem tree : Grove r.kidsOf [n] ns := by
  refine Grove.singleton_iff.mpr ?_
  cases h with
  | bare shape _ slots =>
    exact ⟨[], [], by rw [@Region.kidsOf_shape true, shape, Option.map_some, Node.kids, slots]; rfl,
      .nil, rfl⟩
  | single stands =>
    exact ⟨_, _, by rw [@Region.kidsOf_shape true, stands.shape, Option.map_some],
      stands.trees, rfl⟩

end Simple

/-! ### Stores -/

namespace Over

variable (h : Over l r n d [] [] k e below)
include h

/-- The first refinement of a store. -/
theorem refineStore_meets (code : d.code = .st ∨ d.code = .stpr) (fits : e.ty = d.ty) :
    Meets (refineStore s (refineExpr s) n) r (fun _ => False)
      (Steps (Simple s l .refined) (Simple s l .stable) r n (n :: below)) := by
  refine h.refineStore_cases (fun _ _ unlinked _ dropped => ⟨[], .gone unlinked, .nil, dropped⟩)
    fun other => Meets.bind h.refineSlot_meets ?_
  rintro c r₁ ⟨k', e', below', stands, same, settled, within, kept, honest⟩
  refine (stands.closeStore_meets (same.trans fits)).to ?_
  rintro out r' (⟨_, ⟨unlinked, rfl⟩, dropped⟩ | ⟨lasts, rfl, edited, quiet⟩)
  · exact ⟨[], .gone unlinked, .nil, kept.trans dropped within.cons⟩
  refine ⟨n :: below', ?_, within.cons, kept.trans edited.kept_same .refl⟩
  cases c with
  | true =>
    have reached : Reached s l r₁ n (d.holding 0 [k']) k' e' below' .refined [] :=
      .store code (same.trans fits) (fun _ => settled) (by simp)
    exact .changed ((Simple.single stands reached).congr (fun _ _ => by rw [edited.shape])
      edited.grown (by simp))
  | false =>
    -- nothing was changed, so the store copies no register after the refinement either
    obtain rfl := quiet rfl
    obtain ⟨rfl, untouched⟩ := honest rfl
    refine .still
      (.single stands (.store code (same.trans fits) (fun _ => settled) fun _ drops => ?_))
    refine ⟨fun copies => other drops ?_, fun back => lasts ⟨drops, back⟩⟩
    rwa [← untouched.rest]

/-- A store of a settled tree goes, or it stands and is left alone from then on. -/
theorem refineStore_settled (fits : e.ty = d.ty) (settled : r.Bears (Settled s l false) k below) :
    Meets (refineStore s (refineExpr s) n) r (fun _ => False) fun out r' =>
      ¬Lasts s r n k ∧ (∃ unlinked, out = .deleted unlinked) ∧ Kept .idle r r' (n :: below) ∨
      Lasts s r n k ∧ out = .stands n false ∧ r' = r := by
  refine h.refineStore_cases (fun drops copies unlinked _ dropped =>
    .inl ⟨fun lasts => (lasts drops).1 copies, ⟨unlinked, rfl⟩, dropped⟩) fun other => ?_
  have rests : Gives (refineSlot (refineExpr s) n 0) r false := h.refineSlot_gives settled
  rw [meets_bind, rests.meets]
  refine (h.closeStore_meets fits).to ?_
  rintro out r' (⟨⟨drops, back⟩, deleted, dropped⟩ | ⟨stays, rfl, _, quiet⟩)
  · exact .inl ⟨fun lasts => (lasts drops).2 back, deleted, dropped⟩
  · exact .inr ⟨fun drops => ⟨other drops, fun back => stays ⟨drops, back⟩⟩, rfl, quiet rfl⟩

end Over

/-! ### Other statements over one tree -/

/-- Finishing a statement that stays what it is from now on. -/
theorem Over.finishReached_meets {r₁ : Region} {below' : List NodeId} {c : Bool}
    (stands : Over l r₁ n d front [] k e below')
    (reached : ∀ stage, Reached s l r₁ n d k e below' stage front) (within : Within r below below')
    (kept : Kept .idle r r₁ (n :: below)) : Meets (finishStmt s n c) r₁ (fun _ => False)
      (Steps (Simple s l .refined) (Simple s l .stable) r n (n :: (front ++ below))) := by
  refine stands.finishStmt_meets.to ?_
  rintro _ r' ⟨rfl, edited, quiet⟩
  have sub : ∀ m ∈ n :: below, m ∈ n :: (front ++ below) := by
    intro m mem
    rcases List.mem_cons.mp mem with rfl | mem
    · exact List.mem_cons_self
    · exact List.mem_cons_of_mem _ (List.mem_append_right _ mem)
  have around : Within r (n :: (front ++ below)) (n :: (front ++ below')) :=
    (Within.append .refl within le_rfl).cons
  refine ⟨n :: (front ++ below'), ?_, around, (kept.mono sub).trans edited.kept_same .refl⟩
  cases c with
  | true =>
    exact .changed ((Simple.single stands (reached .refined)).congr
      (fun _ _ => by rw [edited.shape]) edited.grown (by simp))
  | false =>
    obtain rfl := quiet rfl
    exact .still (.single stands (reached .stable))

namespace Over

section indirect

variable (h : Over l r n d [a] [] k e below)
include h

theorem address_kid : r.kid n 0 = .ok a := by
  obtain ⟨y, found, rfl⟩ := Option.map_eq_some_iff.mp h.shape
  have slots : y.slots = [[a], [k]] := h.slots
  exact Region.kid_of found (by rw [slots]; rfl)

/-- The address of an indirect store is left alone. -/
theorem refineAddress_gives : Gives (refineSlot (refineExpr s) n 0) r false := by
  obtain ⟨code, ty, attrs, known, shape⟩ := h.address a List.mem_cons_self
  obtain ⟨_, _, found, _⟩ := Region.node?_of_shape shape
  exact refineSlot_rests h.address_kid
    (gives_iff.mpr (refineExpr_address (Region.node_of found) known))

theorem directStore_gives (address : r.shape true a = some x) (away : addressTarget? x = none) :
    Gives (directStore? n) r none := by
  obtain ⟨y, found, rfl⟩ := Option.map_eq_some_iff.mp address
  have away : addressTarget? y = none := away
  refine gives_iff.mpr ?_
  simp only [directStore?, Edit.kid, Edit.node, meets_bind, meets_ask, h.address_kid, yields_ok,
    Region.node_of found, away, meets_pure, and_self]

/-- The first refinement of a store through a register. -/
theorem refineIndirectStore_through (code : d.code = .ist) (fits : e.ty = d.ty)
    (address : r.shape true a = some x) (away : addressTarget? x = none) :
    Meets (refineIndirectStore s (refineExpr s) n) r (fun _ => False)
      (Steps (Simple s l .refined) (Simple s l .stable) r n (n :: ([a] ++ below))) := by
  unfold refineIndirectStore
  rw [meets_bind, h.refineAddress_gives.meets]
  refine Meets.bind h.refineSlot_meets ?_
  rintro c r₁ ⟨k', e', below', stands, same, settled, within, kept, _⟩
  obtain ⟨other, outside⟩ := h.front_apart a List.mem_cons_self
  have address₁ := (kept.shape a (by simp [other, outside]) (Region.lt_size_of_shape address)).trans
    address
  have fitted : Gives (fitStored s n 1) r₁ false := stands.fitStored_gives (same.trans fits)
  rw [meets_bind, (stands.directStore_gives address₁ away).meets]
  simp only [Option.getD_none, Option.isSome_none, Bool.false_eq_true, if_false, meets_bind,
    fitted.meets, Bool.false_or, Bool.or_false]
  exact stands.finishReached_meets (fun _ => .through code (same.trans fits) address₁ away
    fun _ => settled) within kept

/-- The first refinement of a store through the address of a variable. -/
theorem refineIndirectStore_direct {v : VarId} {ofst : Int} (fits : e.ty = d.ty)
    (address : r.shape true a = some x) (target : addressTarget? x = some (v, ofst))
    (inside : fitsOffset (ofst + d.attrs.ofst) = true) :
    Meets (refineIndirectStore s (refineExpr s) n) r (fun _ => False)
      (Steps (Simple s l .refined) (Simple s l .stable) r n (n :: ([a] ++ below))) := by
  unfold refineIndirectStore
  rw [meets_bind, h.refineAddress_gives.meets]
  refine Meets.bind h.refineSlot_meets ?_
  rintro c r₁ ⟨k', e', below', stands, same, settled, within, kept, _⟩
  obtain ⟨code, ty, attrs, known, shape⟩ := h.address a List.mem_cons_self
  obtain rfl := Option.some.inj (shape.symm.trans address)
  obtain ⟨rfl, var, rfl⟩ : code = .lda ∧ attrs.var = some v ∧ attrs.ofst = ofst := by
    unfold addressTarget? at target
    split at target
    · rename_i lda
      exact ⟨lda, by simpa [Node.fresh] using target⟩
    · cases target
  obtain ⟨other, outside⟩ := h.front_apart a List.mem_cons_self
  have address₁ := (kept.shape a (by simp [other, outside]) (Region.lt_size_of_shape address)).trans
    address
  refine Meets.bind (stands.directStore_meets address₁ var inside) ?_
  rintro _ r₂ ⟨st, d', rfl, direct, code', ty', new, kept₂⟩
  have fits' : e'.ty = d'.ty := (same.trans fits).trans ty'.symm
  have fitted : Gives (fitStored s st 0) r₂ false := direct.fitStored_gives fits'
  simp only [Option.getD_some, Option.isSome_some, if_true, meets_bind, fitted.meets,
    Bool.false_or, Bool.or_true, Bool.true_or]
  refine direct.finishStmt_meets.to ?_
  rintro _ r' ⟨rfl, edited, _⟩
  have bears : r₂.Bears (Settled s l false) k' below' := by
    refine settled.congr fun m mem => kept₂.shape m ?_ (stands.tree.lt_size mem)
    have apart := stands.distinct
    grind
  refine ⟨st :: below', .changed ?_, ?_, ?_⟩
  · exact (Simple.single direct (.store (.inl code') fits' (fun _ => bears) (by simp))).congr
      (fun _ _ => by rw [edited.shape]) edited.grown (by simp)
  · intro m mem
    rcases List.mem_cons.mp mem with rfl | mem
    · exact .inr (kept.grown.size.trans new)
    · exact (within m mem).imp_left fun mem => by simp [mem]
  · refine ((kept.mono fun m mem => ?_).trans kept₂ fun m mem => .inl ?_).trans edited.kept_same
      .refl
    · grind
    · grind

theorem refineIndirectStore_gives (fits : e.ty = d.ty) (address : r.shape true a = some x)
    (away : addressTarget? x = none) (settled : r.Bears (Settled s l false) k below) :
    Gives (refineIndirectStore s (refineExpr s) n) r (.stands n false) := by
  have rests : Gives (refineSlot (refineExpr s) n 1) r false := h.refineSlot_gives settled
  have fitted : Gives (fitStored s n 1) r false := h.fitStored_gives fits
  exact h.refineAddress_gives.bind (rests.bind ((h.directStore_gives address away).bind
    (fitted.bind rfl)))

end indirect

variable (h : Over l r n d [] [] k e below)
include h

/-- A branch on a false `a != b` becomes one on a true `a == b`. -/
theorem flip_meets {t : Ty} {p q : Term} (ne : e = .binary .ne t p q) (code : d.code = .falseBr)
    (decided : r.Bears (Decided s l) k below) :
    Meets (do setCode k .eq; setCode n .trueBr; fired .falseBrOfNe n) r (fun _ => False) fun _ r' =>
      Over l r' n { d with code := .trueBr } [] [] k (.binary .eq t p q) below ∧
        r'.Bears (Decided s l) k below ∧ Kept .idle r r' (n :: below) := by
  subst ne
  have typed : (Term.binary .eq t p q).typed l = true :=
    (Term.refines_lnot_comparison rfl (Term.typed_lnot h.tree.typed) rfl).typed
  have recodes : Meets (setCode k .eq) r (fun _ => False) _ := setBinaryCode_meets h.tree typed
  refine Meets.bind (recodes.and meets_run) ?_
  rintro ⟨⟩ r₁ ⟨⟨tree, kept⟩, run⟩
  have bears := decided.equals h.tree.spells (h.tree.layout ▸ h.tree.typed) run tree.spells
  have old := h.mem_lt n List.mem_cons_self
  obtain ⟨y, found, rfl⟩ := Option.map_eq_some_iff.mp ((kept.shape n h.apart old).trans h.shape)
  have arity : y.code.numSlots = Op.numSlots .trueBr := by
    rw [show y.code = .falseBr from code]
    rfl
  have recoded : Edited .idle r₁ (r₁.put n (some { y with code := .trueBr }))
      (Function.update (r₁.shape true) n
        (some (({ y with code := .trueBr } : Node).bare true))) :=
    ⟨Region.shape_put (Region.lt_size_of_node? found), .put found rfl⟩
  rw [meets_bind]
  refine (meets_setCode found arity).mpr ?_
  refine (fired_meets .idle .falseBrOfNe n).to fun _ r' noted => ?_
  have both : Kept .idle r₁ r' [n] := recoded.kept_node.trans noted.kept_same .refl
  have all : Kept .idle r r' (n :: below) :=
    (kept.mono fun m mem => List.mem_cons_of_mem n mem).trans both
      fun m mem => .inl (List.mem_singleton.mp mem ▸ List.mem_cons_self)
  refine ⟨⟨(congrFun noted.shape n).trans recoded.shape_node, h.slots, h.ssa,
    fun b eq => all.grown.blocks.symm ▸ h.listed b eq, by simp, tree.kept_node both h.apart,
    h.distinct⟩, bears.congr fun m mem => both.shape m ?_ (tree.lt_size mem), all⟩
  have apart := h.apart
  grind

/-- The first refinement of a branch. -/
theorem refineBranch_meets (code : d.code = .trueBr ∨ d.code = .falseBr) :
    Meets (refineBranch s n) r (fun _ => False)
      (Steps (Simple s l .refined) (Simple s l .stable) r n (n :: below)) := by
  unfold refineBranch
  refine Meets.bind (h.refineConditionSlot_meets rfl) ?_
  rintro c r₁ ⟨k', e', below', stands, _, decided, within, kept, _⟩
  have kid : r₁.kid n 0 = .ok k' := stands.kid
  obtain ⟨y, found, same⟩ := Option.map_eq_some_iff.mp stands.shape
  have code' : y.code = d.code := (congrArg Node.code same :)
  obtain ⟨z, foundK, reads⟩ := stands.tree.reads
  have finish (normal : d.code = .falseBr → e'.code ≠ .ne) : Meets (finishStmt s n c) r₁
      (fun _ => False) (Steps (Simple s l .refined) (Simple s l .stable) r n (n :: below)) :=
    stands.finishReached_meets (fun _ => .branch code (fun _ => decided) fun _ => normal)
      within kept
  simp only [Edit.kid, Edit.node, meets_bind, meets_ask, kid, yields_ok,
    Region.node_of found, code']
  by_cases negative : d.code = .falseBr
  · simp only [if_pos negative, meets_bind, meets_ask, Region.node_of foundK, yields_ok, reads.code]
    by_cases ne : e'.code = .ne
    · obtain ⟨op, t, p, q, rfl⟩ := exists_binary stands.tree.typed (by rw [ne]; rfl)
      obtain rfl : op = .ne := ne
      have flips := stands.flip_meets rfl negative decided
      simp only [meets_bind] at flips
      simp only [Term.code, if_true, meets_bind]
      refine flips.to fun _ r₂ flips => flips.to fun _ r₃ flips => flips.to ?_
      rintro _ r₄ ⟨flipped, bears, kept₄⟩
      exact flipped.finishReached_meets (fun _ => .branch (.inl rfl) (fun _ => bears)
        fun _ off => Op.noConfusion off) within (kept.trans kept₄ within.cons)
    · simp only [if_neg ne]
      exact finish fun _ => ne
  · simp only [if_neg negative]
    exact finish fun on => absurd on negative

theorem refineBranch_gives (decided : r.Bears (Decided s l) k below)
    (normal : d.code = .falseBr → e.code ≠ .ne) : Gives (refineBranch s n) r (.stands n false) := by
  have kid : r.kid n 0 = .ok k := h.kid
  obtain ⟨y, found, rfl⟩ := Option.map_eq_some_iff.mp h.shape
  obtain ⟨z, foundK, reads⟩ := h.tree.reads
  refine (h.refineConditionSlot_gives rfl decided).bind ((Gives.kid kid).bind
    ((Gives.node (Region.node_of found)).bind ?_))
  by_cases negative : y.code = .falseBr
  · rw [if_pos negative]
    refine (Gives.node (Region.node_of foundK)).bind ?_
    rw [if_neg (reads.code ▸ normal negative)]
    rfl
  · rw [if_neg negative]
    rfl

end Over

/-! ### Statements without statements below them -/

theorem refineStmt_bare {d : Node} (shape : r.shape true n = some d) (code : d.code = .ret)
    (slots : d.slots = [[]]) : Gives (refineStmt s f n) r (.stands n false) := by
  obtain ⟨y, found, rfl⟩ := Option.map_eq_some_iff.mp shape
  have code : y.code = .ret := code
  have slots : y.slots = [[]] := slots
  have none : r.kid? n 0 = .ok none := by
    simp [Region.kid?, Region.node_of found, Node.slot, slots, bind, Except.bind, pure, Except.pure]
  refine gives_iff.mpr ?_
  simp only [refineStmt, refineSlot, Edit.node, meets_bind, meets_ask, Region.node_of found,
    yields_ok, code, none, meets_pure, finishStmt, Bool.false_eq_true, if_false, and_self]

namespace Simple

/-- The first refinement. -/
theorem refineStmt_first (h : Simple s l .given r n ns) : Meets (refineStmt s f n) r
    (fun _ => False) (Steps (Simple s l .refined) (Simple s l .stable) r n ns) := by
  cases h with
  | bare shape code slots =>
    refine (refineStmt_bare shape code slots).meets.mpr ⟨[n], .still ?_, .refl, .refl⟩
    exact .bare shape code slots
  | single stands reached =>
    obtain ⟨y, found, rfl⟩ := Option.map_eq_some_iff.mp stands.shape
    simp only [refineStmt, Edit.node, meets_bind, meets_ask, Region.node_of found, yields_ok]
    cases reached with
    | store code fits =>
      have stores := stands.refineStore_meets (s := s) code fits
      rcases code with code | code <;> simp only [show y.code = _ from code] <;> exact stores
    | through code fits address away =>
      simp only [show y.code = _ from code]
      exact stands.refineIndirectStore_through code fits address away
    | direct code fits address target inside =>
      simp only [show y.code = _ from code]
      exact stands.refineIndirectStore_direct fits address target inside
    | value code =>
      simp only [show y.code = _ from code]
      refine Meets.bind stands.refineSlot_meets ?_
      rintro c r₁ ⟨k', e', below', stands', _, settled, within, kept, _⟩
      exact stands'.finishReached_meets (fun _ => .value code fun _ => settled) within kept
    | branch code =>
      have branches := stands.refineBranch_meets (s := s) code
      rcases code with code | code <;> simp only [show y.code = _ from code] <;> exact branches

/-- How a later refinement ends: a store that is not known to last is deleted, or nothing is
changed. -/
def EndsLater (s : Setting) (l : Layout) (stage : Stage) (r : Region) (n : NodeId)
    (ns : List NodeId) (out : Outcome) (r' : Region) : Prop :=
  stage ≠ .stable ∧ (∃ unlinked, out = .deleted unlinked) ∧ Kept .idle r r' ns ∨
  Simple s l .stable r n ns ∧ out = .stands n false ∧ r' = r

theorem refineStmt_later (h : Simple s l stage r n ns) (later : stage ≠ .given) :
    Meets (refineStmt s f n) r (fun _ => False) (EndsLater s l stage r n ns) := by
  have stays {m : Edit Outcome} (rests : Gives m r (.stands n false))
      (stable : Simple s l .stable r n ns) :
      Meets m r (fun _ => False) (EndsLater s l stage r n ns) :=
    rests.meets.mpr (.inr ⟨stable, rfl, rfl⟩)
  cases h with
  | bare shape code slots => exact stays (refineStmt_bare shape code slots) (.bare shape code slots)
  | @single _ _ _ _ below stands reached =>
    obtain ⟨y, found, rfl⟩ := Option.map_eq_some_iff.mp stands.shape
    simp only [refineStmt, Edit.node, meets_bind, meets_ask, Region.node_of found, yields_ok]
    cases reached with
    | store code fits settled lasts =>
      have settled := settled later
      have stores : Meets (refineStore s (refineExpr s) n) r (fun _ => False)
          (EndsLater s l stage r n (n :: below)) := by
        refine (stands.refineStore_settled fits settled).to ?_
        rintro out r' (⟨goes, gone⟩ | ⟨lasts, still⟩)
        · exact .inl ⟨fun last => goes (lasts last), gone⟩
        · exact .inr ⟨.single stands (.store code fits (fun _ => settled) fun _ => lasts), still⟩
      rcases code with code | code <;> simp only [show y.code = _ from code] <;> exact stores
    | through code fits address away settled =>
      have settled := settled later
      simp only [show y.code = _ from code]
      exact stays (stands.refineIndirectStore_gives fits address away settled)
        (.single stands (.through code fits address away fun _ => settled))
    | direct => exact absurd rfl later
    | value code settled =>
      have settled := settled later
      simp only [show y.code = _ from code]
      have rests : Gives (refineSlot (refineExpr s) n 0) r false := stands.refineSlot_gives settled
      exact stays (rests.bind rfl) (.single stands (.value code fun _ => settled))
    | branch code decided normal =>
      have decided := decided later
      have normal := normal later
      have branches := stays (stands.refineBranch_gives decided normal)
        (.single stands (.branch code (fun _ => decided) fun _ => normal))
      rcases code with code | code <;> simp only [show y.code = _ from code] <;> exact branches

/-- How often lists are swept, and how statements below are refined, does not matter. -/
theorem refineStmt_sweeping (h : Simple s l stage r n ns) {cap : Nat} {f' : NodeId → Edit Outcome} :
    (refineStmt (s.sweeping cap) f' n).run r = (refineStmt s f n).run r := by
  have finish : finishStmt (s.sweeping cap) = finishStmt s := rfl
  have at_code {d : Node} (shape : r.shape true n = some d) (code : d.code = .st ∨ d.code = .stpr ∨
      d.code = .ist ∨ d.code = .ret ∨ d.code = .trueBr ∨ d.code = .falseBr) :
      (refineStmt (s.sweeping cap) f' n).run r = (refineStmt s f n).run r := by
    obtain ⟨y, found, rfl⟩ := Option.map_eq_some_iff.mp shape
    have read : (node n).run r = .ok (y, r) := Gives.node (Region.node_of found)
    unfold refineStmt
    rw [StateT.run_bind, StateT.run_bind, read]
    rcases code with code | code | code | code | code | code <;>
      simp only [show y.code = _ from code, bind, Except.bind, refineStore_sweeping,
        refineIndirectStore_sweeping, refineBranch_sweeping, refineExpr_sweeping, finish]
  cases h with
  | bare shape code => exact at_code shape (by simp [code])
  | single stands reached =>
    cases reached with
    | store code => exact at_code stands.shape (by rcases code with code | code <;> simp [code])
    | through code | direct code | value code => exact at_code stands.shape (by simp [code])
    | branch code => exact at_code stands.shape (by rcases code with code | code <;> simp [code])

end Simple

end Peephole
