import Peephole.Proofs.Dropping
import Peephole.Proofs.Spelling
import Peephole.Refine.Phi

/-!
# Comparisons of matching phis

Where two registers are defined by phis that merge pairwise equal literals, they are equal on every
way into the block, and a comparison of them is decided: wherever both registers hold the literals
of one way, the comparison has the value of the literal that takes its place
(`decideByPhis_preserves_eval`).
-/

namespace Peephole

open Edit

variable {r r' : Region} {n a b lit : NodeId} {d da db phiA phiB : Node} {as bs : List Word}
  {env : Env} {F : Fault → Prop}

/-- The read `d` at `n` denotes a value that `phi` defines, which merges literals `ws` of its own
integer type. -/
structure Region.ReadsPhi (r : Region) (n : NodeId) (d phi : Node) (ws : List Word) : Prop where
  found : r.node? n = some d
  code : d.code = .pr
  leaf : d.slots = []
  defined : ∃ p, r.ssaDefOf d = .ok (some p) ∧ r.node? p = some phi
  isPhi : phi.code = .phi
  ty : d.ty = phi.ty
  isInt : phi.ty.isInt = true
  bytes : phi.ty.byteSize r.layout ≤ 8
  operands : ∃ ks, phi.slots = [ks] ∧ List.Forall₂ (fun k w => ∃ c, r.node? k = some c ∧
    c.intLit? = some w ∧ phi.ty.wrapInt r.layout w = w) ks ws

theorem Ty.isSmall_of_isInt {l : Layout} {t : Ty} (int : t.isInt = true)
    (bytes : t.byteSize l ≤ 8) : t.isSmall = true := by
  cases t with
  | scalar s =>
    cases s with
    | i128 | u128 => exact absurd bytes (by simp [Ty.byteSize, Scalar.byteSize])
    | f32 | f64 | f128 | str | void | any => exact absurd int Bool.false_ne_true
    | _ => rfl
  | _ => exact absurd int Bool.false_ne_true

/-- Whether a comparison holds of a value and itself. -/
def Op.holdsOfEqual (code : Op) : Bool := code == .eq || code == .le || code == .ge

theorem compareWords_refl {code : Op} (relation : code.isRelation = true) (unsigned : Bool)
    (v : Word) : compareWords code unsigned v v = code.holdsOfEqual := by
  cases code <;> first
    | exact absurd relation Bool.false_ne_true
    | cases unsigned <;> simp [compareWords, Op.holdsOfEqual, BitVec.slt, BitVec.ult]

theorem Ty.applyMixed_refl {l : Layout} {s t : Ty} {code : Op} (relation : code.isRelation = true)
    (v : Word) : s.applyMixed l t code v v = some (Word.ofBool code.holdsOfEqual) := by
  have compared (unsigned : Bool) (bits : Nat) : intBinary code v v unsigned bits =
      some (Word.ofBool code.holdsOfEqual) := by
    have same := compareWords_refl relation unsigned
    cases code <;> first
      | exact absurd relation Bool.false_ne_true
      | simp only [intBinary, same]
  exact compared _ _

namespace Region.ReadsPhi

variable (h : r.ReadsPhi a da phiA as)
include h

theorem small : da.ty.isSmall = true := h.ty ▸ Ty.isSmall_of_isInt h.isInt h.bytes

/-- A read of a register that holds one of the literals. -/
theorem value {fuel k : Nat} {w : Word} (at_k : as[k]? = some w)
    (bound : env.reg da.attrs.reg = some (.int w)) :
    r.evalWithin env (fuel + 1) a = .ok (some (.int w)) := by
  obtain ⟨ks, _, operands⟩ := h.operands
  have raw : r.rawValue env (r.evalWithin env fuel) a da = .ok ((some w).map .int) := by
    simp [rawValue, h.code, leafValue, bound, Op.isUnary, Op.isBinary]
  rw [evalWithin_of_words h.found raw h.small]
  obtain ⟨k, _, _, literal⟩ : ∃ k c, (r.node? k = some c ∧ c.intLit? = some w) ∧
      phiA.ty.wrapInt r.layout w = w := by
    obtain ⟨inside, rfl⟩ := List.getElem?_eq_some_iff.mp at_k
    obtain ⟨c, found, lit, wraps⟩ := operands.get (operands.length_eq ▸ inside) inside
    exact ⟨_, c, ⟨found, lit⟩, wraps⟩
  rw [Option.map_some, Option.map_some, h.ty, literal]

end Region.ReadsPhi

/-- Comparing two registers that hold one value. -/
theorem Region.eval_of_equal {w : Word} {k : Nat} (found : r.node? n = some d)
    (relation : d.code.isRelation = true) (slots : d.slots = [[a], [b]])
    (readA : r.ReadsPhi a da phiA as) (readB : r.ReadsPhi b db phiB bs) (atA : as[k]? = some w)
    (atB : bs[k]? = some w) (boundA : env.reg da.attrs.reg = some (.int w))
    (boundB : env.reg db.attrs.reg = some (.int w)) :
    r.eval env n =
      some <$> (Value.int (Word.ofBool d.code.holdsOfEqual)).normalize r.layout d.ty := by
  have inside := lt_size_of_node? found
  have binary : d.code.isBinary = true := by
    revert relation
    cases d.code <;> simp [Op.isRelation, Op.isBinary]
  obtain ⟨fuel, deep⟩ : ∃ fuel, r.depthBound = fuel + 1 + 1 :=
    ⟨r.nodes.size - 1, by rw [depthBound]; omega⟩
  have raw : r.rawValue env (r.evalWithin env (fuel + 1)) n d =
      .ok (some (.int (Word.ofBool d.code.holdsOfEqual))) := by
    rw [rawValue_binary (x := some w) (y := some w) binary (kid_of found (by rw [slots]; rfl))
      (kid_of found (by rw [slots]; rfl)) readA.found readB.found readA.small readB.small
      (readA.value atA boundA) (readB.value atB boundB)]
    rw [Option.bind_some, Option.bind_some, Ty.applyMixed_refl relation, Option.map_some]
  rw [eval, deep, evalWithin, node_of found]
  simp only [bind, Except.bind, raw]
  rfl

/-! ### The rule -/

/-- Literals that are pairwise equal. -/
theorem pairwiseSame_meets {js ks : List NodeId}
    (literalsA : List.Forall₂ (fun k w => ∃ c, r.node? k = some c ∧ c.intLit? = some w) js as)
    (literalsB : List.Forall₂ (fun k w => ∃ c, r.node? k = some c ∧ c.intLit? = some w) ks bs)
    (lengths : js.length = ks.length) :
    Meets ((js.zip ks).allM fun (x, y) => do
      match (← node x).intLit?, (← node y).intLit? with
      | some p, some q => return p == q
      | _, _ => return false) r F fun same r' => r' = r ∧ (same = true → as = bs) := by
  induction literalsA generalizing ks bs with
  | nil =>
    obtain rfl : ks = [] := List.eq_nil_of_length_eq_zero lengths.symm
    cases literalsB
    exact ⟨rfl, fun _ => rfl⟩
  | @cons j w js as first rest ih =>
    cases literalsB with
    | nil => cases lengths
    | @cons k x ks bs first' rest' =>
      obtain ⟨c, found, literal⟩ := first
      obtain ⟨c', found', literal'⟩ := first'
      rw [List.zip_cons_cons, List.allM]
      simp only [Edit.node, meets_bind, meets_ask, Region.node_of found, Region.node_of found',
        yields_ok, literal, literal', meets_pure]
      cases same : w == x with
      | false => exact ⟨rfl, fun off => Bool.noConfusion off⟩
      | true =>
        refine (ih rest' (Nat.succ.inj lengths)).to ?_
        rintro all _ ⟨rfl, equal⟩
        exact ⟨rfl, fun on => congrArg₂ List.cons (beq_iff_eq.mp same) (equal on)⟩

/-- Phis that merge the same have the same literals. -/
theorem mergeSame_meets (readA : r.ReadsPhi a da phiA as) (readB : r.ReadsPhi b db phiB bs) :
    Meets (mergeSame phiA phiB) r F fun same r' => r' = r ∧ (same = true → as = bs) := by
  have literals {k : NodeId} {w : Word} {t : Ty} (h : ∃ c, r.node? k = some c ∧
      c.intLit? = some w ∧ t.wrapInt r.layout w = w) :
      ∃ c, r.node? k = some c ∧ c.intLit? = some w := by
    obtain ⟨c, found, literal, _⟩ := h
    exact ⟨c, found, literal⟩
  obtain ⟨js, slotsA, operandsA⟩ := readA.operands
  obtain ⟨ks, slotsB, operandsB⟩ := readB.operands
  have slotA : phiA.slot 0 = .ok js := Node.slot_of (by rw [slotsA]; rfl)
  have slotB : phiB.slot 0 = .ok ks := Node.slot_of (by rw [slotsB]; rfl)
  simp only [mergeSame, meets_bind, meets_lift, slotA, slotB, yields_ok]
  split
  · exact ⟨rfl, fun off => Bool.noConfusion off⟩
  · rename_i unlike
    have lengths : js.length = ks.length := by simp_all
    exact pairwiseSame_meets (operandsA.imp fun _ _ => literals) (operandsB.imp fun _ _ => literals)
      lengths

theorem definingPhis_meets (readA : r.ReadsPhi a da phiA as) (readB : r.ReadsPhi b db phiB bs) :
    Meets (definingPhis? da db) r F fun phis r' => phis = some (phiA, phiB) ∧ r' = r := by
  obtain ⟨p, definedA, foundA⟩ := readA.defined
  obtain ⟨q, definedB, foundB⟩ := readB.defined
  simp [definingPhis?, readA.code, readB.code, definedA, definedB, Edit.node, Region.node_of foundA,
    Region.node_of foundB, readA.isPhi, readB.isPhi]

/-- A comparison is replaced only where the phis have the same literals, by the literal that says
whether it holds of equal values. -/
theorem decideByPhis_meets (found : r.node? n = some d) (slots : d.slots = [[a], [b]])
    (readA : r.ReadsPhi a da phiA as) (readB : r.ReadsPhi b db phiB bs) :
    Meets (decideByPhis n) r (fun _ => True) fun out r' => ∀ lit, out = some lit → as = bs ∧
      r'.layout = r.layout ∧ r'.core lit =
        some (.ofInt (Word.ofBool d.code.holdsOfEqual) d.ty) := by
  have kidA : r.kid n 0 = .ok a := Region.kid_of found (by rw [slots]; rfl)
  have kidB : r.kid n 1 = .ok b := Region.kid_of found (by rw [slots]; rfl)
  simp only [decideByPhis, operands, Edit.kid, Edit.node, meets_bind, meets_ask, kidA, kidB,
    yields_ok, meets_pure, Region.node_of readA.found, Region.node_of readB.found]
  refine (definingPhis_meets readA readB).to ?_
  rintro _ _ ⟨rfl, rfl⟩
  dsimp only
  split
  · rintro _ ⟨⟩
  refine Meets.bind (mergeSame_meets readA readB) ?_
  rintro merged r₀ ⟨rfl, same⟩
  cases merged with
  | false => rintro _ ⟨⟩
  | true =>
    rw [if_pos rfl]
    simp only [meets_bind, meets_ask, Region.node_of found, yields_ok, meets_intLiteral, fired,
      report, meets_modify, meets_pure, replaceBy]
    obtain ⟨c, literal⟩ : ∃ c : Node, c = .ofInt (Word.ofBool d.code.holdsOfEqual) d.ty := ⟨_, rfl⟩
    obtain ⟨r₁, pushed⟩ : ∃ r₁ : Region, r₁ =
      { r₀.push c with events := r₀.events.push (.ruleFired .decidedByPhis n) } := ⟨_, rfl⟩
    have look (m : NodeId) : r₁.node? m = if m = r₀.next then some c else r₀.node? m := by
      rw [pushed]
      exact Region.node?_push
    have old {m : NodeId} {x : Node} (at_m : r₀.node? m = some x) :
        m ≠ r₀.next ∧ r₁.node? m = some x := by
      have other : m ≠ r₀.next := by
        rintro rfl
        rw [Region.node?_next] at at_m
        cases at_m
      exact ⟨other, by rw [look, if_neg other, at_m]⟩
    have walk : r₁.subtree n = .ok [n, a, b] := by
      have deep : r₁.depthBound = r₀.nodes.size + 2 := by
        rw [pushed]; simp [Region.depthBound, Region.push]
      simp [Region.subtree, deep, Region.subtreeWithin, Region.node_of (old found).2, Node.kids,
        slots, Region.node_of (old readA.found).2, Region.node_of (old readB.found).2, readA.leaf,
        readB.leaf, bind, Except.bind, pure, Except.pure]
    have apart : r₀.next ∉ [n, a, b] := by
      simp [(old found).1.symm, (old readA.found).1.symm, (old readB.found).1.symm]
    have here := discardTree_aside walk
    rw [pushed, literal] at here
    refine here.to ?_
    rintro _ r' ⟨aside, _⟩ _ ⟨⟩
    refine ⟨same rfl, aside.layout, (aside.core _ apart).trans ?_⟩
    rw [← literal, ← pushed, Region.core, look, if_pos rfl, literal]
    rfl

theorem Region.eval_ofInt {w : Word} {ty : Ty} (core : r.core n = some (.ofInt w ty)) :
    r.eval env n = some <$> (Value.int w).normalize r.layout ty := by
  have core : r.core n = some ((Node.ofInt w ty).under none) := core
  obtain ⟨_, _, _, found⟩ := node?_of_core core
  rw [eval, depthBound, evalWithin, node_of found]
  simp only [bind, Except.bind, rawValue, leafValue, Op.isUnary, Op.isBinary]
  rfl

/-- Deciding a comparison of two registers by their phis: wherever both registers hold the literals
of one way into the block, the comparison has the value of the literal in its place. -/
theorem decideByPhis_preserves_eval {x y : Word} {k : Nat} (env : Env)
    (run : (decideByPhis n).run r = .ok (some lit, r')) (found : r.node? n = some d)
    (relation : d.code.isRelation = true) (slots : d.slots = [[a], [b]])
    (readA : r.ReadsPhi a da phiA as) (readB : r.ReadsPhi b db phiB bs) (atA : as[k]? = some x)
    (atB : bs[k]? = some y) (boundA : env.reg da.attrs.reg = some (.int x))
    (boundB : env.reg db.attrs.reg = some (.int y)) :
    r'.eval env lit = r.eval env n ∧ r.eval env n =
      some <$> (Value.int (Word.ofBool d.code.holdsOfEqual)).normalize r.layout d.ty := by
  obtain ⟨rfl, layout, core⟩ :=
    (meets_iff.mp (decideByPhis_meets found slots readA readB)).1 _ _ run lit rfl
  obtain rfl : x = y := Option.some.inj (atA.symm.trans atB)
  have before := Region.eval_of_equal found relation slots readA readB atA atB boundA boundB
  rw [before, Region.eval_ofInt core, layout]
  exact ⟨rfl, rfl⟩

/-- `$1 = phi(-1, 7)` in 8 bits, `$2 = phi(-1, 7)` in 64 bits, and `$3 = $1 <= $2`. -/
def Region.mergedTwice : Region :=
  { Region.empty ⟨8⟩ with
    nodes := #[
      some { Node.fresh .phi (.scalar .i8) (.ofRegister 1) [[⟨1⟩, ⟨2⟩]] with
        block := some ⟨0⟩, ssa := some ⟨0⟩ },
      some { Node.ofInt (-1) (.scalar .i8) with parent := some ⟨0⟩ },
      some { Node.ofInt 7 (.scalar .i8) with parent := some ⟨0⟩ },
      some { Node.fresh .phi (.scalar .i64) (.ofRegister 2) [[⟨4⟩, ⟨5⟩]] with
        block := some ⟨0⟩, ssa := some ⟨1⟩ },
      some { Node.ofInt (-1) (.scalar .i64) with parent := some ⟨3⟩ },
      some { Node.ofInt 7 (.scalar .i64) with parent := some ⟨3⟩ },
      some { Node.fresh .stpr (.scalar .bool) (.ofRegister 3) [[⟨7⟩]] with block := some ⟨0⟩ },
      some { Node.fresh .le (.scalar .bool) .none [[⟨8⟩], [⟨9⟩]] with parent := some ⟨6⟩ },
      some { Node.fresh .pr (.scalar .i8) (.ofRegister 1) [] with
        parent := some ⟨7⟩, ssa := some ⟨0⟩ },
      some { Node.fresh .pr (.scalar .i64) (.ofRegister 2) [] with
        parent := some ⟨7⟩, ssa := some ⟨1⟩ }]
    blocks := #[[⟨0⟩, ⟨3⟩, ⟨6⟩]]
    ssa := #[⟨some ⟨0⟩, ⟨[⟨8⟩], by simp⟩⟩, ⟨some ⟨3⟩, ⟨[⟨9⟩], by simp⟩⟩] }

/-- The comparison becomes true, and it was on both ways into the block. -/
theorem decideByPhis_mergedTwice : ∃ r',
    (decideByPhis ⟨7⟩).run .mergedTwice = .ok (some ⟨10⟩, r') ∧
    (r'.eval ((Env.empty.setReg 1 (.int (-1))).setReg 2 (.int (-1))) ⟨10⟩ =
        Region.mergedTwice.eval ((Env.empty.setReg 1 (.int (-1))).setReg 2 (.int (-1))) ⟨7⟩) ∧
      (r'.eval ((Env.empty.setReg 1 (.int 7)).setReg 2 (.int 7)) ⟨10⟩ =
        Region.mergedTwice.eval ((Env.empty.setReg 1 (.int 7)).setReg 2 (.int 7)) ⟨7⟩) ∧
      Region.mergedTwice.eval ((Env.empty.setReg 1 (.int 7)).setReg 2 (.int 7)) ⟨7⟩ =
        .ok (some (.int 1)) := by
  have ran : Meets (decideByPhis ⟨7⟩) .mergedTwice (fun _ => False) fun out _ =>
      out = some ⟨10⟩ := by
    decide +kernel
  obtain ⟨_, r', run, rfl⟩ := ran.ends
  have readA : Region.mergedTwice.ReadsPhi ⟨8⟩ _ _ [-1, 7] :=
    ⟨rfl, rfl, rfl, ⟨⟨0⟩, rfl, rfl⟩, rfl, rfl, rfl, by decide, [⟨1⟩, ⟨2⟩], rfl,
      .cons ⟨_, rfl, rfl, rfl⟩ (.cons ⟨_, rfl, rfl, rfl⟩ .nil)⟩
  have readB : Region.mergedTwice.ReadsPhi ⟨9⟩ _ _ [-1, 7] :=
    ⟨rfl, rfl, rfl, ⟨⟨3⟩, rfl, rfl⟩, rfl, rfl, rfl, by decide, [⟨4⟩, ⟨5⟩], rfl,
      .cons ⟨_, rfl, rfl, rfl⟩ (.cons ⟨_, rfl, rfl, rfl⟩ .nil)⟩
  have first := decideByPhis_preserves_eval (k := 0) ((Env.empty.setReg 1 (.int (-1))).setReg 2
    (.int (-1))) run rfl rfl rfl readA readB rfl rfl rfl rfl
  have second := decideByPhis_preserves_eval (k := 1) ((Env.empty.setReg 1 (.int 7)).setReg 2
    (.int 7)) run rfl rfl rfl readA readB rfl rfl rfl rfl
  exact ⟨r', run, first.1, second.1, second.2⟩

end Peephole
