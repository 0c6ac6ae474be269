import Peephole.Proofs.Custody
import Peephole.Proofs.Dropping
import Peephole.Proofs.Honesty
import Peephole.Proofs.Resting
import Peephole.Proofs.Rosters

/-!
# Folding twice

Folding leaves nothing to fold: where it returns, a second run at its result finds nothing to do.
Folding a node reads the node and its kids only, so what it declines to fold stays so while other
trees are folded. A shift by zero gives way to its left operand as it stands; if that slot holds a
statement, folding has passed it by.
-/

namespace Peephole

open Edit

variable {α β : Type} {s : Setting} {r r' r₁ r₂ : Region} {n m k x : NodeId} {d : Node} {i : Nat}
  {ks ks' ns ms : List NodeId}

/-- What folding reads of a node. -/
def Node.face (d : Node) : Node := .fresh d.code d.ty d.attrs d.slots

namespace Region

def face (r : Region) (n : NodeId) : Option Node := (r.node? n).map Node.face

theorem face_of (found : r.node? n = some d) : r.face n = some d.face := by
  rw [face, found, Option.map_some]

theorem node?_of_face (same : r'.face n = r.face n) (found : r.node? n = some d) :
    ∃ d', r'.node? n = some d' ∧ d'.face = d.face := by
  rw [face_of found] at same
  exact Option.map_eq_some_iff.mp same

theorem face_of_core (same : r'.core n = r.core n) : r'.face n = r.face n := by
  have faces := congrArg (Option.map Node.face) same
  rw [core, core, Option.map_map, Option.map_map] at faces
  exact faces

theorem face_put {e : Node} (found : r.node? n = some d) :
    (r.put n (some e)).face x = if x = n then some e.face else r.face x := by
  rw [face, node?_put (lt_size_of_node? found)]
  split <;> rfl

theorem face_reparent {up : Option NodeId} : (r.reparent ks up).face x = r.face x := by
  rw [face, face, node?_reparent]
  split
  · rw [Option.map_map]
    rfl
  · rfl

theorem kidsOf_of_face (same : r'.face n = r.face n) : r'.kidsOf n = r.kidsOf n := by
  have kids := congrArg (Option.map Node.kids) same
  rw [face, face, Option.map_map, Option.map_map] at kids
  exact kids

end Region

/-- Nothing but the events differs. -/
def Logged (r r' : Region) : Prop := ∃ events, r' = { r with events }

theorem Logged.refl : Logged r r := ⟨r.events, rfl⟩

theorem Logged.trans (first : Logged r r₁) (second : Logged r₁ r') : Logged r r' := by
  obtain ⟨_, rfl⟩ := first
  obtain ⟨events, rfl⟩ := second
  exact ⟨events, rfl⟩

/-- Folding finds nothing to do at the node itself. -/
def Declines (s : Setting) (r : Region) (n : NodeId) : Prop :=
  Meets (foldNode s n) r (fun _ => False) fun out r' => out = none ∧ Logged r r'

/-! ### What folding a node reads -/

/-- Folding `n` reads the same in both regions. -/
structure Alike (r r' : Region) (n : NodeId) : Prop where
  layout : r'.layout = r.layout
  vars : r'.vars = r.vars
  here : r'.face n = r.face n
  kids : ∀ d, r.node? n = some d → ∀ k ∈ d.kids, r'.face k = r.face k

theorem Alike.logged (h : Alike r r' n) (first : Logged r r₁) (second : Logged r' r₂) :
    Alike r₁ r₂ n := by
  obtain ⟨_, rfl⟩ := first
  obtain ⟨_, rfl⟩ := second
  exact ⟨h.layout, h.vars, h.here, h.kids⟩

theorem Alike.kid (h : Alike r r' n) (kid : r.kid n i = .ok k) :
    r'.kid n i = .ok k ∧ r'.face k = r.face k := by
  obtain ⟨d, answer, _⟩ := bind_eq_ok.mp kid
  have found := Region.node?_of_node answer
  obtain ⟨ks, slot⟩ := Region.slot_of_kid found kid
  obtain ⟨d', found', same⟩ := Region.node?_of_face h.here found
  have slots : d'.slots = d.slots := show d'.face.slots = d.face.slots by rw [same]
  refine ⟨Region.kid_of found' (slots ▸ slot), h.kids d found k ?_⟩
  exact List.mem_flatten.mpr ⟨_, List.mem_of_getElem? slot, List.mem_cons_self⟩

/-- Where the edit returns nothing in `r`, it has only looked, and does the same in `r'`. -/
def Echoes (m : Edit (Option NodeId)) (r r' : Region) : Prop :=
  Meets m r (fun _ => True) fun out r₁ => out = none → Logged r r₁ ∧
    Meets m r' (fun _ => False) fun out' r₂ => out' = none ∧ Logged r' r₂

/-- A question with the same answer in both regions. -/
def Asks (m : Edit α) (r r' : Region) : Prop :=
  Meets m r (fun _ => True) fun a r₁ => r₁ = r ∧
    Meets m r' (fun _ => False) fun a' r₂ => a' = a ∧ r₂ = r'

namespace Asks

theorem ask {q : Region → Except Fault α} (same : ∀ a, q r = .ok a → q r' = .ok a) :
    Asks (ask q) r r' := by
  rw [Asks, meets_ask]
  refine yields_iff.mpr ⟨fun a answer => ⟨rfl, ?_⟩, fun _ _ => trivial⟩
  rw [meets_ask, same a answer]
  exact ⟨rfl, rfl⟩

theorem pure (a : α) : Asks (pure a) r r' := ⟨rfl, rfl, rfl⟩

theorem lift {x : Except Fault α} : Asks (liftM x : Edit α) r r' := by
  cases x with
  | ok a => exact pure a
  | error f => exact trivial

theorem bind {q : Edit α} {f : α → Edit β} (first : Asks q r r') (next : ∀ a, Asks (f a) r r') :
    Asks (q >>= f) r r' := by
  refine Meets.bind first ?_
  rintro a _ ⟨rfl, there⟩
  refine (next a).to ?_
  rintro b _ ⟨rfl, follows⟩
  refine ⟨rfl, Meets.bind there ?_⟩
  rintro _ _ ⟨rfl, rfl⟩
  exact follows

theorem and {m k : Edit Bool} (first : Asks m r r') (second : Asks k r r') :
    Asks (m <&&> k) r r' := by
  refine first.bind fun a => ?_
  cases a
  · exact pure _
  · exact second

theorem or {m k : Edit Bool} (first : Asks m r r') (second : Asks k r r') :
    Asks (m <||> k) r r' := by
  refine first.bind fun a => ?_
  cases a
  · exact second
  · exact pure _

end Asks

namespace Echoes

theorem none : Echoes (pure none) r r' := fun _ => ⟨.refl, rfl, .refl⟩

theorem loud {m : Edit (Option NodeId)} (h : Loud (· = Option.none) m) : Echoes m r r' :=
  (h r).to fun _ _ loud still => absurd still loud

theorem ite {c : Prop} [Decidable c] {m k : Edit (Option NodeId)} (yes : Echoes m r r')
    (no : Echoes k r r') : Echoes (if c then m else k) r r' := by
  split
  · exact yes
  · exact no

theorem asks {q : Edit α} {f : α → Edit (Option NodeId)} (first : Asks q r r')
    (next : ∀ a, Echoes (f a) r r') : Echoes (q >>= f) r r' := by
  refine Meets.bind first ?_
  rintro a _ ⟨rfl, there⟩
  refine (next a).to fun out r₁ done still => ?_
  obtain ⟨logged, follows⟩ := done still
  refine ⟨logged, Meets.bind there ?_⟩
  rintro _ _ ⟨rfl, rfl⟩
  exact follows

/-- Reading a node, of which only its face is used. -/
theorem node {f : Node → Edit (Option NodeId)} (same : r'.face x = r.face x)
    (blind : ∀ d, f d.face = f d) (next : ∀ d, Echoes (f d) r r') :
    Echoes (Edit.node x >>= f) r r' := by
  rw [Echoes, Edit.node, meets_bind, meets_ask]
  refine Region.yields_node (fun d found => ?_) fun _ => trivial
  obtain ⟨d', found', faces⟩ := Region.node?_of_face same found
  refine (next d).to fun out r₁ done still => ?_
  obtain ⟨logged, follows⟩ := done still
  refine ⟨logged, ?_⟩
  rw [meets_bind, meets_ask, Region.node_of found', yields_ok, ← blind d', faces, blind d]
  exact follows

theorem kid {f : NodeId → Edit (Option NodeId)} (alike : Alike r r' n)
    (next : ∀ k, r'.face k = r.face k → Echoes (f k) r r') : Echoes (Edit.kid n i >>= f) r r' := by
  rw [Echoes, Edit.kid, meets_bind, meets_ask]
  refine yields_iff.mpr ⟨fun k answer => ?_, fun _ _ => trivial⟩
  obtain ⟨answer', same⟩ := alike.kid answer
  refine (next k same).to fun out r₁ done still => ?_
  obtain ⟨logged, follows⟩ := done still
  refine ⟨logged, ?_⟩
  rw [meets_bind, meets_ask, answer', yields_ok]
  exact follows

theorem operands {f : NodeId × NodeId → Edit (Option NodeId)} (alike : Alike r r' n)
    (next : ∀ a b, r'.face a = r.face a → r'.face b = r.face b → Echoes (f (a, b)) r r') :
    Echoes (Edit.operands n >>= f) r r' := by
  simp only [Edit.operands, bind_assoc, pure_bind]
  exact kid alike fun a left => kid alike fun b right => next a b left right

theorem layout {f : Layout → Edit (Option NodeId)} (alike : Alike r r' n)
    (next : ∀ l, Echoes (f l) r r') : Echoes (Edit.layout >>= f) r r' := by
  have asked : Asks Edit.layout r r' := by
    simp [Asks, Edit.layout, alike.layout]
  exact asks asked next

/-- An invariant without which there is nothing to do. -/
theorem require {c : Bool} {v : Violation} {next : Edit (Option NodeId)}
    (holds : Echoes next r r') :
    Echoes (do if ← Edit.require s c v then next else return Option.none) r r' := by
  cases c with
  | true => exact holds
  | false =>
    cases strict : s.strict with
    | true => simp [Echoes, Edit.require, strict]
    | false =>
      simp only [Echoes, Edit.require, strict, Edit.report, Bool.false_eq_true, if_false,
        bind_assoc, meets_bind, meets_modify, meets_pure]
      exact fun _ => ⟨⟨_, rfl⟩, trivial, _, rfl⟩

end Echoes

/-! ### Nodes that folding declines -/

theorem foldFloatValue_echoes {v : Value} (alike : Alike r r' n) :
    Echoes (foldFloatValue v n) r r' := by
  refine .node alike.here (fun _ => rfl) fun d => .layout alike fun l => ?_
  split
  · exact .loud (.bind fun _ => .bind fun _ => .bind fun _ => .pure nofun)
  · exact .none

theorem foldIntBinary_echoes {d d0 d1 : Node} {a b : Word} (alike : Alike r r' n) :
    Echoes (foldIntBinary s d d0 d1 a b n) r r' := by
  refine .layout alike fun l => .require ?_
  split
  · exact .loud (.bind fun _ => .bind fun _ => .bind fun _ => .pure nofun)
  · exact .none

theorem foldBinary_echoes (alike : Alike r r' n) : Echoes (foldBinary s n) r r' := by
  refine .node alike.here (fun _ => rfl) fun d => .operands alike fun a b left right => ?_
  refine .node left (fun _ => rfl) fun d0 => .node right (fun _ => rfl) fun d1 => ?_
  split
  · split
    · exact foldFloatValue_echoes alike
    · exact .none
  · split
    · exact foldIntBinary_echoes alike
    · exact .none

theorem foldIntUnary_echoes {d operand : Node} {a : Word} (alike : Alike r r' n) :
    Echoes (foldIntUnary s d operand a n) r r' := by
  refine .layout alike fun l => .require (.ite .none ?_)
  split
  · exact .loud (.bind fun _ => .bind fun _ => .bind fun _ => .bind fun _ => .pure nofun)
  · exact .none

theorem foldUnary_echoes (alike : Alike r r' n) : Echoes (foldUnary s n) r r' := by
  refine .node alike.here (fun _ => rfl) fun d => .kid alike fun k same => ?_
  refine .node same (fun _ => rfl) fun operand => ?_
  split
  · split
    · exact foldFloatValue_echoes alike
    · exact .none
  · split
    · exact foldIntUnary_echoes alike
    · exact .none

theorem substituteBinary_echoes (alike : Alike r r' n) : Echoes (substituteBinary n) r r' := by
  have null (a b : Node) : Asks (stringAddressAndNull a b) r r' := by
    have same : r'.isStringAddress a = r.isStringAddress a := by
      simp only [Region.isStringAddress, Region.var, alike.vars]
    exact .and (.ask fun _ answer => same.trans answer) (.pure _)
  have decided {m : Edit NodeId} {rule : Rule} : Echoes (do
      fired rule n
      return some (← m)) r r' :=
    .loud (.bind fun _ => .bind fun _ => .pure fun off => Option.some_ne_none _ off)
  refine .node alike.here (fun _ => rfl) fun d => .operands alike fun a b left right => ?_
  refine .node left (fun _ => rfl) fun d0 => .node right (fun _ => rfl) fun d1 => ?_
  split
  · exact .ite decided .none
  · exact .ite decided .none
  · exact .asks (.or (null _ _) (null _ _)) fun _ => .ite decided .none
  · exact .asks (.or (null _ _) (null _ _)) fun _ => .ite decided .none
  iterate 3
    refine .ite decided (.ite .none (.layout alike fun _ => .asks .lift fun _ => ?_))
    exact .ite decided .none
  · exact .none

theorem foldNode_echoes (alike : Alike r r' n) : Echoes (foldNode s n) r r' := by
  refine .node alike.here (fun _ => rfl) fun d => .ite ?_ ?_
  · -- the second rule looks at the regions after the first one has looked
    refine Meets.bind (foldBinary_echoes alike) fun out r₁ first => ?_
    cases out with
    | some new => exact nofun
    | none =>
      obtain ⟨before, there⟩ := first rfl
      obtain ⟨_, r₂, run, rfl, before'⟩ := there.ends
      refine (substituteBinary_echoes (alike.logged before before')).to
        fun out r₃ second still => ?_
      obtain ⟨after, follows⟩ := second still
      refine ⟨before.trans after, Meets.bind (there.and meets_run) ?_⟩
      rintro _ r₄ ⟨⟨rfl, _⟩, run'⟩
      obtain rfl : r₂ = r₄ := congrArg Prod.snd (Except.ok.inj (run.symm.trans run'))
      exact follows.to fun _ _ done => ⟨done.1, before'.trans done.2⟩
  · split
    iterate 3 exact foldUnary_echoes alike
    exact .none

/-- What is declined in one region is declined in another that reads alike. -/
theorem Declines.congr (h : Declines s r n) (alike : Alike r r' n) : Declines s r' n := by
  obtain ⟨_, r₁, run, rfl, _⟩ := h.ends
  exact ((meets_iff.mp (foldNode_echoes alike)).1 _ _ run rfl).2

/-! ### Trees at rest -/

namespace Region

def IsExpr (r : Region) (k : NodeId) : Prop := ∃ d, r.node? k = some d ∧ d.isStmt = false

theorem IsExpr.congr (h : r.IsExpr k) (same : r'.face k = r.face k) : r'.IsExpr k := by
  obtain ⟨d, found, expr⟩ := h
  obtain ⟨d', found', faces⟩ := node?_of_face same found
  have code : d'.code = d.code := show d'.face.code = d.face.code by rw [faces]
  exact ⟨d', found', by rw [Node.isStmt, code]; exact expr⟩

theorem Live.congr (h : r.Live k) (same : r'.face k = r.face k) : r'.Live k := by
  obtain ⟨d, found⟩ := h
  obtain ⟨d', found', _⟩ := node?_of_face same found
  exact ⟨d', found'⟩

end Region

/-- Folding has nothing to do at or below `n`. It passes over the slots that hold statements. -/
inductive AtRest (s : Setting) (r : Region) : NodeId → Prop
  | node {n : NodeId} {d : Node} (found : r.node? n = some d) (live : ∀ k ∈ d.kids, r.Live k)
      (kids : ∀ ks ∈ d.slots, (∀ k ∈ ks, r.IsExpr k) → ∀ k ∈ ks, AtRest s r k)
      (declines : Declines s r n) : AtRest s r n

/-- Trees of nodes in `S` look the same in both regions. -/
structure Retained (S : NodeId → Prop) (r r' : Region) : Prop where
  layout : r'.layout = r.layout
  vars : r'.vars = r.vars
  closed : ∀ x d, S x → r.node? x = some d → ∀ k ∈ d.kids, S k
  faces : ∀ x, S x → r'.face x = r.face x

theorem Untouched.retained (h : Untouched r r') : Retained (fun _ => True) r r' := by
  have layout := congrArg Region.layout h.rest
  have vars := congrArg Region.vars h.rest
  have faces (x : NodeId) := congrArg (Region.face · x) h.rest
  exact ⟨layout, vars, fun _ _ _ _ _ _ => trivial, fun x _ => faces x⟩

theorem Logged.untouched (h : Logged r r') : Untouched r r' := by
  obtain ⟨_, rfl⟩ := h
  exact ⟨List.prefix_rfl, rfl⟩

theorem AtRest.congr {S : NodeId → Prop} (h : AtRest s r n) (same : Retained S r r') (mem : S n) :
    AtRest s r' n := by
  induction h with
  | @node n d found live kids declines ih =>
    obtain ⟨d', found', faces⟩ := Region.node?_of_face (same.faces n mem) found
    have slots : d'.slots = d.slots := show d'.face.slots = d.face.slots by rw [faces]
    have inside (k : NodeId) (kid : k ∈ d.kids) : S k := same.closed n d mem found k kid
    have mine {ks : List NodeId} (slot : ks ∈ d.slots) {k : NodeId} (kid : k ∈ ks) : k ∈ d.kids :=
      List.mem_flatten.mpr ⟨ks, slot, kid⟩
    refine .node found' (fun k kid => ?_) (fun ks slot exprs k kid => ?_) ?_
    · rw [Node.kids, slots] at kid
      exact (live k kid).congr (same.faces k (inside k kid))
    · rw [slots] at slot
      refine ih ks slot (fun j held => ?_) k kid (inside k (mine slot kid))
      exact (exprs j held).congr (same.faces j (inside j (mine slot held))).symm
    · refine declines.congr ⟨same.layout, same.vars, same.faces n mem, fun e at_n k kid => ?_⟩
      obtain rfl := Option.some.inj (found.symm.trans at_n)
      exact same.faces k (inside k kid)

theorem Grove.single {at₁ : NodeId → Option (List NodeId)} (h : Grove at₁ ks ns) (mem : k ∈ ks) :
    ∃ ms, Grove at₁ [k] ms ∧ ms.Sublist ns := by
  induction h with
  | nil => simp at mem
  | @cons n kids ks below rest node trees _ _ ihRest =>
    rcases List.mem_cons.mp mem with rfl | mem
    · refine ⟨k :: below, Grove.singleton_iff.mpr ⟨kids, below, node, trees, rfl⟩, ?_⟩
      exact (List.sublist_append_left below rest).cons_cons k
    · obtain ⟨ms, tree, sub⟩ := ihRest mem
      exact ⟨ms, tree, (sub.trans (List.sublist_append_right below rest)).cons n⟩

/-- Whether there is a statement among live nodes. -/
theorem anyStmt_meets {F : Fault → Prop} (live : ∀ k ∈ ks, r.Live k) :
    Meets (ks.anyM isStmt) r F fun found r' => r' = r ∧ (found = false ↔ ∀ k ∈ ks, r.IsExpr k) := by
  induction ks with
  | nil => exact ⟨rfl, by simp⟩
  | cons k ks ih =>
    obtain ⟨⟨d, found⟩, others⟩ := List.forall_mem_cons.mp live
    simp only [List.anyM, Edit.isStmt, Edit.node, meets_bind, meets_ask, Region.node_of found,
      yields_ok, meets_pure]
    cases stmt : d.isStmt with
    | true =>
      refine ⟨rfl, iff_of_false Bool.noConfusion fun exprs => ?_⟩
      obtain ⟨e, found', expr⟩ := exprs k List.mem_cons_self
      rw [Option.some.inj (found.symm.trans found'), expr] at stmt
      cases stmt
    | false =>
      refine (ih others).to ?_
      rintro b _ ⟨rfl, answer⟩
      rw [List.forall_mem_cons]
      exact ⟨rfl, answer.trans (and_iff_right ⟨d, found, stmt⟩).symm⟩

theorem mapM_quiet {F : Fault → Prop} {I : Region → Prop} {fold : Pass} (start : I r)
    (each : ∀ k ∈ ks, ∀ r, I r → Meets (fold k) r F fun out r' => out.2 = false ∧ I r') :
    Meets (ks.mapM fold) r F fun outs r' => outs.any (·.2) = false ∧ I r' := by
  induction ks generalizing r with
  | nil => exact ⟨rfl, start⟩
  | cons k ks ih =>
    obtain ⟨here, there⟩ := List.forall_mem_cons.mp each
    rw [List.mapM_cons]
    refine Meets.bind (here r start) fun out r₁ first => ?_
    refine Meets.bind (ih first.2 there) fun outs r₂ rest => ⟨?_, rest.2⟩
    rw [List.any_cons, first.1, rest.1]
    rfl

theorem someOf_quiet {F : Fault → Prop} {I : Region → Prop} {f : α → Edit Bool} {xs : List α}
    (start : I r) (each : ∀ x ∈ xs, ∀ r, I r → Meets (f x) r F fun c r' => c = false ∧ I r') :
    Meets (someOf f xs) r F fun c r' => c = false ∧ I r' := by
  induction xs generalizing r with
  | nil => exact ⟨rfl, start⟩
  | cons x xs ih =>
    obtain ⟨here, there⟩ := List.forall_mem_cons.mp each
    rw [meets_someOf_cons]
    refine (here r start).to ?_
    rintro _ r₁ ⟨rfl, now⟩
    exact ih now there

theorem foldSlot_rests {fold : Pass} (found : r.node? n = some d) (slot : d.slots[i]? = some ks)
    (live : ∀ k ∈ ks, r.Live k)
    (each : (∀ k ∈ ks, r.IsExpr k) → ∀ k ∈ ks, ∀ r₁, Logged r r₁ →
      Meets (fold k) r₁ (fun _ => False) fun out r' => out = (k, false) ∧ Logged r r')
    (logged : Logged r r₁) : Meets (foldSlot fold n i) r₁ (fun _ => False)
      fun changed r' => changed = false ∧ Logged r r' := by
  have same := logged.untouched.retained.faces
  have at_i : r₁.kids n i = .ok ks := by
    obtain ⟨_, rfl⟩ := logged
    exact Region.kids_of found slot
  simp only [foldSlot, Edit.kids, meets_bind, meets_ask, at_i, yields_ok]
  refine (anyStmt_meets fun k kid => (live k kid).congr (same k trivial)).to ?_
  rintro stmt _ ⟨rfl, answer⟩
  cases stmt with
  | true => exact ⟨rfl, logged⟩
  | false =>
    have exprs (k : NodeId) (kid : k ∈ ks) : r.IsExpr k :=
      (answer.mp rfl k kid).congr (same k trivial).symm
    simp only [Bool.false_eq_true, if_false, meets_bind]
    refine (mapM_quiet logged fun k kid r₂ logged => ?_).to ?_
    · exact (each exprs k kid r₂ logged).to fun _ _ done => ⟨by rw [done.1], done.2⟩
    · rintro outs r₂ ⟨off, logged⟩
      simp only [off, Bool.false_eq_true, if_false]
      exact ⟨rfl, logged⟩

/-- Folding at rest only looks. -/
theorem AtRest.rests {fuel : Nat} (h : AtRest s r n) (tree : Grove r.kidsOf [n] ns)
    (deep : ns.length ≤ fuel) (logged : Logged r r₁) :
    Meets (foldWithin s fuel n) r₁ (fun _ => False) fun out r' =>
      out = (n, false) ∧ Logged r r' := by
  induction h generalizing ns fuel r₁ with
  | @node n d found live kids declines ih =>
    obtain ⟨_, below, at_n, trees, rfl⟩ := Grove.singleton_iff.mp tree
    rw [Region.kidsOf, found, Option.map_some] at at_n
    obtain rfl := Option.some.inj at_n
    obtain ⟨fuel, rfl⟩ : ∃ f, fuel = f + 1 := ⟨fuel - 1, by simp at deep; omega⟩
    have there : r₁.node? n = some d := by
      obtain ⟨_, rfl⟩ := logged
      exact found
    simp only [foldWithin, Edit.node, meets_bind, meets_ask, Region.node_of there, yields_ok]
    refine (someOf_quiet logged fun i inside r₂ logged => ?_).to ?_
    · have slot := List.getElem?_eq_getElem (List.mem_range.mp inside)
      have held := List.mem_of_getElem? slot
      have mine {k : NodeId} (kid : k ∈ _) : k ∈ d.kids := List.mem_flatten.mpr ⟨_, held, kid⟩
      refine foldSlot_rests found slot (fun k kid => live k (mine kid)) ?_ logged
      intro exprs k kid r₃ logged
      obtain ⟨ms, tree, sub⟩ := trees.single (mine kid)
      exact ih _ held exprs k kid tree (sub.length_le.trans (Nat.le_of_succ_le_succ deep)) logged
    · rintro _ r₂ ⟨rfl, logged⟩
      have same := logged.untouched.retained
      have declines : Declines s r₂ n := declines.congr
        ⟨same.layout, same.vars, same.faces n trivial, fun _ _ k _ => same.faces k trivial⟩
      refine Meets.to declines ?_
      rintro _ r₃ ⟨rfl, after⟩
      exact ⟨rfl, logged.trans after⟩

/-! ### Folding trees -/

/-- If `x` is a shift, its left slot holds no statement. -/
def Region.ShiftsValue (r : Region) (x : NodeId) : Prop :=
  ∀ d ks, r.node? x = some d → d.code.isShift = true → d.slots[0]? = some ks → ∀ k ∈ ks, r.IsExpr k

instance : Decidable (r.ShiftsValue x) :=
  decidable_of_iff (∀ d ∈ r.node? x, d.code.isShift = true → ∀ ks ∈ d.slots[0]?, ∀ k ∈ ks,
    ∃ e ∈ r.node? k, e.isStmt = false)
    ⟨fun h d ks found shift slot => h d found shift ks slot,
      fun h d found shift ks slot => h d ks found shift slot⟩

theorem Grove.closed (h : Grove r.kidsOf ks ns) :
    ∀ x d, x ∈ ns → r.node? x = some d → ∀ k ∈ d.kids, k ∈ ns := by
  intro x d mem found
  obtain ⟨kids, at_x, inside⟩ := h.kids_mem mem
  rw [Region.kidsOf, found, Option.map_some] at at_x
  exact Option.some.inj at_x ▸ inside

/-- The trees at `ks` have the nodes `ns`, each once, and their shifts shift values. -/
structure Orchard (r : Region) (ks ns : List NodeId) : Prop where
  grove : Grove r.kidsOf ks ns
  distinct : ns.Nodup
  values : ∀ x ∈ ns, r.ShiftsValue x

namespace Orchard

variable {ls as bs : List NodeId}

theorem congr {S : NodeId → Prop} (h : Orchard r ks ns) (same : Retained S r r')
    (inside : ∀ x ∈ ns, S x) : Orchard r' ks ns where
  grove := h.grove.congr fun x mem => Region.kidsOf_of_face (same.faces x (inside x mem))
  distinct := h.distinct
  values x mem d' js found' shift slot k kid := by
    obtain ⟨d, found, faces⟩ := Region.node?_of_face (same.faces x (inside x mem)).symm found'
    have code : d.code = d'.code := show d.face.code = d'.face.code by rw [faces]
    have slots : d.slots = d'.slots := show d.face.slots = d'.face.slots by rw [faces]
    rw [← code] at shift
    rw [← slots] at slot
    have held := List.mem_flatten.mpr ⟨js, List.mem_of_getElem? slot, kid⟩
    exact (h.values x mem d js found shift slot k kid).congr
      (same.faces k (same.closed x d (inside x mem) found k held))

theorem append_iff : Orchard r (ks ++ ls) ns ↔
    ∃ as bs, ns = as ++ bs ∧ Orchard r ks as ∧ Orchard r ls bs ∧ ∀ x ∈ as, x ∉ bs := by
  constructor
  · rintro ⟨grove, distinct, values⟩
    obtain ⟨as, bs, left, right, rfl⟩ := grove.split
    obtain ⟨distinctL, distinctR, apart⟩ := List.nodup_append.mp distinct
    obtain ⟨valuesL, valuesR⟩ := List.forall_mem_append.mp values
    exact ⟨as, bs, rfl, ⟨left, distinctL, valuesL⟩, ⟨right, distinctR, valuesR⟩,
      fun x mem mem' => apart x mem x mem' rfl⟩
  · rintro ⟨as, bs, rfl, left, right, apart⟩
    refine ⟨left.grove.append right.grove,
      List.nodup_append.mpr ⟨left.distinct, right.distinct, ?_⟩,
      List.forall_mem_append.mpr ⟨left.values, right.values⟩⟩
    rintro x mem _ mem' rfl
    exact apart x mem mem'

theorem node_iff (found : r.node? n = some d) : Orchard r [n] ns ↔
    ∃ bs, ns = n :: bs ∧ n ∉ bs ∧ r.ShiftsValue n ∧ Orchard r d.kids bs := by
  have kids : r.kidsOf n = some d.kids := by rw [Region.kidsOf, found, Option.map_some]
  constructor
  · rintro ⟨grove, distinct, values⟩
    obtain ⟨_, bs, at_n, trees, rfl⟩ := Grove.singleton_iff.mp grove
    obtain rfl := Option.some.inj (kids.symm.trans at_n)
    obtain ⟨fresh, distinct⟩ := List.nodup_cons.mp distinct
    obtain ⟨value, values⟩ := List.forall_mem_cons.mp values
    exact ⟨bs, rfl, fresh, value, trees, distinct, values⟩
  · rintro ⟨bs, rfl, fresh, value, trees, distinct, values⟩
    exact ⟨Grove.singleton_iff.mpr ⟨_, bs, kids, trees, rfl⟩, List.nodup_cons.mpr ⟨fresh, distinct⟩,
      List.forall_mem_cons.mpr ⟨value, values⟩⟩

end Orchard

/-- From `r` to `r'` the nodes `ns` have given way to the nodes `ms`; no other node looks
different. -/
structure Spared (r r' : Region) (ns ms : List NodeId) : Prop where
  size : r.nodes.size ≤ r'.nodes.size
  layout : r'.layout = r.layout
  vars : r'.vars = r.vars
  faces : ∀ x ∉ ns, x.index < r.nodes.size → r'.face x = r.face x
  within : ∀ x ∈ ms, x ∈ ns ∨ r.nodes.size ≤ x.index

namespace Spared

variable {ns' ms' ls : List NodeId}

theorem trans (first : Spared r r₁ ns ms) (second : Spared r₁ r' ms ls) : Spared r r' ns ls where
  size := first.size.trans second.size
  layout := second.layout.trans first.layout
  vars := second.vars.trans first.vars
  faces x out old := by
    have apart : x ∉ ms := fun mem => (first.within x mem).elim out (by omega)
    rw [second.faces x apart (old.trans_le first.size), first.faces x out old]
  within x mem := (second.within x mem).elim (first.within x) fun new => .inr (first.size.trans new)

theorem mono (h : Spared r r' ns ms) (sub : ∀ x ∈ ns, x ∈ ns') (new : ∀ x ∈ ms', x ∈ ms ∨ x ∈ ns') :
    Spared r r' ns' ms' :=
  { h with
    faces := fun x out => h.faces x fun mem => out (sub x mem)
    within := fun x mem => (new x mem).elim (fun mem => (h.within x mem).imp_left (sub x)) .inl }

theorem retained (h : Spared r r' ns ms) (trees : Grove r.kidsOf ks ls) (apart : ∀ x ∈ ls, x ∉ ns) :
    Retained (· ∈ ls) r r' := by
  refine ⟨h.layout, h.vars, trees.closed, fun x mem => h.faces x (apart x mem) ?_⟩
  obtain ⟨d, found⟩ := trees.live _ mem
  exact Region.lt_size_of_node? found

end Spared

/-- The trees at `ks` with the nodes `ns` have become trees at `ks'`, which are at rest. -/
def FoldsTo (s : Setting) (r : Region) (ks ns ks' : List NodeId) (r' : Region) : Prop :=
  ∃ ms, Orchard r' ks' ms ∧ Spared r r' ns ms ∧ (∀ k ∈ ks', AtRest s r' k) ∧
    ((∀ k ∈ ks, r.IsExpr k) → ∀ k ∈ ks', r'.IsExpr k)

/-- The pass leaves every tree at rest. -/
def SettlesTrees (s : Setting) (fold : Pass) : Prop :=
  ∀ r k ns, Orchard r [k] ns →
    Meets (fold k) r (fun _ => True) fun out r' => FoldsTo s r [k] ns [out.1] r'

theorem foldList {fold : Pass} (each : SettlesTrees s fold) (h : Orchard r ks ns) :
    Meets (ks.mapM fold) r (fun _ => True) fun outs r' =>
      FoldsTo s r ks ns (outs.map (·.1)) r' := by
  induction ks generalizing r ns with
  | nil =>
    cases h.grove
    exact ⟨[], h, ⟨le_rfl, rfl, rfl, fun _ _ _ => rfl, fun _ => .inl⟩, by simp, by simp⟩
  | cons k ks ih =>
    obtain ⟨as, bs, rfl, here, there, apart⟩ :=
      Orchard.append_iff.mp (show Orchard r ([k] ++ ks) ns from h)
    rw [List.mapM_cons]
    refine Meets.bind (each r k as here) ?_
    rintro out r₁ ⟨as', first, spared, rest, expr⟩
    have same := spared.retained there.grove fun x mem mem' => apart x mem' mem
    refine Meets.bind (ih (there.congr same fun _ => id)) ?_
    rintro outs r₂ ⟨bs', others, spared', rests, exprs⟩
    -- what the first tree has become is apart from the others, before and after
    have old (x : NodeId) (mem : x ∈ bs) : x.index < r.nodes.size := by
      obtain ⟨d, found⟩ := there.grove.live _ mem
      exact Region.lt_size_of_node? found
    have apart' (x : NodeId) (mem : x ∈ as') : x ∉ bs := fun mem' =>
      (spared.within x mem).elim (fun mem => apart x mem mem') fun new =>
        absurd (old x mem') (Nat.not_lt.mpr new)
    have apart'' (x : NodeId) (mem : x ∈ as') : x ∉ bs' := fun mem' =>
      (spared'.within x mem').elim (apart' x mem) fun new => by
        obtain ⟨d, found⟩ := first.grove.live _ mem
        exact absurd (Region.lt_size_of_node? found) (Nat.not_lt.mpr new)
    have same' := spared'.retained first.grove apart'
    have top : out.1 ∈ as' := first.grove.roots_mem _ List.mem_cons_self
    refine ⟨as' ++ bs',
      Orchard.append_iff.mpr ⟨as', bs', rfl, first.congr same' fun _ => id, others, apart''⟩, ?_,
      List.forall_mem_cons.mpr ⟨(rest _ List.mem_cons_self).congr same' top, rests⟩, fun all => ?_⟩
    · have left : Spared r r₁ (as ++ bs) (as' ++ bs) := spared.mono (by grind) (by grind)
      exact left.trans (spared'.mono (by grind) (by grind))
    · obtain ⟨here, there'⟩ := List.forall_mem_cons.mp all
      refine List.forall_mem_cons.mpr ⟨?_, exprs fun k kid => ?_⟩
      · exact (expr (by simpa using here) _ List.mem_cons_self).congr (same'.faces _ top)
      · exact (there' k kid).congr (same.faces k (there.grove.roots_mem k kid))

/-- The slot `j` of `n` is folded, or holds a statement. -/
def SlotDone (s : Setting) (r : Region) (n : NodeId) (j : Nat) : Prop :=
  ∀ d ks, r.node? n = some d → d.slots[j]? = some ks → (∀ k ∈ ks, r.IsExpr k) →
    ∀ k ∈ ks, AtRest s r k

/-- The slots `js` of `n` have been folded. -/
def Midway (s : Setting) (r : Region) (n : NodeId) (ns : List NodeId) (js : List Nat)
    (r' : Region) :
    Prop :=
  ∃ ms, Orchard r' [n] ms ∧ Spared r r' ns ms ∧ (r.IsExpr n → r'.IsExpr n) ∧
    ∀ j, j ∈ js ∨ SlotDone s r n j → SlotDone s r' n j

/-- Folded kids are in the place of the old ones. -/
theorem Midway.refit {as bs cs : List NodeId} (h : Orchard r [n] (n :: (as ++ (bs ++ cs))))
    (found : r.node? n = some d) (slot : d.slots[i]? = some ks)
    (left : Orchard r (d.slots.take i).flatten as)
    (right : Orchard r (d.slots.drop (i + 1)).flatten cs)
    (exprs : ∀ k ∈ ks, r.IsExpr k) (folded : FoldsTo s r ks bs ks' r₁)
    (size : r₂.nodes.size = r₁.nodes.size) (layout : r₂.layout = r₁.layout)
    (vars : r₂.vars = r₁.vars)
    (here : r₂.face n = some (d.holding i ks').face) (others : ∀ x, x ≠ n → r₂.face x = r₁.face x) :
    Midway s r n (n :: (as ++ (bs ++ cs))) [i] r₂ := by
  obtain ⟨bs', made, spared, rests, exprs'⟩ := folded
  obtain ⟨d₂, found₂, faces⟩ := Option.map_eq_some_iff.mp here
  have code : d₂.code = d.code := show d₂.face.code = (d.holding i ks').face.code by rw [faces]
  have slots : d₂.slots = d.slots.set i ks' :=
    show d₂.face.slots = (d.holding i ks').face.slots by rw [faces]
  have inside : i < d.slots.length := (List.getElem?_eq_some_iff.mp slot).1
  have old (x : NodeId) (mem : x ∈ n :: (as ++ (bs ++ cs))) : x.index < r.nodes.size := by
    obtain ⟨e, at_x⟩ := h.grove.live _ mem
    exact Region.lt_size_of_node? at_x
  have distinct := h.distinct
  have new (x : NodeId) (mem : x ∈ bs') : x ≠ n ∧ x ∉ as ∧ x ∉ cs := by
    have := spared.within x mem
    grind
  have kept (x : NodeId) (out : x ≠ n ∧ x ∉ bs) (old : x.index < r.nodes.size) :
      r₂.face x = r.face x :=
    (others x out.1).trans (spared.faces x out.2 old)
  have outer : Retained (fun x => x ∈ as ∨ x ∈ cs) r r₂ := by
    refine ⟨layout.trans spared.layout, vars.trans spared.vars, fun x e mem at_x k kid => ?_,
      fun x mem => kept x (by grind) (old x (by grind))⟩
    exact mem.imp (left.grove.closed x e · at_x k kid) (right.grove.closed x e · at_x k kid)
  have inner : Retained (· ∈ bs') r₁ r₂ :=
    ⟨layout, vars, made.grove.closed, fun x mem => others x (new x mem).1⟩
  -- the kids in other slots are outside
  have aside (j : Nat) (js : List NodeId) (other : j ≠ i) (at_j : d.slots[j]? = some js)
      (k : NodeId)
      (kid : k ∈ js) : k ∈ as ∨ k ∈ cs := by
    rcases Nat.lt_or_gt_of_ne other with before | after
    · refine .inl (left.grove.roots_mem k (List.mem_flatten.mpr ⟨js, ?_, kid⟩))
      exact List.mem_of_getElem? ((List.getElem?_take_of_lt before).trans at_j)
    · refine .inr (right.grove.roots_mem k (List.mem_flatten.mpr ⟨js, ?_, kid⟩))
      refine List.mem_of_getElem? (i := j - (i + 1)) ?_
      rw [List.getElem?_drop, ← at_j]
      congr 1
      omega
  have folded (k : NodeId) (kid : k ∈ ks') : k ∈ bs' := made.grove.roots_mem k kid
  refine ⟨n :: (as ++ (bs' ++ cs)), (Orchard.node_iff found₂).mpr ⟨_, rfl, by grind, ?_, ?_⟩,
    ?_, ?_, ?_⟩
  · intro e js at_n shift at_0 k kid
    obtain rfl := Option.some.inj (found₂.symm.trans at_n)
    rw [code] at shift
    rw [slots] at at_0
    by_cases first : i = 0
    · subst first
      rw [List.getElem?_set_self inside] at at_0
      obtain rfl := Option.some.inj at_0
      exact (exprs' exprs k kid).congr (inner.faces k (folded k kid))
    · rw [List.getElem?_set_ne first] at at_0
      exact (h.values n List.mem_cons_self d js found shift at_0 k kid).congr
        (outer.faces k (aside 0 js (Ne.symm first) at_0 k kid))
  · rw [Node.kids, slots, List.set_eq_take_append_cons_drop, if_pos inside, List.flatten_append,
      List.flatten_cons]
    refine Orchard.append_iff.mpr ⟨as, _, rfl, left.congr outer fun _ => .inl, ?_, by grind⟩
    exact Orchard.append_iff.mpr ⟨bs', cs, rfl, made.congr inner fun _ => id,
      right.congr outer fun _ => .inr, by grind⟩
  · refine ⟨size ▸ spared.size, outer.layout, outer.vars, fun x out => kept x (by grind),
      fun x mem => ?_⟩
    have := spared.within x
    grind
  · rintro ⟨e, at_n, expr⟩
    obtain rfl := Option.some.inj (found.symm.trans at_n)
    exact ⟨d₂, found₂, by rw [Node.isStmt, code]; exact expr⟩
  · rintro j done e js at_n at_j all k kid
    obtain rfl := Option.some.inj (found₂.symm.trans at_n)
    rw [slots] at at_j
    by_cases same : i = j
    · subst same
      rw [List.getElem?_set_self inside] at at_j
      obtain rfl := Option.some.inj at_j
      exact (rests k kid).congr inner (folded k kid)
    · rw [List.getElem?_set_ne same] at at_j
      have there := aside j js (Ne.symm same) at_j
      have before := done.resolve_left (by simpa using Ne.symm same)
      refine (before d js found at_j (fun l held => ?_) k kid).congr outer (there k kid)
      exact (all l held).congr (outer.faces l (there l held)).symm

theorem Spared.refl : Spared r r ns ns := ⟨le_rfl, rfl, rfl, fun _ _ _ => rfl, fun _ => .inl⟩

theorem foldSlot_folds {fold : Pass} (each : SettlesTrees s fold)
    (made : ∀ c k, Uniform ⟨s.toOptions, s.strict, s.strict, true⟩ c (fold k) (TellingPass k c))
    (h : Orchard r [n] ns) : Meets (foldSlot fold n i) r (fun _ => True) fun _ =>
      Midway s r n ns [i] := by
  obtain ⟨d, found⟩ := h.grove.live _ (h.grove.roots_mem n List.mem_cons_self)
  obtain ⟨bs, rfl, fresh, value, kids⟩ := (Orchard.node_iff found).mp h
  have at_i : r.kids n i = d.slot i := by rw [Region.kids, Region.node_of found]; rfl
  simp only [foldSlot, Edit.kids, meets_bind, meets_ask, at_i]
  refine Node.yields_slot (fun _ => trivial) fun ks slot => ?_
  obtain ⟨inside, rfl⟩ := List.getElem?_eq_some_iff.mp slot
  rw [Node.kids, ← List.take_append_drop i d.slots, List.drop_eq_getElem_cons inside,
    List.flatten_append, List.flatten_cons] at kids
  obtain ⟨as, _, rfl, left, rest, _⟩ := Orchard.append_iff.mp kids
  obtain ⟨bs, cs, rfl, mid, right, _⟩ := Orchard.append_iff.mp rest
  refine (anyStmt_meets fun k kid => mid.grove.live _ (mid.grove.roots_mem k kid)).to ?_
  rintro stmt _ ⟨rfl, answer⟩
  cases stmt with
  | true =>
    refine ⟨_, h, .refl, id, fun j done => done.elim (fun mem e js at_n at_j exprs => ?_) id⟩
    obtain rfl := List.mem_singleton.mp mem
    obtain rfl := Option.some.inj (found.symm.trans at_n)
    obtain rfl := Option.some.inj (slot.symm.trans at_j)
    exact absurd (answer.mpr exprs) Bool.noConfusion
  | false =>
    simp only [Bool.false_eq_true, if_false, meets_bind]
    refine ((foldList each mid).and ((Composed.passes made).honest _)).to ?_
    rintro outs r₁ ⟨folded, still⟩
    obtain ⟨ms, grown, spared, _⟩ := id folded
    have old := Region.lt_size_of_node? found
    have out : n ∉ bs := by simp_all
    have here := spared.faces n out old
    split
    · obtain ⟨d₁, found₁, faces⟩ := Region.node?_of_face here found
      have slots : d₁.slots = d.slots := show d₁.face.slots = d.face.slots by rw [faces]
      have apart : n ∉ outs.map (·.1) := fun mem =>
        (spared.within n (grown.grove.roots_mem n mem)).elim out (Nat.not_le.mpr old)
      rw [meets_bind, meets_setKids found₁ (slots ▸ inside)
        (fun k kid => grown.grove.live _ (grown.grove.roots_mem k kid)) apart]
      have kept : (r₁.reparent (outs.map (·.1)) (some n)).node? n = some d₁ := by
        rw [Region.node?_reparent, if_neg apart, found₁]
      refine Midway.refit h found slot left right (answer.mp rfl) folded (by simp) rfl rfl ?_
        fun x other => ?_
      · have holding := congrArg (Node.holding · i (outs.map (·.1))) faces
        rw [Region.face_put kept, if_pos rfl]
        exact congrArg some holding
      · rw [Region.face_put kept, if_neg other, Region.face_reparent]
    · rename_i off
      have same := (still (Bool.eq_false_of_not_eq_true off)).1
      refine Midway.refit h found slot left right (answer.mp rfl) folded rfl rfl rfl ?_
        fun _ _ => rfl
      rw [here, Region.face_of found, same, Node.holding, List.set_getElem_self]

theorem foldSlots_folds {fold : Pass} {is : List Nat} (each : SettlesTrees s fold)
    (made : ∀ c k, Uniform ⟨s.toOptions, s.strict, s.strict, true⟩ c (fold k) (TellingPass k c))
    (h : Orchard r [n] ns) :
    Meets (someOf (foldSlot fold n) is) r (fun _ => True) fun _ => Midway s r n ns is := by
  induction is generalizing r ns with
  | nil => exact ⟨ns, h, .refl, id, by simp⟩
  | cons i is ih =>
    rw [meets_someOf_cons]
    refine (foldSlot_folds each made h).to ?_
    rintro _ r₁ ⟨ms, h, spared, expr, done⟩
    refine (ih h).to ?_
    rintro _ r₂ ⟨ls, h, spared', expr', done'⟩
    refine ⟨ls, h, spared.trans spared', expr' ∘ expr, fun j now => done' j ?_⟩
    rcases now with mem | before
    · exact (List.mem_cons.mp mem).elim (fun same => .inr (done j (.inl (by simp [same])))) .inl
    · exact .inr (done j (.inr before))

/-! ### What takes the place of a folded node -/

/-- A new tree at rest, which is an expression. -/
def Made (s : Setting) (r : Region) (m : NodeId) (r₁ : Region) : Prop :=
  ∃ ms, Orchard r₁ [m] ms ∧ Spared r r₁ [] ms ∧ AtRest s r₁ m ∧ r₁.IsExpr m

theorem Spared.untouched (h : Spared r r₁ ns ms) (log : Untouched r₁ r₂) : Spared r r₂ ns ms := by
  have same := log.retained
  have size : r₂.nodes.size = r₁.nodes.size := congrArg (·.nodes.size) log.rest
  exact ⟨size ▸ h.size, same.layout.trans h.layout, same.vars.trans h.vars,
    fun x out old => (same.faces x trivial).trans (h.faces x out old), h.within⟩

theorem Made.untouched (h : Made s r m r₁) (log : Untouched r₁ r₂) : Made s r m r₂ := by
  obtain ⟨ms, tree, spared, rest, expr⟩ := h
  have same := log.retained
  exact ⟨ms, tree.congr same fun _ _ => trivial, spared.untouched log, rest.congr same trivial,
    expr.congr (same.faces m trivial)⟩

/-- Operations that are not folded, over kids at rest. -/
theorem build_made {code : Op} {ty : Ty} {attrs : Attrs} {slots : List (List NodeId)}
    (plain : code.isBinary = false) (other : code ≠ .neg ∧ code ≠ .lnot ∧ code ≠ .bnot)
    (expr : code.isStmt = false) (kids : Orchard r₁ slots.flatten ms)
    (rest : ∀ k ∈ slots.flatten, AtRest s r₁ k) (spared : Spared r r₁ [] ms) :
    Meets (build code ty attrs slots) r₁ (fun _ => True) (Made s r) := by
  have live (k : NodeId) (kid : k ∈ slots.flatten) : r₁.Live k :=
    kids.grove.live _ (kids.grove.roots_mem k kid)
  refine (meets_create (d := .fresh code ty attrs slots) ⟨rfl, rfl⟩ live).mpr ?_
  generalize later : Region.reparent _ _ _ = r₂
  have apart (x : NodeId) (live : r₁.Live x) : x ≠ r₁.next := by
    rintro rfl
    obtain ⟨_, found⟩ := live
    rw [Region.node?_next] at found
    cases found
  have found : r₂.node? r₁.next = some (.fresh code ty attrs slots) := by
    have outside : r₁.next ∉ (Node.fresh code ty attrs slots).kids :=
      fun mem => apart _ (live _ mem) rfl
    rw [← later, Region.node?_reparent, if_neg outside, Region.node?_push, if_pos rfl]
  have grown : Spared r₁ r₂ [] [r₁.next] := by
    rw [← later]
    refine ⟨by simp, rfl, rfl, fun x _ old => ?_, fun x mem => .inr ?_⟩
    · have other : x ≠ r₁.next := fun same => by simp [same, Region.next] at old
      rw [Region.face_reparent, Region.face, Region.node?_push, if_neg other, Region.face]
    · rw [List.mem_singleton.mp mem, Region.next]
  have same := grown.retained kids.grove fun x _ => List.not_mem_nil
  have inside (k : NodeId) (kid : k ∈ slots.flatten) : k ∈ ms := kids.grove.roots_mem k kid
  have unshifted : code.isShift = false := by
    cases code <;> first | rfl | cases plain
  refine ⟨r₁.next :: ms, (Orchard.node_iff found).mpr ⟨ms, rfl, fun mem => ?_,
    fun d ks at_n shift => ?_, kids.congr same fun _ => id⟩,
    spared.trans (grown.mono (by simp) (by simp)),
    .node found (fun k kid => ?_) (fun ks slot _ k kid => ?_) ?_, _, found, expr⟩
  · exact apart _ (kids.grove.live _ mem) rfl
  · obtain rfl := Option.some.inj (found.symm.trans at_n)
    exact absurd shift (by simp [Node.fresh, unshifted])
  · exact (live k kid).congr (same.faces k (inside k kid))
  · have kid := List.mem_flatten.mpr ⟨ks, slot, kid⟩
    exact (rest k kid).congr same (inside k kid)
  · exact (foldNode_other (Region.node_of found) plain other).meets.mpr ⟨rfl, .refl⟩

theorem literal_made {v : Literal} {ty : Ty} : Meets (literal v ty) r (fun _ => True) (Made s r) :=
  build_made rfl (by simp) rfl ⟨.nil, by simp, by simp⟩ (by simp) .refl

theorem intResult_made {ty t0 t1 : Ty} {v : Word} :
    Meets (intResult ty t0 t1 v) r (fun _ => True) (Made s r) := by
  simp only [intResult, Edit.layout, meets_bind, meets_get, meets_pure]
  split
  · rw [meets_bind]
    refine (Harmless.intern _ r).to fun common r₁ log => ?_
    rw [meets_bind, meets_lift]
    refine yields_iff.mpr ⟨fun w _ => Meets.bind (literal_made (s := s)) ?_, fun _ _ => trivial⟩
    rintro k r₂ ⟨ms, tree, spared, rest, _⟩
    refine build_made rfl (by simp) rfl tree (by simpa using rest) ?_
    exact (Spared.refl.untouched log).trans spared
  · rw [meets_bind, meets_lift]
    exact yields_iff.mpr ⟨fun w _ => literal_made, fun _ _ => trivial⟩

theorem discardTree_spares (h : Orchard r [n] ns) :
    Meets (discardTree n) r (fun _ => True) fun _ r' => Spared r r' ns [] := by
  have vars : Keeps (·.vars = r.vars) (fun _ => True) (discardTree n) := by
    have forget (x : NodeId) : Keeps (·.vars = r.vars) (fun _ => True) (forgetSsa x) := by
      refine .bind ask_keeps fun d => ?_
      split
      · exact .bind ask_keeps fun _ => .modify fun _ => id
      · exact .pure _
    have remove (x : NodeId) : Keeps (·.vars = r.vars) (fun _ => True) (removeSsaUse x) := by
      refine .bind ask_keeps fun d => ?_
      split
      · exact .bind (.modify fun _ => id) fun _ => .bind ask_keeps fun _ => .modify fun _ => id
      · exact .pure _
    have release : Keeps (·.vars = r.vars) (fun _ => True) (releaseTree n) :=
      .bind ask_keeps fun _ => .bind ask_keeps fun _ => .bind ask_keeps fun _ =>
        .forM fun x => .bind (forget x) fun _ => .bind ask_keeps fun _ => .modify fun _ => id
    have rest : Keeps (·.vars = r.vars) (fun _ => True) (do removeSsaUsesIn n; releaseTree n) :=
      .bind (.bind ask_keeps fun _ => .forM fun x => .bind ask_keeps fun _ =>
        .ite (remove x) (.pure _))
        fun _ => release
    refine .bind (.bind .get fun _ => .pure _) fun _ =>
      .ite (.bind (fun r₁ start => ?_) fun _ => rest) rest
    exact (cutUses_quiet r₁ rfl).imp (fun _ _ => trivial) fun _ _ same =>
      (Region.vars_of_skeleton same).trans start
  refine ((discardTree_aside (Region.subtree_of_grove h.grove h.distinct)).and (vars r rfl)).to ?_
  rintro _ r' ⟨⟨aside, _⟩, vars⟩
  exact ⟨aside.size.ge, aside.layout, vars, fun x out _ => Region.face_of_core (aside.core x out),
    by simp⟩

theorem replaceBy_folds (h : Orchard r [n] ns) (made : Made s r m r₁) :
    Meets (replaceBy n m) r₁ (fun _ => True) fun out r' => FoldsTo s r [n] ns [out] r' := by
  obtain ⟨ms, tree, spared, rest, expr⟩ := made
  have h₁ := h.congr (spared.retained h.grove fun x _ => List.not_mem_nil) fun _ => id
  refine Meets.bind (discardTree_spares h₁) fun _ r₂ dropped => ?_
  have apart (x : NodeId) (mem : x ∈ ms) : x ∉ ns := fun mem' => by
    obtain ⟨d, found⟩ := h.grove.live _ mem'
    have := (spared.within x mem).resolve_left List.not_mem_nil
    exact absurd (Region.lt_size_of_node? found) (Nat.not_lt.mpr this)
  have same := dropped.retained tree.grove apart
  have top : m ∈ ms := tree.grove.roots_mem m List.mem_cons_self
  refine ⟨ms, tree.congr same fun _ => id, ?_, by simpa using rest.congr same top,
    fun _ => by simpa using expr.congr (same.faces m top)⟩
  have both : Spared r r₁ ns (ns ++ ms) := spared.mono (by simp) (by grind)
  exact both.trans (dropped.mono (by grind) (by grind))

/-- A shift gives way to its left operand. -/
theorem spliceKid_folds (h : Orchard r [n] ns) (done : SlotDone s r n 0)
    (found : r.node? n = some d)
    (shift : d.code.isShift = true) :
    Meets (spliceKid n 0) r (fun _ => True) fun out r' => FoldsTo s r [n] ns [out] r' := by
  simp only [spliceKid, Edit.kid, takeKid, meets_bind, meets_ask, meets_discard, meets_pure]
  refine yields_iff.mpr ⟨fun k kid => ?_, fun _ _ => trivial⟩
  obtain ⟨ks, slot⟩ := Region.slot_of_kid found kid
  obtain ⟨rest, slots⟩ : ∃ rest, d.slots = (k :: ks) :: rest := by
    cases all : d.slots with
    | nil => simp [all] at slot
    | cons first rest =>
      exact ⟨rest, by rw [all, List.getElem?_cons_zero] at slot; rw [Option.some.inj slot]⟩
  obtain ⟨_, rfl, fresh, value, kids⟩ := (Orchard.node_iff found).mp h
  rw [Node.kids, slots, List.flatten_cons] at kids
  obtain ⟨bs, cs, rfl, left, right, apart⟩ := Orchard.append_iff.mp kids
  rw [meets_takeKids found slot fun j mem => left.grove.live _ (left.grove.roots_mem j mem)]
  generalize later : Region.reparent _ _ _ = r₁
  have taken : Spared r r₁ [n] [n] := by
    rw [← later]
    refine ⟨by simp, rfl, rfl, fun x out _ => ?_, fun _ => .inl⟩
    rw [Region.face_reparent, Region.face_put found, if_neg (by simpa using out)]
  have here : r₁.face n = some (d.holding 0 []).face := by
    rw [← later, Region.face_reparent, Region.face_put found, if_pos rfl]
  obtain ⟨d₁, found₁, faces⟩ := Option.map_eq_some_iff.mp here
  have slots₁ : d₁.slots = [] :: rest := by
    rw [show d₁.slots = d.slots.set 0 [] from
      show d₁.face.slots = (d.holding 0 []).face.slots by rw [faces], slots]
    rfl
  have others : Orchard r₁ [n] (n :: cs) := by
    refine (Orchard.node_iff found₁).mpr ⟨cs, rfl, by simp_all,
      fun e js at_n _ at_0 j mem => ?_, ?_⟩
    · obtain rfl := Option.some.inj (found₁.symm.trans at_n)
      rw [slots₁] at at_0
      obtain rfl := Option.some.inj at_0
      cases mem
    · rw [Node.kids, slots₁, List.flatten_cons, List.nil_append]
      exact right.congr (taken.retained right.grove (by grind)) fun _ => id
  refine (discardTree_spares others).to fun _ r₂ dropped => ?_
  have spared : Spared r r₂ (n :: cs) [] :=
    (taken.mono (by simp) (by simp) : Spared r r₁ (n :: cs) (n :: cs)).trans dropped
  obtain ⟨ms, tree, sub⟩ := left.grove.single List.mem_cons_self
  have same : Retained (· ∈ ms) r r₂ := spared.retained tree fun x mem => by
    have := sub.subset mem
    grind
  have own : Orchard r [k] ms :=
    ⟨tree, left.distinct.sublist sub, fun x mem => left.values x (sub.subset mem)⟩
  have exprs := value d _ found shift slot
  have top : k ∈ ms := tree.roots_mem k List.mem_cons_self
  refine ⟨ms, own.congr same fun _ => id, spared.mono (by grind) ?_, ?_, fun _ => ?_⟩
  · exact fun x mem => .inr (by have := sub.subset mem; simp [this])
  · simpa using (done d _ found slot exprs k List.mem_cons_self).congr same top
  · simpa using (exprs k List.mem_cons_self).congr (same.faces k top)

/-! ### Runs of folding -/

/-- The node `n`, of the operation `code`, is to be folded; its left operand is. -/
structure Ready (s : Setting) (n : NodeId) (ns : List NodeId) (code : Op) (r : Region) : Prop where
  tree : Orchard r [n] ns
  left : SlotDone s r n 0
  code : ∀ d, r.node? n = some d → d.code = code

/-- What the edit puts in place of `n` is at rest. -/
def FoldsAway (s : Setting) (n : NodeId) (ns : List NodeId) (code : Op) (m : Edit (Option NodeId)) :
    Prop :=
  ∀ r, Ready s n ns code r →
    Meets m r (fun _ => True) fun out r' => ∀ new, out = some new → FoldsTo s r [n] ns [new] r'

theorem Ready.untouched {code : Op} (ready : Ready s n ns code r) (log : Untouched r r₁) :
    Ready s n ns code r₁ := by
  have same := log.retained
  have back (x : NodeId) := (same.faces x trivial).symm
  refine ⟨ready.tree.congr same fun _ _ => trivial, fun e js at_n at_0 exprs k kid => ?_,
    fun e at_n => ?_⟩
  all_goals obtain ⟨d, found, faces⟩ := Region.node?_of_face (back n) at_n
  · have slots : d.slots = e.slots := show d.face.slots = e.face.slots by rw [faces]
    refine (ready.left d js found (slots ▸ at_0) (fun j held => ?_) k kid).congr same trivial
    exact (exprs j held).congr (back j)
  · exact (show d.face.code = e.face.code by rw [faces]).symm.trans (ready.code d found)

theorem FoldsTo.after {ns' : List NodeId} (spared : Spared r r₁ ns ns')
    (exprs : (∀ k ∈ ks, r.IsExpr k) → ∀ k ∈ ks, r₁.IsExpr k) (h : FoldsTo s r₁ ks ns' ks' r') :
    FoldsTo s r ks ns ks' r' := by
  obtain ⟨ms, tree, spared', rests, kept⟩ := h
  exact ⟨ms, tree, spared.trans spared', rests, fun all => kept (exprs all)⟩

theorem FoldsTo.untouched (log : Untouched r r₁) (h : FoldsTo s r₁ ks ns ks' r') :
    FoldsTo s r ks ns ks' r' :=
  h.after (Spared.refl.untouched log) fun all k mem =>
    (all k mem).congr (log.retained.faces k trivial)

namespace FoldsAway

variable {code : Op}

theorem none : FoldsAway s n ns code (pure none) := fun _ _ => nofun

theorem ite {c : Prop} [Decidable c] {f g : Edit (Option NodeId)} (yes : FoldsAway s n ns code f)
    (no : FoldsAway s n ns code g) : FoldsAway s n ns code (if c then f else g) := by
  split
  · exact yes
  · exact no

theorem after {q : Edit α} {f : α → Edit (Option NodeId)} (first : Harmless q)
    (next : ∀ a, FoldsAway s n ns code (f a)) : FoldsAway s n ns code (q >>= f) := by
  intro r ready
  refine Meets.bind (first r) fun a r₁ log => (next a r₁ (ready.untouched log)).to ?_
  exact fun out r' done new fires => (done new fires).untouched log

theorem node {f : Node → Edit (Option NodeId)}
    (next : ∀ d, d.code = code → FoldsAway s n ns code (f d)) :
    FoldsAway s n ns code (Edit.node n >>= f) := by
  intro r ready
  rw [Edit.node, meets_bind, meets_ask]
  exact Region.yields_node (fun d found => next d (ready.code d found) r ready) fun _ => trivial

/-- A new tree is put in place of the node. -/
theorem put {q : Edit NodeId} {rule : Rule} (makes : ∀ r, Meets q r (fun _ => True) (Made s r)) :
    FoldsAway s n ns code (do
      let folded ← q
      fired rule n
      return some (← replaceBy n folded)) := by
  intro r ready
  refine Meets.bind (makes r) fun m r₁ made => Meets.bind (Harmless.report _ r₁) fun _ r₂ log => ?_
  refine Meets.bind (replaceBy_folds ready.tree (made.untouched log))
    fun out r₃ done new fires => ?_
  obtain rfl := Option.some.inj fires
  exact done

theorem putInt {v : Word} {rule : Rule} : FoldsAway s n ns code (do
    fired rule n
    return some (← replaceByInt n v)) := by
  refine .after (.report _) fun _ r ready => ?_
  simp only [replaceByInt, Edit.node, bind_assoc, meets_bind, meets_ask]
  refine Region.yields_node (fun d _ => ?_) fun _ => trivial
  refine (literal_made (s := s)).to fun m r₁ made => (replaceBy_folds ready.tree made).to
    fun out r₂ done new fires => ?_
  obtain rfl := Option.some.inj fires
  exact done

theorem splice {rule : Rule} (shift : code.isShift = true) : FoldsAway s n ns code (do
    fired rule n
    return some (← spliceKid n 0)) := by
  refine .after (.report _) fun _ r ready => ?_
  obtain ⟨d, found⟩ := ready.tree.grove.live _ (ready.tree.grove.roots_mem n List.mem_cons_self)
  refine Meets.bind (spliceKid_folds ready.tree ready.left found (ready.code d found ▸ shift))
    fun out r₂ done new fires => ?_
  obtain rfl := Option.some.inj fires
  exact done

theorem foldFloatValue {v : Value} : FoldsAway s n ns code (foldFloatValue v n) := by
  refine .after .node fun d => .after .layout fun l => ?_
  split
  · exact .put fun _ => literal_made
  · exact .none

theorem foldBinary : FoldsAway s n ns code (foldBinary s n) := by
  refine .after .node fun d => .after .operands fun (op0, op1) => ?_
  refine .after .node fun d0 => .after .node fun d1 => ?_
  split
  · split
    · exact foldFloatValue
    · exact .none
  · split
    · refine .after .layout fun l => .after (.require _ _) fun _ => .ite ?_ .none
      split
      · exact .put fun _ => intResult_made
      · exact .none
    · exact .none

theorem foldUnary : FoldsAway s n ns code (foldUnary s n) := by
  refine .after .node fun d => .after .kid fun _ => .after .node fun operand => ?_
  split
  · split
    · exact foldFloatValue
    · exact .none
  · split
    · refine .after .layout fun l => .after (.require _ _) fun _ => .ite (.ite .none ?_) .none
      split
      · exact .after (.lift _) fun _ => .put fun _ => literal_made
      · exact .none
    · exact .none

theorem substituteBinary : FoldsAway s n ns code (substituteBinary n) := by
  have null (a b : Node) : Harmless (stringAddressAndNull a b) := .and (.ask _) (.pure _)
  refine .node fun d same => .after .operands fun (op0, op1) => ?_
  refine .after .node fun d0 => .after .node fun d1 => ?_
  split
  · exact .ite putInt .none
  · exact .ite putInt .none
  · exact .after (.or (null _ _) (null _ _)) fun _ => .ite putInt .none
  · exact .after (.or (null _ _) (null _ _)) fun _ => .ite putInt .none
  iterate 3
    rename_i shift
    refine .ite (.splice (by rw [← same, shift]; rfl)) (.ite .none ?_)
    exact .after .layout fun _ => .after (.lift _) fun _ => .ite putInt .none
  · exact .none

theorem foldNode : FoldsAway s n ns code (foldNode s n) := by
  refine .after .node fun d => .ite (fun r ready => ?_) ?_
  · refine Meets.bind ((foldBinary r ready).and (foldBinary_honest r)) fun out r₁ ⟨first, log⟩ => ?_
    cases out with
    | some new => exact first
    | none =>
      have log := (log rfl).2
      exact (substituteBinary r₁ (ready.untouched log)).to fun out r₂ done new fires =>
        (done new fires).untouched log
  · split
    iterate 3 exact foldUnary
    exact .none

end FoldsAway

theorem Alike.refl : Alike r r n := ⟨rfl, rfl, rfl, fun _ _ _ _ => rfl⟩

/-- A node whose slots are folded is at rest where folding declines it. -/
theorem AtRest.of_declined (h : Orchard r [n] ns) (done : ∀ j, SlotDone s r n j)
    (declines : Declines s r n) : AtRest s r n := by
  have mem : n ∈ ns := h.grove.roots_mem n List.mem_cons_self
  obtain ⟨d, found⟩ := h.grove.live _ mem
  refine .node found (fun k kid => h.grove.live _ (h.grove.closed n d mem found k kid)) ?_ declines
  intro ks slot exprs
  obtain ⟨j, at_j⟩ := List.mem_iff_getElem?.mp slot
  exact done j d ks found at_j exprs

theorem foldWithin_settles {fuel : Nat} : SettlesTrees s (foldWithin s fuel) := by
  induction fuel with
  | zero => exact fun _ _ _ _ => trivial
  | succ fuel ih =>
    intro r n ns tree
    obtain ⟨d, found⟩ := tree.grove.live _ (tree.grove.roots_mem n List.mem_cons_self)
    simp only [foldWithin, Edit.node, meets_bind, meets_ask, Region.node_of found, yields_ok]
    refine (foldSlots_folds ih (fun _ _ => .foldWithin) tree).to ?_
    rintro changed r₁ ⟨ms, tree₁, spared, expr, done⟩
    have all (j : Nat) : SlotDone s r₁ n j := by
      refine done j (or_iff_not_imp_left.mpr fun outside e ks at_n at_j => ?_)
      obtain rfl := Option.some.inj (found.symm.trans at_n)
      exact absurd (List.mem_range.mpr (List.getElem?_eq_some_iff.mp at_j).1) outside
    obtain ⟨e, at_n⟩ := tree₁.grove.live _ (tree₁.grove.roots_mem n List.mem_cons_self)
    have ready : Ready s n ms e.code r₁ :=
      ⟨tree₁, all 0, fun e' at_n' => by rw [Option.some.inj (at_n.symm.trans at_n')]⟩
    refine ((FoldsAway.foldNode r₁ ready).and (foldNode_echoes .refl)).to ?_
    rintro (_ | new) r₂ ⟨fires, echoes⟩
    · obtain ⟨logged, declines⟩ := echoes rfl
      have same := logged.untouched.retained
      have rests := (AtRest.of_declined tree₁ all declines).congr same trivial
      refine ⟨ms, tree₁.congr same fun _ _ => trivial, spared.untouched logged.untouched,
        by simpa using rests, fun exprs => ?_⟩
      simpa using (expr (exprs n List.mem_cons_self)).congr (same.faces n trivial)
    · exact (fires new rfl).after spared (by simpa using expr)

/-- Folding a second time finds nothing to do, and a fold that reports no change has made none. -/
theorem foldTree_idempotent {c : Bool} (run : (foldTree s n).run r = .ok ((m, c), r')) :
    (∀ ns, r.subtree n = .ok ns → ns.Nodup → (∀ x ∈ ns, r.ShiftsValue x) →
      ∃ events, (foldTree s m).run r' = .ok ((m, false), { r' with events })) ∧
    (c = false → m = n ∧ Untouched r r') := by
  refine ⟨fun ns walk distinct values => ?_, (meets_iff.mp (foldTree_honest r)).1 _ _ run⟩
  have tree : Orchard r [n] ns := ⟨Region.grove_of_walk walk, distinct, values⟩
  obtain ⟨ms, tree', _, rests, _⟩ := (meets_iff.mp (foldWithin_settles r n ns tree)).1 _ _ run
  have deep : ms.length ≤ r'.depthBound :=
    (Region.length_le_size tree'.distinct tree'.grove.live).trans (Nat.le_succ _)
  obtain ⟨_, _, again, rfl, events, rfl⟩ :=
    ((rests m List.mem_cons_self).rests tree'.grove deep .refl).ends
  exact ⟨events, again⟩

/-- A shift by zero of a sum inside the operation `code`. -/
def Region.shiftedSum (code : Op) (attrs : Attrs) : Region :=
  { Region.empty ⟨8⟩ with
    nodes := #[
      some { Node.ofInt 1 (.scalar .i32) with parent := some ⟨2⟩ },
      some { Node.ofInt 2 (.scalar .i32) with parent := some ⟨2⟩ },
      some { Node.fresh .add (.scalar .i32) .none [[⟨0⟩], [⟨1⟩]] with parent := some ⟨3⟩ },
      some { Node.fresh code (.scalar .i32) attrs [[⟨2⟩]] with parent := some ⟨5⟩ },
      some { Node.ofInt 0 (.scalar .i32) with parent := some ⟨5⟩ },
      some (.fresh .lsl (.scalar .i32) .none [[⟨3⟩], [⟨4⟩]])] }

theorem foldTree_idempotent_cvt : ∃ r' events,
    (foldTree ⟨.standard, true⟩ ⟨5⟩).run (.shiftedSum .cvt .none) = .ok ((⟨3⟩, true), r') ∧
    (foldTree ⟨.standard, true⟩ ⟨3⟩).run r' = .ok ((⟨3⟩, false), { r' with events }) := by
  have ends : Meets (foldTree ⟨.standard, true⟩ ⟨5⟩) (.shiftedSum .cvt .none) (fun _ => False)
      fun out _ => out = (⟨3⟩, true) := by
    decide +kernel
  obtain ⟨_, r', run, rfl⟩ := ends.ends
  have walk : (Region.shiftedSum .cvt .none).subtree ⟨5⟩ = .ok [⟨5⟩, ⟨3⟩, ⟨2⟩, ⟨0⟩, ⟨1⟩, ⟨4⟩] := rfl
  obtain ⟨events, again⟩ := (foldTree_idempotent run).1 _ walk (by decide) (by decide)
  exact ⟨r', events, run, again⟩

/-- Folding passes by the sum inside a store, which then takes the place of the shift: there is
more to fold. -/
theorem foldTree_shiftedStore : ∃ r' r'',
    (foldTree ⟨.standard, true⟩ ⟨5⟩).run (.shiftedSum .stpr (.ofRegister 1)) = .ok
    ((⟨3⟩, true), r') ∧
    (foldTree ⟨.standard, true⟩ ⟨3⟩).run r' = .ok ((⟨3⟩, true), r'') := by
  have ends : Meets (foldTree ⟨.standard, true⟩ ⟨5⟩) (.shiftedSum .stpr (.ofRegister 1))
      (fun _ => False)
      fun out r' => out = (⟨3⟩, true) ∧ Meets (foldTree ⟨.standard, true⟩ ⟨3⟩) r' (fun _ => False)
        fun again _ => again = (⟨3⟩, true) := by
    decide +kernel
  obtain ⟨_, r', run, rfl, more⟩ := ends.ends
  obtain ⟨_, r'', again, rfl⟩ := more.ends
  exact ⟨r', r'', run, again⟩

end Peephole
