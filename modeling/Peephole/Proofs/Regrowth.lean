import Peephole.Proofs.Forest
import Peephole.Proofs.Order

/-!
# Rebuilding trees

What the edits that rules are made of make of the trees of a forest.
-/

namespace Peephole

open Edit Peephole.Tree

variable {α : Type} {F : Fault → Prop} {s : Setting} {r r' r₀ : Region} {n m k : NodeId}
  {ns ms ns₀ : List NodeId} {ps : List Piece} {code : Op} {ty q : Ty} {attrs : Attrs}
  {slots : List (List Tree)} {ids : List (List NodeId)} {i : Nat} {a b c t u : Tree}
  {up up' : Option NodeId}

namespace Fits

theorem one (h : Fits [[a]] ids) : ∃ x, ids = [[x]] := by
  match ids, h with
  | [[x]], _ => exact ⟨x, rfl⟩

theorem two (h : Fits [[a], [b]] ids) : ∃ x y, ids = [[x], [y]] := by
  match ids, h with
  | [[x], [y]], _ => exact ⟨x, y, rfl⟩

theorem three (h : Fits [[a], [b], [c]] ids) : ∃ x y z, ids = [[x], [y], [z]] := by
  match ids, h with
  | [[x], [y], [z]], _ => exact ⟨x, y, z, rfl⟩

end Fits

/-- A node is the top of a tree. -/
structure Tops (d : Node) (t : Tree) : Prop where
  code : d.code = t.code
  ty : d.ty = t.ty
  attrs : d.attrs = t.attrs

namespace Tops

variable {d : Node}

theorem intLit? (h : Tops d t) : d.intLit? = t.top.intLit? := by
  cases d
  obtain ⟨rfl, rfl, rfl⟩ := h
  rfl

theorem floatLit? (h : Tops d t) : d.floatLit? = t.top.floatLit? := by
  cases d
  obtain ⟨rfl, rfl, rfl⟩ := h
  rfl

theorem isIntLit {v : Word} (h : Tops d t) : d.isIntLit v = t.isLit v := by
  rw [Node.isIntLit, h.intLit?, isLit, lit?]

theorem isConst (h : Tops d t) : d.isConst = t.isConst := by
  simp [Node.isConst, Tree.isConst, h.code]

end Tops

namespace Forest

/-! ### Nodes of one, two and three kids -/

theorem splitOne (h : Forest r₀ ns₀ (.tree (one code ty attrs a) n up :: ps) r) :
    ∃ x, Forest r₀ ns₀ (.stub (.fresh code ty attrs [[x]]) n up :: .tree a x (some n) :: ps) r := by
  obtain ⟨ids, fits, h⟩ := h.split
  obtain ⟨x, rfl⟩ := fits.one
  exact ⟨x, h⟩

theorem splitTwo (h : Forest r₀ ns₀ (.tree (two code ty attrs a b) n up :: ps) r) :
    ∃ x y, Forest r₀ ns₀ (.stub (.fresh code ty attrs [[x], [y]]) n up ::
      .tree a x (some n) :: .tree b y (some n) :: ps) r := by
  obtain ⟨ids, fits, h⟩ := h.split
  obtain ⟨x, y, rfl⟩ := fits.two
  exact ⟨x, y, h⟩

theorem splitThree (h : Forest r₀ ns₀ (.tree (three code ty attrs a b c) n up :: ps) r) :
    ∃ x y z, Forest r₀ ns₀ (.stub (.fresh code ty attrs [[x], [y], [z]]) n up ::
      .tree a x (some n) :: .tree b y (some n) :: .tree c z (some n) :: ps) r := by
  obtain ⟨ids, fits, h⟩ := h.split
  obtain ⟨x, y, z, rfl⟩ := fits.three
  exact ⟨x, y, z, h⟩

theorem joinOne {x : NodeId} (h : Forest r₀ ns₀
      (.stub (.fresh code ty attrs [[x]]) n up :: .tree a x (some n) :: ps) r) :
    Forest r₀ ns₀ (.tree (one code ty attrs a) n up :: ps) r :=
  h.join (show Fits [[a]] [[x]] from rfl)

theorem joinTwo {x y : NodeId} (h : Forest r₀ ns₀ (.stub (.fresh code ty attrs [[x], [y]]) n up ::
      .tree a x (some n) :: .tree b y (some n) :: ps) r) :
    Forest r₀ ns₀ (.tree (two code ty attrs a b) n up :: ps) r :=
  h.join (show Fits [[a], [b]] [[x], [y]] from rfl)

theorem joinThree {x y z : NodeId} (h : Forest r₀ ns₀
      (.stub (.fresh code ty attrs [[x], [y], [z]]) n up ::
        .tree a x (some n) :: .tree b y (some n) :: .tree c z (some n) :: ps) r) :
    Forest r₀ ns₀ (.tree (three code ty attrs a b c) n up :: ps) r :=
  h.join (show Fits [[a], [b], [c]] [[x], [y], [z]] from rfl)

/-- The node on top of a tree. -/
theorem node (h : Forest r₀ ns₀ ps r) (mem : .tree t n up ∈ ps) :
    ∃ d, r.node? n = some d ∧ Tops d t ∧ Fits t.slots d.slots := by
  obtain ⟨ids, found, fits⟩ := h.tree_found mem
  obtain ⟨_, _, _, found⟩ := Region.node?_of_core found
  exact ⟨_, found, ⟨rfl, rfl, rfl⟩, fits⟩

/-! ### Building -/

theorem literal (h : Forest r₀ ns₀ ps r) (v : Literal) (q : Ty) :
    Meets (literal v q) r F fun m r' => Forest r₀ ns₀ (.tree (lit v q) m none :: ps) r' :=
  build (show Fits [] [] from rfl) .nil h

theorem unary (h : Forest r₀ ns₀ (.tree a k up :: ps) r) (known : code.isUnary = true) :
    Meets (Edit.unary code ty k) r F fun m r' => m ≠ k ∧
      Forest r₀ ns₀ (.tree (one code ty .none a) m none :: ps) r' := by
  simp only [Edit.unary, known, Bool.not_true, Bool.false_eq_true, if_false]
  have trees : Scattered [a] [[k]].flatten [.tree a k up] := .cons .nil
  refine (create trees h).to fun m r' h => ⟨?_, h.joinOne⟩
  exact h.root_ne (q := .tree a k (some m)) (by simp [planted])

theorem convert (h : Forest r₀ ns₀ (.tree a k up :: ps) r) (q : Ty) :
    Meets (convert k q) r F fun m r' => m ≠ k ∧
      Forest r₀ ns₀ (.tree (one .cvt q .none a) m none :: ps) r' :=
  h.unary rfl

theorem logicalNot (h : Forest r₀ ns₀ (.tree a k up :: ps) r) :
    Meets (logicalNot k) r F fun m r' => m ≠ k ∧
      Forest r₀ ns₀ (.tree (one .lnot (.scalar .bool) .none a) m none :: ps) r' := by
  refine Meets.bind (h.intern (.scalar .bool)) ?_
  rintro _ r' ⟨rfl, h⟩
  exact h.unary rfl

theorem binary {x y : NodeId} (h : Forest r₀ ns₀ (.tree a x up :: .tree b y up' :: ps) r)
    (known : code.isBinary = true) :
    Meets (Edit.binary code ty x y) r F fun m r' => m ≠ x ∧
      Forest r₀ ns₀ (.tree (two code ty .none a b) m none :: ps) r' := by
  simp only [Edit.binary, known, Bool.not_true, Bool.false_eq_true, if_false]
  have trees : Scattered [a, b] [[x], [y]].flatten [.tree a x up, .tree b y up'] :=
    .cons (.cons .nil)
  refine (create trees h).to fun m r' h => ⟨?_, h.joinTwo⟩
  exact h.root_ne (q := .tree a x (some m)) (by simp [planted])

theorem zeroFor (h : Forest r₀ ns₀ ps r) (q : Ty) :
    Meets (zeroFor q) r F fun m r' =>
      Forest r₀ ns₀ (.tree (zeroOf r₀.layout q) m none :: ps) r' := by
  unfold Edit.zeroFor zeroOf
  split
  · exact h.literal _ _
  · split
    · exact h.literal _ _
    · simp only [Edit.layout, meets_bind, meets_get, meets_pure, h.layout]
      refine (h.intern _).to ?_
      rintro _ r' ⟨rfl, h⟩
      exact h.literal _ _

theorem judgement (h : Forest r₀ ns₀ (.tree t k up :: ps) r) :
    Meets (judgement k) r F fun m r' => m ≠ k ∧
      Forest r₀ ns₀ (.tree (t.judgement r₀.layout) m none :: ps) r' := by
  obtain ⟨d, found, tops, _⟩ := h.node List.mem_cons_self
  simp only [Edit.judgement, Edit.node, meets_bind, meets_ask, Region.node_of found, yields_ok,
    tops.ty]
  refine (h.zeroFor t.ty).to fun zero r₁ h => ?_
  simp only [comparison, Op.isRelation, Bool.not_true, Bool.false_eq_true, if_false]
  refine Meets.bind (h.swap.intern (.scalar .bool)) ?_
  rintro _ r₂ ⟨rfl, h⟩
  exact h.binary rfl

/-! ### Types -/

theorem restamp {v : Word} (h : Forest r₀ ns₀ (.tree t k up :: ps) r)
    (value : t.top.intLit? = some v) :
    Meets (restamp s k q) r Fault.Proper fun _ r' =>
      ∃ w, q.normalizeInt r₀.layout v = .ok w ∧ Forest r₀ ns₀
        (.tree (.node t.code q { t.attrs with value := some (.int w) } t.slots) k up :: ps) r' := by
  obtain ⟨d, found, tops, _⟩ := h.node List.mem_cons_self
  simp only [Peephole.restamp, Edit.node, Edit.layout, meets_bind, meets_ask, meets_get, meets_pure,
    meets_lift, Region.node_of found, yields_ok, tops.intLit?, value, h.layout]
  refine Yields.imp Region.normalizeInt_answers (fun _ => Fault.Plain.proper) fun w normal _ => ?_
  cases t with
  | node code ty attrs slots =>
    obtain ⟨ids, fits, h⟩ := h.split
    exact (h.modifyNode fun _ _ _ => rfl).to fun _ r' h => ⟨w, normal, h.join fits⟩

theorem retype (h : Forest r₀ ns₀ (.tree t k up :: ps) r) :
    Meets (retype s k q) r Fault.Proper fun m r' =>
      ∃ up', (up = none → up' = none) ∧
        Forest r₀ ns₀ (.tree (t.retyped r₀.layout q) m up' :: ps) r' := by
  obtain ⟨d, found, tops, _⟩ := h.node List.mem_cons_self
  simp only [Peephole.retype, Edit.node, meets_bind, meets_ask, Region.node_of found, yields_ok,
    tops.ty, tops.intLit?, retyped]
  split
  · exact ⟨up, id, h⟩
  · rename_i proper
    simp only [Bool.or_eq_true, not_or, Bool.not_eq_true, Bool.not_eq_true',
      Bool.not_eq_false] at proper
    cases lit : t.top.intLit? with
    | none => exact (h.convert q).to fun _ _ h => ⟨none, fun _ => rfl, h.2⟩
    | some v =>
      simp only [Option.isSome_some, if_true, meets_bind, meets_pure]
      refine (h.restamp lit).to ?_
      rintro _ r' ⟨w, normal, h⟩
      rw [Ty.normalizeInt_of_isInt _ proper.2] at normal
      cases normal
      exact ⟨up, id, h⟩

/-! ### Dropping parts -/

theorem spliceKid (h : Forest r₀ ns₀ (.tree (.node code ty attrs slots) n up :: ps) r)
    (slot : slots[i]? = some [a]) :
    Meets (spliceKid n i) r Fault.Proper fun k r' =>
      Forest r₀ ns₀ (.tree a k none :: .gone n :: ps) r' := by
  obtain ⟨ids, ks, fits, at_i, lengths, h⟩ := h.splitSlot slot
  obtain ⟨k, rfl⟩ := List.length_eq_one_iff.mp lengths.symm
  have inside : i < ids.length := (List.getElem?_eq_some_iff.mp at_i).1
  obtain ⟨_, _, _, found⟩ := Region.node?_of_core (h.stub_found List.mem_cons_self)
  simp only [Edit.spliceKid, Edit.kid, meets_bind, meets_ask, meets_pure, Region.kid_of found at_i,
    yields_ok, meets_discard]
  refine (takeKid at_i h).to fun _ r₁ h => ?_
  have apart : (.tree a k none :: (siblings slots ids i n ++ ps)).Perm
      (siblings slots ids i n ++ .tree a k none :: ps) := List.perm_middle.symm
  have rest :=
    joinSlot fits inside (show ([] : List Tree).length = ([] : List NodeId).length from rfl)
    (h.perm (.cons _ apart))
  exact rest.discardTree.to fun _ _ => swap

theorem replaceBy (h : Forest r₀ ns₀ (.tree u k up' :: .tree t n up :: ps) r) :
    Meets (replaceBy n k) r Fault.Proper fun m r' =>
      Forest r₀ ns₀ (.tree u m up' :: .gone n :: ps) r' :=
  Meets.bind h.swap.discardTree fun _ _ h => h.swap

end Forest

/-! ### Comparing and copying -/

/-- Comparing trees goes no deeper than the left one. -/
theorem sameTreeWithin_answers {fuel : Nat} {ks : List NodeId} (trees : Grove r.kidsOf ks ns)
    (deep : ns.length ≤ fuel) :
    ∀ x ∈ ks, ∀ y, Answers Fault.Proper (r.sameTreeWithin fuel x y) := by
  induction trees generalizing fuel with
  | nil => simp
  | @cons n kids ks below rest node _ _ ihBelow ihRest =>
    simp only [List.length_cons, List.length_append] at deep
    obtain ⟨fuel, rfl⟩ : ∃ f, fuel = f + 1 := ⟨fuel - 1, by omega⟩
    refine List.forall_mem_cons.mpr ⟨fun y => ?_, ihRest (by omega)⟩
    obtain ⟨d, found, rfl⟩ := Region.node?_of_kidsOf node
    have below : ∀ ks ∈ d.slots, ∀ x ∈ ks, ∀ y, Answers Fault.Proper (r.sameTreeWithin fuel x y) :=
      fun ks slot x mem => ihBelow (by omega) x (List.mem_flatten.mpr ⟨ks, slot, mem⟩)
    rw [Region.sameTreeWithin]
    refine .ite (.ok _) ?_
    rw [Answers, yields_bind, Region.node_of found, yields_ok]
    refine Answers.bind (Region.node_answers.imp fun _ => Fault.Plain.proper) fun e => ?_
    refine .ite (.pure _) (.ite (.pure _) (.allM fun (sa, sb) slot => ?_))
    refine .ite (.pure _) (.allM fun (x, y) mem => ?_)
    exact below sa (List.of_mem_zip slot).1 x (List.of_mem_zip mem).1 y

namespace Forest

theorem sameTree (h : Forest r₀ ns₀ (.tree t n up :: ps) r) :
    Meets (sameTree n m) r Fault.Proper fun _ r' => r' = r := by
  obtain ⟨ms, here, distinct, trees⟩ := h.grove
  have live : ∀ x ∈ ms, r.Live x := fun x mem => by
    obtain ⟨d, found⟩ := here.live (by simp [Piece.Whole]) mem
    exact Region.live_of_core found
  have deep : ms.length ≤ r.depthBound := Nat.le_succ_of_le (Region.length_le_size distinct live)
  rw [Edit.sameTree, meets_ask]
  have answer := sameTreeWithin_answers trees deep n List.mem_cons_self m
  exact Yields.imp answer (fun _ => id) fun _ _ _ => rfl

section copies

variable {dup : NodeId → Edit NodeId} {us : List Tree} {ks : List NodeId}

theorem copyList (same : us.length = ks.length)
    (each : ∀ u ∈ us, ∀ k ps r, Forest r₀ ns₀ (.tree u k up :: ps) r →
      Meets (dup k) r Fault.Proper fun m r' =>
        Forest r₀ ns₀ (.tree u m none :: .tree u k up :: ps) r')
    (h : Forest r₀ ns₀ (planted us ks up ++ ps) r) :
    Meets (ks.mapM dup) r Fault.Proper fun out r' => us.length = out.length ∧
      Forest r₀ ns₀ (planted us out none ++ (planted us ks up ++ ps)) r' := by
  induction us generalizing ks ps r with
  | nil =>
    obtain rfl := List.length_eq_zero_iff.mp same.symm
    exact ⟨rfl, h⟩
  | cons u us ih =>
    cases ks with
    | nil => simp at same
    | cons k ks =>
      rw [List.mapM_cons]
      refine Meets.bind (each u List.mem_cons_self k _ r h) fun m r₁ h => ?_
      have rest : (.tree u m none :: .tree u k up :: (planted us ks up ++ ps)).Perm
          (planted us ks up ++ .tree u m none :: .tree u k up :: ps) :=
        ((List.perm_middle.symm.cons _).trans List.perm_middle.symm)
      refine Meets.bind (ih (by simpa using same) (fun v mem => each v (List.mem_cons_of_mem _ mem))
        (h.perm rest)) ?_
      rintro out r₂ ⟨lengths, h⟩
      refine ⟨by simp [lengths], h.perm ?_⟩
      have front : (planted us ks up ++ .tree u m none :: .tree u k up :: ps).Perm
          (.tree u m none :: .tree u k up :: (planted us ks up ++ ps)) :=
        List.perm_middle.trans (List.perm_middle.cons _)
      exact (front.append_left _).trans List.perm_middle

theorem copySlots (fits : Fits slots ids)
    (each : ∀ u ∈ slots.flatten, ∀ k ps r, Forest r₀ ns₀ (.tree u k up :: ps) r →
      Meets (dup k) r Fault.Proper fun m r' =>
        Forest r₀ ns₀ (.tree u m none :: .tree u k up :: ps) r')
    (h : Forest r₀ ns₀ (planted slots.flatten ids.flatten up ++ ps) r) :
    Meets (ids.mapM fun ks => ks.mapM dup) r Fault.Proper fun out r' => Fits slots out ∧
      Forest r₀ ns₀ (planted slots.flatten out.flatten none ++
        (planted slots.flatten ids.flatten up ++ ps)) r' := by
  induction slots generalizing ids ps r with
  | nil =>
    obtain rfl := List.length_eq_zero_iff.mp fits.length.symm
    exact ⟨rfl, h⟩
  | cons us slots ih =>
    cases ids with
    | nil => simp [Fits] at fits
    | cons ks ids =>
      have heads : us.length = ks.length ∧ Fits slots ids := by simpa [Fits] using fits
      simp only [List.flatten_cons, planted_append heads.1, List.append_assoc] at h ⊢
      rw [List.mapM_cons]
      have first := copyList heads.1
        (fun u mem => each u (by simp [List.flatten_cons, mem])) h
      refine Meets.bind first ?_
      rintro out r₁ ⟨lengths, h⟩
      have rest : (planted us out none ++ (planted us ks up ++
          (planted slots.flatten ids.flatten up ++ ps))).Perm
          (planted slots.flatten ids.flatten up ++
            (planted us out none ++ (planted us ks up ++ ps))) :=
        ((List.perm_append_comm_assoc _ _ _).append_left _).trans
          (List.perm_append_comm_assoc _ _ _)
      refine Meets.bind (ih heads.2
        (fun u mem => each u (by simp only [List.flatten_cons, List.mem_append, mem, or_true]))
        (h.perm rest)) ?_
      rintro outs r₂ ⟨fits', h⟩
      refine ⟨by simpa [Fits] using ⟨lengths, fits'⟩, h.perm ?_⟩
      rw [List.flatten_cons, planted_append lengths, List.append_assoc]
      exact (((List.perm_append_comm_assoc _ _ _).trans
        ((List.perm_append_comm_assoc _ _ _).append_left _)).append_left _).trans
        (List.perm_append_comm_assoc _ _ _)

end copies

theorem addSsaUse (h : Forest r₀ ns₀ (.tree t n up :: ps) r) {v : SsaId} :
    Meets (addSsaUse v n) r Fault.Proper fun _ r' => Forest r₀ ns₀ (.tree t n up :: ps) r' := by
  obtain ⟨ms, here, _, _⟩ := h.grove
  obtain ⟨d, found, _⟩ := h.node List.mem_cons_self
  simp only [Edit.addSsaUse, Edit.node, meets_bind, meets_ask, Region.node_of found, yields_ok]
  split
  · exact fun wrong => Fault.noConfusion wrong
  · rw [meets_bind, setSsa, meets_modifyNode found]
    have same : ({ d with ssa := some v } : Node).core = d.core := rfl
    have root := here.root_mem _ List.mem_cons_self
    exact (h.putWithin List.mem_cons_self here root found same).modifySsa.to fun _ _ kept => kept.2

theorem duplicateWithin {fuel : Nat} (h : Forest r₀ ns₀ (.tree t n up :: ps) r)
    (deep : t.size ≤ fuel) :
    Meets (duplicateWithin fuel n) r Fault.Proper fun m r' =>
      Forest r₀ ns₀ (.tree t m none :: .tree t n up :: ps) r' := by
  induction fuel generalizing t n up ps r with
  | zero =>
    cases t
    rw [size_node] at deep
    omega
  | succ fuel ih =>
    cases t with
    | node code ty attrs slots =>
      have lower : ∀ u ∈ slots.flatten, u.size ≤ fuel := fun u mem => by
        have := size_le_sizeList mem
        rw [size_node] at deep
        omega
      obtain ⟨ids, fits, h⟩ := h.split
      obtain ⟨_, _, ssa, found⟩ := Region.node?_of_core (h.stub_found List.mem_cons_self)
      simp only [Edit.duplicateWithin, Edit.node, meets_bind, meets_ask, Region.node_of found,
        yields_ok]
      have copied := copySlots fits (fun u mem k ps r h => ih h (lower u mem))
        (h.perm List.perm_middle.symm)
      refine copied.to ?_
      rintro out r₁ ⟨fits', h⟩
      refine (build fits' (.of_planted fits'.length_flatten) h).to fun m r₂ h => ?_
      have rest : (.tree (.node code ty attrs slots) m none ::
          (planted slots.flatten ids.flatten (some n) ++
            .stub (.fresh code ty attrs ids) n up :: ps)).Perm
          (.stub (.fresh code ty attrs ids) n up ::
            (planted slots.flatten ids.flatten (some n) ++
              .tree (.node code ty attrs slots) m none :: ps)) :=
        (List.perm_middle.cons _).trans
          ((List.Perm.swap _ _ _).trans (List.perm_middle.symm.cons _))
      have h := (join fits (h.perm rest)).swap
      split
      · exact Meets.bind h.addSsaUse fun _ _ h => h
      · exact h

theorem duplicate (h : Forest r₀ ns₀ (.tree t n up :: ps) r) :
    Meets (duplicate n) r Fault.Proper fun m r' =>
      Forest r₀ ns₀ (.tree t m none :: .tree t n up :: ps) r' :=
  h.duplicateWithin (Nat.le_succ_of_le h.size_le)

theorem copyTreeAccess (h : Forest r₀ ns₀ (.tree t m up :: .tree u n up' :: ps) r) :
    Meets (copyTreeAccess m n) r Fault.Proper fun _ r' =>
      Forest r₀ ns₀ (.tree t m up :: .tree u n up' :: ps) r' := by
  obtain ⟨targets, _, _, target⟩ := h.subtree
  obtain ⟨sources, _, _, source⟩ := h.swap.subtree
  refine h.quiet copyTreeAccess_quiet ?_
  simp only [Edit.copyTreeAccess, Edit.subtree, meets_bind, meets_ask, target, source, yields_ok]
  split
  · exact fun wrong => Fault.noConfusion wrong
  · exact (copyEach_quiet r rfl).imp (fun _ => Fault.Plain.proper) fun _ _ _ => trivial

end Forest

/-! ### The place of a tree -/

/-- The tree at `n` has become `u`, at `m`: it stands where it was, or `n` is dropped. -/
def Regrown (r₀ : Region) (ns₀ : List NodeId) (ps : List Piece) (n : NodeId) (up : Option NodeId)
    (u : Tree) (m : NodeId) (r : Region) : Prop :=
  m = n ∧ Forest r₀ ns₀ (.tree u n up :: ps) r ∨
    Forest r₀ ns₀ (.tree u m none :: .gone n :: ps) r

/-- The tree `u` stands at `m`; if that is `n`, its parent is `up`. -/
def Placed (r₀ : Region) (ns₀ : List NodeId) (ps : List Piece) (n : NodeId) (up : Option NodeId)
    (u : Tree) (m : NodeId) (r : Region) : Prop :=
  ∃ up', (m = n → up' = up) ∧ Forest r₀ ns₀ (.tree u m up' :: ps) r

namespace Regrown

theorem here (h : Forest r₀ ns₀ (.tree u n up :: ps) r) : Regrown r₀ ns₀ ps n up u n r :=
  .inl ⟨rfl, h⟩

theorem moved (h : Forest r₀ ns₀ (.tree u m none :: .gone n :: ps) r) :
    Regrown r₀ ns₀ ps n up u m r :=
  .inr h

/-- A tree that had no parent has none. -/
theorem loose (h : Regrown r₀ ns₀ ps n none u m r) : Forest r₀ ns₀ (.tree u m none :: ps) r := by
  rcases h with ⟨rfl, h⟩ | h
  · exact h
  · exact h.swap.forget

theorem placed (h : Regrown r₀ ns₀ ps n up u m r) : Placed r₀ ns₀ ps n up u m r := by
  rcases h with ⟨rfl, h⟩ | h
  · exact ⟨up, fun _ => rfl, h⟩
  · have moved : m ≠ n := h.root_ne (q := .gone n) List.mem_cons_self
    exact ⟨none, fun same => absurd same moved, h.swap.forget⟩

/-- Where the root is the same, so is its parent. -/
theorem same (h : Regrown r₀ ns₀ ps n up u n r) : Forest r₀ ns₀ (.tree u n up :: ps) r := by
  rcases h with ⟨_, h⟩ | h
  · exact h
  · exact (h.root_ne (q := .gone n) List.mem_cons_self rfl).elim

/-- What becomes of a tree after it has moved. -/
theorem late (h : Regrown r₀ ns₀ (.gone n :: ps) m none u k r) : Regrown r₀ ns₀ ps n up u k r :=
  moved h.loose

/-- What a run makes of the tree is made of the tree that it was before. -/
theorem andThen {run : Edit α} {Q : α → Tree → Prop} (root : α → NodeId)
    (h : Regrown r₀ ns₀ ps n up u m r)
    (next : ∀ up ps, Forest r₀ ns₀ (.tree u m up :: ps) r →
      Meets run r F fun out r' => ∃ w, Q out w ∧ Regrown r₀ ns₀ ps m up w (root out) r') :
    Meets run r F fun out r' => ∃ w, Q out w ∧ Regrown r₀ ns₀ ps n up w (root out) r' := by
  rcases h with ⟨rfl, h⟩ | h
  · exact next up ps h
  · refine (next none _ h).to ?_
    rintro out r' ⟨w, known, h⟩
    exact ⟨w, known, h.late⟩

end Regrown

end Peephole
