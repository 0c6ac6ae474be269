import Peephole.Proofs.Trees

/-!
# Forests

A forest says which pieces the nodes of a run have become since it began. Nodes outside are as
before, and no node of the run stands outside its pieces. What the edits of single nodes make of
a forest is stated here; none of these edits runs out of steps.
-/

namespace Peephole

open Edit

variable {α : Type} {F : Fault → Prop} {r r' r₀ : Region} {n m k : NodeId} {d d' : Node}
  {ns ms ns₀ : List NodeId} {p q : Piece} {ps qs : List Piece} {code code' : Op} {ty ty' : Ty}
  {attrs attrs' : Attrs} {slots : List (List Tree)} {ids : List (List NodeId)} {i : Nat}
  {us us' : List Tree} {ks ks' : List NodeId} {t : Tree} {up up' : Option NodeId}

/-- A fault that does not come from a bound on steps. -/
def Fault.Proper (f : Fault) : Prop := f ≠ .exhausted

theorem Fault.Plain.proper {f : Fault} (h : f.Plain) : f.Proper := by
  rintro rfl
  exact h

/-! ### What is kept of a node -/

/-- What a tree and its parent know of a node. -/
def Node.core (d : Node) : Node := (Node.fresh d.code d.ty d.attrs d.slots).under d.parent

namespace Region

def core (r : Region) (n : NodeId) : Option Node := (r.node? n).map Node.core

/-- The node at a place, but for its record. -/
def frame (r : Region) (n : NodeId) : Option Node := (r.node? n).map Node.unrecorded

theorem core_of (h : r.node? n = some d) : r.core n = some d.core := by
  rw [core, h]
  rfl

theorem core_frame : r.core n = (r.frame n).map Node.core := by
  rw [core, frame, Option.map_map]
  rfl

theorem core_of_frame (h : r'.frame = r.frame) : r'.core = r.core := by
  funext n
  rw [core_frame, core_frame, h]

theorem node?_of_core (h : r.core n = some ((Node.fresh code ty attrs ids).under up)) :
    ∃ block record ssa, r.node? n = some ⟨code, ty, attrs, ids, up, block, record, ssa⟩ := by
  obtain ⟨⟨code', ty', attrs', ids', parent, block, record, ssa⟩, found, same⟩ :=
    Option.map_eq_some_iff.mp h
  simp only [Node.core, Node.fresh, Node.under, Node.mk.injEq, and_true] at same
  obtain ⟨rfl, rfl, rfl, rfl, rfl⟩ := same
  exact ⟨block, record, ssa, found⟩

theorem live_of_core (h : r.core n = some d) : r.Live n := by
  obtain ⟨x, found, _⟩ := Option.map_eq_some_iff.mp h
  exact ⟨x, found⟩

theorem lt_size_of_core (h : r.core n = some d) : n.index < r.nodes.size := by
  obtain ⟨x, found⟩ := live_of_core h
  exact lt_size_of_node? found

theorem core_put {x : Option Node} (inside : n.index < r.nodes.size) :
    (r.put n x).core = Function.update r.core n (x.map Node.core) := by
  funext m
  unfold core
  rw [node?_put inside]
  by_cases same : m = n
  · subst same
    simp
  · simp [same]

theorem frame_put {x : Option Node} (inside : n.index < r.nodes.size) (other : m ≠ n) :
    (r.put n x).frame m = r.frame m := by
  rw [frame, node?_put inside, if_neg other, frame]

end Region

/-- From `r` to `r'`, the nodes `ns` have become the nodes `ns'`. -/
structure Reshaped (r r' : Region) (ns ns' : List NodeId) : Prop where
  grown : Grown .live r r'
  kept : ∀ m, m ∉ ns → m.index < r.nodes.size → r'.frame m = r.frame m
  within : ∀ m ∈ ns', m ∈ ns ∨ r.nodes.size ≤ m.index
  bound : ∀ m ∈ ns', m.index < r'.nodes.size
  gone : ∀ m, m ∈ ns ∨ r.nodes.size ≤ m.index → m ∉ ns' → r'.node? m = none

namespace Reshaped

theorem of_put (bound : ∀ m ∈ ns, m.index < r.nodes.size) (mem : n ∈ ns)
    (found : r.node? n = some d) : Reshaped r (r.put n (some d')) ns ns where
  grown := .live (by simp) rfl rfl rfl rfl
  kept := fun m out _ =>
    Region.frame_put (Region.lt_size_of_node? found) fun same => out (same ▸ mem)
  within := fun m => .inl
  bound := by simpa using bound
  gone := by
    rintro m (mem' | fresh) out
    · exact absurd mem' out
    · exact Region.node?_of_size_le (by simpa using fresh)

theorem of_frame (bound : ∀ m ∈ ns, m.index < r.nodes.size) (frame : r'.frame = r.frame)
    (grown : Grown .live r r') : Reshaped r r' ns ns where
  grown := grown
  kept := fun m _ _ => by rw [frame]
  within := fun m => .inl
  bound := fun m mem => (bound m mem).trans_le grown.size
  gone := by
    rintro m (mem | fresh) out
    · exact absurd mem out
    · have none := congrFun frame m
      rw [Region.frame, Region.frame, Region.node?_of_size_le fresh] at none
      exact Option.map_eq_none_iff.mp none

theorem trans {r'' : Region} {ls : List NodeId} (first : Reshaped r r' ns ms)
    (second : Reshaped r' r'' ms ls) : Reshaped r r'' ns ls where
  grown := first.grown.trans second.grown
  kept := fun m out old => by
    have apart : m ∉ ms := fun mem =>
      (first.within m mem).elim out fun fresh => absurd old (Nat.not_lt.mpr fresh)
    rw [second.kept m apart (old.trans_le first.grown.size), first.kept m out old]
  within := fun m mem => by
    rcases second.within m mem with mem | fresh
    · exact first.within m mem
    · exact .inr (first.grown.size.trans fresh)
  bound := second.bound
  gone := fun m own out => by
    by_cases mem : m ∈ ms
    · exact second.gone m (.inl mem) out
    · by_cases old : m.index < r'.nodes.size
      · have kept := second.kept m mem old
        rw [Region.frame, Region.frame, first.gone m own mem] at kept
        exact Option.map_eq_none_iff.mp kept
      · exact second.gone m (.inr (Nat.le_of_not_lt old)) out

theorem perm {ns' ms' : List NodeId} (h : Reshaped r r' ns ms) (before : ns.Perm ns')
    (after : ms.Perm ms') : Reshaped r r' ns' ms' where
  grown := h.grown
  kept := fun m out => h.kept m fun mem => out (before.mem_iff.mp mem)
  within := fun m mem => (h.within m (after.mem_iff.mpr mem)).imp_left before.mem_iff.mp
  bound := fun m mem => h.bound m (after.mem_iff.mpr mem)
  gone := fun m own out =>
    h.gone m (own.imp_left before.mem_iff.mpr) fun mem => out (after.mem_iff.mp mem)

end Reshaped

/-- Since `r₀`, the nodes `ns₀` have become the pieces `ps`. -/
def Forest (r₀ : Region) (ns₀ : List NodeId) (ps : List Piece) (r : Region) : Prop :=
  ∃ ns, Draws r.core ps ns ∧ ns.Nodup ∧ Reshaped r₀ r ns₀ ns

namespace Forest

theorem start (drawn : Draws r.core ps ns) (distinct : ns.Nodup)
    (bound : ∀ m ∈ ns, m.index < r.nodes.size) : Forest r ns ps r :=
  ⟨ns, drawn, distinct, .of_frame bound rfl .refl⟩

theorem perm (h : Forest r₀ ns₀ ps r) (same : ps.Perm qs) : Forest r₀ ns₀ qs r := by
  obtain ⟨ns, drawn, distinct, reshaped⟩ := h
  obtain ⟨ms, drawn, same⟩ := drawn.perm same
  exact ⟨ms, drawn, same.nodup_iff.mpr distinct, reshaped.perm (.refl _) same.symm⟩

theorem swap (h : Forest r₀ ns₀ (p :: q :: ps) r) : Forest r₀ ns₀ (q :: p :: ps) r :=
  h.perm (.swap q p ps)

/-- Exchange the two pieces after the first one. -/
theorem swapNext {p' : Piece} (h : Forest r₀ ns₀ (p :: q :: p' :: ps) r) :
    Forest r₀ ns₀ (p :: p' :: q :: ps) r :=
  h.perm (.cons p (.swap p' q ps))

/-- Bring the piece after `before` to the front. -/
theorem front (before : List Piece) (h : Forest r₀ ns₀ (before ++ p :: ps) r) :
    Forest r₀ ns₀ (p :: (before ++ ps)) r :=
  h.perm List.perm_middle

/-- Put the first piece after `before`. -/
theorem back (before : List Piece) (h : Forest r₀ ns₀ (p :: (before ++ ps)) r) :
    Forest r₀ ns₀ (before ++ p :: ps) r :=
  h.perm List.perm_middle.symm

theorem grown (h : Forest r₀ ns₀ ps r) : Grown .live r₀ r := h.choose_spec.2.2.grown

theorem layout (h : Forest r₀ ns₀ ps r) : r.layout = r₀.layout := h.grown.layout

theorem stub_found (h : Forest r₀ ns₀ ps r) (mem : .stub d n up ∈ ps) :
    r.core n = some (d.under up) :=
  h.choose_spec.1.stub_found mem

theorem tree_found (h : Forest r₀ ns₀ ps r) (mem : .tree t n up ∈ ps) :
    ∃ ids, r.core n = some ((Node.fresh t.code t.ty t.attrs ids).under up) ∧ Fits t.slots ids :=
  h.choose_spec.1.tree_found mem

theorem live (h : Forest r₀ ns₀ ps r) (mem : .tree t n up ∈ ps) : r.Live n := by
  obtain ⟨ids, found, _⟩ := h.tree_found mem
  exact Region.live_of_core found

/-- A node apart from its kids is none of the other pieces. -/
theorem root_ne (h : Forest r₀ ns₀ (p :: ps) r) (mem : q ∈ ps) : p.root ≠ q.root := by
  obtain ⟨ns, drawn, distinct, _⟩ := h
  obtain ⟨fst, snd, rfl, here, rest⟩ := Draws.cons_iff.mp drawn
  intro same
  have left := here.root_mem p List.mem_cons_self
  exact (List.nodup_append.mp distinct).2.2 _ left _ (rest.root_mem q mem) same

theorem size_le (h : Forest r₀ ns₀ (.tree t n up :: ps) r) : t.size ≤ r.nodes.size := by
  obtain ⟨ns, drawn, distinct, _⟩ := h
  obtain ⟨fst, snd, rfl, here, _⟩ := Draws.cons_iff.mp drawn
  have here' : Draws r.core (planted [t] [n] up) fst := here
  have count : Tree.sizeList [t] = fst.length := here'.size_planted rfl rfl
  have bound := Region.length_le_size (List.nodup_append.mp distinct).1 fun m mem => by
    obtain ⟨d, found⟩ := here.live (by simp [Piece.Whole]) mem
    exact Region.live_of_core found
  simp only [Tree.sizeList, Nat.add_zero] at count
  omega

/-! ### Taking apart and putting together -/

theorem split (h : Forest r₀ ns₀ (.tree (.node code ty attrs slots) n up :: ps) r) :
    ∃ ids, Fits slots ids ∧ Forest r₀ ns₀ (.stub (.fresh code ty attrs ids) n up ::
      (planted slots.flatten ids.flatten (some n) ++ ps)) r := by
  obtain ⟨ns, drawn, rest⟩ := h
  cases drawn with
  | tree found fits kids others => exact ⟨_, fits, _, .stub found (kids.append others), rest⟩

theorem join (fits : Fits slots ids) (h : Forest r₀ ns₀ (.stub (.fresh code ty attrs ids) n up ::
      (planted slots.flatten ids.flatten (some n) ++ ps)) r) :
    Forest r₀ ns₀ (.tree (.node code ty attrs slots) n up :: ps) r := by
  obtain ⟨ns, drawn, rest⟩ := h
  cases drawn with
  | stub found others =>
    obtain ⟨fst, snd, rfl, kids, others⟩ := others.split
    exact ⟨_, .tree found fits kids others, rest⟩

/-- The kids of `n` in all slots but one. -/
def siblings (slots : List (List Tree)) (ids : List (List NodeId)) (i : Nat) (n : NodeId) :
    List Piece :=
  planted (slots.set i []).flatten (ids.set i []).flatten (some n)

theorem splitSlot (h : Forest r₀ ns₀ (.tree (.node code ty attrs slots) n up :: ps) r)
    (found : slots[i]? = some us) :
    ∃ ids ks, Fits slots ids ∧ ids[i]? = some ks ∧ us.length = ks.length ∧ Forest r₀ ns₀
      (.stub (.fresh code ty attrs ids) n up ::
        (planted us ks (some n) ++ (siblings slots ids i n ++ ps))) r := by
  obtain ⟨ids, fits, h⟩ := h.split
  obtain ⟨ks, slot, lengths⟩ := fits.get found
  refine ⟨ids, ks, fits, slot, lengths, h.perm (.cons _ ?_)⟩
  rw [← List.append_assoc]
  exact (fits.planted_perm found slot).append_right ps

theorem joinSlot (fits : Fits slots ids) (inside : i < ids.length) (lengths : us.length = ks.length)
    (h : Forest r₀ ns₀ (.stub (.fresh code ty attrs (ids.set i ks)) n up ::
      (planted us ks (some n) ++ (siblings slots ids i n ++ ps))) r) :
    Forest r₀ ns₀ (.tree (.node code ty attrs (slots.set i us)) n up :: ps) r := by
  have inside' : i < slots.length := fits.length ▸ inside
  have apart : (planted _ _ (some n)).Perm _ := (fits.set (i := i) lengths).planted_perm
    (List.getElem?_set_self inside') (List.getElem?_set_self inside)
  rw [List.set_set, List.set_set] at apart
  refine join (fits.set lengths) (h.perm (.cons _ ?_))
  rw [← List.append_assoc]
  exact apart.symm.append_right ps

/-! ### Edits -/

theorem put (h : Forest r₀ ns₀ (.stub d n up :: ps) r) {x : Node} (core : x.core = d'.under up') :
    Forest r₀ ns₀ (.stub d' n up' :: ps) (r.put n (some x)) := by
  obtain ⟨ns, drawn, distinct, reshaped⟩ := h
  cases drawn with
  | @stub _ _ _ _ ns found rest =>
    obtain ⟨y, here⟩ := Region.live_of_core found
    have apart := (List.nodup_cons.mp distinct).1
    have core' := Region.core_put (x := some x) (Region.lt_size_of_node? here)
    refine ⟨n :: ns, .stub ?_ (rest.congr fun m mem => ?_), distinct,
      reshaped.trans (.of_put reshaped.bound List.mem_cons_self here)⟩
    · rw [core', Function.update_self, Option.map_some, core]
    · rw [core', Function.update_of_ne (by grind)]

/-- The root of a tree gets another parent. -/
theorem hang (h : Forest r₀ ns₀ (.tree t n up :: ps) r) (found : r.node? n = some d) :
    Forest r₀ ns₀ (.tree t n up' :: ps) (r.put n (some (d.under up'))) := by
  obtain ⟨ns, drawn, distinct, reshaped⟩ := h
  cases drawn with
  | @tree code ty attrs slots ids _ _ _ below ns at_n fits kids rest =>
    have apart := (List.nodup_cons.mp distinct).1
    have core' := Region.core_put (x := some (d.under up')) (Region.lt_size_of_node? found)
    have here : d.core = (Node.fresh code ty attrs ids).under up := by
      rw [Region.core_of found] at at_n
      exact Option.some.inj at_n
    refine ⟨n :: (below ++ ns), .tree ?_ fits (kids.congr fun m mem => ?_)
      (rest.congr fun m mem => ?_), distinct,
      reshaped.trans (.of_put reshaped.bound List.mem_cons_self found)⟩
    · rw [core', Function.update_self, Option.map_some]
      have again := congrArg (Node.under · up') here
      exact congrArg some again
    · rw [core', Function.update_of_ne (by grind)]
    · rw [core', Function.update_of_ne (by grind)]

theorem still (h : Forest r₀ ns₀ ps r) (frame : r'.frame = r.frame) (grown : Grown .live r r') :
    Forest r₀ ns₀ ps r' := by
  obtain ⟨ns, drawn, distinct, reshaped⟩ := h
  have core := Region.core_of_frame frame
  exact ⟨ns, drawn.congr fun m _ => by rw [core], distinct,
    reshaped.trans (.of_frame reshaped.bound frame grown)⟩

/-- A node of a piece keeps its core. -/
theorem putWithin (h : Forest r₀ ns₀ ps r) (piece : p ∈ ps) (here : Draws r.core [p] ms)
    (mem : m ∈ ms) (found : r.node? m = some d) (core : d'.core = d.core) :
    Forest r₀ ns₀ ps (r.put m (some d')) := by
  obtain ⟨ns, drawn, distinct, reshaped⟩ := h
  have inside : m ∈ ns := by
    obtain ⟨before, after, rfl⟩ := List.append_of_mem piece
    obtain ⟨fst, snd, rfl, _, rest⟩ := drawn.split
    obtain ⟨own, others, rfl, own', _⟩ := Draws.cons_iff.mp rest
    rw [here.unique own'] at mem
    exact List.mem_append_right _ (List.mem_append_left _ mem)
  have same : (r.put m (some d')).core = r.core := by
    rw [Region.core_put (Region.lt_size_of_node? found), Option.map_some, core]
    exact Function.update_eq_self_iff.mpr (Region.core_of found).symm
  exact ⟨ns, drawn.congr fun m _ => by rw [same], distinct,
    reshaped.trans (.of_put reshaped.bound inside found)⟩

theorem push (h : Forest r₀ ns₀ ps r) :
    Forest r₀ ns₀ (.stub (.fresh code ty attrs ids) r.next none :: ps)
      (r.push (.fresh code ty attrs ids)) := by
  obtain ⟨ns, drawn, distinct, reshaped⟩ := h
  have apart : r.next ∉ ns := fun mem => (reshaped.bound _ mem).false
  have look (m : NodeId) (other : m ≠ r.next) :
      (r.push (.fresh code ty attrs ids)).node? m = r.node? m := by
    rw [Region.node?_push, if_neg other]
  refine ⟨r.next :: ns, .stub ?_ (drawn.congr fun m mem => ?_),
    List.nodup_cons.mpr ⟨apart, distinct⟩, reshaped.trans
      ⟨.live (by simp) rfl rfl rfl rfl, fun m out inside => ?_, ?_, ?_, ?_⟩⟩
  · rw [Region.core, Region.node?_push, if_pos rfl]
    rfl
  · rw [Region.core, look m (by grind), Region.core]
  · have other : m ≠ r.next := fun same => by
      subst same
      exact inside.false
    rw [Region.frame, look m other, Region.frame]
  · intro m mem
    rcases List.mem_cons.mp mem with rfl | mem
    · exact .inr (Nat.le_refl _)
    · exact .inl mem
  · intro m mem
    rcases List.mem_cons.mp mem with rfl | mem
    · simp [Region.next]
    · exact (reshaped.bound m mem).trans_le (by simp)
  · rintro m (mem | fresh) out
    · exact absurd (List.mem_cons_of_mem _ mem) out
    · have other : m ≠ r.next := fun same => out (same ▸ List.mem_cons_self)
      rw [look m other, Region.node?_of_size_le fresh]

/-- The nodes of a piece are dropped; the place of its root is remembered. -/
theorem drop (h : Forest r₀ ns₀ (p :: ps) r) (here : Draws r.core [p] ms)
    (nodes : r'.node? = fun m => if m ∈ ms then none else r.node? m) (grown : Grown .live r r') :
    Forest r₀ ns₀ (.gone p.root :: ps) r' := by
  obtain ⟨ns, drawn, distinct, reshaped⟩ := h
  obtain ⟨fst, snd, rfl, first, rest⟩ := Draws.cons_iff.mp drawn
  obtain rfl := here.unique first
  obtain ⟨_, distinct, disjoint⟩ := List.nodup_append.mp distinct
  have apart : ∀ m ∈ snd, m ∉ ms := fun m mem mem' => disjoint m mem' m mem rfl
  have root := here.root_mem p List.mem_cons_self
  have inside : ∀ m ∈ p.root :: snd, m ∈ ms ++ snd := fun m mem => by
    rcases List.mem_cons.mp mem with rfl | mem
    · exact List.mem_append_left _ root
    · exact List.mem_append_right _ mem
  refine ⟨p.root :: snd, .gone ?_ (rest.congr fun m mem => ?_),
    List.nodup_cons.mpr ⟨fun mem => apart _ mem root, distinct⟩,
    reshaped.trans ⟨grown, fun m out _ => ?_, fun m mem => .inl (inside m mem),
      fun m mem => (reshaped.bound m (inside m mem)).trans_le grown.size, ?_⟩⟩
  · simp [Region.core, nodes, root]
  · simp [Region.core, nodes, apart m mem]
  · have other : m ∉ ms := fun mem => out (List.mem_append_left _ mem)
    simp [Region.frame, nodes, other]
  · rintro m own out
    rw [nodes]
    by_cases mem : m ∈ ms
    · simp [mem]
    · rcases own with mem' | fresh
      · exact absurd (List.mem_cons_of_mem _ ((List.mem_append.mp mem').resolve_left mem)) out
      · simp [mem, Region.node?_of_size_le fresh]

theorem forget (h : Forest r₀ ns₀ (.gone n :: ps) r) : Forest r₀ ns₀ ps r := by
  obtain ⟨ns, drawn, distinct, reshaped⟩ := h
  cases drawn with
  | @gone _ _ ns empty rest =>
    have inside : ∀ m ∈ ns, m ∈ n :: ns := fun m => List.mem_cons_of_mem n
    refine ⟨ns, rest, (List.nodup_cons.mp distinct).2, reshaped.grown, reshaped.kept,
      fun m mem => reshaped.within m (inside m mem), fun m mem => reshaped.bound m (inside m mem),
      fun m own out => ?_⟩
    by_cases same : m = n
    · subst same
      exact Option.map_eq_none_iff.mp empty
    · exact reshaped.gone m own (by simp [same, out])

end Forest

theorem Region.frame_of_skeleton (h : r'.skeleton = r.skeleton) : r'.frame = r.frame := by
  funext n
  exact node?_of_skeleton h

/-- What holds after every run that returns, and the faults of the others. -/
theorem Meets.faults {m : Edit α} {P Q : α → Region → Prop} {G : Fault → Prop} (h : Meets m r G P)
    (ends : Meets m r F Q) : Meets m r F P := by
  unfold Meets Yields at *
  split at h <;> simp_all

namespace Forest

/-! ### Runs of edits of stubs and roots -/

theorem setParent (h : Forest r₀ ns₀ (.tree t k up :: ps) r) :
    Meets (setParent k up') r F fun _ r' => Forest r₀ ns₀ (.tree t k up' :: ps) r' := by
  obtain ⟨d, found⟩ := h.live List.mem_cons_self
  exact (meets_modifyNode found).mpr (h.hang found)

theorem setParents (trees : Scattered us ks qs) (h : Forest r₀ ns₀ (qs ++ ps) r) :
    Meets (ks.forM (Edit.setParent · up)) r F fun _ r' =>
      Forest r₀ ns₀ (planted us ks up ++ ps) r' := by
  induction trees generalizing ps r with
  | nil => exact h
  | @cons t k _ ts ks qs rest ih =>
    refine Meets.bind h.setParent fun _ r₁ h => ?_
    refine (ih (h.back qs)).to fun _ r₂ h => ?_
    exact h.front (planted ts ks up)

theorem setKid {a : Tree} (inside : i < ids.length)
    (h : Forest r₀ ns₀ (.stub (.fresh code ty attrs ids) n up :: .tree a k up' :: ps) r) :
    Meets (setKid n i (some k)) r F fun _ r' => Forest r₀ ns₀
      (.stub (.fresh code ty attrs (ids.set i [k])) n up :: .tree a k (some n) :: ps) r' := by
  obtain ⟨_, _, _, found⟩ := Region.node?_of_core (h.stub_found List.mem_cons_self)
  simp only [Edit.setKid, meets_bind, meets_ask, meets_lift, meets_putNode,
    Region.nodeToEdit_of found, yields_ok,
    Node.setSlot_of (d := ⟨code, ty, attrs, ids, up, _, _, _⟩) inside]
  exact (h.put rfl).swap.setParent.to fun _ _ => swap

theorem takeKids (slot : ids[i]? = some ks) (trees : Scattered us ks qs)
    (h : Forest r₀ ns₀ (.stub (.fresh code ty attrs ids) n up :: (qs ++ ps)) r) :
    Meets (takeKids n i) r F fun out r' => out = ks ∧ Forest r₀ ns₀
      (.stub (.fresh code ty attrs (ids.set i [])) n up :: (planted us ks none ++ ps)) r' := by
  obtain ⟨_, _, _, found⟩ := Region.node?_of_core (h.stub_found List.mem_cons_self)
  have inside : i < ids.length := (List.getElem?_eq_some_iff.mp slot).1
  simp only [Edit.takeKids, meets_bind, meets_ask, meets_lift, meets_putNode, meets_pure,
    Region.nodeToEdit_of found, yields_ok,
    Node.slot_of (d := ⟨code, ty, attrs, ids, up, _, _, _⟩) slot,
    Node.setSlot_of (d := ⟨code, ty, attrs, ids, up, _, _, _⟩) inside]
  refine (setParents trees ((h.put rfl).back qs)).to fun _ r' h => ⟨trivial, ?_⟩
  exact h.front (planted us ks none)

theorem takeKid {a : Tree} (slot : ids[i]? = some [k])
    (h : Forest r₀ ns₀ (.stub (.fresh code ty attrs ids) n up :: .tree a k up' :: ps) r) :
    Meets (takeKid n i) r F fun _ r' => Forest r₀ ns₀
      (.stub (.fresh code ty attrs (ids.set i [])) n up :: .tree a k none :: ps) r' :=
  Meets.bind (takeKids slot (.cons .nil) h) fun _ _ kept => kept.2

theorem setKids (inside : i < ids.length) (trees : Scattered us ks qs)
    (h : Forest r₀ ns₀ (.stub (.fresh code ty attrs ids) n up :: (qs ++ ps)) r) :
    Meets (setKids n i ks) r F fun _ r' => Forest r₀ ns₀
      (.stub (.fresh code ty attrs (ids.set i ks)) n up :: (planted us ks (some n) ++ ps)) r' := by
  refine Meets.bind (setParents trees (h.back qs)) fun _ r₁ h => ?_
  have h := h.front (planted us ks (some n))
  obtain ⟨_, _, _, found⟩ := Region.node?_of_core (h.stub_found List.mem_cons_self)
  simp only [meets_bind, meets_ask, meets_lift, meets_putNode, Region.nodeToEdit_of found,
    yields_ok, Node.setSlot_of (d := ⟨code, ty, attrs, ids, up, _, _, _⟩) inside]
  exact h.put rfl

theorem modifyNode {f : Node → Node}
    (h : Forest r₀ ns₀ (.stub (.fresh code ty attrs ids) n up :: ps) r)
    (change : ∀ block record ssa, f ⟨code, ty, attrs, ids, up, block, record, ssa⟩ =
      ⟨code', ty', attrs', ids, up, block, record, ssa⟩) :
    Meets (modifyNode n f) r F fun _ r' =>
      Forest r₀ ns₀ (.stub (.fresh code' ty' attrs' ids) n up :: ps) r' := by
  obtain ⟨_, _, _, found⟩ := Region.node?_of_core (h.stub_found List.mem_cons_self)
  refine (meets_modifyNode found).mpr (h.put ?_)
  rw [change]
  rfl

theorem setCode (h : Forest r₀ ns₀ (.stub (.fresh code ty attrs ids) n up :: ps) r)
    (same : code.numSlots = code'.numSlots) :
    Meets (setCode n code') r F fun _ r' =>
      Forest r₀ ns₀ (.stub (.fresh code' ty attrs ids) n up :: ps) r' := by
  obtain ⟨_, _, _, found⟩ := Region.node?_of_core (h.stub_found List.mem_cons_self)
  exact (meets_setCode found same).mpr (h.put rfl)

/-- A new node takes the trees of the forest that it is given as kids. -/
theorem create (trees : Scattered us ids.flatten qs) (h : Forest r₀ ns₀ (qs ++ ps) r) :
    Meets (build code ty attrs ids) r F fun n r' =>
      Forest r₀ ns₀ (.stub (.fresh code ty attrs ids) n none ::
        (planted us ids.flatten (some n) ++ ps)) r' := by
  unfold Edit.build Edit.create
  rw [if_neg (by simp [Node.fresh])]
  simp only [meets_bind, meets_modifyGet, meets_pure]
  refine (setParents trees (h.push.back qs)).to fun _ r' h => ?_
  exact h.front (planted us ids.flatten _)

theorem build (fits : Fits slots ids) (trees : Scattered slots.flatten ids.flatten qs)
    (h : Forest r₀ ns₀ (qs ++ ps) r) :
    Meets (build code ty attrs ids) r F fun n r' =>
      Forest r₀ ns₀ (.tree (.node code ty attrs slots) n none :: ps) r' :=
  (create trees h).to fun _ _ => join fits

/-! ### Edits that leave all pieces alone -/

theorem quiet {m : Edit α} {G : Fault → Prop} (h : Forest r₀ ns₀ ps r) (quiet : Quiet r G m)
    (ends : Meets m r F fun _ _ => True) : Meets m r F fun _ r' => Forest r₀ ns₀ ps r' := by
  refine Meets.faults ((quiet r rfl).to fun _ r' same => ?_) ends
  have edited := Edited.of_skeleton same
  exact h.still (Region.frame_of_skeleton same) edited.grown

theorem ordinary {m : Edit α} (h : Forest r₀ ns₀ ps r) (quiet : Quiet r Fault.Plain m) :
    Meets m r Fault.Proper fun _ r' => Forest r₀ ns₀ ps r' :=
  h.quiet quiet ((quiet r rfl).imp (fun _ => Fault.Plain.proper) fun _ _ _ => trivial)

theorem fired (h : Forest r₀ ns₀ ps r) (rule : Rule) :
    Meets (fired rule n) r F fun _ r' => Forest r₀ ns₀ ps r' :=
  h.quiet (report_quiet (F := fun _ => True) rfl) trivial

theorem intern (h : Forest r₀ ns₀ ps r) (x : Ty) :
    Meets (intern x) r F fun y r' => y = x ∧ Forest r₀ ns₀ ps r' := by
  have kept : Meets (Edit.intern x) r F fun _ r' => Forest r₀ ns₀ ps r' :=
    h.quiet (intern_quiet (F := fun _ => True)) trivial
  exact (show Meets (Edit.intern x) r F fun y _ => y = x from rfl).and kept

theorem require (h : Forest r₀ ns₀ ps r) (s : Setting) (holds : Bool) (v : Violation) :
    Meets (require s holds v) r Fault.Proper fun ok r' => ok = holds ∧ Forest r₀ ns₀ ps r' := by
  unfold Edit.require
  cases holds with
  | true => exact ⟨rfl, h⟩
  | false =>
    simp only [Bool.false_eq_true, if_false]
    split
    · exact nofun
    · refine Meets.bind (h.quiet (report_quiet (F := fun _ => True) rfl) trivial) ?_
      exact fun _ r' kept => ⟨rfl, kept⟩

/-! ### Dropping -/

/-- The nodes of a tree are a grove. -/
theorem grove (h : Forest r₀ ns₀ (.tree t n up :: ps) r) :
    ∃ ms, Draws r.core [.tree t n up] ms ∧ ms.Nodup ∧ Grove r.kidsOf [n] ms := by
  obtain ⟨ns, drawn, distinct, _⟩ := h
  obtain ⟨fst, snd, rfl, here, _⟩ := Draws.cons_iff.mp drawn
  refine ⟨fst, here, (List.nodup_append.mp distinct).1, here.grove (fun m d found => ?_) ?_⟩
  · obtain ⟨x, at_m, rfl⟩ := Option.map_eq_some_iff.mp found
    rw [Region.kidsOf, at_m]
    rfl
  · simp [Piece.Whole]

theorem subtree (h : Forest r₀ ns₀ (.tree t n up :: ps) r) :
    ∃ ms, Draws r.core [.tree t n up] ms ∧ ms.Nodup ∧ r.subtree n = .ok ms := by
  obtain ⟨ms, here, distinct, trees⟩ := h.grove
  exact ⟨ms, here, distinct, Region.subtree_of_grove trees distinct⟩

theorem cutUses (h : Forest r₀ ns₀ (.tree t n up :: ps) r) :
    Meets (cutUses n) r Fault.Proper fun _ r' => Forest r₀ ns₀ (.tree t n up :: ps) r' := by
  obtain ⟨ms, _, _, subtree⟩ := h.subtree
  refine h.quiet cutUses_quiet ?_
  simp only [Edit.cutUses, Edit.subtree, meets_bind, meets_ask, subtree, yields_ok]
  exact (cutEach_quiet r rfl).imp (fun _ => Fault.Plain.proper) fun _ _ _ => trivial

/-- A value may change what it knows of its reads. -/
theorem modifySsa (h : Forest r₀ ns₀ ps r) {v : SsaId} {f : SsaValue → SsaValue} :
    Meets (modifySsa v f) r Fault.Proper fun _ r' => r'.core = r.core ∧ Forest r₀ ns₀ ps r' := by
  simp only [Edit.modifySsa, Edit.ssaValue, putSsa, meets_bind, meets_ask, meets_modify]
  refine Yields.imp Region.lookup_answers (fun _ => Fault.Plain.proper) fun x _ _ => ?_
  exact ⟨rfl, h.still rfl (.live le_rfl rfl rfl rfl rfl)⟩

theorem removeSsaUse (h : Forest r₀ ns₀ ps r) (piece : p ∈ ps) (here : Draws r.core [p] ms)
    (mem : m ∈ ms) :
    Meets (removeSsaUse m) r Fault.Proper fun _ r' => r'.core = r.core ∧ Forest r₀ ns₀ ps r' := by
  simp only [Edit.removeSsaUse, meets_bind, meets_ask]
  refine Yields.imp Region.nodeToEdit_answers (fun _ => Fault.Plain.proper) fun d found _ => ?_
  have found := Region.node?_of_nodeToEdit found
  split
  · rw [meets_bind, meets_putNode]
    have core : (r.put m (some { d with ssa := none })).core = r.core := by
      rw [Region.core_put (Region.lt_size_of_node? found)]
      exact Function.update_eq_self_iff.mpr (Region.core_of found).symm
    have same : ({ d with ssa := none } : Node).core = d.core := rfl
    have h := h.putWithin piece here mem found same
    refine h.modifySsa.to fun _ r' kept => ?_
    exact ⟨kept.1.trans core, kept.2⟩
  · exact ⟨rfl, h⟩

theorem removeSsaUsesIn (h : Forest r₀ ns₀ (.tree t n up :: ps) r) :
    Meets (removeSsaUsesIn n) r Fault.Proper fun _ r' => Forest r₀ ns₀ (.tree t n up :: ps) r' := by
  obtain ⟨ms, here, _, subtree⟩ := h.subtree
  simp only [Edit.removeSsaUsesIn, Edit.subtree, meets_bind, meets_ask, subtree, yields_ok]
  refine (Meets.forM (I := fun r' => r'.core = r.core ∧ Forest r₀ ns₀ (.tree t n up :: ps) r')
    ⟨rfl, h⟩ fun x mem r₁ now => ?_).to fun _ _ kept => kept.2
  obtain ⟨core, h⟩ := now
  simp only [Edit.node, meets_bind, meets_ask]
  refine Yields.imp Region.node_answers (fun _ => Fault.Plain.proper) fun d _ _ => ?_
  split
  · refine (h.removeSsaUse List.mem_cons_self (core ▸ here) mem).to fun _ r₂ kept => ?_
    exact ⟨kept.1.trans core, kept.2⟩
  · exact ⟨core, h⟩

end Forest

theorem dropNode_nodes (live : r.Live n) :
    Meets (dropNode n) r Fault.Proper fun _ r' =>
      r'.node? = Function.update r.node? n none ∧ Grown .live r r' := by
  obtain ⟨d, found⟩ := live
  have forgets : Meets (forgetSsa n) r Fault.Proper fun _ r' =>
      r'.nodes = r.nodes ∧ Grown .live r r' := by
    simp only [forgetSsa, Edit.node, meets_bind, meets_ask, Region.node_of found, yields_ok]
    split
    · simp only [modifySsa, ssaValue, putSsa, meets_bind, meets_ask, meets_modify]
      refine Yields.imp Region.lookup_answers (fun _ => Fault.Plain.proper) fun x _ _ => ?_
      exact ⟨trivial, .live le_rfl rfl rfl rfl rfl⟩
    · exact ⟨rfl, .refl⟩
  refine Meets.bind forgets ?_
  rintro _ r₁ ⟨nodes, grown⟩
  have same : r₁.node? = r.node? := by
    funext m
    simp only [Region.node?, nodes]
  have found₁ : r₁.node? n = some d := by rw [same, found]
  simp only [Edit.node, meets_bind, meets_ask, Region.node_of found₁, yields_ok, meets_modify]
  refine ⟨?_, grown.trans (.live (by simp) rfl rfl rfl rfl)⟩
  funext m
  have look : (r₁.put n none).node? m = if m = n then none else r₁.node? m :=
    Region.node?_put (Region.lt_size_of_node? found₁)
  rw [← same]
  by_cases eq : m = n
  · subst eq
    rw [Function.update_self]
    exact look.trans (if_pos rfl)
  · rw [Function.update_of_ne eq]
    exact look.trans (if_neg eq)

theorem dropNodes_nodes (live : ∀ m ∈ ms, r.Live m) (distinct : ms.Nodup) :
    Meets (ms.forM dropNode) r Fault.Proper fun _ r' =>
      (r'.node? = fun m => if m ∈ ms then none else r.node? m) ∧ Grown .live r r' := by
  induction ms generalizing r with
  | nil => exact ⟨by simp, .refl⟩
  | cons n ms ih =>
    obtain ⟨fresh, rest⟩ := List.nodup_cons.mp distinct
    refine Meets.bind (dropNode_nodes (live n List.mem_cons_self)) ?_
    rintro _ r₁ ⟨nodes₁, grown₁⟩
    have live₁ : ∀ m ∈ ms, r₁.Live m := fun m mem => by
      obtain ⟨d, found⟩ := live m (List.mem_cons_of_mem n mem)
      exact ⟨d, by rw [nodes₁, Function.update_of_ne (by grind), found]⟩
    refine (ih live₁ rest).to ?_
    rintro _ r₂ ⟨nodes₂, grown₂⟩
    refine ⟨?_, grown₁.trans grown₂⟩
    rw [nodes₂, nodes₁]
    funext m
    by_cases same : m = n
    · simp [same]
    · simp [same]

theorem releaseAll_nodes (live : ∀ m ∈ ms, r.Live m) (distinct : ms.Nodup) :
    Meets (releaseAll ms) r Fault.Proper fun _ r' =>
      (r'.node? = fun m => if m ∈ ms then none else r.node? m) ∧ Grown .live r r' := by
  unfold releaseAll
  simp only [meets_bind, meets_ask]
  have unlinked : Answers Fault.Plain (ms.forM r.checkUnlinked) :=
    .forM fun _ => Region.checkUnlinked_answers
  have unreferenced : Answers Fault.Plain (r.checkUnreferenced ms) :=
    .forM fun _ => .bind Region.checkNoEdges_answers fun _ => Region.checkNoUses_answers
  refine Yields.imp unlinked (fun _ => Fault.Plain.proper) fun _ _ _ => ?_
  refine Yields.imp unreferenced (fun _ => Fault.Plain.proper) fun _ _ _ => ?_
  exact dropNodes_nodes live distinct

namespace Forest

theorem discardTree (h : Forest r₀ ns₀ (.tree t n up :: ps) r) :
    Meets (discardTree n) r Fault.Proper fun _ r' => Forest r₀ ns₀ (.gone n :: ps) r' := by
  have released {r : Region} (h : Forest r₀ ns₀ (.tree t n up :: ps) r) :
      Meets (do Edit.removeSsaUsesIn n; releaseTree n) r Fault.Proper fun _ r' =>
        Forest r₀ ns₀ (.gone n :: ps) r' := by
    refine Meets.bind h.removeSsaUsesIn fun _ r₁ h => ?_
    obtain ⟨ms, here, distinct, subtree⟩ := h.subtree
    simp only [releaseTree, Edit.subtree, meets_bind, meets_ask, subtree, yields_ok]
    have live : ∀ m ∈ ms, r₁.Live m := fun m mem => by
      obtain ⟨d, found⟩ := here.live (by simp [Piece.Whole]) mem
      exact Region.live_of_core found
    refine (releaseAll_nodes live distinct).to ?_
    rintro _ r₂ ⟨nodes, grown⟩
    exact h.drop here nodes grown
  unfold Edit.discardTree
  simp only [Edit.hasEdges, meets_bind, meets_get, meets_pure]
  split
  · exact Meets.bind h.cutUses fun _ r₁ h => released h
  · exact released h

theorem release (h : Forest r₀ ns₀ (.stub (.fresh code ty attrs ids) n up :: ps) r)
    (empty : ids.all (·.isEmpty) = true) :
    Meets (release n) r Fault.Proper fun _ r' => Forest r₀ ns₀ (.gone n :: ps) r' := by
  have here := h.stub_found List.mem_cons_self
  obtain ⟨_, _, _, found⟩ := Region.node?_of_core here
  unfold Edit.release
  simp only [Edit.node, meets_bind, meets_ask, Region.node_of found, yields_ok, empty,
    Bool.not_true, Bool.false_eq_true, if_false]
  have live : ∀ m ∈ [n], r.Live m := by simpa using ⟨_, found⟩
  refine (releaseAll_nodes live (List.nodup_singleton n)).to ?_
  rintro _ r' ⟨nodes, grown⟩
  exact h.drop (.stub here .nil) nodes grown

end Forest

end Peephole
