import Peephole.Proofs.Leniency
import Peephole.Proofs.Refinement

/-!
# Custody of expression trees

An expression owns the nodes at and below it. Refinement hands all of them over: what it makes of
the expression is a tree again, every other node that was owned is released, and no node outside
is changed.

* `refineExpr_hands_over`: the nodes before and after, for every expression that owns a tree.
* `refineExpr_terminates`: on such an expression no bound on steps is ever reached.
-/

namespace Peephole

open Edit

variable {s : Setting} {r r' : Region} {n m k : NodeId} {ns ms ks : List NodeId} {t u : Tree}
  {ps : List Piece} {up : Option NodeId} {g : NodeId → Option Node}

/-- An expression has the slots of its operation, and at most one kid in each slot; only a slot
that has a name of its own holds a list. -/
def Node.Arranged (d : Node) : Prop :=
  d.code.isExpr = true → d.slots.length = d.code.numSlots ∧
    ∀ slot ∈ d.slots.zipIdx, d.code.slotName slot.2 = "" → slot.1.length ≤ 1

instance (d : Node) : Decidable d.Arranged := inferInstanceAs (Decidable (_ → _ ∧ _))

namespace Region

/-- The nodes at and below `n` are `ns`: each is met once, and each kid names its parent. -/
structure TreeAt (r : Region) (n : NodeId) (ns : List NodeId) : Prop where
  walk : r.subtree n = .ok ns
  distinct : ns.Nodup
  linked : ∀ x ∈ ns, ∀ d ∈ r.node? x, ∀ k ∈ d.kids, (r.node? k).map Node.parent = some (some x)

/-- Every expression among `ns` is arranged. -/
def Arranged (r : Region) (ns : List NodeId) : Prop := ∀ x ∈ ns, ∀ d ∈ r.node? x, d.Arranged

instance (r : Region) (ns : List NodeId) : Decidable (r.Arranged ns) :=
  inferInstanceAs (Decidable (∀ x ∈ ns, ∀ d ∈ r.node? x, d.Arranged))

/-! ### The tree of a walk -/

theorem grove_of_subtreeWithin {fuel : Nat} :
    Yields (r.subtreeWithin fuel n) (fun _ => True) (Grove r.kidsOf [n]) := by
  induction fuel generalizing n with
  | zero => trivial
  | succ fuel ih =>
    have below (ks : List NodeId) : Yields (ks.mapM (r.subtreeWithin fuel)) (fun _ => True)
        fun each => Grove r.kidsOf ks each.flatten := by
      induction ks with
      | nil => exact .nil
      | cons k ks ihKids =>
        simp only [List.mapM_cons, yields_bind, yields_pure]
        refine Yields.imp ih (fun _ => id) fun ns _ here => ?_
        exact Yields.imp ihKids (fun _ => id) fun each _ rest => here.append rest
    simp only [subtreeWithin, yields_bind, yields_pure]
    cases found : r.node n with
    | error f => trivial
    | ok d =>
      rw [yields_ok]
      refine Yields.imp (below d.kids) (fun _ => id) fun each _ kids => ?_
      refine Grove.singleton_iff.mpr ⟨d.kids, _, ?_, kids, rfl⟩
      rw [kidsOf, node?_of_node found, Option.map_some]

theorem grove_of_walk (walk : r.subtree n = .ok ns) : Grove r.kidsOf [n] ns :=
  (yields_iff.mp grove_of_subtreeWithin).1 ns walk

/-- What a walk meets is its start, or a kid of a node that it meets. -/
theorem mem_walk {m : NodeId} (walk : r.subtree n = .ok ns) (mem : m ∈ ns) :
    (∃ d, r.node? m = some d) ∧ (m = n ∨ ∃ x ∈ ns, ∃ d, r.node? x = some d ∧ m ∈ d.kids) := by
  have trees := grove_of_walk walk
  obtain ⟨ks, kids, _⟩ := trees.kids_mem mem
  obtain ⟨d, found, _⟩ := node?_of_kidsOf kids
  refine ⟨⟨d, found⟩, ?_⟩
  rcases List.mem_append.mp (trees.perm.mem_iff.mp mem) with top | below
  · exact .inl (List.mem_singleton.mp top)
  · obtain ⟨x, inside, held⟩ := List.mem_flatMap.mp below
    obtain ⟨ks, kids, _⟩ := trees.kids_mem inside
    obtain ⟨dx, at_x, rfl⟩ := node?_of_kidsOf kids
    rw [kids, Option.getD_some] at held
    exact .inr ⟨x, inside, dx, at_x, held⟩

theorem TreeAt.grove (h : r.TreeAt n ns) : Grove r.kidsOf [n] ns := grove_of_walk h.walk

/-- Kids that are laid out as a node says. -/
theorem exists_fits (ids : List (List NodeId)) {ts : List Tree}
    (same : ts.length = ids.flatten.length) : ∃ slots, Fits slots ids ∧ slots.flatten = ts := by
  rw [List.length_flatten] at same
  exact ⟨(ids.map List.length).splitLengths ts, List.map_splitLengths_length _ _ same.ge,
    List.flatten_splitLengths _ _ same.le⟩

theorem formed_of_arranged {d : Node} {slots : List (List Tree)} (arranged : d.Arranged)
    (fits : Fits slots d.slots) (kids : ∀ t ∈ slots.flatten, t.Formed) :
    (Tree.node d.code d.ty d.attrs slots).Formed := by
  refine .node (fun expr => ?_) kids
  obtain ⟨length, each⟩ := arranged expr
  refine ⟨fits.length.trans length, fun i ts found operand => ?_⟩
  obtain ⟨ks, slot, same⟩ := fits.get found
  rw [same]
  exact each (ks, i) (List.mem_zipIdx_iff_getElem?.mpr slot) operand

/-- Walking down a grove whose links are right draws a tree at each of its roots. -/
theorem drawn_of_grove (h : Grove r.kidsOf ks ns)
    (linked : ∀ x ∈ ns, ∀ d ∈ r.node? x, ∀ k ∈ d.kids, (r.node? k).map Node.parent = some (some x))
    (under : ∀ k ∈ ks, (r.node? k).map Node.parent = some up) :
    ∃ ts, ts.length = ks.length ∧ (r.Arranged ns → ∀ t ∈ ts, t.Formed) ∧
      Draws r.core (planted ts ks up) ns := by
  induction h generalizing up with
  | nil => exact ⟨[], rfl, by simp, .nil⟩
  | @cons n kids ks below rest node _ _ ihBelow ihRest =>
    obtain ⟨d, found, rfl⟩ := node?_of_kidsOf node
    have inBelow {x : NodeId} (mem : x ∈ below) : x ∈ n :: (below ++ rest) :=
      List.mem_cons_of_mem _ (List.mem_append_left _ mem)
    have inRest {x : NodeId} (mem : x ∈ rest) : x ∈ n :: (below ++ rest) :=
      List.mem_cons_of_mem _ (List.mem_append_right _ mem)
    obtain ⟨ts, count, formed, drawn⟩ := ihBelow (fun x mem => linked x (inBelow mem))
      (linked n List.mem_cons_self d found)
    obtain ⟨us, counts, others, drawn'⟩ := ihRest (fun x mem => linked x (inRest mem))
      (fun k mem => under k (List.mem_cons_of_mem n mem))
    obtain ⟨slots, fits, rfl⟩ := exists_fits d.slots count
    have parent : d.parent = up := by
      have top := under n List.mem_cons_self
      rw [found, Option.map_some] at top
      exact Option.some.inj top
    refine ⟨.node d.code d.ty d.attrs slots :: us, by simp [counts], ?_, ?_⟩
    · intro arranged
      rw [List.forall_mem_cons]
      have kids := formed fun x mem => arranged x (inBelow mem)
      exact ⟨formed_of_arranged (arranged n List.mem_cons_self d found) fits kids,
        others fun x mem => arranged x (inRest mem)⟩
    · rw [← parent] at drawn' ⊢
      exact .tree (core_of found) fits drawn drawn'

/-- A tree whose links are right, as the one piece of a forest. -/
theorem forest_of_grove (grove : Grove r.kidsOf [n] ns) (distinct : ns.Nodup)
    (linked : ∀ x ∈ ns, ∀ d ∈ r.node? x, ∀ k ∈ d.kids, (r.node? k).map Node.parent = some
      (some x)) :
    ∃ t up, (r.Arranged ns → t.Formed) ∧ (r.node? n).map Node.parent = some up ∧
      Forest r ns [.tree t n up] r := by
  obtain ⟨_, found, _⟩ := grove.kids_mem (grove.roots_mem n List.mem_cons_self)
  obtain ⟨d, found, _⟩ := node?_of_kidsOf found
  have under : (r.node? n).map Node.parent = some d.parent := by rw [found, Option.map_some]
  obtain ⟨ts, count, formed, drawn⟩ := drawn_of_grove grove linked
    (List.forall_mem_singleton.mpr under)
  obtain ⟨t, rfl⟩ := List.length_eq_one_iff.mp count
  refine ⟨t, d.parent, fun arranged => formed arranged t List.mem_cons_self, under,
    .start drawn distinct fun x mem => ?_⟩
  obtain ⟨_, live⟩ := drawn.live planted_whole mem
  exact lt_size_of_core live

theorem TreeAt.forest (h : r.TreeAt n ns) (arranged : r.Arranged ns) :
    ∃ t up, t.Formed ∧ (r.node? n).map Node.parent = some up ∧
      Forest r ns [.tree t n up] r := by
  obtain ⟨t, up, formed, under, start⟩ := forest_of_grove h.grove h.distinct h.linked
  exact ⟨t, up, formed arranged, under, start⟩

/-! ### Links to parents -/

/-- The region with other links from nodes to their parents. -/
def withParents (r : Region) (parent : NodeId → Option NodeId) : Region :=
  { r with nodes := r.nodes.mapIdx fun i d => d.map (Node.under · (parent ⟨i⟩)) }

variable {parent : NodeId → Option NodeId}

theorem node?_withParents :
    (r.withParents parent).node? n = (r.node? n).map (Node.under · (parent n)) := by
  simp only [node?, withParents, Array.getElem?_mapIdx]
  rcases r.nodes[n.index]? with _ | _ | d <;> rfl

theorem kidsOf_withParents : (r.withParents parent).kidsOf = r.kidsOf := by
  funext x
  rw [kidsOf, kidsOf, node?_withParents]
  cases r.node? x <;> rfl

theorem orphaned_withParents : (r.withParents parent).orphaned = r.orphaned := by
  have nodes : (r.withParents parent).orphaned.nodes = r.orphaned.nodes := by
    refine Array.ext_getElem? fun i => ?_
    simp only [orphaned, withParents, Array.getElem?_map, Array.getElem?_mapIdx]
    rcases r.nodes[i]? with _ | _ | d <;> rfl
  simp only [orphaned, withParents] at nodes ⊢
  rw [nodes]

/-- The node among `ns` that has `k` as a kid. -/
def owner? (r : Region) (ns : List NodeId) (k : NodeId) : Option NodeId :=
  ns.find? fun x => ((r.kidsOf x).getD []).contains k

/-- The region with the links from nodes to their parents as the kids of `ns` want them. -/
def relinked (r : Region) (ns : List NodeId) : Region := r.withParents (r.owner? ns)

theorem node?_relinked :
    (r.relinked ns).node? n = (r.node? n).map (Node.under · (r.owner? ns n)) := node?_withParents

theorem kidsOf_relinked : (r.relinked ns).kidsOf = r.kidsOf := kidsOf_withParents

theorem orphaned_relinked : (r.relinked ns).orphaned = r.orphaned := orphaned_withParents

theorem owner?_of_grove {d : Node} {k : NodeId} (grove : Grove r.kidsOf [n] ns)
    (distinct : ns.Nodup) {x : NodeId} (mem : x ∈ ns) (found : r.node? x = some d)
    (kid : k ∈ d.kids) :
    r.owner? ns k = some x := by
  have kids : r.kidsOf x = some d.kids := by rw [kidsOf, found, Option.map_some]
  cases first : r.owner? ns k with
  | none =>
    have none := List.find?_eq_none.mp first x mem
    simp [kids, kid] at none
  | some y =>
    have own := List.find?_some first
    cases others : r.kidsOf y with
    | none => simp [others] at own
    | some ys =>
      have shared : k ∈ ys := by simpa [others] using own
      rw [grove.owner_unique distinct mem (List.mem_of_find?_eq_some first) kids others kid shared]

/-- Every tree is the piece of a forest once its links are right. -/
theorem forest_relinked (grove : Grove r.kidsOf [n] ns) (distinct : ns.Nodup) :
    ∃ t up, (r.Arranged ns → t.Formed) ∧
      Forest (r.relinked ns) ns [.tree t n up] (r.relinked ns) := by
  have linked : ∀ x ∈ ns, ∀ d ∈ (r.relinked ns).node? x, ∀ k ∈ d.kids,
      ((r.relinked ns).node? k).map Node.parent = some (some x) := by
    intro x mem d found k kid
    rw [Option.mem_def, node?_relinked] at found
    obtain ⟨e, at_x, rfl⟩ := Option.map_eq_some_iff.mp found
    have own : r.owner? ns k = some x := owner?_of_grove grove distinct mem at_x kid
    obtain ⟨kids, kidsAt, inside⟩ := grove.kids_mem mem
    obtain ⟨_, at_x', rfl⟩ := node?_of_kidsOf kidsAt
    obtain rfl := Option.some.inj (at_x.symm.trans at_x')
    obtain ⟨_, kidsAt, _⟩ := grove.kids_mem (inside k kid)
    obtain ⟨_, at_k, _⟩ := node?_of_kidsOf kidsAt
    rw [node?_relinked, at_k, own]
    rfl
  have grove : Grove (r.relinked ns).kidsOf [n] ns := by rwa [kidsOf_relinked]
  obtain ⟨t, up, formed, _, forest⟩ := forest_of_grove grove distinct linked
  refine ⟨t, up, fun arranged => formed fun x mem d found => ?_, forest⟩
  rw [Option.mem_def, node?_relinked] at found
  obtain ⟨e, at_x, rfl⟩ := Option.map_eq_some_iff.mp found
  exact arranged x mem e at_x

end Region

/-! ### What a forest says of a region -/

theorem mem_planted {ts : List Tree} (same : ts.length = ks.length) (mem : k ∈ ks) :
    ∃ t, Piece.tree t k up ∈ planted ts ks up := by
  induction ts generalizing ks with
  | nil => simp [List.length_eq_zero_iff.mp same.symm] at mem
  | cons t ts ih =>
    cases ks with
    | nil => simp at mem
    | cons l ks =>
      rcases List.mem_cons.mp mem with rfl | mem
      · exact ⟨t, List.mem_cons_self⟩
      · obtain ⟨u, inside⟩ := ih (by simpa using same) mem
        exact ⟨u, List.mem_cons_of_mem _ inside⟩

/-- Below the roots of whole trees, every kid names its parent. -/
theorem Draws.linked (h : Draws g ps ns) (whole : ∀ p ∈ ps, p.Whole) :
    ∀ x ∈ ns, ∀ d, g x = some d → ∀ k ∈ d.kids, (g k).map Node.parent = some (some x) := by
  induction h with
  | nil => simp
  | @tree code ty attrs slots ids n up ps below ns found fits kids _ ihKids ihRest =>
    intro x mem d at_x k kid
    rcases List.mem_cons.mp mem with rfl | mem
    · rw [found, Option.some.injEq] at at_x
      subst at_x
      obtain ⟨t, piece⟩ := mem_planted fits.length_flatten kid
      obtain ⟨_, at_k, _⟩ := kids.tree_found piece
      rw [at_k]
      rfl
    · rcases List.mem_append.mp mem with mem | mem
      · exact ihKids planted_whole x mem d at_x k kid
      · exact ihRest (fun p mem => whole p (List.mem_cons_of_mem _ mem)) x mem d at_x k kid
  | stub | gone =>
    obtain ⟨t, n, up, same⟩ := whole _ List.mem_cons_self
    contradiction

theorem Forest.treeAt {r₀ : Region} {ns₀ : List NodeId} (h : Forest r₀ ns₀ [.tree t n up] r) :
    ∃ ms, r.TreeAt n ms ∧ (∀ x ∈ ms, r.Live x) ∧ Reshaped r₀ r ns₀ ms := by
  obtain ⟨ms, drawn, distinct, walk⟩ := h.subtree
  obtain ⟨ns, drawn', _, reshaped⟩ := h
  obtain rfl := drawn.unique drawn'
  have whole : ∀ p ∈ [Piece.tree t n up], p.Whole := by simp [Piece.Whole]
  refine ⟨ms, ⟨walk, distinct, fun x mem d found k kid => ?_⟩, fun x mem => ?_, reshaped⟩
  · have parent := drawn.linked whole x mem d.core (Region.core_of found) k kid
    rwa [Region.core, Option.map_map] at parent
  · obtain ⟨_, live⟩ := drawn.live whole mem
    exact Region.live_of_core live

namespace Reshaped

variable {x : NodeId}

theorem node_kept {d : Node} (h : Reshaped r r' ns ms) (out : x ∉ ns) (found : r.node? x = some d) :
    ∃ record, r'.node? x = some { d with record } := by
  have same := h.kept x out (Region.lt_size_of_node? found)
  rw [Region.frame, Region.frame, found, Option.map_some] at same
  obtain ⟨e, found', same⟩ := Option.map_eq_some_iff.mp same
  refine ⟨e.record, found'.trans (congrArg some ?_)⟩
  cases e
  cases d
  simpa [Node.unrecorded] using same

theorem live_iff (h : Reshaped r r' ns ms) (live : ∀ x ∈ ms, r'.Live x) :
    r'.Live x ↔ r.Live x ∧ x ∉ ns ∨ x ∈ ms := by
  constructor
  · rintro ⟨e, found⟩
    by_cases inside : x ∈ ms
    · exact .inr inside
    have old : ¬(x ∈ ns ∨ r.nodes.size ≤ x.index) := fun own => by
      simp [h.gone x own inside] at found
    obtain ⟨out, old⟩ := not_or.mp old
    have same := h.kept x out (Nat.lt_of_not_le old)
    rw [Region.frame, Region.frame, found, Option.map_some] at same
    obtain ⟨d, found, _⟩ := Option.map_eq_some_iff.mp same.symm
    exact .inl ⟨⟨d, found⟩, out⟩
  · rintro (⟨⟨d, found⟩, out⟩ | inside)
    · obtain ⟨record, found⟩ := h.node_kept out found
      exact ⟨_, found⟩
    · exact live x inside

end Reshaped

/-! ### Refinement -/

/-- Refinement of an expression that owns a tree of arranged nodes hands over exactly what was
owned. The result is the root of a tree; it is the expression itself or has no parent. The live
nodes are those of that tree and those that were live outside the old one, and the latter differ
from before in nothing but their records. -/
theorem refineExpr_hands_over {out : NodeId × Bool} (tree : r.TreeAt n ns)
    (arranged : r.Arranged ns)
    (run : (refineExpr s n).run r = .ok (out, r')) :
    ∃ ms, r'.TreeAt out.1 ms ∧
      (r'.node? out.1).map Node.parent =
        (if out.1 = n then (r.node? n).map Node.parent else some none) ∧
      (∀ x, r'.Live x ↔ r.Live x ∧ x ∉ ns ∨ x ∈ ms) ∧
      ∀ x ∉ ns, ∀ d ∈ r.node? x, ∃ record, r'.node? x = some { d with record } := by
  obtain ⟨t, up, formed, under, start⟩ := tree.forest arranged
  have meets : Meets (refineExpr s n) r (Fault.ProperIf False)
      (Passed False (Ordered s r) r ns [] t n up) :=
    start.refineExpr nofun formed
  obtain ⟨u, _, regrown⟩ := (meets_iff.mp meets).1 out r' run
  obtain ⟨up', parent, h⟩ : ∃ up', some up' =
      (if out.1 = n then (r.node? n).map Node.parent else some none) ∧
      Forest r ns [.tree u out.1 up'] r' := by
    rcases regrown with ⟨same, h⟩ | h
    · exact ⟨up, by rw [if_pos same, under], by rwa [same]⟩
    · have moved : out.1 ≠ n := h.root_ne (q := .gone n) List.mem_cons_self
      exact ⟨none, by rw [if_neg moved], h.swap.forget⟩
  obtain ⟨ms, tree', live, reshaped⟩ := h.treeAt
  obtain ⟨_, found, _⟩ := h.tree_found List.mem_cons_self
  refine ⟨ms, tree', ?_, fun x => reshaped.live_iff live, fun x out d => reshaped.node_kept out⟩
  obtain ⟨d, at_out, core⟩ := Option.map_eq_some_iff.mp found
  rw [← parent, at_out, Option.map_some]
  exact congrArg some (congrArg Node.parent core)

/-- `$3 = $1 * 2` in 32 bits, where the literal has 64 bits and `$1` reads a value of static single
assignment. -/
def Region.doubledRead : Region :=
  { Region.empty ⟨8⟩ with
    nodes := #[
      some { Node.fresh .pr (.scalar .i32) (.ofRegister 1) [] with
        parent := some ⟨2⟩, ssa := some ⟨0⟩ },
      some { Node.fresh .const (.scalar .i64) (.ofLiteral (.int 2)) [] with parent := some ⟨2⟩ },
      some { Node.fresh .mul (.scalar .i32) .none [[⟨0⟩], [⟨1⟩]] with parent := some ⟨3⟩ },
      some { Node.fresh .stpr (.scalar .i32) (.ofRegister 3) [[⟨2⟩]] with block := some ⟨0⟩ }]
    blocks := #[[⟨3⟩]]
    order := [⟨0⟩]
    ssa := #[⟨none, .ofList [⟨0⟩]⟩] }

theorem Region.doubledRead_treeAt : Region.doubledRead.TreeAt ⟨2⟩ [⟨2⟩, ⟨0⟩, ⟨1⟩] :=
  ⟨rfl, by decide, by decide⟩

/-- The read is copied, and the literal is released. -/
theorem refineExpr_doubledRead : Region.doubledRead.Arranged [⟨2⟩, ⟨0⟩, ⟨1⟩] ∧ ∃ r',
    (refineExpr ⟨.standard, true⟩ ⟨2⟩).run .doubledRead = .ok ((⟨2⟩, true), r') ∧
    r'.TreeAt ⟨2⟩ [⟨2⟩, ⟨0⟩, ⟨4⟩] ∧
    ∀ x, r'.Live x ↔
      Region.doubledRead.Live x ∧ x ∉ ([⟨2⟩, ⟨0⟩, ⟨1⟩] : List NodeId) ∨ x ∈ [⟨2⟩, ⟨0⟩, ⟨4⟩] := by
  have arranged : Region.doubledRead.Arranged [⟨2⟩, ⟨0⟩, ⟨1⟩] := by decide
  have ends : Meets (refineExpr ⟨.standard, true⟩ ⟨2⟩) .doubledRead (fun _ => False) fun out r' =>
      out = (⟨2⟩, true) ∧ r'.subtree ⟨2⟩ = .ok [⟨2⟩, ⟨0⟩, ⟨4⟩] := by
    decide +kernel
  obtain ⟨out, r', run⟩ := ends.returns
  obtain ⟨rfl, walk⟩ := (meets_iff.mp ends).1 out r' run
  obtain ⟨ms, tree, _, live, _⟩ := refineExpr_hands_over Region.doubledRead_treeAt arranged run
  obtain rfl := Except.ok.inj (tree.walk.symm.trans walk)
  exact ⟨arranged, r', run, tree, live⟩

/-- A conversion of a read of its own type, with a second read in the same slot. -/
def Region.overfull : Region :=
  { Region.empty ⟨8⟩ with
    nodes := #[
      some { Node.fresh .pr (.scalar .i32) (.ofRegister 1) [] with parent := some ⟨2⟩ },
      some { Node.fresh .pr (.scalar .i32) (.ofRegister 2) [] with parent := some ⟨2⟩ },
      some (.fresh .cvt (.scalar .i32) .none [[⟨0⟩, ⟨1⟩]])] }

/-- Where a slot of one operand holds two kids, the second one is live in the end, outside the
tree that the conversion has become. -/
theorem refineExpr_overfull : Region.overfull.TreeAt ⟨2⟩ [⟨2⟩, ⟨0⟩, ⟨1⟩] ∧ ∃ r',
    (refineExpr ⟨.standard, true⟩ ⟨2⟩).run .overfull = .ok ((⟨0⟩, true), r') ∧
    r'.subtree ⟨0⟩ = .ok [⟨0⟩] ∧ (r'.node? ⟨1⟩).isSome = true := by
  have ends : Meets (refineExpr ⟨.standard, true⟩ ⟨2⟩) .overfull (fun _ => False) fun out r' =>
      out = (⟨0⟩, true) ∧ r'.subtree ⟨0⟩ = .ok [⟨0⟩] ∧ (r'.node? ⟨1⟩).isSome = true := by
    decide +kernel
  obtain ⟨out, r', run⟩ := ends.returns
  obtain ⟨rfl, rest⟩ := (meets_iff.mp ends).1 out r' run
  exact ⟨⟨rfl, by decide, by decide⟩, r', run, rest⟩

/-- On an expression that owns a tree of arranged nodes, whatever their types and whatever parents
they name, refinement returns or stops with a fault of its own: with the pointer widths there are,
neither the restarts of a binary operation nor the passes over its converted operands go on for
ever. -/
theorem refineExpr_terminates (s : Setting) (walk : r.subtree n = .ok ns) (distinct : ns.Nodup)
    (arranged : r.Arranged ns) (wide : r.layout.pointerSize ∈ [2, 4, 8]) :
    (refineExpr s n).run r ≠ .error .exhausted := by
  -- no pass reads the links to parents, so they may as well be right
  obtain ⟨t, up, formed, start⟩ := Region.forest_relinked (Region.grove_of_walk walk) distinct
  have meets : Meets (refineExpr s n) (r.relinked ns) (Fault.ProperIf True)
      (Passed True (Ordered s (r.relinked ns)) (r.relinked ns) ns [] t n up) :=
    start.refineExpr (fun _ => wide) (formed arranged)
  have blind : Blind (refineExpr s n) := refineExpr_blind
  have follows := blind r (r.relinked ns) Region.orphaned_relinked
  intro run
  rw [run] at follows
  exact (meets_iff.mp meets).2 _ (follows rfl) trivial rfl

theorem refineExpr_doubledRead_terminates :
    Region.doubledRead.Arranged [⟨2⟩, ⟨0⟩, ⟨1⟩] ∧
    Region.doubledRead.layout.pointerSize ∈ [2, 4, 8] ∧
    (refineExpr ⟨.standard, false⟩ ⟨2⟩).run .doubledRead ≠ .error .exhausted :=
  ⟨by decide, by decide, refineExpr_terminates _ rfl (by decide) (by decide) (by decide)⟩

end Peephole
