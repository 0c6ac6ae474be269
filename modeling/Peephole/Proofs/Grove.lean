import Peephole.Proofs.Nodes

/-!
# Groves

A grove is a list of trees of live nodes, and the list of all their nodes in
pre-order. Nodes that edits of other trees leave alone keep their groves.
-/

namespace Peephole

/-- The trees at the nodes `ks`, where `kidsAt` gives the kids of live nodes, have the nodes
`ns` in pre-order. -/
inductive Grove (kidsAt : NodeId → Option (List NodeId)) : List NodeId → List NodeId → Prop
  | nil : Grove kidsAt [] []
  | cons {n : NodeId} {kids ks below rest : List NodeId} (node : kidsAt n = some kids)
      (trees : Grove kidsAt kids below) (others : Grove kidsAt ks rest) :
      Grove kidsAt (n :: ks) (n :: (below ++ rest))

namespace Grove

variable {at₁ at₂ : NodeId → Option (List NodeId)} {n m : NodeId} {ks ks' ns ns' : List NodeId}

theorem congr (h : Grove at₁ ks ns) (agree : ∀ m ∈ ns, at₂ m = at₁ m) : Grove at₂ ks ns := by
  induction h with
  | nil => exact .nil
  | @cons n kids ks below rest node _ _ ihBelow ihRest =>
    refine .cons ((agree n List.mem_cons_self).trans node) (ihBelow fun m mem => ?_)
      (ihRest fun m mem => ?_)
    · exact agree m (List.mem_cons_of_mem _ (List.mem_append_left _ mem))
    · exact agree m (List.mem_cons_of_mem _ (List.mem_append_right _ mem))

theorem singleton_iff : Grove at₁ [n] ns ↔
    ∃ kids below, at₁ n = some kids ∧ Grove at₁ kids below ∧ ns = n :: below := by
  constructor
  · rintro (_ | ⟨node, trees, ⟨⟩⟩)
    exact ⟨_, _, node, trees, by simp⟩
  · rintro ⟨kids, below, node, trees, rfl⟩
    have whole := Grove.cons node trees .nil
    rwa [List.append_nil] at whole

theorem append (h : Grove at₁ ks ns) (h' : Grove at₁ ks' ns') :
    Grove at₁ (ks ++ ks') (ns ++ ns') := by
  induction h with
  | nil => exact h'
  | cons node trees _ _ ihRest =>
    have whole := Grove.cons node trees ihRest
    simpa using whole

theorem split (h : Grove at₁ (ks ++ ks') ns) :
    ∃ ms ms', Grove at₁ ks ms ∧ Grove at₁ ks' ms' ∧ ns = ms ++ ms' := by
  induction ks generalizing ns with
  | nil => exact ⟨[], ns, .nil, h, rfl⟩
  | cons k ks ih =>
    rcases h with _ | ⟨node, trees, others⟩
    obtain ⟨ms, ms', front, back, rfl⟩ := ih others
    exact ⟨_, ms', .cons node trees front, back, by simp⟩

theorem roots_mem (h : Grove at₁ ks ns) : ∀ k ∈ ks, k ∈ ns := by
  induction h with
  | nil => simp
  | cons _ _ _ _ ihRest =>
    intro k mem
    rcases List.mem_cons.mp mem with rfl | mem
    · exact List.mem_cons_self
    · exact List.mem_cons_of_mem _ (List.mem_append_right _ (ihRest k mem))

/-- Every node of a grove is live, and its kids are in the grove as well. -/
theorem kids_mem (h : Grove at₁ ks ns) (mem : m ∈ ns) :
    ∃ kids, at₁ m = some kids ∧ ∀ k ∈ kids, k ∈ ns := by
  induction h with
  | nil => simp at mem
  | @cons n kids ks below rest node trees _ ihBelow ihRest =>
    have up : ∀ {k : NodeId}, k ∈ below ∨ k ∈ rest → k ∈ n :: (below ++ rest) := by
      intro k found
      exact List.mem_cons_of_mem _ (List.mem_append.mpr found)
    rcases List.mem_cons.mp mem with rfl | mem
    · exact ⟨kids, node, fun k hk => up (.inl (trees.roots_mem k hk))⟩
    · rcases List.mem_append.mp mem with mem | mem
      · obtain ⟨ls, found, inside⟩ := ihBelow mem
        exact ⟨ls, found, fun k hk => up (.inl (inside k hk))⟩
      · obtain ⟨ls, found, inside⟩ := ihRest mem
        exact ⟨ls, found, fun k hk => up (.inr (inside k hk))⟩

/-- A node of a grove is one of its roots or the kid of one node. -/
theorem perm (h : Grove at₁ ks ns) : ns.Perm (ks ++ ns.flatMap fun x => (at₁ x).getD []) := by
  induction h with
  | nil => exact .refl []
  | @cons n kids ks below rest node _ _ ihBelow ihRest =>
    simp only [List.cons_append, List.flatMap_cons, node, Option.getD_some, List.flatMap_append]
    refine .cons n ((ihBelow.append ihRest).trans ?_)
    rw [← List.append_assoc kids]
    exact List.perm_append_comm_assoc _ _ _

/-- No two nodes of a grove have a kid in common. -/
theorem owner_unique {x y k : NodeId} {xs ys : List NodeId} (h : Grove at₁ ks ns)
    (distinct : ns.Nodup) (hx : x ∈ ns) (hy : y ∈ ns) (atX : at₁ x = some xs)
    (atY : at₁ y = some ys)
    (inX : k ∈ xs) (inY : k ∈ ys) : x = y := by
  have kids := (h.perm.nodup_iff.mp distinct).of_append_right
  obtain ⟨_, apart⟩ := List.nodup_flatMap.mp kids
  have : Std.Symm (Function.onFun List.Disjoint fun x => (at₁ x).getD []) :=
    ⟨fun _ _ => List.Disjoint.symm⟩
  by_contra other
  have disjoint := apart.forall hx hy other
  simp only [Function.onFun, atX, atY, Option.getD_some] at disjoint
  exact disjoint inX inY

end Grove

variable {r : Region} {n : NodeId} {ks ns : List NodeId}

theorem Region.node?_of_kidsOf {kids : List NodeId} (h : r.kidsOf n = some kids) :
    ∃ d, r.node? n = some d ∧ d.kids = kids := by
  simpa [kidsOf] using h

theorem Grove.live (h : Grove r.kidsOf ks ns) : ∀ m ∈ ns, r.Live m := by
  intro m mem
  obtain ⟨_, kids, _⟩ := h.kids_mem mem
  obtain ⟨d, found, _⟩ := Region.node?_of_kidsOf kids
  exact ⟨d, found⟩

namespace Region

/-- Handles of live nodes that are all different are at most as many as places. -/
theorem length_le_size (distinct : ns.Nodup) (live : ∀ m ∈ ns, r.Live m) :
    ns.length ≤ r.nodes.size := by
  have places : (ns.map (·.index)).Nodup :=
    distinct.map fun a b same => Handle.index_inj.mp same
  have inside : ns.map (·.index) ⊆ List.range r.nodes.size := by
    intro i mem
    obtain ⟨m, hm, rfl⟩ := List.mem_map.mp mem
    obtain ⟨d, found⟩ := live m hm
    exact List.mem_range.mpr (lt_size_of_node? found)
  simpa using (places.subperm inside).length_le

theorem subtreeWithin_of_grove {fuel : Nat} (h : Grove r.kidsOf ks ns) (deep : ns.length ≤ fuel) :
    ∃ each, ks.mapM (r.subtreeWithin fuel) = .ok each ∧ each.flatten = ns := by
  induction h generalizing fuel with
  | nil => exact ⟨[], rfl, rfl⟩
  | @cons n kids ks below rest node _ _ ihBelow ihRest =>
    simp only [List.length_cons, List.length_append] at deep
    obtain ⟨fuel, rfl⟩ : ∃ f, fuel = f + 1 := ⟨fuel - 1, by omega⟩
    obtain ⟨d, found, rfl⟩ := node?_of_kidsOf node
    obtain ⟨lower, hLower, rfl⟩ := ihBelow (by omega : below.length ≤ fuel)
    obtain ⟨other, hOther, rfl⟩ := ihRest (by omega : rest.length ≤ fuel + 1)
    have top : r.subtreeWithin (fuel + 1) n = .ok (n :: lower.flatten) := by
      simp [subtreeWithin, node_of found, hLower, bind, Except.bind, pure, Except.pure]
    refine ⟨(n :: lower.flatten) :: other, ?_, by simp⟩
    simp [List.mapM_cons, top, hOther, bind, Except.bind, pure, Except.pure]

theorem subtree_of_grove (h : Grove r.kidsOf [n] ns) (distinct : ns.Nodup) :
    r.subtree n = .ok ns := by
  have live : ∀ m ∈ ns, r.Live m := by
    intro m mem
    obtain ⟨kids, found, _⟩ := h.kids_mem mem
    obtain ⟨d, found, _⟩ := node?_of_kidsOf found
    exact ⟨d, found⟩
  have deep : ns.length ≤ r.depthBound := Nat.le_succ_of_le (length_le_size distinct live)
  obtain ⟨each, run, rfl⟩ := subtreeWithin_of_grove h deep
  unfold subtree
  rw [List.mapM_cons, List.mapM_nil] at run
  cases top : r.subtreeWithin r.depthBound n with
  | error f => simp [top, bind, Except.bind] at run
  | ok xs =>
    simp only [top, bind, Except.bind, pure, Except.pure, Except.ok.injEq] at run
    subst run
    simp

end Region

end Peephole
