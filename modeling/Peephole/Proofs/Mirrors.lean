import Peephole.Proofs.Clones
import Peephole.Proofs.Custody
import Peephole.Proofs.Transfers

/-!
# Copies of trees with their references

The copy of a tree has the nodes of the tree in their order; then what each node accesses and its
edges are copied as well, pair by pair. Each definition that reaches a node of the tree reaches
its copy in the end, and the tree itself is as it was (`duplicate_copies_references`).
-/

namespace Peephole

open Edit

variable {α β : Type} {r r' r'' : Region} {n c x : NodeId} {d e : Node} {v : SsaId}
  {ks ks' cs cs' ns ns' ms ms' : List NodeId} {fuel : Nat}

/-! ### Copies of nodes -/

/-- `e` has the content of `d`, and kids in the same places. -/
structure Node.Twin (d e : Node) : Prop where
  code : e.code = d.code
  ty : e.ty = d.ty
  attrs : e.attrs = d.attrs
  shape : e.slots.map List.length = d.slots.map List.length
  ssa : e.ssa = if d.code = .pr then d.ssa else none

/-- `x` is a register read of the value `v`. -/
def Region.Reads (r : Region) (x : NodeId) (v : SsaId) : Prop :=
  ∃ d, r.node? x = some d ∧ d.code = .pr ∧ d.ssa = some v

/-- From `r` to `r'` the nodes `ms`, which are trees at `cs`, were made as copies of `ns`. -/
structure Mirrored (r r' : Region) (cs ns ms : List NodeId) : Prop where
  cloned : Cloned r r' cs
  grove : Grove r'.kidsOf cs ms
  length : ns.length = ms.length
  twins : ∀ x c, (x, c) ∈ ns.zip ms → ∃ d e, r.node? x = some d ∧ r'.node? c = some e ∧ d.Twin e
  known : r'.ssa.size = r.ssa.size
  /-- A copied register read is a further use of its value. -/
  values : ∀ (v : SsaId) w, r.ssa[v.index]? = some w → ∃ w', r'.ssa[v.index]? = some w' ∧
    w'.defn = w.defn ∧ ∀ u, u ∈ w'.uses ↔ u ∈ w.uses ∨ ∃ x, (x, u) ∈ ns.zip ms ∧ r.Reads x v

/-- The trees at `ks` have the nodes `ns`, and the values that they read exist. -/
structure Region.Copyable (r : Region) (ks ns : List NodeId) : Prop where
  trees : Grove r.kidsOf ks ns
  known : ∀ x ∈ ns, ∀ v, r.Reads x v → v.index < r.ssa.size

theorem Region.Copyable.old (h : r.Copyable ks ns) (mem : x ∈ ns) : x.index < r.nodes.size := by
  obtain ⟨_, found, _⟩ := h.trees.kids_mem mem
  obtain ⟨d, found, _⟩ := Region.node?_of_kidsOf found
  exact Region.lt_size_of_node? found

namespace Mirrored

theorem nil : Mirrored r r [] [] [] :=
  ⟨.nil, .nil, rfl, by simp, rfl, fun v w found => ⟨w, found, rfl, fun u => by simp⟩⟩

theorem reads (h : Mirrored r r' cs ns ms) (old : x.index < r.nodes.size) :
    r'.Reads x v ↔ r.Reads x v := by
  unfold Region.Reads
  rw [h.cloned.old x old]

/-- What could be copied before can be copied now. -/
theorem copyable (h : Mirrored r r' cs ns ms) (ready : r.Copyable ks ns') : r'.Copyable ks ns' := by
  refine ⟨ready.trees.congr fun m mem => ?_, fun x mem v reads => ?_⟩
  · rw [Region.kidsOf, Region.kidsOf, h.cloned.old m (ready.old mem)]
  · rw [h.known]
    exact ready.known x mem v ((h.reads (ready.old mem)).mp reads)

theorem inside (h : Mirrored r r' cs ns ms) (mem : c ∈ ms) : c.index < r'.nodes.size := by
  obtain ⟨_, found, _⟩ := h.grove.kids_mem mem
  obtain ⟨e, found, _⟩ := Region.node?_of_kidsOf found
  exact Region.lt_size_of_node? found

theorem append (first : Mirrored r r' cs ns ms) (second : Mirrored r' r'' cs' ns' ms')
    (ready : r.Copyable ks ns') : Mirrored r r'' (cs ++ cs') (ns ++ ns') (ms ++ ms') := by
  have kept : Grove r''.kidsOf cs ms := by
    refine first.grove.congr fun m mem => ?_
    rw [Region.kidsOf, Region.kidsOf, second.cloned.old m (first.inside mem)]
  refine ⟨first.cloned.append second.cloned, kept.append second.grove, ?_, fun x c mem => ?_,
    second.known.trans first.known, fun v w found => ?_⟩
  · rw [List.length_append, List.length_append, first.length, second.length]
  · rw [List.zip_append first.length, List.mem_append] at mem
    rcases mem with mem | mem
    · obtain ⟨d, e, atX, atC, twin⟩ := first.twins x c mem
      exact ⟨d, e, atX, (second.cloned.old c (Region.lt_size_of_node? atC)).trans atC, twin⟩
    · obtain ⟨d, e, atX, atC, twin⟩ := second.twins x c mem
      rw [first.cloned.old x (ready.old (List.of_mem_zip mem).1)] at atX
      exact ⟨d, e, atX, atC, twin⟩
  · obtain ⟨w', found', defn', uses'⟩ := first.values v w found
    obtain ⟨w'', found'', defn'', uses''⟩ := second.values v w' found'
    refine ⟨w'', found'', defn''.trans defn', fun u => ?_⟩
    have later : (∃ x, (x, u) ∈ ns'.zip ms' ∧ r'.Reads x v) ↔ ∃ x, (x, u) ∈ ns'.zip ms' ∧
        r.Reads x v :=
      exists_congr fun x => and_congr_right fun mem =>
        first.reads (ready.old (List.of_mem_zip mem).1)
    rw [uses'', uses', later, List.zip_append first.length]
    simp only [List.mem_append, or_and_right, exists_or, or_assoc]

end Mirrored

/-! ### Copies of trees -/

theorem Region.Copyable.split (h : r.Copyable (ks ++ ks') ns) :
    ∃ ms ms', r.Copyable ks ms ∧ r.Copyable ks' ms' ∧ ns = ms ++ ms' := by
  obtain ⟨ms, ms', front, back, rfl⟩ := h.trees.split
  exact ⟨ms, ms', ⟨front, fun x mem => h.known x (List.mem_append_left _ mem)⟩,
    ⟨back, fun x mem => h.known x (List.mem_append_right _ mem)⟩, rfl⟩

/-- Copies of one item after another. -/
theorem mapM_mirrors {f : α → Edit β} {xs : List α} (roots : α → List NodeId)
    (copies : β → List NodeId)
    (each : ∀ x ∈ xs, ∀ r ns, r.Copyable (roots x) ns → ns.length ≤ fuel →
      Meets (f x) r (fun _ => False) fun b r' =>
        (copies b).length = (roots x).length ∧ ∃ ms, Mirrored r r' (copies b) ns ms)
    (ready : r.Copyable (xs.flatMap roots) ns) (short : ns.length ≤ fuel) :
    Meets (xs.mapM f) r (fun _ => False) fun bs r' =>
      bs.map (fun b => (copies b).length) = xs.map (fun x => (roots x).length) ∧
        ∃ ms, Mirrored r r' (bs.flatMap copies) ns ms := by
  induction xs generalizing r ns with
  | nil =>
    obtain rfl : ns = [] := by
      rcases ready.trees with _ | _
      rfl
    exact ⟨rfl, [], .nil⟩
  | cons x xs ih =>
    rw [List.flatMap_cons] at ready
    obtain ⟨front, back, here, later, rfl⟩ := ready.split
    rw [List.length_append] at short
    rw [List.mapM_cons]
    refine Meets.bind (each x List.mem_cons_self r front here (by omega)) ?_
    rintro b r₁ ⟨shape, ms, first⟩
    have rest :=
      ih (fun x mem => each x (List.mem_cons_of_mem _ mem)) (first.copyable later) (by omega)
    refine Meets.bind rest ?_
    rintro bs r₂ ⟨shapes, ms', second⟩
    refine ⟨?_, ms ++ ms', first.append second later⟩
    rw [List.map_cons, List.map_cons, shape, shapes]

/-- From `r'`, where `ms` are copies, to `r''` the node `c` was put above them. -/
structure Topped (r r' r'' : Region) (c : NodeId) (e : Node) (ms : List NodeId) : Prop where
  cloned : Cloned r r'' [c]
  grove : Grove r''.kidsOf [c] (c :: ms)
  top : r''.node? c = some e
  apart : c ∉ ms
  kept : ∀ m ∈ ms, ∀ d, r'.node? m = some d → ∃ p, r''.node? m = some { d with parent := p }

theorem build_tops {code : Op} {ty : Ty} {attrs : Attrs} {slots : List (List NodeId)}
    (kids : Mirrored r r' slots.flatten ns ms) :
    Meets (build code ty attrs slots) r' (fun _ => False) fun c r'' =>
      Topped r r' r'' c (.fresh code ty attrs slots) ms ∧ r''.ssa = r'.ssa := by
  have made : Meets (build code ty attrs slots) r' (fun _ => False) fun c r'' => c = r'.next ∧
      r'' = (r'.push (.fresh code ty attrs slots)).reparent slots.flatten (some r'.next) :=
    (meets_create (d := .fresh code ty attrs slots) ⟨rfl, rfl⟩ kids.cloned.live).mpr ⟨rfl, rfl⟩
  refine (made.and (build_clones (F := fun _ => False) kids.cloned)).to ?_
  rintro _ _ ⟨⟨rfl, rfl⟩, cloned⟩
  have kidsAt (m : NodeId) := Region.kidsOf_created (r := r') (m := m) (.fresh code ty attrs slots)
  have other : ∀ m ∈ ms, m ≠ r'.next := by
    rintro m mem rfl
    exact absurd (kids.inside mem) (Nat.lt_irrefl _)
  have outside : r'.next ∉ slots.flatten := fun mem => other _ (kids.grove.roots_mem _ mem) rfl
  refine ⟨⟨cloned, ?_, ?_, fun mem => other _ mem rfl, fun m mem d found => ?_⟩, rfl⟩
  · refine Grove.singleton_iff.mpr ⟨_, ms, (kidsAt _).trans (if_pos rfl), kids.grove.congr ?_, rfl⟩
    exact fun m mem => (kidsAt m).trans (if_neg (other m mem))
  · rw [Region.node?_reparent, if_neg outside, Region.node?_push, if_pos rfl]
  · rw [Region.node?_reparent, Region.node?_push, if_neg (other m mem), found]
    split
    · exact ⟨_, rfl⟩
    · exact ⟨d.parent, rfl⟩

/-- The copy of a node above the copies of its kids, once its value knows it. -/
theorem Topped.mirrors (h : Topped r r' r'' c e ms) (kids : Mirrored r r' cs ns ms)
    (found : r.node? n = some d) (twin : d.Twin e) (known : r''.ssa.size = r'.ssa.size)
    (values : ∀ (v : SsaId) w, r'.ssa[v.index]? = some w → ∃ w', r''.ssa[v.index]? = some w' ∧
      w'.defn = w.defn ∧ ∀ u, u ∈ w'.uses ↔ u ∈ w.uses ∨ u = c ∧ r.Reads n v) :
    Mirrored r r'' [c] (n :: ns) (c :: ms) := by
  refine ⟨h.cloned, h.grove, by rw [List.length_cons, List.length_cons, kids.length],
    fun x c' mem => ?_, known.trans kids.known, fun v w found => ?_⟩
  · rw [List.zip_cons_cons] at mem
    rcases List.mem_cons.mp mem with same | mem
    · cases same
      exact ⟨d, e, found, h.top, twin⟩
    · obtain ⟨d', e', atX, atC', twin'⟩ := kids.twins x c' mem
      obtain ⟨p, now⟩ := h.kept c' (List.of_mem_zip mem).2 e' atC'
      exact ⟨d', _, atX, now, ⟨twin'.code, twin'.ty, twin'.attrs, twin'.shape, twin'.ssa⟩⟩
  · obtain ⟨w', found', defn', uses'⟩ := kids.values v w found
    obtain ⟨w'', found'', defn'', uses''⟩ := values v w' found'
    refine ⟨w'', found'', defn''.trans defn', fun u => ?_⟩
    rw [uses'', uses', List.zip_cons_cons]
    simp only [List.mem_cons, Prod.mk.injEq, or_and_right, exists_or, and_assoc, exists_eq_left]
    rw [or_assoc]
    exact or_congr_right or_comm

/-- The copy of a register read is registered with the value. -/
theorem addSsaUse_tops (h : Topped r r' r'' c e ms) (code : e.code = .pr)
    (inside : v.index < r''.ssa.size) :
    Meets (addSsaUse v c) r'' (fun _ => False) fun _ r₃ =>
      Topped r r' r₃ c { e with ssa := some v } ms ∧ r₃.ssa.size = r''.ssa.size ∧
      ∀ (u : SsaId) w, r''.ssa[u.index]? = some w → ∃ w', r₃.ssa[u.index]? = some w' ∧
        w'.defn = w.defn ∧ ∀ x, x ∈ w'.uses ↔ x ∈ w.uses ∨ x = c ∧ u = v := by
  have size := Region.lt_size_of_node? h.top
  obtain ⟨w, look⟩ : ∃ w, r''.ssa[v.index]? = some w := ⟨_, Array.getElem?_eq_getElem inside⟩
  have made : Meets (addSsaUse v c) r'' (fun _ => False) fun _ r₃ =>
      (∀ m, r₃.node? m = (r''.put c (some { e with ssa := some v })).node? m) ∧
      r₃.ssa = r''.ssa.setIfInBounds v.index ⟨w.defn, w.uses.insert c⟩ := by
    have look' : (r''.put c (some { e with ssa := some v })).ssa[v.index]? = some w := look
    simp only [addSsaUse, Edit.node, setSsa, meets_bind, meets_ask, Region.node_of h.top, yields_ok]
    rw [if_neg (not_not.mpr code)]
    simp only [meets_bind, meets_modifyNode h.top, modifySsa, ssaValue, putSsa, Region.ssaValue,
      meets_ask, Region.lookup_of look', yields_ok, meets_modify]
    exact ⟨fun _ => rfl, rfl⟩
  refine (made.and (addSsaUse_clones h.cloned)).to ?_
  rintro _ r₃ ⟨⟨nodes, values⟩, cloned⟩
  have nodeAt (m : NodeId) := (nodes m).trans (Region.node?_put size)
  have kidsAt (m : NodeId) : r₃.kidsOf m = r''.kidsOf m := by
    have kept := Region.kidsOf_put m (e := { e with ssa := some v }) h.top rfl
    rwa [Region.kidsOf, ← nodes m] at kept
  refine ⟨⟨cloned, h.grove.congr fun m _ => kidsAt m, (nodeAt c).trans (if_pos rfl), h.apart,
    fun m mem d found => ?_⟩, by rw [values, Array.size_setIfInBounds], fun u w' found => ?_⟩
  · obtain ⟨p, now⟩ := h.kept m mem d found
    have other : m ≠ c := fun same => h.apart (same ▸ mem)
    exact ⟨p, (nodeAt m).trans ((if_neg other).trans now)⟩
  · rw [values]
    by_cases same : u = v
    · subst same
      obtain rfl := Option.some.inj (look.symm.trans found)
      refine ⟨_, Array.getElem?_setIfInBounds_self_of_lt inside, rfl, fun x => ?_⟩
      rw [HandleSet.mem_insert, and_iff_left rfl]
      exact or_comm
    · have other : v.index ≠ u.index := fun eq => same (Handle.index_inj.mp eq.symm)
      refine ⟨w', (Array.getElem?_setIfInBounds_ne other).trans found, rfl, fun x => ?_⟩
      simp [same]

theorem duplicateWithin_mirrors (ready : r.Copyable [n] ns) (short : ns.length ≤ fuel) :
    Meets (duplicateWithin fuel n) r (fun _ => False) fun c r' =>
      ∃ ms, Mirrored r r' [c] ns ms := by
  induction fuel generalizing r n ns with
  | zero =>
    have mem := ready.trees.roots_mem n List.mem_cons_self
    rw [List.length_eq_zero_iff.mp (Nat.le_zero.mp short)] at mem
    cases mem
  | succ fuel ih =>
    obtain ⟨kids, below, atN, trees, rfl⟩ := Grove.singleton_iff.mp ready.trees
    obtain ⟨d, found, rfl⟩ := Region.node?_of_kidsOf atN
    have readyKids : r.Copyable d.kids below :=
      ⟨trees, fun x mem => ready.known x (List.mem_cons_of_mem _ mem)⟩
    rw [List.length_cons, Nat.add_le_add_iff_right] at short
    have slot : ∀ ks ∈ d.slots, ∀ r ns, r.Copyable ks ns → ns.length ≤ fuel →
        Meets (ks.mapM (duplicateWithin fuel)) r (fun _ => False) fun cs r' =>
          cs.length = ks.length ∧ ∃ ms, Mirrored r r' cs ns ms := by
      intro ks _ r ns ready short
      have whole := mapM_mirrors (f := duplicateWithin fuel) (fun k => [k]) (fun c => [c])
        (fun k _ r ns ready short => (ih ready short).to fun c r' made => ⟨rfl, made⟩)
        (by rwa [List.flatMap_singleton']) short
      refine whole.to ?_
      rintro cs r' ⟨shape, ms, made⟩
      rw [List.flatMap_singleton'] at made
      exact ⟨by simpa using congrArg List.length shape, ms, made⟩
    have kids := mapM_mirrors id id slot (by rwa [List.flatMap_id]) short
    simp only [duplicateWithin, Edit.node, meets_bind, meets_ask, Region.node_of found, yields_ok]
    refine kids.to ?_
    rintro slots r₁ ⟨shape, ms, made⟩
    rw [List.flatMap_id] at made
    have reads (v : SsaId) : r.Reads n v ↔ d.code = .pr ∧ d.ssa = some v := by
      simp [Region.Reads, found]
    refine (build_tops made).to ?_
    rintro c r₂ ⟨topped, same⟩
    split
    · rename_i v code ssa
      have inside := ready.known n List.mem_cons_self v ((reads v).mpr ⟨code, ssa⟩)
      rw [← made.known, ← same] at inside
      refine Meets.bind (addSsaUse_tops topped code inside) ?_
      rintro _ r₃ ⟨topped', size, values⟩
      refine ⟨c :: ms, topped'.mirrors made found ⟨rfl, rfl, rfl, shape, ?_⟩
        (by rw [size, same]) ?_⟩
      · rw [if_pos code, ssa]
      · intro u w foundU
        obtain ⟨w', foundU', defn, uses⟩ := values u w (by rwa [same])
        refine ⟨w', foundU', defn, fun x => ?_⟩
        rw [uses, reads, ssa, Option.some.injEq, and_iff_right code, eq_comm (a := u)]
    · rename_i idle
      refine ⟨c :: ms, topped.mirrors made found ⟨rfl, rfl, rfl, shape, ?_⟩ (by rw [same]) ?_⟩
      · split
        · rename_i code
          cases ssa : d.ssa with
          | none => rfl
          | some v => exact (idle v code ssa).elim
        · rfl
      · intro v w foundV
        refine ⟨w, by rwa [same], rfl, fun u => ?_⟩
        have silent : ¬r.Reads n v := by
          rw [reads]
          rintro ⟨code, ssa⟩
          exact idle v code ssa
        simp [silent]

/-! ### Copies of accesses and edges -/

/-- From `r` to `r'` nothing was written but edges. -/
structure Linked (r r' : Region) (t : NodeId) : Prop extends Noted r r' t where
  must : ∀ x, (r'.accessOf x).must = (r.accessOf x).must
  may : ∀ x, (r'.accessOf x).may = (r.accessOf x).may

theorem Linked.trans {t : NodeId} (first : Linked r r' t) (second : Linked r' r'' t) :
    Linked r r'' t :=
  ⟨first.toNoted.trans second.toNoted, fun x => (second.must x).trans (first.must x),
    fun x => (second.may x).trans (first.may x)⟩

/-- A new peer of `p` is a new peer of all that have its record. -/
theorem addPeer_links {t p q : NodeId} (recorded : r.Recorded) (own : p = t ∨ (r.recordOf p).isSome)
    (live : r.Live p) :
    Meets (addPeer p q) r (fun _ => False) fun _ r' => Linked r r' t ∧
      ∀ x y, r'.Edge x y ↔ r.Edge x y ∨ r.Shares x p ∧ y = q := by
  refine (modifyAccess_writes _ recorded live).to fun _ r' written => ?_
  have each (x : NodeId) : (r'.accessOf x).must = (r.accessOf x).must ∧
      (r'.accessOf x).may = (r.accessOf x).may ∧
      ∀ y, r'.Edge x y ↔ r.Edge x y ∨ r.Shares x p ∧ y = q := by
    by_cases shares : r.Shares x p
    · have now := written.access x shares
      rw [← shares.accessOf] at now
      refine ⟨by rw [now], by rw [now], fun y => ?_⟩
      simp only [Region.Edge, now, HandleSet.mem_insert, shares, true_and]
      exact or_comm
    · refine ⟨by rw [written.others x shares], by rw [written.others x shares], fun y => ?_⟩
      simp [Region.Edge, written.others x shares, shares]
  exact ⟨⟨written.noted own, fun x => (each x).1, fun x => (each x).2.1⟩, fun x => (each x).2.2⟩

/-- `t`, whose record is its own, is joined with one node after another. -/
theorem joinAll_links {t : NodeId} {ps : List NodeId} (recorded : r.Recorded) (live : r.Live t)
    (alone : ∀ x, r.Shares x t ↔ x = t) (own : ∀ p ∈ ps, p ≠ t ∧ (r.recordOf p).isSome) :
    Meets (ps.forM fun p => do addPeer p t; addPeer t p) r (fun _ => False) fun _ r' =>
      Linked r r' t ∧ ∀ x y, r'.Edge x y ↔
        r.Edge x y ∨ (∃ p ∈ ps, r.Shares x p) ∧ y = t ∨ x = t ∧ y ∈ ps := by
  induction ps generalizing r with
  | nil => exact ⟨⟨.refl recorded, fun _ => rfl, fun _ => rfl⟩, fun x y => by simp⟩
  | cons p ps ih =>
    obtain ⟨other, has⟩ := own p List.mem_cons_self
    refine Meets.bind
      (Meets.bind (addPeer_links (t := t) recorded (.inr has) (Region.live_of_recordOf has)) ?_)
      fun _ _ => id
    rintro _ r₁ ⟨first, edge₁⟩
    refine (addPeer_links first.recorded (.inl rfl) (first.live live)).to ?_
    rintro _ r₂ ⟨second, edge₂⟩
    have both := first.trans second
    refine (ih both.recorded (both.live live) (fun x => (both.shares x t).trans (alone x))
      fun q mem => ?_).to ?_
    · obtain ⟨other, has⟩ := own q (List.mem_cons_of_mem _ mem)
      exact ⟨other, by rwa [both.records q other]⟩
    · rintro _ r₃ ⟨rest, edge₃⟩
      refine ⟨both.trans rest, fun x y => ?_⟩
      simp only [edge₃, edge₂, edge₁, both.shares, first.shares, alone, List.mem_cons, or_and_right,
        exists_or, exists_eq_left]
      generalize (∃ q ∈ ps, r.Shares x q) = later
      tauto

theorem copyEdges_links {t s : NodeId} {c : EdgeCounts} (recorded : r.Recorded)
    (counts : r.edgeCounts = some c) (liveT : r.Live t) (liveS : r.Live s)
    (alone : ∀ x, r.Shares x t ↔ x = t) (symm : ∀ x y, r.Edge x y → r.Edge y x)
    (apart : ¬r.Edge s t) :
    Meets (copyEdges t s) r (fun _ => False) fun _ r' => Linked r r' t ∧
      ∀ x y, r'.Edge x y ↔ r.Edge x y ∨ r.Edge s x ∧ y = t ∨ x = t ∧ r.Edge s y := by
  simp only [copyEdges, meets_bind, meets_ask, Region.peers_of recorded liveS, yields_ok]
  refine (count_notes (t := t) _ _ recorded counts).to ?_
  rintro _ r₁ ⟨counted, _, same⟩
  have linked : Linked r r₁ t := ⟨counted, fun x => by rw [same], fun x => by rw [same]⟩
  have edge₁ (x y : NodeId) : r₁.Edge x y ↔ r.Edge x y := by rw [Region.Edge, Region.Edge, same]
  refine (joinAll_links counted.recorded (counted.live liveT)
    (fun x => (counted.shares x t).trans (alone x)) fun p mem => ?_).to ?_
  · have edge : r.Edge s p := HandleSet.mem_toList.mp mem
    have other : p ≠ t := fun here => apart (here ▸ edge)
    exact ⟨other, by rw [counted.records p other]; exact (symm s p edge).recorded⟩
  · rintro _ r₂ ⟨joined, edge₂⟩
    refine ⟨linked.trans joined, fun x y => ?_⟩
    -- who shares the record of a peer of `s` is a peer of `s`, as edges lead both ways there
    have closed : (∃ p ∈ (r.accessOf s).peers.toList, r₁.Shares x p) ↔ r.Edge s x := by
      constructor
      · rintro ⟨p, mem, shares⟩
        have back := symm s p (HandleSet.mem_toList.mp mem)
        rw [Region.Edge, ← ((counted.shares x p).mp shares).accessOf] at back
        exact symm x s back
      · exact fun edge => ⟨x, edge, .inl rfl⟩
    rw [edge₂, edge₁, closed]
    rfl

/-- `t`, whose record is its own, is made to access what `s` accesses, and keeps its edges. -/
theorem copyAccess_copies {t s : NodeId} (recorded : r.Recorded) (liveT : r.Live t)
    (liveS : r.Live s)
    (alone : ∀ x, r.Shares x t ↔ x = t) :
    Meets (copyAccess t s) r (fun _ => False) fun _ r' =>
      Noted r r' t ∧ r'.edgeCounts = r.edgeCounts ∧ (∀ x, x ≠ t → r'.accessOf x = r.accessOf x) ∧
      r'.accessOf t = ⟨(r.accessOf s).must, (r.accessOf s).may, (r.accessOf t).peers⟩ := by
  obtain ⟨d, found⟩ := liveT
  simp only [copyAccess, Edit.node, meets_bind, meets_ask, Region.access_of recorded liveS,
    Region.node_of found, yields_ok]
  split
  · rename_i idle
    simp only [Bool.and_eq_true, Option.isNone_iff_eq_none] at idle
    obtain ⟨⟨must, may⟩, record⟩ := idle
    rw [meets_pure, must, may]
    refine ⟨.refl recorded, rfl, fun _ _ => rfl, ?_⟩
    rw [Region.accessOf_of_none (by rw [Region.recordOf_of found, record])]
    rfl
  · refine (modifyAccess_writes _ recorded ⟨d, found⟩).to fun _ r' written => ?_
    refine ⟨written.toNoted, written.counts, fun x other => written.others x ?_,
      written.access t (.inl rfl)⟩
    rwa [alone]

/-! ### Pair by pair -/

/-- Access and edges of each original were given to its copy; `ps` are the pairs of copy and
original. -/
structure Annotated (r r' : Region) (ps : List (NodeId × NodeId)) : Prop where
  recorded : r'.Recorded
  same : r'.skeleton = r.skeleton
  shares : ∀ m k, r'.Shares m k ↔ r.Shares m k
  records : ∀ m, m ∉ ps.map Prod.fst → r'.recordOf m = r.recordOf m
  old : ∀ m, m ∉ ps.map Prod.fst → (r'.accessOf m).must = (r.accessOf m).must ∧
    (r'.accessOf m).may = (r.accessOf m).may
  new : ∀ p ∈ ps, (r'.accessOf p.1).must = (r.accessOf p.2).must ∧
    (r'.accessOf p.1).may = (r.accessOf p.2).may
  edge : ∀ x y, r'.Edge x y ↔ r.Edge x y ∨ (∃ p ∈ ps, r.Edge p.2 x ∧ y = p.1) ∨
    ∃ p ∈ ps, x = p.1 ∧ r.Edge p.2 y

/-- Bare nodes `p.1` are to get accesses and edges of expressions `p.2`. -/
structure Region.Pairs (r : Region) (ps : List (NodeId × NodeId)) : Prop where
  distinct : (ps.map Prod.fst).Nodup
  live : ∀ p ∈ ps, r.Live p.1
  bare : ∀ p ∈ ps, r.recordOf p.1 = none
  exprs : ∀ p ∈ ps, ∃ d, r.node? p.2 = some d ∧ d.isStmt = false
  apart : ∀ p ∈ ps, p.2 ∉ ps.map Prod.fst

variable {t s : NodeId} {ps qs : List (NodeId × NodeId)}

namespace Annotated

theorem nil (recorded : r.Recorded) : Annotated r r [] :=
  ⟨recorded, rfl, fun _ _ => Iff.rfl, fun _ _ => rfl, fun _ _ => ⟨rfl, rfl⟩, by simp, by simp⟩

theorem symm (h : Annotated r r' ps) (symm : ∀ x y, r.Edge x y → r.Edge y x) (x y : NodeId)
    (edge : r'.Edge x y) : r'.Edge y x := by
  rw [h.edge] at edge ⊢
  rcases edge with edge | ⟨p, mem, edge, rfl⟩ | ⟨p, mem, rfl, edge⟩
  · exact .inl (symm x y edge)
  · exact .inr (.inr ⟨p, mem, rfl, edge⟩)
  · exact .inr (.inl ⟨p, mem, edge, rfl⟩)

/-- No expression but the copies gets edges. -/
theorem edge_expr (h : Annotated r r' ps) (crossing : r.Crossing)
    (exprs : ∀ p ∈ ps, ∃ d, r.node? p.2 = some d ∧ d.isStmt = false) (found : r.node? x = some d)
    (expr : d.isStmt = false) (other : x ∉ ps.map Prod.fst) (y : NodeId) :
    r'.Edge x y ↔ r.Edge x y := by
  rw [h.edge, or_iff_left_iff_imp]
  rintro (⟨p, mem, edge, _⟩ | ⟨p, mem, rfl, _⟩)
  · obtain ⟨e, foundP, exprP⟩ := exprs p mem
    exact (crossing.loose foundP found (exprP.trans expr.symm) edge).elim
  · exact (other (List.mem_map_of_mem mem)).elim

/-- One more pair. -/
theorem snoc (done : Annotated r r' ps) (new : t ∉ ps.map Prod.fst) (noted : Noted r' r'' t)
    (old : ∀ m, m ≠ t → (r''.accessOf m).must = (r'.accessOf m).must ∧
      (r''.accessOf m).may = (r'.accessOf m).may)
    (here : (r''.accessOf t).must = (r.accessOf s).must ∧ (r''.accessOf t).may = (r.accessOf s).may)
    (edge : ∀ x y, r''.Edge x y ↔ r'.Edge x y ∨ r.Edge s x ∧ y = t ∨ x = t ∧ r.Edge s y) :
    Annotated r r'' (ps ++ [(t, s)]) := by
  have split {m : NodeId} (out : m ∉ (ps ++ [(t, s)]).map Prod.fst) :
      m ∉ ps.map Prod.fst ∧ m ≠ t := by
    simpa [not_or] using out
  refine ⟨noted.recorded, noted.same.trans done.same, fun m k => ?_, fun m out => ?_,
    fun m out => ?_, fun p mem => ?_, fun x y => ?_⟩
  · rw [noted.shares, done.shares]
  · obtain ⟨out, other⟩ := split out
    rw [noted.records m other, done.records m out]
  · obtain ⟨out, other⟩ := split out
    rw [(old m other).1, (old m other).2]
    exact done.old m out
  · rcases List.mem_append.mp mem with mem | mem
    · have other : p.1 ≠ t := fun same => new (same ▸ List.mem_map_of_mem mem)
      rw [(old p.1 other).1, (old p.1 other).2]
      exact done.new p mem
    · obtain rfl := List.mem_singleton.mp mem
      exact here
  · rw [edge, done.edge]
    simp only [List.mem_append, List.mem_singleton, or_and_right, exists_or, exists_eq_left]
    generalize (∃ p ∈ ps, r.Edge p.2 x ∧ y = p.1) = left
    generalize (∃ p ∈ ps, x = p.1 ∧ r.Edge p.2 y) = right
    tauto

end Annotated

theorem copyNode_annotates (done : Annotated r r' ps) (pairs : r.Pairs (ps ++ (t, s) :: qs))
    (symm : ∀ x y, r.Edge x y → r.Edge y x) (crossing : r.Crossing) (counting : r.hasEdges = true) :
    Meets (do
      if (← node s).record.isSome then
        copyAccess t s
        copyEdges t s) r' (fun _ => False) fun _ r'' => Annotated r r'' (ps ++ [(t, s)]) := by
  have mem : (t, s) ∈ ps ++ (t, s) :: qs := List.mem_append_right _ List.mem_cons_self
  have new : t ∉ ps.map Prod.fst := by
    have distinct := pairs.distinct
    rw [List.map_append, List.map_cons, List.nodup_append] at distinct
    exact fun inside => distinct.2.2 t inside t List.mem_cons_self rfl
  have out := pairs.apart _ mem
  have outS : s ∉ ps.map Prod.fst := fun inside => out (by
    rw [List.map_append]
    exact List.mem_append_left _ inside)
  obtain ⟨d, foundS, expr⟩ := pairs.exprs _ mem
  have foundS' := (Region.node?_eq_of_skeleton done.same (done.records s outS)).trans foundS
  have liveT := Region.live_of_skeleton done.same (pairs.live _ mem)
  have bare := pairs.bare _ mem
  have clean := Region.accessOf_of_none bare
  have alone (x : NodeId) : r'.Shares x t ↔ x = t :=
    (done.shares x t).trans (Region.shares_of_none bare)
  have edgeS := done.edge_expr crossing
    (fun p inside => pairs.exprs p (List.mem_append_left _ inside)) foundS expr outS
  have accessS := done.old s outS
  have accessT := done.old t new
  simp only [Edit.node, meets_bind, meets_ask, Region.node_of foundS', yields_ok]
  split
  · have apart : ¬r.Edge s t := by
      intro edge
      have back := (symm s t edge).recorded
      rw [bare] at back
      cases back
    rw [meets_bind]
    refine (copyAccess_copies done.recorded liveT ⟨d, foundS'⟩ alone).to ?_
    rintro _ r₁ ⟨noted, counts, others, here⟩
    have edge₁ (x y : NodeId) : r₁.Edge x y ↔ r'.Edge x y := by
      by_cases same : x = t
      · rw [same, Region.Edge, here, Region.Edge]
      · rw [Region.Edge, others x same, Region.Edge]
    have counting₁ : r₁.hasEdges = true := by
      rw [Region.hasEdges, counts]
      exact (Region.hasEdges_of_skeleton done.same).trans counting
    obtain ⟨c, counts₁⟩ := Option.isSome_iff_exists.mp counting₁
    refine (copyEdges_links noted.recorded counts₁ (noted.live liveT) (noted.live ⟨d, foundS'⟩)
      (fun x => (noted.shares x t).trans (alone x)) (fun x y edge => ?_) ?_).to ?_
    · rw [edge₁] at edge ⊢
      exact done.symm symm x y edge
    · rwa [edge₁, edgeS]
    · rintro _ r₂ ⟨linked, edge₂⟩
      refine done.snoc new (noted.trans linked.toNoted) (fun m far => ?_) ?_ fun x y => ?_
      · rw [linked.must, linked.may, others m far]
        exact ⟨rfl, rfl⟩
      · rw [linked.must, linked.may, here]
        exact accessS
      · simp only [edge₂, edge₁, edgeS]
  · rename_i none
    have cleanS : r.accessOf s = .clean := Region.accessOf_of_none (by
      rw [Region.recordOf_of foundS]
      simpa using none)
    have loose (y : NodeId) : ¬r.Edge s y := by simp [Region.Edge, cleanS, Access.clean]
    refine done.snoc new (.refl done.recorded) (fun _ _ => ⟨rfl, rfl⟩) ?_ fun x y => ?_
    · rw [cleanS, accessT.1, accessT.2, clean]
      exact ⟨rfl, rfl⟩
    · simp [loose]

/-- All pairs. -/
theorem copyNodes_annotates (done : Annotated r r' ps) (pairs : r.Pairs (ps ++ qs))
    (symm : ∀ x y, r.Edge x y → r.Edge y x) (crossing : r.Crossing) (counting : r.hasEdges = true) :
    Meets (qs.forM fun q => do
      if (← node q.2).record.isSome then
        copyAccess q.1 q.2
        copyEdges q.1 q.2) r' (fun _ => False) fun _ r'' => Annotated r r'' (ps ++ qs) := by
  induction qs generalizing ps r' with
  | nil =>
    rw [List.append_nil]
    exact done
  | cons q qs ih =>
    refine Meets.bind (copyNode_annotates done pairs symm crossing counting) fun _ r₁ next => ?_
    rw [List.append_cons] at pairs ⊢
    exact ih next pairs

/-! ### A copy with its references -/

/-- From `r` to `r'` new nodes `ms` were made as copies of the nodes `ns`, with their accesses,
their edges and their uses of values. -/
structure Duplicated (r r' : Region) (ns ms : List NodeId) : Prop where
  length : ns.length = ms.length
  distinct : ms.Nodup
  fresh : ∀ c ∈ ms, r.nodes.size ≤ c.index
  twins : ∀ x c, (x, c) ∈ ns.zip ms → ∃ d e, r.node? x = some d ∧ r'.node? c = some e ∧ d.Twin e
  accesses : ∀ x c, (x, c) ∈ ns.zip ms → r'.accessOf c = r.accessOf x
  /-- A value has the copies of the reads that it had as further uses. -/
  values : ∀ (v : SsaId) w, r.ssa[v.index]? = some w → ∃ w', r'.ssa[v.index]? = some w' ∧
    w'.defn = w.defn ∧ ∀ u, u ∈ w'.uses ↔ u ∈ w.uses ∨ ∃ x, (x, u) ∈ ns.zip ms ∧ r.Reads x v
  /-- A node has the copies of the peers that it had as further peers. -/
  peers : ∀ p : NodeId, p.index < r.nodes.size → ∀ y, y ∈ (r'.accessOf p).peers ↔
    y ∈ (r.accessOf p).peers ∨ ∃ x ∈ (r.accessOf p).peers, (x, y) ∈ ns.zip ms
  /-- Nodes that were there are as they were, and so are their references. -/
  old : ∀ p : NodeId, p.index < r.nodes.size → r'.node? p = r.node? p ∧
    (r'.accessOf p).must = (r.accessOf p).must ∧ (r'.accessOf p).may = (r.accessOf p).may
  tree : ∀ x ∈ ns, r'.accessOf x = r.accessOf x

theorem Grove.unique {kidsAt : NodeId → Option (List NodeId)} (h : Grove kidsAt ks ns)
    (h' : Grove kidsAt ks ms) : ns = ms := by
  induction h generalizing ms with
  | nil =>
    rcases h' with _ | _
    rfl
  | cons node _ _ ihBelow ihRest =>
    rcases h' with _ | ⟨node', trees', others'⟩
    obtain rfl := Option.some.inj (node.symm.trans node')
    rw [ihBelow trees', ihRest others']

theorem Access.ext {a b : Access} (must : a.must = b.must) (may : a.may = b.may)
    (peers : a.peers = b.peers) : a = b := by
  cases a
  cases b
  simp_all

theorem mem_zip_swap {α β : Type} {xs : List α} {ys : List β} {x : α} {y : β} :
    (y, x) ∈ ys.zip xs ↔ (x, y) ∈ xs.zip ys := by
  rw [← List.zip_swap, List.mem_map]
  constructor
  · rintro ⟨p, mem, same⟩
    obtain rfl : p = (x, y) := Prod.swap_injective same
    exact mem
  · exact fun mem => ⟨_, mem, rfl⟩

namespace Mirrored

theorem new (h : Mirrored r r' cs ns ms) : ms.Nodup ∧ ∀ c ∈ ms, r.nodes.size ≤ c.index := by
  obtain ⟨ms', grove, distinct, fresh⟩ := h.cloned.grove
  rw [h.grove.unique grove]
  exact ⟨distinct, fresh⟩

/-- Copies are new nodes without a record. -/
theorem pairs (h : Mirrored r r' cs ns ms) (ready : r.Copyable ks ns)
    (exprs : ∀ x ∈ ns, ∀ d, r.node? x = some d → d.isStmt = false) : r'.Pairs (ms.zip ns) := by
  have firsts : (ms.zip ns).map Prod.fst = ms := List.map_fst_zip h.length.ge
  obtain ⟨distinct, fresh⟩ := h.new
  refine ⟨by rwa [firsts], fun p mem => ?_, fun p mem => ?_, fun p mem => ?_, fun p mem => ?_⟩
  · obtain ⟨_, found, _⟩ := h.grove.kids_mem (List.of_mem_zip mem).1
    obtain ⟨e, found, _⟩ := Region.node?_of_kidsOf found
    exact ⟨e, found⟩
  · rw [h.cloned.records.recordOf, Region.recordOf,
      Region.node?_of_size_le (fresh p.1 (List.of_mem_zip mem).1), Option.bind_none]
  · have inside := (List.of_mem_zip mem).2
    rw [h.cloned.old p.2 (ready.old inside)]
    obtain ⟨_, found, _⟩ := ready.trees.kids_mem inside
    obtain ⟨d, found, _⟩ := Region.node?_of_kidsOf found
    exact ⟨d, found, exprs p.2 inside d found⟩
  · rw [firsts]
    intro copied
    exact absurd (ready.old (List.of_mem_zip mem).2) (Nat.not_lt.mpr (fresh p.2 copied))

end Mirrored

/-- New nodes without edges do not change what kind of nodes edges join. -/
theorem Cloned.crossing (h : Cloned r r' cs) (symm : ∀ x y, r.Edge x y → r.Edge y x)
    (crossing : r.Crossing) : r'.Crossing := by
  intro x y d e edge foundX foundY
  rw [Region.Edge, h.records.accessOf] at edge
  obtain ⟨d', foundX'⟩ := Region.Edge.live edge
  obtain ⟨e', foundY'⟩ := (symm x y edge).live
  rw [h.old x (Region.lt_size_of_node? foundX')] at foundX
  rw [h.old y (Region.lt_size_of_node? foundY')] at foundY
  exact crossing x y d e edge foundX foundY

theorem Annotated.duplicated {r₁ r₂ : Region} (mirrored : Mirrored r r₁ cs ns ms)
    (annotated : Annotated r₁ r₂ (ms.zip ns)) (ready : r.Copyable ks ns)
    (pairs : r₁.Pairs (ms.zip ns))
    (symm : ∀ x y, r.Edge x y → r.Edge y x) (crossing : r₁.Crossing) : Duplicated r r₂ ns ms := by
  have firsts : (ms.zip ns).map Prod.fst = ms := List.map_fst_zip mirrored.length.ge
  obtain ⟨distinct, fresh⟩ := mirrored.new
  have accessOf : r₁.accessOf = r.accessOf := mirrored.cloned.records.accessOf
  have edge (x y : NodeId) : y ∈ (r₂.accessOf x).peers ↔ y ∈ (r.accessOf x).peers ∨
      (∃ z ∈ (r.accessOf x).peers, (z, y) ∈ ns.zip ms) ∨
      ∃ z, (z, x) ∈ ns.zip ms ∧ y ∈ (r.accessOf z).peers := by
    refine (annotated.edge x y).trans ?_
    simp only [Region.Edge, accessOf, Prod.exists]
    refine or_congr_right (or_congr ⟨?_, ?_⟩ ⟨?_, ?_⟩)
    · rintro ⟨_, s, mem, edge, rfl⟩
      exact ⟨s, symm s x edge, mem_zip_swap.mp mem⟩
    · rintro ⟨z, edge, mem⟩
      exact ⟨y, z, mem_zip_swap.mpr mem, symm x z edge, rfl⟩
    · rintro ⟨_, s, mem, rfl, edge⟩
      exact ⟨s, mem_zip_swap.mp mem, edge⟩
    · rintro ⟨z, mem, edge⟩
      exact ⟨x, z, mem_zip_swap.mpr mem, rfl, edge⟩
  have out {p : NodeId} (old : p.index < r.nodes.size) : p ∉ ms := fun mem =>
    absurd old (Nat.not_lt.mpr (fresh p mem))
  have loose {c : NodeId} (mem : c ∈ ms) (y : NodeId) : ¬r.Edge c y := fun edge => by
    obtain ⟨d, found⟩ := edge.live
    exact out (Region.lt_size_of_node? found) mem
  refine ⟨mirrored.length, distinct, fresh, fun x c mem => ?_, fun x c mem => ?_,
    fun v w found => ?_, fun p old y => ?_, fun p old => ?_, fun x mem => ?_⟩
  · obtain ⟨d, e, atX, atC, twin⟩ := mirrored.twins x c mem
    obtain ⟨i, atC'⟩ := Region.exists_of_skeleton annotated.same atC
    exact ⟨d, _, atX, atC', ⟨twin.code, twin.ty, twin.attrs, twin.shape, twin.ssa⟩⟩
  · obtain ⟨must, may⟩ := annotated.new (c, x) (mem_zip_swap.mpr mem)
    rw [accessOf] at must may
    refine Access.ext must may (HandleSet.ext fun y => ?_)
    rw [edge]
    have inside := (List.of_mem_zip mem).2
    constructor
    · rintro (edge | ⟨z, edge, _⟩ | ⟨z, mem', edge⟩)
      · exact (loose inside y edge).elim
      · exact (loose inside z edge).elim
      · have same := List.inj_on_of_nodup_map pairs.distinct (mem_zip_swap.mpr mem')
          (mem_zip_swap.mpr mem) rfl
        cases same
        exact edge
    · exact fun edge => .inr (.inr ⟨x, mem, edge⟩)
  · have same := congrArg Region.ssa annotated.same
    rw [show r₂.ssa = r₁.ssa from same]
    exact mirrored.values v w found
  · rw [edge]
    refine or_congr_right (or_iff_left ?_)
    rintro ⟨z, mem, _⟩
    exact out old (List.of_mem_zip mem).2
  · have away : p ∉ (ms.zip ns).map Prod.fst := by
      rw [firsts]
      exact out old
    rw [Region.node?_eq_of_skeleton annotated.same (annotated.records p away),
      mirrored.cloned.old p old]
    have kept := annotated.old p away
    rw [accessOf] at kept
    exact ⟨rfl, kept⟩
  · have old := ready.old mem
    have away : x ∉ (ms.zip ns).map Prod.fst := by
      rw [firsts]
      exact out old
    obtain ⟨must, may⟩ := annotated.old x away
    obtain ⟨c, inside⟩ : ∃ c, (c, x) ∈ ms.zip ns := by
      have seconds : (ms.zip ns).map Prod.snd = ns := List.map_snd_zip mirrored.length.le
      rw [← seconds] at mem
      obtain ⟨p, inside, rfl⟩ := List.mem_map.mp mem
      exact ⟨p.1, inside⟩
    obtain ⟨d, found, expr⟩ := pairs.exprs _ inside
    rw [← accessOf]
    exact Access.ext must may
      (HandleSet.ext (annotated.edge_expr crossing pairs.exprs found expr away))

/-- Copying a tree of expressions and then its accesses and edges gives an exact copy, which the
definitions that reach the tree reach as well. -/
theorem duplicate_copies_references (counting : r.hasEdges = true) (recorded : r.Recorded)
    (symm : ∀ x y, r.Edge x y → r.Edge y x) (crossing : r.Crossing) (tree : r.subtree n = .ok ns)
    (distinct : ns.Nodup) (exprs : ∀ x ∈ ns, ∀ d, r.node? x = some d → d.isStmt = false)
    (known : ∀ x ∈ ns, ∀ v, r.Reads x v → v.index < r.ssa.size) :
    ∃ c r' ms, (do let c ← duplicate n; copyTreeAccess c n; return c).run r = .ok (c, r') ∧
      r'.subtree c = .ok ms ∧ Duplicated r r' ns ms := by
  have ready : r.Copyable [n] ns := ⟨Region.grove_of_walk tree, known⟩
  have short : ns.length ≤ r.depthBound := by
    refine Nat.le_succ_of_le (Region.length_le_size distinct fun m mem => ?_)
    obtain ⟨_, found, _⟩ := ready.trees.kids_mem mem
    obtain ⟨d, found, _⟩ := Region.node?_of_kidsOf found
    exact ⟨d, found⟩
  suffices Meets (do let c ← duplicate n; copyTreeAccess c n; return c) r (fun _ => False)
      fun c r' => ∃ ms, r'.subtree c = .ok ms ∧ Duplicated r r' ns ms by
    obtain ⟨c, r', run, ms, copied, duplicated⟩ := this.ends
    exact ⟨c, r', ms, run, copied, duplicated⟩
  simp only [duplicate, meets_bind, meets_get]
  refine (duplicateWithin_mirrors ready short).to ?_
  rintro c r₁ ⟨ms, mirrored⟩
  have copies : r₁.subtree c = .ok ms := Region.subtree_of_grove mirrored.grove mirrored.new.1
  have sources : r₁.subtree n = .ok ns :=
    Region.subtree_of_grove (mirrored.copyable ready).trees distinct
  have pairs := mirrored.pairs ready exprs
  have crossing₁ := mirrored.cloned.crossing symm crossing
  simp only [copyTreeAccess, Edit.subtree, meets_bind, meets_ask, copies, sources, yields_ok,
    mirrored.length, ne_eq, not_true_eq_false, if_false, meets_pure]
  have records := mirrored.cloned.records
  have recorded₁ : r₁.Recorded := by
    intro m i
    rw [records.recordOf, records.records]
    exact recorded m i
  have symm₁ : ∀ x y, r₁.Edge x y → r₁.Edge y x := by
    intro x y
    rw [Region.Edge, Region.Edge, records.accessOf]
    exact symm x y
  have pairs₁ : r₁.Pairs ([] ++ ms.zip ns) := pairs
  have copied := copyNodes_annotates (.nil recorded₁) pairs₁ symm₁ crossing₁
    (records.edges.trans counting)
  refine copied.to fun _ r₂ annotated => ?_
  rw [List.nil_append] at annotated
  refine ⟨ms, ?_, Annotated.duplicated mirrored annotated ready pairs symm crossing₁⟩
  refine Region.subtree_of_grove (mirrored.grove.congr fun m _ => ?_) mirrored.new.1
  exact Region.kidsOf_of_skeleton annotated.same

/-- `$2 = 5; x = 1; x = 2; $1 = x + $2`, where both stores reach the load and have one record in
common, and `$2` denotes the value of the first statement. -/
def Region.sharedStores : Region :=
  { Region.empty ⟨8⟩ with
    nodes := #[
      some { Node.ofInt 5 (.scalar .i32) with parent := some ⟨1⟩ },
      some { Node.fresh .stpr (.scalar .i32) (.ofRegister 2) [[⟨0⟩]] with
        block := some ⟨0⟩, ssa := some ⟨0⟩ },
      some { Node.ofInt 1 (.scalar .i32) with parent := some ⟨3⟩ },
      some { Node.fresh .st (.scalar .i32) (.ofVar ⟨0⟩ 0) [[⟨2⟩]] with
        block := some ⟨0⟩, record := some ⟨0⟩ },
      some { Node.ofInt 2 (.scalar .i32) with parent := some ⟨5⟩ },
      some { Node.fresh .st (.scalar .i32) (.ofVar ⟨0⟩ 0) [[⟨4⟩]] with
        block := some ⟨0⟩, record := some ⟨0⟩ },
      some { Node.fresh .ld (.scalar .i32) (.ofVar ⟨0⟩ 0) [] with
        parent := some ⟨8⟩, record := some ⟨1⟩ },
      some { Node.fresh .pr (.scalar .i32) (.ofRegister 2) [] with
        parent := some ⟨8⟩, ssa := some ⟨0⟩ },
      some { Node.fresh .add (.scalar .i32) .none [[⟨6⟩], [⟨7⟩]] with parent := some ⟨9⟩ },
      some { Node.fresh .stpr (.scalar .i32) (.ofRegister 1) [[⟨8⟩]] with block := some ⟨0⟩ }]
    blocks := #[[⟨1⟩, ⟨3⟩, ⟨5⟩, ⟨9⟩]]
    locations := #[.bytes ⟨0⟩ 0 4]
    records := #[⟨some ⟨0⟩, none, .ofList [⟨6⟩]⟩, ⟨some ⟨0⟩, none, .ofList [⟨3⟩, ⟨5⟩]⟩]
    ssa := #[⟨some ⟨1⟩, .ofList [⟨7⟩]⟩]
    edgeCounts := some ⟨2, 0, 0, 0⟩ }

/-- A copy of `x + $2`. -/
theorem duplicate_sharedStores : ∃ c r' ms,
    (do let c ← duplicate ⟨8⟩; copyTreeAccess c ⟨8⟩; return c).run .sharedStores = .ok (c, r') ∧
    r'.subtree c = .ok ms ∧ Duplicated .sharedStores r' [⟨8⟩, ⟨6⟩, ⟨7⟩] ms := by
  refine duplicate_copies_references rfl (fun n i has => ?_) (Region.forall_edge ?_)
    (Region.crossing_of_nodes ?_) rfl (by decide) ?_ ?_
  · obtain ⟨d, found, record⟩ := Option.bind_eq_some_iff.mp has
    have all : ∀ x ∈ Region.sharedStores.nodes, ∀ i ∈ x.bind (·.record), i.index < 2 := by decide
    exact all _ (Array.mem_of_getElem? (Option.join_eq_some_iff.mp found)) i record
  · show ∀ i < 10, ∀ p ∈ (Region.sharedStores.accessOf ⟨i⟩).peers.toList,
      ⟨i⟩ ∈ (Region.sharedStores.accessOf p).peers
    decide
  · show ∀ i < 10, ∀ p ∈ (Region.sharedStores.accessOf ⟨i⟩).peers.toList,
      (Region.sharedStores.node? ⟨i⟩).map Node.isStmt = (Region.sharedStores.node? p).map
        (!·.isStmt)
    decide
  · intro x mem d found
    have all : ∀ x ∈ [⟨8⟩, ⟨6⟩, ⟨7⟩], ∀ d ∈ Region.sharedStores.node? x, d.isStmt = false := by
      decide
    exact all x mem d found
  · rintro x mem v ⟨d, found, _, ssa⟩
    have all : ∀ x ∈ [⟨8⟩, ⟨6⟩, ⟨7⟩], ∀ v ∈ (Region.sharedStores.node? x).bind
        (·.ssa), v.index < 1 := by
      decide
    exact all x mem v (Option.bind_eq_some_iff.mpr ⟨d, found, ssa⟩)

end Peephole
