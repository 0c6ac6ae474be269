import Peephole.Proofs.Accesses
import Peephole.Proofs.Grove
import Peephole.Build

/-!
# Clones

A copy of a tree is a tree of new nodes. Making it changes no node that was there, and no
record.
-/

namespace Peephole

open Edit

variable {α β : Type} {r r' r'' : Region} {n : NodeId} {cs cs' : List NodeId} {F : Fault → Prop}

/-- From `r` to `r'` trees of new nodes were made at `cs`, and nothing happened to the nodes
and records that were there. -/
structure Cloned (r r' : Region) (cs : List NodeId) : Prop where
  records : SameRecords r r'
  size : r.nodes.size ≤ r'.nodes.size
  old : ∀ m : NodeId, m.index < r.nodes.size → r'.node? m = r.node? m
  grove : ∃ ns, Grove r'.kidsOf cs ns ∧ ns.Nodup ∧ ∀ m ∈ ns, r.nodes.size ≤ m.index

namespace Cloned

theorem nil : Cloned r r [] := ⟨.refl, le_rfl, fun _ _ => rfl, [], .nil, .nil, by simp⟩

theorem append (first : Cloned r r' cs) (second : Cloned r' r'' cs') :
    Cloned r r'' (cs ++ cs') := by
  obtain ⟨ns, grove, distinct, fresh⟩ := first.grove
  obtain ⟨ns', grove', distinct', fresh'⟩ := second.grove
  have inside : ∀ m ∈ ns, m.index < r'.nodes.size := by
    intro m mem
    obtain ⟨kids, found, _⟩ := grove.kids_mem mem
    obtain ⟨d, found, _⟩ := Region.node?_of_kidsOf found
    exact Region.lt_size_of_node? found
  have kept : Grove r''.kidsOf cs ns := by
    refine grove.congr fun m mem => ?_
    rw [Region.kidsOf, Region.kidsOf, second.old m (inside m mem)]
  refine ⟨first.records.trans second.records, first.size.trans second.size, fun m old => ?_,
    ns ++ ns', kept.append grove', ?_, fun m mem => ?_⟩
  · rw [second.old m (old.trans_le first.size), first.old m old]
  · refine distinct.append distinct' fun m mem mem' => ?_
    exact absurd (inside m mem) (Nat.not_lt.mpr (fresh' m mem'))
  · rcases List.mem_append.mp mem with mem | mem
    · exact fresh m mem
    · exact first.size.trans (fresh' m mem)

theorem live (h : Cloned r r' cs) : ∀ k ∈ cs, r'.Live k := by
  obtain ⟨ns, grove, _, _⟩ := h.grove
  intro k mem
  obtain ⟨kids, found, _⟩ := grove.kids_mem (grove.roots_mem k mem)
  obtain ⟨d, found, _⟩ := Region.node?_of_kidsOf found
  exact ⟨d, found⟩

theorem fresh (h : Cloned r r' cs) : ∀ k ∈ cs, r.nodes.size ≤ k.index := by
  obtain ⟨ns, grove, _, fresh⟩ := h.grove
  exact fun k mem => fresh k (grove.roots_mem k mem)

end Cloned

theorem Region.kidsOf_created {m : NodeId} (d : Node) :
    ((r.push d).reparent d.kids (some r.next)).kidsOf m =
      if m = r.next then some d.kids else r.kidsOf m := by
  unfold Region.kidsOf
  rw [Region.node?_reparent, Region.node?_push]
  by_cases top : m = r.next
  · rw [if_pos top, if_pos top]
    split <;> rfl
  · rw [if_neg top, if_neg top]
    split
    · cases r.node? m <;> rfl
    · rfl

theorem Region.kidsOf_put (m : NodeId) {d e : Node} (found : r.node? n = some d)
    (kids : e.kids = d.kids) : (r.put n (some e)).kidsOf m = r.kidsOf m := by
  unfold Region.kidsOf
  rw [Region.node?_put (Region.lt_size_of_node? found)]
  split
  · rename_i same
    rw [same, found, Option.map_some, Option.map_some, kids]
  · rfl

theorem mapM_clones {f : α → Edit β} {xs : List α} (roots : β → List NodeId)
    (each : ∀ x r, Meets (f x) r F fun b r' => Cloned r r' (roots b)) :
    Meets (xs.mapM f) r F fun bs r' => Cloned r r' (bs.flatMap roots) := by
  induction xs generalizing r with
  | nil => exact Cloned.nil
  | cons x xs ih =>
    rw [List.mapM_cons]
    refine Meets.bind (each x r) fun b r₁ first => Meets.bind ih fun bs r₂ rest => ?_
    exact first.append rest

/-- A new node above clones. -/
theorem build_clones {code : Op} {ty : Ty} {attrs : Attrs} {slots : List (List NodeId)}
    (kids : Cloned r r' slots.flatten) :
    Meets (build code ty attrs slots) r' F fun n r'' => Cloned r r'' [n] := by
  refine (meets_create (d := .fresh code ty attrs slots) ⟨rfl, rfl⟩ kids.live).mpr ?_
  have kidsAt (m : NodeId) := Region.kidsOf_created (r := r') (m := m) (.fresh code ty attrs slots)
  obtain ⟨ns, grove, distinct, fresh⟩ := kids.grove
  have absent : r'.next ∉ ns := by
    intro mem
    obtain ⟨_, found, _⟩ := grove.kids_mem mem
    rw [Region.kidsOf, Region.node?_next] at found
    cases found
  refine ⟨(kids.records.trans (.push rfl)).trans .reparent, ?_, fun m old => ?_, r'.next :: ns, ?_,
    List.nodup_cons.mpr ⟨absent, distinct⟩, fun m mem => ?_⟩
  · simp only [Region.size_reparent, Region.size_push]
    exact Nat.le_succ_of_le kids.size
  · have other : m ≠ r'.next := by
      rintro rfl
      exact absurd old (Nat.not_lt.mpr kids.size)
    have young : m ∉ (Node.fresh code ty attrs slots).kids := fun mem =>
      absurd old (Nat.not_lt.mpr (kids.fresh m mem))
    rw [Region.node?_reparent, if_neg young, Region.node?_push, if_neg other, kids.old m old]
  · refine Grove.singleton_iff.mpr ⟨_, ns, (kidsAt _).trans (if_pos rfl),
      grove.congr fun m mem => ?_, rfl⟩
    rw [kidsAt, if_neg]
    rintro rfl
    exact absent mem
  · rcases List.mem_cons.mp mem with rfl | mem
    · exact kids.size
    · exact fresh m mem

/-- Letting a clone use a value changes neither trees nor records. -/
theorem addSsaUse_clones {v : SsaId} (h : Cloned r r' [n]) :
    Meets (addSsaUse v n) r' Fault.Plain fun _ r'' => Cloned r r'' [n] := by
  simp only [addSsaUse, Edit.node, setSsa, meets_bind, meets_ask]
  refine Region.node_answers.yields (fun _ => id) fun d found => ?_
  replace found := Region.node?_of_node found
  split
  · trivial
  rw [meets_bind, meets_modifyNode found]
  simp only [modifySsa, ssaValue, putSsa, meets_bind, meets_ask, meets_modify]
  refine Region.lookup_answers.yields (fun _ => id) fun value _ => ?_
  have size := Region.lt_size_of_node? found
  obtain ⟨ns, grove, distinct, fresh⟩ := h.grove
  have put : SameRecords r' (r'.put n (some { d with ssa := some v })) := .put found rfl
  have records := h.records.trans put
  refine ⟨⟨records.recordOf, records.records, records.locations, records.sets, records.edges⟩, ?_,
    fun m old => ?_, ns, grove.congr fun m _ => ?_, distinct, fresh⟩
  · simpa using h.size
  · have other : m ≠ n := by
      rintro rfl
      exact absurd old (Nat.not_lt.mpr (h.fresh m List.mem_cons_self))
    have kept : (r'.put n (some { d with ssa := some v })).node? m = r.node? m := by
      rw [Region.node?_put size, if_neg other, h.old m old]
    exact kept
  · have kept := Region.kidsOf_put m (e := { d with ssa := some v }) found rfl
    exact kept

theorem duplicateWithin_clones {fuel : Nat} :
    Meets (duplicateWithin fuel n) r Fault.Ordinary fun c r' =>
      Cloned r r' [c] := by
  induction fuel generalizing r n with
  | zero => exact .inr rfl
  | succ fuel ih =>
    simp only [duplicateWithin, Edit.node, meets_bind, meets_ask]
    refine Region.node_answers.yields (fun _ => .inl) fun d found => ?_
    have slot (ks : List NodeId) (r : Region) : Meets (ks.mapM (duplicateWithin fuel)) r
        Fault.Ordinary fun cs r' => Cloned r r' cs := by
      refine (mapM_clones (fun c => [c]) fun k r => ih).to fun cs r' cloned => ?_
      rwa [List.flatMap_singleton'] at cloned
    refine (mapM_clones id slot).to fun slots' r₁ kids => ?_
    rw [List.flatMap_id] at kids
    refine (build_clones kids).to fun c r₂ built => ?_
    split
    · exact ((addSsaUse_clones built).imp (fun _ => Or.inl) fun _ _ => id).bind fun _ _ => id
    · exact built

theorem duplicate_clones : Meets (duplicate n) r Fault.Ordinary fun c r' =>
    Cloned r r' [c] := by
  unfold duplicate
  rw [meets_bind, meets_get]
  exact duplicateWithin_clones

end Peephole
