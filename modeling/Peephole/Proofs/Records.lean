import Peephole.Proofs.Accesses
import Peephole.Proofs.Quiet

/-!
# Writing records

Nodes may have a record in common, so that what is written for one of them is read by the others.
A write reaches exactly these nodes, and it always succeeds where the records that nodes have exist.
-/

namespace Peephole

open Edit

variable {r r' r'' : Region} {n m k t : NodeId} {d : Node} {i : RecordId} {b : Access}

namespace Region

/-- Every record that a node has exists. -/
def Recorded (r : Region) : Prop := ∀ n i, r.recordOf n = some i → i.index < r.records.size

theorem Filed.recorded (filed : r.Filed) : r.Recorded := filed.inside

theorem lookup_of {α : Type} {k : Kind} {xs : Array α} {h : Handle k} {a : α}
    (found : xs[h.index]? = some a) : lookup xs h = .ok a := by
  rw [lookup, found]

theorem access_of (recorded : r.Recorded) (live : r.Live n) : r.access n = .ok (r.accessOf n) := by
  obtain ⟨d, found⟩ := live
  cases record : d.record with
  | none =>
    have none : r.accessOf n = .clean := accessOf_of_none (by rw [recordOf_of found, record])
    simp [access, node_of found, access?, record, none, bind, Except.bind, pure, Except.pure]
  | some i =>
    have inside := recorded n i (by rw [recordOf_of found, record])
    have look := Array.getElem?_eq_getElem inside
    simp [access, node_of found, access?, record, lookup_of look, accessOf_of found record look,
      bind, Except.bind, pure, Except.pure]

theorem peers_of (recorded : r.Recorded) (live : r.Live n) :
    r.peers n = .ok (r.accessOf n).peers := by
  simp [peers, access_of recorded live, bind, Except.bind, pure, Except.pure]

/-- What is written for `n` is read by `m`. -/
def Shares (r : Region) (m n : NodeId) : Prop :=
  m = n ∨ r.recordOf m = r.recordOf n ∧ (r.recordOf n).isSome

theorem Shares.accessOf (h : r.Shares m n) : r.accessOf m = r.accessOf n := by
  rcases h with rfl | ⟨same, _⟩
  · rfl
  · rw [Region.accessOf, Region.accessOf, same]

theorem shares_of_none (bare : r.recordOf n = none) : r.Shares m n ↔ m = n := by
  simp [Shares, bare]

/-- A node of one region is in the other one, up to its record. -/
theorem exists_of_skeleton (h : r'.skeleton = r.skeleton) (found : r.node? n = some d) :
    ∃ i, r'.node? n = some { d with record := i } := by
  have same := node?_of_skeleton (n := n) h
  rw [found, Option.map_some] at same
  obtain ⟨d', found', same⟩ := Option.map_eq_some_iff.mp same
  refine ⟨d'.record, found'.trans (congrArg some ?_)⟩
  cases d
  cases d'
  simp_all [Node.unrecorded]

theorem live_of_skeleton (h : r'.skeleton = r.skeleton) (live : r.Live n) : r'.Live n := by
  obtain ⟨d, found⟩ := live
  obtain ⟨i, found'⟩ := exists_of_skeleton h found
  exact ⟨_, found'⟩

theorem kidsOf_of_skeleton (h : r'.skeleton = r.skeleton) : r'.kidsOf n = r.kidsOf n := by
  unfold kidsOf
  cases found : r.node? n with
  | none =>
    have same := node?_of_skeleton (n := n) h
    simpa [found] using same
  | some d =>
    obtain ⟨i, found'⟩ := exists_of_skeleton h found
    rw [found']
    rfl

theorem live_of_recordOf (has : (r.recordOf n).isSome) : r.Live n := by
  obtain ⟨i, has⟩ := Option.isSome_iff_exists.mp has
  obtain ⟨d, found, -⟩ := Option.bind_eq_some_iff.mp has
  exact ⟨d, found⟩

/-- Nodes with edges have a record. -/
theorem Edge.recorded (h : r.Edge n m) : (r.recordOf n).isSome := by
  cases has : r.recordOf n with
  | some i => rfl
  | none =>
    rw [Edge, accessOf_of_none has] at h
    exact absurd h (HandleSet.not_mem_empty m)

/-- A node is its record and the rest. -/
theorem node?_eq_of_skeleton (h : r'.skeleton = r.skeleton)
    (record : r'.recordOf n = r.recordOf n) :
    r'.node? n = r.node? n := by
  cases found : r.node? n with
  | none =>
    have same := node?_of_skeleton (n := n) h
    simpa [found] using same
  | some d =>
    obtain ⟨i, found'⟩ := exists_of_skeleton h found
    rw [recordOf_of found', recordOf_of found] at record
    rw [found', show i = d.record from record]

end Region

/-- From `r` to `r'` records were written and edges counted, and no node but `t` may have got a
record. -/
structure Noted (r r' : Region) (t : NodeId) : Prop where
  recorded : r'.Recorded
  rest : ∃ nodes records counts,
    r' = { r with nodes := nodes, records := records, edgeCounts := counts }
  same : r'.skeleton = r.skeleton
  shares : ∀ m k, r'.Shares m k ↔ r.Shares m k
  records : ∀ m, m ≠ t → r'.recordOf m = r.recordOf m

namespace Noted

theorem refl (recorded : r.Recorded) : Noted r r t :=
  ⟨recorded, ⟨_, _, _, rfl⟩, rfl, fun _ _ => Iff.rfl, fun _ _ => rfl⟩

theorem trans (first : Noted r r' t) (second : Noted r' r'' t) : Noted r r'' t := by
  refine ⟨second.recorded, ?_, second.same.trans first.same, fun m k => ?_, fun m other => ?_⟩
  · obtain ⟨_, _, _, rfl⟩ := first.rest
    obtain ⟨_, _, _, rfl⟩ := second.rest
    exact ⟨_, _, _, rfl⟩
  · rw [second.shares, first.shares]
  · rw [second.records m other, first.records m other]

theorem live (h : Noted r r' t) (live : r.Live n) : r'.Live n := Region.live_of_skeleton h.same live

end Noted

/-- From `r` to `r'` the access `b` was written for `n`. -/
structure Written (r r' : Region) (n : NodeId) (b : Access) : Prop extends Noted r r' n where
  access : ∀ m, r.Shares m n → r'.accessOf m = b
  others : ∀ m, ¬r.Shares m n → r'.accessOf m = r.accessOf m
  kept : (r.recordOf n).isSome → r'.recordOf n = r.recordOf n
  counts : r'.edgeCounts = r.edgeCounts

theorem Written.noted (h : Written r r' n b) (own : n = t ∨ (r.recordOf n).isSome) :
    Noted r r' t := by
  refine ⟨h.recorded, h.rest, h.same, h.shares, fun m other => ?_⟩
  by_cases here : m = n
  · subst here
    exact h.kept (own.resolve_left other)
  · exact h.records m here

theorem Region.Recorded.rewrite (recorded : r.Recorded) (found : r.node? n = some d)
    (record : d.record = some i) (b : Access) :
    Written r { r with records := r.records.setIfInBounds i.index b } n b := by
  have has : r.recordOf n = some i := by rw [Region.recordOf_of found, record]
  have inside := recorded n i has
  have look (m : NodeId) :
      Region.accessOf { r with records := r.records.setIfInBounds i.index b } m =
      ((r.recordOf m).bind fun j => (r.records.setIfInBounds i.index b)[j.index]?).getD
        .clean := rfl
  have sharing (m : NodeId) : r.Shares m n ↔ r.recordOf m = some i := by
    rw [Region.Shares, has]
    refine ⟨?_, fun same => .inr ⟨same, rfl⟩⟩
    rintro (rfl | ⟨same, _⟩)
    · exact has
    · exact same
  refine ⟨⟨fun m j hasj => ?_, ⟨_, _, _, rfl⟩, rfl, fun _ _ => Iff.rfl, fun _ _ => rfl⟩,
    fun m shared => ?_, fun m apart => ?_, fun _ => rfl, rfl⟩
  · have inside' := recorded m j hasj
    simpa using inside'
  · rw [look, (sharing m).mp shared, Option.bind_some,
      Array.getElem?_setIfInBounds_self_of_lt inside, Option.getD_some]
  · rw [look, Region.accessOf]
    cases hasm : r.recordOf m with
    | none => rfl
    | some j =>
      have other : i.index ≠ j.index := by
        intro same
        obtain rfl := Handle.index_inj.mp same
        exact apart ((sharing m).mpr hasm)
      rw [Option.bind_some, Option.bind_some, Array.getElem?_setIfInBounds_ne other]

theorem Region.Recorded.add (recorded : r.Recorded) (found : r.node? n = some d)
    (record : d.record = none) (b : Access) :
    Written r (Region.put { r with records := r.records.push b } n
      (some { d with record := some ⟨r.records.size⟩ })) n b := by
  have size := Region.lt_size_of_node? found
  have bare : r.recordOf n = none := by rw [Region.recordOf_of found, record]
  have recordOf (m : NodeId) : Region.recordOf (Region.put { r with records := r.records.push b } n
      (some { d with record := some ⟨r.records.size⟩ })) m =
        if m = n then some ⟨r.records.size⟩ else r.recordOf m := by
    unfold Region.recordOf
    rw [Region.node?_put (r := { r with records := r.records.push b }) size]
    split <;> rfl
  have fresh (m : NodeId) : r.recordOf m ≠ some ⟨r.records.size⟩ := fun has =>
    absurd (recorded m _ has) (Nat.lt_irrefl _)
  refine ⟨⟨fun m j => ?_, ⟨_, _, _, rfl⟩, ?_, fun m k => ?_, fun m other => ?_⟩, fun m shared => ?_,
    fun m apart => ?_, fun has => ?_, rfl⟩
  · rw [recordOf]
    simp only [Region.put, Array.size_push]
    split
    · rintro ⟨⟩
      exact Nat.lt_succ_self _
    · exact fun has => Nat.lt_succ_of_lt (recorded m j has)
  · have whole := Region.skeleton_put_record (r := { r with records := r.records.push b })
      (x := some ⟨r.records.size⟩) found
    exact whole
  · -- the new record is no one else's
    rw [Region.Shares, Region.Shares, recordOf, recordOf]
    by_cases hm : m = n <;> by_cases hk : k = n
    · simp [hm, hk]
    · subst hm
      have other := fresh k
      simp only [if_true, if_neg hk, bare]
      refine or_congr_right ?_
      constructor
      · rintro ⟨same, _⟩
        exact absurd same.symm other
      · rintro ⟨same, has⟩
        rw [← same] at has
        cases has
    · subst hk
      simp [hm, bare, fresh m]
    · simp [hm, hk]
  · rw [recordOf, if_neg other]
  · obtain rfl := (Region.shares_of_none bare).mp shared
    rw [Region.accessOf, recordOf, if_pos rfl]
    simp [Region.put]
  · have other : m ≠ n := fun same => apart (.inl same)
    rw [Region.accessOf, recordOf, if_neg other, Region.accessOf]
    cases hasm : r.recordOf m with
    | none => rfl
    | some j =>
      have inside := recorded m j hasm
      simp only [Region.put, Option.bind_some, Array.getElem?_push, if_neg (Nat.ne_of_lt inside)]
  · rw [bare] at has
    cases has

/-- A write succeeds. -/
theorem modifyAccess_writes (f : Access → Access) (recorded : r.Recorded) (live : r.Live n) :
    Meets (modifyAccess n f) r (fun _ => False) fun _ r' => Written r r' n (f (r.accessOf n)) := by
  obtain ⟨d, found⟩ := live
  simp only [modifyAccess, Edit.node, meets_bind, meets_ask, Region.node_of found, yields_ok]
  cases record : d.record with
  | some i =>
    have inside := recorded n i (by rw [Region.recordOf_of found, record])
    have look := Array.getElem?_eq_getElem inside
    simp only [meets_bind, meets_ask, Region.lookup_of look, yields_ok, meets_modify]
    rw [Region.accessOf_of found record look]
    exact recorded.rewrite found record _
  | none =>
    simp only [meets_bind, meets_modifyGet, meets_putNode]
    rw [Region.accessOf_of_none (by rw [Region.recordOf_of found, record])]
    exact recorded.add found record _

theorem count_notes (op : LinkOp) (f : EdgeCounts → EdgeCounts) {c : EdgeCounts}
    (recorded : r.Recorded)
    (counts : r.edgeCounts = some c) :
    Meets (count op f) r (fun _ => False) fun _ r' =>
      Noted r r' t ∧ r'.edgeCounts = some (f c) ∧ r'.accessOf = r.accessOf := by
  simp only [count, counts, meets_bind, meets_get, meets_modify]
  refine ⟨⟨recorded, ⟨_, _, _, rfl⟩, ?_, fun _ _ => Iff.rfl, fun _ _ => rfl⟩, trivial, rfl⟩
  simp only [Region.skeleton, counts, Option.map_some]

end Peephole
