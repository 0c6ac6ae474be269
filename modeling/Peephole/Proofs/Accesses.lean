import Peephole.Proofs.Invariant

/-!
# Accesses and edges

What a node accesses and which edges it has, read off the records, and what the edits of
def-use edges do to them. Records are filed: every node that has one has its own.
-/

namespace Peephole

open Edit

variable {r r' r₁ : Region} {n m x y p : NodeId} {d : Node} {i : RecordId} {a : Access}
  {E : NodeId → NodeId → Prop}

namespace Region

def recordOf (r : Region) (n : NodeId) : Option RecordId := (r.node? n).bind Node.record

/-- What the record of a node says, and a clean access where there is no record. -/
def accessOf (r : Region) (n : NodeId) : Access :=
  ((r.recordOf n).bind fun i => r.records[i.index]?).getD .clean

/-- `p` is in the edge set of `x`. -/
def Edge (r : Region) (x p : NodeId) : Prop := p ∈ (r.accessOf x).peers

/-- Records that nodes have exist, and no two nodes have one in common. -/
structure Filed (r : Region) : Prop where
  inside : ∀ n i, r.recordOf n = some i → i.index < r.records.size
  own : ∀ n m i, r.recordOf n = some i → r.recordOf m = some i → n = m

theorem recordOf_of (h : r.node? n = some d) : r.recordOf n = d.record := by
  rw [recordOf, h, Option.bind_some]

theorem accessOf_of (h : r.node? n = some d) (record : d.record = some i)
    (found : r.records[i.index]? = some a) : r.accessOf n = a := by
  rw [accessOf, recordOf_of h, record, Option.bind_some, found, Option.getD_some]

theorem accessOf_of_none (h : r.recordOf n = none) : r.accessOf n = .clean := by
  rw [accessOf, h, Option.bind_none, Option.getD_none]

theorem accessOf_of_access (h : r.access n = .ok a) : r.accessOf n = a := by
  unfold access at h
  cases found : r.node n with
  | error f => simp [found, bind, Except.bind] at h
  | ok d =>
    replace found' := node?_of_node found
    cases record : d.record with
    | none =>
      simp only [found, access?, record, bind, Except.bind, pure, Except.pure, Option.getD_none,
        Except.ok.injEq] at h
      rw [accessOf_of_none (by rw [recordOf_of found', record]), h]
    | some i =>
      cases look : r.records[i.index]? with
      | none => simp [found, access?, record, lookup, look, bind, Except.bind] at h
      | some b =>
        simp only [found, access?, record, lookup, look, bind, Except.bind, pure, Except.pure,
          Option.getD_some, Except.ok.injEq] at h
        rw [accessOf_of found' record look, h]

theorem accessOf_of_peers {ps : HandleSet .node} (h : r.peers n = .ok ps) :
    (r.accessOf n).peers = ps := by
  unfold peers at h
  cases found : r.access n with
  | error f => simp [found, bind, Except.bind] at h
  | ok a =>
    simp only [found, bind, Except.bind, pure, Except.pure, Except.ok.injEq] at h
    rw [accessOf_of_access found, h]

/-- Nodes with edges are live. -/
theorem Edge.live (h : r.Edge x p) : r.Live x := by
  cases found : r.node? x with
  | some d => exact ⟨d, found⟩
  | none =>
    have clean := accessOf_of_none (r := r) (n := x) (by rw [recordOf, found, Option.bind_none])
    rw [Edge, clean] at h
    exact absurd h (HandleSet.not_mem_empty p)

end Region

/-- `r'` has the records of `r`, maintains edges if `r` does, and knows the same locations. -/
structure SameRecords (r r' : Region) : Prop where
  recordOf : r'.recordOf = r.recordOf
  records : r'.records = r.records
  locations : r'.locations = r.locations
  sets : r'.locationSets = r.locationSets
  edges : r'.hasEdges = r.hasEdges

theorem SameRecords.accessOf (h : SameRecords r r') : r'.accessOf = r.accessOf := by
  funext n
  unfold Region.accessOf
  rw [h.recordOf, h.records]

theorem SameRecords.filed (h : SameRecords r r') (filed : r.Filed) : r'.Filed :=
  ⟨fun n i => by rw [h.recordOf, h.records]; exact filed.inside n i,
    fun n m i => by rw [h.recordOf]; exact filed.own n m i⟩

theorem SameRecords.refl : SameRecords r r := ⟨rfl, rfl, rfl, rfl, rfl⟩

theorem SameRecords.trans {r'' : Region} (first : SameRecords r r') (second : SameRecords r' r'') :
    SameRecords r r'' :=
  ⟨second.recordOf.trans first.recordOf, second.records.trans first.records,
    second.locations.trans first.locations, second.sets.trans first.sets,
    second.edges.trans first.edges⟩

theorem SameRecords.put {d' : Node} (h : r.node? n = some d) (record : d'.record = d.record) :
    SameRecords r (r.put n (some d')) := by
  refine ⟨?_, rfl, rfl, rfl, rfl⟩
  funext m
  unfold Region.recordOf
  rw [Region.node?_put (Region.lt_size_of_node? h)]
  split
  · rename_i same
    rw [same, h, Option.bind_some, Option.bind_some, record]
  · rfl

theorem SameRecords.push (record : d.record = none) : SameRecords r (r.push d) := by
  refine ⟨?_, rfl, rfl, rfl, rfl⟩
  funext m
  unfold Region.recordOf
  rw [Region.node?_push]
  split
  · rename_i same
    rw [same, Region.node?_next, Option.bind_some, Option.bind_none, record]
  · rfl

theorem SameRecords.reparent {ks : List NodeId} {p : Option NodeId} :
    SameRecords r (r.reparent ks p) := by
  refine ⟨?_, rfl, rfl, rfl, rfl⟩
  funext m
  unfold Region.recordOf
  rw [Region.node?_reparent]
  split
  · cases r.node? m <;> rfl
  · rfl

/-! ### Changing one access -/

/-- `r'` is `r` with other accesses. -/
structure Reaccessed (r r' : Region) (g : NodeId → Access) : Prop where
  filed : r'.Filed
  accesses : r'.accessOf = g
  locations : r'.locations = r.locations
  sets : r'.locationSets = r.locationSets

/-- Writing the record of one node changes the access of no other. -/
theorem Region.Filed.rewrite (filed : r.Filed) (found : r.node? n = some d)
    (record : d.record = some i) (b : Access) :
    Reaccessed r { r with records := r.records.setIfInBounds i.index b }
      (Function.update r.accessOf n b) := by
  have has : r.recordOf n = some i := by rw [Region.recordOf_of found, record]
  have inside := filed.inside n i has
  refine ⟨⟨fun m j hasj => ?_, filed.own⟩, funext fun m => ?_, rfl, rfl⟩
  · have := filed.inside m j hasj
    simpa using this
  · have same : Region.accessOf { r with records := r.records.setIfInBounds i.index b } m =
        ((r.recordOf m).bind fun j => (r.records.setIfInBounds i.index b)[j.index]?).getD
          .clean := rfl
    rw [same]
    by_cases same : m = n
    · subst same
      rw [Function.update_self, has, Option.bind_some,
        Array.getElem?_setIfInBounds_self_of_lt inside, Option.getD_some]
    · rw [Function.update_of_ne same, Region.accessOf]
      cases hasj : r.recordOf m with
      | none => rfl
      | some j =>
        have other : i.index ≠ j.index := by
          intro eq
          rw [← Handle.index_inj.mp eq] at hasj
          exact same (filed.own m n i hasj has)
        rw [Option.bind_some, Option.bind_some, Array.getElem?_setIfInBounds_ne other]

theorem Region.recordOf_add (found : r.node? n = some d) (b : Access) (m : NodeId) :
    Region.recordOf (Region.put { r with records := r.records.push b } n
      (some { d with record := some ⟨r.records.size⟩ })) m =
        if m = n then some ⟨r.records.size⟩ else r.recordOf m := by
  unfold Region.recordOf
  rw [Region.node?_put (r := { r with records := r.records.push b }) (lt_size_of_node? found)]
  split <;> rfl

/-- A node without a record may be given a new one. -/
theorem Region.Filed.add (filed : r.Filed) (found : r.node? n = some d) (b : Access) :
    Reaccessed r (Region.put { r with records := r.records.push b } n
      (some { d with record := some ⟨r.records.size⟩ })) (Function.update r.accessOf n b) := by
  have recordOf := Region.recordOf_add found b
  have fresh (m : NodeId) : r.recordOf m ≠ some ⟨r.records.size⟩ := fun has =>
    absurd (filed.inside m _ has) (Nat.lt_irrefl _)
  refine ⟨⟨fun m j => ?_, fun m m' j => ?_⟩, funext fun m => ?_, rfl, rfl⟩
  · rw [recordOf]
    simp only [Region.put, Array.size_push]
    split
    · rintro ⟨⟩
      exact Nat.lt_succ_self _
    · exact fun has => Nat.lt_succ_of_lt (filed.inside m j has)
  · rw [recordOf, recordOf]
    split <;> split
    · rename_i left right
      exact fun _ _ => left.trans right.symm
    · rintro ⟨⟩ has
      exact absurd has (fresh m')
    · rintro has ⟨⟩
      exact absurd has (fresh m)
    · exact filed.own m m' j
  · rw [Region.accessOf, recordOf]
    by_cases same : m = n
    · subst same
      rw [Function.update_self, if_pos rfl]
      simp [Region.put]
    · rw [Function.update_of_ne same, if_neg same, Region.accessOf]
      cases has : r.recordOf m with
      | none => rfl
      | some j =>
        have inside := filed.inside m j has
        simp only [Region.put, Option.bind_some]
        rw [Array.getElem?_push, if_neg (by omega)]

theorem modifyAccess_reaccesses (f : Access → Access) (filed : r.Filed) :
    Meets (modifyAccess n f) r Fault.Plain fun _ r' => r.Live n ∧
      Reaccessed r r' (Function.update r.accessOf n (f (r.accessOf n))) := by
  simp only [modifyAccess, Edit.node, meets_bind, meets_ask]
  refine Region.node_answers.yields (fun _ => id) fun d found => ?_
  replace found := Region.node?_of_node found
  cases record : d.record with
  | some i =>
    simp only [meets_bind, meets_ask, meets_modify]
    refine Region.lookup_answers.yields (fun _ => id) fun a look => ⟨⟨d, found⟩, ?_⟩
    have at_i : r.records[i.index]? = some a := by
      unfold Region.lookup at look
      split at look <;> simp_all
    rw [Region.accessOf_of found record at_i]
    exact filed.rewrite found record (f a)
  | none =>
    simp only [meets_bind, meets_modifyGet, meets_putNode]
    rw [Region.accessOf_of_none (by rw [Region.recordOf_of found, record])]
    exact ⟨⟨d, found⟩, filed.add found _⟩

/-- An edit that does nothing to a clean access needs no record. -/
theorem modifyOwnAccess_reaccesses {f : Access → Access} (clean : f .clean = .clean)
    (filed : r.Filed) :
    Meets (modifyOwnAccess n f) r Fault.Plain fun _ r' =>
      Reaccessed r r' (Function.update r.accessOf n (f (r.accessOf n))) := by
  simp only [modifyOwnAccess, Edit.node, meets_bind, meets_ask]
  refine Region.node_answers.yields (fun _ => id) fun d found => ?_
  split
  · exact (modifyAccess_reaccesses f filed).to fun _ _ done => done.2
  · rename_i bare
    replace found := Region.node?_of_node found
    have none : r.accessOf n = .clean :=
      Region.accessOf_of_none (by rw [Region.recordOf_of found]; simpa using bare)
    refine ⟨filed, ?_, rfl, rfl⟩
    rw [none, clean, ← none, Function.update_eq_self]

/-! ### Edges -/

/-- `r'` is `r` with other edges. -/
structure Relinked (r r' : Region) (E : NodeId → NodeId → Prop) : Prop where
  filed : r'.Filed
  edge : ∀ x y, r'.Edge x y ↔ E x y
  must : ∀ x, (r'.accessOf x).must = (r.accessOf x).must
  may : ∀ x, (r'.accessOf x).may = (r.accessOf x).may
  locations : r'.locations = r.locations
  sets : r'.locationSets = r.locationSets

namespace Relinked

theorem refl (filed : r.Filed) : Relinked r r r.Edge :=
  ⟨filed, fun _ _ => Iff.rfl, fun _ => rfl, fun _ => rfl, rfl, rfl⟩

/-- One change after another; the second is given in terms of the edges in between. -/
theorem trans {r'' : Region} {E' : NodeId → NodeId → Prop} (first : Relinked r r' E)
    (second : Relinked r' r'' E') : Relinked r r'' E' :=
  ⟨second.filed, second.edge, fun x => (second.must x).trans (first.must x),
    fun x => (second.may x).trans (first.may x), second.locations.trans first.locations,
    second.sets.trans first.sets⟩

theorem congr {E' : NodeId → NodeId → Prop} (h : Relinked r r' E) (same : ∀ x y, E x y ↔ E' x y) :
    Relinked r r' E' :=
  ⟨h.filed, fun x y => (h.edge x y).trans (same x y), h.must, h.may, h.locations, h.sets⟩

/-- Only the edge set of `n` was changed. -/
theorem of_peers {g : HandleSet .node → HandleSet .node} (h : Reaccessed r r'
    (Function.update r.accessOf n { r.accessOf n with peers := g (r.accessOf n).peers })) :
    Relinked r r' fun x y => if x = n then y ∈ g (r.accessOf n).peers else r.Edge x y := by
  have at_x (x : NodeId) : r'.accessOf x =
      if x = n then { r.accessOf n with peers := g (r.accessOf n).peers } else r.accessOf x := by
    rw [h.accesses, Function.update_apply]
  refine ⟨h.filed, fun x y => ?_, fun x => ?_, fun x => ?_, h.locations, h.sets⟩
  · rw [Region.Edge, at_x]
    split
    · rfl
    · rfl
  · rw [at_x]
    split
    · rename_i same
      rw [same]
    · rfl
  · rw [at_x]
    split
    · rename_i same
      rw [same]
    · rfl

end Relinked

theorem SameRecords.relinked (h : SameRecords r r') (filed : r.Filed) : Relinked r r' r.Edge :=
  ⟨h.filed filed, fun x y => by unfold Region.Edge; rw [h.accessOf], fun x => by rw [h.accessOf],
    fun x => by rw [h.accessOf], h.locations, h.sets⟩

theorem count_relinks (op : LinkOp) (f : EdgeCounts → EdgeCounts) (filed : r.Filed) :
    Meets (count op f) r Fault.Plain fun _ r' => Relinked r r' r.Edge := by
  simp only [count, meets_bind, meets_get]
  split
  · rename_i c counts
    have same : SameRecords r { r with edgeCounts := some (f c) } :=
      ⟨rfl, rfl, rfl, rfl, by rw [Region.hasEdges, Region.hasEdges, counts]; rfl⟩
    exact same.relinked filed
  · trivial

theorem addPeer_relinks (filed : r.Filed) :
    Meets (addPeer n p) r Fault.Plain fun _ r' =>
      Relinked r r' fun x y => r.Edge x y ∨ x = n ∧ y = p := by
  refine (modifyAccess_reaccesses _ filed).to fun _ r' changed => ?_
  refine (Relinked.of_peers (g := (·.insert p)) changed.2).congr fun x y => ?_
  split
  · rename_i same
    subst same
    simp [Region.Edge, or_comm]
  · rename_i other
    simp [other]

theorem forgetPeer_relinks (filed : r.Filed) :
    Meets (forgetPeer n p) r Fault.Plain fun _ r' =>
      Relinked r r' fun x y => r.Edge x y ∧ ¬(x = n ∧ y = p) := by
  simp only [forgetPeer, isReleased, meets_bind, meets_get, meets_pure]
  split
  · refine (modifyOwnAccess_reaccesses rfl filed).to fun _ r' changed => ?_
    refine (Relinked.of_peers (g := (·.erase p)) changed).congr fun x y => ?_
    split
    · rename_i same
      subst same
      simp [Region.Edge]
    · rename_i other
      simp [other]
  · rename_i released
    refine (Relinked.refl filed).congr fun x y => ⟨fun edge => ⟨edge, ?_⟩, And.left⟩
    rintro ⟨rfl, rfl⟩
    obtain ⟨d, found⟩ := edge.live
    rw [Region.isReleased_of found] at released
    exact released rfl

theorem unlinkEdge_relinks {a b : NodeId} (filed : r.Filed) :
    Meets (unlinkEdge a b) r Fault.Plain fun _ r' =>
      Relinked r r' fun x y => r.Edge x y ∧ ¬(x = a ∧ y = b) ∧ ¬(x = b ∧ y = a) := by
  refine Meets.bind (forgetPeer_relinks filed) fun _ r₁ first => ?_
  refine (forgetPeer_relinks first.filed).to fun _ r₂ second => ?_
  refine (first.trans second).congr fun x y => ?_
  rw [first.edge, and_assoc]

theorem takePeers_relinks (filed : r.Filed) :
    Meets (takePeers n) r Fault.Plain fun ps r' => (∀ p, p ∈ ps ↔ r.Edge n p) ∧
      Relinked r r' fun x y => r.Edge x y ∧ x ≠ n := by
  simp only [takePeers, meets_bind, meets_ask]
  refine Region.peers_answers.yields (fun _ => id) fun ps peers => ?_
  refine (modifyOwnAccess_reaccesses rfl filed).to fun _ r' changed => ?_
  refine ⟨fun p => ?_, ?_⟩
  · rw [Region.Edge, Region.accessOf_of_peers peers, HandleSet.mem_toList]
  · refine (Relinked.of_peers (g := fun _ => .empty) changed).congr fun x y => ?_
    split
    · rename_i same
      simp [same]
    · rename_i other
      simp [other]

theorem unlinkAll_relinks {ps : List NodeId} (filed : r.Filed) :
    Meets (ps.forM (unlinkEdge · n)) r Fault.Plain fun _ r' =>
      Relinked r r' fun x y => r.Edge x y ∧ ¬(x ∈ ps ∧ y = n) ∧ ¬(x = n ∧ y ∈ ps) := by
  induction ps generalizing r with
  | nil => exact (Relinked.refl filed).congr fun x y => by simp
  | cons p ps ih =>
    refine Meets.bind (unlinkEdge_relinks filed) fun _ r₁ first => ?_
    refine (ih first.filed).to fun _ r₂ rest => (first.trans rest).congr fun x y => ?_
    rw [first.edge]
    simp only [List.mem_cons]
    tauto

/-- A node that was cut has no edges, and those it had are gone at the other end too. -/
theorem cutNode_relinks (op : LinkOp) (filed : r.Filed) :
    Meets (cutNode op n) r Fault.Plain fun _ r' =>
      Relinked r r' fun x y => r.Edge x y ∧ x ≠ n ∧ ¬(r.Edge n x ∧ y = n) := by
  refine Meets.bind (takePeers_relinks filed) fun ps r₁ taken => ?_
  obtain ⟨listed, taken⟩ := taken
  refine Meets.bind (count_relinks op _ taken.filed) fun _ r₂ counted => ?_
  refine (unlinkAll_relinks counted.filed).to fun _ r₃ cut => ?_
  refine ((taken.trans counted).trans cut).congr fun x y => ?_
  rw [counted.edge, taken.edge, listed, listed]
  tauto

theorem moveAll_relinks {new old : NodeId} {ps : List NodeId}
    (apart : ∀ p ∈ ps, p ≠ new ∧ old ≠ new) (filed : r.Filed) :
    Meets (ps.forM fun p => do
        modifyAccess p fun a => { a with peers := (a.peers.erase old).insert new }
        addPeer new p) r Fault.Plain fun _ r' =>
      Relinked r r' fun x y =>
        (r.Edge x y ∧ ¬(x ∈ ps ∧ y = old)) ∨ (x ∈ ps ∧ y = new) ∨ (x = new ∧ y ∈ ps) := by
  induction ps generalizing r with
  | nil => exact (Relinked.refl filed).congr fun x y => by simp
  | cons p ps ih =>
    have here := apart p List.mem_cons_self
    have exchange : Meets (modifyAccess p fun a =>
        { a with peers := (a.peers.erase old).insert new }) r Fault.Plain fun _ r' =>
        Relinked r r' fun x y => (r.Edge x y ∧ ¬(x = p ∧ y = old)) ∨ (x = p ∧ y = new) := by
      refine (modifyAccess_reaccesses _ filed).to fun _ r' changed => ?_
      refine (Relinked.of_peers (g := fun ps => (ps.erase old).insert new) changed.2).congr
        fun x y => ?_
      split
      · rename_i same
        subst same
        simp [Region.Edge, or_comm]
      · rename_i other
        simp [other]
    refine Meets.bind (Meets.bind exchange fun _ r₁ first => ?_) fun _ _ => id
    refine (addPeer_relinks first.filed).to fun _ r₂ second => ?_
    have both := first.trans second
    refine (ih (fun q mem => apart q (List.mem_cons_of_mem p mem)) both.filed).to
      fun _ r₃ rest => ?_
    refine (both.trans rest).congr fun x y => ?_
    rw [second.edge, first.edge]
    simp only [List.mem_cons]
    have later := fun mem => apart new (List.mem_cons_of_mem p mem)
    grind

/-- The edges of `old` become edges of `new`. -/
theorem moveEdges_relinks (op : LinkOp) {new old : NodeId}
    (apart : ∀ p, r.Edge old p → p ≠ new ∧ old ≠ new) (filed : r.Filed) :
    Meets (moveEdges op new old) r Fault.Plain fun _ r' =>
      Relinked r r' fun x y => (r.Edge x y ∧ x ≠ old ∧ ¬(r.Edge old x ∧ y = old)) ∨
        (r.Edge old x ∧ y = new) ∨ (x = new ∧ r.Edge old y) := by
  refine Meets.bind (takePeers_relinks filed) fun ps r₁ taken => ?_
  obtain ⟨listed, taken⟩ := taken
  refine Meets.bind (count_relinks op _ taken.filed) fun _ r₂ counted => ?_
  have apart' : ∀ p ∈ ps, p ≠ new ∧ old ≠ new := fun p mem => apart p ((listed p).mp mem)
  refine (moveAll_relinks apart' counted.filed).to fun _ r₃ moved => ?_
  refine ((taken.trans counted).trans moved).congr fun x y => ?_
  rw [counted.edge, taken.edge, listed, listed]
  tauto

theorem copyEdges_relinks {target source : NodeId} (filed : r.Filed) :
    Meets (copyEdges target source) r Fault.Plain fun _ r' =>
      Relinked r r' fun x y =>
        r.Edge x y ∨ (r.Edge source x ∧ y = target) ∨ (x = target ∧ r.Edge source y) := by
  have all (ps : List NodeId) {r : Region} (filed : r.Filed) :
      Meets (ps.forM fun p => do addPeer p target; addPeer target p) r Fault.Plain fun _ r' =>
        Relinked r r' fun x y => r.Edge x y ∨ (x ∈ ps ∧ y = target) ∨ (x = target ∧ y ∈ ps) := by
    induction ps generalizing r with
    | nil => exact (Relinked.refl filed).congr fun x y => by simp
    | cons p ps ih =>
      refine Meets.bind (Meets.bind (addPeer_relinks filed) fun _ r₁ first => ?_) fun _ _ => id
      refine (addPeer_relinks first.filed).to fun _ r₂ second => ?_
      refine (ih second.filed).to fun _ r₃ rest => ?_
      refine ((first.trans second).trans rest).congr fun x y => ?_
      rw [second.edge, first.edge]
      simp only [List.mem_cons]
      tauto
  simp only [copyEdges, meets_bind, meets_ask]
  refine Region.peers_answers.yields (fun _ => id) fun ps peers => ?_
  refine (count_relinks _ _ filed).to fun _ r₁ counted => ?_
  refine (all ps.toList counted.filed).to fun _ r₂ copied => ?_
  refine (counted.trans copied).congr fun x y => ?_
  simp only [counted.edge, HandleSet.mem_toList]
  rw [← Region.accessOf_of_peers peers]
  rfl

/-- `target` is made to access what `source` accesses. -/
theorem copyAccess_reaccesses {target source : NodeId} (filed : r.Filed) :
    Meets (copyAccess target source) r Fault.Plain fun _ r' =>
      Reaccessed r r' (Function.update r.accessOf target
        { r.accessOf target with
          must := (r.accessOf source).must, may := (r.accessOf source).may }) := by
  simp only [copyAccess, Edit.node, meets_bind, meets_ask]
  refine Region.access_answers.yields (fun _ => id) fun a found => ?_
  refine Region.node_answers.yields (fun _ => id) fun d foundTarget => ?_
  rw [Region.accessOf_of_access found]
  split
  · rename_i idle
    simp only [Bool.and_eq_true, Option.isNone_iff_eq_none] at idle
    obtain ⟨⟨must, may⟩, record⟩ := idle
    have clean : r.accessOf target = .clean := Region.accessOf_of_none (by
      rw [Region.recordOf_of (Region.node?_of_node foundTarget), record])
    have same : ({ r.accessOf target with must := a.must, may := a.may } : Access) =
        r.accessOf target := by
      rw [clean, must, may]
      rfl
    exact ⟨filed, by rw [same, Function.update_eq_self], rfl, rfl⟩
  · exact (modifyAccess_reaccesses _ filed).to fun _ _ changed => changed.2

/-! ### Releasing -/

theorem modifySsa_records {v : SsaId} {f : SsaValue → SsaValue} :
    Meets (modifySsa v f) r Fault.Plain fun _ r' => SameRecords r r' := by
  simp only [modifySsa, ssaValue, putSsa, meets_bind, meets_ask, meets_modify]
  exact Region.lookup_answers.yields (fun _ => id) fun _ _ => ⟨rfl, rfl, rfl, rfl, rfl⟩

/-- A node that leaves has no access any more. -/
theorem Region.Filed.leave (filed : r.Filed) (inside : n.index < r.nodes.size) :
    Reaccessed r (r.put n none) (Function.update r.accessOf n .clean) := by
  have recordOf (m : NodeId) : (r.put n none).recordOf m = if m = n then none else
      r.recordOf m := by
    unfold Region.recordOf
    rw [Region.node?_put inside]
    split <;> rfl
  refine ⟨⟨fun m i has => ?_, fun m m' i has has' => ?_⟩, funext fun m => ?_, rfl, rfl⟩
  · rw [recordOf] at has
    split at has
    · cases has
    · exact filed.inside m i has
  · rw [recordOf] at has has'
    split at has
    · cases has
    · split at has'
      · cases has'
      · exact filed.own m m' i has has'
  · rw [Function.update_apply, Region.accessOf, recordOf]
    split
    · rfl
    · rfl

/-- A node's record is cleaned, if it has one. -/
theorem Region.Filed.cleaned {d : Node} (filed : r.Filed) (found : r.node? n = some d) :
    Reaccessed r { r with records := match d.record with
      | some i => r.records.setIfInBounds i.index .clean
      | none => r.records } (Function.update r.accessOf n .clean) := by
  cases record : d.record with
  | some i => exact filed.rewrite found record .clean
  | none =>
    have clean : r.accessOf n = .clean :=
      Region.accessOf_of_none (by rw [Region.recordOf_of found, record])
    exact ⟨filed, by rw [← clean, Function.update_eq_self], rfl, rfl⟩

theorem forgetSsa_records : Meets (forgetSsa n) r Fault.Plain fun _ r' => SameRecords r r' := by
  simp only [forgetSsa, Edit.node, meets_bind, meets_ask]
  refine Region.node_answers.yields (fun _ => id) fun d _ => ?_
  split
  · exact modifySsa_records
  · exact SameRecords.refl

theorem dropNode_reaccesses (filed : r.Filed) :
    Meets (dropNode n) r Fault.Plain fun _ r' =>
      Reaccessed r r' (Function.update r.accessOf n .clean) := by
  refine Meets.bind forgetSsa_records fun _ r₁ same => ?_
  simp only [Edit.node, meets_bind, meets_ask, meets_modify]
  refine Region.node_answers.yields (fun _ => id) fun d found => ?_
  replace found := Region.node?_of_node found
  have cleaned := (same.filed filed).cleaned found
  have left := cleaned.filed.leave (n := n) (Region.lt_size_of_node? found)
  refine ⟨left.filed, ?_, same.locations, same.sets⟩
  rw [← same.accessOf]
  refine left.accesses.trans ?_
  rw [cleaned.accesses, Function.update_idem]

theorem dropNodes_reaccesses {ns : List NodeId} (filed : r.Filed) :
    Meets (ns.forM dropNode) r Fault.Plain fun _ r' =>
      Reaccessed r r' fun m => if m ∈ ns then .clean else r.accessOf m := by
  induction ns generalizing r with
  | nil => exact ⟨filed, by simp, rfl, rfl⟩
  | cons n ns ih =>
    refine Meets.bind (dropNode_reaccesses filed) fun _ r₁ first => ?_
    refine (ih first.filed).to fun _ r₂ rest => ?_
    refine ⟨rest.filed, ?_, rest.locations.trans first.locations, rest.sets.trans first.sets⟩
    rw [rest.accesses, first.accesses]
    funext m
    by_cases same : m = n
    · simp [same]
    · simp [same]

/-- Of a node that may leave with `ns`, no edge leads back from a node that stays. -/
theorem checkNoEdges_yields {ns : List NodeId} : Yields (r.checkNoEdges ns n) Fault.Plain fun _ =>
    ∀ p, r.Edge n p → r.Edge p n → p ∈ ns := by
  rw [Region.checkNoEdges, yields_bind]
  refine Region.peers_answers.yields (fun _ => id) fun ps peers => ?_
  have each : ∀ p ∈ ps.toList, Yields (do
      if !(ns.contains p || r.isReleased p) then
        if n ∈ (← r.peers p) then throw (.misuse (.inEdgesOf n p)))
      Fault.Plain fun _ => r.Edge p n → p ∈ ns := by
    intro p _
    split
    · rw [yields_bind]
      refine Region.peers_answers.yields (fun _ => id) fun qs back => ?_
      split
      · trivial
      · rename_i absent
        intro edge
        rw [Region.Edge, Region.accessOf_of_peers back] at edge
        exact absurd edge absent
    · rename_i leaves
      intro edge
      obtain ⟨d, found⟩ := edge.live
      simpa [Region.isReleased_of found] using leaves
  refine (Yields.forM_forall each).imp (fun _ => id) fun _ _ all p edge back => ?_
  rw [Region.Edge, Region.accessOf_of_peers peers] at edge
  exact all p edge back

/-- Nodes are released only if no edge of a node that stays leads to them. -/
theorem releaseAll_reaccesses {ns : List NodeId} (filed : r.Filed) :
    Meets (releaseAll ns) r Fault.Plain fun _ r' =>
      (∀ n ∈ ns, ∀ p, r.Edge n p → r.Edge p n → p ∈ ns) ∧
      Reaccessed r r' fun m => if m ∈ ns then .clean else r.accessOf m := by
  have each : ∀ n ∈ ns, Yields (do r.checkNoEdges ns n; r.checkNoUses ns n) Fault.Plain
      fun _ => ∀ p, r.Edge n p → r.Edge p n → p ∈ ns := by
    intro n _
    rw [yields_bind]
    exact checkNoEdges_yields.imp (fun _ => id) fun _ _ edges =>
      Region.checkNoUses_answers.yields (fun _ => id) fun _ _ => edges
  simp only [releaseAll, meets_bind, meets_ask]
  refine (Answers.forM fun n => Region.checkUnlinked_answers).yields (fun _ => id) fun _ _ => ?_
  refine (Yields.forM_forall each).imp (fun _ => id) fun _ _ all => ?_
  exact (dropNodes_reaccesses filed).to fun _ _ dropped => ⟨all, dropped⟩

end Peephole
