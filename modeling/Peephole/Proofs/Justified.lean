import Peephole.Proofs.Clones
import Peephole.Proofs.Quiet
import Peephole.Proofs.Steady

/-!
# Justified edges

An edge is justified if one of its ends refers to no location that is known, or if both
refer to locations that overlap. Refinement narrows what a load or store refers to when it
turns an indirect access into a direct one; the sweep that follows drops exactly the edges
that this leaves without justification. So edges that are justified at the start are
justified in the end, and the check for stale edges never fails.
-/

namespace Peephole

open Edit

variable {r r' : Region} {n x y p : NodeId} {E : NodeId → NodeId → Prop} {ns : List NodeId}

/-- The locations may share a byte: an inexact one may be any part of its variable. -/
def Location.Overlap (a b : Location) : Prop :=
  a.var = b.var ∧
    (a.exact = true → b.exact = true → a.ofst < b.ofst + b.size ∧ b.ofst < a.ofst + a.size)

theorem Location.overlaps_iff {a b : Location} {v : Bool} (h : a.overlaps b = .ok v) :
    v = true ↔ a.Overlap b := by
  unfold Location.overlaps at h
  split at h
  · rename_i other
    cases h
    simp [Location.Overlap, other]
  · rename_i same
    split at h
    · rename_i inexact
      cases h
      simp only [Bool.or_eq_true, Bool.not_eq_true'] at inexact
      refine ⟨fun _ => ⟨not_not.mp same, fun ha hb => ?_⟩, fun _ => rfl⟩
      rcases inexact with no | no
      · rw [no] at ha; cases ha
      · rw [no] at hb; cases hb
    · rename_i exact
      simp only [Bool.or_eq_true, Bool.not_eq_true', not_or, Bool.not_eq_false] at exact
      unfold addOffsets at h
      split at h
      · split at h
        · cases h
          simp [Location.Overlap, not_not.mp same, exact]
        · cases h
      · cases h

namespace Region

/-- The locations that the record of a node refers to. -/
def referenced (r : Region) (n : NodeId) : List LocationId :=
  (r.accessOf n).must.toList ++
    (((r.accessOf n).may.bind fun s => r.locationSets[s.index]?).map HandleSet.toList).getD []

def Overlap (r : Region) (a b : LocationId) : Prop :=
  a = b ∨ ∃ x y, r.locations[a.index]? = some x ∧ r.locations[b.index]? = some y ∧ x.Overlap y

/-- One end refers to nothing, or both refer to overlapping locations. -/
def Justified (r : Region) (x y : NodeId) : Prop :=
  r.referenced x = [] ∨ r.referenced y = [] ∨
    ∃ a ∈ r.referenced x, ∃ b ∈ r.referenced y, r.Overlap a b

theorem Justified.symm (h : r.Justified x y) : r.Justified y x := by
  rcases h with empty | empty | ⟨a, ha, b, hb, overlap⟩
  · exact .inr (.inl empty)
  · exact .inl empty
  · refine .inr (.inr ⟨b, hb, a, ha, ?_⟩)
    rcases overlap with rfl | ⟨l, m, hl, hm, same, bytes⟩
    · exact .inl rfl
    · exact .inr ⟨m, l, hm, hl, same.symm, fun em el => (bytes el em).symm⟩

theorem lookup_eq {α : Type} {k : Kind} {xs : Array α} {h : Handle k} {a : α}
    (found : lookup xs h = .ok a) : xs[h.index]? = some a := by
  unfold lookup at found
  split at found
  · cases found
    assumption
  · cases found

theorem referenced_of_touched {ls : List LocationId} (h : r.touched n = .ok ls) :
    r.referenced n = ls := by
  unfold touched at h
  cases found : r.access n with
  | error f => simp [found, bind, Except.bind] at h
  | ok a =>
    rw [referenced, accessOf_of_access found]
    cases may : a.may with
    | none =>
      simp only [found, may, bind, Except.bind, pure, Except.pure, Except.ok.injEq] at h
      simp [h]
    | some s =>
      cases look : r.locationSet s with
      | error f => simp [found, may, look, bind, Except.bind] at h
      | ok set =>
        simp only [found, may, look, bind, Except.bind, pure, Except.pure, Except.ok.injEq] at h
        simp [lookup_eq look, h]

theorem locationsOverlap_iff {a b : LocationId} {v : Bool} (h : r.locationsOverlap a b = .ok v) :
    v = true ↔ r.Overlap a b := by
  unfold locationsOverlap at h
  split at h
  · rename_i same
    cases h
    exact ⟨fun _ => .inl same, fun _ => rfl⟩
  · rename_i other
    cases lookA : r.location a with
    | error f => simp [lookA, bind, Except.bind] at h
    | ok l =>
      cases lookB : r.location b with
      | error f => simp [lookA, lookB, bind, Except.bind] at h
      | ok m =>
        simp only [lookA, lookB, bind, Except.bind] at h
        rw [Location.overlaps_iff h]
        constructor
        · exact fun overlap => .inr ⟨l, m, lookup_eq lookA, lookup_eq lookB, overlap⟩
        · rintro (same | ⟨l', m', hl, hm, overlap⟩)
          · exact absurd same other
          · rw [lookup_eq lookA, Option.some.injEq] at hl
            rw [lookup_eq lookB, Option.some.injEq] at hm
            rwa [hl, hm]

/-- A search that is answered found what there is to find. -/
theorem anyM_iff {α : Type} {f : α → Except Fault Bool} {P : α → Prop} {xs : List α} {v : Bool}
    (each : ∀ x w, f x = .ok w → (w = true ↔ P x)) (h : xs.anyM f = .ok v) :
    v = true ↔ ∃ x ∈ xs, P x := by
  induction xs with
  | nil =>
    cases h
    simp
  | cons x xs ih =>
    have unfolded : (x :: xs).anyM f = f x >>= fun w => if w then pure true else xs.anyM f := by
      rw [List.anyM]
      refine congrArg _ (funext fun w => ?_)
      cases w <;> rfl
    rw [unfolded] at h
    cases here : f x with
    | error f => simp [here, bind, Except.bind] at h
    | ok w =>
      simp only [here, bind, Except.bind] at h
      cases w with
      | true =>
        cases h
        simp [(each x true here).mp rfl]
      | false =>
        have no : ¬P x := fun yes => Bool.false_ne_true ((each x false here).mpr yes)
        simp [ih h, no]

theorem edgeJustified_iff {v : Bool} (h : r.edgeJustified x y = .ok v) :
    v = true ↔ r.Justified x y := by
  unfold edgeJustified at h
  cases left : r.touched x with
  | error f => simp [left, bind, Except.bind] at h
  | ok as =>
    cases right : r.touched y with
    | error f => simp [left, right, bind, Except.bind] at h
    | ok bs =>
      simp only [left, right, bind, Except.bind] at h
      rw [Justified, referenced_of_touched left, referenced_of_touched right]
      split at h
      · rename_i empty
        cases h
        simp only [Bool.or_eq_true, List.isEmpty_iff] at empty
        refine ⟨fun _ => ?_, fun _ => rfl⟩
        rcases empty with empty | empty
        · exact .inl empty
        · exact .inr (.inl empty)
      · rename_i known
        simp only [Bool.or_eq_true, List.isEmpty_iff, not_or] at known
        have inner (a : LocationId) (w : Bool) (found : bs.anyM (r.locationsOverlap a) = .ok w) :=
          anyM_iff (P := r.Overlap a) (fun b w => locationsOverlap_iff) found
        rw [anyM_iff inner h]
        simp [known]

end Region

/-! ### Well-linked regions -/

/-- Edges lead both ways between nodes whose records are their own. -/
structure Region.Paired (r : Region) : Prop where
  filed : r.Filed
  symm : ∀ x y, r.Edge x y → r.Edge y x

/-- Edges are paired and justified. -/
structure Region.WellLinked (r : Region) : Prop extends r.Paired where
  justified : ∀ x y, r.Edge x y → r.Justified x y

theorem Region.referenced_congr (must : (r'.accessOf n).must = (r.accessOf n).must)
    (may : (r'.accessOf n).may = (r.accessOf n).may) (sets : r'.locationSets = r.locationSets) :
    r'.referenced n = r.referenced n := by
  unfold referenced
  rw [must, may, sets]

/-- An edge stays justified while its ends refer to the same and locations are only added. -/
theorem Region.Justified.congr {x' y' : NodeId} (h : r.Justified x y)
    (left : r'.referenced x' = r.referenced x) (right : r'.referenced y' = r.referenced y)
    (grown : ∀ (i : Nat) l, r.locations[i]? = some l → r'.locations[i]? = some l) :
    r'.Justified x' y' := by
  unfold Region.Justified
  rw [left, right]
  rcases h with empty | empty | ⟨a, ha, b, hb, overlap⟩
  · exact .inl empty
  · exact .inr (.inl empty)
  · refine .inr (.inr ⟨a, ha, b, hb, ?_⟩)
    rcases overlap with same | ⟨l, m, hl, hm, bytes⟩
    · exact .inl same
    · exact .inr ⟨l, m, grown _ l hl, grown _ m hm, bytes⟩

theorem Relinked.referenced (h : Relinked r r' E) (n : NodeId) :
    r'.referenced n = r.referenced n :=
  Region.referenced_congr (h.must n) (h.may n) h.sets

theorem Relinked.justified (h : Relinked r r' E) : r'.Justified x y ↔ r.Justified x y := by
  constructor
  · exact fun just => just.congr (h.referenced x).symm (h.referenced y).symm fun i l => by
      rw [h.locations]; exact id
  · exact fun just => just.congr (h.referenced x) (h.referenced y) fun i l => by
      rw [h.locations]; exact id

namespace Region.WellLinked

theorem sameRecords (h : r.WellLinked) (same : SameRecords r r') : r'.WellLinked := by
  have relinked := same.relinked h.filed
  refine ⟨⟨relinked.filed, fun x y edge => ?_⟩, fun x y edge => relinked.justified.mpr ?_⟩
  · exact (relinked.edge y x).mpr (h.symm x y ((relinked.edge x y).mp edge))
  · exact h.justified x y ((relinked.edge x y).mp edge)

/-- Edges may be removed if this is done at both ends. -/
theorem unlinked (h : r.WellLinked) (relinked : Relinked r r' E) (fewer : ∀ x y, E x y → r.Edge x y)
    (symm : ∀ x y, E x y → E y x) : r'.WellLinked :=
  ⟨⟨relinked.filed, fun x y edge => (relinked.edge y x).mpr
    (symm x y ((relinked.edge x y).mp edge))⟩,
    fun x y edge => relinked.justified.mpr
      (h.justified x y (fewer x y ((relinked.edge x y).mp edge)))⟩

/-- What a node without edges refers to is of no concern. -/
theorem referring (h : r.WellLinked) (loose : ∀ y, ¬r.Edge n y) {a : Access}
    (change : Reaccessed r r' (Function.update r.accessOf n a))
    (peers : a.peers = (r.accessOf n).peers) :
    r'.WellLinked ∧ ∀ x y, r'.Edge x y ↔ r.Edge x y := by
  have edge (x y : NodeId) : r'.Edge x y ↔ r.Edge x y := by
    rw [Region.Edge, change.accesses, Function.update_apply]
    split
    · rename_i same
      rw [peers, same]
      rfl
    · rfl
  have referenced (x : NodeId) (other : x ≠ n) : r'.referenced x = r.referenced x := by
    have same : r'.accessOf x = r.accessOf x := by
      rw [change.accesses, Function.update_of_ne other]
    exact Region.referenced_congr (by rw [same]) (by rw [same]) change.sets
  refine ⟨⟨⟨change.filed, fun x y now => ?_⟩, fun x y now => ?_⟩, edge⟩
  · exact (edge y x).mpr (h.symm x y ((edge x y).mp now))
  · have before := (edge x y).mp now
    have left : x ≠ n := fun same => loose y (same ▸ before)
    have right : y ≠ n := fun same => loose x (same ▸ h.symm x y before)
    exact (h.justified x y before).congr (referenced x left) (referenced y right) fun i l => by
      rw [change.locations]; exact id

end Region.WellLinked

/-! ### Sweeps -/

theorem Region.isReleased_of_skeleton (same : r'.skeleton = r.skeleton) :
    r'.isReleased n = r.isReleased n := by
  have node := node?_of_skeleton (n := n) same
  have size := size_of_skeleton same
  by_cases inside : n.index < r.nodes.size
  · have inside' : n.index < r'.nodes.size := size ▸ inside
    cases here : r.node? n with
    | some d =>
      rw [here] at node
      obtain ⟨d', here', _⟩ := Option.map_eq_some_iff.mp node
      rw [isReleased_of here, isReleased_of here']
    | none =>
      rw [here, Option.map_none, Option.map_eq_none_iff] at node
      cases released : r.isReleased n with
      | false =>
        obtain ⟨d, found⟩ := exists_of_not_isReleased released inside
        rw [here] at found
        cases found
      | true =>
        cases released' : r'.isReleased n with
        | true => rfl
        | false =>
          obtain ⟨d, found⟩ := exists_of_not_isReleased released' inside'
          rw [node] at found
          cases found
  · have outside : ¬n.index < r'.nodes.size := size ▸ inside
    simp [isReleased, inside, outside]

/-- An edge is dropped just if it is not justified. -/
theorem dropIfExpired_relinks (filed : r.Filed) (stays : r.isReleased p = false) :
    Meets (dropIfExpired n p) r Fault.Plain fun dropped r' =>
      Relinked r r' (fun x y => r.Edge x y ∧
        ¬((x = n ∧ y = p ∨ x = p ∧ y = n) ∧ ¬r.Justified x y)) ∧
      (dropped = true → ¬r.Justified n p) := by
  simp only [dropIfExpired, isReleased, meets_bind, meets_get, meets_pure, stays,
    Bool.false_eq_true, if_false]
  have sweep {a b : NodeId} (ends : a = n ∧ b = p ∨ a = p ∧ b = n) :
      Yields (r.edgeJustified a b) Fault.Plain fun just => Meets (do
        if just then return false
        report (.expiredEdge a b)
        unlinkEdge a b
        count .dropExpired fun c => { c with expired := c.expired + 1 }
        return true) r Fault.Plain fun dropped r' =>
      Relinked r r' (fun x y => r.Edge x y ∧
        ¬((x = n ∧ y = p ∨ x = p ∧ y = n) ∧ ¬r.Justified x y)) ∧
      (dropped = true → ¬r.Justified n p) := by
    refine Region.edgeJustified_answers.yields (fun _ => id) fun just found => ?_
    have holds : r.Justified n p ↔ just = true := by
      rw [Region.edgeJustified_iff found]
      rcases ends with ⟨rfl, rfl⟩ | ⟨rfl, rfl⟩
      · exact Iff.rfl
      · exact ⟨.symm, .symm⟩
    have back : r.Justified p n ↔ just = true := Iff.trans ⟨.symm, .symm⟩ holds
    split
    · rename_i yes
      refine ⟨(Relinked.refl filed).congr fun x y => ⟨fun edge => ⟨edge, ?_⟩, And.left⟩,
        fun off => Bool.noConfusion off⟩
      rintro ⟨⟨rfl, rfl⟩ | ⟨rfl, rfl⟩, no⟩
      · exact no (holds.mpr yes)
      · exact no (back.mpr yes)
    · rename_i no
      simp only [report, meets_bind, meets_modify, meets_pure]
      have noted : SameRecords r { r with events := r.events.push (.expiredEdge a b) } :=
        ⟨rfl, rfl, rfl, rfl, rfl⟩
      have start := noted.relinked filed
      refine (unlinkEdge_relinks start.filed).to fun _ r₁ unlinked => ?_
      refine (count_relinks _ _ unlinked.filed).to fun _ r₂ counted => ⟨?_, fun _ => ?_⟩
      · refine ((start.trans unlinked).trans counted).congr fun x y => ?_
        rw [unlinked.edge, start.edge]
        have no₁ := fun just => no (holds.mp just)
        have no₂ := fun just => no (back.mp just)
        rcases ends with ⟨rfl, rfl⟩ | ⟨rfl, rfl⟩ <;> grind
      · exact fun just => no (holds.mp just)
  simp only [Edit.isStmt, Edit.node, meets_bind, meets_ask, meets_pure]
  refine Region.node_answers.yields (fun _ => id) fun d _ => ?_
  split
  · exact sweep (.inl ⟨rfl, rfl⟩)
  · exact sweep (.inr ⟨rfl, rfl⟩)

theorem dropExpiredAt_relinks {ps : List NodeId} (filed : r.Filed)
    (stay : ∀ p ∈ ps, r.isReleased p = false) :
    Meets (someOf (dropIfExpired n) ps) r Fault.Plain fun dropped r' =>
      Relinked r r' (fun x y => r.Edge x y ∧
        ¬((x = n ∧ y ∈ ps ∨ x ∈ ps ∧ y = n) ∧ ¬r.Justified x y)) ∧
      (dropped = true → ∃ p ∈ ps, ¬r.Justified n p) := by
  induction ps generalizing r with
  | nil => exact ⟨(Relinked.refl filed).congr fun x y => by simp, nofun⟩
  | cons p ps ih =>
    rw [meets_someOf_cons]
    have first := (dropIfExpired_relinks (n := n) filed (stay p List.mem_cons_self)).and
      (dropIfExpired_quiet r rfl)
    refine first.to fun here r₁ ⟨⟨first, why⟩, same⟩ => ?_
    have stay' : ∀ q ∈ ps, r₁.isReleased q = false := fun q mem => by
      rw [Region.isReleased_of_skeleton same]
      exact stay q (List.mem_cons_of_mem p mem)
    refine (ih first.filed stay').to fun there r₂ ⟨rest, whyRest⟩ => ⟨?_, fun some => ?_⟩
    · refine (first.trans rest).congr fun x y => ?_
      rw [first.edge, first.justified]
      simp only [List.mem_cons]
      grind
    · rcases Bool.or_eq_true_iff.mp some with yes | yes
      · exact ⟨p, List.mem_cons_self, why yes⟩
      · obtain ⟨q, mem, no⟩ := whyRest yes
        exact ⟨q, List.mem_cons_of_mem p mem, fun just => no (first.justified.mpr just)⟩

/-- A sweep drops the edges of the given nodes that are not justified, and no others. -/
theorem dropExpiredOf_relinks (paired : r.Paired) :
    Meets (dropExpiredOf ns) r Fault.Plain fun dropped r' =>
      Relinked r r' (fun x y => r.Edge x y ∧ (x ∈ ns ∨ y ∈ ns → r.Justified x y)) ∧
      (dropped = true → ∃ x ∈ ns, ∃ y, r.Edge x y ∧ ¬r.Justified x y) := by
  induction ns generalizing r with
  | nil => exact ⟨(Relinked.refl paired.filed).congr fun x y => by simp,
      fun off => Bool.noConfusion off⟩
  | cons n ns ih =>
    unfold dropExpiredOf
    rw [meets_someOf_cons, meets_bind, meets_ask]
    refine Region.peers_answers.yields (fun _ => id) fun ps peers => ?_
    have listed (p : NodeId) : p ∈ ps.toList ↔ r.Edge n p := by
      rw [Region.Edge, Region.accessOf_of_peers peers, HandleSet.mem_toList]
    have stay : ∀ p ∈ ps.toList, r.isReleased p = false := by
      intro p mem
      obtain ⟨d, found⟩ := (paired.symm n p ((listed p).mp mem)).live
      exact Region.isReleased_of found
    refine (dropExpiredAt_relinks paired.filed stay).to ?_
    rintro here r₁ ⟨first, why⟩
    have edge (x y : NodeId) : r₁.Edge x y ↔
        r.Edge x y ∧ (x = n ∨ y = n → r.Justified x y) := by
      rw [first.edge, listed, listed]
      have back := paired.symm x y
      grind
    have paired₁ : r₁.Paired := by
      refine ⟨first.filed, fun x y => ?_⟩
      rw [edge, edge]
      rintro ⟨before, just⟩
      exact ⟨paired.symm x y before, fun ends => (just ends.symm).symm⟩
    refine (ih paired₁).to ?_
    rintro there r₂ ⟨rest, whyRest⟩
    refine ⟨?_, fun some => ?_⟩
    · refine (first.trans rest).congr fun x y => ?_
      rw [edge, first.justified]
      simp only [List.mem_cons]
      grind
    · rcases Bool.or_eq_true_iff.mp some with yes | yes
      · obtain ⟨p, mem, no⟩ := why yes
        exact ⟨n, List.mem_cons_self, p, (listed p).mp mem, no⟩
      · obtain ⟨x, mem, y, now, no⟩ := whyRest yes
        refine ⟨x, List.mem_cons_of_mem n mem, y, ((edge x y).mp now).1, fun just => ?_⟩
        exact no (first.justified.mpr just)

/-! ### Takeovers -/

/-- The edges after `new` took over those of `old`. -/
def Region.TakenOver (r : Region) (new old x y : NodeId) : Prop :=
  (r.Edge x y ∧ x ≠ old ∧ ¬(r.Edge old x ∧ y = old)) ∨
    (r.Edge old x ∧ y = new) ∨ (x = new ∧ r.Edge old y)

theorem moveEdges_takesOver (op : LinkOp) (new old : NodeId) (h : r.Paired)
    (loose : ∀ y, ¬r.Edge new y) :
    Meets (moveEdges op new old) r Fault.Plain fun _ r' =>
      r'.Paired ∧ Relinked r r' (r.TakenOver new old) := by
  have apart : ∀ p, r.Edge old p → p ≠ new ∧ old ≠ new := fun p edge =>
    ⟨fun same => loose old (same ▸ h.symm old p edge), fun same => loose p (same ▸ edge)⟩
  refine (moveEdges_relinks op apart h.filed).to fun _ r' moved =>
    ⟨⟨moved.filed, fun x y => ?_⟩, moved⟩
  rw [moved.edge, moved.edge]
  have back := h.symm x y
  grind

/-- A takeover keeps edges justified if the new node refers to what the old one did. -/
theorem Region.WellLinked.takenOver {new old : NodeId} (h : r.WellLinked) (paired : r'.Paired)
    (moved : Relinked r r' (r.TakenOver new old)) (same : r.referenced new = r.referenced old) :
    r'.WellLinked := by
  refine ⟨paired, fun x y edge => moved.justified.mpr ?_⟩
  rcases (moved.edge x y).mp edge with ⟨before, _⟩ | ⟨before, rfl⟩ | ⟨rfl, before⟩
  · exact h.justified x y before
  · exact (h.justified old x before).symm.congr rfl same fun _ _ => id
  · exact (h.justified old y before).congr same rfl fun _ _ => id

/-- A takeover by a node that refers to something else is followed by a sweep of its edges. -/
theorem Region.WellLinked.sweptTakeover {new old : NodeId} (h : r.WellLinked) (paired : r'.Paired)
    (moved : Relinked r r' (r.TakenOver new old)) (mem : new ∈ ns) :
    Meets (dropExpiredOf ns) r' Fault.Plain fun _ r'' => r''.WellLinked := by
  refine (dropExpiredOf_relinks paired).to fun _ r'' ⟨swept, _⟩ => ⟨⟨swept.filed, ?_⟩, ?_⟩
  · intro x y
    rw [swept.edge, swept.edge]
    rintro ⟨before, just⟩
    exact ⟨paired.symm x y before, fun ends => (just ends.symm).symm⟩
  · intro x y edge
    obtain ⟨before, just⟩ := (swept.edge x y).mp edge
    refine swept.justified.mpr ?_
    rcases (moved.edge x y).mp before with ⟨old, _⟩ | ⟨_, rfl⟩ | ⟨rfl, _⟩
    · exact moved.justified.mpr (h.justified x y old)
    · exact just (.inr mem)
    · exact just (.inl mem)

/-- Registering a location is of no concern to edges. -/
theorem register_keeps (l : Location) :
    Keeps (fun r => r.WellLinked ∧ ∀ y, ¬r.Edge n y) Fault.Plain (register l) := by
  rintro r ⟨h, loose⟩
  simp only [register, meets_bind, meets_get]
  split
  · exact ⟨h, loose⟩
  · refine ⟨⟨⟨⟨h.filed.inside, h.filed.own⟩, h.symm⟩, fun x y edge => ?_⟩, loose⟩
    refine (h.justified x y edge).congr rfl rfl fun i l found => ?_
    have inside := (Array.getElem?_eq_some_iff.mp found).1
    show (r.locations.push _)[i]? = some l
    rw [Array.getElem?_push, if_neg (by omega), found]

theorem locateVariable_keeps {d : Node} :
    Keeps (fun r => r.WellLinked ∧ ∀ y, ¬r.Edge n y) Fault.Plain (locateVariable n d) := by
  unfold locateVariable
  split
  · exact .bind .get fun _ => register_keeps _
  · exact .throw trivial

/-- A load or store that has no edges yet is found a location. -/
theorem setMust_keeps {m : Option LocationId} (h : r.WellLinked) (loose : ∀ y, ¬r.Edge n y) :
    Meets (setMust n m) r Fault.Plain fun _ r' => r'.WellLinked ∧ ∀ y, ¬r'.Edge n y := by
  refine (modifyAccess_reaccesses _ h.filed).to fun _ r' changed => ?_
  obtain ⟨linked, edge⟩ := h.referring loose changed.2 rfl
  exact ⟨linked, fun y now => loose y ((edge n y).mp now)⟩

theorem clearMay_keeps (h : r.WellLinked) (loose : ∀ y, ¬r.Edge n y) :
    Meets (clearMay n) r Fault.Plain fun _ r' => r'.WellLinked ∧ ∀ y, ¬r'.Edge n y := by
  refine (modifyOwnAccess_reaccesses rfl h.filed).to fun _ r' changed => ?_
  obtain ⟨linked, edge⟩ := h.referring loose changed rfl
  exact ⟨linked, fun y now => loose y ((edge n y).mp now)⟩

theorem copyAccess_keeps {new : NodeId} (old : NodeId) (h : r.WellLinked)
    (loose : ∀ y, ¬r.Edge new y) :
    Meets (copyAccess new old) r Fault.Plain fun _ r' => r'.WellLinked ∧
      (∀ x y, r'.Edge x y ↔ r.Edge x y) ∧ r'.referenced new = r'.referenced old := by
  refine (copyAccess_reaccesses h.filed).to fun _ r' changed => ?_
  obtain ⟨linked, edge⟩ := h.referring loose changed rfl
  refine ⟨linked, edge, ?_⟩
  unfold Region.referenced
  rw [changed.accesses, Function.update_self, Function.update_apply]
  split
  · rename_i same
    rw [same]
  · rfl

theorem changeUse_takesOver {new old : NodeId} (h : r.Paired) (loose : ∀ y, ¬r.Edge new y) :
    Meets (changeUse new old) r Fault.Plain fun _ r' =>
      r'.Paired ∧ Relinked r r' (r.TakenOver new old) := by
  simp only [changeUse, isExpr, Edit.node, meets_bind, meets_and, meets_ask, meets_pure]
  have move := moveEdges_takesOver .changeUse new old h loose
  refine Region.node_answers.yields (fun _ => id) fun d _ => ?_
  split
  · refine Region.node_answers.yields (fun _ => id) fun e _ => ?_
    split
    · exact move
    · trivial
  · trivial

theorem changeDef_takesOver {new old : NodeId} (h : r.Paired) (loose : ∀ y, ¬r.Edge new y) :
    Meets (changeDef new old) r Fault.Plain fun _ r' =>
      r'.Paired ∧ Relinked r r' (r.TakenOver new old) := by
  simp only [changeDef, isStmt, Edit.node, meets_bind, meets_and, meets_ask, meets_pure]
  have move := moveEdges_takesOver .changeDef new old h loose
  refine Region.node_answers.yields (fun _ => id) fun d _ => ?_
  split
  · refine Region.node_answers.yields (fun _ => id) fun e _ => ?_
    split
    · exact move
    · trivial
  · trivial

theorem mem_subtree (h : r.subtree n = .ok ns) : n ∈ ns := by
  rw [Region.subtree, Region.depthBound, Region.subtreeWithin] at h
  cases found : r.node n with
  | error f => simp [found, bind, Except.bind] at h
  | ok d =>
    cases below : d.kids.mapM (r.subtreeWithin r.nodes.size) with
    | error f => simp [found, below, bind, Except.bind] at h
    | ok ls =>
      simp only [found, below, bind, Except.bind, pure, Except.pure, Except.ok.injEq] at h
      exact h ▸ List.mem_cons_self

theorem inheritLoad_keeps {ld : NodeId} (h : r.WellLinked) (loose : ∀ y, ¬r.Edge ld y) :
    Meets (inheritLoad ld n) r Fault.Ordinary fun _ r' => r'.WellLinked := by
  simp only [inheritLoad, hasEdges, meets_bind, meets_ask, meets_get, meets_pure]
  refine Region.exactRef?_answers.yields (fun _ => .inl) fun ref? _ => ?_
  split
  · rename_i narrowed
    obtain ⟨inexact, edges⟩ := Bool.and_eq_true_iff.mp narrowed
    have located : Keeps (fun r => r.WellLinked ∧ ∀ y, ¬r.Edge ld y) Fault.Plain (locateLoad ld) :=
      .bind (.ask fun _ => Region.node_answers) fun _ =>
        .ite (.bind (.throw trivial) fun _ => locateVariable_keeps) locateVariable_keeps
    refine Meets.bind ((located r ⟨h, loose⟩).imp (fun _ => Or.inl) fun _ _ => id) ?_
    rintro m r₁ ⟨h₁, loose₁⟩
    refine Meets.bind ((setMust_keeps h₁ loose₁).imp (fun _ => Or.inl) fun _ _ => id) ?_
    rintro _ r₂ ⟨h₂, loose₂⟩
    rw [if_pos edges]
    refine Meets.bind ((changeUse_takesOver h₂.toPaired loose₂).imp (fun _ => Or.inl)
      fun _ _ => id) ?_
    rintro _ r₃ ⟨paired, moved⟩
    rw [if_pos inexact, meets_discard]
    simp only [dropExpired, Edit.subtree, meets_bind, meets_ask]
    refine Region.subtree_answers.yields (fun _ => id) fun ns found => ?_
    exact (h₂.sweptTakeover paired moved (mem_subtree found)).imp (fun _ => Or.inl) fun _ _ => id
  · rename_i kept
    refine Meets.bind ((copyAccess_keeps n h loose).imp (fun _ => Or.inl) fun _ _ => id) ?_
    rintro _ r₁ ⟨h₁, edge, same⟩
    have loose₁ : ∀ y, ¬r₁.Edge ld y := fun y now => loose y ((edge ld y).mp now)
    split
    · rename_i edges
      refine Meets.bind ((changeUse_takesOver h₁.toPaired loose₁).imp (fun _ => Or.inl)
        fun _ _ => id) ?_
      rintro _ r₂ ⟨paired, moved⟩
      have exact : ¬ref?.isNone = true := fun inexact =>
        kept (Bool.and_eq_true_iff.mpr ⟨inexact, edges⟩)
      rw [if_neg exact]
      exact h₁.takenOver paired moved same
    · exact h₁

theorem inheritStore_keeps {st : NodeId} (h : r.WellLinked) (loose : ∀ y, ¬r.Edge st y) :
    Meets (inheritStore st n) r Fault.Plain fun _ r' => r'.WellLinked := by
  unfold inheritStore
  refine Meets.bind (copyAccess_keeps n h loose) ?_
  rintro _ r₁ ⟨h₁, edge, same⟩
  have loose₁ : ∀ y, ¬r₁.Edge st y := fun y now => loose y ((edge st y).mp now)
  rw [meets_bind, meets_ask]
  refine Region.access_answers.yields (fun _ => id) fun a _ => ?_
  dsimp only
  split
  · rename_i unknown
    have located : Keeps (fun r => r.WellLinked ∧ ∀ y, ¬r.Edge st y) Fault.Plain (locateStore st) :=
      .bind (.ask fun _ => Region.node_answers) fun _ =>
        .ite (.bind (.throw trivial) fun _ => locateVariable_keeps) locateVariable_keeps
    refine Meets.bind (located r₁ ⟨h₁, loose₁⟩) ?_
    rintro m r₂ ⟨h₂, loose₂⟩
    refine Meets.bind (setMust_keeps h₂ loose₂) ?_
    rintro _ r₃ ⟨h₃, loose₃⟩
    refine Meets.bind (clearMay_keeps h₃ loose₃) ?_
    rintro _ r₄ ⟨h₄, loose₄⟩
    simp only [hasEdges, meets_bind, meets_get, meets_pure]
    split
    · refine Meets.bind (changeDef_takesOver h₄.toPaired loose₄) ?_
      rintro _ r₅ ⟨paired, moved⟩
      rw [meets_discard]
      have swept := h₄.sweptTakeover paired moved (List.mem_singleton_self st)
      simp only [dropExpiredDefs, isStmt, Edit.node, meets_bind, meets_ask, meets_pure]
      refine Region.node_answers.yields (fun _ => id) fun d _ => ?_
      split
      · exact swept
      · trivial
    · exact h₄
  · rename_i known
    simp only [hasEdges, meets_bind, meets_get, meets_pure]
    split
    · refine Meets.bind (changeDef_takesOver h₁.toPaired loose₁) ?_
      rintro _ r₂ ⟨paired, moved⟩
      exact h₁.takenOver paired moved same
    · exact h₁

/-! ### Copies -/

/-- Copying the accesses and edges of nodes to nodes without edges. -/
theorem copyLinks_keeps {pairs : List (NodeId × NodeId)} (h : r.WellLinked)
    (distinct : (pairs.map (·.1)).Nodup) (loose : ∀ t ∈ pairs.map (·.1), ∀ y, ¬r.Edge t y) :
    Meets (pairs.forM fun (t, s) => do
        if (← node s).record.isSome then
          copyAccess t s
          copyEdges t s) r Fault.Plain fun _ r' => r'.WellLinked := by
  induction pairs generalizing r with
  | nil => exact h
  | cons pair pairs ih =>
    obtain ⟨t, s⟩ := pair
    obtain ⟨fresh, distinct⟩ := List.nodup_cons.mp distinct
    have looseT : ∀ y, ¬r.Edge t y := loose t List.mem_cons_self
    have looseRest : ∀ t' ∈ pairs.map (·.1), ∀ y, ¬r.Edge t' y := fun t' mem =>
      loose t' (List.mem_cons_of_mem t mem)
    refine Meets.bind (P := fun _ r' => r'.WellLinked ∧
      ∀ t' ∈ pairs.map (·.1), ∀ y, ¬r'.Edge t' y) ?_ fun _ r' kept => ih kept.1 distinct kept.2
    simp only [Edit.node, meets_bind, meets_ask]
    refine Region.node_answers.yields (fun _ => id) fun d _ => ?_
    split
    · refine Meets.bind (copyAccess_keeps s h looseT) ?_
      rintro _ r₁ ⟨h₁, edge₁, same⟩
      refine (copyEdges_relinks h₁.filed).to fun _ r₂ copied =>
        ⟨⟨⟨copied.filed, fun x y => ?_⟩, ?_⟩, ?_⟩
      · rw [copied.edge, copied.edge]
        have back := h₁.symm x y
        grind
      · intro x y edge
        refine copied.justified.mpr ?_
        rcases (copied.edge x y).mp edge with before | ⟨before, rfl⟩ | ⟨rfl, before⟩
        · exact h₁.justified x y before
        · exact (h₁.justified s x before).symm.congr rfl same fun _ _ => id
        · exact (h₁.justified s y before).congr same rfl fun _ _ => id
      · intro t' mem y edge
        rcases (copied.edge t' y).mp edge with before | ⟨before, rfl⟩ | ⟨rfl, _⟩
        · exact looseRest t' mem y ((edge₁ t' y).mp before)
        · exact looseRest t' mem s ((edge₁ t' s).mp (h₁.symm s t' before))
        · exact fresh mem
    · exact ⟨h, looseRest⟩

theorem linkedCopy_keeps : Keeps Region.WellLinked Fault.Ordinary
    (linkedCopy n) := by
  intro r h
  refine Meets.bind duplicate_clones fun c r₁ cloned => ?_
  have h₁ := h.sameRecords cloned.records
  obtain ⟨ns, grove, distinct, fresh⟩ := cloned.grove
  -- The clones are new, so they are at no end of an edge.
  have loose : ∀ t ∈ ns, ∀ y, ¬r₁.Edge t y := by
    intro t mem y edge
    rw [Region.Edge, cloned.records.accessOf] at edge
    obtain ⟨d, found⟩ := Region.Edge.live (r := r) edge
    exact absurd (Region.lt_size_of_node? found) (Nat.not_lt.mpr (fresh t mem))
  simp only [hasEdges, meets_bind, meets_get, meets_pure]
  split
  · simp only [copyTreeAccess, Edit.subtree, meets_bind, meets_ask,
      Region.subtree_of_grove grove distinct, yields_ok]
    refine Region.subtree_answers.yields (fun _ => id) fun sources _ => ?_
    split
    · exact .inl trivial
    · rename_i same
      have targets : (ns.zip sources).map (·.1) = ns := List.map_fst_zip (not_not.mp same).le
      have copied := copyLinks_keeps h₁ (targets.symm ▸ distinct) fun t mem =>
        loose t (targets ▸ mem)
      exact copied.imp (fun _ => Or.inl) fun _ _ => id
  · exact h₁

/-! ### Refinement -/

theorem removeSsaUse_records :
    Meets (removeSsaUse n) r Fault.Plain fun _ r' => SameRecords r r' := by
  simp only [removeSsaUse, meets_bind, meets_ask]
  refine Region.nodeToEdit_answers.yields (fun _ => id) fun d found => ?_
  replace found := Region.node?_of_nodeToEdit found
  split
  · rw [meets_bind, meets_putNode]
    have put : SameRecords r (r.put n (some { d with ssa := none })) := .put found rfl
    exact modifySsa_records.to fun _ _ same => put.trans same
  · exact SameRecords.refl

theorem clearSsaUses_records {v : SsaId} :
    Meets (clearSsaUses v) r Fault.Plain fun _ r' => SameRecords r r' := by
  simp only [clearSsaUses, ssaValue, putSsa, meets_bind, meets_ask, meets_modify]
  refine Region.lookup_answers.yields (fun _ => id) fun value _ => ?_
  refine Meets.forM (I := fun r' => SameRecords r r') ⟨rfl, rfl, rfl, rfl, rfl⟩
    fun u _ r₁ same => ?_
  simp only [isReleased, meets_bind, meets_get, meets_pure]
  split
  · simp only [Edit.node, setSsa, modifyNode, meets_bind, meets_ask]
    refine Region.node_answers.yields (fun _ => id) fun d _ => ?_
    split
    · rw [meets_bind, meets_ask]
      refine Region.nodeToEdit_answers.yields (fun _ => id) fun d found => ?_
      exact same.trans (.put (Region.node?_of_nodeToEdit found) rfl)
    · exact same
  · exact same

theorem cutNode_keeps (op : LinkOp) : Keeps Region.WellLinked Fault.Plain (cutNode op n) := by
  intro r h
  refine (cutNode_relinks op h.filed).to fun _ r' cut => h.unlinked cut (fun _ _ => And.left) ?_
  rintro x y ⟨edge, left, right⟩
  have back := h.symm x y edge
  exact ⟨back, fun same => right ⟨same ▸ back, same⟩, fun ends => left ends.2⟩

theorem releaseAll_keeps : Keeps Region.WellLinked Fault.Plain (releaseAll ns) := by
  intro r h
  refine (releaseAll_reaccesses h.filed).to fun _ r' ⟨free, change⟩ => ?_
  have edge (x y : NodeId) : r'.Edge x y ↔ x ∉ ns ∧ r.Edge x y := by
    rw [Region.Edge, change.accesses]
    dsimp only
    split
    · rename_i leaves
      simp [leaves, Access.clean]
    · rename_i stays
      simp [stays, Region.Edge]
  have stays (x y : NodeId) (now : r'.Edge x y) : y ∉ ns := by
    obtain ⟨left, before⟩ := (edge x y).mp now
    exact fun mem => left (free y mem x (h.symm x y before) before)
  have referenced (x : NodeId) (stays : x ∉ ns) : r'.referenced x = r.referenced x := by
    have same : r'.accessOf x = r.accessOf x := by
      rw [change.accesses]
      exact if_neg stays
    exact Region.referenced_congr (by rw [same]) (by rw [same]) change.sets
  refine ⟨⟨change.filed, fun x y now => ?_⟩, fun x y now => ?_⟩
  · exact (edge y x).mpr ⟨stays x y now, h.symm x y ((edge x y).mp now).2⟩
  · obtain ⟨left, before⟩ := (edge x y).mp now
    exact (h.justified x y before).congr (referenced x left) (referenced y (stays x y now))
      fun i l => by rw [change.locations]; exact id

/-- A new node has no edges. -/
theorem build_loose {code : Op} {ty : Ty} {attrs : Attrs} {slots : List (List NodeId)}
    (h : r.WellLinked) :
    Meets (build code ty attrs slots) r Fault.Plain fun n r' =>
      r'.WellLinked ∧ ∀ y, ¬r'.Edge n y := by
  unfold build create
  rw [if_neg (by simp [Node.fresh])]
  simp only [meets_bind, meets_modifyGet, meets_pure]
  have pushed : SameRecords r (r.push (.fresh code ty attrs slots)) := .push rfl
  have start : (r.push (.fresh code ty attrs slots)).WellLinked ∧
      ∀ y, ¬(r.push (.fresh code ty attrs slots)).Edge r.next y := by
    refine ⟨h.sameRecords pushed, fun y edge => ?_⟩
    rw [Region.Edge, pushed.accessOf] at edge
    obtain ⟨d, found⟩ := Region.Edge.live (r := r) edge
    rw [Region.node?_next] at found
    cases found
  refine Meets.forM (I := fun r' => r'.WellLinked ∧ ∀ y, ¬r'.Edge r.next y) start ?_
  rintro k _ r₁ ⟨h₁, loose⟩
  simp only [setParent, modifyNode, meets_bind, meets_ask]
  refine Region.nodeToEdit_answers.yields (fun _ => id) fun d found => ?_
  have put : SameRecords r₁ (r₁.put k (some { d with parent := some r.next })) :=
    .put (Region.node?_of_nodeToEdit found) rfl
  exact ⟨h₁.sameRecords put, fun y edge => loose y
    (((put.relinked h₁.filed).edge r.next y).mp edge)⟩

/-- Faults other than the one that a stale edge gives rise to. -/
def Fault.NotStale (f : Fault) : Prop := ∀ n, f ≠ .violation (.staleEdge n)

theorem Fault.Plain.notStale (f : Fault) (plain : f.Plain) : f.NotStale := by
  rintro n rfl
  exact plain

theorem Fault.notStale_of (f : Fault) (ordinary : f.Ordinary) : f.NotStale := by
  rcases ordinary with plain | rfl
  · exact plain.notStale
  · exact nofun

/-- Where all edges are justified, a sweep has nothing to drop. -/
theorem checkEdges_keeps (s : Setting) : Keeps Region.WellLinked Fault.NotStale
    (checkEdges s n) := by
  intro r h
  simp only [checkEdges, hasEdges, meets_bind, meets_get, meets_pure]
  split
  · simp only [dropExpired, Edit.subtree, meets_bind, meets_ask]
    refine Region.subtree_answers.yields Fault.notStale_of fun ns _ => ?_
    refine (dropExpiredOf_relinks h.toPaired).imp Fault.Plain.notStale ?_
    rintro dropped r' ⟨swept, why⟩
    have clean : dropped = false := by
      cases dropped with
      | false => rfl
      | true =>
        obtain ⟨x, _, y, edge, no⟩ := why rfl
        exact absurd (h.justified x y edge) no
    subst clean
    refine h.unlinked swept (fun _ _ => And.left) ?_
    rintro x y ⟨edge, just⟩
    exact ⟨h.symm x y edge, fun _ => (h.justified x y edge).symm⟩
  · exact h

theorem wellLinked_steady {o : Options} : Steady o Region.WellLinked Fault.NotStale := by
  have records {m : Edit PUnit} (h : ∀ r, Meets m r Fault.Plain fun _ r' => SameRecords r r') :
      Keeps Region.WellLinked Fault.NotStale m := fun r linked =>
    (h r).imp Fault.Plain.notStale fun _ _ => linked.sameRecords
  have cut (op : LinkOp) (x : NodeId) : Keeps Region.WellLinked Fault.NotStale (cutNode op x) :=
    fun r linked => (cutNode_keeps op r linked).imp Fault.Plain.notStale fun _ _ => id
  have below (x : NodeId) : Keeps Region.WellLinked Fault.NotStale (subtree x) :=
    .ask fun _ => Region.subtree_answers.imp Fault.notStale_of
  have node (x : NodeId) : Keeps Region.WellLinked Fault.NotStale (node x) :=
    .ask fun _ => Region.node_answers.imp Fault.Plain.notStale
  exact {
    fault := fun _ => id
    aside := fun r blocks types h => h.sameRecords ⟨rfl, rfl, rfl, rfl, rfl⟩
    note := fun r e _ h => h.sameRecords ⟨rfl, rfl, rfl, rfl, rfl⟩
    put := fun r n d d' h found links => h.sameRecords (.put found links.record)
    push := fun r code ty attrs slots h => h.sameRecords (.push rfl)
    removeSsaUse := fun u => records fun _ => removeSsaUse_records
    clearSsaUses := fun v => records fun _ => clearSsaUses_records
    cutUses := fun n => (below n).bind fun _ => .forM fun x =>
      ((node x).bind fun _ => .pure _).bind fun _ => .ite (cut _ x) (.pure _)
    cutAll := fun n => (below n).bind fun _ => .forM fun x => cut _ x
    releaseAll := fun ns r h => (releaseAll_keeps r h).imp Fault.Plain.notStale fun _ _ => id
    linkedCopy := fun n r h => (linkedCopy_keeps r h).imp Fault.notStale_of fun _ _ => id
    loadFor := fun n v ofst ty r h =>
      Meets.bind ((build_loose h).imp Fault.Plain.notStale fun _ _ => id) fun ld r₁ ⟨h₁, loose⟩ =>
        Meets.bind ((inheritLoad_keeps h₁ loose).imp Fault.notStale_of fun _ _ => id) fun _ _ => id
    storeFor := fun n v ofst ty stored r h =>
      Meets.bind ((build_loose h).imp Fault.Plain.notStale fun _ _ => id) fun st r₁ ⟨h₁, loose⟩ =>
        Meets.bind ((inheritStore_keeps h₁ loose).imp Fault.Plain.notStale fun _ _ => id)
          fun _ _ => id
    checkEdges := fun s n => checkEdges_keeps s }

/-- Where edges are symmetric and justified and every node has its own record, refinement never
finds a stale edge, and what edges are left are justified. -/
theorem refineRegion_edges_justified (s : Setting) (r : Region) (filed : r.Filed)
    (symm : ∀ x y, r.Edge x y → r.Edge y x) (justified : ∀ x y, r.Edge x y → r.Justified x y) :
    (∀ n, (refineRegion s).run r ≠ .error (.violation (.staleEdge n))) ∧
    ∀ summary r', (refineRegion s).run r = .ok (summary, r') →
      ∀ x y, r'.Edge x y → r'.Edge y x ∧ r'.Justified x y := by
  have keeps : Keeps Region.WellLinked Fault.NotStale (refineRegion s) :=
    wellLinked_steady.keeps .refineRegion
  have kept := meets_iff.mp (keeps r ⟨⟨filed, symm⟩, justified⟩)
  refine ⟨fun n stale => kept.2 _ stale n rfl, fun summary r' ran x y edge => ?_⟩
  have linked := kept.1 summary r' ran
  exact ⟨linked.symm x y edge, linked.justified x y edge⟩

/-! ### Two regions -/

/-- What holds of the edges of the nodes at all places holds of all edges. -/
theorem Region.forall_edge {P : NodeId → NodeId → Prop}
    (h : ∀ i < r.nodes.size, ∀ p ∈ (r.accessOf ⟨i⟩).peers.toList, P ⟨i⟩ p) :
    ∀ x y, r.Edge x y → P x y := by
  intro x y edge
  obtain ⟨d, found⟩ := edge.live
  exact h x.index (lt_size_of_node? found) y edge

theorem Region.filed_iff : r.Filed ↔
    (∀ i < r.nodes.size, ∀ k ∈ r.recordOf ⟨i⟩, k.index < r.records.size) ∧
    ∀ i < r.nodes.size, ∀ j < r.nodes.size, ∀ k ∈ r.recordOf ⟨i⟩, k ∈ r.recordOf ⟨j⟩ → i = j := by
  have inside {n : NodeId} {k : RecordId} (has : r.recordOf n = some k) :
      n.index < r.nodes.size := by
    obtain ⟨d, found, _⟩ := Option.bind_eq_some_iff.mp has
    exact lt_size_of_node? found
  constructor
  · rintro ⟨bound, own⟩
    exact ⟨fun i _ k has => bound _ k has, fun i _ j _ k has has' =>
      Handle.index_inj.mpr (own _ _ k has has')⟩
  · rintro ⟨bound, own⟩
    exact ⟨fun n k has => bound n.index (inside has) k has, fun n m k has has' =>
      Handle.index_inj.mp (own n.index (inside has) m.index (inside has') k has has')⟩

instance : Decidable r.Filed := decidable_of_iff _ Region.filed_iff.symm

/-- `x = 1; y = 2; $1 = *&x`, where both stores may reach the indirect load. -/
def Region.narrowedLoad : Region :=
  { Region.empty ⟨8⟩ with
    nodes := #[
      some { Node.fresh .const (.scalar .i32) (.ofLiteral (.int 1)) [] with parent := some ⟨1⟩ },
      some { Node.fresh .st (.scalar .i32) (.ofVar ⟨0⟩ 0) [[⟨0⟩]] with
        block := some ⟨0⟩, record := some ⟨0⟩ },
      some { Node.fresh .const (.scalar .i32) (.ofLiteral (.int 2)) [] with parent := some ⟨3⟩ },
      some { Node.fresh .st (.scalar .i32) (.ofVar ⟨1⟩ 0) [[⟨2⟩]] with
        block := some ⟨0⟩, record := some ⟨1⟩ },
      some { Node.fresh .lda (.pointer 4) (.ofVar ⟨0⟩ 0) [] with parent := some ⟨5⟩ },
      some { Node.fresh .ild (.scalar .i32) (.ofOffset 0) [[⟨4⟩]] with
        parent := some ⟨6⟩, record := some ⟨2⟩ },
      some { Node.fresh .stpr (.scalar .i32) (.ofRegister 1) [[⟨5⟩]] with block := some ⟨0⟩ }]
    blocks := #[[⟨1⟩, ⟨3⟩, ⟨6⟩]]
    order := [⟨0⟩]
    locations := #[.bytes ⟨0⟩ 0 4, .bytes ⟨1⟩ 0 4]
    records := #[⟨some ⟨0⟩, none, .ofList [⟨5⟩]⟩, ⟨some ⟨1⟩, none, .ofList [⟨5⟩]⟩,
      ⟨none, none, .ofList [⟨1⟩, ⟨3⟩]⟩]
    edgeCounts := some ⟨2, 0, 0, 0⟩ }

set_option maxRecDepth 20000 in
/-- The load in place of the indirect load keeps the edge from `x = 1` only. -/
theorem refineRegion_narrowedLoad : ∃ summary r',
    (refineRegion ⟨.standard, true⟩).run .narrowedLoad = .ok (summary, r') ∧
    ∀ x y, r'.Edge x y → r'.Edge y x ∧ r'.Justified x y := by
  have kept := refineRegion_edges_justified ⟨.standard, true⟩ .narrowedLoad (by decide)
    (Region.forall_edge (P := fun x y => Region.narrowedLoad.Edge y x) (by
      show ∀ i < 7, ∀ p ∈ (Region.narrowedLoad.accessOf ⟨i⟩).peers.toList,
        ⟨i⟩ ∈ (Region.narrowedLoad.accessOf p).peers
      decide))
    (Region.forall_edge (P := fun x y => Region.narrowedLoad.Justified x y) (by
      intro i inside p mem
      have unknown : ∀ i < 7, ∀ p ∈ (Region.narrowedLoad.accessOf ⟨i⟩).peers.toList,
          Region.narrowedLoad.referenced ⟨i⟩ = [] ∨ Region.narrowedLoad.referenced p = [] := by
        decide
      rcases unknown i inside p mem with none | none
      · exact .inl none
      · exact .inr (.inl none)))
  obtain ⟨summary, r', ran⟩ := Meets.returns (m := refineRegion ⟨.standard, true⟩)
    (r := .narrowedLoad) (Q := fun _ _ => True) (by decide +kernel)
  exact ⟨summary, r', ran, kept.2 summary r' ran⟩

/-- `$1 = (x + x) * 0; x = -1`, where the store reaches both loads, which have one record in
common. -/
def Region.sharedRecord : Region :=
  { Region.empty ⟨8⟩ with
    nodes := #[
      some { Node.fresh .ld (.scalar .i32) (.ofVar ⟨0⟩ 0) [] with
        parent := some ⟨2⟩, record := some ⟨1⟩ },
      some { Node.fresh .ld (.scalar .i32) (.ofVar ⟨0⟩ 0) [] with
        parent := some ⟨2⟩, record := some ⟨1⟩ },
      some { Node.fresh .add (.scalar .i32) .none [[⟨0⟩], [⟨1⟩]] with parent := some ⟨4⟩ },
      some { Node.fresh .const (.scalar .i32) (.ofLiteral (.int 0)) [] with parent := some ⟨4⟩ },
      some { Node.fresh .mul (.scalar .i32) .none [[⟨2⟩], [⟨3⟩]] with parent := some ⟨5⟩ },
      some { Node.fresh .stpr (.scalar .i32) (.ofRegister 1) [[⟨4⟩]] with block := some ⟨0⟩ },
      some { Node.fresh .const (.scalar .i32) (.ofLiteral (.int 1)) [] with parent := some ⟨7⟩ },
      some { Node.fresh .neg (.scalar .i32) .none [[⟨6⟩]] with parent := some ⟨8⟩ },
      some { Node.fresh .st (.scalar .i32) (.ofVar ⟨0⟩ 0) [[⟨7⟩]] with
        block := some ⟨0⟩, record := some ⟨0⟩ }]
    blocks := #[[⟨5⟩, ⟨8⟩]]
    order := [⟨0⟩]
    records := #[⟨none, none, .ofList [⟨0⟩, ⟨1⟩]⟩, ⟨none, none, .ofList [⟨8⟩]⟩]
    edgeCounts := some ⟨2, 0, 0, 0⟩ }

set_option maxRecDepth 20000 in
/-- Cutting one load out of its edges empties the record of both, so the store keeps an edge to
a load that is released. -/
theorem sharedRecord_stale :
    (∀ x y, Region.sharedRecord.Edge x y → Region.sharedRecord.Edge y x) ∧
    (∀ x y, Region.sharedRecord.Edge x y → Region.sharedRecord.Justified x y) ∧
    (refineRegion ⟨.standard, true⟩).run .sharedRecord = .error (.violation (.staleEdge ⟨8⟩)) := by
  refine ⟨Region.forall_edge ?_, Region.forall_edge fun i inside p mem => .inl ?_, ?_⟩
  · show ∀ i < 9, ∀ p ∈ (Region.sharedRecord.accessOf ⟨i⟩).peers.toList,
      ⟨i⟩ ∈ (Region.sharedRecord.accessOf p).peers
    decide
  · have unknown : ∀ i < 9, Region.sharedRecord.referenced ⟨i⟩ = [] := by decide
    exact unknown i inside
  · exact Meets.stops (by decide +kernel)

end Peephole
