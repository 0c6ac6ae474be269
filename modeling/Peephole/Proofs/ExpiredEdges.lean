import Peephole.Proofs.Custody
import Peephole.Proofs.Dropping
import Peephole.Proofs.Justified
import Peephole.Proofs.Records

/-!
# Expired edges

An edge has expired if both of its ends refer to locations, but no byte can belong to both. A sweep
over a tree drops the expired edges of its nodes and no others, counts each of them once, and says
whether there was one; a second sweep finds nothing (`dropExpired_exact`).
-/

namespace Peephole

open Edit

variable {r r' r'' : Region} {n x y p : NodeId} {c : EdgeCounts} {ms ps : List NodeId}
  {E E' : NodeId → NodeId → Prop} {a b : Bool}

/-- A byte of one variable may belong to both locations; an inexact one may be any part of it. -/
def Location.ShareByte (l m : Location) : Prop :=
  l.var = m.var ∧ (l.exact = true → m.exact = true →
    ∃ i : Int, (l.ofst ≤ i ∧ i < l.ofst + l.size) ∧ m.ofst ≤ i ∧ i < m.ofst + m.size)

/-- An exact location has bytes, and their end is an offset. -/
def Location.Sound (l : Location) : Prop :=
  l.exact = true → 0 < l.size ∧ fitsOffset (l.ofst + l.size) = true

instance (l : Location) : Decidable l.Sound := inferInstanceAs (Decidable (_ → _ ∧ _))

theorem Location.shareByte_iff {l m : Location} (hl : l.Sound) (hm : m.Sound) :
    l.ShareByte m ↔ l.Overlap m := by
  refine and_congr_right fun _ => imp_congr_right fun exactL => imp_congr_right fun exactM => ?_
  have := (hl exactL).1
  have := (hm exactM).1
  constructor
  · rintro ⟨i, inL, inM⟩
    omega
  · intro both
    exact ⟨max l.ofst m.ofst, by omega, by omega⟩

theorem Location.ShareByte.refl {l : Location} (h : l.Sound) : l.ShareByte l := by
  refine ⟨rfl, fun exact _ => ⟨l.ofst, ?_⟩⟩
  have := (h exact).1
  omega

namespace Region

/-- What the records refer to exists, and its exact locations are sound. -/
structure Described (r : Region) : Prop where
  sets : ∀ n s, (r.accessOf n).may = some s → s.index < r.locationSets.size
  known : ∀ n, ∀ a ∈ r.referenced n, ∃ l ∈ r.locations[a.index]?, l.Sound

/-- Both ends refer to locations, and no location of one end shares a byte with one of the other. -/
def Apart (r : Region) (x y : NodeId) : Prop :=
  r.referenced x ≠ [] ∧ r.referenced y ≠ [] ∧
    ∀ a ∈ r.referenced x, ∀ b ∈ r.referenced y, ∀ l m, r.locations[a.index]? = some l →
      r.locations[b.index]? = some m → ¬l.ShareByte m

theorem apart_iff (h : r.Described) : r.Apart x y ↔ ¬r.Justified x y := by
  constructor
  · rintro ⟨someX, someY, apart⟩ (none | none | ⟨a, memA, b, memB, overlap⟩)
    · exact someX none
    · exact someY none
    · obtain ⟨l, atA, soundL⟩ := h.known x a memA
      obtain ⟨m, atB, soundM⟩ := h.known y b memB
      rcases overlap with rfl | ⟨l', m', atA', atB', overlap⟩
      · exact apart a memA a memB l l atA atA (.refl soundL)
      · obtain rfl := Option.some.inj (atA.symm.trans atA')
        obtain rfl := Option.some.inj (atB.symm.trans atB')
        exact apart a memA b memB l m atA atB ((Location.shareByte_iff soundL soundM).mpr overlap)
  · intro unjustified
    refine ⟨fun none => unjustified (.inl none), fun none => unjustified (.inr (.inl none)), ?_⟩
    intro a memA b memB l m atA atB shared
    obtain ⟨l', atA', soundL⟩ := h.known x a memA
    obtain ⟨m', atB', soundM⟩ := h.known y b memB
    obtain rfl := Option.some.inj (atA.symm.trans atA')
    obtain rfl := Option.some.inj (atB.symm.trans atB')
    have overlap := (Location.shareByte_iff soundL soundM).mp shared
    exact unjustified (.inr (.inr ⟨a, memA, b, memB, .inr ⟨l, m, atA, atB, overlap⟩⟩))

/-! ### Questions that are answered -/

theorem touched_of (filed : r.Filed) (h : r.Described) (live : r.Live n) :
    r.touched n = .ok (r.referenced n) := by
  cases may : (r.accessOf n).may with
  | none =>
    simp [touched, referenced, access_of filed.recorded live, may, bind, Except.bind, pure,
      Except.pure]
  | some s =>
    have look := Array.getElem?_eq_getElem (h.sets n s may)
    simp [touched, referenced, access_of filed.recorded live, may, locationSet, lookup_of look,
      look, bind, Except.bind, pure, Except.pure]

theorem anyM_of {α : Type} {f : α → Except Fault Bool} {xs : List α}
    (each : ∀ x ∈ xs, ∃ v, f x = .ok v) : ∃ v, xs.anyM f = .ok v := by
  induction xs with
  | nil => exact ⟨false, rfl⟩
  | cons x xs ih =>
    obtain ⟨v, here⟩ := each x List.mem_cons_self
    rw [List.anyM, here]
    cases v with
    | true => exact ⟨true, rfl⟩
    | false => exact ih fun y mem => each y (List.mem_cons_of_mem x mem)

theorem locationsOverlap_of {a b : LocationId} {l m : Location}
    (atA : r.locations[a.index]? = some l)
    (soundL : l.Sound) (atB : r.locations[b.index]? = some m) (soundM : m.Sound) :
    ∃ v, r.locationsOverlap a b = .ok v := by
  rw [locationsOverlap]
  split
  · exact ⟨true, rfl⟩
  · simp only [location, lookup_of atA, lookup_of atB, bind, Except.bind, Location.overlaps]
    split
    · exact ⟨false, rfl⟩
    · split
      · exact ⟨true, rfl⟩
      · rename_i exact
        simp only [Bool.or_eq_true, Bool.not_eq_true', not_or, Bool.not_eq_false] at exact
        exact ⟨_, by simp only [addOffsets, soundL exact.1, soundM exact.2, if_true]; rfl⟩

theorem edgeJustified_of (filed : r.Filed) (h : r.Described) (liveX : r.Live x) (liveY : r.Live y) :
    ∃ v, r.edgeJustified x y = .ok v := by
  simp only [edgeJustified, touched_of filed h liveX, touched_of filed h liveY, bind, Except.bind]
  split
  · exact ⟨true, rfl⟩
  · refine anyM_of fun a memA => anyM_of fun b memB => ?_
    obtain ⟨l, atA, soundL⟩ := h.known x a memA
    obtain ⟨m, atB, soundM⟩ := h.known y b memB
    exact locationsOverlap_of atA soundL atB soundM

/-! ### Edges as pairs -/

instance : Decidable (r.Edge x y) := inferInstanceAs (Decidable (y ∈ (r.accessOf x).peers))

/-- The edges, each as the pair of its ends. -/
def edges (r : Region) : Finset (Sym2 NodeId) :=
  ((List.range r.nodes.size).flatMap fun i =>
    (r.accessOf ⟨i⟩).peers.toList.map fun p => s(⟨i⟩, p)).toFinset

theorem mem_edges : s(x, y) ∈ r.edges ↔ r.Edge x y ∨ r.Edge y x := by
  have inside {x y : NodeId} (edge : r.Edge x y) : x.index < r.nodes.size := by
    obtain ⟨d, found⟩ := edge.live
    exact lt_size_of_node? found
  simp only [edges, List.mem_toFinset, List.mem_flatMap, List.mem_range, List.mem_map, Sym2.eq_iff]
  constructor
  · rintro ⟨i, _, q, mem, ⟨rfl, rfl⟩ | ⟨rfl, rfl⟩⟩
    · exact .inl mem
    · exact .inr mem
  · rintro (edge | edge)
    · exact ⟨x.index, inside edge, y, edge, .inl ⟨rfl, rfl⟩⟩
    · exact ⟨y.index, inside edge, x, edge, .inr ⟨rfl, rfl⟩⟩

/-- How many edges of `r` are gone in `r'`. -/
def lost (r r' : Region) : Nat := (r.edges \ r'.edges).card

end Region

/-! ### Dropping edges -/

/-- From `r` to `r'`, the edges outside of `E` were dropped and counted. -/
structure Pruned (E : NodeId → NodeId → Prop) (r r' : Region) (dropped : Bool) : Prop where
  rest : ∃ records counts events,
    r' = { r with records := records, edgeCounts := counts, events := events }
  relinked : Relinked r r' fun x y => r.Edge x y ∧ E x y
  counted : r'.edgeCounts = r.edgeCounts.map fun c => { c with expired := c.expired + r.lost r' }
  flag : dropped = true ↔ 0 < r.lost r'
  still : dropped = false → r' = r

namespace Pruned

theorem edges_subset (h : Pruned E r r' a) : r'.edges ⊆ r.edges := by
  intro e
  induction e using Sym2.ind with
  | _ x y =>
    rw [Region.mem_edges, Region.mem_edges, h.relinked.edge, h.relinked.edge]
    tauto

theorem refl (filed : r.Filed) (all : ∀ x y, r.Edge x y → E x y) : Pruned E r r false := by
  have none : r.lost r = 0 := by simp [Region.lost]
  refine ⟨⟨_, _, _, rfl⟩, (Relinked.refl filed).congr fun x y => ?_, ?_, ?_, fun _ => rfl⟩
  · exact ⟨fun edge => ⟨edge, all x y edge⟩, And.left⟩
  · rw [none]
    cases r.edgeCounts <;> rfl
  · simp [none]

theorem lost_add (first : Pruned E r r' a) (second : Pruned E' r' r'' b) :
    r.lost r'' = r.lost r' + r'.lost r'' := by
  have sub₁ := first.edges_subset
  have sub₂ := second.edges_subset
  have := Finset.card_le_card sub₁
  have := Finset.card_le_card sub₂
  rw [Region.lost, Region.lost, Region.lost, Finset.card_sdiff_of_subset (sub₂.trans sub₁),
    Finset.card_sdiff_of_subset sub₁, Finset.card_sdiff_of_subset sub₂]
  omega

theorem trans (first : Pruned E r r' a) (second : Pruned E' r' r'' b) :
    Pruned (fun x y => E x y ∧ E' x y) r r'' (a || b) := by
  have sum := first.lost_add second
  refine ⟨?_, ?_, ?_, ?_, fun off => ?_⟩
  · obtain ⟨_, _, _, rfl⟩ := first.rest
    obtain ⟨_, _, _, rfl⟩ := second.rest
    exact ⟨_, _, _, rfl⟩
  · refine (first.relinked.trans second.relinked).congr fun x y => ?_
    rw [first.relinked.edge, and_assoc]
  · rw [second.counted, first.counted, Option.map_map, sum]
    congr 1
    funext c
    simp [Nat.add_assoc]
  · rw [Bool.or_eq_true, first.flag, second.flag, sum]
    omega
  · obtain ⟨offA, offB⟩ := Bool.or_eq_false_iff.mp off
    rw [second.still offB, first.still offA]

theorem congr (h : Pruned E r r' a) (same : ∀ x y, r.Edge x y → (E x y ↔ E' x y)) :
    Pruned E' r r' a :=
  ⟨h.rest, h.relinked.congr fun x y => and_congr_right (same x y), h.counted, h.flag, h.still⟩

theorem node (h : Pruned E r r' a) : r'.node? = r.node? := by
  obtain ⟨_, _, _, rfl⟩ := h.rest
  rfl

theorem paired (h : Pruned E r r' a) (paired : r.Paired) (symm : ∀ x y, E x y → E y x) :
    r'.Paired := by
  refine ⟨h.relinked.filed, fun x y => ?_⟩
  rw [h.relinked.edge, h.relinked.edge]
  exact fun both => ⟨paired.symm x y both.1, symm x y both.2⟩

theorem described (h : Pruned E r r' a) (described : r.Described) : r'.Described := by
  refine ⟨fun n s may => ?_, fun n a mem => ?_⟩
  · rw [h.relinked.may] at may
    rw [h.relinked.sets]
    exact described.sets n s may
  · rw [h.relinked.referenced] at mem
    rw [h.relinked.locations]
    exact described.known n a mem

end Pruned

/-- Both ends of an edge are live. -/
theorem Region.Paired.live (paired : r.Paired) (edge : r.Edge x y) : r.Live x ∧ r.Live y :=
  ⟨edge.live, (paired.symm x y edge).live⟩

theorem forgetPeer_returns (filed : r.Filed) (live : r.Live n) :
    Meets (forgetPeer n p) r (fun _ => False) fun _ r' => ∃ rs, r' = { r with records := rs } := by
  obtain ⟨d, found⟩ := live
  simp only [forgetPeer, modifyOwnAccess, modifyAccess, isReleased, Edit.node, meets_bind,
    meets_get, meets_pure, Region.isReleased_of found, Bool.not_false, if_true, meets_ask,
    Region.node_of found, yields_ok]
  cases record : d.record with
  | none => exact ⟨r.records, rfl⟩
  | some i =>
    have inside := filed.inside n i (by rw [Region.recordOf_of found, record])
    have look := Region.lookup_of (Array.getElem?_eq_getElem inside)
    simp only [Option.isSome_some, if_true, meets_bind, meets_ask, Region.node_of found, yields_ok,
      record, look, meets_modify]
    exact ⟨_, rfl⟩

theorem unlinkEdge_returns {x y : NodeId} (filed : r.Filed) (liveX : r.Live x) (liveY : r.Live y) :
    Meets (unlinkEdge x y) r (fun _ => False) fun _ r' => ∃ rs, r' = { r with records := rs } := by
  refine Meets.bind ((forgetPeer_returns filed liveX).and (forgetPeer_relinks filed)) ?_
  rintro _ r₁ ⟨⟨rs, rfl⟩, forgot⟩
  refine (forgetPeer_returns forgot.filed liveY).to ?_
  rintro _ r₂ ⟨rs', rfl⟩
  exact ⟨rs', rfl⟩

/-- An edge is judged, and dropped if it has expired. -/
theorem dropIfExpired_returns (paired : r.Paired) (described : r.Described)
    (counts : r.edgeCounts = some c) (edge : r.Edge n p) :
    Meets (dropIfExpired n p) r (fun _ => False) fun dropped r' =>
      (r.Justified n p ∧ dropped = false ∧ r' = r) ∨
      (¬r.Justified n p ∧ dropped = true ∧ ∃ records events, r' = { r with
        records := records, edgeCounts := some { c with expired := c.expired + 1 }, events :=
          events }) := by
  obtain ⟨liveN, liveP⟩ := paired.live edge
  have sweep {x y : NodeId} (liveX : r.Live x) (liveY : r.Live y)
      (ends : r.Justified x y ↔ r.Justified n p) : Yields (r.edgeJustified x y) (fun _ => False)
      fun just => Meets (do
        if just then return false
        report (.expiredEdge x y)
        unlinkEdge x y
        count .dropExpired fun c => { c with expired := c.expired + 1 }
        return true) r (fun _ => False) fun dropped r' =>
      (r.Justified n p ∧ dropped = false ∧ r' = r) ∨
      (¬r.Justified n p ∧ dropped = true ∧ ∃ records events, r' = { r with
        records := records, edgeCounts := some { c with expired := c.expired + 1 }, events :=
          events }) := by
    obtain ⟨just, found⟩ := Region.edgeJustified_of paired.filed described liveX liveY
    have judged := (Region.edgeJustified_iff found).trans ends
    rw [found, yields_ok]
    cases just with
    | true => exact .inl ⟨judged.mp rfl, rfl, rfl⟩
    | false =>
      have no : ¬r.Justified n p := fun just => Bool.false_ne_true (judged.mpr just)
      simp only [Bool.false_eq_true, if_false, report, meets_bind, meets_modify, meets_pure]
      have noted : SameRecords r { r with events := r.events.push (.expiredEdge x y) } :=
        ⟨rfl, rfl, rfl, rfl, rfl⟩
      refine (unlinkEdge_returns (noted.filed paired.filed) liveX liveY).to ?_
      rintro _ _ ⟨rs, rfl⟩
      simp only [count, counts, meets_bind, meets_get, meets_modify]
      exact .inr ⟨no, trivial, rs, _, rfl⟩
  obtain ⟨d, foundP⟩ := liveP
  obtain ⟨e, foundN⟩ := liveN
  simp only [dropIfExpired, isReleased, Edit.isStmt, Edit.node, meets_bind, meets_get, meets_pure,
    meets_ask, Region.isReleased_of foundP, Region.node_of foundN, yields_ok, Bool.false_eq_true,
    if_false]
  split
  · exact sweep ⟨e, foundN⟩ ⟨d, foundP⟩ Iff.rfl
  · exact sweep ⟨d, foundP⟩ ⟨e, foundN⟩ ⟨.symm, .symm⟩

theorem dropIfExpired_prunes (paired : r.Paired) (described : r.Described)
    (counts : r.edgeCounts = some c) (edge : r.Edge n p) :
    Meets (dropIfExpired n p) r (fun _ => False) fun dropped r' =>
      Pruned (fun x y => x = n ∧ y = p ∨ x = p ∧ y = n → r.Justified x y) r r' dropped := by
  obtain ⟨d, foundP⟩ := (paired.live edge).2
  refine ((dropIfExpired_returns paired described counts edge).and
    (dropIfExpired_relinks paired.filed (Region.isReleased_of foundP))).to ?_
  rintro dropped r' ⟨⟨just, rfl, rfl⟩ | ⟨no, rfl, records, events, shape⟩, relinked, _⟩
  · refine .refl paired.filed ?_
    rintro x y _ (⟨rfl, rfl⟩ | ⟨rfl, rfl⟩)
    · exact just
    · exact just.symm
  · have relinked : Relinked r r' fun x y => r.Edge x y ∧
        (x = n ∧ y = p ∨ x = p ∧ y = n → r.Justified x y) :=
      relinked.congr fun x y => by simp only [not_and, not_not]
    have back : ¬r.Justified p n := fun just => no just.symm
    have edges : r'.edges = r.edges.erase s(n, p) := by
      ext e
      induction e using Sym2.ind with
      | _ x y =>
        rw [Finset.mem_erase, Region.mem_edges, Region.mem_edges, relinked.edge, relinked.edge, Ne,
          Sym2.eq_iff]
        grind
    have one : r.lost r' = 1 := by
      rw [Region.lost, edges, Finset.sdiff_erase_self (Region.mem_edges.mpr (.inl edge)),
        Finset.card_singleton]
    refine ⟨⟨_, _, _, shape⟩, relinked, ?_, by simp [one], fun off => Bool.noConfusion off⟩
    rw [one, counts, shape]
    rfl

/-- The expired edges of one node. -/
theorem dropExpiredAt_prunes (paired : r.Paired) (described : r.Described)
    (counts : r.edgeCounts.isSome = true) (edges : ∀ p ∈ ps, r.Edge n p) (distinct : ps.Nodup) :
    Meets (someOf (dropIfExpired n) ps) r (fun _ => False) fun dropped r' =>
      Pruned (fun x y => x = n ∧ y ∈ ps ∨ x ∈ ps ∧ y = n → r.Justified x y) r r' dropped := by
  induction ps generalizing r with
  | nil => exact .refl paired.filed (by simp)
  | cons p ps ih =>
    obtain ⟨fresh, distinct⟩ := List.nodup_cons.mp distinct
    obtain ⟨c, counted⟩ := Option.isSome_iff_exists.mp counts
    rw [meets_someOf_cons]
    refine (dropIfExpired_prunes paired described counted (edges p List.mem_cons_self)).to ?_
    intro here r₁ first
    have paired₁ := first.paired paired fun x y just ends => (just (by tauto)).symm
    have edges₁ : ∀ q ∈ ps, r₁.Edge n q := by
      intro q mem
      refine (first.relinked.edge n q).mpr ⟨edges q (List.mem_cons_of_mem p mem), ?_⟩
      rintro (⟨_, rfl⟩ | ⟨rfl, rfl⟩)
      · exact absurd mem fresh
      · exact absurd mem fresh
    refine (ih paired₁ (first.described described)
      (by rw [first.counted]; simpa using counts) edges₁
      distinct).to ?_
    intro there r₂ rest
    refine (first.trans rest).congr fun x y _ => ?_
    rw [first.relinked.justified]
    simp only [List.mem_cons]
    grind

theorem dropExpiredOf_prunes (paired : r.Paired) (described : r.Described)
    (counts : r.edgeCounts.isSome = true) (live : ∀ x ∈ ms, r.Live x) :
    Meets (dropExpiredOf ms) r (fun _ => False) fun dropped r' =>
      Pruned (fun x y => x ∈ ms ∨ y ∈ ms → r.Justified x y) r r' dropped := by
  induction ms generalizing r with
  | nil => exact .refl paired.filed (by simp)
  | cons n ms ih =>
    unfold dropExpiredOf
    rw [meets_someOf_cons, meets_bind, meets_ask,
      Region.peers_of paired.filed.recorded (live n List.mem_cons_self), yields_ok]
    refine (dropExpiredAt_prunes paired described counts (fun _ => id) (HandleSet.nodup _)).to ?_
    intro here r₁ first
    have first : Pruned (fun x y => x = n ∨ y = n → r.Justified x y) r r₁ here := by
      refine first.congr fun x y edge => ?_
      have back := paired.symm x y edge
      have listed (p : NodeId) : p ∈ (r.accessOf n).peers.toList ↔ r.Edge n p := Iff.rfl
      rw [listed, listed]
      grind
    have paired₁ := first.paired paired fun x y just ends => (just (by tauto)).symm
    have live₁ : ∀ x ∈ ms, r₁.Live x := by
      intro x mem
      rw [Region.Live, first.node]
      exact live x (List.mem_cons_of_mem n mem)
    refine (ih paired₁ (first.described described) (by rw [first.counted]; simpa using counts)
      live₁).to ?_
    intro there r₂ rest
    refine (first.trans rest).congr fun x y _ => ?_
    rw [first.relinked.justified]
    simp only [List.mem_cons]
    grind

/-- A sweep over the nodes at and below `n` drops their expired edges and no others, leaves what
nodes refer to, counts the edges it drops and says whether there were any. A second one changes
nothing. -/
theorem dropExpired_exact (counts : r.edgeCounts = some c) (paired : r.Paired)
    (described : r.Described) (walk : r.subtree n = .ok ms) :
    ∃ dropped r', (dropExpired n).run r = .ok (dropped, r') ∧
      (∃ records counts events,
        r' = { r with records := records, edgeCounts := counts, events := events }) ∧
      (∀ x y, r'.Edge x y ↔ r.Edge x y ∧ ¬((x ∈ ms ∨ y ∈ ms) ∧ r.Apart x y)) ∧
      (∀ x, (r'.accessOf x).must = (r.accessOf x).must ∧ (r'.accessOf x).may = (r.accessOf x).may) ∧
      r'.edgeCounts = some { c with expired := c.expired + r.lost r' } ∧
      (dropped = true ↔ 0 < r.lost r') ∧
      (dropExpired n).run r' = .ok (false, r') := by
  have live : ∀ x ∈ ms, r.Live x := fun x mem => (Region.mem_walk walk mem).1
  have sweep : Meets (dropExpired n) r (fun _ => False) fun dropped r' =>
      Pruned (fun x y => x ∈ ms ∨ y ∈ ms → r.Justified x y) r r' dropped := by
    simp only [dropExpired, Edit.subtree, meets_bind, meets_ask, walk, yields_ok]
    exact dropExpiredOf_prunes paired described (by rw [counts]; rfl) live
  obtain ⟨dropped, r', run, first⟩ := sweep.ends
  have walk' : r'.subtree n = .ok ms := by
    refine Region.subtree_congr walk ?_ ?_
    · obtain ⟨_, _, _, shape⟩ := first.rest
      rw [shape]
    · funext m
      rw [Region.core, Region.core, first.node]
  have counts' : r'.edgeCounts.isSome = true := by
    rw [first.counted, counts]
    rfl
  have again : Meets (dropExpired n) r' (fun _ => False) fun dropped r'' =>
      Pruned (fun x y => x ∈ ms ∨ y ∈ ms → r'.Justified x y) r' r'' dropped := by
    simp only [dropExpired, Edit.subtree, meets_bind, meets_ask, walk', yields_ok]
    refine dropExpiredOf_prunes (first.paired paired fun x y just ends => (just (by tauto)).symm)
      (first.described described) counts' fun x mem => ?_
    rw [Region.Live, first.node]
    exact live x mem
  obtain ⟨dropped', r'', run', second⟩ := again.ends
  have idle : dropped' = false := by
    have same : r''.edges = r'.edges := by
      ext e
      induction e using Sym2.ind with
      | _ x y =>
        rw [Region.mem_edges, Region.mem_edges, second.relinked.edge, second.relinked.edge,
          first.relinked.justified, first.relinked.justified, first.relinked.edge,
          first.relinked.edge]
        tauto
    have none : ¬0 < r'.lost r'' := by simp [Region.lost, same]
    exact Bool.eq_false_iff.mpr fun yes => none (second.flag.mp yes)
  rw [idle, second.still idle] at run'
  refine ⟨dropped, r', run, first.rest, fun x y => ?_, fun x => ?_, ?_, first.flag, run'⟩
  · rw [first.relinked.edge, Region.apart_iff described, not_and, not_not]
  · exact ⟨first.relinked.must x, first.relinked.may x⟩
  · rw [first.counted, counts]
    rfl

/-! ### Two regions -/

theorem Region.described_of_nodes (h : ∀ i < r.nodes.size,
    (∀ s ∈ (r.accessOf ⟨i⟩).may, s.index < r.locationSets.size) ∧
    ∀ a ∈ r.referenced ⟨i⟩, ∃ l ∈ r.locations[a.index]?, l.Sound) : r.Described := by
  have clean {n : NodeId} (out : ¬n.index < r.nodes.size) : r.accessOf n = .clean := by
    refine accessOf_of_none ?_
    cases found : r.node? n with
    | none => rw [recordOf, found, Option.bind_none]
    | some d => exact absurd (lt_size_of_node? found) out
  refine ⟨fun n s may => ?_, fun n a mem => ?_⟩
  · by_cases inside : n.index < r.nodes.size
    · exact (h n.index inside).1 s may
    · rw [clean inside] at may
      cases may
  · by_cases inside : n.index < r.nodes.size
    · exact (h n.index inside).2 a mem
    · rw [referenced, clean inside] at mem
      exact absurd mem List.not_mem_nil

/-- `$1 = x.hi; x.lo = 1; x = 2; $2 = x.hi`, where both stores reach the first load and the store to
the low half reaches the second one too. -/
def Region.twoHalves : Region :=
  { Region.empty ⟨8⟩ with
    nodes := #[
      some { Node.fresh .ld (.scalar .i32) (.ofVar ⟨0⟩ 4) [] with
        parent := some ⟨1⟩, record := some ⟨0⟩ },
      some { Node.fresh .stpr (.scalar .i32) (.ofRegister 1) [[⟨0⟩]] with block := some ⟨0⟩ },
      some { Node.ofInt 1 (.scalar .i32) with parent := some ⟨3⟩ },
      some { Node.fresh .st (.scalar .i32) (.ofVar ⟨0⟩ 0) [[⟨2⟩]] with
        block := some ⟨0⟩, record := some ⟨1⟩ },
      some { Node.ofInt 2 (.scalar .i64) with parent := some ⟨5⟩ },
      some { Node.fresh .st (.scalar .i64) (.ofVar ⟨0⟩ 0) [[⟨4⟩]] with
        block := some ⟨0⟩, record := some ⟨2⟩ },
      some { Node.fresh .ld (.scalar .i32) (.ofVar ⟨0⟩ 4) [] with
        parent := some ⟨7⟩, record := some ⟨3⟩ },
      some { Node.fresh .stpr (.scalar .i32) (.ofRegister 2) [[⟨6⟩]] with block := some ⟨0⟩ }]
    blocks := #[[⟨1⟩, ⟨3⟩, ⟨5⟩, ⟨7⟩]]
    locations := #[.bytes ⟨0⟩ 0 4, .bytes ⟨0⟩ 4 4, .whole ⟨0⟩]
    locationSets := #[⟨[⟨2⟩], by simp⟩]
    records := #[
      ⟨some ⟨1⟩, none, ⟨[⟨3⟩, ⟨5⟩], by simp⟩⟩, ⟨some ⟨0⟩, none, ⟨[⟨0⟩, ⟨6⟩], by simp⟩⟩,
      ⟨none, some ⟨0⟩, ⟨[⟨0⟩], by simp⟩⟩, ⟨some ⟨1⟩, none, ⟨[⟨3⟩], by simp⟩⟩]
    edgeCounts := some ⟨3, 0, 0, 0⟩ }

/-- Below the first statement one edge has expired; the second load keeps the edge of its own. -/
theorem dropExpired_twoHalves : ∃ r',
    (dropExpired ⟨1⟩).run .twoHalves = .ok (true, r') ∧
    ¬r'.Edge ⟨0⟩ ⟨3⟩ ∧ r'.Edge ⟨0⟩ ⟨5⟩ ∧ r'.Edge ⟨6⟩ ⟨3⟩ ∧
    r'.edgeCounts = some ⟨3, 0, 0, Region.twoHalves.lost r'⟩ ∧ 0 < Region.twoHalves.lost r' ∧
    (dropExpired ⟨1⟩).run r' = .ok (false, r') := by
  have described : Region.twoHalves.Described := by
    refine Region.described_of_nodes ?_
    show ∀ i < 8, (∀ s ∈ (Region.twoHalves.accessOf ⟨i⟩).may, s.index < 1) ∧
      ∀ a ∈ Region.twoHalves.referenced ⟨i⟩, ∃ l ∈ Region.twoHalves.locations[a.index]?, l.Sound
    decide
  have paired : Region.twoHalves.Paired := by
    refine ⟨by decide, Region.forall_edge ?_⟩
    show ∀ i < 8, ∀ p ∈ (Region.twoHalves.accessOf ⟨i⟩).peers.toList,
      ⟨i⟩ ∈ (Region.twoHalves.accessOf p).peers
    decide
  have walk : Region.twoHalves.subtree ⟨1⟩ = .ok [⟨1⟩, ⟨0⟩] := rfl
  obtain ⟨dropped, r', run, _, edge, _, counted, flag, again⟩ :=
    dropExpired_exact rfl paired described walk
  have ran : Meets (dropExpired ⟨1⟩) .twoHalves (fun _ => False) fun dropped _ =>
      dropped = true := by
    decide +kernel
  obtain rfl := (meets_iff.mp ran).1 dropped r' run
  have apart : Region.twoHalves.Apart ⟨0⟩ ⟨3⟩ := by
    refine ⟨by decide, by decide, fun a memA b memB l m atA atB shared => ?_⟩
    obtain rfl : a = ⟨1⟩ := List.mem_singleton.mp memA
    obtain rfl : b = ⟨0⟩ := List.mem_singleton.mp memB
    obtain rfl : Location.bytes ⟨0⟩ 4 4 = l := Option.some.inj atA
    obtain rfl : Location.bytes ⟨0⟩ 0 4 = m := Option.some.inj atB
    obtain ⟨i, inL, inM⟩ := shared.2 rfl rfl
    simp only [Location.bytes] at inL inM
    omega
  have near : ¬Region.twoHalves.Apart ⟨0⟩ ⟨5⟩ := by
    rintro ⟨_, _, apart⟩
    exact apart ⟨1⟩ (by decide) ⟨2⟩ (by decide) _ _ rfl rfl ⟨rfl, fun _ off => Bool.noConfusion off⟩
  refine ⟨r', run, fun now => ?_, ?_, ?_, counted.trans ?_, flag.mp rfl, again⟩
  · exact ((edge _ _).mp now).2 ⟨by decide, apart⟩
  · exact (edge _ _).mpr ⟨by decide, fun both => near both.2⟩
  · exact (edge _ _).mpr ⟨by decide, fun both => absurd both.1 (by decide)⟩
  · rw [Nat.zero_add]

/-- As `twoHalves`, without the store to all of `x`, and the loads have one record in common. -/
def Region.sharedRead : Region :=
  { Region.empty ⟨8⟩ with
    nodes := #[
      some { Node.fresh .ld (.scalar .i32) (.ofVar ⟨0⟩ 4) [] with
        parent := some ⟨1⟩, record := some ⟨0⟩ },
      some { Node.fresh .stpr (.scalar .i32) (.ofRegister 1) [[⟨0⟩]] with block := some ⟨0⟩ },
      some { Node.fresh .ld (.scalar .i32) (.ofVar ⟨0⟩ 4) [] with
        parent := some ⟨3⟩, record := some ⟨0⟩ },
      some { Node.fresh .stpr (.scalar .i32) (.ofRegister 2) [[⟨2⟩]] with block := some ⟨0⟩ },
      some { Node.ofInt 1 (.scalar .i32) with parent := some ⟨5⟩ },
      some { Node.fresh .st (.scalar .i32) (.ofVar ⟨0⟩ 0) [[⟨4⟩]] with
        block := some ⟨0⟩, record := some ⟨1⟩ }]
    blocks := #[[⟨1⟩, ⟨3⟩, ⟨5⟩]]
    locations := #[.bytes ⟨0⟩ 0 4, .bytes ⟨0⟩ 4 4]
    records := #[
      ⟨some ⟨1⟩, none, ⟨[⟨5⟩], by simp⟩⟩, ⟨some ⟨0⟩, none, ⟨[⟨0⟩, ⟨2⟩], by simp⟩⟩]
    edgeCounts := some ⟨2, 0, 0, 0⟩ }

/-- Edges led both ways, and a sweep over the first statement takes one end of the edge that the
second one has. -/
theorem dropExpired_sharedRead : (∀ x y, Region.sharedRead.Edge x y → Region.sharedRead.Edge y x) ∧
    ∃ r', (dropExpired ⟨1⟩).run .sharedRead = .ok (true, r') ∧
      Region.sharedRead.subtree ⟨1⟩ = .ok [⟨1⟩, ⟨0⟩] ∧
      r'.Edge ⟨5⟩ ⟨2⟩ ∧ Region.sharedRead.Edge ⟨2⟩ ⟨5⟩ ∧ ¬r'.Edge ⟨2⟩ ⟨5⟩ := by
  have ran : Meets (dropExpired ⟨1⟩) .sharedRead (fun _ => False) fun dropped r' => dropped = true ∧
      r'.Edge ⟨5⟩ ⟨2⟩ ∧ ¬r'.Edge ⟨2⟩ ⟨5⟩ := by
    decide +kernel
  obtain ⟨_, r', run, rfl, there, gone⟩ := ran.ends
  refine ⟨Region.forall_edge ?_, r', run, rfl, there, by decide, gone⟩
  show ∀ i < 6, ∀ p ∈ (Region.sharedRead.accessOf ⟨i⟩).peers.toList,
    ⟨i⟩ ∈ (Region.sharedRead.accessOf p).peers
  decide

end Peephole
