import Peephole.Proofs.Grove
import Peephole.Validate

/-!
# What validation decides

A region is valid if blocks list live statements that name them, the nodes reachable from there own
live kids that name them, and edges and values know their ends. Where no reachable node is below
itself, `Region.validate` finds nothing wrong just if the region is valid.
-/

namespace Peephole

open Relation

variable {α β : Type} {r : Region} {n m k : NodeId} {b : BlockId}

/-! ### The invariant -/

namespace Region

/-- `k` is a kid of the live node `n`. -/
def Kid (r : Region) (n k : NodeId) : Prop := ∃ d, r.node? n = some d ∧ k ∈ d.kids

/-- Live statements that blocks list are reachable, and so are live kids of reachable nodes. -/
inductive Reachable (r : Region) : NodeId → Prop
  | stmt {b : BlockId} {ss : List NodeId} {s : NodeId} (block : b ∈ r.order)
      (listed : r.stmts b = .ok ss) (mem : s ∈ ss) (live : r.Live s) : Reachable r s
  | kid {n k : NodeId} (above : Reachable r n) (kid : r.Kid n k) (live : r.Live k) : Reachable r k

/-- No reachable node is below itself. -/
def Acyclic (r : Region) : Prop := ∀ n, r.Reachable n → ¬TransGen r.Kid n n

/-- The node is live, and so are its kids, which name it as their parent. -/
def Linked (r : Region) (n : NodeId) : Prop :=
  ∃ d, r.node? n = some d ∧ ∀ k ∈ d.kids, ∃ e, r.node? k = some e ∧ e.parent = some n

structure Valid (r : Region) : Prop where
  /-- A block lists live statements that name it. -/
  listed : ∀ b ∈ r.order, ∃ ss, r.stmts b = .ok ss ∧
    ∀ s ∈ ss, ∃ d, r.node? s = some d ∧ d.block = some b
  /-- Kids are live and name their parent. -/
  linked : ∀ n, r.Reachable n → r.Linked n
  /-- Edges join reachable nodes, each of which lists the other. -/
  paired : ∀ n, r.Reachable n → ∃ ps, r.peers n = .ok ps ∧
    ∀ p ∈ ps, r.Reachable p ∧ ∃ qs, r.peers p = .ok qs ∧ n ∈ qs
  /-- The value of a register read lists the read. -/
  used : ∀ n d v, r.Reachable n → r.node? n = some d → d.code = .pr → d.ssa = some v →
    ∃ value, r.ssaValue v = .ok value ∧ n ∈ value.uses
  /-- Values are defined by nodes that are not released, and are read by live nodes that carry
  them. -/
  carried : ∀ n d v, r.Reachable n → r.node? n = some d → d.ssa = some v →
    ∃ value, r.ssaValue v = .ok value ∧ (∀ x, value.defn = some x → r.isReleased x = false) ∧
      ∀ u ∈ value.uses, ∃ e, r.node? u = some e ∧ e.ssa = some v

/-- Regions are acyclic if all kids were made before their parents. -/
theorem acyclic_of_made_before
    (before : ∀ i < r.nodes.size, ∀ k ∈ (r.kidsOf ⟨i⟩).getD [], k.index < i) : r.Acyclic := by
  have step (n k : NodeId) : r.Kid n k → k.index < n.index := by
    rintro ⟨d, found, mem⟩
    apply before n.index (lt_size_of_node? found)
    simpa [kidsOf, found] using mem
  have path (n m : NodeId) (below : TransGen r.Kid n m) : m.index < n.index := by
    induction below with
    | single kid => exact step _ _ kid
    | tail _ kid ih => exact (step _ _ kid).trans ih
  intro n _ cycle
  exact Nat.lt_irrefl _ (path n n cycle)

theorem Reachable.live (h : r.Reachable n) : r.Live n := by
  cases h with
  | stmt _ _ _ live => exact live
  | kid _ _ live => exact live

end Region

/-! ### Questions about lists -/

/-- A list of questions is answered just if each of them is. -/
theorem mapM_returns {f : α → Except Fault β} {xs : List α} :
    (∃ ys, xs.mapM f = .ok ys) ↔ ∀ x ∈ xs, ∃ y, f x = .ok y := by
  induction xs with
  | nil => exact ⟨fun _ => nofun, fun _ => ⟨[], rfl⟩⟩
  | cons x xs ih =>
    rw [List.forall_mem_cons, ← ih]
    simp only [List.mapM_cons, bind_eq_ok]
    constructor
    · rintro ⟨_, y, here, ys, there, _⟩
      exact ⟨⟨y, here⟩, ys, there⟩
    · rintro ⟨⟨y, here⟩, ys, there⟩
      exact ⟨y :: ys, y, here, ys, there, rfl⟩

theorem mem_mapM {f : α → Except Fault β} {xs : List α} {ys : List β}
    (h : xs.mapM f = .ok ys) {y : β} :
    y ∈ ys ↔ ∃ x ∈ xs, f x = .ok y := by
  induction xs generalizing ys with
  | nil =>
    obtain rfl : [] = ys := Except.ok.inj h
    simp
  | cons x xs ih =>
    rw [List.mapM_cons, bind_eq_ok] at h
    obtain ⟨z, here, rest⟩ := h
    obtain ⟨zs, there, built⟩ := bind_eq_ok.mp rest
    obtain rfl : z :: zs = ys := Except.ok.inj built
    rw [List.mem_cons, ih there, List.exists_mem_cons_iff, here, Except.ok.injEq, eq_comm]

/-- Nothing is wrong with a list just if nothing is wrong with any of its members. -/
theorem flatten_mapM_eq_nil {f : α → Except Fault (List β)} {xs : List α} :
    (∃ each, xs.mapM f = .ok each ∧ each.flatten = []) ↔ ∀ x ∈ xs, f x = .ok [] := by
  constructor
  · rintro ⟨each, asked, none⟩ x mem
    obtain ⟨y, answer⟩ := mapM_returns.mp ⟨each, asked⟩ x mem
    have empty : y = [] := List.flatten_eq_nil_iff.mp none y ((mem_mapM asked).mpr ⟨x, mem, answer⟩)
    rw [answer, empty]
  · intro clean
    obtain ⟨each, asked⟩ := mapM_returns.mpr fun x mem => ⟨[], clean x mem⟩
    refine ⟨each, asked, List.flatten_eq_nil_iff.mpr fun y mem => ?_⟩
    obtain ⟨x, mem, answer⟩ := (mem_mapM asked).mp mem
    exact Except.ok.inj (answer.symm.trans (clean x mem))

/-! ### Surveys -/

/-- The survey finds just the nodes that have `P`, and nothing wrong. -/
def Clean (x : Except Fault Survey) (P : NodeId → Prop) : Prop :=
  ∃ s, x = .ok s ∧ s.defects = [] ∧ ∀ m, m ∈ s.nodes ↔ P m

theorem Survey.defects_join {ss : List Survey} :
    (Survey.join ss).defects = [] ↔ ∀ s ∈ ss, s.defects = [] := by
  simp [Survey.join]

theorem Survey.mem_join {ss : List Survey} : m ∈ (Survey.join ss).nodes ↔
    ∃ s ∈ ss, m ∈ s.nodes := by
  simp [Survey.join]

theorem Clean.join {f : α → Except Fault Survey} {xs : List α} {P : α → NodeId → Prop}
    (each : ∀ x ∈ xs, Clean (f x) (P x)) :
    ∃ ss, xs.mapM f = .ok ss ∧ (∀ s ∈ ss, s.defects = []) ∧
      ∀ m, (∃ s ∈ ss, m ∈ s.nodes) ↔ ∃ x ∈ xs, P x m := by
  obtain ⟨ss, asked⟩ := mapM_returns.mpr fun x mem => (each x mem).imp fun _ clean => clean.1
  have found (x : α) (mem : x ∈ xs) (s : Survey) (answer : f x = .ok s) :
      s.defects = [] ∧ ∀ m, m ∈ s.nodes ↔ P x m := by
    obtain ⟨s', answer', clean⟩ := each x mem
    obtain rfl := Except.ok.inj (answer.symm.trans answer')
    exact clean
  refine ⟨ss, asked, fun s mem => ?_, fun m => ?_⟩
  · obtain ⟨x, mem, answer⟩ := (mem_mapM asked).mp mem
    exact (found x mem s answer).1
  · constructor
    · rintro ⟨s, mem, inside⟩
      obtain ⟨x, mem, answer⟩ := (mem_mapM asked).mp mem
      exact ⟨x, mem, ((found x mem s answer).2 m).mp inside⟩
    · rintro ⟨x, mem, holds⟩
      obtain ⟨s, answer⟩ := mapM_returns.mp ⟨ss, asked⟩ x mem
      exact ⟨s, (mem_mapM asked).mpr ⟨x, mem, answer⟩, ((found x mem s answer).2 m).mpr holds⟩

namespace Region

theorem kidDefects_eq_nil :
    r.kidDefects n k = .ok [] ↔ ∃ e, r.node? k = some e ∧ e.parent = some n := by
  unfold kidDefects
  cases gone : r.isReleased k with
  | true => simp [node?_of_isReleased gone, pure, Except.pure]
  | false =>
    simp only [Bool.false_eq_true, if_false, bind_eq_ok]
    constructor
    · rintro ⟨e, found, none⟩
      refine ⟨e, node?_of_node found, ?_⟩
      by_contra other
      simp [other, pure, Except.pure] at none
    · rintro ⟨e, found, named⟩
      exact ⟨e, node_of found, by simp [named, pure, Except.pure]⟩

/-- All live kids are visited, and where nothing is wrong all kids are live. -/
theorem filter_live {ks : List NodeId} (live : ∀ k ∈ ks, r.Live k) :
    (ks.filter fun k => !r.isReleased k) = ks := by
  rw [List.filter_eq_self]
  intro k mem
  obtain ⟨e, found⟩ := live k mem
  rw [isReleased_of found]
  rfl

/-- Where a survey finds nothing wrong, all nodes below are linked. -/
theorem linked_of_surveyWithin {fuel : Nat} {s : Survey} (answer : r.surveyWithin fuel n = .ok s)
    (none : s.defects = []) (below : ReflTransGen r.Kid n m) : r.Linked m := by
  induction fuel generalizing n s with
  | zero => cases answer
  | succ fuel ih =>
    rw [surveyWithin, bind_eq_ok] at answer
    obtain ⟨d, found, answer⟩ := answer
    obtain ⟨links, checked, answer⟩ := bind_eq_ok.mp answer
    obtain ⟨ss, visited, built⟩ := bind_eq_ok.mp answer
    obtain rfl := Except.ok.inj built
    have clean := Survey.defects_join.mp none
    have found := node?_of_node found
    have kids : ∀ k ∈ d.kids, ∃ e, r.node? k = some e ∧ e.parent = some n := by
      intro k mem
      apply kidDefects_eq_nil.mp
      exact flatten_mapM_eq_nil.mp ⟨links, checked, clean _ List.mem_cons_self⟩ k mem
    rw [filter_live fun k mem => (kids k mem).imp fun _ => And.left] at visited
    rcases ReflTransGen.cases_head below with rfl | ⟨k, ⟨d', found', mem⟩, rest⟩
    · exact ⟨d, found, kids⟩
    · obtain rfl := Option.some.inj (found.symm.trans found')
      have mem : k ∈ d.kids.reverse := List.mem_reverse.mpr mem
      obtain ⟨t, answer⟩ := mapM_returns.mp ⟨ss, visited⟩ k mem
      apply ih answer _ rest
      exact clean t (List.mem_cons_of_mem _ ((mem_mapM visited).mpr ⟨k, mem, answer⟩))

/-- A survey of linked nodes finds what is below. The nodes above the visited one are all different
unless a node is below itself, so they are at most as many as there are places. -/
theorem surveyWithin_clean {fuel : Nat} {above : List NodeId} (distinct : above.Nodup)
    (ancestors : ∀ a ∈ above, r.Live a ∧ TransGen r.Kid a n)
    (linked : ∀ m, ReflTransGen r.Kid n m → r.Linked m)
    (acyclic : ∀ m, ReflTransGen r.Kid n m → ¬TransGen r.Kid m m)
    (enough : r.nodes.size < above.length + fuel) :
    Clean (r.surveyWithin fuel n) (ReflTransGen r.Kid n) := by
  induction fuel generalizing n above with
  | zero =>
    have few := length_le_size distinct fun a mem => (ancestors a mem).1
    omega
  | succ fuel ih =>
    obtain ⟨d, found, kids⟩ := linked n .refl
    have step {k : NodeId} (mem : k ∈ d.kids) : r.Kid n k := ⟨d, found, mem⟩
    have fresh : n ∉ above := fun mem => acyclic n .refl (ancestors n mem).2
    have each : ∀ k ∈ d.kids.reverse, Clean (r.surveyWithin fuel k) (ReflTransGen r.Kid k) := by
      intro k mem
      have mem : k ∈ d.kids := List.mem_reverse.mp mem
      have distinct : (n :: above).Nodup := List.nodup_cons.mpr ⟨fresh, distinct⟩
      apply ih distinct
      · intro a mem'
        rcases List.mem_cons.mp mem' with rfl | mem'
        · exact ⟨⟨d, found⟩, .single (step mem)⟩
        · exact ⟨(ancestors a mem').1, (ancestors a mem').2.tail (step mem)⟩
      · exact fun m rest => linked m (.head (step mem) rest)
      · exact fun m rest => acyclic m (.head (step mem) rest)
      · rw [List.length_cons]
        omega
    obtain ⟨ss, visited, clean, nodes⟩ := Clean.join each
    obtain ⟨links, checked, none⟩ := flatten_mapM_eq_nil.mpr fun k mem =>
      kidDefects_eq_nil.mpr (kids k mem)
    refine ⟨Survey.join (⟨[n], links.flatten⟩ :: ss), ?_, ?_, fun m => ?_⟩
    · simp only [surveyWithin, node_of found, checked,
        filter_live fun k mem => (kids k mem).imp fun _ => And.left, visited, bind, Except.bind]
      rfl
    · exact Survey.defects_join.mpr (List.forall_mem_cons.mpr ⟨none, clean⟩)
    · rw [Survey.mem_join, List.exists_mem_cons_iff, nodes, ReflTransGen.cases_head_iff]
      apply or_congr
      · rw [List.mem_singleton, eq_comm]
      · constructor
        · rintro ⟨k, mem, rest⟩
          exact ⟨k, step (List.mem_reverse.mp mem), rest⟩
        · rintro ⟨k, ⟨d', found', mem⟩, rest⟩
          obtain rfl := Option.some.inj (found.symm.trans found')
          exact ⟨k, List.mem_reverse.mpr mem, rest⟩

/-- A reachable node is at or below a statement of a block. -/
theorem Reachable.rooted (h : r.Reachable n) : ∃ b ∈ r.order, ∃ ss, r.stmts b = .ok ss ∧
    ∃ s ∈ ss, ReflTransGen r.Kid s n := by
  induction h with
  | stmt block listed mem _ => exact ⟨_, block, _, listed, _, mem, .refl⟩
  | kid _ kid _ ih =>
    obtain ⟨b, block, ss, listed, s, mem, path⟩ := ih
    exact ⟨b, block, ss, listed, s, mem, path.tail kid⟩

/-- Where reachable nodes are linked, what is below one of them is reachable. -/
theorem Reachable.of_below (linked : ∀ n, r.Reachable n → r.Linked n) (h : r.Reachable n)
    (path : ReflTransGen r.Kid n m) : r.Reachable m := by
  induction path with
  | refl => exact h
  | tail _ step ih =>
    obtain ⟨d, found, kids⟩ := linked _ ih
    obtain ⟨d', found', mem⟩ := step
    obtain rfl := Option.some.inj (found.symm.trans found')
    obtain ⟨e, live, _⟩ := kids _ mem
    exact .kid ih ⟨d, found, mem⟩ ⟨e, live⟩

theorem surveyStmt_sound {s : NodeId} {t : Survey} (answer : r.surveyStmt b s = .ok t)
    (none : t.defects = []) : (∃ d, r.node? s = some d ∧ d.block = some b) ∧
      ∀ m, ReflTransGen r.Kid s m → r.Linked m := by
  unfold surveyStmt at answer
  cases gone : r.isReleased s with
  | true =>
    rw [gone, if_pos rfl] at answer
    obtain rfl := Except.ok.inj answer
    cases none
  | false =>
    simp only [gone, Bool.false_eq_true, if_false] at answer
    obtain ⟨d, found, answer⟩ := bind_eq_ok.mp answer
    obtain ⟨tree, visited, built⟩ := bind_eq_ok.mp answer
    obtain rfl := Except.ok.inj built
    obtain ⟨link, clean⟩ := List.append_eq_nil_iff.mp none
    refine ⟨⟨d, node?_of_node found, ?_⟩, fun m => linked_of_surveyWithin visited clean⟩
    by_contra other
    simp [other] at link

theorem surveyStmt_clean {s : NodeId} {d : Node} (found : r.node? s = some d)
    (named : d.block = some b) {P : NodeId → Prop}
    (tree : Clean (r.surveyWithin r.depthBound s) P) :
    Clean (r.surveyStmt b s) P := by
  obtain ⟨t, visited, none, nodes⟩ := tree
  refine ⟨⟨t.nodes, [] ++ t.defects⟩, ?_, none, nodes⟩
  simp only [surveyStmt, isReleased_of found, node_of found, named, visited, bind, Except.bind]
  rfl

/-- Where the survey of a region finds nothing wrong, its blocks and trees are in order. -/
theorem survey_sound {s : Survey} (answer : r.survey = .ok s) (none : s.defects = []) :
    (∀ b ∈ r.order, ∃ ss, r.stmts b = .ok ss ∧
      ∀ s ∈ ss, ∃ d, r.node? s = some d ∧ d.block = some b) ∧
    ∀ n, r.Reachable n → r.Linked n := by
  obtain ⟨blocks, asked, built⟩ := bind_eq_ok.mp answer
  obtain rfl := Except.ok.inj built
  have stmts : ∀ b ∈ r.order, ∃ ss, r.stmts b = .ok ss ∧ ∀ s ∈ ss,
      (∃ d, r.node? s = some d ∧ d.block = some b) ∧ ∀ m, ReflTransGen r.Kid s m → r.Linked m := by
    intro b mem
    obtain ⟨t, answer⟩ := mapM_returns.mp ⟨blocks, asked⟩ b mem
    have clean := Survey.defects_join.mp none t ((mem_mapM asked).mpr ⟨b, mem, answer⟩)
    obtain ⟨ss, listed, answer⟩ := bind_eq_ok.mp answer
    obtain ⟨ts, asked, built⟩ := bind_eq_ok.mp answer
    obtain rfl := Except.ok.inj built
    refine ⟨ss, listed, fun s mem => ?_⟩
    obtain ⟨t, answer⟩ := mapM_returns.mp ⟨ts, asked⟩ s mem
    exact surveyStmt_sound answer
      (Survey.defects_join.mp clean t ((mem_mapM asked).mpr ⟨s, mem, answer⟩))
  constructor
  · intro b block
    obtain ⟨ss, listed, each⟩ := stmts b block
    exact ⟨ss, listed, fun s mem => (each s mem).1⟩
  · intro n reachable
    obtain ⟨b, block, ss, listed, s, mem, path⟩ := reachable.rooted
    obtain ⟨ss', listed', each⟩ := stmts b block
    obtain rfl := Except.ok.inj (listed.symm.trans listed')
    exact (each s mem).2 n path

/-- In a region in order the survey finds the reachable nodes, and nothing wrong. -/
theorem survey_clean (acyclic : r.Acyclic)
    (listed : ∀ b ∈ r.order, ∃ ss, r.stmts b = .ok ss ∧
      ∀ s ∈ ss, ∃ d, r.node? s = some d ∧ d.block = some b)
    (linked : ∀ n, r.Reachable n → r.Linked n) : Clean r.survey r.Reachable := by
  have blocks : ∀ b ∈ r.order, Clean (r.surveyBlock b) fun m =>
      ∃ ss, r.stmts b = .ok ss ∧ ∃ s ∈ ss, ReflTransGen r.Kid s m := by
    intro b block
    obtain ⟨ss, stmts, each⟩ := listed b block
    have trees : ∀ s ∈ ss, Clean (r.surveyStmt b s) (ReflTransGen r.Kid s) := by
      intro s mem
      obtain ⟨d, found, named⟩ := each s mem
      have reachable (m : NodeId) : ReflTransGen r.Kid s m → r.Reachable m :=
        Reachable.of_below linked (.stmt block stmts mem ⟨d, found⟩)
      apply surveyStmt_clean found named
      apply surveyWithin_clean List.nodup_nil nofun
      · exact fun m path => linked m (reachable m path)
      · exact fun m path => acyclic m (reachable m path)
      · simp [depthBound]
    obtain ⟨ts, asked, clean, nodes⟩ := Clean.join trees
    refine ⟨Survey.join ts, ?_, Survey.defects_join.mpr clean, fun m => ?_⟩
    · simp only [surveyBlock, stmts, asked, bind, Except.bind]
      rfl
    · rw [Survey.mem_join, nodes]
      simp [stmts]
  obtain ⟨ts, asked, clean, nodes⟩ := Clean.join blocks
  refine ⟨Survey.join ts, ?_, Survey.defects_join.mpr clean, fun m => ?_⟩
  · simp only [survey, asked, bind, Except.bind]
    rfl
  · rw [Survey.mem_join, nodes]
    constructor
    · rintro ⟨b, block, ss, stmts, s, mem, path⟩
      obtain ⟨ss', stmts', each⟩ := listed b block
      obtain rfl := Except.ok.inj (stmts.symm.trans stmts')
      obtain ⟨d, found, _⟩ := each s mem
      exact Reachable.of_below linked (.stmt block stmts mem ⟨d, found⟩) path
    · exact Reachable.rooted

/-! ### Edges and values -/

theorem edgeDefects_eq_nil {reachable : List NodeId} :
    r.edgeDefects reachable n = .ok [] ↔ ∃ ps, r.peers n = .ok ps ∧ ∀ p ∈ ps,
      r.isReleased p = false ∧ p ∈ reachable ∧ ∃ qs, r.peers p = .ok qs ∧ n ∈ qs := by
  rw [edgeDefects, bind_eq_ok]
  apply exists_congr
  intro ps
  apply and_congr_right
  intro _
  simp only [bind_eq_ok, pure, Except.pure, Except.ok.injEq, flatten_mapM_eq_nil,
    HandleSet.mem_toList]
  apply forall₂_congr
  intro p _
  cases r.isReleased p with
  | true => simp
  | false =>
    simp only [Bool.false_eq_true, if_false, bind_eq_ok, Except.ok.injEq, List.append_eq_nil_iff,
      ite_eq_left_iff, List.cons_ne_nil, imp_false, not_not, List.contains_iff_mem, true_and]
    constructor
    · rintro ⟨qs, answer, inside, back⟩
      exact ⟨inside, qs, answer, back⟩
    · rintro ⟨inside, qs, answer, back⟩
      exact ⟨qs, answer, inside, back⟩

theorem useDefects_of {d : Node} (found : r.node? n = some d) :
    r.useDefects n = match d.code, d.ssa with
      | .pr, some v => do return if n ∈ (← r.ssaValue v).uses then [] else [.useNotListed n v]
      | _, _ => return [] := by
  rw [useDefects, node_of found]
  rfl

theorem useDefects_eq_nil {d : Node} (found : r.node? n = some d) :
    r.useDefects n = .ok [] ↔ ∀ v, d.code = .pr → d.ssa = some v →
      ∃ value, r.ssaValue v = .ok value ∧ n ∈ value.uses := by
  rw [useDefects_of found]
  split
  · rename_i v code ssa
    simp only [bind_eq_ok, pure, Except.pure, Except.ok.injEq, ite_eq_left_iff, List.cons_ne_nil,
      imp_false, not_not, code, ssa, Option.some.injEq, forall_const]
    refine ⟨?_, fun h => h v rfl⟩
    rintro listed _ rfl
    exact listed
  · rename_i other
    exact ⟨fun _ v code ssa => absurd ssa (other v code), fun _ => rfl⟩

theorem carriedValues_returns {ns : List NodeId} (live : ∀ n ∈ ns, r.Live n) :
    ∃ vs, r.carriedValues ns = .ok vs ∧
      ∀ v, v ∈ vs ↔ ∃ n ∈ ns, ∃ d, r.node? n = some d ∧ d.ssa = some v := by
  have each : ∀ n ∈ ns, ∃ vs,
      (do return (← r.node n).ssa.toList : Except Fault (List SsaId)) = .ok vs := by
    intro n mem
    obtain ⟨d, found⟩ := live n mem
    exact ⟨d.ssa.toList, by rw [node_of found]; rfl⟩
  obtain ⟨vss, asked⟩ := mapM_returns.mpr each
  refine ⟨.ofList vss.flatten, ?_, fun v => ?_⟩
  · rw [carriedValues, asked]
    rfl
  · rw [HandleSet.mem_ofList, List.mem_flatten]
    constructor
    · rintro ⟨vs, member, inside⟩
      obtain ⟨n, mem, answer⟩ := (mem_mapM asked).mp member
      obtain ⟨d, found, built⟩ := bind_eq_ok.mp answer
      obtain rfl := Except.ok.inj built
      exact ⟨n, mem, d, node?_of_node found, Option.mem_toList.mp inside⟩
    · rintro ⟨n, mem, d, found, ssa⟩
      refine ⟨d.ssa.toList, (mem_mapM asked).mpr ⟨n, mem, ?_⟩, Option.mem_toList.mpr ssa⟩
      rw [node_of found]
      rfl

theorem valueDefects_eq_nil {v : SsaId} :
    r.valueDefects v = .ok [] ↔ ∃ value, r.ssaValue v = .ok value ∧
      (∀ x, value.defn = some x → r.isReleased x = false) ∧
      ∀ u ∈ value.uses, ∃ e, r.node? u = some e ∧ e.ssa = some v := by
  rw [valueDefects, bind_eq_ok]
  apply exists_congr
  intro value
  apply and_congr_right
  intro _
  have ofDef : (value.defn.toList.filter r.isReleased).map (Defect.defReleased v) = [] ↔
      ∀ x, value.defn = some x → r.isReleased x = false := by
    cases value.defn <;> simp
  simp only [bind_eq_ok, pure, Except.pure, Except.ok.injEq, List.append_eq_nil_iff, ofDef]
  refine (exists_congr fun _ => and_left_comm).trans
    (exists_and_left.trans (and_congr_right fun _ => ?_))
  rw [flatten_mapM_eq_nil]
  apply forall₂_congr
  intro u _
  cases gone : r.isReleased u with
  | true => simp [node?_of_isReleased gone]
  | false =>
    simp only [Bool.false_eq_true, if_false, bind_eq_ok, Except.ok.injEq, ite_eq_left_iff,
      List.cons_ne_nil, imp_false, not_not]
    constructor
    · rintro ⟨e, found, ssa⟩
      exact ⟨e, node?_of_node found, ssa⟩
    · rintro ⟨e, found, ssa⟩
      exact ⟨e, node_of found, ssa⟩

theorem validate_eq_nil : r.validate = .ok [] ↔ ∃ s, r.survey = .ok s ∧ s.defects = [] ∧
    (∀ n ∈ s.nodes, r.edgeDefects s.nodes n = .ok []) ∧ (∀ n ∈ s.nodes, r.useDefects n = .ok []) ∧
    ∃ vs, r.carriedValues s.nodes = .ok vs ∧ ∀ v ∈ vs, r.valueDefects v = .ok [] := by
  rw [validate, bind_eq_ok]
  apply exists_congr
  intro s
  apply and_congr_right
  intro _
  simp only [bind_eq_ok, pure, Except.pure, Except.ok.injEq, List.append_eq_nil_iff]
  simp only [← flatten_mapM_eq_nil, ← HandleSet.mem_toList]
  constructor
  · rintro ⟨edges, asked, uses, asked', vs, carried, values, asked'', ⟨⟨none, noEdges⟩, noUses⟩,
      noValues⟩
    exact ⟨none, ⟨edges, asked, noEdges⟩, ⟨uses, asked', noUses⟩, vs, carried, values, asked'',
      noValues⟩
  · rintro ⟨none, ⟨edges, asked, noEdges⟩, ⟨uses, asked', noUses⟩, vs, carried, values, asked'',
      noValues⟩
    exact ⟨edges, asked, uses, asked', vs, carried, values, asked'', ⟨⟨none, noEdges⟩, noUses⟩,
      noValues⟩

end Region

/-- Validation decides the invariant in every region whose blocks root acyclic structures: it finds
nothing wrong just if the region is valid. -/
theorem validate_iff_valid (acyclic : r.Acyclic) : r.validate = .ok [] ↔ r.Valid := by
  rw [Region.validate_eq_nil]
  constructor
  · rintro ⟨s, answer, none, edges, uses, vs, carried, values⟩
    obtain ⟨listed, linked⟩ := Region.survey_sound answer none
    obtain ⟨s', answer', _, nodes⟩ := Region.survey_clean acyclic listed linked
    obtain rfl := Except.ok.inj (answer.symm.trans answer')
    have live : ∀ n ∈ s.nodes, r.Live n := fun n mem => ((nodes n).mp mem).live
    refine ⟨listed, linked, fun n reachable => ?_, fun n d v reachable found code ssa => ?_,
      fun n d v reachable found ssa => ?_⟩
    · obtain ⟨ps, answer, each⟩ := Region.edgeDefects_eq_nil.mp (edges n ((nodes n).mpr reachable))
      exact ⟨ps, answer, fun p mem => ⟨(nodes p).mp (each p mem).2.1, (each p mem).2.2⟩⟩
    · exact (Region.useDefects_eq_nil found).mp (uses n ((nodes n).mpr reachable)) v code ssa
    · obtain ⟨vs', carried', mem⟩ := Region.carriedValues_returns live
      obtain rfl := Except.ok.inj (carried.symm.trans carried')
      apply Region.valueDefects_eq_nil.mp
      exact values v ((mem v).mpr ⟨n, (nodes n).mpr reachable, d, found, ssa⟩)
  · intro valid
    obtain ⟨s, answer, none, nodes⟩ := Region.survey_clean acyclic valid.listed valid.linked
    have live : ∀ n ∈ s.nodes, r.Live n := fun n mem => ((nodes n).mp mem).live
    obtain ⟨vs, carried, mem⟩ := Region.carriedValues_returns live
    refine ⟨s, answer, none, fun n mem => ?_, fun n mem => ?_, vs, carried, fun v inside => ?_⟩
    · obtain ⟨ps, answer, each⟩ := valid.paired n ((nodes n).mp mem)
      refine Region.edgeDefects_eq_nil.mpr ⟨ps, answer, fun p mem => ?_⟩
      obtain ⟨reachable, back⟩ := each p mem
      obtain ⟨e, found⟩ := reachable.live
      exact ⟨Region.isReleased_of found, (nodes p).mpr reachable, back⟩
    · obtain ⟨d, found⟩ := live n mem
      exact (Region.useDefects_eq_nil found).mpr fun v => valid.used n d v ((nodes n).mp mem) found
    · obtain ⟨n, inside, d, found, ssa⟩ := (mem v).mp inside
      exact Region.valueDefects_eq_nil.mpr (valid.carried n d v ((nodes n).mp inside) found ssa)

/-- `x = 1; $1 = x; return $1`, where the store reaches the load. With `back` the load lists the
store as well. -/
def Region.reaching (back : Bool) : Region :=
  { Region.empty ⟨8⟩ with
    nodes := #[
      some { Node.fresh .const (.scalar .i32) (.ofLiteral (.int 1)) [] with parent := some ⟨1⟩ },
      some { Node.fresh .st (.scalar .i32) (.ofVar ⟨0⟩ 0) [[⟨0⟩]] with
        block := some ⟨0⟩, record := some ⟨0⟩ },
      some { Node.fresh .ld (.scalar .i32) (.ofVar ⟨0⟩ 0) [] with
        parent := some ⟨3⟩, record := some ⟨1⟩ },
      some { Node.fresh .stpr (.scalar .i32) (.ofRegister 1) [[⟨2⟩]] with
        block := some ⟨0⟩, ssa := some ⟨0⟩ },
      some { Node.fresh .pr (.scalar .i32) (.ofRegister 1) [] with
        parent := some ⟨5⟩, ssa := some ⟨0⟩ },
      some { Node.fresh .ret (.scalar .void) .none [[⟨4⟩]] with block := some ⟨0⟩ }]
    blocks := #[[⟨1⟩, ⟨3⟩, ⟨5⟩]]
    order := [⟨0⟩]
    records := #[⟨none, none, .ofList [⟨2⟩]⟩, ⟨none, none, .ofList (if back then [⟨1⟩] else [])⟩]
    ssa := #[⟨some ⟨3⟩, .ofList [⟨4⟩]⟩]
    edgeCounts := some ⟨1, 0, 0, 0⟩ }

theorem validate_reaching : (Region.reaching true).Valid ∧ ¬(Region.reaching false).Valid := by
  have acyclic (back : Bool) : (Region.reaching back).Acyclic :=
    Region.acyclic_of_made_before (by cases back <;> decide)
  refine ⟨(validate_iff_valid (acyclic true)).mp rfl, fun valid => ?_⟩
  have found : (Region.reaching false).validate = .ok [.oneWayEdge ⟨1⟩ ⟨2⟩] := rfl
  have none := (validate_iff_valid (acyclic false)).mpr valid
  cases found.symm.trans none

end Peephole
