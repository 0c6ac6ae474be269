import Peephole.Proofs.Stages

/-!
# Nested statements

Conditionals and loops hold lists of statements, nested to any depth. What is said of such a
statement is about its own nodes, so edits of other nodes leave it true.
-/

namespace Peephole

open Edit Peephole.Tree

/-! ### Lists -/

/-- Each of `xs` has `P` and nodes of its own, and `ns` are all these nodes. -/
inductive Listed {α : Type} (P : α → List NodeId → Prop) : List α → List NodeId → Prop
  | nil : Listed P [] []
  | cons {x : α} {xs : List α} {ns ms : List NodeId} (first : P x ns) (others : Listed P xs ms) :
      Listed P (x :: xs) (ns ++ ms)

namespace Listed

variable {α : Type} {P Q : α → List NodeId → Prop} {xs : List α} {ns : List NodeId}

theorem imp (h : Listed P xs ns) (each : ∀ x ms, ms.Sublist ns → P x ms → Q x ms) :
    Listed Q xs ns := by
  induction h with
  | nil => exact .nil
  | cons first _ ih =>
    refine .cons (each _ _ (List.sublist_append_left _ _) first) (ih fun x ms sub => ?_)
    exact each x ms (sub.trans (List.sublist_append_right _ _))

theorem exists_of_mem {x : α} (h : Listed P xs ns) (mem : x ∈ xs) : ∃ ms, P x ms := by
  induction h with
  | nil => cases mem
  | cons first _ ih =>
    rcases List.mem_cons.mp mem with rfl | mem
    · exact ⟨_, first⟩
    · exact ih mem

theorem trees {kidsAt : NodeId → Option (List NodeId)} {ks : List NodeId}
    (h : Listed (fun k => Grove kidsAt [k]) ks ns) : Grove kidsAt ks ns := by
  induction h with
  | nil => exact .nil
  | cons first _ ih => exact first.append ih

theorem allTrees {kidsAt : NodeId → Option (List NodeId)} {bodies : List (List NodeId)}
    (h : Listed (Grove kidsAt) bodies ns) : Grove kidsAt bodies.flatten ns := by
  induction h with
  | nil => exact .nil
  | cons first _ ih => exact first.append ih

end Listed

/-! ### Frames -/

/-- No edges are maintained, and every node has its own record. -/
structure Region.Tidy (r : Region) : Prop where
  unlinked : r.Unlinked
  filed : r.Filed

/-- From `r` to `r'`, nodes outside `ns` are as they were, and access what they did. -/
structure Framed (r r' : Region) (ns : List NodeId) : Prop where
  kept : Kept .idle r r' ns
  targets : SameTargets (·.index < r.nodes.size) r r'

variable {s : Setting} {l : Layout} {r r' r'' : Region} {n m : NodeId} {ns ms ns' : List NodeId}
  {stage : Stage} {depth : Nat}

namespace Framed

theorem tidy (h : Framed r r' ns) (before : r.Tidy) : r'.Tidy :=
  ⟨h.kept.grown.calm before.unlinked, h.targets.filed⟩

theorem refl (tidy : r.Tidy) : Framed r r ns :=
  ⟨.refl, .refl tidy.filed⟩

theorem trans (first : Framed r r' ns) (second : Framed r' r'' ns') (within : Within r ns ns') :
    Framed r r'' ns :=
  ⟨first.kept.trans second.kept within, first.targets.trans second.targets⟩

theorem mono (h : Framed r r' ns) (sub : ∀ m ∈ ns, m ∈ ms) : Framed r r' ms :=
  ⟨h.kept.mono sub, h.targets⟩

theorem append (first : Framed r r' ns) (second : Framed r' r'' ms) : Framed r r'' (ns ++ ms) :=
  (first.mono fun _ mem => List.mem_append_left _ mem).trans second
    fun _ mem => .inl (List.mem_append_right _ mem)

end Framed

/-- `P` is about live nodes, and about these only. -/
structure Framing {α : Type} (P : Region → α → List NodeId → Prop) : Prop where
  live : ∀ {r x ns}, P r x ns → ∀ m ∈ ns, r.Live m
  framed : ∀ {r r' x ns ms}, r.Tidy → Framed r r' ms → P r x ns → (∀ m ∈ ns, m ∉ ms) → P r' x ns

/-- `P` is about the nodes of a tree. -/
structure Rooted (P : Region → NodeId → List NodeId → Prop) : Prop extends Framing P where
  nodup : ∀ {r n ns}, P r n ns → ns.Nodup
  tree : ∀ {r n ns}, P r n ns → Grove r.kidsOf [n] ns
  live := fun h => (tree h).live

namespace Framing

variable {α : Type} {P : Region → α → List NodeId → Prop}

theorem lt_size {x : α} (h : Framing P) (here : P r x ns) : ∀ m ∈ ns, m.index < r.nodes.size := by
  intro m mem
  obtain ⟨_, found⟩ := h.live here m mem
  exact Region.lt_size_of_node? found

theorem listed (h : Framing P) : Framing fun r => Listed (P r) := by
  refine ⟨?_, fun tidy framed all apart => ?_⟩
  · intro r xs ns all
    induction all with
    | nil => simp
    | cons first _ ih =>
      intro m mem
      exact (List.mem_append.mp mem).elim (h.live first m) (ih m)
  · exact all.imp fun x ms sub here => h.framed tidy framed here fun m mem =>
      apart m (sub.subset mem)

end Framing

theorem Simple.rooted : Rooted (Simple s l stage) where
  nodup := Simple.nodup
  tree := Simple.tree
  framed := by
    intro r r' n ns ms tidy framed h apart
    have live := h.tree.live
    have shape : ∀ m ∈ ns, r'.shape true m = r.shape true m := by
      intro m mem
      exact framed.kept.shape m (apart m mem) (h.mem_lt m mem)
    refine h.congr shape framed.kept.grown fun _ m mem => ?_
    obtain ⟨d, found⟩ := live m mem
    refine framed.targets.exactRef? tidy.unlinked tidy.filed (h.mem_lt m mem) ?_
    exact Region.live_of_shape ((shape m mem).trans (by rw [Region.shape, found]; rfl))

/-! ### Conditionals and loops -/

/-- How many bodies a conditional or loop has. -/
def Op.bodies? : Op → Option Nat
  | .ifElse => some 2
  | .whileDo | .doWhile => some 1
  | .doLoop => some 3
  | _ => none

/-- The statement `n` over a condition and bodies, the statements of which have `P`. -/
inductive Compound (s : Setting) (l : Layout) (P : Region → NodeId → List NodeId → Prop)
    (stage : Stage) (r : Region) (n : NodeId) : List NodeId → Prop
  | mk {d : Node} {bodies : List (List NodeId)} {k : NodeId} {e : Term} {below inner : List NodeId}
      (stands : Over l r n d [] bodies k e below) (count : d.code.bodies? = some bodies.length)
      (decided : stage ≠ .given → r.Bears (Decided s l) k below)
      (statements : Listed (Listed (P r)) bodies inner)
      (distinct : (n :: (below ++ inner)).Nodup) : Compound s l P stage r n (n :: (below ++ inner))

theorem Compound.rooted {P : Region → NodeId → List NodeId → Prop} (inside : Rooted P) :
    Rooted (Compound s l P stage) where
  nodup := by
    rintro r n _ ⟨_, _, _, _, distinct⟩
    exact distinct
  tree := by
    rintro r n _ ⟨stands, _, _, statements, _⟩
    have trees := (statements.imp fun _ _ _ body =>
      (body.imp fun _ _ _ statement => inside.tree statement).trees).allTrees
    refine Grove.singleton_iff.mpr ⟨_, _, ?_, stands.tree.spells.tree.append trees, rfl⟩
    rw [@Region.kidsOf_shape true, stands.shape, Option.map_some, Node.kids, stands.slots]
    rfl
  framed := by
    rintro r r' n _ ms tidy framed ⟨stands, count, decided, statements, distinct⟩ apart
    rename_i d bodies k e below inner
    have shape : ∀ m ∈ n :: below, r'.shape true m = r.shape true m := by
      intro m mem
      refine framed.kept.shape m (apart m ?_) (stands.mem_lt m mem)
      rw [← List.cons_append]
      exact List.mem_append_left _ mem
    refine ⟨stands.congr shape framed.kept.grown, count, fun later => ?_, ?_, distinct⟩
    · exact (decided later).congr fun m mem => shape m (List.mem_cons_of_mem n mem)
    · refine inside.listed.listed.framed tidy framed statements fun m mem => apart m ?_
      exact List.mem_cons_of_mem n (List.mem_append_right _ mem)

theorem Compound.isStmt {P : Region → NodeId → List NodeId → Prop}
    (h : Compound s l P stage r n ns) : ∃ d, r.shape true n = some d ∧ d.isStmt = true := by
  obtain ⟨stands, count, -⟩ := h
  refine ⟨_, stands.shape, ?_⟩
  unfold Node.isStmt
  unfold Op.bodies? at count
  split at count <;> simp_all [Op.isStmt]

/-- The stage of the statements below a statement. They come to rest with its first refinement. -/
def Stage.inner : Stage → Stage
  | .given => .given
  | .refined | .stable => .stable

/-- The statement `n` with statements nested at most `depth` deep. -/
def Nested (s : Setting) (l : Layout) : Nat → Stage → Region → NodeId → List NodeId → Prop
  | 0, stage => Simple s l stage
  | depth + 1, stage => fun r n ns => Simple s l stage r n ns ∨
    Compound s l (Nested s l depth stage.inner) stage r n ns

theorem Simple.nested (h : Simple s l stage r n ns) : Nested s l depth stage r n ns := by
  cases depth with
  | zero => exact h
  | succ depth => exact .inl h

/-- A stable statement does not need to be refined again. -/
theorem Simple.refined (h : Simple s l .stable r n ns) : Simple s l .refined r n ns := by
  have later : Stage.stable ≠ .given := Stage.noConfusion
  cases h with
  | bare shape code slots => exact .bare shape code slots
  | single stands reached =>
    refine .single stands ?_
    cases reached with
    | store code fits settled => exact .store code fits (fun _ => settled later) (by simp)
    | through code fits address away settled =>
      exact .through code fits address away fun _ => settled later
    | value code settled => exact .value code fun _ => settled later
    | branch code decided normal =>
      exact .branch code (fun _ => decided later) fun _ => normal later

namespace Nested

theorem rooted : Rooted (Nested s l depth stage) := by
  induction depth generalizing stage with
  | zero => exact Simple.rooted
  | succ depth ih =>
    have simple : Rooted (Simple s l stage) := Simple.rooted
    have compound : Rooted (Compound s l (Nested s l depth stage.inner) stage) :=
      Compound.rooted ih
    exact {
      nodup := fun h => h.elim simple.nodup compound.nodup
      tree := fun h => h.elim simple.tree compound.tree
      framed := fun tidy framed h apart => h.imp (simple.framed tidy framed · apart)
        (compound.framed tidy framed · apart) }

theorem refined (h : Nested s l depth .stable r n ns) : Nested s l depth .refined r n ns := by
  cases depth with
  | zero => exact Simple.refined h
  | succ depth =>
    rcases h with h | ⟨stands, count, decided, statements, distinct⟩
    · exact .inl h.refined
    · exact .inr ⟨stands, count, fun _ => decided Stage.noConfusion, statements, distinct⟩

/-- Statements are nested no deeper than they have nodes. -/
theorem shallow {bound : Nat} (h : Nested s l depth stage r n ns) (long : ns.length ≤ bound) :
    Nested s l bound stage r n ns := by
  induction depth generalizing stage n ns bound with
  | zero => exact Simple.nested h
  | succ depth ih =>
    rcases h with h | ⟨stands, count, decided, statements, distinct⟩
    · exact h.nested
    · rename_i inner
      simp only [List.length_cons, List.length_append] at long
      obtain ⟨bound, rfl⟩ : ∃ b, bound = b + 1 := ⟨bound - 1, by omega⟩
      refine .inr ⟨stands, count, decided, ?_, distinct⟩
      refine statements.imp fun _ _ sub body => body.imp fun _ _ sub' statement => ih statement ?_
      have short := (sub'.trans sub).length_le
      omega

end Nested

end Peephole
