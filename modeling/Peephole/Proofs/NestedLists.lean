import Peephole.Proofs.CapEvents
import Peephole.Proofs.Sweeps

/-!
# Refining lists of nested statements

A conditional or loop is at rest once its condition is decided and the lists below it are at rest,
which its first refinement sees to. So every list comes to rest within three sweeps
(`refineList_converges`).
-/

namespace Peephole

open Edit Peephole.Tree

variable {α : Type} {s : Setting} {l : Layout} {r r' r₁ : Region} {n k : NodeId} {d : Node}
  {e : Term}
  {below inner ns ks : List NodeId} {body body' : List NodeId} {done todo : List (List NodeId)}
  {f : Setting → NodeId → Edit Outcome} {Q : Stage → Region → NodeId → List NodeId → Prop}
  {B C : Region → NodeId → List NodeId → Prop} {stage : Stage} {depth fuel cap : Nat}

/-! ### Bodies -/

theorem someOf_cons {g : α → Edit Bool} {x : α} {xs : List α} :
    someOf g (x :: xs) = (do
      let a ← g x
      let b ← someOf g xs
      return a || b) := by
  simp [Edit.someOf, List.mapM_cons]

namespace Over

theorem bodyAt (h : Over l r n d [] (done ++ body :: todo) k e below) :
    r.kids n (done.length + 1) = .ok body := by
  obtain ⟨y, found, rfl⟩ := Option.map_eq_some_iff.mp h.shape
  have slots : y.slots = [k] :: (done ++ body :: todo) := h.slots
  exact Region.kids_of found (by simp [slots])

/-- Another body in place of one. -/
theorem withBody (h : Over l r n d [] (done ++ body :: todo) k e below)
    (edited : Edited .idle r r' (Function.update (r.shape true) n
      (some (d.holding (done.length + 1) body')))) :
    Over l r' n (d.holding (done.length + 1) body') [] (done ++ body' :: todo) k e below := by
  refine ⟨edited.shape_node, ?_, h.ssa, fun b eq => edited.grown.blocks.symm ▸ h.listed b eq,
    by simp, h.tree.kept_node edited.kept_node h.apart, h.distinct⟩
  simp [Node.holding, h.slots]

end Over

/-- Refining one body. -/
theorem refineBody_always (conv : Converges s f Q) (tidy : r.Tidy)
    (stands : Over l r n d [] (done ++ body :: todo) k e below)
    (listed : Listed (Q .given r) body inner) (distinct : (n :: (below ++ inner)).Nodup) :
    Always s (fun s => refineBody s (f s) n (done.length + 1)) r fun _ r' => ∃ d' body' inner',
      Over l r' n d' [] (done ++ body' :: todo) k e below ∧ d'.code = d.code ∧
      Listed (Q .stable r') body' inner' ∧ inner'.Nodup ∧ Within r inner inner' ∧
      Framed r r' (n :: inner) := by
  have apart : ∀ m ∈ n :: below, m ∉ inner := by grind
  have shapes {r₁ : Region} (framed : Framed r r₁ inner) :
      ∀ m ∈ n :: below, r₁.shape true m = r.shape true m := fun m mem =>
    framed.kept.shape m (apart m mem) (stands.mem_lt m mem)
  have read : Gives (kids n (done.length + 1)) r body :=
    gives_iff.mpr (by simp [Edit.kids, stands.bodyAt])
  unfold refineBody
  refine Always.bind (A := fun ks r₁ => ks = body ∧ r₁ = r) (.ofGives ⟨rfl, rfl⟩ fun _ _ => read) ?_
  rintro _ _ ⟨rfl, rfl⟩
  refine Always.bind (conv.refineListWith_always tidy listed (by grind)) ?_
  rintro ⟨body', changed⟩ r₁ ⟨same, inner', listed', distinct', within, framed⟩
  have stands₁ := stands.congr (shapes framed) framed.kept.grown
  have outside : ∀ m ∈ inner', m ∉ [n] := within.apart (by grind) (by simp [stands.mem_lt])
  cases changed with
  | false =>
    obtain rfl := same rfl
    exact .pure ⟨d, _, inner', stands₁, rfl, listed', distinct', within,
      framed.mono fun m mem => List.mem_cons_of_mem n mem⟩
  | true =>
    have trees : Grove r₁.kidsOf body' inner' :=
      (listed'.imp fun _ _ _ here => (conv.rooted .stable).tree here).trees
    obtain ⟨y, found, rfl⟩ := Option.map_eq_some_iff.mp stands₁.shape
    have slots : y.slots = [k] :: (done ++ _ :: todo) := stands₁.slots
    have tidy₁ := framed.tidy tidy
    have sets := setKids_edits (F := fun _ => False) .idle found (i := done.length + 1)
      (by simp [slots]) (fun m mem => trees.live m (trees.roots_mem m mem))
      fun mem => outside n (trees.roots_mem n mem) (List.mem_singleton_self n)
    have both := sets.and ((sameTargets_steady (o := .standard)).setKids r₁ (.refl tidy₁.filed))
    refine Always.bind (Always.ofMeets both fun _ => rfl) ?_
    rintro _ r' ⟨edited, targets⟩
    have framed' : Framed r₁ r' [n] := ⟨edited.kept_node, targets⟩
    refine .pure ⟨_, body', inner', stands₁.withBody edited, rfl,
      (conv.rooted .stable).listed.framed tidy₁ framed' listed' outside, distinct', within, ?_⟩
    exact (framed.mono fun m mem => List.mem_cons_of_mem n mem).trans framed'
      fun m mem => .inl (List.mem_singleton.mp mem ▸ List.mem_cons_self)

/-- Refining all bodies that are left. -/
theorem refineBodies_always (conv : Converges s f Q) (tidy : r.Tidy)
    (stands : Over l r n d [] (done ++ todo) k e below)
    (listed : Listed (Listed (Q .given r)) todo inner) (distinct : (n :: (below ++ inner)).Nodup) :
    Always s (fun s => someOf (refineBody s (f s) n) (List.range' (done.length + 1) todo.length)) r
      fun _ r' => ∃ d' todo' inner', Over l r' n d' [] (done ++ todo') k e below ∧
        d'.code = d.code ∧ todo'.length = todo.length ∧
        Listed (Listed (Q .stable r')) todo' inner' ∧ inner'.Nodup ∧ Within r inner inner' ∧
        Framed r r' (n :: inner) := by
  induction todo generalizing r d done inner with
  | nil =>
    cases listed
    exact .pure ⟨d, [], [], stands, rfl, rfl, .nil, List.nodup_nil, .nil, .refl tidy⟩
  | cons body todo ih =>
    obtain _ | ⟨first, others⟩ := listed
    rename_i here rest
    simp only [List.length_cons, List.range'_succ, someOf_cons]
    refine Always.bind (refineBody_always conv tidy stands first (by grind)) ?_
    rintro changed r₁ ⟨d₁, body₁, here₁, stands₁, code₁, first₁, distinct₁, within₁, framed₁⟩
    have tidy₁ := framed₁.tidy tidy
    have given := (conv.rooted .given).listed
    have stable := (conv.rooted .stable).listed
    have apart : ∀ m ∈ here₁, m ∉ n :: rest := by
      refine within₁.apart (by grind) fun m mem => ?_
      rcases List.mem_cons.mp mem with rfl | mem
      · exact stands.mem_lt m List.mem_cons_self
      · exact given.listed.lt_size others m mem
    have others₁ : Listed (Listed (Q .given r₁)) todo rest :=
      given.listed.framed tidy framed₁ others (by grind)
    have stands₁ : Over l r₁ n d₁ [] ((done ++ [body₁]) ++ todo) k e below := by
      rwa [List.append_assoc]
    have length : (done ++ [body₁]).length + 1 = done.length + 1 + 1 := by simp
    rw [← length]
    refine Always.bind (ih tidy₁ stands₁ others₁ (by grind)) ?_
    rintro more r₂ ⟨d₂, todo₂, rest₂, stands₂, code₂, length₂, others₂, distinct₂, within₂, framed₂⟩
    have apart₂ : ∀ m ∈ rest₂, m ∉ here₁ := within₂.apart (by grind) (stable.lt_size first₁)
    refine .pure ⟨d₂, body₁ :: todo₂, here₁ ++ rest₂, by rwa [List.append_assoc] at stands₂,
      code₂.trans code₁, by simp [length₂],
      .cons (stable.framed tidy₁ framed₂ first₁ apart) others₂, ?_,
      within₁.append within₂ framed₁.kept.grown.size, ?_⟩
    · exact List.nodup_append'.mpr ⟨distinct₁, distinct₂, fun m mem mem' => apart₂ m mem' mem⟩
    · exact (framed₁.append framed₂).mono (by grind)

/-! ### Conditionals and loops -/

theorem refineStmt_compound {g : NodeId → Edit Outcome} {count : Nat}
    (shape : r.shape true n = some d) (bodies : d.code.bodies? = some count) :
    (refineStmt s g n).run r = (refineCompound s g (List.range' 1 count) n).run r := by
  obtain ⟨y, found, rfl⟩ := Option.map_eq_some_iff.mp shape
  have read : (node n).run r = .ok (y, r) := Gives.node (Region.node_of found)
  unfold refineStmt
  rw [StateT.run_bind, read]
  unfold Op.bodies? at bodies
  split at bodies
  all_goals
    rename_i code
    cases bodies
    try simp only [show y.code = _ from code, bind, Except.bind]
    try rfl

namespace Compound

/-- The first refinement brings the statements below to rest. -/
theorem refineStmt_first (conv : Converges s f Q) (tidy : r.Tidy)
    (h : Compound s l (Q .given) .given r n ns) : Always s (fun s => refineStmt s (f s) n) r
      (Steps (Compound s l (Q .stable) .refined) (Compound s l (Q .stable) .stable) r n ns) := by
  obtain ⟨stands, count, -, statements, distinct⟩ := h
  rename_i d bodies k e below inner
  refine Always.congr (m := fun s => refineCompound s (f s) (List.range' 1 bodies.length) n) ?_
    fun s => refineStmt_compound stands.shape count
  have given := (conv.rooted .given).listed.listed
  have condition : Always s (fun s => refineConditionSlot s n) r _ :=
    (Always.ofMeets (stands.refineConditionSlot_meets rfl)
      fun _ => by rw [refineConditionSlot_sweeping]).keeping
        (fun _ => sameTargets_steady.keeps .refineConditionSlot) (.refl tidy.filed)
  refine Always.bind condition ?_
  rintro c r₁ ⟨⟨k', e', below', stands₁, _, decided, within, kept, _⟩, targets⟩
  have framed : Framed r r₁ (n :: below) := ⟨kept, targets⟩
  have tidy₁ := framed.tidy tidy
  have statements₁ : Listed (Listed (Q .given r₁)) bodies inner :=
    given.framed tidy framed statements (by grind)
  have apart : ∀ m ∈ below', m ∉ n :: inner := by
    refine within.apart (by grind) fun m mem => ?_
    rcases List.mem_cons.mp mem with rfl | mem
    · exact stands.mem_lt m List.mem_cons_self
    · exact given.lt_size statements m mem
  have distinct₁ : (n :: (below' ++ inner)).Nodup := by
    have nodup := stands₁.tree.spells.nodup
    grind
  have inBodies := refineBodies_always conv tidy₁
    (show Over l r₁ n _ [] ([] ++ bodies) k' e' below' from stands₁) statements₁ distinct₁
  refine Always.bind inBodies ?_
  rintro more r₂ ⟨d₂, bodies₂, inner₂, stands₂, code₂, length₂, statements₂, nodup₂, within₂,
    framed₂⟩
  have decided₂ : r₂.Bears (Decided s l) k' below' := decided.congr fun m mem =>
    framed₂.kept.shape m (apart m mem) (stands₁.tree.lt_size mem)
  have apart₂ : ∀ m ∈ inner₂, m ∉ n :: below' := by
    refine within₂.apart (by grind) stands₁.mem_lt
  have distinct₂ : (n :: (below' ++ inner₂)).Nodup := by grind
  have made (stage : Stage) : Compound s l (Q .stable) stage r₂ n (n :: (below' ++ inner₂)) :=
    ⟨stands₂, by rw [code₂, List.nil_append, length₂]; exact count, fun _ => decided₂, statements₂,
      distinct₂⟩
  refine .pure ⟨_, ?_, (within.append within₂ kept.grown.size).cons,
    (framed.append framed₂).kept.mono (by grind)⟩
  cases c || more with
  | true => exact .changed (made .refined)
  | false => exact .still (made .stable)

/-- A statement with a decided condition over statements at rest is at rest. -/
theorem refineStmt_gives (conv : Converges s f Q) (h : Compound s l (Q .stable) stage r n ns)
    (later : stage ≠ .given) (enough : 3 ≤ (s.sweeping cap).sweepCap) :
    Gives (refineStmt (s.sweeping cap) (f (s.sweeping cap)) n) r (.stands n false) := by
  obtain ⟨stands, count, decided, statements, -⟩ := h
  rename_i d bodies k e below inner
  have each : ∀ i ∈ List.range' 1 bodies.length,
      Gives (refineBody (s.sweeping cap) (f (s.sweeping cap)) n i) r false := by
    intro i mem
    obtain ⟨j, inside, rfl⟩ := List.mem_range'.mp mem
    have split : bodies = bodies.take j ++ bodies[j] :: bodies.drop (j + 1) := by
      rw [List.getElem_cons_drop, List.take_append_drop]
    have length : 1 + 1 * j = (bodies.take j).length + 1 := by grind
    rw [split] at stands
    have read : Gives (kids n (1 + 1 * j)) r bodies[j] :=
      gives_iff.mpr (by
        rw [length]
        simp only [Edit.kids, meets_ask, stands.bodyAt, yields_ok, and_self])
    obtain ⟨_, listed⟩ := statements.exists_of_mem (List.getElem_mem inside)
    exact read.bind ((conv.refineListWith_gives listed enough).bind rfl)
  have condition : Gives (refineConditionSlot (s.sweeping cap) n) r false := by
    rw [refineConditionSlot_sweeping]
    exact stands.refineConditionSlot_gives rfl (decided later)
  exact (refineStmt_compound stands.shape count).trans
    (condition.bind ((Gives.someOf each).bind rfl))

end Compound

/-! ### Statements nested to any depth -/

theorem Steps.imp {B' C' : Region → NodeId → List NodeId → Prop} {out : Outcome}
    (h : Steps B C r n ns out r') (new : ∀ {r n ns}, B r n ns → B' r n ns)
    (same : ∀ {r n ns}, C r n ns → C' r n ns) : Steps B' C' r n ns out r' := by
  obtain ⟨ns', leaves, rest⟩ := h
  refine ⟨ns', ?_, rest⟩
  cases leaves with
  | gone unlinked => exact .gone unlinked
  | changed here => exact .changed (new here)
  | still here => exact .still (same here)

theorem isExpr_gives (stmt : ∃ d, r.shape true n = some d ∧ d.isStmt = true) :
    Gives (isExpr n) r false := by
  obtain ⟨_, shape, stmt⟩ := stmt
  obtain ⟨y, found, rfl⟩ := Option.map_eq_some_iff.mp shape
  have stmt : y.isStmt = true := stmt
  exact gives_iff.mpr (by simp [isExpr, Edit.node, Region.node_of found, stmt])

/-- After a statement is refined, a changed one adopts the nodes below it. -/
theorem refineWithin_always (tidy : r.Tidy) (new : Rooted B)
    (stmt : ∃ d, r.shape true n = some d ∧ d.isStmt = true)
    (h : Always s (fun s => refineStmt s (refineWithin s fuel) n) r (Steps B C r n ns)) :
    Always s (fun s => refineWithin s (fuel + 1) n) r fun out r' =>
      Steps B C r n ns out r' ∧ SameTargets (·.index < r.nodes.size) r r' := by
  have calm : SameTargets (·.index < r.nodes.size) r r := .refl tidy.filed
  refine Always.keeping ?_ (fun _ => sameTargets_steady.keeps .refineWithin) calm
  refine Always.bind (A := fun out r₁ => out = false ∧ r₁ = r)
    (.ofGives ⟨rfl, rfl⟩ fun _ _ => isExpr_gives stmt) ?_
  rintro _ _ ⟨rfl, rfl⟩
  refine Always.bind (h.keeping (fun _ => sameTargets_steady.keeps <| .refineStmt fun _ _ =>
    .refineWithin) calm) ?_
  rintro out r₁ ⟨⟨ns', leaves, within, kept⟩, targets⟩
  have framed : Framed _ r₁ ns := ⟨kept, targets⟩
  have tidy₁ := framed.tidy tidy
  cases leaves with
  | gone unlinked => exact .pure ⟨_, .gone unlinked, within, kept⟩
  | still here => exact .pure ⟨_, .still here, within, kept⟩
  | @changed m ms here =>
    obtain ⟨kids, below, kidsOf, trees, rfl⟩ := Grove.singleton_iff.mp (new.tree here)
    obtain ⟨y, found, rfl⟩ := Option.map_eq_some_iff.mp kidsOf
    have deep : below.length ≤ r₁.nodes.size :=
      Region.length_le_size (List.nodup_cons.mp (new.nodup here)).2 trees.live
    have adopts := (adoptAll_edits (F := fun _ => False) .idle found trees deep).and
      (sameTargets_steady.keeps (o := .standard) (b := true) .adoptAll r₁ (.refl tidy₁.filed))
    refine Always.bind (Always.ofMeets adopts fun _ => rfl) ?_
    rintro _ r' ⟨edited, targets'⟩
    have framed' : Framed r₁ r' [] := ⟨edited.kept_same, targets'⟩
    exact .pure ⟨_, .changed (new.framed tidy₁ framed' here fun _ _ => List.not_mem_nil), within,
      kept.trans edited.kept_same .refl⟩

/-- A statement at rest is not touched. -/
theorem refineWithin_gives (stmt : ∃ d, r.shape true n = some d ∧ d.isStmt = true)
    (h : Gives (refineStmt s (refineWithin s fuel) n) r (.stands n false)) :
    Gives (refineWithin s (fuel + 1) n) r (.stands n false) :=
  (isExpr_gives stmt).bind (h.bind rfl)

namespace Simple

theorem refineWithin_first (tidy : r.Tidy) (h : Simple s l .given r n ns) :
    Always s (fun s => refineWithin s (fuel + 1) n) r fun out r' =>
      Steps (Simple s l .refined) (Simple s l .stable) r n ns out r' ∧
        SameTargets (·.index < r.nodes.size) r r' :=
  refineWithin_always tidy rooted h.isStmt
    (.ofMeets (h.refineStmt_first (f := refineWithin s fuel)) fun _ => h.refineStmt_sweeping)

theorem refineWithin_second (tidy : r.Tidy) (h : Simple s l .refined r n ns) :
    Always s (fun s => refineWithin s (fuel + 1) n) r fun out r' =>
      Steps (fun _ _ _ => False) (Simple s l .stable) r n ns out r' ∧
        SameTargets (·.index < r.nodes.size) r r' := by
  refine refineWithin_always tidy .empty h.isStmt ?_
  refine (Always.ofMeets (h.refineStmt_later (f := refineWithin s fuel) (by simp)) fun _ =>
    h.refineStmt_sweeping).imp ?_
  rintro _ r' (⟨_, ⟨unlinked, rfl⟩, kept⟩ | ⟨stable, rfl, rfl⟩)
  · exact ⟨[], .gone unlinked, .nil, kept⟩
  · exact ⟨ns, .still stable, .refl, .refl⟩

theorem refineWithin_third (h : Simple s l .stable r n ns) :
    Gives (refineWithin (s.sweeping cap) (fuel + 1) n) r (.stands n false) := by
  refine refineWithin_gives h.isStmt ?_
  have rests : Gives (refineStmt s (refineWithin s fuel) n) r (.stands n false) := by
    refine gives_iff.mpr ((h.refineStmt_later (by simp)).to ?_)
    rintro out r' (⟨other, _⟩ | ⟨_, still⟩)
    · exact absurd rfl other
    · exact still
  exact h.refineStmt_sweeping.trans rests

end Simple

/-- With enough fuel, nested statements come to rest. -/
theorem nested_converges (deep : depth < fuel) :
    Converges s (fun s => refineWithin s fuel) (Nested s l depth) := by
  obtain ⟨fuel, rfl⟩ : ∃ f, fuel = f + 1 := ⟨fuel - 1, by omega⟩
  induction depth generalizing fuel with
  | zero =>
    exact {
      rooted := fun _ => Nested.rooted
      refined := Nested.refined
      first := Simple.refineWithin_first
      second := Simple.refineWithin_second
      third := fun h _ => Simple.refineWithin_third h }
  | succ depth ih =>
    obtain ⟨fuel, rfl⟩ : ∃ f, fuel = f + 1 := ⟨fuel - 1, by omega⟩
    have below : Converges s (fun s => refineWithin s (fuel + 1)) (Nested s l depth) :=
      ih fuel (by omega)
    have rests {stage : Stage} {r : Region} {n : NodeId} {ns : List NodeId} {cap : Nat}
        (h : Compound s l (Nested s l depth .stable) stage r n ns) (later : stage ≠ .given)
        (enough : 3 ≤ (s.sweeping cap).sweepCap) :
        Gives (refineWithin (s.sweeping cap) (fuel + 1 + 1) n) r (.stands n false) := by
      have inner :=
        Compound.refineStmt_gives (f := fun s => refineWithin s (fuel + 1)) below h later enough
      exact refineWithin_gives h.isStmt inner
    refine ⟨fun _ => Nested.rooted, Nested.refined, ?_, ?_, ?_⟩
    · rintro r n ns tidy (h | h)
      · exact (h.refineWithin_first tidy).imp fun out r' now => ⟨now.1.imp .inl .inl, now.2⟩
      · have rooted : Rooted (Compound s l (Nested s l depth .stable) .refined) :=
          Compound.rooted Nested.rooted
        exact (refineWithin_always tidy rooted h.isStmt (h.refineStmt_first below tidy)).imp
          fun out r' now => ⟨now.1.imp .inr .inr, now.2⟩
    · rintro r n ns tidy (h | h)
      · exact (h.refineWithin_second tidy).imp fun out r' now => ⟨now.1.imp id .inl, now.2⟩
      · obtain ⟨stands, count, decided, statements, distinct⟩ := id h
        have decided := decided Stage.noConfusion
        refine .ofGives ⟨⟨_, .still (.inr ?_), .refl, .refl⟩, .refl tidy.filed⟩
          fun _ => rests h Stage.noConfusion
        exact ⟨stands, count, fun _ => decided, statements, distinct⟩
    · rintro r n ns cap (h | h) enough
      · exact h.refineWithin_third
      · exact rests h Stage.noConfusion enough

/-- An edit that begins with a look at the region. -/
theorem run_get_bind (m : Region → Edit α) : (get >>= m).run r = (m r).run r := rfl

theorem refine_run : (refine s n).run r = (refineWithin s r.depthBound n).run r :=
  run_get_bind fun r => refineWithin s r.depthBound n

/-- Nested statements come to rest, however deep. -/
theorem refine_converges :
    Converges s refine fun stage r n ns => ∃ depth, Nested s l depth stage r n ns := by
  have deep {stage : Stage} {r : Region} {n : NodeId} {ns : List NodeId}
      (h : ∃ depth, Nested s l depth stage r n ns) :
      ns.length < r.depthBound ∧ Nested s l ns.length stage r n ns := by
    obtain ⟨depth, h⟩ := h
    have rooted : Rooted (Nested s l depth stage) := Nested.rooted
    exact ⟨Nat.lt_succ_of_le (Region.length_le_size (rooted.nodup h) (rooted.live h)),
      h.shallow le_rfl⟩
  refine ⟨fun stage => ?_, fun h => h.imp fun _ => Nested.refined, ?_, ?_, ?_⟩
  · exact {
      nodup := fun h => Nested.rooted.nodup (deep h).2
      tree := fun h => Nested.rooted.tree (deep h).2
      framed := fun tidy framed h apart => h.imp fun _ h =>
        Nested.rooted.framed tidy framed h apart }
  · intro r n ns tidy h
    obtain ⟨fits, h⟩ := deep h
    refine (((nested_converges fits).first tidy h).congr fun _ => refine_run).imp
      fun out r' now => ?_
    exact ⟨now.1.imp (fun h => ⟨_, h⟩) fun h => ⟨_, h⟩, now.2⟩
  · intro r n ns tidy h
    obtain ⟨fits, h⟩ := deep h
    refine (((nested_converges fits).second tidy h).congr fun _ => refine_run).imp
      fun out r' now => ?_
    exact ⟨now.1.imp id fun h => ⟨_, h⟩, now.2⟩
  · intro r n ns cap h enough
    obtain ⟨fits, h⟩ := deep h
    exact refine_run.trans ((nested_converges fits).third h enough)

/-- A list of statements, nested to any depth, over trees of integer operators. -/
def Region.Statements (r : Region) (s : Setting) (ks ns : List NodeId) : Prop :=
  Listed (fun n ns => ∃ depth, Nested s r.layout depth .given r n ns) ks ns

/-- A list comes to rest within three sweeps, on every level: it is refined in the same way
whatever number of sweeps is permitted, three or more, and no list is put on record that still
changes in its last one. Refining it again changes nothing. -/
theorem refineList_converges (s : Setting) (tidy : r.Tidy) (listed : r.Statements s ks ns)
    (distinct : ns.Nodup) :
    ∃ out r', (∀ k, .listCapReached k ∈ r'.events → .listCapReached k ∈ r.events) ∧
      ∀ cap, 3 ≤ (s.sweeping cap).sweepCap →
        (refineList (s.sweeping cap) ks).run r = .ok (out, r') ∧
        (refineList (s.sweeping cap) out.1).run r' = .ok ((out.1, false), r') := by
  have conv : Converges s refine _ := refine_converges (l := r.layout)
  obtain ⟨out, r', ⟨-, _, rests, -⟩, run⟩ := conv.refineListWith_always tidy listed distinct
  refine ⟨out, r', fun k mem => ?_, fun cap enough =>
    ⟨run cap enough, conv.refineListWith_gives rests enough⟩⟩
  -- A new cap on record is the number of sweeps permitted, be it three or four.
  have recorded (cap : Nat) (enough : 3 ≤ cap) : k = cap ∨ .listCapReached k ∈ r.events := by
    have fits : (s.sweeping cap).sweepCap = cap := sweepCap_sweeping (by omega)
    have kept : Keeps (CapsFrom (s.sweeping cap).sweepCap r) _ (refineList (s.sweeping cap) ks) :=
      capsFrom_steady.keeps .refineList
    have caps := (meets_iff.mp (kept r fun _ => .inr)).1 out r' (run cap (by rwa [fits]))
    rw [fits] at caps
    exact caps k mem
  rcases recorded 3 le_rfl with three | old
  · rcases recorded 4 (by decide) with four | old
    · omega
    · exact old
  · exact old

/-- `while ($1 > 0) *(&x) = x; return $1 + 0`, in 32 bits. -/
def Region.copyingLoop : Region :=
  { Region.empty ⟨8⟩ with
    nodes := #[
      some (.fresh .whileDo (.scalar .void) .none [[⟨1⟩], [⟨4⟩]]),
      some { Node.fresh .gt (.scalar .bool) .none [[⟨2⟩], [⟨3⟩]] with parent := some ⟨0⟩ },
      some { Node.fresh .pr (.scalar .i32) (.ofRegister 1) [] with parent := some ⟨1⟩ },
      some { Node.fresh .const (.scalar .i32) (.ofLiteral (.int 0)) [] with parent := some ⟨1⟩ },
      some { Node.fresh .ist (.scalar .i32) (.ofOffset 0) [[⟨5⟩], [⟨6⟩]] with parent := some ⟨0⟩ },
      some { Node.fresh .lda (.pointer 8) (.ofVar ⟨0⟩ 0) [] with parent := some ⟨4⟩ },
      some { Node.fresh .ld (.scalar .i32) (.ofVar ⟨0⟩ 0) [] with parent := some ⟨4⟩ },
      some (.fresh .ret (.scalar .void) .none [[⟨8⟩]]),
      some { Node.fresh .add (.scalar .i32) .none [[⟨9⟩], [⟨10⟩]] with parent := some ⟨7⟩ },
      some { Node.fresh .pr (.scalar .i32) (.ofRegister 1) [] with parent := some ⟨8⟩ },
      some { Node.fresh .const (.scalar .i32) (.ofLiteral (.int 0)) [] with parent := some ⟨8⟩ }] }

/-- The store in the loop becomes a direct one and vanishes. -/
theorem refineList_copyingLoop : ∃ r', (∀ k, .listCapReached k ∉ r'.events) ∧ ∀ cap, 3 ≤ cap →
    (refineList (.sweeping ⟨.standard, true⟩ cap) [⟨0⟩, ⟨7⟩]).run .copyingLoop =
      .ok (([⟨0⟩, ⟨7⟩], true), r') ∧
    (refineList (.sweeping ⟨.standard, true⟩ cap) [⟨0⟩, ⟨7⟩]).run r' =
      .ok (([⟨0⟩, ⟨7⟩], false), r') := by
  have free : ∀ x ∈ Region.copyingLoop.nodes, x.bind (·.record) = none := by decide
  have bare (m : NodeId) (d : Node) (found : Region.copyingLoop.node? m = some d) :
      d.record = none :=
    free _ (Array.mem_of_getElem? (Option.join_eq_some_iff.mp found))
  have unlinked : Region.copyingLoop.Unlinked := by
    refine ⟨rfl, fun m d i found own => ?_⟩
    rw [bare m d found] at own
    cases own
  have filed : Region.copyingLoop.Filed := by
    have none (m : NodeId) : Region.copyingLoop.recordOf m = none := by
      cases found : Region.copyingLoop.node? m with
      | none => simp [Region.recordOf, found]
      | some d => simp [Region.recordOf, found, bare m d found]
    exact ⟨fun m i own => by simp [none] at own, fun m _ i own => by simp [none] at own⟩
  have tree {e : Term} {k : NodeId} {below : List NodeId}
      (spells : Spells (Region.copyingLoop.shape true) e k below) (typed : e.typed ⟨8⟩ = true) :
      Stands .idle ⟨8⟩ .copyingLoop e k below := ⟨spells, typed, rfl, unlinked⟩
  have overStore : Over ⟨8⟩ .copyingLoop ⟨4⟩ _ [⟨5⟩] [] ⟨6⟩ (.load (.scalar .i32) ⟨0⟩ 0) [⟨6⟩] :=
    ⟨rfl, rfl, rfl, by rintro _ ⟨⟩, by
      rintro m (_ | ⟨_, ⟨⟩⟩)
      exact ⟨_, _, _, .inl rfl, rfl⟩, tree ⟨rfl, _, rfl, rfl, rfl⟩ rfl, by decide⟩
  have store : Simple ⟨.standard, true⟩ ⟨8⟩ .given .copyingLoop ⟨4⟩ [⟨4⟩, ⟨5⟩, ⟨6⟩] :=
    .single overStore (.direct rfl rfl rfl rfl rfl)
  have overLoop : Over ⟨8⟩ .copyingLoop ⟨0⟩ _ [] [[⟨4⟩]] ⟨1⟩
      (.binary .gt (.scalar .bool) (.reg (.scalar .i32) 1) (.lit (.scalar .i32) 0))
      [⟨1⟩, ⟨2⟩, ⟨3⟩] :=
    ⟨rfl, rfl, rfl, by rintro _ ⟨⟩, by simp,
      tree ⟨by decide, ⟨2⟩, [⟨2⟩], ⟨3⟩, [⟨3⟩], _, rfl, rfl, ⟨rfl, _, rfl, rfl⟩, ⟨rfl, _, rfl, rfl⟩⟩
        (by decide), by decide⟩
  have loop : Compound ⟨.standard, true⟩ ⟨8⟩ (Simple ⟨.standard, true⟩ ⟨8⟩ .given) .given
      .copyingLoop ⟨0⟩ [⟨0⟩, ⟨1⟩, ⟨2⟩, ⟨3⟩, ⟨4⟩, ⟨5⟩, ⟨6⟩] :=
    .mk overLoop rfl (fun later => absurd rfl later) (Listed.cons (Listed.cons store .nil) .nil)
      (by decide)
  have overReturn : Over ⟨8⟩ .copyingLoop ⟨7⟩ _ [] [] ⟨8⟩
      (.binary .add (.scalar .i32) (.reg (.scalar .i32) 1) (.lit (.scalar .i32) 0))
      [⟨8⟩, ⟨9⟩, ⟨10⟩] :=
    ⟨rfl, rfl, rfl, by rintro _ ⟨⟩, by simp,
      tree ⟨by decide, ⟨9⟩, [⟨9⟩], ⟨10⟩, [⟨10⟩], _, rfl, rfl, ⟨rfl, _, rfl, rfl⟩,
        ⟨rfl, _, rfl, rfl⟩⟩
        (by decide), by decide⟩
  have last : Simple ⟨.standard, true⟩ ⟨8⟩ .given .copyingLoop ⟨7⟩ [⟨7⟩, ⟨8⟩, ⟨9⟩, ⟨10⟩] :=
    .single overReturn (.value rfl fun later => absurd rfl later)
  have listed : Region.copyingLoop.Statements ⟨.standard, true⟩ [⟨0⟩, ⟨7⟩] _ :=
    Listed.cons ⟨1, .inr loop⟩ (Listed.cons ⟨0, last⟩ .nil)
  obtain ⟨out, r', uncapped, same⟩ :=
    refineList_converges ⟨.standard, true⟩ ⟨unlinked, filed⟩ listed (by decide)
  have ends : Meets (refineList (.sweeping ⟨.standard, true⟩ 3) [⟨0⟩, ⟨7⟩]) .copyingLoop
      (fun _ => False)
      fun out _ => out = ([⟨0⟩, ⟨7⟩], true) := by
    decide +kernel
  have out_eq := (meets_iff.mp ends).1 out r' (same 3 (by decide)).1
  subst out_eq
  refine ⟨r', fun k mem => Array.not_mem_empty _ (uncapped k mem), fun cap three => ?_⟩
  exact same cap (by rwa [sweepCap_sweeping (by omega)])

/-- `y = y; x = x; *(&z) = z`, in 32 bits. Each load has the record of another store's access: that
of `y` accesses what the store of `x` does, and that of `x` what the load of `z` does. -/
def Region.crossedRecords : Region :=
  { Region.empty ⟨8⟩ with
    nodes := #[
      some { Node.fresh .ld (.scalar .i32) (.ofVar ⟨1⟩ 0) [] with
        parent := some ⟨1⟩, record := some ⟨0⟩ },
      some { Node.fresh .st (.scalar .i32) (.ofVar ⟨1⟩ 0) [[⟨0⟩]] with record := some ⟨1⟩ },
      some { Node.fresh .ld (.scalar .i32) (.ofVar ⟨0⟩ 0) [] with
        parent := some ⟨3⟩, record := some ⟨2⟩ },
      some { Node.fresh .st (.scalar .i32) (.ofVar ⟨0⟩ 0) [[⟨2⟩]] with record := some ⟨0⟩ },
      some { Node.fresh .lda (.pointer 8) (.ofVar ⟨2⟩ 0) [] with parent := some ⟨6⟩ },
      some { Node.fresh .ld (.scalar .i32) (.ofVar ⟨2⟩ 0) [] with
        parent := some ⟨6⟩, record := some ⟨2⟩ },
      some (.fresh .ist (.scalar .i32) (.ofOffset 0) [[⟨4⟩], [⟨5⟩]])]
    locations := #[.bytes ⟨0⟩ 0 4, .bytes ⟨1⟩ 0 4, .bytes ⟨2⟩ 0 4]
    records := #[⟨some ⟨0⟩, none, .empty⟩, ⟨some ⟨1⟩, none, .empty⟩, ⟨some ⟨2⟩, none, .empty⟩] }

/-- Every sweep deletes the last store, and with its load the record that kept the store before it
from being a copy. So three sweeps are not enough, and a second refinement goes on. -/
theorem refineList_crossedRecords :
    Region.crossedRecords.Unlinked ∧
    Region.crossedRecords.Statements (.sweeping ⟨.standard, true⟩ 3) [⟨1⟩, ⟨3⟩, ⟨6⟩]
      [⟨1⟩, ⟨0⟩, ⟨3⟩, ⟨2⟩, ⟨6⟩, ⟨4⟩, ⟨5⟩] ∧
    ∃ r', (refineList (.sweeping ⟨.standard, true⟩ 3) [⟨1⟩, ⟨3⟩, ⟨6⟩]).run .crossedRecords =
        .ok (([⟨1⟩], true), r') ∧
      ∃ r'', (refineList (.sweeping ⟨.standard, true⟩ 3) [⟨1⟩]).run r' = .ok (([], true), r'') := by
  have unlinked : Region.crossedRecords.Unlinked := by
    refine ⟨rfl, fun m d i found own => ?_⟩
    have known : ∀ x ∈ Region.crossedRecords.nodes, ∀ i ∈ x.bind (·.record), i.index < 3 := by
      decide
    have inside : i.index < 3 :=
      known _ (Array.mem_of_getElem? (Option.join_eq_some_iff.mp found)) i own
    have idle : ∀ j < 3, ∀ a ∈ Region.crossedRecords.records[j]?,
        a.peers = .empty ∧ ∀ x ∈ a.must, x.index < 3 := by decide
    obtain ⟨none, inRange⟩ := idle _ inside _ (Array.getElem?_eq_getElem inside)
    exact ⟨_, Array.getElem?_eq_getElem inside, none, inRange⟩
  have store {n k : NodeId} {d : Node} {x : VarId}
      (shape : Region.crossedRecords.shape true n = some d) (code : d.code = .st)
      (ty : d.ty = .scalar .i32) (slots : d.slots = [[k]]) (ssa : d.ssa = none)
        (free : d.block = none)
      (spells : Spells (Region.crossedRecords.shape true) (.load (.scalar .i32) x 0) k [k])
      (other : n ≠ k) :
      Simple (.sweeping ⟨.standard, true⟩ 3) ⟨8⟩ .given .crossedRecords n [n, k] := by
    have stands : Over ⟨8⟩ .crossedRecords n d [] [] k (.load (.scalar .i32) x 0) [k] :=
      ⟨shape, slots, ssa, by simp [free], by simp,
        ⟨spells, rfl, rfl, unlinked⟩, by simpa using other⟩
    exact .single stands (.store (.inl code) ty.symm (fun later => absurd rfl later) (by simp))
  have overLast : Over ⟨8⟩ .crossedRecords ⟨6⟩ _ [⟨4⟩] [] ⟨5⟩ (.load (.scalar .i32) ⟨2⟩ 0) [⟨5⟩] :=
    ⟨rfl, rfl, rfl, by rintro _ ⟨⟩, by
      rintro m (_ | ⟨_, ⟨⟩⟩)
      exact ⟨_, _, _, .inl rfl, rfl⟩, ⟨⟨rfl, _, rfl, rfl, rfl⟩, rfl, rfl, unlinked⟩, by decide⟩
  have last : Simple (.sweeping ⟨.standard, true⟩ 3) ⟨8⟩ .given .crossedRecords ⟨6⟩
      [⟨6⟩, ⟨4⟩, ⟨5⟩] :=
    .single overLast (.direct rfl rfl rfl rfl rfl)
  have listed : Region.crossedRecords.Statements (.sweeping ⟨.standard, true⟩ 3)
      [⟨1⟩, ⟨3⟩, ⟨6⟩] _ :=
    Listed.cons ⟨0, store (k := ⟨0⟩) rfl rfl rfl rfl rfl rfl ⟨rfl, _, rfl, rfl, rfl⟩ (by decide)⟩
      (Listed.cons ⟨0, store (k := ⟨2⟩) rfl rfl rfl rfl rfl rfl ⟨rfl, _, rfl, rfl, rfl⟩ (by decide)⟩
        (Listed.cons ⟨0, last⟩ .nil))
  have ends : Meets (refineList (.sweeping ⟨.standard, true⟩ 3) [⟨1⟩, ⟨3⟩, ⟨6⟩]) .crossedRecords
      (fun _ => False) fun out r' => out = ([⟨1⟩], true) ∧
        Meets (refineList (.sweeping ⟨.standard, true⟩ 3) [⟨1⟩]) r' (fun _ => False)
          fun again _ => again = ([], true) := by
    decide +kernel
  obtain ⟨_, r', run, rfl, more⟩ := ends.ends
  obtain ⟨_, r'', again, rfl⟩ := more.ends
  exact ⟨unlinked, listed, r', run, r'', again⟩

end Peephole
