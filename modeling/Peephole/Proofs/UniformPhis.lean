import Peephole.Proofs.Custody
import Peephole.Proofs.Dropping
import Peephole.Proofs.Values
import Peephole.Proofs.Words
import Peephole.Refine.Phi

/-!
# Phis of one literal

A phi whose operands are all one literal defines a register that holds this literal. Propagating it
puts the literal in place of every read and drops the phi: nothing of the value is left, and every
expression above a read keeps its value where the register holds the literal
(`propagatePhi_preserves_eval`).
-/

namespace Peephole

open Edit

variable {r r' : Region} {n m u k p lit e : NodeId} {d d' : Node} {v w : Word} {q : Nat}
  {ks ms us : List NodeId} {env : Env}

/-! ### Another node in the place of one -/

/-- `new` in the place of `old`. -/
def swapped (old new k : NodeId) : NodeId := if k = old then new else k

/-- The node with `new` for its kid `old`. -/
def Node.swapped (old new : NodeId) (d : Node) : Node :=
  { d with slots := d.slots.map (·.map (Peephole.swapped old new)) }

@[simp] theorem swapped_self : swapped u lit u = lit := if_pos rfl

theorem swapped_of_ne (other : m ≠ u) : swapped u lit m = m := if_neg other

theorem Node.kids_swapped : (d.swapped u lit).kids = d.kids.map (Peephole.swapped u lit) := by
  rw [Node.kids, Node.kids, List.map_flatten]
  rfl

theorem Node.swapped_of_not_mem (out : u ∉ d.kids) : d.swapped u lit = d := by
  have same : d.slots.map (·.map (Peephole.swapped u lit)) = d.slots := by
    refine (List.map_congr_left fun ks slot => ?_).trans (List.map_id _)
    refine (List.map_congr_left fun k mem => swapped_of_ne ?_).trans (List.map_id _)
    rintro rfl
    exact out (List.mem_flatten.mpr ⟨ks, slot, mem⟩)
  rw [Node.swapped, same]

theorem Node.swapped_rfl : d.swapped u u = d := by
  have same : Peephole.swapped u u = id := by
    funext k
    by_cases eq : k = u
    · rw [eq, swapped_self, id]
    · rw [swapped_of_ne eq, id]
  simp [Node.swapped, same]

/-- From `r` to `r'`, the literal `v` was put in the place of the read `u`. -/
structure Traded (v : Word) (u lit : NodeId) (r r' : Region) : Prop where
  size : r'.nodes.size = r.nodes.size + 1
  layout : r'.layout = r.layout
  next : lit = r.next
  leaf : r.kidsOf u = some []
  gone : r'.node? u = none
  core : ∀ m, m ≠ u → m ≠ lit → r'.core m = (r.core m).map (Node.swapped u lit)
  literal : ∃ d w up, r.node? u = some d ∧ d.ty.normalizeInt r.layout v = .ok w ∧
    r'.core lit = some ((Node.ofInt w d.ty).under up)
  carries : ∀ m x, r'.Carries m x → r.Carries m x
  lists : ∀ b m, r'.Lists b m → r.Lists b m
  once : ∀ m, m ≠ u → r.ListedOnce m → r'.ListedOnce m

/-- The nodes that have `u` for a kid are its parent. -/
def Region.HeldBy (r : Region) (u p : NodeId) : Prop :=
  ∀ x d, r.node? x = some d → u ∈ d.kids → x = p

/-- Putting a leaf in the place of a node that one node holds. -/
theorem replaceKid_swaps {c : Node} (held : r.HeldBy u p) (found : r.node? lit = some c)
    (leaf : c.kids = []) :
    Meets (replaceKid p u lit) r (fun _ => True) fun _ r' =>
      r'.nodes.size = r.nodes.size ∧ r'.layout = r.layout ∧
      (∀ m, m ≠ lit → r'.core m = (r.core m).map (Node.swapped u lit)) ∧
      (∃ up, r'.core lit = some (c.core.under up)) ∧ (∀ m x, r'.Carries m x → r.Carries m x) ∧
      (∀ b m, r'.Lists b m → r.Lists b m) ∧ ∀ m, r.ListedOnce m → r'.ListedOnce m := by
  -- only the node that holds the old one changes
  have others {m : NodeId} (out : ∀ d, r.node? m = some d → u ∉ d.kids) :
      (r.core m).map (Node.swapped u lit) = r.core m := by
    rw [Region.core]
    cases at_m : r.node? m with
    | none => rfl
    | some d =>
      have same : d.core.swapped u lit = d.core := Node.swapped_of_not_mem (out d at_m)
      rw [Option.map_some, Option.map_some, same]
  simp only [replaceKid, meets_bind, meets_ask]
  refine Region.yields_nodeToEdit (fun d at_p => ?_) fun _ => trivial
  split
  · rename_i mem
    have mem : u ∈ d.kids := by simpa using mem
    have apart : lit ≠ p := by
      rintro rfl
      obtain rfl := Option.some.inj (found.symm.trans at_p)
      rw [leaf] at mem
      exact List.not_mem_nil mem
    have inside := Region.lt_size_of_node? at_p
    have found₁ : (r.put p (some (d.swapped u lit))).node? lit = some c := by
      rw [Region.node?_put inside, if_neg apart, found]
    have inside₁ := Region.lt_size_of_node? found₁
    have set : Meets (do setParent lit (some p); return true)
        (r.put p (some (d.swapped u lit))) (fun _ => True) fun _ r' => r' =
          (r.put p (some (d.swapped u lit))).put lit (some (c.under (some p))) := by
      rw [meets_bind]
      exact (meets_modifyNode found₁).mpr rfl
    rw [meets_bind, meets_putNode]
    refine Meets.to set ?_
    rintro _ _ rfl
    refine ⟨by simp, rfl, fun m other => ?_, ⟨some p, ?_⟩, fun m x now => ?_, fun _ _ => id,
      fun m once => ?_⟩
    · rw [Region.core_put inside₁, Function.update_of_ne other, Region.core_put inside]
      by_cases same : m = p
      · subst same
        rw [Function.update_self, Region.core_of at_p]
        rfl
      · rw [Function.update_of_ne same, others fun d' at_m mem => same (held m d' at_m mem)]
    · rw [Region.core_put inside₁, Function.update_self]
      rfl
    · have first : (r.put p (some (d.swapped u lit))).Carries m x := by
        refine .of_put found₁ ?_ now
        exact fun _ => id
      refine .of_put at_p ?_ first
      exact fun _ => id
    · have first : (r.put p (some (d.swapped u lit))).ListedOnce m := once.put at_p rfl
      exact first.put found₁ rfl
  · rename_i absent
    have absent : u ∉ d.kids := by simpa using absent
    refine ⟨rfl, rfl, fun m _ => ?_, ⟨c.parent, by rw [Region.core_of found]; rfl⟩, fun _ _ => id,
      fun _ _ => id, fun _ => id⟩
    refine (others fun d' at_m mem => ?_).symm
    obtain rfl := held m d' at_m mem
    rw [Option.some.inj (at_p.symm.trans at_m)] at absent
    exact absent mem

theorem replaceUse_trades (found : r.node? u = some d) (parent : d.parent = some p)
    (held : r.HeldBy u p) :
    Meets (replaceUse v u) r (fun _ => True) fun _ r' => Traded v u r.next r r' := by
  simp only [replaceUse, Edit.node, Edit.layout, meets_bind, meets_ask, Region.node_of found,
    yields_ok, parent, meets_get, meets_pure, meets_lift]
  refine yields_iff.mpr ⟨fun w normal => ?_, fun _ _ => trivial⟩
  rw [meets_intLiteral]
  obtain ⟨r₁, pushed⟩ : ∃ r₁, r₁ = r.push (.ofInt w d.ty) := ⟨_, rfl⟩
  have look (m : NodeId) : r₁.node? m = if m = r.next then some (.ofInt w d.ty) else r.node? m := by
    rw [pushed, Region.node?_push]
  have held₁ : r₁.HeldBy u p := by
    intro x d' at_x mem
    rw [look] at at_x
    split at at_x
    · obtain rfl := Option.some.inj at_x
      exact absurd mem List.not_mem_nil
    · exact held x d' at_x mem
  rw [← pushed, meets_discard]
  refine (replaceKid_swaps held₁ (by rw [look, if_pos rfl]) rfl).to ?_
  rintro _ r₂ ⟨size, layout, core, ⟨up, literal⟩, carries, lists, once⟩
  have fresh : u ≠ r.next := by
    rintro rfl
    rw [Region.node?_next] at found
    cases found
  have core_u : r₂.core u = some (d.core.swapped u r.next) := by
    rw [core u fresh, Region.core, look, if_neg fresh, found]
    rfl
  -- the rest is about the read alone
  have drops {r₃ : Region} (aside : Aside [] r₂ r₃) :
      Meets (release u) r₃ (fun _ => True) fun _ r' => Traded v u r.next r r' := by
    simp only [release, Edit.node, meets_bind, meets_ask]
    refine Region.yields_node (fun d₃ found₃ => ?_) fun _ => trivial
    split
    · trivial
    rename_i empty
    have empty : ∀ ks ∈ d₃.slots, ks = [] := by simpa using empty
    refine releaseAll_aside.to ?_
    rintro _ r' ⟨dropped, gone⟩
    have both : Aside [u] r₂ r' :=
      (aside.mono fun m mem => absurd mem List.not_mem_nil).trans dropped
    have slots : d₃.slots = (d.core.swapped u r.next).slots := by
      have cores := (aside.core u List.not_mem_nil).trans core_u
      rw [Region.core_of found₃, Option.some.injEq] at cores
      have same : d₃.core.slots = (d.core.swapped u r.next).slots := by rw [cores]
      exact same
    refine ⟨?_, ?_, rfl, ?_, gone u List.mem_cons_self, fun m other old => ?_, ?_,
      fun m x now => ?_, fun b m now => ?_, fun m other listed => ?_⟩
    · rw [both.size, size, pushed, Region.size_push]
    · rw [both.layout, layout, pushed]
      rfl
    · have none : d.slots.flatten = [] := by
        rw [List.flatten_eq_nil_iff]
        intro ks mem
        have mapped : ks.map (swapped u r.next) ∈ d₃.slots := by
          rw [slots]
          exact List.mem_map_of_mem mem
        exact List.map_eq_nil_iff.mp (empty _ mapped)
      rw [Region.kidsOf, found, Option.map_some, Node.kids, none]
    · rw [both.core m (by simpa using other), core m old, Region.core, look, if_neg old,
        Region.core]
    · refine ⟨d, w, up, found, normal, ?_⟩
      rw [both.core _ (by simpa using fresh.symm), literal]
      rfl
    · obtain ⟨x', at_m, carried⟩ := carries m x (both.carries m x now)
      rw [look] at at_m
      split at at_m
      · obtain rfl := Option.some.inj at_m
        cases carried
      · exact ⟨x', at_m, carried⟩
    · have before := lists b m (both.lists b m now)
      rwa [pushed] at before
    · apply both.once m (by simpa using other)
      apply once m
      rw [pushed]
      exact listed.push
  refine removeSsaUse_aside.to fun _ r₃ forgot => ?_
  simp only [Edit.hasEdges, meets_bind, meets_get, meets_pure]
  split
  · exact Meets.bind cutUses_quiet.aside fun _ r₄ cut => drops (forgot.trans cut)
  · exact drops forgot

/-! ### Values above a read -/

/-- A kid and what stands in its place: it has the same type and value, and is an address if the kid
is, of the same place. -/
def StandsFor (r r' : Region) (env : Env) (value value' : NodeId → Except Fault (Option Value))
    (k k' : NodeId) : Prop :=
  ∃ d d', r.node k = .ok d ∧ r'.node k' = .ok d' ∧ d'.ty = d.ty ∧
    (∀ above, Region.indirectValue env above d' = Region.indirectValue env above d) ∧
    value' k' = value k

namespace Region

variable {value₀ value' : NodeId → Except Fault (Option Value)} {i : Nat}

theorem kid_swapped (found : r.node? n = some d) (found' : r'.node? n = some d')
    (core : d'.core = d.core.swapped u lit) :
    (∃ f, r.kid n i = .error f ∧ r'.kid n i = .error f) ∨
      ∃ k ∈ d.kids, r.kid n i = .ok k ∧ r'.kid n i = .ok (swapped u lit k) := by
  have code : d'.core.code = d.core.code := by rw [core]; rfl
  have code : d'.code = d.code := code
  have slots : d'.core.slots = d.slots.map (·.map (swapped u lit)) := by rw [core]; rfl
  have slots : d'.slots = d.slots.map (·.map (swapped u lit)) := slots
  simp only [kid, node_of found, node_of found', bind, Except.bind, Node.slot, slots,
    List.getElem?_map, code]
  cases slot : d.slots[i]? with
  | none => exact .inl ⟨_, rfl, rfl⟩
  | some ks =>
    cases ks with
    | nil => exact .inl ⟨_, rfl, rfl⟩
    | cons k ks =>
      have mem := List.mem_flatten.mpr ⟨_, List.mem_of_getElem? slot, List.mem_cons_self⟩
      exact .inr ⟨k, mem, rfl, rfl⟩

/-- A node computes from its kids what it did, if what stands in their places has their values. -/
theorem rawValue_swapped (found : r.node? n = some d) (found' : r'.node? n = some d')
    (core : d'.core = d.core.swapped u lit) (layout : r'.layout = r.layout)
    (kids : ∀ k ∈ d.kids, StandsFor r r' env value₀ value' k (swapped u lit k)) :
    r'.rawValue env value' n d' = r.rawValue env value₀ n d := by
  have code : d'.core.code = d.core.code := by rw [core]; rfl
  have code : d'.code = d.code := code
  have ty : d'.core.ty = d.core.ty := by rw [core]; rfl
  have ty : d'.ty = d.ty := ty
  have attrs : d'.core.attrs = d.core.attrs := by rw [core]; rfl
  have attrs : d'.attrs = d.attrs := attrs
  -- a kid is missing in both regions, or one stands for the other
  have each (i : Nat) : (∃ f, r.kid n i = .error f ∧ r'.kid n i = .error f) ∨
      ∃ k, r.kid n i = .ok k ∧ r'.kid n i = .ok (swapped u lit k) ∧
        StandsFor r r' env value₀ value' k (swapped u lit k) := by
    rcases kid_swapped found found' core with missing | ⟨k, mem, kid, kid'⟩
    · exact .inl missing
    · exact .inr ⟨k, kid, kid', kids k mem⟩
  by_cases load : d.code = .ild
  · simp only [rawValue, code, load]
    rcases each 0 with ⟨f, kid, kid'⟩ | ⟨k, kid, kid', x, x', node, node', _, address, _⟩
    · simp only [kid, kid', bind, Except.bind]
    · have same : indirectValue env d' x' = indirectValue env d x' := by
        simp only [indirectValue, attrs]
      simp only [kid, kid', bind, Except.bind, node, node', same, address]
  by_cases convert : d.code = .cvt
  · simp only [rawValue, code, convert]
    rcases each 0 with ⟨f, kid, kid'⟩ | ⟨k, kid, kid', x, x', node, node', same, _, value⟩
    · simp only [kid, kid', bind, Except.bind]
    · simp only [kid, kid', bind, Except.bind, node, node', same, value, layout, ty]
  by_cases select : d.code = .select
  · simp only [rawValue, code, select]
    rcases each 0 with ⟨f, kid, kid'⟩ | ⟨k, kid, kid', _, _, _, _, _, _, value⟩
    · simp only [kid, kid', bind, Except.bind]
    · simp only [kid, kid', bind, Except.bind, value]
      -- the chosen kid
      have chosen (i : Nat) : (r'.kid n i >>= value') = (r.kid n i >>= value₀) := by
        rcases each i with ⟨f, kid, kid'⟩ | ⟨k, kid, kid', _, _, _, _, _, _, value⟩
        · simp only [kid, kid', bind, Except.bind]
        · simp only [kid, kid', bind, Except.bind, value]
      cases value₀ k with
      | error f => rfl
      | ok p =>
        cases p with
        | none => rfl
        | some p => exact chosen _
  rw [rawValue_other load convert select, rawValue_other (code ▸ load) (code ▸ convert)
    (code ▸ select), code]
  split
  · rcases each 0 with ⟨f, kid, kid'⟩ | ⟨k, kid, kid', _, _, _, _, _, _, value⟩
    · simp only [kid, kid', bind, Except.bind]
    · simp only [kid, kid', bind, Except.bind, value]
  split
  · rcases each 0 with ⟨f, kid, kid'⟩ | ⟨k, kid, kid', x, x', node, node', same, _, value⟩
    · simp only [kid, kid', bind, Except.bind]
    rcases each 1 with ⟨f, kid₁, kid₁'⟩ | ⟨j, kid₁, kid₁', y, y', node₁, node₁', same₁, _, value₁⟩
    · simp only [kid, kid', kid₁, kid₁', bind, Except.bind]
    · simp only [kid, kid', kid₁, kid₁', bind, Except.bind, node, node', node₁, node₁', same, same₁,
        value, value₁, layout]
  · simp only [leafValue, code, attrs]

/-- The walk below a node contains those below its kids. -/
theorem walk_of_kid {fuel : Nat} (walk : r.subtreeWithin (fuel + 1) n = .ok ms)
    (found : r.node? n = some d) (mem : k ∈ d.kids) :
    ∃ ns, r.subtreeWithin fuel k = .ok ns ∧ ∀ m ∈ ns, m ∈ ms := by
  simp only [subtreeWithin, node_of found, bind_eq_ok, mapM_eq_ok] at walk
  obtain ⟨_, node, each, below, same⟩ := walk
  obtain rfl := Except.ok.inj node
  obtain rfl := Except.ok.inj same
  obtain ⟨i, inside, rfl⟩ := List.getElem_of_mem mem
  have inside' : i < each.length := below.length_eq ▸ inside
  refine ⟨each[i], below.get inside inside', fun m here => List.mem_cons_of_mem _ ?_⟩
  exact List.mem_flatten.mpr ⟨_, List.getElem_mem inside', here⟩

theorem root_mem_walk {fuel : Nat} (walk : r.subtreeWithin fuel n = .ok ms) :
    n ∈ ms ∧ ∃ d, r.node? n = some d := by
  cases fuel with
  | zero => cases walk
  | succ fuel =>
    simp only [subtreeWithin, bind_eq_ok] at walk
    obtain ⟨d, node, each, _, same⟩ := walk
    obtain rfl := Except.ok.inj same
    exact ⟨List.mem_cons_self, d, node?_of_node node⟩

/-- What stands in the place of the leaf `u`: another leaf of its type and value. -/
def LeafFor (r r' : Region) (env : Env) (u lit : NodeId) : Prop :=
  ∃ d d', r.node? u = some d ∧ r'.node? lit = some d' ∧ d'.ty = d.ty ∧ d.code ≠ .lda ∧
    d'.code ≠ .lda ∧ ∀ f f', r'.evalWithin env (f' + 1) lit = r.evalWithin env (f + 1) u

theorem indirectValue_of_ne {above : Node} (other : d.code ≠ .lda) :
    indirectValue env above d = .ok none := by
  unfold indirectValue
  split
  · contradiction
  · rfl

/-- A tree keeps its value where one of its leaves was replaced by one of the same value. -/
theorem evalWithin_swapped {fuel f₁ f₂ : Nat} (layout : r'.layout = r.layout)
    (walk : r.subtreeWithin fuel e = .ok ms)
    (others : ∀ m ∈ ms, m ≠ u → r'.core m = (r.core m).map (Node.swapped u lit))
    (self : u ∈ ms → LeafFor r r' env u lit) (deep₁ : fuel ≤ f₁) (deep₂ : fuel ≤ f₂) :
    r'.evalWithin env f₂ (swapped u lit e) = r.evalWithin env f₁ e := by
  induction fuel generalizing e ms f₁ f₂ with
  | zero => cases walk
  | succ fuel ih =>
    obtain ⟨f₁, rfl⟩ : ∃ f, f₁ = f + 1 := ⟨f₁ - 1, by omega⟩
    obtain ⟨f₂, rfl⟩ : ∃ f, f₂ = f + 1 := ⟨f₂ - 1, by omega⟩
    obtain ⟨mem, d, found⟩ := root_mem_walk walk
    by_cases same : e = u
    · subst same
      obtain ⟨_, _, _, _, _, _, _, value⟩ := self mem
      rw [swapped_self]
      exact value f₁ f₂
    · have core := others e mem same
      rw [core_of found] at core
      obtain ⟨d', found', core⟩ := Option.map_eq_some_iff.mp core
      have ty : d'.core.ty = d.core.ty := by rw [core]; rfl
      have ty : d'.ty = d.ty := ty
      rw [swapped_of_ne same, evalWithin, evalWithin, node_of found, node_of found']
      simp only [bind, Except.bind]
      rw [rawValue_swapped found found' core layout fun k inKids => ?_, ty, layout]
      obtain ⟨ns, walkK, sub⟩ := walk_of_kid walk found inKids
      have valueK := ih walkK (fun m here => others m (sub m here)) (fun here => self (sub u here))
        (by omega : fuel ≤ f₁) (by omega : fuel ≤ f₂)
      obtain ⟨memK, x, foundK⟩ := root_mem_walk walkK
      by_cases leaf : k = u
      · subst leaf
        obtain ⟨x, x', foundK, foundK', same, code, code', _⟩ := self (sub k memK)
        refine ⟨x, x', node_of foundK, ?_, same, fun above => ?_, valueK⟩
        · rw [swapped_self, node_of foundK']
        · rw [indirectValue_of_ne code, indirectValue_of_ne code']
      · have coreK := others k (sub k memK) leaf
        rw [core_of foundK] at coreK
        obtain ⟨x', foundK', coreK⟩ := Option.map_eq_some_iff.mp coreK
        have fields : x'.core.ty = x.core.ty ∧ x'.core.code = x.core.code ∧
            x'.core.attrs = x.core.attrs := by
          rw [coreK]
          exact ⟨rfl, rfl, rfl⟩
        obtain ⟨ty, code, attrs⟩ : x'.ty = x.ty ∧ x'.code = x.code ∧ x'.attrs = x.attrs := fields
        refine ⟨x, x', node_of foundK, ?_, ty, fun above => ?_, valueK⟩
        · rw [swapped_of_ne leaf, node_of foundK']
        · simp only [indirectValue, code, attrs]

end Region

/-- Bringing a word into a type again changes nothing, whatever the type. -/
theorem Ty.wrapInt_idem (l : Layout) (s : Scalar) (v : Word) :
    (Ty.scalar s).wrapInt l ((Ty.scalar s).wrapInt l v) = (Ty.scalar s).wrapInt l v := by
  by_cases truth : s = .bool
  · subst truth
    exact Ty.wrapInt_wrapInt rfl v
  have unfolded (x : Word) : (Ty.scalar s).wrapInt l x =
      if s.isSigned then x.signExtended (s.byteSize l * 8)
      else if s.isUnsigned then x.zeroExtended (s.byteSize l * 8) else x := by
    unfold Ty.wrapInt
    cases s <;> first | contradiction | rfl
  rw [unfolded v]
  split
  · rename_i signed
    have positive : 0 < s.byteSize l * 8 := by
      cases s <;> first | exact absurd signed Bool.false_ne_true | simp [Scalar.byteSize]
    rw [unfolded, if_pos signed, Word.signExtended_signExtended v positive le_rfl]
  · rename_i signed
    split
    · rename_i unsigned
      rw [unfolded, if_neg signed, if_pos unsigned, Word.zeroExtended_zeroExtended v le_rfl]
    · rename_i unsigned
      rw [unfolded, if_neg signed, if_neg unsigned]

/-- A word that was brought into a type, floating or not, is there what it was before. -/
theorem Value.normalize_of_normalizeInt {l : Layout} {t : Ty}
    (normal : t.normalizeInt l v = .ok w) :
    (Value.int w).normalize l t = (Value.int v).normalize l t := by
  cases t with
  | scalar s =>
    have both : (Ty.scalar s).wrapInt l v = w ∧ (Ty.scalar s).normalizeInt l w = .ok w := by
      cases s with
      | bool =>
        obtain rfl := Except.ok.inj normal
        exact ⟨rfl, congrArg Except.ok (Ty.wrapInt_idem l .bool v)⟩
      | _ =>
        obtain ⟨bits, width, same⟩ := bind_eq_ok.mp normal
        obtain rfl := Except.ok.inj same
        exact ⟨rfl, bind_eq_ok.mpr ⟨bits, width, congrArg Except.ok (Ty.wrapInt_idem l _ v)⟩⟩
    cases float : (Ty.scalar s).isFloat with
    | true =>
      have same : (Ty.scalar s).wrapInt l v = v := by
        cases s with
        | f32 | f64 | f128 => rfl
        | _ => exact absurd float Bool.false_ne_true
      rw [← both.1, same]
    | false => simp only [Value.normalize, float, Bool.false_eq_true, if_false, both.2, normal]
  | _ => rw [← Except.ok.inj normal]

/-! ### One read -/

/-- A read of the register `q` that only its parent holds. -/
def Region.ReadsAt (r : Region) (q : Nat) (u : NodeId) : Prop :=
  ∃ d p, r.node? u = some d ∧ d.code = .pr ∧ d.attrs.reg = q ∧ d.parent = some p ∧ r.HeldBy u p

namespace Traded

variable (t : Traded v u lit r r')
include t

theorem old (found : r.node? m = some d) : m ≠ lit := by
  rintro rfl
  rw [t.next, Region.node?_next] at found
  cases found

theorem leafFor (found : r.node? u = some d) (code : d.code = .pr)
    (bound : env.reg d.attrs.reg = some (.int v)) : Region.LeafFor r r' env u lit := by
  obtain ⟨_, w, up, found', normal, core⟩ := t.literal
  obtain rfl := Option.some.inj (found.symm.trans found')
  obtain ⟨block, record, ssa, at_lit⟩ := Region.node?_of_core core
  have other : d.code ≠ .lda := by rw [code]; decide
  refine ⟨d, _, found, at_lit, rfl, other, by simp, fun f f' => ?_⟩
  rw [Region.evalWithin, Region.evalWithin, Region.node_of found, Region.node_of at_lit]
  simp only [bind, Except.bind, Region.rawValue, code, Region.leafValue, Op.isUnary, Op.isBinary,
    Bool.false_eq_true, if_false, bound, Attrs.ofLiteral, Option.mapM, t.layout,
    Value.normalize_of_normalizeInt normal]

theorem kidsOf (other : m ≠ u) (old : m ≠ lit) :
    r'.kidsOf m = (r.kidsOf m).map (List.map (swapped u lit)) := by
  have kids (r₀ : Region) : r₀.kidsOf m = (r₀.core m).map Node.kids := by
    rw [Region.kidsOf, Region.core, Option.map_map]
    rfl
  rw [kids, kids, t.core m other old, Option.map_map, Option.map_map]
  exact congrFun (congrArg _ (funext fun d => Node.kids_swapped)) _

theorem kidsOf_literal : r'.kidsOf lit = some [] := by
  obtain ⟨_, _, _, _, _, core⟩ := t.literal
  obtain ⟨_, _, _, found⟩ := Region.node?_of_core core
  rw [Region.kidsOf, found]
  rfl

theorem readsAt (other : m ≠ u) (h : r.ReadsAt q m) : r'.ReadsAt q m := by
  obtain ⟨d, p, found, code, reg, parent, held⟩ := h
  have core := t.core m other (t.old found)
  rw [Region.core_of found, Option.map_some] at core
  obtain ⟨d', found', core⟩ := Option.map_eq_some_iff.mp core
  have fields : d'.core.code = d.code ∧ d'.core.attrs = d.attrs ∧ d'.core.parent = d.parent := by
    rw [core]
    exact ⟨rfl, rfl, rfl⟩
  obtain ⟨code', attrs', parent'⟩ : d'.code = d.code ∧ d'.attrs = d.attrs ∧ d'.parent = d.parent :=
    fields
  refine ⟨d', p, found', code'.trans code, attrs' ▸ reg, parent'.trans parent,
    fun x dx at_x mem => ?_⟩
  have here : r'.kidsOf x = some dx.kids := by rw [Region.kidsOf, at_x, Option.map_some]
  have apart : x ≠ u := by
    rintro rfl
    rw [t.gone] at at_x
    cases at_x
  by_cases literal : x = lit
  · rw [literal, t.kidsOf_literal, Option.some.injEq] at here
    rw [← here] at mem
    exact absurd mem List.not_mem_nil
  · rw [t.kidsOf apart literal] at here
    obtain ⟨ks, before, kids⟩ := Option.map_eq_some_iff.mp here
    obtain ⟨dx₀, at_x₀, rfl⟩ := Region.node?_of_kidsOf before
    rw [← kids] at mem
    obtain ⟨k, mem₀, same⟩ := List.mem_map.mp mem
    by_cases eq : k = u
    · rw [eq, swapped_self] at same
      exact absurd same.symm (t.old found)
    · rw [swapped_of_ne eq] at same
      exact held x dx₀ at_x₀ (same ▸ mem₀)

theorem deep : r.depthBound ≤ r'.depthBound := by
  rw [Region.depthBound, Region.depthBound, t.size]
  omega

theorem subtree (other : e ≠ u) (walk : r.subtree e = .ok ms) :
    r'.subtree e = .ok (ms.map (swapped u lit)) := by
  have renamed : r'.subtreeWithin r'.depthBound (swapped u lit e) = .ok
      (ms.map (swapped u lit)) := by
    refine Region.subtreeWithin_rename walk (fun m _ ks kids => ?_) t.deep
    by_cases same : m = u
    · rw [same, t.leaf, Option.some.injEq] at kids
      rw [same, swapped_self, t.kidsOf_literal, ← kids]
      rfl
    · obtain ⟨d, found, _⟩ := Region.node?_of_kidsOf kids
      rw [swapped_of_ne same, t.kidsOf same (t.old found), kids, Option.map_some]
  rwa [swapped_of_ne other] at renamed

theorem eval (other : e ≠ u) (reads : r.ReadsAt q u) (bound : env.reg q = some (.int v))
    (walk : r.subtree e = .ok ms) : r'.eval env e = r.eval env e := by
  obtain ⟨d, _, found, code, rfl, _⟩ := reads
  have same : r'.evalWithin env r'.depthBound (swapped u lit e) = r.evalWithin env
      r.depthBound e := by
    refine Region.evalWithin_swapped t.layout walk (fun m mem apart => ?_)
      (fun _ => t.leafFor found code bound) le_rfl t.deep
    obtain ⟨⟨d, found⟩, _⟩ := Region.mem_walk walk mem
    exact t.core m apart (t.old found)
  rwa [swapped_of_ne other] at same

end Traded

/-! ### All reads -/

/-- From `r` to `r'`, the literal `v` was put in the place of the reads `us` of the register `q`. -/
structure Propagated (v : Word) (q : Nat) (us : List NodeId) (r r' : Region) : Prop where
  size : r.nodes.size ≤ r'.nodes.size
  leaf : ∀ u ∈ us, r.kidsOf u = some []
  gone : ∀ u ∈ us, r'.node? u = none
  core : ∀ m ∉ us, m.index < r.nodes.size →
    (∀ d, r.node? m = some d → ∀ u ∈ us, u ∉ d.kids) → r'.core m = r.core m
  carries : ∀ m x, r'.Carries m x → r.Carries m x
  once : ∀ m ∉ us, r.ListedOnce m → r'.ListedOnce m
  walks : ∀ e ms, e ∉ us → r.subtree e = .ok ms →
    ∃ ms', r'.subtree e = .ok ms' ∧ ∀ m ∈ ms', m ∈ ms ∨ r.nodes.size ≤ m.index
  values : ∀ env, env.reg q = some (.int v) → ∀ e ms, e ∉ us → r.subtree e = .ok ms →
    r'.eval env e = r.eval env e

theorem Propagated.refl : Propagated v q [] r r where
  size := le_rfl
  leaf := by simp
  gone := by simp
  core _ _ _ _ := rfl
  carries _ _ := id
  once _ _ := id
  walks _ ms _ walk := ⟨ms, walk, fun _ => .inl⟩
  values _ _ _ _ _ _ := rfl

theorem Propagated.cons {r'' : Region} (reads : ∀ m ∈ u :: us, r.ReadsAt q m) (fresh : u ∉ us)
    (t : Traded v u lit r r') (rest : Propagated v q us r' r'') :
    Propagated v q (u :: us) r r'' where
  size := by
    have := t.size
    have := rest.size
    omega
  leaf := by
    intro m mem
    by_cases same : m = u
    · rw [same]
      exact t.leaf
    · obtain ⟨d, _, found, _⟩ := reads m mem
      have none := rest.leaf m ((List.mem_cons.mp mem).resolve_left same)
      rw [t.kidsOf same (t.old found)] at none
      obtain ⟨ks, kids, empty⟩ := Option.map_eq_some_iff.mp none
      rw [kids, List.map_eq_nil_iff.mp empty]
  gone := by
    intro m mem
    rcases List.mem_cons.mp mem with rfl | mem
    · obtain ⟨d, _, found, _⟩ := reads m List.mem_cons_self
      have inside := Region.lt_size_of_node? found
      have core := rest.core m fresh (by rw [t.size]; omega) fun d' found' => by
        rw [t.gone] at found'
        cases found'
      rw [Region.core, Region.core, t.gone] at core
      exact Option.map_eq_none_iff.mp core
    · exact rest.gone m mem
  core := by
    intro m out inside none
    obtain ⟨other, out⟩ : m ≠ u ∧ m ∉ us := by simpa using out
    have old : m ≠ lit := by
      rintro rfl
      rw [t.next] at inside
      exact Nat.lt_irrefl _ inside
    have first : r'.core m = r.core m := by
      rw [t.core m other old, Region.core]
      cases found : r.node? m with
      | none => rfl
      | some d =>
        have apart : u ∉ d.core.kids := none d found u List.mem_cons_self
        rw [Option.map_some, Option.map_some, Node.swapped_of_not_mem apart]
    refine (rest.core m out (by rw [t.size]; omega) fun d' found' x mem => ?_).trans first
    rw [Region.core_of found'] at first
    obtain ⟨d, found, core⟩ := Option.map_eq_some_iff.mp first.symm
    have kids : d'.core.kids = d.core.kids := by rw [core]
    have kids : d'.kids = d.kids := kids
    rw [kids]
    exact none d found x (List.mem_cons_of_mem u mem)
  carries m x now := t.carries m x (rest.carries m x now)
  once := by
    intro m out once
    obtain ⟨other, out⟩ : m ≠ u ∧ m ∉ us := by simpa using out
    exact rest.once m out (t.once m other once)
  walks := by
    intro e ms out walk
    obtain ⟨other, out⟩ : e ≠ u ∧ e ∉ us := by simpa using out
    obtain ⟨ms', walk', within⟩ := rest.walks e _ out (t.subtree other walk)
    refine ⟨ms', walk', fun m mem => ?_⟩
    rcases within m mem with mapped | fresh
    · obtain ⟨k, before, rfl⟩ := List.mem_map.mp mapped
      by_cases same : k = u
      · rw [same, swapped_self, t.next]
        exact .inr le_rfl
      · rw [swapped_of_ne same]
        exact .inl before
    · rw [t.size] at fresh
      exact .inr (by omega)
  values := by
    intro env bound e ms out walk
    obtain ⟨other, out⟩ : e ≠ u ∧ e ∉ us := by simpa using out
    rw [rest.values env bound e _ out (t.subtree other walk),
      t.eval other (reads u List.mem_cons_self) bound walk]

/-- Read after read. -/
theorem replaceUses_meets (reads : ∀ u ∈ us, r.ReadsAt q u) (distinct : us.Nodup) :
    Meets (us.forM (replaceUse v)) r (fun _ => True) fun _ r' => Propagated v q us r r' := by
  induction us generalizing r with
  | nil => exact .refl
  | cons u us ih =>
    obtain ⟨fresh, distinct⟩ := List.nodup_cons.mp distinct
    obtain ⟨d, p, found, _, _, parent, held⟩ := reads u List.mem_cons_self
    refine Meets.bind (replaceUse_trades found parent held) fun _ r₁ t => ?_
    refine (ih (fun m mem => ?_) distinct).to fun _ r' rest => .cons reads fresh t rest
    refine t.readsAt ?_ (reads m (List.mem_cons_of_mem u mem))
    rintro rfl
    exact fresh mem

/-! ### The phi -/

namespace Region

/-- The phi `n` defines the value `i`, in the register `q`, and merges the literals `ks` of one
value `v`. It is listed once, and its literals are its own. -/
structure UniformPhi (r : Region) (n : NodeId) (i : SsaId) (q : Nat) (v : Word)
    (ks : List NodeId) : Prop where
  node : ∃ d, r.node? n = some d ∧ d.code = .phi ∧ d.attrs.reg = q ∧ d.ssa = some i ∧ d.slots = [ks]
  literals : ∀ k ∈ ks, ∃ c, r.node? k = some c ∧ c.intLit? = some v ∧ c.slots = []
  own : ∀ k ∈ ks, r.HeldBy k n
  once : r.ListedOnce n

/-- The nodes at and below `e` are `ms`, none of them a statement. -/
structure ExprTree (r : Region) (e : NodeId) (ms : List NodeId) : Prop where
  walk : r.subtree e = .ok ms
  exprs : ∀ m ∈ ms, ∀ d, r.node? m = some d → d.isStmt = false

end Region

theorem allLiteral_meets {F : Fault → Prop}
    (literals : ∀ k ∈ ks, ∃ c, r.node? k = some c ∧ c.intLit? = some v) :
    Meets (ks.allM fun k => do return (← node k).isIntLit v) r F fun same r' =>
      same = true ∧ r' = r := by
  induction ks with
  | nil => exact ⟨rfl, rfl⟩
  | cons k ks ih =>
    obtain ⟨c, found, literal⟩ := literals k List.mem_cons_self
    rw [List.allM]
    simp only [Edit.node, meets_bind, meets_ask, Region.node_of found, yields_ok, meets_pure,
      Node.isIntLit, literal, beq_self_eq_true]
    exact ih fun k' mem => literals k' (List.mem_cons_of_mem k mem)

theorem uniformValue_meets {i : SsaId} {F : Fault → Prop} (phi : r.UniformPhi n i q v ks) :
    Meets (uniformValue? n) r F fun x r' => r' = r ∧ x = if ks = [] then none else some v := by
  obtain ⟨d, found, _, _, _, slots⟩ := phi.node
  have kids : r.kids n 0 = .ok ks := Region.kids_of found (by rw [slots]; rfl)
  have literals : ∀ k ∈ ks, ∃ c, r.node? k = some c ∧ c.intLit? = some v := by
    intro k mem
    obtain ⟨c, found, literal, _⟩ := phi.literals k mem
    exact ⟨c, found, literal⟩
  simp only [uniformValue?, Edit.kids, meets_bind, meets_ask, kids, yields_ok]
  cases ks with
  | nil => exact ⟨rfl, rfl⟩
  | cons k ks =>
    obtain ⟨c, foundK, literal⟩ := literals k List.mem_cons_self
    simp only [Edit.node, meets_bind, meets_ask, Region.node_of foundK, yields_ok, literal]
    refine (allLiteral_meets fun k' mem => literals k' (List.mem_cons_of_mem k mem)).to ?_
    rintro _ _ ⟨rfl, rfl⟩
    exact ⟨rfl, rfl⟩

theorem allAttached_meets {s : Setting} {F : Fault → Prop} (reads : ∀ u ∈ us, r.ReadsAt q u) :
    Meets (allAttached s us) r F fun all r' => all = true ∧ r' = r := by
  induction us with
  | nil => exact ⟨rfl, rfl⟩
  | cons u us ih =>
    obtain ⟨d, p, found, _, _, parent, _⟩ := reads u List.mem_cons_self
    simp only [allAttached, Edit.node, meets_bind, meets_ask, Region.node_of found, yields_ok,
      parent, Option.isSome_some, require, if_true, meets_pure]
    exact ih fun m mem => reads m (List.mem_cons_of_mem u mem)

theorem Aside.eval {ns : List NodeId} (h : Aside ns r r') (walk : r.subtree e = .ok ms)
    (apart : ∀ m ∈ ms, m ∉ ns) : r'.eval env e = r.eval env e := by
  have deep : r.depthBound ≤ r'.depthBound := by rw [Region.depthBound, Region.depthBound, h.size]
  have live {m : NodeId} (mem : m ∈ ms) : m ≠ r.next := by
    rintro rfl
    obtain ⟨⟨d, found⟩, _⟩ := Region.mem_walk walk mem
    rw [Region.node?_next] at found
    cases found
  have same : r'.evalWithin env r'.depthBound (swapped r.next r.next e) =
      r.evalWithin env r.depthBound e := by
    refine Region.evalWithin_swapped h.layout walk (fun m mem _ => ?_)
      (fun mem => absurd rfl (live mem))
      le_rfl deep
    rw [h.core m (apart m mem)]
    cases r.core m with
    | none => rfl
    | some d => rw [Option.map_some, Node.swapped_rfl]
  rwa [swapped_of_ne (live (Region.root_mem_walk walk).1)] at same

theorem Region.walk_of_leaves (kids : r.kidsOf n = some ks)
    (leaves : ∀ k ∈ ks, r.kidsOf k = some []) : r.subtree n = .ok (n :: ks) := by
  obtain ⟨d, found, rfl⟩ := node?_of_kidsOf kids
  have inside := lt_size_of_node? found
  obtain ⟨fuel, deep⟩ : ∃ fuel, r.depthBound = fuel + 1 + 1 :=
    ⟨r.nodes.size - 1, by rw [depthBound]; omega⟩
  have each : d.kids.mapM (r.subtreeWithin (fuel + 1)) = .ok (d.kids.map ([·])) := by
    rw [mapM_eq_ok, List.forall₂_map_right_iff, List.forall₂_same]
    intro k mem
    obtain ⟨c, foundK, none⟩ := node?_of_kidsOf (leaves k mem)
    simp [subtreeWithin, node_of foundK, none, bind, Except.bind, pure, Except.pure]
  rw [subtree, deep, subtreeWithin, node_of found]
  simp only [bind, Except.bind, each, pure, Except.pure, ← List.flatMap_def,
    List.flatMap_singleton']

theorem Region.isReleased_of_none (none : r.node? n = none) (inside : n.index < r.nodes.size) :
    r.isReleased n = true := by
  by_contra live
  obtain ⟨d, found⟩ := exists_of_not_isReleased (Bool.eq_false_iff.mpr live) inside
  rw [none] at found
  cases found

section propagation

variable {i : SsaId} {x : SsaValue} {s : Setting}

namespace Region.UniformPhi

variable (phi : r.UniformPhi n i q v ks)
include phi

theorem constant (mem : k ∈ ks) : ∃ c, r.node? k = some c ∧ c.code = .const ∧ c.kids = [] := by
  obtain ⟨c, found, literal, leaf⟩ := phi.literals k mem
  refine ⟨c, found, ?_, by simp [Node.kids, leaf]⟩
  unfold Node.intLit? at literal
  split at literal
  · assumption
  · cases literal

theorem live : ∀ m ∈ n :: ks, r.Live m := by
  intro m mem
  rcases List.mem_cons.mp mem with rfl | mem
  · obtain ⟨d, found, _⟩ := phi.node
    exact ⟨d, found⟩
  · obtain ⟨c, found, _⟩ := phi.constant mem
    exact ⟨c, found⟩

theorem kids : r.kidsOf n = some ks := by
  obtain ⟨d, found, _, _, _, slots⟩ := phi.node
  simp [kidsOf, found, Node.kids, slots]

/-- No read of the register is the phi or one of its literals. -/
theorem not_read (reads : ∀ u ∈ us, r.ReadsAt q u) : ∀ m ∈ n :: ks, m ∉ us := by
  have other {m : NodeId} {c : Node} (found : r.node? m = some c) (code : c.code ≠ .pr) :
      m ∉ us := by
    intro mem
    obtain ⟨c', _, found', pr, _⟩ := reads m mem
    rw [Option.some.inj (found.symm.trans found')] at code
    exact code pr
  intro m mem
  rcases List.mem_cons.mp mem with rfl | mem
  · obtain ⟨d, found, code, _⟩ := phi.node
    exact other found (by rw [code]; decide)
  · obtain ⟨c, found, code, _⟩ := phi.constant mem
    exact other found (by rw [code]; decide)

/-- The phi keeps its literals while its reads are replaced. -/
theorem walk (reads : ∀ u ∈ us, r.ReadsAt q u) (done : Propagated v q us r r') :
    r'.subtree n = .ok (n :: ks) := by
  have out := phi.not_read reads
  have kept {m : NodeId} {js : List NodeId} (mem : m ∈ n :: ks) (kids : r.kidsOf m = some js)
      (none : ∀ u ∈ us, u ∉ js) : r'.kidsOf m = some js := by
    obtain ⟨d, found, rfl⟩ := node?_of_kidsOf kids
    have core : r'.core m = r.core m := by
      refine done.core m (out m mem) (lt_size_of_node? found) fun d' found' => ?_
      rwa [Option.some.inj (found'.symm.trans found)]
    rw [core_of found] at core
    obtain ⟨d', found', cores⟩ := Option.map_eq_some_iff.mp core
    have same : d'.core.kids = d.core.kids := by rw [cores]
    have same : d'.kids = d.kids := same
    rw [kidsOf, found', Option.map_some, same]
  refine walk_of_leaves (kept List.mem_cons_self phi.kids fun u mem held => ?_) fun k mem => ?_
  · exact out u (List.mem_cons_of_mem n held) mem
  · obtain ⟨c, found, _, leaf⟩ := phi.constant mem
    have none : r.kidsOf k = some [] := by rw [kidsOf, found, Option.map_some, leaf]
    exact kept (List.mem_cons_of_mem n mem) none fun _ _ => List.not_mem_nil

/-- An expression above another node has neither the phi nor one of its literals in it. -/
theorem apart (tree : r.ExprTree e ms) (mem : u ∈ ms) (above : u ≠ e) : ∀ m ∈ n :: ks, m ∉ ms := by
  have noPhi : n ∉ ms := by
    intro inside
    obtain ⟨d, found, code, _⟩ := phi.node
    have expr := tree.exprs n inside d found
    rw [Node.isStmt, code] at expr
    exact absurd expr (by decide)
  intro m part inside
  rcases List.mem_cons.mp part with rfl | literal
  · exact noPhi inside
  rcases (mem_walk tree.walk inside).2 with rfl | ⟨x, holder, d, found, held⟩
  · -- a literal has nothing below it
    obtain ⟨c, found, _, leaf⟩ := phi.constant literal
    have alone : r.subtree m = .ok [m] :=
      walk_of_leaves (by rw [kidsOf, found, Option.map_some, leaf]) fun _ mem =>
        absurd mem List.not_mem_nil
    obtain rfl := Except.ok.inj (alone.symm.trans tree.walk)
    exact above (List.mem_singleton.mp mem)
  · obtain rfl := phi.own m literal x d found held
    exact noPhi holder

end Region.UniformPhi

/-- What is left where the phi `n` of the value `i`, with the reads `us`, was propagated. -/
structure PhiGone (n : NodeId) (i : SsaId) (q : Nat) (v : Word) (us : List NodeId)
    (r r' : Region) : Prop where
  unused : r'.Unused i
  carried : ∀ m, ¬r'.Carries m i
  phi : r'.isReleased n = true
  reads : ∀ u ∈ us, r'.isReleased u = true
  unlisted : ∀ b, ¬r'.Lists b n
  values : ∀ env, env.reg q = some (.int v) → ∀ e ms, r.ExprTree e ms →
    (∃ u ∈ us, u ∈ ms ∧ u ≠ e) → r'.eval env e = r.eval env e

/-- Dropping the phi once its reads were replaced. -/
theorem PhiGone.of_dropped {r₁ r₂ : Region} (phi : r.UniformPhi n i q v ks)
    (reads : ∀ u ∈ us, r.ReadsAt q u) (only : ∀ m, r.Carries m i → m = n ∨ m ∈ us)
    (done : Propagated v q us r r₁) (kept : Aside [] r₁ r₂) (unused : r₂.Unused i)
    (dropped : Aside (n :: ks) r₂ r') (gone : ∀ m ∈ n :: ks, r'.node? m = none)
    (unlisted : ∀ b, ¬r'.Lists b n) : PhiGone n i q v us r r' := by
  have both : Aside (n :: ks) r₁ r' :=
    (kept.mono fun m mem => absurd mem List.not_mem_nil).trans dropped
  have size : r.nodes.size ≤ r'.nodes.size := by
    rw [both.size]
    exact done.size
  have goneReads : ∀ u ∈ us, r'.node? u = none := by
    intro u mem
    have core := both.core u fun part => phi.not_read reads u part mem
    rw [Region.core, Region.core, done.gone u mem] at core
    exact Option.map_eq_none_iff.mp core
  refine ⟨dropped.unused i unused, fun m now => ?_, ?_, fun u mem => ?_, unlisted, ?_⟩
  · have before := done.carries m i (both.carries m i now)
    obtain ⟨d, found, _⟩ := now
    rcases only m before with rfl | read
    · rw [gone m List.mem_cons_self] at found
      cases found
    · rw [goneReads m read] at found
      cases found
  · obtain ⟨d, found, _⟩ := phi.node
    exact Region.isReleased_of_none (gone n List.mem_cons_self)
      ((Region.lt_size_of_node? found).trans_le size)
  · obtain ⟨d, _, found, _⟩ := reads u mem
    exact Region.isReleased_of_none (goneReads u mem)
      ((Region.lt_size_of_node? found).trans_le size)
  · rintro env bound e ms tree ⟨u, read, mem, above⟩
    have apart := phi.apart tree mem above
    have out : e ∉ us := by
      intro other
      have alone := Region.walk_of_leaves (done.leaf e other) fun _ mem =>
        absurd mem List.not_mem_nil
      obtain rfl := Except.ok.inj (alone.symm.trans tree.walk)
      exact above (List.mem_singleton.mp mem)
    obtain ⟨ms', walk', within⟩ := done.walks e ms out tree.walk
    rw [both.eval walk' fun m mem part => ?_, done.values env bound e ms out tree.walk]
    rcases within m mem with old | fresh
    · exact apart m part old
    · obtain ⟨d, found⟩ := phi.live m part
      exact absurd (Region.lt_size_of_node? found) (Nat.not_lt.mpr fresh)

theorem propagatePhi_meets (phi : r.UniformPhi n i q v ks) (known : r.ssaValue i = .ok x)
    (reads : ∀ u ∈ x.uses, r.Carries u i ∧ r.ReadsAt q u)
    (only : ∀ m, r.Carries m i → m = n ∨ m ∈ x.uses) :
    Meets (propagatePhi s n) r (fun _ => True) fun out r' => (out = none ↔ ks = []) ∧
      ∀ unlinked, out = some unlinked → PhiGone n i q v x.uses.toList r r' := by
  obtain ⟨d, found, code, _, carried, slots⟩ := phi.node
  have readsAt : ∀ u ∈ x.uses.toList, r.ReadsAt q u := fun u mem => (reads u mem).2
  unfold propagatePhi
  refine Meets.bind (uniformValue_meets phi) ?_
  rintro value _ ⟨rfl, rfl⟩
  simp only [Edit.node, meets_bind, meets_ask, Region.node_of found, yields_ok, carried]
  by_cases empty : ks = []
  · rw [if_pos empty]
    refine ⟨iff_of_true rfl empty, ?_⟩
    rintro unlinked ⟨⟩
  · rw [if_neg empty]
    simp only [ssaValue, meets_bind, meets_ask, known, yields_ok]
    refine (allAttached_meets readsAt).to ?_
    rintro _ r ⟨rfl, rfl⟩
    rw [if_pos rfl]
    refine Meets.bind (replaceUses_meets readsAt x.uses.nodup) fun _ r₁ done => ?_
    refine Meets.bind clearSsaUses_aside ?_
    rintro _ r₂ ⟨cleared, unused⟩
    refine Meets.bind (report_quiet (F := fun _ => True) rfl).aside fun _ r₃ noted => ?_
    have kept := cleared.trans noted
    have walk := Region.subtree_congr (phi.walk readsAt done) kept.size
      (funext fun m => kept.core m List.not_mem_nil)
    have once := kept.once n List.not_mem_nil
      (done.once n (phi.not_read readsAt n List.mem_cons_self) phi.once)
    refine Meets.bind (deleteStmt_aside walk once) ?_
    rintro unlinked r' ⟨dropped, gone, unlisted⟩
    refine ⟨by simpa using empty, fun _ _ => ?_⟩
    exact .of_dropped phi readsAt only done kept (noted.unused i unused) dropped gone unlisted

/-- Propagating a phi of one literal leaves nothing of its value, and keeps the values above its
reads wherever the register holds the literal. Only a phi without operands stays. -/
theorem propagatePhi_preserves_eval {out : Option Bool} (phi : r.UniformPhi n i q v ks)
    (known : r.ssaValue i = .ok x) (reads : ∀ u ∈ x.uses, r.Carries u i ∧ r.ReadsAt q u)
    (only : ∀ m, r.Carries m i → m = n ∨ m ∈ x.uses)
    (run : (propagatePhi s n).run r = .ok (out, r')) :
    (out = none ↔ ks = []) ∧ ∀ unlinked, out = some unlinked →
      PhiGone n i q v x.uses.toList r r' :=
  (meets_iff.mp (propagatePhi_meets phi known reads only)).1 out r' run

end propagation

/-! ### Two regions -/

/-- What holds of the nodes at all places holds of all nodes. -/
theorem Region.forall_node {P : NodeId → Node → Prop}
    (h : ∀ i < r.nodes.size, ∀ d ∈ r.node? ⟨i⟩, P ⟨i⟩ d) : ∀ m d, r.node? m = some d → P m d :=
  fun m d found => h m.index (lt_size_of_node? found) d found

theorem Region.listedOnce_of_blocks (h : ∀ i < r.blocks.size, ∀ ss ∈ r.blocks[i]?, n ∈ ss →
    (r.node? n).bind Node.block = some ⟨i⟩ ∧ ss.count n = 1) : r.ListedOnce n := by
  intro b ss listed mem
  rw [stmts, lookup] at listed
  split at listed
  · rename_i look
    obtain rfl := Except.ok.inj listed
    obtain ⟨inside, _⟩ := Array.getElem?_eq_some_iff.mp look
    obtain ⟨named, once⟩ := h b.index inside _ look mem
    exact ⟨Option.bind_eq_some_iff.mp named, once⟩
  · cases listed

/-- `$1 = phi(300, 300)` in 32 bits, `$2 = $1 + 1` in 8 bits, and `$3 = -$1` as a float. -/
def Region.mergedAlike : Region :=
  { Region.empty ⟨8⟩ with
    nodes := #[
      some { Node.fresh .phi (.scalar .i32) (.ofRegister 1) [[⟨1⟩, ⟨2⟩]] with
        block := some ⟨0⟩, ssa := some ⟨0⟩ },
      some { Node.ofInt 300 (.scalar .i32) with parent := some ⟨0⟩ },
      some { Node.ofInt 300 (.scalar .i32) with parent := some ⟨0⟩ },
      some { Node.fresh .stpr (.scalar .i8) (.ofRegister 2) [[⟨4⟩]] with block := some ⟨0⟩ },
      some { Node.fresh .add (.scalar .i8) .none [[⟨5⟩], [⟨6⟩]] with parent := some ⟨3⟩ },
      some { Node.fresh .pr (.scalar .i8) (.ofRegister 1) [] with
        parent := some ⟨4⟩, ssa := some ⟨0⟩ },
      some { Node.ofInt 1 (.scalar .i8) with parent := some ⟨4⟩ },
      some { Node.fresh .stpr (.scalar .f64) (.ofRegister 3) [[⟨8⟩]] with block := some ⟨0⟩ },
      some { Node.fresh .neg (.scalar .f64) .none [[⟨9⟩]] with parent := some ⟨7⟩ },
      some { Node.fresh .pr (.scalar .f64) (.ofRegister 1) [] with
        parent := some ⟨8⟩, ssa := some ⟨0⟩ }]
    blocks := #[[⟨0⟩, ⟨3⟩, ⟨7⟩]]
    ssa := #[⟨some ⟨0⟩, ⟨[⟨5⟩, ⟨9⟩], by simp⟩⟩] }

/-- The phi and both reads go, and the sum is 45 as it was. -/
theorem propagatePhi_mergedAlike : ∃ r',
    (propagatePhi ⟨.standard, true⟩ ⟨0⟩).run .mergedAlike = .ok (some true, r') ∧
    PhiGone ⟨0⟩ ⟨0⟩ 1 300 [⟨5⟩, ⟨9⟩] .mergedAlike r' ∧
    r'.eval (Env.empty.setReg 1 (.int 300)) ⟨4⟩ =
      Region.mergedAlike.eval (Env.empty.setReg 1 (.int 300)) ⟨4⟩ ∧
    Region.mergedAlike.eval (Env.empty.setReg 1 (.int 300)) ⟨4⟩ = .ok (some (.int 45)) := by
  have ran : Meets (propagatePhi ⟨.standard, true⟩ ⟨0⟩) .mergedAlike (fun _ => False)
      fun out _ => out = some true := by
    decide +kernel
  obtain ⟨_, r', run, rfl⟩ := ran.ends
  have held (u p : NodeId) (h : ∀ i < 10, ∀ d ∈ Region.mergedAlike.node? ⟨i⟩,
      u ∈ d.kids → (⟨i⟩ : NodeId) = p) : Region.mergedAlike.HeldBy u p :=
    Region.forall_node (P := fun m d => u ∈ d.kids → m = p) h
  have phi : Region.mergedAlike.UniformPhi ⟨0⟩ ⟨0⟩ 1 300 [⟨1⟩, ⟨2⟩] := by
    refine ⟨⟨_, rfl, rfl, rfl, rfl, rfl⟩, ?_, ?_, ?_⟩
    · simp only [List.forall_mem_cons]
      exact ⟨⟨_, rfl, rfl, rfl⟩, ⟨_, rfl, rfl, rfl⟩, by simp⟩
    · simp only [List.forall_mem_cons]
      exact ⟨held _ _ (by decide), held _ _ (by decide), by simp⟩
    · refine Region.listedOnce_of_blocks ?_
      show ∀ i < 1, ∀ ss ∈ (#[[⟨0⟩, ⟨3⟩, ⟨7⟩]] : Array (List NodeId))[i]?, (⟨0⟩ : NodeId) ∈ ss →
        (Region.mergedAlike.node? ⟨0⟩).bind Node.block = some ⟨i⟩ ∧ ss.count ⟨0⟩ = 1
      decide
  have reads : ∀ u ∈ ([⟨5⟩, ⟨9⟩] : List NodeId), Region.mergedAlike.Carries u ⟨0⟩ ∧
      Region.mergedAlike.ReadsAt 1 u := by
    simp only [List.forall_mem_cons]
    exact ⟨⟨⟨_, rfl, rfl⟩, _, ⟨4⟩, rfl, rfl, rfl, rfl, held _ _ (by decide)⟩,
      ⟨⟨_, rfl, rfl⟩, _, ⟨8⟩, rfl, rfl, rfl, rfl, held _ _ (by decide)⟩, by simp⟩
  have only : ∀ m d, Region.mergedAlike.node? m = some d → d.ssa = some ⟨0⟩ →
      m = ⟨0⟩ ∨ m ∈ ([⟨5⟩, ⟨9⟩] : List NodeId) := by
    refine Region.forall_node ?_
    show ∀ i < 10, ∀ d ∈ Region.mergedAlike.node? ⟨i⟩, d.ssa = some ⟨0⟩ →
      (⟨i⟩ : NodeId) = ⟨0⟩ ∨ (⟨i⟩ : NodeId) ∈ ([⟨5⟩, ⟨9⟩] : List NodeId)
    decide
  have gone := (propagatePhi_preserves_eval phi rfl reads
    (fun m carried => carried.elim fun d h => only m d h.1 h.2) run).2 true rfl
  have tree : Region.mergedAlike.ExprTree ⟨4⟩ [⟨4⟩, ⟨5⟩, ⟨6⟩] := by
    refine ⟨rfl, fun m mem => ?_⟩
    revert m
    show ∀ m ∈ ([⟨4⟩, ⟨5⟩, ⟨6⟩] : List NodeId), ∀ d ∈ Region.mergedAlike.node? m, d.isStmt = false
    decide
  exact ⟨r', run, gone, gone.values _ rfl _ _ tree ⟨⟨5⟩, by decide, by decide, by decide⟩, rfl⟩

/-- `$1 = phi(5)` and `$2 = $1 + 5`, where the phi and the sum have their literal in common, and the
block lists the phi twice. -/
def Region.sharedLiteral : Region :=
  { Region.empty ⟨8⟩ with
    nodes := #[
      some { Node.ofInt 5 (.scalar .i32) with parent := some ⟨3⟩ },
      some { Node.fresh .phi (.scalar .i32) (.ofRegister 1) [[⟨0⟩]] with
        block := some ⟨0⟩, ssa := some ⟨0⟩ },
      some { Node.fresh .pr (.scalar .i32) (.ofRegister 1) [] with
        parent := some ⟨3⟩, ssa := some ⟨0⟩ },
      some { Node.fresh .add (.scalar .i32) .none [[⟨2⟩], [⟨0⟩]] with parent := some ⟨4⟩ },
      some { Node.fresh .stpr (.scalar .i32) (.ofRegister 2) [[⟨3⟩]] with block := some ⟨0⟩ }]
    blocks := #[[⟨1⟩, ⟨4⟩, ⟨1⟩]]
    ssa := #[⟨some ⟨1⟩, ⟨[⟨2⟩], by simp⟩⟩] }

/-- The phi takes the literal of the sum along, which had a value, and is still listed. -/
theorem propagatePhi_sharedLiteral : ∃ r',
    (propagatePhi ⟨.standard, true⟩ ⟨1⟩).run .sharedLiteral = .ok (some true, r') ∧
    r'.blocks = #[[⟨4⟩, ⟨1⟩]] ∧
    Region.sharedLiteral.eval (Env.empty.setReg 1 (.int 5)) ⟨3⟩ = .ok (some (.int 10)) ∧
    r'.eval (Env.empty.setReg 1 (.int 5)) ⟨3⟩ = .error (.misuse (.readReleased ⟨0⟩)) := by
  have ran : Meets (propagatePhi ⟨.standard, true⟩ ⟨1⟩) .sharedLiteral (fun _ => False)
      fun out r' => out = some true ∧ r'.blocks = #[[⟨4⟩, ⟨1⟩]] ∧
        Yields (r'.eval (Env.empty.setReg 1 (.int 5)) ⟨3⟩) (· = .misuse (.readReleased ⟨0⟩))
          fun _ => False := by
    decide +kernel
  obtain ⟨_, r', run, rfl, listed, stuck⟩ := ran.ends
  refine ⟨r', run, listed, rfl, ?_⟩
  cases value : r'.eval (Env.empty.setReg 1 (.int 5)) ⟨3⟩ with
  | error f =>
    rw [value] at stuck
    exact congrArg Except.error stuck
  | ok x =>
    rw [value] at stuck
    cases stuck

end Peephole
