import Peephole.Proofs.Places

/-!
# Trees that stand for terms

What it takes for the tree at a node to stand for a term, and what an edit of that tree
may do: put another tree in its place, made of its own nodes and of new ones, and touch
nothing else.
-/

namespace Peephole

open Edit

/-- The tree at `n`, with the nodes `ns`, spells the well-typed term `e`, in a region that is as
calm as its records are regarded. -/
structure Stands (linked : Links) (l : Layout) (r : Region) (e : Term) (n : NodeId)
    (ns : List NodeId) : Prop where
  spells : Spells (r.shape linked) e n ns
  typed : e.typed l = true
  layout : r.layout = l
  calm : r.Calm linked

/-- From `r` to `r'`, nodes other than `ns` keep their shapes. -/
structure Kept (linked : Links) (r r' : Region) (ns : List NodeId) : Prop where
  shape : ∀ m, m ∉ ns → m.index < r.nodes.size → r'.shape linked m = r.shape linked m
  grown : Grown linked r r'

/-- Every node of `ns'` is one of `ns` or is made after `r`. -/
def Within (r : Region) (ns ns' : List NodeId) : Prop :=
  ∀ m ∈ ns', m ∈ ns ∨ r.nodes.size ≤ m.index

/-- From `r` to `r'`, the tree with the nodes `ns` was turned into one at `n'` that stands
for a term with `P`. -/
def Turns (linked : Links) (l : Layout) (r : Region) (ns : List NodeId) (P : Term → Prop)
    (n' : NodeId) (r' : Region) : Prop :=
  ∃ e' ns', Stands linked l r' e' n' ns' ∧ Within r ns ns' ∧ Kept linked r r' ns ∧ P e'

variable {linked : Links} {l : Layout} {r r' r'' : Region} {e a : Term} {n n' k m : NodeId}
  {ns ns' ns'' : List NodeId} {P Q : Term → Prop}

theorem Within.refl : Within r ns ns := fun _ => .inl

theorem Within.trans (first : Within r ns ns') (second : Within r' ns' ns'')
    (grows : r.nodes.size ≤ r'.nodes.size) : Within r ns ns'' := by
  intro m mem
  rcases second m mem with mem | fresh
  · exact first m mem
  · exact .inr (grows.trans fresh)

theorem Kept.refl : Kept linked r r ns := ⟨fun _ _ _ => rfl, .refl⟩

theorem Kept.trans (first : Kept linked r r' ns) (second : Kept linked r' r'' ns')
    (within : Within r ns ns') : Kept linked r r'' ns := by
  refine ⟨fun m outside old => ?_, first.grown.trans second.grown⟩
  have outside' : m ∉ ns' := by
    intro mem
    rcases within m mem with mem | fresh
    · exact outside mem
    · omega
  rw [second.shape m outside' (old.trans_le first.grown.size), first.shape m outside old]

theorem Kept.mono (h : Kept linked r r' ns) (sub : ∀ m ∈ ns, m ∈ ns') : Kept linked r r' ns' :=
  ⟨fun m outside => h.shape m fun mem => outside (sub m mem), h.grown⟩

theorem Edited.kept {g : NodeId → Option Node} (h : Edited linked r r' g)
    (same : ∀ m, m ∉ ns → m.index < r.nodes.size → g m = r.shape linked m) :
    Kept linked r r' ns :=
  ⟨fun m outside old => h.shape ▸ same m outside old, h.grown⟩

theorem Turns.trans (within : Within r ns ns') (kept : Kept linked r r' ns)
    (next : Turns linked l r' ns' P n' r'') : Turns linked l r ns P n' r'' := by
  obtain ⟨e', ns'', stands, within', kept', holds⟩ := next
  exact ⟨e', ns'', stands, within.trans within' kept.grown.size, kept.trans kept' within, holds⟩

theorem Turns.imp (h : Turns linked l r ns P n' r') (results : ∀ e, e.typed l = true → P e → Q e) :
    Turns linked l r ns Q n' r' := by
  obtain ⟨e', ns', stands, within, kept, holds⟩ := h
  exact ⟨e', ns', stands, within, kept, results e' stands.typed holds⟩

/-- An edit of a tree that has been turned already. -/
theorem Turns.next {α : Type} {m : Edit α} {F : Fault → Prop} {R : α → Term → Prop}
    {root : α → NodeId} (h : Turns linked l r ns P n r')
    (edit : ∀ e ns', Stands linked l r' e n ns' → P e →
      Meets m r' F fun x r'' => Turns linked l r' ns' (R x) (root x) r'') :
    Meets m r' F fun x r'' => Turns linked l r ns (R x) (root x) r'' := by
  obtain ⟨e, ns', stands, within, kept, holds⟩ := h
  exact (edit e ns' stands holds).to fun x r'' turned => turned.trans within kept

/-- What rules read off a node that spells the root of a term. -/
structure Reads (d : Node) (e : Term) : Prop where
  code : d.code = e.code
  ty : d.ty = e.ty
  ssa : d.ssa = none
  intLit : d.intLit? = e.lit?
  floatLit : d.floatLit? = none

namespace Stands

theorem turns (h : Stands linked l r e n ns) (holds : P e) : Turns linked l r ns P n r :=
  ⟨e, ns, h, .refl, .refl, holds⟩

theorem lt_size (h : Stands linked l r e n ns) (mem : m ∈ ns) : m.index < r.nodes.size := by
  obtain ⟨_, _, _, _, shape⟩ := h.spells.plain m mem
  exact Region.lt_size_of_shape shape

theorem next_not_mem (h : Stands linked l r e n ns) : r.next ∉ ns :=
  fun mem => Nat.lt_irrefl _ (h.lt_size mem)

/-- A tree stands on where its nodes keep their shapes. -/
theorem congr (h : Stands linked l r e n ns)
    (shape : ∀ m ∈ ns, r'.shape linked m = r.shape linked m)
    (grown : Grown linked r r') : Stands linked l r' e n ns :=
  ⟨h.spells.congr shape, h.typed, grown.layout.trans h.layout, grown.calm h.calm⟩

theorem kept (h : Stands linked l r e n ns) (other : Kept linked r r' ns')
    (apart : ∀ m ∈ ns, m ∉ ns') : Stands linked l r' e n ns :=
  h.congr (fun m mem => other.shape m (apart m mem) (h.lt_size mem)) other.grown

theorem edited {g : NodeId → Option Node} (h : Stands linked l r e n ns)
    (other : Edited linked r r' g) (same : ∀ m ∈ ns, g m = r.shape linked m) :
    Stands linked l r' e n ns :=
  h.congr (fun m mem => by rw [other.shape, same m mem]) other.grown

/-- The node at the root, as rules read it. -/
theorem reads (h : Stands linked l r e n ns) : ∃ d, r.node? n = some d ∧ Reads d e := by
  have const := Term.isLit_of_typed h.typed
  obtain ⟨attrs, slots, shape⟩ := h.spells.root
  obtain ⟨parent, record, found, _⟩ := Region.node?_of_shape shape
  refine ⟨_, found, rfl, rfl, rfl, ?_, ?_⟩
  · cases e with
    | lit ty v =>
      obtain ⟨_, attrs', shape', value⟩ := h.spells
      have same : attrs = attrs' :=
        congrArg Node.attrs (Option.some.inj (shape.symm.trans shape'))
      have int := Ty.isInt_of_isSmall (Term.isSmall_of_typed h.typed)
      simp only [Term.ty] at int
      simp [Node.intLit?, Term.lit?, Term.code, Term.ty, int, same, value]
    | _ => simp_all [Node.intLit?, Term.isLit, Term.lit?]
  · have notFloat := (Ty.kind_of_isSmall (Term.isSmall_of_typed h.typed)).1
    simp only [Node.floatLit?, notFloat]
    split <;> simp_all

/-- A unary node over a tree. -/
theorem of_operand {op : Op} {t : Ty} {attrs : Attrs} (h : Stands linked l r a k ns)
    (apart : n ∉ ns)
    (shape : r.shape linked n = some (.fresh op t attrs [[k]]))
    (typed : (Term.unary op t a).typed l = true) : Stands linked l r (.unary op t a) n (n :: ns) :=
  ⟨⟨List.nodup_cons.mpr ⟨apart, h.spells.nodup⟩, k, ns, attrs, rfl, shape, h.spells⟩, typed,
    h.layout, h.calm⟩

/-- The operand of a unary node. -/
theorem operand {op : Op} {t : Ty} (h : Stands linked l r (.unary op t a) n ns) :
    ∃ k below attrs, ns = n :: below ∧ r.shape linked n = some (.fresh op t attrs [[k]]) ∧
      r.kid n 0 = .ok k ∧ Stands linked l r a k below ∧ n ∉ below := by
  obtain ⟨distinct, k, below, attrs, rfl, shape, spelled⟩ := h.spells
  obtain ⟨parent, record, found, _⟩ := Region.node?_of_shape shape
  exact ⟨k, below, attrs, rfl, shape, Region.kid_of found rfl,
    ⟨spelled, (Term.typed_unary.mp h.typed).1, h.layout, h.calm⟩, (List.nodup_cons.mp distinct).1⟩

end Stands

/-! ### Events and types -/

section notes

variable {F : Fault → Prop}

theorem report_meets (linked : Links) (x : Event) :
    Meets (report x) r F fun _ r' => Edited linked r r' (r.shape linked) :=
  ⟨rfl, .of_records le_rfl rfl rfl rfl rfl (fun _ => id) fun _ d _ found own =>
    .inr ⟨d, found, own⟩⟩

theorem fired_meets (linked : Links) (rule : Rule) (n : NodeId) :
    Meets (fired rule n) r F fun _ r' => Edited linked r r' (r.shape linked) :=
  report_meets linked _

theorem intern_meets (linked : Links) (t : Ty) :
    Meets (intern t) r F fun t' r' => t' = t ∧ Edited linked r r' (r.shape linked) := by
  simp only [intern, meets_bind, meets_modify, meets_pure]
  refine ⟨trivial, ?_⟩
  split
  · exact .refl
  · exact ⟨rfl, .of_records le_rfl rfl rfl rfl rfl (fun _ => id) fun _ d _ found own =>
      .inr ⟨d, found, own⟩⟩

theorem Edited.kept_same (h : Edited linked r r' (r.shape linked)) : Kept linked r r' ns :=
  h.kept fun _ _ _ => rfl

theorem Stands.edited_same (h : Stands linked l r e n ns)
    (other : Edited linked r r' (r.shape linked)) : Stands linked l r' e n ns :=
  h.edited other fun _ _ => rfl

end notes

/-! ### Places -/

section places

variable {place : Place} {k' : NodeId} {before below after : List NodeId} {attrs : Attrs}
  {slots : NodeId → List (List NodeId)}

/-- Another tree was put at a place: the node above was changed accordingly, or the tree
still has the same root. -/
theorem Turns.refill (around : place.Around (r.shape linked) before after slots)
    (above : r.shape linked n = some (.fresh place.code place.ty attrs (slots k)))
    (distinct : (n :: (before ++ (below ++ after))).Nodup)
    (inner : Turns linked l r below P k' r')
    (outer : k' = k ∧ r'' = r' ∨ Edited linked r' r'' (Function.update (r'.shape linked) n
      (some (.fresh place.code place.ty attrs (slots k')))))
    (typed : ∀ a, a.typed l = true → P a → (place.fill a).typed l = true) :
    Turns linked l r (n :: (before ++ (below ++ after)))
      (fun e => ∃ a, e = place.fill a ∧ P a) n r'' := by
  obtain ⟨a, below', stands, within, kept, holds⟩ := inner
  obtain ⟨apart, distinct⟩ := List.nodup_cons.mp distinct
  simp only [List.mem_append, not_or] at apart
  obtain ⟨notBefore, notBelow, notAfter⟩ := apart
  have oldAbove := Region.lt_size_of_shape above
  have aroundOld : ∀ m, m ∈ before ∨ m ∈ after → m.index < r.nodes.size := by
    intro m mem
    obtain ⟨_, _, _, _, shape⟩ := around.plain m (List.mem_append.mpr mem)
    exact Region.lt_size_of_shape shape
  have aroundApart : ∀ m, m ∈ before ∨ m ∈ after → m ∉ below := by
    obtain ⟨_, rest, cross⟩ := List.nodup_append.mp distinct
    obtain ⟨_, _, cross'⟩ := List.nodup_append.mp rest
    rintro m (mem | mem) other
    · exact cross m mem m (List.mem_append_left _ other) rfl
    · exact cross' m other m mem rfl
  have aroundNe : ∀ m, m ∈ before ∨ m ∈ after → m ≠ n := by
    rintro m (mem | mem) rfl
    · exact notBefore mem
    · exact notAfter mem
  -- a node of the new tree is not above or around the place: it is old and below, or new
  have fresh : ∀ m ∈ below', m ≠ n ∧ m ∉ before ∧ m ∉ after := by
    intro m mem
    refine ⟨?_, ?_, ?_⟩
    · rintro rfl
      rcases within m mem with mem | new
      · exact notBelow mem
      · omega
    · intro other
      rcases within m mem with mem | new
      · exact aroundApart m (.inl other) mem
      · have := aroundOld m (.inl other); omega
    · intro other
      rcases within m mem with mem | new
      · exact aroundApart m (.inr other) mem
      · have := aroundOld m (.inr other); omega
  have final : Grown linked r' r'' ∧ (∀ m, m ≠ n → r''.shape linked m = r'.shape linked m) ∧
      r''.shape linked n = some (.fresh place.code place.ty attrs (slots k')) := by
    rcases outer with ⟨rfl, rfl⟩ | edited
    · exact ⟨.refl, fun _ _ => rfl, (kept.shape n notBelow oldAbove).trans above⟩
    · refine ⟨edited.grown, fun m other => ?_, ?_⟩
      · rw [edited.shape, Function.update_of_ne other]
      · rw [edited.shape, Function.update_self]
  obtain ⟨grown, others, self⟩ := final
  have around' : place.Around (r''.shape linked) before after slots := by
    refine around.congr fun m mem => ?_
    rw [others m (aroundNe m mem), kept.shape m (aroundApart m mem) (aroundOld m mem)]
  have distinct' : (n :: (before ++ (below' ++ after))).Nodup := by
    have nodupBelow := stands.spells.nodup
    grind
  refine ⟨place.fill a, n :: (before ++ (below' ++ after)), ⟨?_, typed a stands.typed holds,
    grown.layout.trans stands.layout, grown.calm stands.calm⟩, ?_,
    ⟨?_, kept.grown.trans grown⟩, a, rfl, holds⟩
  · refine Place.spells_fill.mpr ⟨distinct', k', before, below', after, attrs, slots, rfl, around',
      self, ?_⟩
    exact stands.spells.congr fun m mem => others m (fresh m mem).1
  · intro m mem
    simp only [List.mem_cons, List.mem_append] at mem ⊢
    rcases mem with mem | mem | mem | mem
    · exact .inl (.inl mem)
    · exact .inl (.inr (.inl mem))
    · rcases within m mem with mem | new
      · exact .inl (.inr (.inr (.inl mem)))
      · exact .inr new
    · exact .inl (.inr (.inr (.inr mem)))
  · intro m outside old
    simp only [List.mem_cons, List.mem_append, not_or] at outside
    rw [others m outside.1, kept.shape m outside.2.2.1 old]

/-- The tree at a place, the node above it, and the trees around it. -/
theorem Stands.unfill (place : Place) (h : Stands linked l r (place.fill a) n ns) :
    ∃ k before below after attrs slots, ns = n :: (before ++ (below ++ after)) ∧
      place.Around (r.shape linked) before after slots ∧
      r.shape linked n = some (.fresh place.code place.ty attrs (slots k)) ∧
      Stands linked l r a k below ∧ n ∉ below ∧
      ∀ m, m ∈ before ∨ m ∈ after → m ≠ n ∧ m ∉ below := by
  obtain ⟨distinct, k, before, below, after, attrs, slots, rfl, around, above, spelled⟩ :=
    Place.spells_fill.mp h.spells
  refine ⟨k, before, below, after, attrs, slots, rfl, around, above,
    ⟨spelled, Place.typed_of_fill h.typed, h.layout, h.calm⟩, ?_⟩
  simp only [List.nodup_cons, List.mem_append, not_or, List.nodup_append] at distinct
  obtain ⟨⟨notBefore, notBelow, notAfter⟩, _, ⟨_, _, beyond⟩, cross⟩ := distinct
  refine ⟨notBelow, ?_⟩
  rintro m (mem | mem)
  · exact ⟨fun eq => notBefore (eq ▸ mem), fun other => cross m mem m (.inl other) rfl⟩
  · exact ⟨fun eq => notAfter (eq ▸ mem), fun other => beyond m other m mem rfl⟩

/-- The tree at a place, which may be edited as long as it keeps its root. -/
theorem Stands.focus (place : Place) (h : Stands linked l r (place.fill a) n ns)
    (kid : r.kid n place.slot = .ok k) :
    ∃ below, Stands linked l r a k below ∧ ∀ P r', Turns linked l r below P k r' →
      (∀ a, a.typed l = true → P a → (place.fill a).typed l = true) →
      Turns linked l r ns (fun e => ∃ a, e = place.fill a ∧ P a) n r' := by
  have distinct := h.spells.nodup
  obtain ⟨k', before, below, after, attrs, slots, rfl, around, above, stands, _⟩ := h.unfill place
  obtain ⟨parent, record, found, _⟩ := Region.node?_of_shape above
  obtain rfl : k = k' := by
    have := kid.symm.trans (Region.kid_of found (around.slot_eq k'))
    injection this
  refine ⟨below, stands, fun P r' inner typed => ?_⟩
  exact Turns.refill around above distinct inner (.inl ⟨rfl, rfl⟩) typed

variable {F : Fault → Prop} {R : Bool → Term → Prop} {pass : Pass}

/-- The node above a place, after the tree there was turned. -/
theorem Turns.above (inner : Turns linked l r below P k' r')
    (above : r.shape linked n = some (.fresh place.code place.ty attrs (slots k)))
    (apart : n ∉ below) :
    r'.shape linked n = some (.fresh place.code place.ty attrs (slots k)) ∧ r'.Live k' ∧
      k' ≠ n := by
  obtain ⟨a', below', stands, within, kept, _⟩ := inner
  have old := Region.lt_size_of_shape above
  refine ⟨(kept.shape n apart old).trans above, stands.spells.live stands.spells.root_mem, ?_⟩
  rintro rfl
  rcases within _ stands.spells.root_mem with mem | fresh
  · exact apart mem
  · omega

/-- A pass over the operand at a place. -/
theorem refineSlot_meets (place : Place) (h : Stands linked l r (place.fill a) n ns)
    (operand : ∀ k below, Stands linked l r a k below → Meets (pass k) r F fun out r' =>
      Turns linked l r below (R out.2) out.1 r')
    (typed : ∀ c a, a.typed l = true → R c a → (place.fill a).typed l = true) :
    Meets (refineSlot pass n place.slot) r F fun changed r' =>
      Turns linked l r ns (fun e => ∃ a, e = place.fill a ∧ R changed a) n r' := by
  have distinct := h.spells.nodup
  obtain ⟨k, before, below, after, attrs, slots, rfl, around, above, stands, apart, _⟩ :=
    h.unfill place
  obtain ⟨parent, record, found, _⟩ := Region.node?_of_shape above
  have kid : r.kid? n place.slot = .ok (some k) := Region.kid?_of found (around.slot_eq k)
  unfold refineSlot
  simp only [meets_bind, meets_ask, kid, yields_ok]
  refine (operand k below stands).to fun out r' inner => ?_
  obtain ⟨k', changed⟩ := out
  by_cases same : k' = k
  · simp only [same, ne_eq, not_true_eq_false, if_false, meets_pure]
    exact Turns.refill around above distinct (same ▸ inner) (.inl ⟨rfl, rfl⟩) (typed changed)
  · obtain ⟨above', live, _⟩ := inner.above above apart
    have inside : place.slot < (slots k).length :=
      (List.getElem?_eq_some_iff.mp (around.slot_eq k)).1
    simp only [ne_eq, same, not_false_eq_true, if_true, meets_bind]
    refine (setKid_meets above' inside live).to fun _ r'' edited => ?_
    rw [around.set_slot] at edited
    exact Turns.refill around above distinct inner (.inr edited) (typed changed)

end places

end Peephole
