import Peephole.Proofs.Stands
import Peephole.Refine.Unary

/-!
# Moves of trees

What the edits that rules are made of do to trees that stand for terms: detaching a tree
and dropping the rest, putting a new tree in place, building on a tree, and copying it.
-/

namespace Peephole

open Edit

variable {linked : Links} {l : Layout} {r r' r₁ : Region} {e a b : Term} {n k k₁ : NodeId}
  {ns below rest : List NodeId} {place inner : Place} {F : Fault → Prop} {op : Op} {t : Ty}
  {v : Word} {P : Term → Prop}

/-- A tree that was turned into one that stands for a given term. -/
theorem Turns.becomes (h : Turns linked l r ns (fun x => x = e) n r') (holds : P e) :
    Turns linked l r ns P n r' :=
  h.imp fun _ _ same => same ▸ holds

/-! ### Dropping -/

theorem Stands.discardTree_meets (h : Stands linked l r e n ns) :
    Meets (discardTree n) r (fun _ => linked = .live) fun _ r' => Kept linked r r' ns := by
  refine (Peephole.discardTree_meets h.spells.tree h.spells.nodup h.spells.plain h.calm).to
    fun _ r' dropped => dropped.kept fun m outside _ => ?_
  rw [if_neg outside]

/-- Dropping what is left above a tree that was detached. -/
theorem discardRest_meets (stands : Stands linked l r a k below) (taken : Kept linked r r₁ rest)
    (tree : Grove r₁.kidsOf [n] rest) (plain : Plain (r₁.shape linked) rest)
    (parts : (rest ++ below).Perm ns) (distinct : ns.Nodup) :
    Meets (discardTree n) r₁ (fun _ => linked = .live) fun _ r' =>
      Turns linked l r ns (fun e => e = a) k r' := by
  obtain ⟨distinctRest, _, cross⟩ := List.nodup_append.mp (parts.nodup_iff.mpr distinct)
  have apart : ∀ m ∈ below, m ∉ rest := fun m mem other => cross m other m mem rfl
  have sub : ∀ m ∈ rest ++ below, m ∈ ns := fun m mem => parts.subset mem
  have stands₁ := stands.kept taken apart
  refine (Peephole.discardTree_meets tree distinctRest plain stands₁.calm).to fun _ r' dropped => ?_
  have kept : Kept linked r₁ r' rest := dropped.kept fun m outside _ => if_neg outside
  refine ⟨a, below, stands₁.kept kept apart, ?_, ?_, rfl⟩
  · exact fun m mem => .inl (sub m (List.mem_append_right rest mem))
  · exact (taken.trans kept .refl).mono fun m mem => sub m (List.mem_append_left below mem)

/-- Once the tree at a place was detached, the rest is still a tree. -/
theorem Place.Around.grove_rest {before after ks : List NodeId} {attrs : Attrs}
    {slots : NodeId → List (List NodeId)}
    (around : place.Around (r.shape linked) before after slots) (k : NodeId)
    (inside : Grove r.kidsOf ks below)
    (above : r.shape linked n =
      some (.fresh place.code place.ty attrs ((slots k).set place.slot ks))) :
    Grove r.kidsOf [n] (n :: (before ++ (below ++ after))) := by
  have same : r.kidsOf = fun m => (r.shape linked m).map Node.kids :=
    funext fun m => Region.kidsOf_shape
  rw [same] at inside ⊢
  exact Grove.singleton_iff.mpr ⟨_, _, by rw [above]; rfl, around.grove k inside, rfl⟩

/-- Detaching the operand at a place and dropping the rest. -/
theorem spliceKid_meets (place : Place) (h : Stands linked l r (place.fill a) n ns) :
    Meets (spliceKid n place.slot) r (fun _ => linked = .live) fun k r' =>
      Turns linked l r ns (fun e => e = a) k r' := by
  have distinct := h.spells.nodup
  obtain ⟨k, before, below, after, attrs, slots, rfl, around, above, stands, _, apart⟩ :=
    h.unfill place
  obtain ⟨parent, record, found, _⟩ := Region.node?_of_shape above
  have kid : r.kid n place.slot = .ok k := Region.kid_of found (around.slot_eq k)
  have live : ∀ k' ∈ [k], r.Live k' := by simpa using stands.spells.live stands.spells.root_mem
  unfold spliceKid
  simp only [Edit.kid, meets_bind, meets_ask, kid, yields_ok, meets_discard]
  refine (takeKid_meets above (around.slot_eq k) live).to fun _ r₁ taken => ?_
  have others : ∀ m, m ≠ n → r₁.shape linked m = r.shape linked m := fun m other => by
    rw [taken.shape, Function.update_of_ne other]
  have self : r₁.shape linked n =
      some (.fresh place.code place.ty attrs ((slots k).set place.slot [])) := by
    rw [taken.shape, Function.update_self]
  have around₁ : place.Around (r₁.shape linked) before after slots :=
    around.congr fun m mem => others m (apart m mem).1
  have kept : Kept linked r r₁ (n :: (before ++ after)) :=
    taken.kept fun m outside _ =>
      Function.update_of_ne (fun eq => outside (by simp [eq])) _ _
  have plain : Plain (r₁.shape linked) (n :: (before ++ after)) := by
    intro m mem
    rcases List.mem_cons.mp mem with rfl | mem
    · exact ⟨_, _, _, _, self⟩
    · exact around₁.plain m mem
  have parts : (n :: (before ++ after) ++ below).Perm (n :: (before ++ (below ++ after))) := by
    refine List.perm_iff_count.mpr fun m => ?_
    simp only [List.count_append, List.count_cons, List.cons_append]
    omega
  refine (discardRest_meets stands kept (around₁.grove_rest k .nil self) plain parts distinct).to ?_
  exact fun _ _ => id

/-- `spliceKid_meets`, after a note. -/
theorem spliceNoted_meets (rule : Rule) (place : Place)
    (h : Stands linked l r (place.fill a) n ns) (holds : P a) :
    Meets (fired rule n) r (fun _ => linked = .live) fun _ r₁ =>
      Meets (spliceKid n place.slot) r₁ (fun _ => linked = .live) fun k r' =>
        Turns linked l r ns P k r' := by
  refine (fired_meets linked rule n).to fun _ r₁ noted => ?_
  refine (spliceKid_meets place (h.edited_same noted)).to fun k r' turned => ?_
  exact (turned.becomes holds).trans .refl noted.kept_same

/-- Detaching an operand of the operand at a place and dropping the rest. -/
theorem spliceBelow_meets (place inner : Place)
    (h : Stands linked l r (place.fill (inner.fill a)) n ns)
    (kid₁ : r.kid n place.slot = .ok k₁) (kid : r.kid k₁ inner.slot = .ok k) :
    Meets (do discard (takeKid k₁ inner.slot); discardTree n) r (fun _ => linked = .live)
      fun _ r' => Turns linked l r ns (fun e => e = a) k r' := by
  have distinct := h.spells.nodup
  obtain ⟨k', before, middle, after, attrs, slots, rfl, around, above, mid, notMid, apart⟩ :=
    h.unfill place
  obtain ⟨parent, record, found, _⟩ := Region.node?_of_shape above
  obtain rfl : k₁ = k' := by
    have := kid₁.symm.trans (Region.kid_of found (around.slot_eq k'))
    injection this
  have midRoot := mid.spells.root_mem
  obtain ⟨k', before₁, below, after₁, attrs₁, slots₁, rfl, around₁, above₁, stands, _, apart₁⟩ :=
    mid.unfill inner
  obtain ⟨parent₁, record₁, found₁, _⟩ := Region.node?_of_shape above₁
  obtain rfl : k = k' := by
    have := kid.symm.trans (Region.kid_of found₁ (around₁.slot_eq k'))
    injection this
  have live : ∀ k' ∈ [k], r.Live k' := by simpa using stands.spells.live stands.spells.root_mem
  simp only [meets_bind, meets_discard]
  refine (takeKid_meets above₁ (around₁.slot_eq k) live).to fun _ r₁ taken => ?_
  have others : ∀ m, m ≠ k₁ → r₁.shape linked m = r.shape linked m := fun m other => by
    rw [taken.shape, Function.update_of_ne other]
  have self : r₁.shape linked k₁ =
      some (.fresh inner.code inner.ty attrs₁ ((slots₁ k).set inner.slot [])) := by
    rw [taken.shape, Function.update_self]
  have aroundIn : inner.Around (r₁.shape linked) before₁ after₁ slots₁ :=
    around₁.congr fun m mem => others m (apart₁ m mem).1
  have aroundOut : place.Around (r₁.shape linked) before after slots :=
    around.congr fun m mem => others m fun eq => (apart m mem).2 (eq ▸ midRoot)
  have self' : r₁.shape linked n = some (.fresh place.code place.ty attrs
      ((slots k₁).set place.slot [k₁])) := by
    rw [others n fun eq => notMid (eq ▸ midRoot), above, aroundOut.set_slot]
  have tree := aroundOut.grove_rest k₁ (aroundIn.grove_rest k .nil self) self'
  have kept : Kept linked r r₁ (n :: (before ++ (k₁ :: (before₁ ++ after₁) ++ after))) :=
    taken.kept fun m outside _ => Function.update_of_ne (fun eq => outside (by simp [eq])) _ _
  have plain : Plain (r₁.shape linked) (n :: (before ++ (k₁ :: (before₁ ++ after₁) ++ after))) := by
    intro m mem
    have outer := aroundOut.plain m
    have inner := aroundIn.plain m
    simp only [List.mem_append, List.mem_cons] at mem outer inner
    rcases mem with rfl | mem | (rfl | mem | mem) | mem
    · exact ⟨_, _, _, _, self'⟩
    · exact outer (.inl mem)
    · exact ⟨_, _, _, _, self⟩
    · exact inner (.inl mem)
    · exact inner (.inr mem)
    · exact outer (.inr mem)
  refine discardRest_meets stands kept tree plain ?_ distinct
  refine List.perm_iff_count.mpr fun m => ?_
  simp only [List.count_append, List.count_cons, List.cons_append]
  omega

/-! ### Building -/

theorem next_index (r : Region) : r.next.index = r.nodes.size := rfl

/-- A new node on top of trees that stand already leaves them as they are. -/
theorem Edited.kept_next {d : Node}
    (h : Edited linked r r' (Function.update (r.shape linked) r.next (some d))) :
    Kept linked r r' ns := by
  refine h.kept fun m _ old => Function.update_of_ne ?_ _ _
  rintro rfl
  exact Nat.lt_irrefl _ old

theorem intLiteral_meets (typed : (Term.lit t v).typed l = true) (layout : r.layout = l)
    (calm : r.Calm linked) :
    Meets (intLiteral v t) r F fun k r' => k = r.next ∧
      Stands linked l r' (.lit t v) k [k] ∧ Kept linked r r' [] := by
  refine (build_meets linked (by simp)).to fun k r' built => ?_
  obtain ⟨rfl, edited⟩ := built
  refine ⟨rfl, ⟨⟨rfl, .ofLiteral (.int v), ?_, rfl⟩, typed, edited.grown.layout.trans layout,
    edited.grown.calm calm⟩, edited.kept_next⟩
  rw [edited.shape, Function.update_self]

/-- Dropping a tree beside which a new one was built. -/
theorem replaceBy_meets (h : Stands linked l r e n ns) (new : Stands linked l r₁ a k below)
    (fresh : ∀ m ∈ below, r.nodes.size ≤ m.index) (kept : Kept linked r r₁ []) :
    Meets (replaceBy n k) r₁ (fun _ => linked = .live) fun k' r' =>
      Turns linked l r ns (fun e => e = a) k' r' := by
  have stands := h.kept kept fun _ _ => List.not_mem_nil
  have apart : ∀ m ∈ below, m ∉ ns := fun m mem other =>
    Nat.lt_irrefl _ ((h.lt_size other).trans_le (fresh m mem))
  unfold replaceBy
  simp only [meets_bind, meets_pure]
  refine stands.discardTree_meets.to fun _ r' dropped => ?_
  refine ⟨a, below, new.kept dropped apart, fun m mem => .inr (fresh m mem), ?_, rfl⟩
  exact (kept.mono fun _ mem => absurd mem List.not_mem_nil).trans dropped .refl

/-- A literal made to be put in place of a tree, with a note in between. -/
theorem replaceByLiteral_meets (rule : Rule) (h : Stands linked l r e n ns)
    (typed : (Term.lit t v).typed l = true) (holds : P (.lit t v)) :
    Meets (intLiteral v t) r (fun _ => linked = .live) fun k r₁ =>
      Meets (fired rule n) r₁ (fun _ => linked = .live) fun _ r₂ =>
        Meets (replaceBy n k) r₂ (fun _ => linked = .live) fun k' r' =>
          Turns linked l r ns P k' r' := by
  refine (intLiteral_meets typed h.layout h.calm).to fun k r₁ built => ?_
  obtain ⟨rfl, stands, kept⟩ := built
  refine (fired_meets linked rule n).to fun _ r₂ noted => ?_
  refine (replaceBy_meets h (stands.edited_same noted) ?_ (kept.trans noted.kept_same .refl)).to ?_
  · simp [next_index]
  · exact fun k' r' turned => turned.becomes holds

/-- A literal made to be put in place of a tree. -/
theorem replaceByNew_meets (h : Stands linked l r e n ns)
    (typed : (Term.lit t v).typed l = true) (holds : P (.lit t v)) :
    Meets (intLiteral v t) r (fun _ => linked = .live) fun k r₁ =>
      Meets (replaceBy n k) r₁ (fun _ => linked = .live) fun k' r' =>
        Turns linked l r ns P k' r' := by
  refine (intLiteral_meets typed h.layout h.calm).to fun k r₁ built => ?_
  obtain ⟨rfl, stands, kept⟩ := built
  refine (replaceBy_meets h stands (by simp [next_index]) kept).to ?_
  exact fun k' r' turned => turned.becomes holds

/-- A literal put in place of a tree, in the type of the tree and after a note. -/
theorem replaceByInt_meets (rule : Rule) (h : Stands linked l r e n ns)
    (typed : (Term.lit e.ty v).typed l = true) (holds : P (.lit e.ty v)) :
    Meets (fired rule n) r (fun _ => linked = .live) fun _ r₁ =>
      Meets (replaceByInt n v) r₁ (fun _ => linked = .live) fun k r' =>
        Turns linked l r ns P k r' := by
  refine (fired_meets linked rule n).to fun _ r₁ noted => ?_
  have stands := h.edited_same noted
  obtain ⟨d, found, reads⟩ := stands.reads
  simp only [replaceByInt, Edit.node, meets_bind, meets_ask, Region.node_of found, yields_ok,
    reads.ty]
  refine (replaceByNew_meets stands typed holds).to fun k r₂ made => ?_
  exact made.to fun k' r' turned => turned.trans .refl noted.kept_same

theorem buildUnary_meets {attrs : Attrs} (h : Stands linked l r a k below)
    (typed : (Term.unary op t a).typed l = true) :
    Meets (build op t attrs [[k]]) r F fun n r' => n = r.next ∧
      Stands linked l r' (.unary op t a) n (n :: below) ∧ Kept linked r r' [] := by
  have live := h.spells.live h.spells.root_mem
  refine (build_meets linked (by simpa using live)).to fun n r' built => ?_
  obtain ⟨rfl, edited⟩ := built
  have kept : Kept linked r r' [] := edited.kept_next
  have stands := h.kept kept fun _ _ => List.not_mem_nil
  have shape : r'.shape linked r.next = some (.fresh op t attrs [[k]]) := by
    rw [edited.shape, Function.update_self]
  exact ⟨rfl, stands.of_operand h.next_not_mem shape typed, kept⟩

theorem buildBinary_meets {attrs : Attrs} {k₀ : NodeId} {below₀ below₁ : List NodeId}
    (left : Stands linked l r a k₀ below₀) (right : Stands linked l r b k₁ below₁)
    (apart : ∀ m ∈ below₀, m ∉ below₁) (typed : (Term.binary op t a b).typed l = true) :
    Meets (build op t attrs [[k₀], [k₁]]) r F fun n r' => n = r.next ∧
      Stands linked l r' (.binary op t a b) n (n :: (below₀ ++ below₁)) ∧ Kept linked r r' [] := by
  have live₀ := left.spells.live left.spells.root_mem
  have live₁ := right.spells.live right.spells.root_mem
  refine (build_meets linked (by simp [live₀, live₁])).to fun n r' built => ?_
  obtain ⟨rfl, edited⟩ := built
  have kept : Kept linked r r' [] := edited.kept_next
  have left' := left.kept kept fun _ _ => List.not_mem_nil
  have right' := right.kept kept fun _ _ => List.not_mem_nil
  have distinct : (r.next :: (below₀ ++ below₁)).Nodup := by
    refine List.nodup_cons.mpr ⟨?_, left.spells.nodup.append right.spells.nodup fun _ => apart _⟩
    simp [left.next_not_mem, right.next_not_mem]
  refine ⟨rfl, ⟨⟨distinct, k₀, below₀, k₁, below₁, attrs, rfl, ?_, left'.spells, right'.spells⟩,
    typed, left'.layout, left'.calm⟩, kept⟩
  rw [edited.shape, Function.update_self]

/-- A tree with a new root on a tree that stood before. -/
theorem Turns.of_wrap (h : Stands linked l r' e n ns) (kept : Kept linked r r' [])
    (nodes : ∀ m ∈ ns, m ∈ below ∨ r.nodes.size ≤ m.index) :
    Turns linked l r below (fun e' => e' = e) n r' :=
  ⟨e, ns, h, nodes, kept.mono fun _ mem => absurd mem List.not_mem_nil, rfl⟩

theorem unary_meets (h : Stands linked l r a k below) (typed : (Term.unary op t a).typed l = true)
    (unary : op.isUnary = true) :
    Meets (Edit.unary op t k) r F fun n r' =>
      Turns linked l r below (fun e => e = .unary op t a) n r' := by
  unfold Edit.unary
  simp only [unary, Bool.not_true, Bool.false_eq_true, if_false]
  refine (buildUnary_meets h typed).to fun n r' built => ?_
  obtain ⟨rfl, stands, kept⟩ := built
  refine Turns.of_wrap stands kept fun m mem => ?_
  rcases List.mem_cons.mp mem with rfl | mem
  · exact .inr le_rfl
  · exact .inl mem

theorem convert_meets (h : Stands linked l r a k below) (word : t.isWord = true) :
    Meets (convert k t) r F fun n r' =>
      Turns linked l r below (fun e => e = .unary .cvt t a) n r' :=
  unary_meets h (Term.typed_cvt h.typed word) rfl

theorem logicalNot_meets (h : Stands linked l r a k below) :
    Meets (logicalNot k) r F fun n r' =>
      Turns linked l r below (fun e => e = .unary .lnot (.scalar .bool) a) n r' := by
  unfold logicalNot scalarType
  refine Meets.bind (intern_meets linked _) fun ty r₁ noted => ?_
  obtain ⟨rfl, noted⟩ := noted
  refine (unary_meets (h.edited_same noted) (Term.typed_lnot h.typed) rfl).to fun n r' turned => ?_
  exact turned.trans .refl noted.kept_same

theorem zeroFor_of_isSmall (small : t.isSmall = true) : zeroFor t = intLiteral 0#64 t := by
  simp [zeroFor, Ty.isInt_of_isSmall small, Ty.kind_of_isSmall small]

theorem judgement_meets (h : Stands linked l r a k below) :
    Meets (judgement k) r F fun n r' => Turns linked l r below
      (fun e => e = .binary .ne (.scalar .bool) a (.lit a.ty 0#64)) n r' := by
  have small := Term.isSmall_of_typed h.typed
  obtain ⟨d, found, reads⟩ := h.reads
  have zero : (Term.lit a.ty 0#64).typed l = true := Term.typed_small_lit small false
  unfold judgement
  simp only [Edit.node, meets_bind, meets_ask, Region.node_of found, yields_ok, reads.ty,
    zeroFor_of_isSmall small]
  refine (intLiteral_meets zero h.layout h.calm).to fun z r₁ made => ?_
  obtain ⟨rfl, stands, kept⟩ := made
  have left := h.kept kept fun _ _ => List.not_mem_nil
  unfold Edit.comparison Edit.binary scalarType
  simp only [Op.isRelation, Op.isBinary, Bool.not_true, Bool.false_eq_true, if_false, meets_bind]
  refine (intern_meets linked _).to fun ty r₂ noted => ?_
  obtain ⟨rfl, noted⟩ := noted
  have left₂ := left.edited_same noted
  have right₂ := stands.edited_same noted
  have kept₂ : Kept linked r r₂ [] := kept.trans noted.kept_same .refl
  have apart : ∀ m ∈ below, m ∉ [r.next] := fun m mem last =>
    h.next_not_mem (List.mem_singleton.mp last ▸ mem)
  refine (buildBinary_meets left₂ right₂ apart (Term.typed_judgement h.typed)).to
    fun n r' built => ?_
  obtain ⟨rfl, final, kept₃⟩ := built
  refine Turns.of_wrap final (kept₂.trans kept₃ .refl) fun m mem => ?_
  simp only [List.mem_cons, List.mem_append, List.not_mem_nil, or_false] at mem
  rcases mem with rfl | mem | rfl
  · exact .inr kept₂.grown.size
  · exact .inl mem
  · exact .inr le_rfl

/-! ### Types -/

variable {s : Setting} {q : Ty}

/-- A literal is brought into another type. -/
theorem restamp_meets (h : Stands linked l r (.lit q v) n ns) (small : t.isSmall = true) :
    Meets (restamp s n t) r F fun _ r' =>
      Turns linked l r ns (fun e => e = .lit t (t.wrapInt l v)) n r' := by
  obtain ⟨d, found, reads⟩ := h.reads
  obtain ⟨rfl, attrs, shape, value⟩ := h.spells
  unfold restamp
  simp only [Edit.node, Edit.layout, meets_bind, meets_ask, Region.node_of found, yields_ok,
    reads.intLit, Term.lit?, meets_get, meets_pure, meets_lift, h.layout,
    Ty.normalizeInt_of_isInt l (Ty.isInt_of_isSmall small)]
  have change (parent : Option NodeId) (record : Option RecordId) :
      { (⟨.const, q, attrs, [], parent, none, record, none⟩ : Node).setLiteral
        (.int (t.wrapInt l v)) with ty := t } =
      ⟨.const, t, { attrs with value := some (.int (t.wrapInt l v)) }, [], parent, none, record,
        none⟩ := rfl
  refine (modifyNode_meets shape change).to fun _ r' edited => ?_
  refine ⟨.lit t (t.wrapInt l v), [n], ⟨⟨rfl, { attrs with value := some (.int (t.wrapInt l v)) },
    ?_, rfl⟩, ?_, edited.grown.layout.trans h.layout,
    edited.grown.calm h.calm⟩, .refl, ?_, rfl⟩
  · rw [edited.shape, Function.update_self]
  · exact Term.typed_lit.mpr ⟨small, Ty.wrapInt_wrapInt small v⟩
  · exact edited.kept fun m outside _ => Function.update_of_ne (by simpa using outside) _ _

theorem Ty.isBool_of_isWord (word : t.isWord = true) : t.isBool = false := by
  have mem := Ty.isWord_cases word
  fin_cases mem <;> rfl

/-- A tree in place of one of a word type gives a value of that type. It is kept if it does
already. -/
theorem retype_meets (h : Stands linked l r a n ns) (word : t.isWord = true) :
    Meets (retype s n t) r F fun n' r' => Turns linked l r ns (fun e =>
      Term.Refines l (.unary .cvt t a) e ∧ (if a.ty = t then e = a else e.work = 0)) n' r' := by
  have typed := Term.typed_cvt h.typed word
  have small := Ty.isSmall_of_isWord word
  obtain ⟨d, found, reads⟩ := h.reads
  unfold retype
  simp only [Edit.node, meets_bind, meets_ask, Region.node_of found, yields_ok, reads.ty,
    reads.intLit, Ty.isBool_of_isWord word, Ty.isInt_of_isWord word, Bool.or_false, Bool.not_true,
    decide_eq_true_eq]
  by_cases same : a.ty = t
  · simp only [same, if_true, meets_pure]
    exact h.turns ⟨Term.refines_cvt_same typed same, rfl⟩
  · simp only [same, if_false]
    cases value : a.lit? with
    | some v =>
      obtain ⟨q, rfl⟩ := Term.lit?_eq_some.mp value
      simp only [Option.isSome_some, if_true, meets_bind, meets_pure]
      refine (restamp_meets h small).to fun _ r' turned => ?_
      exact turned.becomes ⟨Term.refines_fold_unary typed rfl, rfl⟩
    | none =>
      simp only [Option.isSome_none, Bool.false_eq_true, if_false]
      refine (convert_meets h word).to fun n' r' turned => ?_
      exact turned.becomes ⟨.refl typed, rfl⟩

end Peephole
