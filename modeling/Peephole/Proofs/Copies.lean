import Peephole.Proofs.Moves

/-!
# Copies and equal trees

A copy of a tree spells the same term with new nodes, and trees that are found equal
spell equal terms.
-/

namespace Peephole

open Edit

variable {linked : Links} {l : Layout} {r r' r₁ : Region} {a b p : Term} {n k : NodeId}
  {ns below : List NodeId} {F : Fault → Prop} {op : Op} {t : Ty} {fuel : Nat}

/-- In `r'` the tree at `k` spells the term with nodes made after `r`. -/
def Copied (linked : Links) (l : Layout) (r : Region) (a : Term) (k : NodeId)
    (r' : Region) : Prop :=
  ∃ ns, Stands linked l r' a k ns ∧ (∀ m ∈ ns, r.nodes.size ≤ m.index) ∧ Kept linked r r' []

theorem Copied.kept {k : NodeId} (h : Copied linked l r a k r') : Kept linked r r' [] := by
  obtain ⟨_, _, _, kept⟩ := h
  exact kept

theorem duplicateNode_meets {code : Op} {attrs : Attrs} {slots : List (List NodeId)}
    {P : List (List NodeId) → Region → Prop} {Q : NodeId → Region → Prop}
    (shape : r.shape linked n = some (.fresh code t attrs slots))
    (kids : Meets (slots.mapM fun ks => ks.mapM (duplicateWithin fuel)) r F P)
    (top : ∀ slots' r₁, P slots' r₁ → Meets (build code t attrs slots') r₁ F Q) :
    Meets (duplicateWithin (fuel + 1) n) r F Q := by
  obtain ⟨parent, record, found, _⟩ := Region.node?_of_shape shape
  unfold duplicateWithin
  simp only [Edit.node, meets_bind, meets_ask, Region.node_of found, yields_ok]
  refine kids.to fun slots' r₁ copied => (top slots' r₁ copied).to fun copy r₂ done => ?_
  exact done

/-- A node without kids is copied to a node of the same shape. -/
theorem duplicateLeaf_meets {code : Op} {attrs : Attrs}
    (shape : r.shape linked n = some (.fresh code t attrs [])) :
    Meets (duplicateWithin (fuel + 1) n) r F fun k r' => k = r.next ∧
      r'.shape linked k = some (.fresh code t attrs []) ∧ Kept linked r r' [] := by
  refine duplicateNode_meets (P := fun slots r₁ => slots = [] ∧ r₁ = r) shape ⟨rfl, rfl⟩ ?_
  rintro _ _ ⟨rfl, rfl⟩
  refine (build_meets linked (by simp)).to fun k r' built => ?_
  obtain ⟨rfl, edited⟩ := built
  exact ⟨rfl, by rw [edited.shape, Function.update_self], edited.kept_next⟩

theorem duplicateLeaf_copies {code : Op} {attrs : Attrs} (h : Stands linked l r a n ns)
    (shape : r.shape linked n = some (.fresh code t attrs []))
    (again : ∀ g k, g k = some (.fresh code t attrs []) → Spells g a k [k]) :
    Meets (duplicateWithin (fuel + 1) n) r F fun k r' => Copied linked l r a k r' := by
  refine (duplicateLeaf_meets shape).to fun k r' copy => ?_
  obtain ⟨rfl, shape', kept⟩ := copy
  refine ⟨[r.next], ⟨again _ _ shape', h.typed, kept.grown.layout.trans h.layout,
    kept.grown.calm h.calm⟩, ?_, kept⟩
  simp [next_index]

/-- A node over one without kids. -/
theorem duplicateOver_copies {code code' : Op} {t' : Ty} {attrs attrs' : Attrs} {k : NodeId}
    (h : Stands linked l r a n ns) (shape : r.shape linked n = some (.fresh code t attrs [[k]]))
    (shape' : r.shape linked k = some (.fresh code' t' attrs' []))
    (again : ∀ g n k, [n, k].Nodup → g n = some (.fresh code t attrs [[k]]) →
      g k = some (.fresh code' t' attrs' []) → Spells g a n [n, k]) :
    Meets (duplicateWithin (fuel + 2) n) r F fun k r' => Copied linked l r a k r' := by
  refine duplicateNode_meets (P := fun slots r₁ => slots = [[r.next]] ∧
    r₁.shape linked r.next = some (.fresh code' t' attrs' []) ∧ Kept linked r r₁ []) shape ?_ ?_
  · simp only [List.mapM_cons, List.mapM_nil, meets_bind, meets_pure]
    refine (duplicateLeaf_meets shape').to fun k' r₁ copy => ?_
    obtain ⟨rfl, copied, kept⟩ := copy
    exact ⟨rfl, copied, kept⟩
  · rintro _ r₁ ⟨rfl, copied, kept⟩
    have live := Region.live_of_shape copied
    refine (build_meets linked (by simpa using live)).to fun k' r' built => ?_
    obtain ⟨rfl, edited⟩ := built
    have kept' : Kept linked r₁ r' [] := edited.kept_next
    have inside := Region.lt_size_of_shape copied
    have other : r₁.next ≠ r.next := fun eq => by
      have := congrArg Handle.index eq
      rw [next_index] at this
      omega
    have whole := kept.trans kept' .refl
    refine ⟨[r₁.next, r.next], ⟨again _ _ _ (by simpa using other) ?_ ?_, h.typed,
      whole.grown.layout.trans h.layout, whole.grown.calm h.calm⟩, ?_, whole⟩
    · rw [edited.shape, Function.update_self]
    · rw [kept'.shape r.next List.not_mem_nil inside, copied]
    · intro m mem
      simp only [List.mem_cons, List.not_mem_nil, or_false] at mem
      rcases mem with rfl | rfl
      · exact kept.grown.size
      · exact le_rfl

/-! ### Operands -/

/-- The operands of an operator. -/
def Term.operands : Term → List Term
  | .unary _ _ a => [a]
  | .binary _ _ a b => [a, b]
  | .select _ p a b => [p, a, b]
  | _ => []

/-- The trees at the nodes `ks`, with the nodes `ns`, stand for the terms. -/
inductive StandAll (linked : Links) (l : Layout) (r : Region) :
    List Term → List NodeId → List NodeId → Prop
  | nil : StandAll linked l r [] [] []
  | cons {a : Term} {as : List Term} {k : NodeId} {ks below rest : List NodeId}
      (first : Stands linked l r a k below) (others : StandAll linked l r as ks rest) :
      StandAll linked l r (a :: as) (k :: ks) (below ++ rest)

section operands

variable {as : List Term} {ks : List NodeId} {attrs : Attrs}

theorem StandAll.length (h : StandAll linked l r as ks ns) : ks.length = as.length := by
  induction h with
  | nil => rfl
  | cons _ _ ih => exact congrArg (· + 1) ih

theorem StandAll.live (h : StandAll linked l r as ks ns) : ∀ k ∈ ks, r.Live k := by
  induction h with
  | nil => simp
  | cons first _ ih => exact List.forall_mem_cons.mpr ⟨first.spells.live first.spells.root_mem, ih⟩

theorem StandAll.lt_size (h : StandAll linked l r as ks ns) : ∀ m ∈ ns, m.index < r.nodes.size := by
  induction h with
  | nil => simp
  | cons first _ ih => exact List.forall_mem_append.mpr ⟨fun _ => first.lt_size, ih⟩

theorem StandAll.kept (h : StandAll linked l r as ks ns) (kept : Kept linked r r' []) :
    StandAll linked l r' as ks ns := by
  induction h with
  | nil => exact .nil
  | cons first _ ih => exact .cons (first.kept kept fun _ _ => List.not_mem_nil) ih

/-- What is below the node of an operator. -/
theorem Stands.standAll (h : Stands linked l r a n ns) (operator : a.operands ≠ []) :
    ∃ attrs ks below, ns = n :: below ∧
      r.shape linked n = some (.fresh a.code a.ty attrs (ks.map ([·]))) ∧
      StandAll linked l r a.operands ks below := by
  have stands {x : Term} {k : NodeId} {below : List NodeId} (typed : x.typed l = true)
      (spells : Spells (r.shape linked) x k below) : Stands linked l r x k below :=
    ⟨spells, typed, h.layout, h.calm⟩
  cases a with
  | unary op t a =>
    obtain ⟨_, k, below, attrs, rfl, shape, spells⟩ := h.spells
    have typed := (Term.typed_unary.mp h.typed).1
    refine ⟨attrs, [k], below, rfl, shape, ?_⟩
    simpa [Term.operands] using StandAll.cons (stands typed spells) .nil
  | binary op t a b =>
    obtain ⟨_, k₀, below₀, k₁, below₁, attrs, rfl, shape, left, right⟩ := h.spells
    obtain ⟨typedA, typedB, _⟩ := Term.typed_binary.mp h.typed
    refine ⟨attrs, [k₀, k₁], below₀ ++ below₁, rfl, shape, ?_⟩
    simpa [Term.operands] using (StandAll.cons (stands typedB right) .nil).cons (stands typedA left)
  | select t p a b =>
    obtain ⟨_, k₀, below₀, k₁, below₁, k₂, below₂, attrs, rfl, shape, pred, yes, no⟩ := h.spells
    obtain ⟨typedP, typedA, typedB, _⟩ := Term.typed_select.mp h.typed
    refine ⟨attrs, [k₀, k₁, k₂], below₀ ++ (below₁ ++ below₂), rfl, shape, ?_⟩
    simpa [Term.operands] using
      ((StandAll.cons (stands typedB no) .nil).cons (stands typedA yes)).cons (stands typedP pred)
  | _ => exact absurd rfl operator

/-- A node over the operands of an operator. -/
theorem StandAll.operator (h : StandAll linked l r a.operands ks below)
    (operator : a.operands ≠ []) (distinct : (n :: below).Nodup)
    (shape : r.shape linked n = some (.fresh a.code a.ty attrs (ks.map ([·])))) :
    Spells (r.shape linked) a n (n :: below) := by
  cases a with
  | unary op t a =>
    obtain ⟨⟩ | ⟨first, ⟨⟩⟩ := h
    exact ⟨distinct, _, _, attrs, by simp, shape, first.spells⟩
  | binary op t a b =>
    obtain ⟨⟩ | ⟨left, ⟨⟩ | ⟨right, ⟨⟩⟩⟩ := h
    exact ⟨distinct, _, _, _, _, attrs, by simp, shape, left.spells, right.spells⟩
  | select t p a b =>
    obtain ⟨⟩ | ⟨pred, ⟨⟩ | ⟨yes, ⟨⟩ | ⟨no, ⟨⟩⟩⟩⟩ := h
    exact ⟨distinct, _, _, _, _, _, _, attrs, by simp, shape, pred.spells, yes.spells, no.spells⟩
  | _ => exact absurd rfl operator

/-- In `r'` the trees at `ks` stand for the terms, with nodes made after `r`. -/
def CopiedAll (linked : Links) (l : Layout) (r : Region) (as : List Term) (ks : List NodeId)
    (r' : Region) : Prop :=
  ∃ ns, StandAll linked l r' as ks ns ∧ ns.Nodup ∧ (∀ m ∈ ns, r.nodes.size ≤ m.index) ∧
    Kept linked r r' []

/-- A copy, and the others made after it. -/
theorem Copied.cons (first : Copied linked l r a k r₁) (others : CopiedAll linked l r₁ as ks r') :
    CopiedAll linked l r (a :: as) (k :: ks) r' := by
  obtain ⟨ns₀, stands, fresh, kept⟩ := first
  obtain ⟨ns₁, rest, distinct, fresh', kept'⟩ := others
  have apart : List.Disjoint ns₀ ns₁ := fun m mem other =>
    Nat.lt_irrefl _ ((stands.lt_size mem).trans_le (fresh' m other))
  refine ⟨ns₀ ++ ns₁, rest.cons (stands.kept kept' fun _ _ => List.not_mem_nil),
    stands.spells.nodup.append distinct apart, ?_, kept.trans kept' .refl⟩
  exact List.forall_mem_append.mpr ⟨fresh, fun m mem => kept.grown.size.trans (fresh' m mem)⟩

/-- Trees that stand for the term are copied. -/
def Duplicable (linked : Links) (l : Layout) (F : Fault → Prop) (fuel : Nat) (a : Term) : Prop :=
  ∀ r n ns, Stands linked l r a n ns →
    Meets (duplicateWithin fuel n) r F fun k r' => Copied linked l r a k r'

theorem duplicateAll_copies (h : StandAll linked l r as ks ns)
    (each : ∀ a ∈ as, Duplicable linked l F fuel a) :
    Meets ((ks.map ([·])).mapM fun ks => ks.mapM (duplicateWithin fuel)) r F fun slots r' =>
      ∃ ks', slots = ks'.map ([·]) ∧ CopiedAll linked l r as ks' r' := by
  induction as generalizing r ks ns with
  | nil =>
    obtain ⟨⟩ := h
    exact ⟨[], rfl, [], .nil, List.nodup_nil, by simp, .refl⟩
  | cons a as ih =>
    obtain ⟨⟩ | ⟨first, others⟩ := h
    obtain ⟨copies, each'⟩ := List.forall_mem_cons.mp each
    simp only [List.map_cons, List.mapM_cons, List.mapM_nil, meets_bind, meets_pure]
    refine (copies _ _ _ first).to fun k r₁ copied => ?_
    refine (ih (others.kept copied.kept) each').to fun slots r₂ more => ?_
    obtain ⟨ks', rfl, copiedAll⟩ := more
    exact ⟨k :: ks', rfl, copied.cons copiedAll⟩

/-- An operator is copied after its operands. -/
theorem duplicateOperator_copies (h : Stands linked l r a n ns) (operator : a.operands ≠ [])
    (each : ∀ x ∈ a.operands, Duplicable linked l F fuel x) :
    Meets (duplicateWithin (fuel + 1) n) r F fun k r' => Copied linked l r a k r' := by
  obtain ⟨attrs, ks, below, _, shape, stand⟩ := h.standAll operator
  refine duplicateNode_meets shape (duplicateAll_copies stand each) ?_
  rintro _ r₁ ⟨ks', rfl, ns', copies, distinct, fresh, kept⟩
  refine (build_meets linked (by simpa using copies.live)).to fun k r' built => ?_
  obtain ⟨rfl, edited⟩ := built
  have kept' : Kept linked r₁ r' [] := edited.kept_next
  have whole := kept.trans kept' .refl
  have outside : r₁.next ∉ ns' := fun mem => by
    have := copies.lt_size _ mem
    rw [next_index] at this
    omega
  have shape' : r'.shape linked r₁.next = some (.fresh a.code a.ty attrs (ks'.map ([·]))) := by
    rw [edited.shape, Function.update_self]
  have spells :=
    (copies.kept kept').operator operator (List.nodup_cons.mpr ⟨outside, distinct⟩) shape'
  refine ⟨r₁.next :: ns', ⟨spells, h.typed, whole.grown.layout.trans h.layout,
    whole.grown.calm h.calm⟩, ?_, whole⟩
  exact List.forall_mem_cons.mpr ⟨kept.grown.size, fresh⟩

end operands

theorem duplicateWithin_meets (h : Stands linked l r a n ns) (deep : a.size ≤ fuel) :
    Meets (duplicateWithin fuel n) r F fun k r' => Copied linked l r a k r' := by
  induction a generalizing r n ns fuel with
  | lit ty v =>
    obtain ⟨fuel, rfl⟩ := Term.exists_succ_of_size_le deep
    obtain ⟨_, attrs, shape, value⟩ := h.spells
    exact duplicateLeaf_copies h shape fun _ _ shape' => ⟨rfl, attrs, shape', value⟩
  | reg ty q =>
    obtain ⟨fuel, rfl⟩ := Term.exists_succ_of_size_le deep
    obtain ⟨_, attrs, shape, value⟩ := h.spells
    exact duplicateLeaf_copies h shape fun _ _ shape' => ⟨rfl, attrs, shape', value⟩
  | load ty x o =>
    obtain ⟨fuel, rfl⟩ := Term.exists_succ_of_size_le deep
    obtain ⟨_, attrs, shape, value⟩ := h.spells
    exact duplicateLeaf_copies h shape fun _ _ shape' => ⟨rfl, attrs, shape', value⟩
  | indirect ty x base o =>
    obtain ⟨fuel, rfl⟩ := Nat.exists_eq_add_of_le' deep
    obtain ⟨_, k, _, ⟨attrs, shape, ofst⟩, ty', attrs', shape', address⟩ := h.spells
    exact duplicateOver_copies h shape shape' fun _ _ k' distinct copy below =>
      ⟨distinct, k', rfl, ⟨attrs, copy, ofst⟩, ty', attrs', below, address⟩
  | through ty q o =>
    obtain ⟨fuel, rfl⟩ := Nat.exists_eq_add_of_le' deep
    obtain ⟨_, k, _, ⟨attrs, shape, ofst⟩, ty', attrs', shape', pointer⟩ := h.spells
    exact duplicateOver_copies h shape shape' fun _ _ k' distinct copy below =>
      ⟨distinct, k', rfl, ⟨attrs, copy, ofst⟩, ty', attrs', below, pointer⟩
  | unary op ty a ih =>
    obtain ⟨fuel, rfl⟩ := Term.exists_succ_of_size_le deep
    simp only [Term.size] at deep
    refine duplicateOperator_copies h (List.cons_ne_nil _ _) ?_
    simp only [Term.operands, List.forall_mem_cons]
    exact ⟨fun _ _ _ stands => ih stands (by omega), by simp⟩
  | binary op ty a b ihA ihB =>
    obtain ⟨fuel, rfl⟩ := Term.exists_succ_of_size_le deep
    simp only [Term.size] at deep
    refine duplicateOperator_copies h (List.cons_ne_nil _ _) ?_
    simp only [Term.operands, List.forall_mem_cons]
    exact ⟨fun _ _ _ stands => ihA stands (by omega), fun _ _ _ stands => ihB stands (by omega),
      by simp⟩
  | select ty p a b ihP ihA ihB =>
    obtain ⟨fuel, rfl⟩ := Term.exists_succ_of_size_le deep
    simp only [Term.size] at deep
    refine duplicateOperator_copies h (List.cons_ne_nil _ _) ?_
    simp only [Term.operands, List.forall_mem_cons]
    exact ⟨fun _ _ _ stands => ihP stands (by omega), fun _ _ _ stands => ihA stands (by omega),
      fun _ _ _ stands => ihB stands (by omega), by simp⟩

theorem duplicate_meets (h : Stands linked l r a n ns) :
    Meets (duplicate n) r F fun k r' => Copied linked l r a k r' := by
  have size := h.spells.size_le
  unfold duplicate
  simp only [meets_bind, meets_get]
  exact duplicateWithin_meets h (by unfold Region.depthBound; omega)

/-! ### Equal trees -/

theorem Attrs.eq_of_beq {x y : Attrs} (h : (x == y) = true) : x.var = y.var ∧ x.ofst = y.ofst ∧
    x.reg = y.reg ∧ ∀ v w, x.value = some (.int v) → y.value = some (.int w) → v = w := by
  obtain ⟨var, ofst, reg, value, label⟩ := x
  obtain ⟨var', ofst', reg', value', label'⟩ := y
  have fields : (var == var' && (ofst == ofst' && (reg == reg' &&
    (value == value' && label == label')))) = true := h
  simp only [Bool.and_eq_true, beq_iff_eq] at fields
  obtain ⟨rfl, rfl, rfl, same, _⟩ := fields
  refine ⟨rfl, rfl, rfl, ?_⟩
  rintro v w rfl rfl
  have words : (v == w) = true := same
  exact beq_iff_eq.mp words

/-- The number of the constructors of the terms with this operation. -/
def Op.kind (op : Op) : Nat :=
  if op.isUnary then 4 else if op.isBinary then 5 else
    match op with
    | .const => 0
    | .pr => 1
    | .ld => 2
    | .ild => 3
    | _ => 6

def Term.kind : Term → Nat
  | .lit .. => 0
  | .reg .. => 1
  | .load .. => 2
  | .indirect .. | .through .. => 3
  | .unary .. => 4
  | .binary .. => 5
  | .select .. => 6

theorem Term.kind_code (h : a.typed l = true) : a.code.kind = a.kind := by
  cases a with
  | unary op t a =>
    obtain ⟨_, fits⟩ := Term.typed_unary.mp h
    cases op <;> simp_all [Op.fitsUnary, Op.kind, Op.isUnary, Term.code, Term.kind]
  | binary op t a b =>
    have binary := Term.isBinary_of_typed h
    cases op <;> simp_all [Op.isBinary, Op.kind, Op.isUnary, Term.code, Term.kind]
  | _ => rfl

/-- An answer that is given, and right if it is yes. -/
def Says (x : Except Fault Bool) (P : Prop) : Prop := ∃ y, x = .ok y ∧ (y = true → P)

theorem Says.imp {x : Except Fault Bool} {P Q : Prop} (h : Says x P) (results : P → Q) :
    Says x Q := by
  obtain ⟨y, answer, right⟩ := h
  exact ⟨y, answer, fun yes => results (right yes)⟩

theorem Says.allM_cons {α : Type} {f : α → Except Fault Bool} {x : α} {xs : List α} {P Q : Prop}
    (first : Says (f x) P) (rest : Says (xs.allM f) Q) : Says ((x :: xs).allM f) (P ∧ Q) := by
  obtain ⟨y, answer, right⟩ := first
  rw [List.allM, answer]
  cases y with
  | false => exact ⟨false, rfl, fun yes => absurd yes Bool.false_ne_true⟩
  | true =>
    obtain ⟨z, answer', right'⟩ := rest
    exact ⟨z, answer', fun yes => ⟨right rfl, right' yes⟩⟩

theorem Says.allM_nil {α : Type} {f : α → Except Fault Bool} : Says ([].allM f) True :=
  ⟨true, rfl, fun _ => trivial⟩

/-- Two slots with one node each, before the others. -/
theorem Says.slots_cons {f : NodeId → NodeId → Except Fault Bool} {x y : NodeId}
    {rest : List (List NodeId × List NodeId)} {P Q : Prop} (first : Says (f x y) P)
    (others : Says (rest.allM fun (s₀, s₁) => if s₀.length ≠ s₁.length then .ok false
      else (s₀.zip s₁).allM fun (x, y) => f x y) Q) :
    Says ((([x], [y]) :: rest).allM fun (s₀, s₁) => if s₀.length ≠ s₁.length then .ok false
      else (s₀.zip s₁).allM fun (x, y) => f x y) (P ∧ Q) := by
  refine (Says.allM_cons (P := P ∧ True) ?_ others).imp fun both => ⟨both.1.1, both.2⟩
  exact Says.allM_cons (f := fun (x, y) => f x y) (x := (x, y)) first .allM_nil

section same

variable {d₀ d₁ : Node} {k₀ k₁ : NodeId} {ns₀ ns₁ : List NodeId} {P : Prop}

/-- Two nodes are compared by what they hold, then by their kids. -/
theorem Region.sameTreeWithin_succ (found₀ : r.node? k₀ = some d₀) (found₁ : r.node? k₁ = some d₁)
    (other : k₀ ≠ k₁)
    (kids : d₀.code = d₁.code → d₀.ty = d₁.ty → (d₀.attrs == d₁.attrs) = true →
      d₀.slots.length = d₁.slots.length ∧
      Says ((d₀.slots.zip d₁.slots).allM fun (s₀, s₁) => if s₀.length ≠ s₁.length then .ok false
        else (s₀.zip s₁).allM fun (x, y) => r.sameTreeWithin fuel x y) P) :
    Says (r.sameTreeWithin (fuel + 1) k₀ k₁) P := by
  have no : Says (pure false : Except Fault Bool) P := ⟨false, rfl, nofun⟩
  rw [Region.sameTreeWithin, if_neg other, node_of found₀, node_of found₁]
  simp only [bind, Except.bind]
  split
  · exact no
  · rename_i same
    simp only [ne_eq, Bool.or_eq_true, decide_eq_true_eq, bne, Bool.not_eq_true', not_or,
      Decidable.not_not, Bool.not_eq_false] at same
    obtain ⟨⟨code, ty⟩, attrs⟩ := same
    obtain ⟨lengths, answer⟩ := kids code ty attrs
    simp only [lengths, ne_eq, not_true_eq_false, if_false]
    exact answer

theorem sameTreeWithin_step {attrs₀ attrs₁ : Attrs} {slots₀ slots₁ : List (List NodeId)}
    (hA : Stands linked l r a k₀ ns₀) (hB : Stands linked l r b k₁ ns₁)
    (apart : ∀ m ∈ ns₀, m ∉ ns₁)
    (shape₀ : r.shape linked k₀ = some (.fresh a.code a.ty attrs₀ slots₀))
    (shape₁ : r.shape linked k₁ = some (.fresh b.code b.ty attrs₁ slots₁))
    (kids : a.kind = b.kind → a.code = b.code → a.ty = b.ty → (attrs₀ == attrs₁) = true →
      slots₀.length = slots₁.length ∧
      Says ((slots₀.zip slots₁).allM fun (s₀, s₁) => if s₀.length ≠ s₁.length then .ok false
        else (s₀.zip s₁).allM fun (x, y) => r.sameTreeWithin fuel x y) P) :
    Says (r.sameTreeWithin (fuel + 1) k₀ k₁) P := by
  obtain ⟨parent₀, record₀, found₀, _⟩ := Region.node?_of_shape shape₀
  obtain ⟨parent₁, record₁, found₁, _⟩ := Region.node?_of_shape shape₁
  have other : k₀ ≠ k₁ := fun eq => apart k₀ hA.spells.root_mem (eq ▸ hB.spells.root_mem)
  refine Region.sameTreeWithin_succ found₀ found₁ other fun code ty attrs => ?_
  refine kids ?_ code ty attrs
  rw [← Term.kind_code hA.typed, ← Term.kind_code hB.typed]
  exact congrArg Op.kind code

/-- Terms of different constructors are told apart at the root. -/
theorem sameTreeWithin_differs (hA : Stands linked l r a k₀ ns₀) (hB : Stands linked l r b k₁ ns₁)
    (apart : ∀ m ∈ ns₀, m ∉ ns₁) (differ : a.kind ≠ b.kind) :
    Says (r.sameTreeWithin (fuel + 1) k₀ k₁) P := by
  obtain ⟨attrs₀, slots₀, shape₀⟩ := hA.spells.root
  obtain ⟨attrs₁, slots₁, shape₁⟩ := hB.spells.root
  exact sameTreeWithin_step hA hB apart shape₀ shape₁ fun kind => absurd kind differ

/-- Two loads through what is at the nodes below them. -/
theorem sameLoads_says {m₀ m₁ : NodeId} {code₀ code₁ : Op} {ty₀ ty₁ : Ty}
    {attrs₀ attrs₁ below₀ below₁ : Attrs} (hA : Stands linked l r a k₀ [k₀, m₀])
    (hB : Stands linked l r b k₁ [k₁, m₁]) (apart : ∀ m ∈ [k₀, m₀], m ∉ [k₁, m₁])
    (shape₀ : r.shape linked k₀ = some (.fresh a.code a.ty attrs₀ [[m₀]]))
    (shape₁ : r.shape linked k₁ = some (.fresh b.code b.ty attrs₁ [[m₁]]))
    (leaf₀ : r.shape linked m₀ = some (.fresh code₀ ty₀ below₀ []))
    (leaf₁ : r.shape linked m₁ = some (.fresh code₁ ty₁ below₁ []))
    (same : a.ty = b.ty → (attrs₀ == attrs₁) = true → code₀ = code₁ →
      (below₀ == below₁) = true → P) :
    Says (r.sameTreeWithin (fuel + 2) k₀ k₁) P := by
  obtain ⟨_, _, found₀, _⟩ := Region.node?_of_shape leaf₀
  obtain ⟨_, _, found₁, _⟩ := Region.node?_of_shape leaf₁
  have other : m₀ ≠ m₁ := fun eq => apart m₀ (by simp) (by simp [eq])
  have below : Says (r.sameTreeWithin (fuel + 1) m₀ m₁)
      (code₀ = code₁ ∧ (below₀ == below₁) = true) :=
    Region.sameTreeWithin_succ found₀ found₁ other fun code _ attrs =>
      ⟨rfl, Says.allM_nil.imp fun _ => ⟨code, attrs⟩⟩
  refine sameTreeWithin_step hA hB apart shape₀ shape₁ fun _ _ ty attrs => ⟨rfl, ?_⟩
  refine (Says.slots_cons below .allM_nil).imp ?_
  rintro ⟨⟨code, attrs'⟩, _⟩
  exact same ty attrs code attrs'

/-- Two nodes without kids. -/
theorem sameLeaves_says {attrs₀ attrs₁ : Attrs} (hA : Stands linked l r a k₀ ns₀)
    (hB : Stands linked l r b k₁ ns₁) (apart : ∀ m ∈ ns₀, m ∉ ns₁)
    (shape₀ : r.shape linked k₀ = some (.fresh a.code a.ty attrs₀ []))
    (shape₁ : r.shape linked k₁ = some (.fresh b.code b.ty attrs₁ []))
    (same : a.ty = b.ty → (attrs₀ == attrs₁) = true → P) :
    Says (r.sameTreeWithin (fuel + 1) k₀ k₁) P :=
  sameTreeWithin_step hA hB apart shape₀ shape₁ fun _ _ ty attrs =>
    ⟨rfl, Says.allM_nil.imp fun _ => same ty attrs⟩

theorem sameLit_says {v : Word} (hA : Stands linked l r (.lit t v) k₀ ns₀)
    (hB : Stands linked l r b k₁ ns₁) (apart : ∀ m ∈ ns₀, m ∉ ns₁) :
    Says (r.sameTreeWithin (fuel + 1) k₀ k₁) (.lit t v = b) := by
  cases b with
  | lit t' w =>
    obtain ⟨_, attrs₀, shape₀, value₀⟩ := hA.spells
    obtain ⟨_, attrs₁, shape₁, value₁⟩ := hB.spells
    refine sameLeaves_says hA hB apart shape₀ shape₁ fun (ty : t = t') attrs => ?_
    rw [(Attrs.eq_of_beq attrs).2.2.2 v w value₀ value₁, ty]
  | _ => exact sameTreeWithin_differs hA hB apart (by simp [Term.kind])

theorem sameReg_says {q : Nat} (hA : Stands linked l r (.reg t q) k₀ ns₀)
    (hB : Stands linked l r b k₁ ns₁) (apart : ∀ m ∈ ns₀, m ∉ ns₁) :
    Says (r.sameTreeWithin (fuel + 1) k₀ k₁) (.reg t q = b) := by
  cases b with
  | reg t' q' =>
    obtain ⟨_, attrs₀, shape₀, rfl⟩ := hA.spells
    obtain ⟨_, attrs₁, shape₁, rfl⟩ := hB.spells
    refine sameLeaves_says hA hB apart shape₀ shape₁ fun (ty : t = t') attrs => ?_
    rw [(Attrs.eq_of_beq attrs).2.2.1, ty]
  | _ => exact sameTreeWithin_differs hA hB apart (by simp [Term.kind])

theorem sameLoad_says {x : VarId} {o : Int} (hA : Stands linked l r (.load t x o) k₀ ns₀)
    (hB : Stands linked l r b k₁ ns₁) (apart : ∀ m ∈ ns₀, m ∉ ns₁) :
    Says (r.sameTreeWithin (fuel + 1) k₀ k₁) (.load t x o = b) := by
  cases b with
  | load t' x' o' =>
    obtain ⟨_, attrs₀, shape₀, var₀, rfl⟩ := hA.spells
    obtain ⟨_, attrs₁, shape₁, var₁, rfl⟩ := hB.spells
    refine sameLeaves_says hA hB apart shape₀ shape₁ fun (ty : t = t') attrs => ?_
    obtain ⟨var, ofst, _⟩ := Attrs.eq_of_beq attrs
    rw [var₀, var₁, Option.some.injEq] at var
    rw [var, ofst, ty]
  | _ => exact sameTreeWithin_differs hA hB apart (by simp [Term.kind])

theorem sameIndirect_says {x : VarId} {base o : Int}
    (hA : Stands linked l r (.indirect t x base o) k₀ ns₀) (hB : Stands linked l r b k₁ ns₁)
    (apart : ∀ m ∈ ns₀, m ∉ ns₁) :
    Says (r.sameTreeWithin (fuel + 2) k₀ k₁) (.indirect t x base o = b) := by
  cases b with
  | indirect t' x' base' o' =>
    obtain ⟨_, m₀, rfl, ⟨attrs₀, shape₀, rfl⟩, ty₀, below₀, address₀, var₀, rfl⟩ := hA.spells
    obtain ⟨_, m₁, rfl, ⟨attrs₁, shape₁, rfl⟩, ty₁, below₁, address₁, var₁, rfl⟩ := hB.spells
    refine sameLoads_says hA hB apart shape₀ shape₁ address₀ address₁
      fun (ty : t = t') attrs _ address => ?_
    obtain ⟨var, ofst, _⟩ := Attrs.eq_of_beq address
    rw [var₀, var₁, Option.some.injEq] at var
    rw [var, ofst, (Attrs.eq_of_beq attrs).2.1, ty]
  | through t' q' o' =>
    obtain ⟨_, m₀, rfl, ⟨attrs₀, shape₀, _⟩, _, _, address, _⟩ := hA.spells
    obtain ⟨_, m₁, rfl, ⟨attrs₁, shape₁, _⟩, _, _, pointer, _⟩ := hB.spells
    refine sameLoads_says hA hB apart shape₀ shape₁ address pointer fun _ _ code _ => ?_
    cases code
  | _ => exact sameTreeWithin_differs hA hB apart (by simp [Term.kind])

theorem sameThrough_says {q : Nat} {o : Int}
    (hA : Stands linked l r (.through t q o) k₀ ns₀) (hB : Stands linked l r b k₁ ns₁)
    (apart : ∀ m ∈ ns₀, m ∉ ns₁) :
    Says (r.sameTreeWithin (fuel + 2) k₀ k₁) (.through t q o = b) := by
  cases b with
  | through t' q' o' =>
    obtain ⟨_, m₀, rfl, ⟨attrs₀, shape₀, rfl⟩, ty₀, below₀, pointer₀, rfl⟩ := hA.spells
    obtain ⟨_, m₁, rfl, ⟨attrs₁, shape₁, rfl⟩, ty₁, below₁, pointer₁, rfl⟩ := hB.spells
    refine sameLoads_says hA hB apart shape₀ shape₁ pointer₀ pointer₁
      fun (ty : t = t') attrs _ pointer => ?_
    rw [(Attrs.eq_of_beq pointer).2.2.1, (Attrs.eq_of_beq attrs).2.1, ty]
  | indirect t' x' base' o' =>
    obtain ⟨_, m₀, rfl, ⟨attrs₀, shape₀, _⟩, _, _, pointer, _⟩ := hA.spells
    obtain ⟨_, m₁, rfl, ⟨attrs₁, shape₁, _⟩, _, _, address, _⟩ := hB.spells
    refine sameLoads_says hA hB apart shape₀ shape₁ pointer address fun _ _ code _ => ?_
    cases code
  | _ => exact sameTreeWithin_differs hA hB apart (by simp [Term.kind])

/-- A tree that stands for the term is compared with trees apart from it. -/
def Comparable (linked : Links) (l : Layout) (r : Region) (fuel : Nat) (a : Term) : Prop :=
  ∀ b k₀ k₁ ns₀ ns₁, Stands linked l r a k₀ ns₀ → Stands linked l r b k₁ ns₁ →
    (∀ m ∈ ns₀, m ∉ ns₁) → Says (r.sameTreeWithin fuel k₀ k₁) (a = b)

/-- Operands are compared in their order. -/
theorem sameAll_answers {as bs : List Term} {ks₀ ks₁ : List NodeId}
    (hA : StandAll linked l r as ks₀ ns₀) (hB : StandAll linked l r bs ks₁ ns₁)
    (lengths : as.length = bs.length) (apart : ∀ m ∈ ns₀, m ∉ ns₁)
    (each : ∀ a ∈ as, Comparable linked l r fuel a) :
    Says (((ks₀.map ([·])).zip (ks₁.map ([·]))).allM fun (s₀, s₁) =>
      if s₀.length ≠ s₁.length then .ok false
      else (s₀.zip s₁).allM fun (x, y) => r.sameTreeWithin fuel x y) (as = bs) := by
  induction hA generalizing bs ks₁ ns₁ with
  | nil =>
    cases hB with
    | nil => exact Says.allM_nil.imp fun _ => rfl
    | cons => cases lengths
  | cons first _ ih =>
    cases hB with
    | nil => cases lengths
    | cons first' others' =>
      obtain ⟨same, each'⟩ := List.forall_mem_cons.mp each
      have head := same _ _ _ _ _ first first' fun m mem other =>
        apart m (List.mem_append_left _ mem) (List.mem_append_left _ other)
      have tail := ih others' (Nat.succ.inj lengths) (fun m mem other =>
        apart m (List.mem_append_right _ mem) (List.mem_append_right _ other)) each'
      refine (Says.slots_cons head tail).imp ?_
      rintro ⟨rfl, rfl⟩
      rfl

theorem Term.length_operands (kind : a.kind = b.kind) : a.operands.length = b.operands.length := by
  cases a <;> cases b <;> first | rfl | cases kind

theorem Term.eq_of_operands (operator : a.operands ≠ []) (kind : a.kind = b.kind)
    (code : a.code = b.code) (ty : a.ty = b.ty) (operands : a.operands = b.operands) : a = b := by
  cases a <;> cases b <;> simp_all [Term.operands, Term.kind, Term.code, Term.ty]

theorem sameOperators_says (hA : Stands linked l r a k₀ ns₀) (hB : Stands linked l r b k₁ ns₁)
    (apart : ∀ m ∈ ns₀, m ∉ ns₁) (operator : a.operands ≠ [])
    (each : ∀ x ∈ a.operands, Comparable linked l r fuel x) :
    Says (r.sameTreeWithin (fuel + 1) k₀ k₁) (a = b) := by
  by_cases kind : a.kind = b.kind
  · have lengths := Term.length_operands kind
    have operator' : b.operands ≠ [] := by
      rw [← List.length_pos_iff] at operator ⊢
      omega
    obtain ⟨attrs₀, ks₀, below₀, rfl, shape₀, standA⟩ := hA.standAll operator
    obtain ⟨attrs₁, ks₁, below₁, rfl, shape₁, standB⟩ := hB.standAll operator'
    refine sameTreeWithin_step hA hB apart shape₀ shape₁ fun _ code ty _ => ⟨?_, ?_⟩
    · simp [standA.length, standB.length, lengths]
    · have apart' : ∀ m ∈ below₀, m ∉ below₁ := fun m mem other =>
        apart m (List.mem_cons_of_mem _ mem) (List.mem_cons_of_mem _ other)
      exact (sameAll_answers standA standB lengths apart' each).imp fun operands =>
        Term.eq_of_operands operator kind code ty operands
  · exact sameTreeWithin_differs hA hB apart kind

theorem sameTreeWithin_says (hA : Stands linked l r a k₀ ns₀) (hB : Stands linked l r b k₁ ns₁)
    (apart : ∀ m ∈ ns₀, m ∉ ns₁) (deep : a.size ≤ fuel) :
    Says (r.sameTreeWithin fuel k₀ k₁) (a = b) := by
  induction a generalizing b k₀ k₁ ns₀ ns₁ fuel with
  | lit t v =>
    obtain ⟨fuel, rfl⟩ := Term.exists_succ_of_size_le deep
    exact sameLit_says hA hB apart
  | reg t q =>
    obtain ⟨fuel, rfl⟩ := Term.exists_succ_of_size_le deep
    exact sameReg_says hA hB apart
  | load t x o =>
    obtain ⟨fuel, rfl⟩ := Term.exists_succ_of_size_le deep
    exact sameLoad_says hA hB apart
  | indirect t x base o =>
    obtain ⟨fuel, rfl⟩ := Nat.exists_eq_add_of_le' deep
    exact sameIndirect_says hA hB apart
  | through t q o =>
    obtain ⟨fuel, rfl⟩ := Nat.exists_eq_add_of_le' deep
    exact sameThrough_says hA hB apart
  | unary op t a ih =>
    obtain ⟨fuel, rfl⟩ := Term.exists_succ_of_size_le deep
    simp only [Term.size] at deep
    refine sameOperators_says hA hB apart (List.cons_ne_nil _ _) ?_
    simp only [Term.operands, List.forall_mem_cons]
    exact ⟨fun _ _ _ _ _ hA hB apart => ih hA hB apart (by omega), by simp⟩
  | binary op t a₀ a₁ ih₀ ih₁ =>
    obtain ⟨fuel, rfl⟩ := Term.exists_succ_of_size_le deep
    simp only [Term.size] at deep
    refine sameOperators_says hA hB apart (List.cons_ne_nil _ _) ?_
    simp only [Term.operands, List.forall_mem_cons]
    exact ⟨fun _ _ _ _ _ hA hB apart => ih₀ hA hB apart (by omega),
      fun _ _ _ _ _ hA hB apart => ih₁ hA hB apart (by omega), by simp⟩
  | select t p a₀ a₁ ihP ih₀ ih₁ =>
    obtain ⟨fuel, rfl⟩ := Term.exists_succ_of_size_le deep
    simp only [Term.size] at deep
    refine sameOperators_says hA hB apart (List.cons_ne_nil _ _) ?_
    simp only [Term.operands, List.forall_mem_cons]
    exact ⟨fun _ _ _ _ _ hA hB apart => ihP hA hB apart (by omega),
      fun _ _ _ _ _ hA hB apart => ih₀ hA hB apart (by omega),
      fun _ _ _ _ _ hA hB apart => ih₁ hA hB apart (by omega), by simp⟩

theorem sameTree_says (hA : Stands linked l r a k₀ ns₀) (hB : Stands linked l r b k₁ ns₁)
    (apart : ∀ m ∈ ns₀, m ∉ ns₁) : Says (r.sameTree k₀ k₁) (a = b) := by
  have size := hA.spells.size_le
  exact sameTreeWithin_says hA hB apart (by unfold Region.depthBound; omega)

end same

end Peephole
