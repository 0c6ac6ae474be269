import Peephole.Proofs.NormalForm

/-!
# Guards of rules

Whether a rule fires at a well-typed tree is decided by the tree, whatever region it stands in.
Where it does not fire it reads only.
-/

namespace Peephole

open Edit Peephole.Tree

variable {α β : Type} {F : Fault → Prop} {s : Setting} {l : Layout} {r r' r₀ : Region}
  {n x y : NodeId} {ns ms ns₀ : List NodeId} {ps : List Piece} {code : Op} {ty q : Ty}
  {attrs : Attrs} {a b c t : Tree} {d left right : Node} {up up' : Option NodeId} {step : Step}

/-! ### Sameness of trees -/

section sameness

variable {fuel : Nat}

/-- Within `fuel` steps the region tells whether `t` is the same as a tree elsewhere. -/
def Compared (r : Region) (fuel : Nat) (t : Tree) : Prop :=
  ∀ t' x y up up' ms ms', Draws r.core [.tree t x up] ms → Draws r.core [.tree t' y up'] ms' →
    ms.Disjoint ms' → r.sameTreeWithin fuel x y = .ok (t.same t')

theorem allM_same {ts ts' : List Tree} {ks ks' : List NodeId} (each : ∀ t ∈ ts, Compared r fuel t)
    (here : Draws r.core (planted ts ks up) ns) (there : Draws r.core (planted ts' ks' up') ms)
    (apart : ns.Disjoint ms) (length : ts.length = ks.length) (length' : ts'.length = ks'.length)
    (lengths : ks.length = ks'.length) :
    ((ks.zip ks').allM fun (x, y) => r.sameTreeWithin fuel x y) = .ok (sameList ts ts') := by
  induction ts generalizing ts' ks ks' ns ms with
  | nil =>
    obtain rfl := List.length_eq_zero_iff.mp length.symm
    obtain rfl := List.length_eq_zero_iff.mp lengths.symm
    obtain rfl := List.length_eq_zero_iff.mp length'
    rfl
  | cons t ts ih =>
    match ks, ks', ts' with
    | k :: ks, k' :: ks', t' :: ts' =>
      obtain ⟨fst, snd, rfl, first, rest⟩ := Draws.cons_iff.mp here
      obtain ⟨fst', snd', rfl, first', rest'⟩ := Draws.cons_iff.mp there
      obtain ⟨apart, apart'⟩ := List.disjoint_append_left.mp apart
      have top : r.sameTreeWithin fuel k k' = _ := each t List.mem_cons_self t' k k' _ _ _ _ first
        first' (List.disjoint_append_right.mp apart).1
      have others := ih (fun t mem => each t (List.mem_cons_of_mem _ mem)) rest rest'
        (List.disjoint_append_right.mp apart').2 (by simpa using length) (by simpa using length')
        (by simpa using lengths)
      simp only [List.zip_cons_cons, List.allM, top, sameList]
      cases t.same t' with
      | false => rfl
      | true => exact others

theorem allM_sameSlots {slots slots' : List (List Tree)} {ids ids' : List (List NodeId)}
    (each : ∀ t ∈ slots.flatten, Compared r fuel t)
    (here : Draws r.core (planted slots.flatten ids.flatten up) ns)
    (there : Draws r.core (planted slots'.flatten ids'.flatten up') ms)
    (apart : ns.Disjoint ms) (fits : Fits slots ids) (fits' : Fits slots' ids')
    (lengths : ids.length = ids'.length) :
    ((ids.zip ids').allM fun (sa, sb) =>
      if sa.length ≠ sb.length then Except.ok false
      else (sa.zip sb).allM fun (x, y) => r.sameTreeWithin fuel x y) =
      .ok (sameSlots slots slots') := by
  induction slots generalizing slots' ids ids' ns ms with
  | nil =>
    obtain rfl := List.length_eq_zero_iff.mp fits.length.symm
    obtain rfl := List.length_eq_zero_iff.mp lengths.symm
    obtain rfl := List.length_eq_zero_iff.mp fits'.length
    rfl
  | cons ts slots ih =>
    have counts := fits.length
    have counts' := fits'.length
    match ids, ids', slots' with
    | ks :: ids, ks' :: ids', ts' :: slots' =>
      obtain ⟨length, fits⟩ : ts.length = ks.length ∧ Fits slots ids := by simpa [Fits] using fits
      obtain ⟨length', fits'⟩ : ts'.length = ks'.length ∧ Fits slots' ids' := by
        simpa [Fits] using fits'
      rw [List.flatten_cons, List.flatten_cons, planted_append length] at here
      rw [List.flatten_cons, List.flatten_cons, planted_append length'] at there
      obtain ⟨fst, snd, rfl, first, rest⟩ := here.split
      obtain ⟨fst', snd', rfl, first', rest'⟩ := there.split
      obtain ⟨apart, apart'⟩ := List.disjoint_append_left.mp apart
      rw [List.flatten_cons] at each
      have others := ih (fun t mem => each t (List.mem_append_right _ mem)) rest rest'
        (List.disjoint_append_right.mp apart').2 fits fits' (by simpa using lengths)
      simp only [List.zip_cons_cons, List.allM, sameSlots]
      by_cases short : ks.length = ks'.length
      · have top := allM_same (fun t mem => each t (List.mem_append_left _ mem)) first first'
          (List.disjoint_append_right.mp apart).1 length length' short
        rw [if_neg (not_not.mpr short), top]
        cases sameList ts ts' with
        | false => rfl
        | true => exact others
      · have differ : sameList ts ts' = false := by
          rw [← length, ← length'] at short
          exact sameList_of_length short
        rw [if_pos short, differ]
        rfl
    | [], _, _ => simp at counts
    | _ :: _, [], _ => simp at lengths
    | _ :: _, _ :: _, [] => simp at counts'

theorem compared (deep : t.size ≤ fuel) : Compared r fuel t := by
  induction fuel generalizing t with
  | zero =>
    cases t
    rw [size_node] at deep
    omega
  | succ fuel ih =>
    intro t' x y up up' ms ms' here there apart
    cases here with
    | @tree code ty attrs slots ids _ _ _ below _ found fits kids rest =>
      cases there with
      | @tree code' ty' attrs' slots' ids' _ _ _ below' _ found' fits' kids' rest' =>
        cases rest
        cases rest'
        obtain ⟨_, _, _, found⟩ := Region.node?_of_core found
        obtain ⟨_, _, _, found'⟩ := Region.node?_of_core found'
        have other : x ≠ y := fun same => apart List.mem_cons_self (by simp [same])
        have small : ∀ u ∈ slots.flatten, Compared r fuel u := fun u mem => ih (by
          have := size_le_sizeList mem
          rw [size_node] at deep
          omega)
        rw [Region.sameTreeWithin, if_neg other, Region.node_of found, Region.node_of found']
        simp only [bind, Except.bind, pure, Except.pure, same]
        cases differ : (decide (code ≠ code') || decide (ty ≠ ty') || attrs != attrs') with
        | true => rfl
        | false =>
          simp only [Bool.false_eq_true, if_false, Bool.not_false, Bool.true_and]
          by_cases lengths : ids.length = ids'.length
          · rw [if_neg (not_not.mpr lengths)]
            refine allM_sameSlots small kids kids' ?_ fits fits' lengths
            exact fun m mem mem' => apart (List.mem_cons_of_mem _ (List.mem_append_left _ mem))
              (List.mem_cons_of_mem _ (List.mem_append_left _ mem'))
          · have short : sameSlots slots slots' = false := by
              rw [← fits.length, ← fits'.length] at lengths
              exact sameSlots_of_length lengths
            rw [if_pos lengths, short]

theorem Forest.sameTree_eq (h : Forest r₀ ns₀ (.tree a x up :: .tree b y up' :: ps) r) :
    r.sameTree x y = .ok (a.same b) := by
  have size := h.size_le
  obtain ⟨ns, drawn, distinct, _⟩ := h
  obtain ⟨fst, rest, rfl, first, drawn⟩ := Draws.cons_iff.mp drawn
  obtain ⟨snd, _, rfl, second, _⟩ := Draws.cons_iff.mp drawn
  refine compared (Nat.le_succ_of_le size) b x y up up' fst snd first second ?_
  exact fun m mem mem' => (List.nodup_append.mp distinct).2.2 m mem m
    (List.mem_append_left _ mem') rfl

end sameness

/-! ### Well-typed trees in a region -/

theorem Term.isStmt_code {e : Term} (typed : e.typed l = true) : e.code.isStmt = false := by
  cases e with
  | unary op t a =>
    have fits := (Term.typed_unary.mp typed).2
    cases op <;> first | rfl | exact absurd fits Bool.false_ne_true
  | binary op t a b =>
    have binary := Term.isBinary_of_typed typed
    cases op <;> first | rfl | exact absurd binary Bool.false_ne_true
  | _ => rfl

/-- The tree `t` at `n`, which spells a well-typed term. -/
structure Stood (l : Layout) (t : Tree) (n : NodeId) (r : Region) : Prop where
  drawn : ∃ r₀ ns₀ ps up, Forest r₀ ns₀ (.tree t n up :: ps) r
  stands : ∃ e ns, Stands .live l r e n ns

theorem Node.floatLit?_of_isSmall (h : d.ty.isSmall = true) : d.floatLit? = none := by
  unfold floatLit?
  split
  · rw [(Ty.kind_of_isSmall h).1]
    rfl
  · rfl

theorem Forest.reads {e : Term} (h : Forest r₀ ns₀ ps r) (mem : .tree t n up ∈ ps)
    (stands : Stands .live l r e n ns) :
    ∃ d, r.node? n = some d ∧ Tops d t ∧ Reads d e ∧ t.code = e.code ∧ t.ty = e.ty := by
  obtain ⟨d, found, tops, _⟩ := h.node mem
  obtain ⟨d', found', reads⟩ := stands.reads
  obtain rfl : d = d' := Option.some.inj (found.symm.trans found')
  exact ⟨d, found, tops, reads, tops.code.symm.trans reads.code, tops.ty.symm.trans reads.ty⟩

/-- A tree at a node of known shape. -/
theorem Forest.shaped {ids : List (List NodeId)} (h : Forest r₀ ns₀ ps r) (mem : .tree t n up ∈ ps)
    (shape : r.shape true n = some (.fresh code ty attrs ids)) :
    ∃ slots, t = .node code ty attrs slots ∧ Fits slots ids := by
  obtain ⟨_, _, known, _⟩ := Region.node?_of_shape shape
  obtain ⟨d, found, tops, fits⟩ := h.node mem
  obtain rfl := Option.some.inj (found.symm.trans known)
  obtain ⟨code', ty', attrs', slots⟩ := t
  obtain ⟨rfl, rfl, rfl⟩ := tops
  exact ⟨slots, rfl, fits⟩

theorem Forest.stub_slots {ids ids' : List (List NodeId)} {code' : Op} {ty' : Ty} {attrs' : Attrs}
    (h : Forest r₀ ns₀ (.stub (.fresh code' ty' attrs' ids') n up :: ps) r)
    (shape : r.shape true n = some (.fresh code ty attrs ids)) : ids' = ids := by
  obtain ⟨_, _, known, _⟩ := Region.node?_of_shape shape
  have found := h.stub_found List.mem_cons_self
  rw [Region.core_of known] at found
  exact (congrArg Node.slots (Option.some.inj found)).symm

namespace Fits

variable {slots : List (List Tree)} {k : NodeId}

theorem exists_one (h : Fits slots [[k]]) : ∃ a, slots = [[a]] := by
  obtain ⟨us, rfl⟩ := List.length_eq_one_iff.mp h.length
  obtain ⟨a, rfl⟩ := List.length_eq_one_iff.mp (List.head_eq_of_cons_eq h)
  exact ⟨a, rfl⟩

theorem exists_two (h : Fits slots [[x], [y]]) : ∃ a b, slots = [[a], [b]] := by
  obtain ⟨us, vs, rfl⟩ := List.length_eq_two.mp h.length
  obtain ⟨a, rfl⟩ := List.length_eq_one_iff.mp (List.head_eq_of_cons_eq h)
  obtain ⟨b, rfl⟩ := List.length_eq_one_iff.mp (List.head_eq_of_cons_eq (List.tail_eq_of_cons_eq h))
  exact ⟨a, b, rfl⟩

theorem exists_three (h : Fits slots [[x], [y], [k]]) : ∃ a b c, slots = [[a], [b], [c]] := by
  obtain ⟨us, vs, ws, rfl⟩ := List.length_eq_three.mp h.length
  obtain ⟨one, two, three⟩ : us.length = 1 ∧ vs.length = 1 ∧ ws.length = 1 := by
    simpa [Fits] using h
  obtain ⟨a, rfl⟩ := List.length_eq_one_iff.mp one
  obtain ⟨b, rfl⟩ := List.length_eq_one_iff.mp two
  obtain ⟨c, rfl⟩ := List.length_eq_one_iff.mp three
  exact ⟨a, b, c, rfl⟩

end Fits

theorem Forest.spelledLeaf (h : Forest r₀ ns₀ (.tree t n up :: ps) r)
    (known : code = .const ∨ code = .pr ∨ code = .ld)
    (shape : r.shape true n = some (.fresh code ty attrs [])) : t.Spelled ∧ t.size = 1 := by
  obtain ⟨slots, rfl, fits⟩ := h.shaped List.mem_cons_self shape
  obtain rfl := List.length_eq_zero_iff.mp fits.length
  exact ⟨.leaf known, rfl⟩

theorem Forest.spelled {e : Term} (h : Forest r₀ ns₀ (.tree t n up :: ps) r)
    (typed : e.typed l = true) (spells : Spells (r.shape true) e n ns) :
    t.Spelled ∧ t.size = e.size := by
  induction e generalizing t n up ps ns with
  | lit ty v =>
    obtain ⟨_, attrs, shape, _⟩ := spells
    exact h.spelledLeaf (.inl rfl) shape
  | reg ty q =>
    obtain ⟨_, attrs, shape, _⟩ := spells
    exact h.spelledLeaf (.inr (.inl rfl)) shape
  | load ty x ofst =>
    obtain ⟨_, attrs, shape, _⟩ := spells
    exact h.spelledLeaf (.inr (.inr rfl)) shape
  | indirect ty x base ofst =>
    obtain ⟨_, k, _, ⟨attrs, shape, _⟩, ty', attrs', shape', _⟩ := spells
    obtain ⟨slots, rfl, fits⟩ := h.shaped List.mem_cons_self shape
    obtain ⟨a, rfl⟩ := fits.exists_one
    obtain ⟨x, split⟩ := h.splitOne
    obtain rfl : x = k := by simpa using split.stub_slots shape
    obtain ⟨slots, rfl, laid⟩ := split.swap.shaped List.mem_cons_self shape'
    obtain rfl := List.length_eq_zero_iff.mp laid.length
    exact ⟨.indirect, rfl⟩
  | through ty q ofst =>
    obtain ⟨_, k, _, ⟨attrs, shape, _⟩, ty', attrs', shape', _⟩ := spells
    obtain ⟨slots, rfl, fits⟩ := h.shaped List.mem_cons_self shape
    obtain ⟨a, rfl⟩ := fits.exists_one
    obtain ⟨x, split⟩ := h.splitOne
    obtain rfl : x = k := by simpa using split.stub_slots shape
    obtain ⟨slots, rfl, laid⟩ := split.swap.shaped List.mem_cons_self shape'
    obtain rfl := List.length_eq_zero_iff.mp laid.length
    exact ⟨.through, rfl⟩
  | unary op ty a ih =>
    obtain ⟨typedA, fits⟩ := Term.typed_unary.mp typed
    obtain ⟨_, k, below, attrs, _, shape, operand⟩ := spells
    obtain ⟨slots, rfl, laid⟩ := h.shaped List.mem_cons_self shape
    obtain ⟨u, rfl⟩ := laid.exists_one
    obtain ⟨x, split⟩ := h.splitOne
    obtain rfl : x = k := by simpa using split.stub_slots shape
    obtain ⟨spelled, size⟩ := ih split.swap typedA operand
    refine ⟨.unary (Op.cases_of_fitsUnary fits) spelled, ?_⟩
    rw [size_one, size, Term.size, Nat.add_comm]
  | binary op ty a b ihA ihB =>
    obtain ⟨typedA, typedB, _⟩ := Term.typed_binary.mp typed
    obtain ⟨_, k₀, below₀, k₁, below₁, attrs, _, shape, left, right⟩ := spells
    obtain ⟨slots, rfl, laid⟩ := h.shaped List.mem_cons_self shape
    obtain ⟨u, v, rfl⟩ := laid.exists_two
    obtain ⟨x, y, split⟩ := h.splitTwo
    obtain ⟨rfl, rfl⟩ : x = k₀ ∧ y = k₁ := by simpa using split.stub_slots shape
    obtain ⟨spelledA, sizeA⟩ := ihA (split.front [_]) typedA left
    obtain ⟨spelledB, sizeB⟩ := ihB (split.front [_, _]) typedB right
    refine ⟨.binary (Term.isBinary_of_typed typed) spelledA spelledB, ?_⟩
    rw [size_two, sizeA, sizeB, Term.size, Nat.add_comm]
  | select ty p a b ihP ihA ihB =>
    obtain ⟨typedP, typedA, typedB, _⟩ := Term.typed_select.mp typed
    obtain ⟨_, k₀, below₀, k₁, below₁, k₂, below₂, attrs, _, shape, pred, yes, no⟩ := spells
    obtain ⟨slots, rfl, laid⟩ := h.shaped List.mem_cons_self shape
    obtain ⟨u, v, w, rfl⟩ := laid.exists_three
    obtain ⟨x, y, z, split⟩ := h.splitThree
    obtain ⟨rfl, rfl, rfl⟩ : x = k₀ ∧ y = k₁ ∧ z = k₂ := by simpa using split.stub_slots shape
    obtain ⟨spelledP, sizeP⟩ := ihP (split.front [_]) typedP pred
    obtain ⟨spelledA, sizeA⟩ := ihA (split.front [_, _]) typedA yes
    obtain ⟨spelledB, sizeB⟩ := ihB (split.front [_, _, _]) typedB no
    refine ⟨.select spelledP spelledA spelledB, ?_⟩
    rw [size_three, sizeP, sizeA, sizeB, Term.size]
    omega

namespace Stood

theorem layout (h : Stood l t n r) : r.layout = l := by
  obtain ⟨e, ns, stands⟩ := h.stands
  exact stands.layout

theorem small (h : Stood l t n r) : t.ty.isSmall = true := by
  obtain ⟨_, _, _, _, forest⟩ := h.drawn
  obtain ⟨e, ns, stands⟩ := h.stands
  obtain ⟨_, _, _, _, _, ty⟩ := forest.reads List.mem_cons_self stands
  rw [ty]
  exact Term.isSmall_of_typed stands.typed

/-- The node on top, which has no value of its own. -/
theorem node (h : Stood l t n r) : ∃ d, r.node? n = some d ∧ Tops d t ∧ d.ssa = none := by
  obtain ⟨_, _, _, _, forest⟩ := h.drawn
  obtain ⟨e, ns, stands⟩ := h.stands
  obtain ⟨d, found, tops, reads, _⟩ := forest.reads List.mem_cons_self stands
  exact ⟨d, found, tops, reads.ssa⟩

theorem isStmt (h : Stood l t n r) (found : r.node n = .ok d) : d.isStmt = false := by
  obtain ⟨e, ns, stands⟩ := h.stands
  obtain ⟨d', found', reads⟩ := stands.reads
  obtain rfl : d = d' := Except.ok.inj (found.symm.trans (Region.node_of found'))
  rw [Node.isStmt, reads.code]
  exact Term.isStmt_code stands.typed

theorem spelled (h : Stood l t n r) : t.Spelled := by
  obtain ⟨_, _, _, _, forest⟩ := h.drawn
  obtain ⟨e, ns, stands⟩ := h.stands
  exact (forest.spelled stands.typed stands.spells).1

/-- No value is an address. -/
theorem isStringAddress (h : Stood l t n r) (found : r.node n = .ok d) :
    r.isStringAddress d = .ok false := by
  obtain ⟨e, ns, stands⟩ := h.stands
  obtain ⟨d', found', reads⟩ := stands.reads
  obtain rfl : d = d' := Except.ok.inj (found.symm.trans (Region.node_of found'))
  exact isStringAddress_of_reads reads stands.typed

/-- A constant is an integer. -/
theorem isConst (h : Stood l t n r) : t.isConst = t.lit?.isSome := by
  obtain ⟨_, _, _, _, forest⟩ := h.drawn
  obtain ⟨e, ns, stands⟩ := h.stands
  obtain ⟨d, _, tops, reads, _⟩ := forest.reads List.mem_cons_self stands
  rw [← tops.isConst, reads.isConst stands.typed, Term.isLit, ← reads.intLit, tops.intLit?]
  rfl

end Stood

/-- A binary tree and its operands, as rules find them. -/
structure Couple (l : Layout) (r : Region) (code : Op) (ty : Ty) (attrs : Attrs) (a b : Tree)
    (n x y : NodeId) (d left right : Node) : Prop
    extends Pair r code ty attrs a b n x y d left right where
  layout : r.layout = l
  leftStood : Stood l a x r
  rightStood : Stood l b y r
  slots : d.slots = [[x], [y]]
  compare : r.sameTree x y = .ok (a.same b)
  type : b.ty = a.ty
  fits : code.fitsBinary ty a.ty = true
  unnamed : left.ssa = none

theorem Stood.couple (binary : code.isBinary = true) (h : Stood l (two code ty attrs a b) n r) :
    ∃ x y d left right, Couple l r code ty attrs a b n x y d left right := by
  obtain ⟨r₀, ns₀, ps, up, forest⟩ := h.drawn
  obtain ⟨e, ns, stands⟩ := h.stands
  obtain ⟨_, _, _, _, same, type⟩ := forest.reads List.mem_cons_self stands
  obtain ⟨op, q, e₀, e₁, rfl⟩ := exists_binary stands.typed (same ▸ binary)
  obtain rfl : code = op := same
  obtain rfl : ty = q := type
  obtain ⟨_, _, types, fits⟩ := Term.typed_binary.mp stands.typed
  obtain ⟨k₀, k₁, _, _, _, below₀, below₁, rfl, view⟩ := stands.operands
  obtain ⟨x, y, d, left, right, pair, split⟩ := forest.pair
  obtain rfl : x = k₀ := Except.ok.inj (pair.leftKid.symm.trans view.kid₀)
  obtain rfl : y = k₁ := Except.ok.inj (pair.rightKid.symm.trans view.kid₁)
  have ahead := split.front [_]
  have behind := split.front [_, _]
  obtain ⟨left', found, _, reads, _, leftType⟩ := ahead.reads List.mem_cons_self view.left
  obtain ⟨_, _, _, _, _, rightType⟩ := behind.reads List.mem_cons_self view.right
  obtain rfl : left = left' := Except.ok.inj (pair.leftNode.symm.trans (Region.node_of found))
  refine ⟨x, y, d, left, right, ⟨pair, stands.layout, ⟨⟨_, _, _, _, ahead⟩, _, _, view.left⟩,
    ⟨⟨_, _, _, _, behind⟩, _, _, view.right⟩, ?_, ahead.swapNext.sameTree_eq, ?_, ?_, reads.ssa⟩⟩
  · obtain ⟨_, _, _, here⟩ := Region.node?_of_core (split.stub_found List.mem_cons_self)
    rw [Except.ok.inj (pair.node.symm.trans (Region.node_of here))]
  · rw [leftType, rightType, types]
  · rw [leftType]
    exact fits

/-- A unary tree and its operand, as rules find them. -/
structure Single (l : Layout) (r : Region) (code : Op) (ty : Ty) (attrs : Attrs) (a : Tree)
    (n x : NodeId) (d operand : Node) : Prop where
  node : r.node n = .ok d
  tops : Tops d (one code ty attrs a)
  slots : d.slots = [[x]]
  kid : r.kid n 0 = .ok x
  operandNode : r.node x = .ok operand
  operandTops : Tops operand a
  layout : r.layout = l
  stood : Stood l a x r
  fits : code.fitsUnary ty a.ty = true

theorem Stood.single (unary : code.isUnary = true) (h : Stood l (one code ty attrs a) n r) :
    ∃ x d operand, Single l r code ty attrs a n x d operand := by
  obtain ⟨r₀, ns₀, ps, up, forest⟩ := h.drawn
  obtain ⟨e, ns, stands⟩ := h.stands
  obtain ⟨d, found, tops, _, same, type⟩ := forest.reads List.mem_cons_self stands
  obtain ⟨op, q, e₀, rfl⟩ := exists_unary stands.typed (same ▸ unary)
  obtain rfl : code = op := same
  obtain rfl : ty = q := type
  obtain ⟨k, below, _, rfl, _, kid, stands', _⟩ := stands.operand
  obtain ⟨x, split⟩ := forest.splitOne
  obtain ⟨_, _, _, found'⟩ := Region.node?_of_core (split.stub_found List.mem_cons_self)
  obtain rfl : x = k := Except.ok.inj ((Region.kid_of found' rfl).symm.trans kid)
  obtain ⟨operand, foundA, topsA, _, _, type⟩ := split.swap.reads List.mem_cons_self stands'
  obtain rfl := Option.some.inj (found.symm.trans found')
  refine ⟨x, _, operand, Region.node_of found, tops, rfl, kid, Region.node_of foundA, topsA,
    stands.layout, ⟨⟨_, _, _, _, split.swap⟩, _, _, stands'⟩, ?_⟩
  rw [type]
  exact (Term.typed_unary.mp stands.typed).2

/-- A load through a register, and the register. -/
theorem Stood.through {q : Ty} {attrs' : Attrs}
    (h : Stood l (one .ild ty attrs (leaf .pr q attrs')) n r) :
    ∃ x d base, r.node n = .ok d ∧ d.code = .ild ∧ d.slots = [[x]] ∧ r.node x = .ok base ∧
      base.code = .pr ∧ base.slots = [] := by
  obtain ⟨_, _, _, _, forest⟩ := h.drawn
  obtain ⟨x, split⟩ := forest.splitOne
  obtain ⟨_, _, _, found⟩ := Region.node?_of_core (split.stub_found List.mem_cons_self)
  obtain ⟨base, foundX, tops, fits⟩ := split.swap.node List.mem_cons_self
  exact ⟨x, _, base, Region.node_of found, rfl, rfl, Region.node_of foundX, tops.code,
    List.length_eq_zero_iff.mp fits.length.symm⟩

theorem exists_select {e : Term} (typed : e.typed l = true) (same : e.code = .select) :
    ∃ t p a b, e = .select t p a b := by
  cases e with
  | select t p a b => exact ⟨t, p, a, b, rfl⟩
  | unary op t a =>
    obtain rfl : op = .select := same
    exact absurd (Term.typed_unary.mp typed).2 Bool.false_ne_true
  | binary op t a b =>
    obtain rfl : op = .select := same
    exact absurd (Term.isBinary_of_typed typed) Bool.false_ne_true
  | _ => cases same

/-- A selection and its parts, as rules find them. -/
structure Triple (l : Layout) (r : Region) (ty : Ty) (attrs : Attrs) (p a b : Tree)
    (n x y z : NodeId) (d d₀ d₁ d₂ : Node) : Prop where
  node : r.node n = .ok d
  tops : Tops d (three .select ty attrs p a b)
  slots : d.slots = [[x], [y], [z]]
  predKid : r.kid n 0 = .ok x
  yesKid : r.kid n 1 = .ok y
  noKid : r.kid n 2 = .ok z
  predNode : r.node x = .ok d₀
  yesNode : r.node y = .ok d₁
  noNode : r.node z = .ok d₂
  predTops : Tops d₀ p
  yesTops : Tops d₁ a
  noTops : Tops d₂ b
  predStood : Stood l p x r
  yesStood : Stood l a y r
  noStood : Stood l b z r
  word : ty.isWord = true
  yesType : a.ty = ty
  noType : b.ty = ty

theorem Stood.triple {p : Tree} (h : Stood l (three .select ty attrs p a b) n r) :
    ∃ x y z d d₀ d₁ d₂, Triple l r ty attrs p a b n x y z d d₀ d₁ d₂ := by
  obtain ⟨r₀, ns₀, ps, up, forest⟩ := h.drawn
  obtain ⟨e, ns, stands⟩ := h.stands
  obtain ⟨d, found, tops, _, same, type⟩ := forest.reads List.mem_cons_self stands
  obtain ⟨q, e₀, e₁, e₂, rfl⟩ := exists_select stands.typed same.symm
  obtain rfl : ty = q := type
  obtain ⟨typedP, typedA, typedB, word, typeA, typeB⟩ := Term.typed_select.mp stands.typed
  obtain ⟨_, k₀, below₀, k₁, below₁, k₂, below₂, _, _, shape, pred, yes, no⟩ := stands.spells
  obtain ⟨_, _, known, _⟩ := Region.node?_of_shape shape
  obtain ⟨x, y, z, split⟩ := forest.splitThree
  obtain ⟨_, _, _, found'⟩ := Region.node?_of_core (split.stub_found List.mem_cons_self)
  obtain ⟨rfl, rfl, rfl⟩ : x = k₀ ∧ y = k₁ ∧ z = k₂ := by
    simpa using congrArg Node.slots (Option.some.inj (found'.symm.trans known))
  have stands₀ : Stands .live l r e₀ x below₀ := ⟨pred, typedP, stands.layout, stands.calm⟩
  have stands₁ : Stands .live l r e₁ y below₁ := ⟨yes, typedA, stands.layout, stands.calm⟩
  have stands₂ : Stands .live l r e₂ z below₂ := ⟨no, typedB, stands.layout, stands.calm⟩
  have first := split.front [_]
  have second := split.front [_, _]
  have third := split.front [_, _, _]
  obtain ⟨d₀, found₀, tops₀, _⟩ := first.node List.mem_cons_self
  obtain ⟨d₁, found₁, tops₁, _, _, type₁⟩ := second.reads List.mem_cons_self stands₁
  obtain ⟨d₂, found₂, tops₂, _, _, type₂⟩ := third.reads List.mem_cons_self stands₂
  obtain rfl := Option.some.inj (found.symm.trans found')
  exact ⟨x, y, z, _, d₀, d₁, d₂, Region.node_of found, tops, rfl, Region.kid_of known rfl,
    Region.kid_of known rfl, Region.kid_of known rfl, Region.node_of found₀, Region.node_of found₁,
    Region.node_of found₂, tops₀, tops₁, tops₂, ⟨⟨_, _, _, _, first⟩, _, _, stands₀⟩,
    ⟨⟨_, _, _, _, second⟩, _, _, stands₁⟩, ⟨⟨_, _, _, _, third⟩, _, _, stands₂⟩, word,
    type₁.trans typeA, type₂.trans typeB⟩

/-! ### Runs that only read -/

/-- On `r`, the edit only reads, and answers `v`. -/
def Gives (m : Edit α) (r : Region) (v : α) : Prop := m.run r = .ok (v, r)

theorem Gives.meets {m : Edit α} {v : α} {Q : α → Region → Prop} (h : Gives m r v) :
    Meets m r F Q ↔ Q v r := by
  unfold Meets
  rw [h]
  rfl

theorem gives_iff {m : Edit α} {v : α} :
    Gives m r v ↔ Meets m r (fun _ => False) fun out r' => out = v ∧ r' = r := by
  constructor
  · exact fun h => h.meets.mpr ⟨rfl, rfl⟩
  · intro h
    obtain ⟨returns, fails⟩ := meets_iff.mp h
    unfold Gives
    cases run : m.run r with
    | ok out =>
      obtain ⟨same, still⟩ := returns out.1 out.2 run
      rw [← same, ← still]
    | error f => exact (fails f run).elim

/-- The outcome of a step that fires exactly if `c` holds, and otherwise only reads. -/
def Told (c : Bool) (r : Region) (out : Option NodeId) (r' : Region) : Prop :=
  if c then out.isSome = true else out = none ∧ r' = r

/-- At well-typed trees `t`, the step fires exactly if `c` holds. -/
def Guarded (l : Layout) (step : Step) (t : Tree) (c : Bool) : Prop :=
  ∀ n r, Stood l t n r → Meets (step n) r (fun _ => c = true) (Told c r)

/-- Whatever a run ends in is fine. -/
theorem Meets.all {m : Edit α} {Q : α → Region → Prop} (any : ∀ f, F f) (each : ∀ v r', Q v r') :
    Meets m r F Q :=
  meets_iff.mpr ⟨fun v r' _ => each v r', fun f _ => any f⟩

/-- A step that ends with a result has fired. -/
theorem told_some {m : Edit NodeId} (any : ∀ f, F f) :
    Meets (do return some (← m)) r F (Told true r') :=
  meets_bind.mpr (.all any fun _ _ => rfl)

theorem told_bind {m : Edit α} {k : α → Edit (Option NodeId)} (any : ∀ f, F f)
    (next : ∀ v r₁, Meets (k v) r₁ F (Told true r')) : Meets (m >>= k) r F (Told true r') :=
  meets_bind.mpr (.all any next)

namespace Guarded

theorem rests (h : Guarded l step t false) (stood : Stood l t n r) : Gives (step n) r none :=
  gives_iff.mpr ((h n r stood).imp (fun _ => Bool.false_ne_true) fun _ _ => id)

theorem fires (h : Guarded l step t true) (stood : Stood l t n r) :
    Meets (step n) r (fun _ => True) fun out _ => out.isSome = true :=
  (h n r stood).imp (fun _ _ => trivial) fun _ _ => id

/-- A step that is tried where the first one has not fired. -/
theorem orElse {first second : Step} {c c' : Bool} (note : NodeId → NodeId → Edit NodeId)
    (here : Guarded l first t c) (there : Guarded l second t c') :
    Guarded l (fun n => do
      match ← first n with
      | some new => return some (← note n new)
      | none => second n) t (c || c') := by
  intro n r stood
  cases c with
  | false =>
    rw [meets_bind, (here.rests stood).meets]
    exact there n r stood
  | true =>
    refine Meets.bind (here n r stood) fun out r' told => ?_
    obtain ⟨m, rfl⟩ := Option.isSome_iff_exists.mp told
    exact told_some fun _ => rfl

theorem applyFirst {rules : List (Rule × Step)} {cs : List Bool}
    (each : List.Forall₂ (fun rule c => Guarded l rule.2 t c) rules cs) :
    Guarded l (Peephole.applyFirst rules) t (cs.any id) := by
  induction each with
  | nil => exact fun _ _ _ => ⟨rfl, rfl⟩
  | @cons rule c rules cs here _ ih =>
    exact here.orElse (fun n new => do Edit.fired rule.1 n; return new) ih

theorem firstOf {steps : List Step} {cs : List Bool}
    (each : List.Forall₂ (fun step c => Guarded l step t c) steps cs) :
    Guarded l (Peephole.firstOf steps) t (cs.any id) := by
  induction each with
  | nil => exact fun _ _ _ => ⟨rfl, rfl⟩
  | cons here _ ih => exact here.orElse (fun _ new => return new) ih

end Guarded

/-! ### What rules read -/

namespace Couple

variable (p : Couple l r code ty attrs a b n x y d left right)
include p

theorem smallOperand : a.ty.isSmall = true := p.leftStood.small

theorem leftFloat : left.floatLit? = none :=
  Node.floatLit?_of_isSmall (p.leftTops.ty ▸ p.smallOperand)

theorem rightFloat : right.floatLit? = none :=
  Node.floatLit?_of_isSmall (p.rightTops.ty ▸ p.type ▸ p.smallOperand)

theorem small : ty.isSmall = true := Term.isSmall_of_fitsBinary p.fits

theorem sameOperands : Gives (sameOperands n) r (a.same b) := by
  refine gives_iff.mpr ?_
  simp only [Peephole.sameOperands, meets_bind, p.operands, Edit.sameTree, meets_ask, p.compare,
    yields_ok, and_self]

end Couple

theorem require_true {v : Violation} : Gives (require s true v) r true := rfl

section binary

variable (binary : code.isBinary = true)
include binary

/-! ### Identities -/

theorem dropRight_guarded {fits : Node → Node → Bool} {c : Bool}
    (agree : ∀ d right, Tops d (two code ty attrs a b) → Tops right b → fits d right = c) :
    Guarded l (dropRight fits) (two code ty attrs a b) c := by
  intro n r stood
  obtain ⟨x, y, d, left, right, p⟩ := stood.couple binary
  simp only [dropRight, meets_bind, p.withOperands, agree d right p.tops p.rightTops]
  cases c with
  | false => exact ⟨rfl, rfl⟩
  | true => exact told_some (by simp)

theorem dropLit_guarded {v : Word} :
    Guarded l (dropRight fun _ right => right.isIntLit v) (two code ty attrs a b) (b.isLit v) :=
  dropRight_guarded binary fun _ _ _ tops => tops.isIntLit

theorem bandAllOnes_guarded : Guarded l bandAllOnes (two code ty attrs a b)
    (isAllOnes l (.fresh code ty .none []) b.top) := by
  intro n r stood
  simp only [bandAllOnes, Edit.layout, meets_bind, meets_get, meets_pure, stood.layout]
  refine dropRight_guarded binary (fun d right tops rightTops => ?_) n r stood
  simp only [isAllOnes, rightTops.intLit?, rightTops.ty, tops.ty]
  rfl

theorem subSelf_guarded : Guarded l (subSelf s) (two code ty attrs a b) (a.same b) := by
  intro n r stood
  obtain ⟨x, y, d, left, right, p⟩ := stood.couple binary
  have float : d.ty.isFloat = false := p.tops.ty ▸ (Ty.kind_of_isSmall p.small).1
  simp only [subSelf, meets_bind, p.sameOperands.meets]
  cases a.same b with
  | false => exact ⟨rfl, rfl⟩
  | true =>
    simp only [if_true, Edit.node, meets_bind, meets_ask, p.node, yields_ok, float, Bool.false_and,
      Bool.false_eq_true, if_false]
    exact .all (fun _ => trivial) fun _ _ => .all (fun _ => trivial) fun _ _ => rfl

theorem divSelf_guarded : Guarded l (divSelf s) (two code ty attrs a b) (a.same b) := by
  intro n r stood
  obtain ⟨x, y, d, left, right, p⟩ := stood.couple binary
  have float : left.ty.isFloat = false := p.leftTops.ty ▸ (Ty.kind_of_isSmall p.smallOperand).1
  simp only [divSelf, meets_bind, p.sameOperands.meets]
  cases a.same b with
  | false => exact ⟨rfl, rfl⟩
  | true =>
    simp only [if_true, meets_bind, p.withOperands, float, Bool.false_and, Bool.false_eq_true,
      if_false]
    exact .all (fun _ => trivial) fun _ _ => .all (fun _ => trivial) fun _ _ => rfl

theorem xorSelf_guarded : Guarded l (xorSelf s) (two code ty attrs a b) (a.same b) := by
  intro n r stood
  obtain ⟨x, y, d, left, right, p⟩ := stood.couple binary
  have int : left.ty.isInt = true := p.leftTops.ty ▸ Ty.isInt_of_isSmall p.smallOperand
  simp only [xorSelf, meets_bind, p.sameOperands.meets]
  cases a.same b with
  | false => exact ⟨rfl, rfl⟩
  | true =>
    simp only [if_true, meets_bind, p.withOperands, int, Bool.true_or, require_true.meets]
    exact .all (fun _ => trivial) fun _ _ => .all (fun _ => trivial) fun _ _ => rfl

theorem compareSelf_guarded {truth : Bool} :
    Guarded l (compareSelf s truth) (two code ty attrs a b) (s.foldConst && a.same b) := by
  intro n r stood
  obtain ⟨x, y, d, left, right, p⟩ := stood.couple binary
  have float : left.ty.isFloat = false := p.leftTops.ty ▸ (Ty.kind_of_isSmall p.smallOperand).1
  simp only [compareSelf, meets_bind, p.withOperands, float, Bool.or_false]
  cases s.foldConst with
  | false => exact ⟨rfl, rfl⟩
  | true =>
    simp only [Bool.not_true, Bool.false_eq_true, if_false, meets_bind, p.sameOperands.meets,
      Bool.true_and]
    cases a.same b with
    | false => exact ⟨rfl, rfl⟩
    | true => exact told_bind (fun _ => rfl) fun _ _ => told_some fun _ => rfl

theorem zeroIfRight_guarded {v : Word} :
    Guarded l (zeroIfRight v) (two code ty attrs a b) (b.isLit v) := by
  intro n r stood
  obtain ⟨x, y, d, left, right, p⟩ := stood.couple binary
  simp only [zeroIfRight, meets_bind, p.withOperands, p.rightTops.isIntLit]
  cases b.isLit v with
  | false => exact ⟨rfl, rfl⟩
  | true => exact told_bind (fun _ => rfl) fun _ _ => told_some fun _ => rfl

theorem mulFloatTwo_guarded : Guarded l (mulFloatTwo s) (two code ty attrs a b) false := by
  intro n r stood
  obtain ⟨x, y, d, left, right, p⟩ := stood.couple binary
  have none : ((none : Option Float) == some 2.0) = false := rfl
  simp only [mulFloatTwo, meets_bind, p.withOperands, p.rightFloat, none, Bool.and_false,
    Bool.false_eq_true, if_false]
  exact ⟨rfl, rfl⟩

theorem mulIntTwo_guarded : Guarded l mulIntTwo (two code ty attrs a b) (b.isLit 2#64) := by
  intro n r stood
  obtain ⟨x, y, d, left, right, p⟩ := stood.couple binary
  simp only [mulIntTwo, meets_bind, p.withOperands, p.rightTops.isIntLit]
  cases b.isLit 2#64 with
  | false => exact ⟨rfl, rfl⟩
  | true => exact told_some fun _ => rfl

theorem shiftBy_guarded {code' : Op} {allowed : Node → Bool} {c : Bool}
    (agree : ∀ left, Tops left a → allowed left = c) :
    Guarded l (shiftBy code' allowed) (two code ty attrs a b)
      (b.lit?.any Word.isPowerOfTwo && c) := by
  intro n r stood
  obtain ⟨x, y, d, left, right, p⟩ := stood.couple binary
  simp only [shiftBy, meets_bind, p.operands, p.withOperands, agree left p.leftTops]
  rw [show right.intLit? = b.lit? from p.rightTops.intLit?]
  cases b.lit? with
  | none => exact ⟨rfl, rfl⟩
  | some v =>
    simp only [Option.any_some, ← Bool.not_and]
    cases v.isPowerOfTwo && c with
    | false => exact ⟨rfl, rfl⟩
    | true => exact told_bind (fun _ => rfl) fun _ _ => told_bind (fun _ => rfl) fun _ _ => rfl

theorem divFloatConst_guarded : Guarded l (divFloatConst s) (two code ty attrs a b) false := by
  intro n r stood
  obtain ⟨x, y, d, left, right, p⟩ := stood.couple binary
  simp only [divFloatConst, meets_bind, p.operands, p.withOperands, p.rightFloat]
  exact ⟨rfl, rfl⟩

theorem landOne_guarded : Guarded l (landOne s) (two code ty attrs a b) (a.isLit 1#64) := by
  intro n r stood
  obtain ⟨x, y, d, left, right, p⟩ := stood.couple binary
  simp only [landOne, meets_bind, p.withOperands, p.leftTops.isIntLit]
  cases a.isLit 1#64 with
  | false => exact ⟨rfl, rfl⟩
  | true =>
    refine told_bind (fun _ => rfl) fun _ _ => told_bind (fun _ => rfl) fun _ _ => ?_
    split <;> exact told_bind (fun _ => rfl) fun _ _ => told_some fun _ => rfl

theorem lorOne_guarded : Guarded l lorOne (two code ty attrs a b) (a.isLit 1#64) := by
  intro n r stood
  obtain ⟨x, y, d, left, right, p⟩ := stood.couple binary
  simp only [lorOne, meets_bind, p.withOperands, p.leftTops.isIntLit]
  cases a.isLit 1#64 with
  | false => exact ⟨rfl, rfl⟩
  | true => exact told_some fun _ => rfl

theorem mulPowerOfTwo_guarded (small : a.ty.isSmall = true) :
    Guarded l (mulPowerOfTwo s) (two code ty attrs a b)
      (b.lit?.any Word.isPowerOfTwo && s.mulByShift) :=
  shiftBy_guarded binary fun left tops => by
    rw [tops.ty, Ty.isInt_of_isSmall small, Bool.and_true]

theorem divPowerOfTwo_guarded (small : a.ty.isSmall = true) :
    Guarded l (divPowerOfTwo s) (two code ty attrs a b)
      (b.lit?.any Word.isPowerOfTwo && (s.divByShift && a.ty.isUnsigned)) :=
  shiftBy_guarded binary fun left tops => by
    rw [tops.ty, Ty.isInt_of_isSmall small, Bool.and_true]

omit binary

/-- The identities of an operation, and when each of them applies. -/
theorem identities_guarded (binary : code.isBinary = true) (small : a.ty.isSmall = true) :
    ∃ cs, List.Forall₂ (fun (rule : Rule × Step) c => Guarded l rule.2 (two code ty attrs a b) c)
      (identities s code) cs ∧ cs.any id = simplifies s l s.foldConst code ty a b := by
  have single {rule : Rule} {step : Step} {t : Tree} {c : Bool} (h : Guarded l step t c) :
      List.Forall₂ (fun (rule : Rule × Step) c => Guarded l rule.2 t c) [(rule, step)] [c] :=
    .cons h .nil
  cases code
  case add => exact ⟨[b.isLit 0#64], single (dropLit_guarded binary), by simp [simplifies]⟩
  case bor => exact ⟨[b.isLit 0#64], single (dropLit_guarded binary), by simp [simplifies]⟩
  case sub => exact ⟨[a.same b], single (subSelf_guarded binary), by simp [simplifies]⟩
  case xor => exact ⟨[a.same b], single (xorSelf_guarded binary), by simp [simplifies]⟩
  case band => exact ⟨_, single (bandAllOnes_guarded binary), by simp [simplifies]⟩
  case rem => exact ⟨[b.isLit 1#64], single (zeroIfRight_guarded binary), by simp [simplifies]⟩
  case mod => exact ⟨[b.isLit 1#64], single (zeroIfRight_guarded binary), by simp [simplifies]⟩
  case land => exact ⟨[a.isLit 1#64], single (landOne_guarded binary), by simp [simplifies]⟩
  case lor => exact ⟨[a.isLit 1#64], single (lorOne_guarded binary), by simp [simplifies]⟩
  case eq => exact ⟨_, single (compareSelf_guarded binary), by simp [simplifies]⟩
  case ne => exact ⟨_, single (compareSelf_guarded binary), by simp [simplifies]⟩
  case mul =>
    refine ⟨[false, b.isLit 2#64, b.isLit 1#64, b.isLit 0#64,
      b.lit?.any Word.isPowerOfTwo && s.mulByShift], ?_, by simp [simplifies, Bool.or_assoc]⟩
    exact .cons (mulFloatTwo_guarded binary) (.cons (mulIntTwo_guarded binary)
      (.cons (dropLit_guarded binary) (.cons (zeroIfRight_guarded binary)
        (single (mulPowerOfTwo_guarded binary small)))))
  case div =>
    refine ⟨[false, b.lit?.any Word.isPowerOfTwo && (s.divByShift && a.ty.isUnsigned), a.same b],
      ?_, by simp [simplifies, Bool.and_assoc]⟩
    exact .cons (divFloatConst_guarded binary) (.cons (divPowerOfTwo_guarded binary small)
      (single (divSelf_guarded binary)))
  all_goals exact ⟨[], .nil, rfl⟩

include binary

theorem identityStep_guarded : Guarded l (identityStep s) (two code ty attrs a b)
    (simplifies s l s.foldConst code ty a b) := by
  intro n r stood
  obtain ⟨x, y, d, left, right, p⟩ := stood.couple binary
  have code' : d.code = code := p.tops.code
  simp only [identityStep, Edit.node, meets_bind, meets_ask, p.node, yields_ok, code']
  obtain ⟨cs, each, same⟩ : ∃ cs, List.Forall₂
      (fun (rule : Rule × Step) c => Guarded l rule.2 (two code ty attrs a b) c)
      (identities s code) cs ∧ cs.any id = simplifies s l s.foldConst code ty a b :=
    identities_guarded binary p.smallOperand
  rw [← same]
  exact Guarded.applyFirst each n r stood

/-! ### Moving constants -/

theorem commuteStep_guarded : Guarded l commuteStep (two code ty attrs a b)
    (commutes code a b) := by
  intro n r stood
  obtain ⟨x, y, d, left, right, p⟩ := stood.couple binary
  have code' : d.code = code := p.tops.code
  simp only [commuteStep, commute, meets_bind, Edit.node, meets_ask, p.node, yields_ok, code',
    commutes]
  cases code.commuted? with
  | none => exact ⟨rfl, rfl⟩
  | some swapped =>
    simp only [meets_bind, p.operands, meets_ask, p.leftNode, yields_ok, p.leftTops.isConst,
      Option.isSome_some, Bool.true_and]
    cases a.isConst with
    | false => exact ⟨rfl, rfl⟩
    | true =>
      simp only [Bool.not_true, Bool.false_eq_true, if_false, meets_bind, meets_ask, p.rightNode,
        yields_ok, p.rightTops.isConst, Bool.true_and]
      cases b.isConst with
      | true => exact ⟨rfl, rfl⟩
      | false =>
        simp only [Bool.false_eq_true, if_false, meets_bind, meets_pure]
        exact .all (fun _ => rfl) fun _ _ => .all (fun _ => rfl) fun _ _ => .all (fun _ => rfl)
          fun _ _ => .all (fun _ => rfl) fun _ _ => .all (fun _ => rfl) fun _ _ =>
            .all (fun _ => rfl) fun _ _ => rfl

theorem mergeConstants_guarded :
    Guarded l (mergeConstants s) (two code ty attrs a b) (merges l code ty a b) := by
  intro n r stood
  obtain ⟨x, y, d, left, right, p⟩ := stood.couple binary
  have may : mayMerge d left = mayMerge (.fresh code ty .none []) a.top := by
    simp only [mayMerge, p.tops.code, p.tops.ty, p.leftTops.code, p.leftTops.ty]
    rfl
  have value : right.intLit? = b.lit? := p.rightTops.intLit?
  simp only [mergeConstants, meets_bind, p.operands, Edit.node, meets_ask, p.node, p.rightNode,
    yields_ok, value, merges, ← may]
  cases known : b.lit? with
  | none =>
    have never (c : Tree) : evaluates l code c b = false := by simp [evaluates, known]
    simp only [never, Option.any_false, Bool.and_false]
    exact ⟨rfl, rfl⟩
  | some w =>
    simp only [meets_bind, meets_ask, p.leftNode, yields_ok]
    cases merging : mayMerge d left with
    | false => exact ⟨rfl, rfl⟩
    | true =>
      simp only [mayMerge, Bool.and_eq_true, p.leftTops.code] at merging
      have binary' := isBinary_of_isAssociative merging.1.1.1
      obtain ⟨inner, q, attrs', a₀, c, rfl⟩ := p.leftStood.spelled.exists_two binary'
      obtain ⟨x', y', d', left', right', p'⟩ := p.leftStood.couple binary'
      have value' : right'.intLit? = c.lit? := p'.rightTops.intLit?
      simp only [Bool.not_true, Bool.false_eq_true, if_false, Edit.kid, meets_bind, meets_ask,
        p'.rightKid, p'.rightNode, yields_ok, value', right?, Option.any_some, Bool.true_and,
        evaluates, known]
      cases c.lit? with
      | none => exact ⟨rfl, rfl⟩
      | some v =>
        have narrow : max (c.ty.byteSize l) (b.ty.byteSize l) ≤ 8 :=
          max_le (byteSize_le p'.rightStood.small) (byteSize_le p.rightStood.small)
        have code' : d.code = code := p.tops.code
        simp only [meets_bind, Edit.layout, meets_get, meets_pure, p.layout, p'.rightTops.ty,
          p.rightTops.ty, narrow, decide_true, require_true.meets, if_true, code']
        cases intBinary code v w (c.ty.isUnsigned || b.ty.isUnsigned)
            (max (c.ty.byteSize l) (b.ty.byteSize l) * 8) with
        | none => exact ⟨rfl, rfl⟩
        | some v =>
          exact told_bind (fun _ => rfl) fun _ _ => told_bind (fun _ => rfl) fun _ _ =>
            told_bind (fun _ => rfl) fun _ _ => told_bind (fun _ => rfl) fun _ _ =>
            told_bind (fun _ => rfl) fun _ _ => told_bind (fun _ => rfl) fun _ _ =>
            told_bind (fun _ => rfl) fun _ _ => told_some fun _ => rfl

theorem mergeStep_guarded : Guarded l (mergeStep s) (two code ty attrs a b)
    (s.reassociate && code.mergesConstants && merges l code ty a b) := by
  intro n r stood
  obtain ⟨x, y, d, left, right, p⟩ := stood.couple binary
  have code' : d.code = code := p.tops.code
  simp only [mergeStep, Edit.node, meets_bind, meets_ask, p.node, yields_ok, code']
  cases s.reassociate && code.mergesConstants with
  | false => exact ⟨rfl, rfl⟩
  | true => exact mergeConstants_guarded binary n r stood

/-! ### Rules that well-typed trees give no occasion for -/

theorem phiStep_guarded : Guarded l phiStep (two code ty attrs a b) false := by
  intro n r stood
  obtain ⟨x, y, d, left, right, p⟩ := stood.couple binary
  have none : Gives (definingPhis? left right) r none := by
    refine gives_iff.mpr ?_
    unfold definingPhis?
    split
    · exact ⟨rfl, rfl⟩
    · simp [Region.ssaDefOf, p.unnamed]
  simp only [phiStep, decideByPhis, Edit.node, meets_bind, meets_ask, p.node, yields_ok]
  split
  · simp only [meets_bind, p.operands, meets_ask, p.leftNode, p.rightNode, yields_ok, none.meets]
    exact ⟨rfl, rfl⟩
  · exact ⟨rfl, rfl⟩

theorem coerceStep_guarded {pass : Pass} :
    Guarded l (coerceStep s pass) (two code ty attrs a b) false := by
  intro n r stood
  obtain ⟨_, _, _, _, forest⟩ := stood.drawn
  obtain ⟨e, ns, stands⟩ := stood.stands
  obtain ⟨_, _, _, _, same, _⟩ := forest.reads List.mem_cons_self stands
  obtain ⟨op, q, e₀, e₁, rfl⟩ := exists_binary stands.typed (same ▸ binary)
  exact coerceStep_meets stands

/-! ### Folding one node -/

theorem foldBinary_guarded :
    Guarded l (foldBinary s) (two code ty attrs a b) (evaluates l code a b) := by
  intro n r stood
  obtain ⟨x, y, d, left, right, p⟩ := stood.couple binary
  have code' : d.code = code := p.tops.code
  have value : left.intLit? = a.lit? := p.leftTops.intLit?
  have value' : right.intLit? = b.lit? := p.rightTops.intLit?
  have narrow : max (a.ty.byteSize l) (b.ty.byteSize l) ≤ 8 :=
    max_le (byteSize_le p.leftStood.small) (byteSize_le p.rightStood.small)
  simp only [foldBinary, meets_bind, p.operands, Edit.node, meets_ask, p.node, p.leftNode,
    p.rightNode, yields_ok, value, value', evaluates]
  split
  · rename_i float _
    simp [p.leftFloat] at float
  cases a.lit? with
  | none => exact ⟨rfl, rfl⟩
  | some v =>
    cases b.lit? with
    | none => exact ⟨rfl, rfl⟩
    | some w =>
      simp only [foldIntBinary, meets_bind, Edit.layout, meets_get, meets_pure, p.layout,
        p.leftTops.ty, p.rightTops.ty, narrow, decide_true, require_true.meets, if_true, code']
      cases intBinary code v w (a.ty.isUnsigned || b.ty.isUnsigned)
          (max (a.ty.byteSize l) (b.ty.byteSize l) * 8) with
      | none => exact ⟨rfl, rfl⟩
      | some v =>
        exact told_bind (fun _ => rfl) fun _ _ => told_bind (fun _ => rfl) fun _ _ =>
          told_some fun _ => rfl

theorem substituteBinary_guarded :
    Guarded l substituteBinary (two code ty attrs a b) (decided l code a b) := by
  intro n r stood
  obtain ⟨x, y, d, left, right, p⟩ := stood.couple binary
  have code' : d.code = code := p.tops.code
  have width : a.ty.bitWidth l = .ok (a.ty.byteSize l * 8) := Ty.bitWidth_small l p.smallOperand
  have put {c : Bool} {rule : Rule} {v : Word} : Meets (if c = true then do
        fired rule n
        return some (← replaceByInt n v)
      else return none) r (fun _ => c = true) (Told c r) := by
    cases c with
    | false => exact ⟨rfl, rfl⟩
    | true => exact told_bind (fun _ => rfl) fun _ _ => told_some fun _ => rfl
  have splice {c : Bool} : Meets (if c = true then do
        fired .shiftZero n
        return some (← spliceKid n 0)
      else return none) r (fun _ => c = true) (Told c r) := by
    cases c with
    | false => exact ⟨rfl, rfl⟩
    | true => exact told_bind (fun _ => rfl) fun _ _ => told_some fun _ => rfl
  simp only [substituteBinary, meets_bind, p.operands, Edit.node, meets_ask, p.node, p.leftNode,
    p.rightNode, yields_ok, code', decided, p.leftTops.ty, p.leftTops.isIntLit,
    p.rightTops.isIntLit]
  have null : Gives (stringAddressAndNull left right <||> stringAddressAndNull right left) r
      false := by
    refine gives_iff.mpr ?_
    simp [stringAddressAndNull, p.leftStood.isStringAddress p.leftNode,
      p.rightStood.isStringAddress p.rightNode]
  split
  · exact put
  · exact put
  · rw [meets_bind, null.meets]
    exact ⟨rfl, rfl⟩
  · rw [meets_bind, null.meets]
    exact ⟨rfl, rfl⟩
  · exact splice
  · exact splice
  · cases a.isLit 0#64 || b.isLit 0#64 with
    | true => exact told_bind (fun _ => rfl) fun _ _ => told_some fun _ => rfl
    | false =>
      simp only [Bool.false_eq_true, if_false, ne_eq, not_true_eq_false, Edit.layout, meets_bind,
        meets_get, meets_pure, meets_lift, p.layout, width, yields_ok, Bool.false_or]
      exact put
  · split <;> first | exact ⟨rfl, rfl⟩ | contradiction

theorem foldNode_guarded : Guarded l (foldNode s) (two code ty attrs a b) (folds l code a b) := by
  intro n r stood
  obtain ⟨x, y, d, left, right, p⟩ := stood.couple binary
  have code' : d.code = code := p.tops.code
  unfold foldNode
  rw [meets_bind, Edit.node, meets_ask, p.node, yields_ok, code', if_pos binary]
  exact (foldBinary_guarded binary).orElse (fun _ new => return new)
    (substituteBinary_guarded binary) n r stood

end binary

theorem foldNode_guarded_unary (unary : code = .neg ∨ code = .lnot ∨ code = .bnot) :
    Guarded l (foldNode s) (one code ty attrs a) a.lit?.isSome := by
  intro n r stood
  have known : code.isUnary = true ∧ code.isBinary = false ∧
      ∀ v, (intUnary code v).isSome = true := by
    rcases unary with rfl | rfl | rfl <;> exact ⟨rfl, rfl, fun _ => rfl⟩
  obtain ⟨x, d, operand, p⟩ := stood.single known.1
  have code' : d.code = code := p.tops.code
  have type : d.ty = ty := p.tops.ty
  have value : operand.intLit? = a.lit? := p.operandTops.intLit?
  have float : operand.floatLit? = none :=
    Node.floatLit?_of_isSmall (p.operandTops.ty ▸ p.stood.small)
  have int : ty.isInt = true := Ty.isInt_of_isSmall (Term.isSmall_of_fitsUnary p.fits)
  have narrow : a.ty.byteSize l ≤ 8 := byteSize_le p.stood.small
  have folded : Meets (foldUnary s n) r (fun _ => a.lit?.isSome = true) (Told a.lit?.isSome r) := by
    simp only [foldUnary, Edit.node, Edit.kid, meets_bind, meets_ask, p.node, p.kid, p.operandNode,
      yields_ok, value]
    split
    · rename_i known
      simp [float] at known
    cases a.lit? with
    | none => exact ⟨rfl, rfl⟩
    | some v =>
      obtain ⟨w, result⟩ := Option.isSome_iff_exists.mp (known.2.2 v)
      simp only [foldIntUnary, meets_bind, Edit.layout, meets_get, meets_pure, p.layout,
        p.operandTops.ty, narrow, decide_true, require_true.meets, if_true, type, int,
        Bool.not_true, Bool.false_eq_true, if_false, code', result]
      exact .all (fun _ => rfl) fun _ _ => .all (fun _ => rfl) fun _ _ =>
        .all (fun _ => rfl) fun _ _ => .all (fun _ => rfl) fun _ _ => rfl
  simp only [foldNode, Edit.node, meets_bind, meets_ask, p.node, yields_ok, code', known.2.1,
    Bool.false_eq_true, if_false]
  rcases unary with rfl | rfl | rfl <;> exact folded

end Peephole
