import Peephole.Proofs.Shape
import Peephole.Proofs.Simplify

/-!
# Spelling

A tree of nodes spells a term. Every position of the term has a node of its own, so what
an edit does to one part of the tree cannot reach another part.
-/

namespace Peephole

open Edit

/-- Where nodes have the shapes `g`, the tree at `n`, with the nodes `ns` in pre-order,
spells the term. -/
def Spells (g : NodeId → Option Node) : Term → NodeId → List NodeId → Prop
  | .lit ty v, n, ns => ns = [n] ∧
    ∃ attrs, g n = some (.fresh .const ty attrs []) ∧ attrs.value = some (.int v)
  | .reg ty q, n, ns => ns = [n] ∧
    ∃ attrs, g n = some (.fresh .pr ty attrs []) ∧ attrs.reg = q
  | .load ty x ofst, n, ns => ns = [n] ∧
    ∃ attrs, g n = some (.fresh .ld ty attrs []) ∧ attrs.var = some x ∧ attrs.ofst = ofst
  | .indirect ty x base ofst, n, ns => ns.Nodup ∧
    ∃ k, ns = [n, k] ∧
      (∃ attrs, g n = some (.fresh .ild ty attrs [[k]]) ∧ attrs.ofst = ofst) ∧
      ∃ ty' attrs, g k = some (.fresh .lda ty' attrs []) ∧ attrs.var = some x ∧ attrs.ofst = base
  | .through ty q ofst, n, ns => ns.Nodup ∧
    ∃ k, ns = [n, k] ∧
      (∃ attrs, g n = some (.fresh .ild ty attrs [[k]]) ∧ attrs.ofst = ofst) ∧
      ∃ ty' attrs, g k = some (.fresh .pr ty' attrs []) ∧ attrs.reg = q
  | .unary op ty a, n, ns => ns.Nodup ∧
    ∃ k below attrs, ns = n :: below ∧ g n = some (.fresh op ty attrs [[k]]) ∧ Spells g a k below
  | .binary op ty a b, n, ns => ns.Nodup ∧
    ∃ k₀ below₀ k₁ below₁ attrs, ns = n :: (below₀ ++ below₁) ∧
      g n = some (.fresh op ty attrs [[k₀], [k₁]]) ∧ Spells g a k₀ below₀ ∧ Spells g b k₁ below₁
  | .select ty p a b, n, ns => ns.Nodup ∧
    ∃ k₀ below₀ k₁ below₁ k₂ below₂ attrs, ns = n :: (below₀ ++ (below₁ ++ below₂)) ∧
      g n = some (.fresh .select ty attrs [[k₀], [k₁], [k₂]]) ∧
      Spells g p k₀ below₀ ∧ Spells g a k₁ below₁ ∧ Spells g b k₂ below₂

namespace Spells

variable {hidden : Bool} {r : Region} {g g' : NodeId → Option Node} {e : Term} {n m : NodeId}
  {ns : List NodeId}

theorem nodup (h : Spells g e n ns) : ns.Nodup := by
  cases e <;> simp only [Spells] at h
  case lit => rw [h.1]; exact List.nodup_singleton n
  case reg => rw [h.1]; exact List.nodup_singleton n
  case load => rw [h.1]; exact List.nodup_singleton n
  all_goals exact h.1

theorem root (h : Spells g e n ns) :
    ∃ attrs slots, g n = some (.fresh e.code e.ty attrs slots) := by
  cases e <;> simp only [Spells] at h
  case lit => obtain ⟨_, attrs, shape, _⟩ := h; exact ⟨attrs, _, shape⟩
  case reg => obtain ⟨_, attrs, shape, _⟩ := h; exact ⟨attrs, _, shape⟩
  case load => obtain ⟨_, attrs, shape, _⟩ := h; exact ⟨attrs, _, shape⟩
  case indirect => obtain ⟨_, k, _, ⟨attrs, shape, _⟩, _⟩ := h; exact ⟨attrs, _, shape⟩
  case through => obtain ⟨_, k, _, ⟨attrs, shape, _⟩, _⟩ := h; exact ⟨attrs, _, shape⟩
  case unary => obtain ⟨_, k, below, attrs, _, shape, _⟩ := h; exact ⟨attrs, _, shape⟩
  case binary => obtain ⟨_, _, _, _, _, attrs, _, shape, _⟩ := h; exact ⟨attrs, _, shape⟩
  case select => obtain ⟨_, _, _, _, _, _, _, attrs, _, shape, _⟩ := h; exact ⟨attrs, _, shape⟩

theorem congr (h : Spells g e n ns) (agree : ∀ m ∈ ns, g' m = g m) : Spells g' e n ns := by
  induction e generalizing n ns with
  | lit ty v =>
    obtain ⟨rfl, attrs, shape, value⟩ := h
    exact ⟨rfl, attrs, (agree n List.mem_cons_self).trans shape, value⟩
  | reg ty q =>
    obtain ⟨rfl, attrs, shape, value⟩ := h
    exact ⟨rfl, attrs, (agree n List.mem_cons_self).trans shape, value⟩
  | load ty x o =>
    obtain ⟨rfl, attrs, shape, value⟩ := h
    exact ⟨rfl, attrs, (agree n List.mem_cons_self).trans shape, value⟩
  | indirect ty x base o =>
    obtain ⟨distinct, k, rfl, ⟨attrs, shape, ofst⟩, ty', attrs', shape', address⟩ := h
    refine ⟨distinct, k, rfl, ⟨attrs, ?_, ofst⟩, ty', attrs', ?_, address⟩
    · exact (agree n List.mem_cons_self).trans shape
    · exact (agree k (by simp)).trans shape'
  | through ty q o =>
    obtain ⟨distinct, k, rfl, ⟨attrs, shape, ofst⟩, ty', attrs', shape', pointer⟩ := h
    refine ⟨distinct, k, rfl, ⟨attrs, ?_, ofst⟩, ty', attrs', ?_, pointer⟩
    · exact (agree n List.mem_cons_self).trans shape
    · exact (agree k (by simp)).trans shape'
  | unary op ty a ih =>
    obtain ⟨distinct, k, below, attrs, rfl, shape, spelled⟩ := h
    refine ⟨distinct, k, below, attrs, rfl, (agree n List.mem_cons_self).trans shape, ?_⟩
    exact ih spelled fun m mem => agree m (List.mem_cons_of_mem n mem)
  | binary op ty a b ihA ihB =>
    obtain ⟨distinct, k₀, below₀, k₁, below₁, attrs, rfl, shape, left, right⟩ := h
    refine ⟨distinct, k₀, below₀, k₁, below₁, attrs, rfl,
      (agree n List.mem_cons_self).trans shape, ?_, ?_⟩
    · exact ihA left fun m mem => agree m (by simp [mem])
    · exact ihB right fun m mem => agree m (by simp [mem])
  | select ty p a b ihP ihA ihB =>
    obtain ⟨distinct, k₀, below₀, k₁, below₁, k₂, below₂, attrs, rfl, shape, pred, yes, no⟩ := h
    refine ⟨distinct, k₀, below₀, k₁, below₁, k₂, below₂, attrs, rfl,
      (agree n List.mem_cons_self).trans shape, ?_, ?_, ?_⟩
    · exact ihP pred fun m mem => agree m (by simp [mem])
    · exact ihA yes fun m mem => agree m (by simp [mem])
    · exact ihB no fun m mem => agree m (by simp [mem])

theorem length (h : Spells g e n ns) : ns.length = e.size := by
  induction e generalizing n ns with
  | lit ty v => rw [h.1]; rfl
  | reg ty q => rw [h.1]; rfl
  | load ty x o => rw [h.1]; rfl
  | indirect ty x base o =>
    obtain ⟨_, k, rfl, _⟩ := h
    rfl
  | through ty q o =>
    obtain ⟨_, k, rfl, _⟩ := h
    rfl
  | unary op ty a ih =>
    obtain ⟨_, k, below, attrs, rfl, _, spelled⟩ := h
    simp [Term.size, ih spelled]
  | binary op ty a b ihA ihB =>
    obtain ⟨_, k₀, below₀, k₁, below₁, attrs, rfl, _, left, right⟩ := h
    simp [Term.size, ihA left, ihB right]
  | select ty p a b ihP ihA ihB =>
    obtain ⟨_, k₀, below₀, k₁, below₁, k₂, below₂, attrs, rfl, _, pred, yes, no⟩ := h
    simp [Term.size, ihP pred, ihA yes, ihB no, Nat.add_assoc]

theorem plain (h : Spells g e n ns) : Plain g ns := by
  induction e generalizing n ns with
  | lit ty v =>
    obtain ⟨rfl, attrs, shape, _⟩ := h
    intro m mem
    exact ⟨_, _, _, _, List.mem_singleton.mp mem ▸ shape⟩
  | reg ty q =>
    obtain ⟨rfl, attrs, shape, _⟩ := h
    intro m mem
    exact ⟨_, _, _, _, List.mem_singleton.mp mem ▸ shape⟩
  | load ty x o =>
    obtain ⟨rfl, attrs, shape, _⟩ := h
    intro m mem
    exact ⟨_, _, _, _, List.mem_singleton.mp mem ▸ shape⟩
  | indirect ty x base o =>
    obtain ⟨_, k, rfl, ⟨attrs, shape, _⟩, ty', attrs', shape', _⟩ := h
    intro m mem
    simp only [List.mem_cons, List.not_mem_nil, or_false] at mem
    rcases mem with rfl | rfl
    · exact ⟨_, _, _, _, shape⟩
    · exact ⟨_, _, _, _, shape'⟩
  | through ty q o =>
    obtain ⟨_, k, rfl, ⟨attrs, shape, _⟩, ty', attrs', shape', _⟩ := h
    intro m mem
    simp only [List.mem_cons, List.not_mem_nil, or_false] at mem
    rcases mem with rfl | rfl
    · exact ⟨_, _, _, _, shape⟩
    · exact ⟨_, _, _, _, shape'⟩
  | unary op ty a ih =>
    obtain ⟨_, k, below, attrs, rfl, shape, spelled⟩ := h
    intro m mem
    rcases List.mem_cons.mp mem with rfl | mem
    · exact ⟨_, _, _, _, shape⟩
    · exact ih spelled m mem
  | binary op ty a b ihA ihB =>
    obtain ⟨_, k₀, below₀, k₁, below₁, attrs, rfl, shape, left, right⟩ := h
    intro m mem
    rcases List.mem_cons.mp mem with rfl | mem
    · exact ⟨_, _, _, _, shape⟩
    · rcases List.mem_append.mp mem with mem | mem
      · exact ihA left m mem
      · exact ihB right m mem
  | select ty p a b ihP ihA ihB =>
    obtain ⟨_, k₀, below₀, k₁, below₁, k₂, below₂, attrs, rfl, shape, pred, yes, no⟩ := h
    intro m mem
    rcases List.mem_cons.mp mem with rfl | mem
    · exact ⟨_, _, _, _, shape⟩
    · rcases List.mem_append.mp mem with mem | mem
      · exact ihP pred m mem
      · rcases List.mem_append.mp mem with mem | mem
        · exact ihA yes m mem
        · exact ihB no m mem

theorem grove (h : Spells g e n ns) : Grove (fun m => (g m).map Node.kids) [n] ns := by
  have leaf {m : NodeId} {code : Op} {ty : Ty} {attrs : Attrs}
      (shape : g m = some (.fresh code ty attrs [])) :
      Grove (fun m => (g m).map Node.kids) [m] [m] :=
    Grove.singleton_iff.mpr ⟨[], [], by simp [shape, Node.kids, Node.fresh], .nil, rfl⟩
  induction e generalizing n ns with
  | lit ty v =>
    obtain ⟨rfl, attrs, shape, _⟩ := h
    exact leaf shape
  | reg ty q =>
    obtain ⟨rfl, attrs, shape, _⟩ := h
    exact leaf shape
  | load ty x o =>
    obtain ⟨rfl, attrs, shape, _⟩ := h
    exact leaf shape
  | indirect ty x base o =>
    obtain ⟨_, k, rfl, ⟨attrs, shape, _⟩, ty', attrs', shape', _⟩ := h
    exact Grove.singleton_iff.mpr
      ⟨[k], [k], by simp [shape, Node.kids, Node.fresh], leaf shape', rfl⟩
  | through ty q o =>
    obtain ⟨_, k, rfl, ⟨attrs, shape, _⟩, ty', attrs', shape', _⟩ := h
    exact Grove.singleton_iff.mpr
      ⟨[k], [k], by simp [shape, Node.kids, Node.fresh], leaf shape', rfl⟩
  | unary op ty a ih =>
    obtain ⟨_, k, below, attrs, rfl, shape, spelled⟩ := h
    exact Grove.singleton_iff.mpr
      ⟨[k], below, by simp [shape, Node.kids, Node.fresh], ih spelled, rfl⟩
  | binary op ty a b ihA ihB =>
    obtain ⟨_, k₀, below₀, k₁, below₁, attrs, rfl, shape, left, right⟩ := h
    exact Grove.singleton_iff.mpr ⟨[k₀] ++ [k₁], below₀ ++ below₁,
      by simp [shape, Node.kids, Node.fresh], (ihA left).append (ihB right), rfl⟩
  | select ty p a b ihP ihA ihB =>
    obtain ⟨_, k₀, below₀, k₁, below₁, k₂, below₂, attrs, rfl, shape, pred, yes, no⟩ := h
    exact Grove.singleton_iff.mpr ⟨[k₀] ++ ([k₁] ++ [k₂]), below₀ ++ (below₁ ++ below₂),
      by simp [shape, Node.kids, Node.fresh],
      (ihP pred).append ((ihA yes).append (ihB no)), rfl⟩

theorem tree (h : Spells (r.shape hidden) e n ns) : Grove r.kidsOf [n] ns := by
  have same : r.kidsOf = fun m => (r.shape hidden m).map Node.kids :=
    funext fun m => Region.kidsOf_shape
  rw [same]
  exact h.grove

theorem live (h : Spells (r.shape hidden) e n ns) (mem : m ∈ ns) : r.Live m := by
  obtain ⟨_, _, _, _, shape⟩ := h.plain m mem
  exact Region.live_of_shape shape

theorem root_mem (h : Spells g e n ns) : n ∈ ns :=
  h.grove.roots_mem n List.mem_cons_self

theorem size_le (h : Spells (r.shape hidden) e n ns) : e.size ≤ r.nodes.size := by
  rw [← h.length]
  exact Region.length_le_size h.nodup fun m mem => h.live mem

end Spells

/-! ### Values -/

theorem Value.normalize_small {l : Layout} {t : Ty} (h : t.isSmall = true) (x : Value) :
    x.normalize l t = .ok (.int (x.word l t)) := by
  have int := Ty.isInt_of_isSmall h
  have notFloat := (Ty.kind_of_isSmall h).1
  cases x <;>
    simp [Value.normalize, notFloat, Ty.normalizeInt_of_isInt l int, Value.word, bind,
      Except.bind, pure, Except.pure]

theorem Ty.bitWidth_small (l : Layout) {t : Ty} (h : t.isSmall = true) :
    t.bitWidth l = .ok (t.byteSize l * 8) := by
  have bits := Ty.bits_of_isSmall l h
  unfold Ty.bitWidth
  rw [if_pos (by omega)]

namespace Region

variable {hidden : Bool} {r : Region} {env : Env} {e : Term} {n : NodeId} {ns : List NodeId}
  {d : Node} {fuel : Nat}

theorem evalWithin_succ {x : Option Value} (found : r.node? n = some d)
    (raw : r.rawValue env (r.evalWithin env fuel) n d = .ok x) (small : d.ty.isSmall = true) :
    r.evalWithin env (fuel + 1) n = .ok (x.map fun v => .int (v.word r.layout d.ty)) := by
  rw [evalWithin, node_of found]
  simp only [bind, Except.bind, raw]
  cases x with
  | none => rfl
  | some v => simp [Option.mapM, Value.normalize_small small, Functor.map, Except.map]

theorem evalWithin_of_words {x : Option Word} (found : r.node? n = some d)
    (raw : r.rawValue env (r.evalWithin env fuel) n d = .ok (x.map .int))
    (small : d.ty.isSmall = true) :
    r.evalWithin env (fuel + 1) n = .ok ((x.map (d.ty.wrapInt r.layout)).map .int) := by
  rw [evalWithin_succ found raw small]
  cases x <;> rfl

theorem rawValue_of_isBinary {value : NodeId → Except Fault (Option Value)}
    (code : d.code.isBinary = true) : r.rawValue env value n d = (do
      let k₀ ← r.kid n 0
      let k₁ ← r.kid n 1
      match ← value k₀ with
      | none => return none
      | some a =>
        match ← value k₁ with
        | none => return none
        | some b => do
          binaryValue r.layout d.code (← r.node k₀).ty (← r.node k₁).ty a b) := by
  unfold rawValue
  generalize d.code = op at code
  cases op <;> first | rfl | exact absurd code Bool.false_ne_true

theorem rawValue_binary {value : NodeId → Except Fault (Option Value)} {k₀ k₁ : NodeId}
    {d₀ d₁ : Node} {x y : Option Word} (code : d.code.isBinary = true)
    (kid₀ : r.kid n 0 = .ok k₀) (kid₁ : r.kid n 1 = .ok k₁) (node₀ : r.node? k₀ = some d₀)
    (node₁ : r.node? k₁ = some d₁) (small₀ : d₀.ty.isSmall = true) (small₁ : d₁.ty.isSmall = true)
    (hx : value k₀ = .ok (x.map .int)) (hy : value k₁ = .ok (y.map .int)) :
    r.rawValue env value n d = .ok ((x.bind fun v => y.bind fun w =>
      d₀.ty.applyMixed r.layout d₁.ty d.code v w).map .int) := by
  rw [rawValue_of_isBinary code, kid₀, kid₁]
  simp only [bind, Except.bind, hx, hy]
  cases x with
  | none => rfl
  | some v =>
    cases y with
    | none => rfl
    | some w =>
      simp only [Option.map_some, node_of node₀, node_of node₁, binaryValue, bind, Except.bind,
        Ty.bitWidth_small r.layout small₀, Ty.bitWidth_small r.layout small₁, pure, Except.pure,
        Nat.mul_max_mul_right]
      rfl

theorem rawValue_select {value : NodeId → Except Fault (Option Value)} {k₀ k₁ k₂ : NodeId}
    {c x y : Option Word} (code : d.code = .select) (kid₀ : r.kid n 0 = .ok k₀)
    (kid₁ : r.kid n 1 = .ok k₁) (kid₂ : r.kid n 2 = .ok k₂) (hc : value k₀ = .ok (c.map .int))
    (hx : value k₁ = .ok (x.map .int)) (hy : value k₂ = .ok (y.map .int)) :
    r.rawValue env value n d = .ok ((c.bind fun c => if c != 0#64 then x else y).map .int) := by
  rw [rawValue, code]
  simp only [kid₀, bind, Except.bind, hc]
  cases c with
  | none => rfl
  | some c =>
    by_cases zero : c = 0#64
    · simp [zero, Value.isTrue, kid₂, hy]
    · simp [zero, Value.isTrue, kid₁, hx]

theorem rawValue_unary {value : NodeId → Except Fault (Option Value)} {k : NodeId} {dk : Node}
    {x : Option Word} (code : d.code.isUnary = true) (kid : r.kid n 0 = .ok k)
    (node : r.node? k = some dk) (small : d.ty.isSmall = true) (hx : value k = .ok (x.map .int)) :
    r.rawValue env value n d = .ok ((x.bind d.code.onWord).map .int) := by
  have notFloat := (Ty.kind_of_isSmall small).1
  unfold rawValue
  cases op : d.code <;> simp [op, Op.isUnary] at code <;>
    simp only [kid, bind, Except.bind, hx, node_of node, Op.isUnary] <;>
    cases x <;> simp [Op.onWord, convertValue, notFloat, unaryValue, pure, Except.pure]

/-- Trees that spell the term have its value. -/
def Evaluable (hidden : Bool) (r : Region) (env : Env) (fuel : Nat) (e : Term) : Prop :=
  ∀ n ns, Spells (r.shape hidden) e n ns →
    r.evalWithin env fuel n = .ok ((e.value r.layout env).map .int)

section evaluable

variable {op : Op} {t : Ty} {p a b : Term}

theorem evaluable_lit {v : Word} (typed : (Term.lit t v).typed r.layout = true) :
    Evaluable hidden r env (fuel + 1) (.lit t v) := by
  rintro n ns ⟨_, attrs, shape, value⟩
  obtain ⟨parent, record, found, _⟩ := node?_of_shape shape
  refine (evalWithin_succ (x := some (.int v)) found ?_ (Term.isSmall_of_typed typed)).trans rfl
  simp [rawValue, leafValue, value, Op.isUnary, Op.isBinary]

theorem evaluable_reg {q : Nat} (typed : (Term.reg t q).typed r.layout = true) :
    Evaluable hidden r env (fuel + 1) (.reg t q) := by
  rintro n ns ⟨_, attrs, shape, rfl⟩
  obtain ⟨parent, record, found, _⟩ := node?_of_shape shape
  refine (evalWithin_succ (x := env.reg attrs.reg) found ?_ (Term.isSmall_of_typed typed)).trans ?_
  · simp [rawValue, leafValue, Op.isUnary, Op.isBinary]
  · simp [Term.value, Function.comp_def]

theorem evaluable_load {x : VarId} {o : Int} (typed : (Term.load t x o).typed r.layout = true) :
    Evaluable hidden r env (fuel + 1) (.load t x o) := by
  rintro n ns ⟨_, attrs, shape, var, rfl⟩
  obtain ⟨parent, record, found, _⟩ := node?_of_shape shape
  refine (evalWithin_succ (x := env.var x attrs.ofst) found ?_
    (Term.isSmall_of_typed typed)).trans ?_
  · simp [rawValue, leafValue, var, Op.isUnary, Op.isBinary]
  · simp [Term.value, Function.comp_def]

theorem evaluable_indirect {x : VarId} {base o : Int}
    (typed : (Term.indirect t x base o).typed r.layout = true) :
    Evaluable hidden r env (fuel + 1) (.indirect t x base o) := by
  have small := Term.isSmall_of_typed typed
  simp only [Term.typed, Bool.and_eq_true] at typed
  rintro n ns ⟨_, k, _, ⟨attrs, shape, rfl⟩, ty', attrs', shape', var, rfl⟩
  obtain ⟨parent, record, found, _⟩ := node?_of_shape shape
  obtain ⟨parent', record', found', _⟩ := node?_of_shape shape'
  have kid : r.kid n 0 = .ok k := kid_of found rfl
  refine (evalWithin_succ (x := env.var x (attrs'.ofst + attrs.ofst)) found ?_ small).trans ?_
  · simp [rawValue, kid, node_of found', indirectValue, var, addOffsets,
      typed.2, bind, Except.bind, pure, Except.pure]
  · simp [Term.value, Function.comp_def]

theorem evaluable_through {q : Nat} {o : Int}
    (typed : (Term.through t q o).typed r.layout = true) :
    Evaluable hidden r env (fuel + 1) (.through t q o) := by
  rintro n ns ⟨_, k, _, ⟨attrs, shape, _⟩, ty', attrs', shape', _⟩
  obtain ⟨parent, record, found, _⟩ := node?_of_shape shape
  obtain ⟨parent', record', found', _⟩ := node?_of_shape shape'
  have kid : r.kid n 0 = .ok k := kid_of found rfl
  refine (evalWithin_succ (x := none) found ?_ (Term.isSmall_of_typed typed)).trans rfl
  simp [rawValue, kid, node_of found', indirectValue, bind, Except.bind]

theorem evaluable_unary (typed : (Term.unary op t a).typed r.layout = true)
    (operand : Evaluable hidden r env fuel a) :
    Evaluable hidden r env (fuel + 1) (.unary op t a) := by
  have small := Term.isSmall_of_typed typed
  have code : op.isUnary = true := by
    have fits := (Term.typed_unary.mp typed).2
    cases op <;> simp_all [Op.fitsUnary, Op.isUnary]
  rintro n ns ⟨_, k, below, attrs, rfl, shape, spelled⟩
  obtain ⟨parent, record, found, _⟩ := node?_of_shape shape
  obtain ⟨dk, foundK⟩ := spelled.live spelled.root_mem
  have kid : r.kid n 0 = .ok k := kid_of found rfl
  refine (evalWithin_of_words found
    (rawValue_unary code kid foundK small (operand k below spelled)) small).trans ?_
  rw [Term.value, Option.bind_eq_bind, Option.map_bind]
  rfl

theorem evaluable_binary (typed : (Term.binary op t a b).typed r.layout = true)
    (left : Evaluable hidden r env fuel a) (right : Evaluable hidden r env fuel b) :
    Evaluable hidden r env (fuel + 1) (.binary op t a b) := by
  have small := Term.isSmall_of_typed typed
  have code : op.isBinary = true := Term.isBinary_of_typed typed
  obtain ⟨typedA, typedB, same, _⟩ := Term.typed_binary.mp typed
  rintro n ns ⟨_, k₀, below₀, k₁, below₁, attrs, rfl, shape, spells₀, spells₁⟩
  obtain ⟨parent, record, found, _⟩ := node?_of_shape shape
  obtain ⟨attrs₀, slots₀, shape₀⟩ := spells₀.root
  obtain ⟨attrs₁, slots₁, shape₁⟩ := spells₁.root
  obtain ⟨parent₀, record₀, found₀, _⟩ := node?_of_shape shape₀
  obtain ⟨parent₁, record₁, found₁, _⟩ := node?_of_shape shape₁
  have kid₀ : r.kid n 0 = .ok k₀ := kid_of found rfl
  have kid₁ : r.kid n 1 = .ok k₁ := kid_of found rfl
  have valueA := left k₀ below₀ spells₀
  have valueB := right k₁ below₁ spells₁
  refine (evalWithin_of_words found (rawValue_binary code kid₀ kid₁ found₀ found₁
    (Term.isSmall_of_typed typedA) (Term.isSmall_of_typed typedB) valueA valueB) small).trans ?_
  simp only [Term.value, Option.bind_eq_bind, same, Ty.applyMixed_self]
  cases a.value r.layout env with
  | none => rfl
  | some v => cases b.value r.layout env <;> rfl

theorem evaluable_select (typed : (Term.select t p a b).typed r.layout = true)
    (pred : Evaluable hidden r env fuel p) (yes : Evaluable hidden r env fuel a)
    (no : Evaluable hidden r env fuel b) :
    Evaluable hidden r env (fuel + 1) (.select t p a b) := by
  rintro n ns ⟨_, k₀, _, k₁, _, k₂, _, attrs, rfl, shape, spells₀, spells₁, spells₂⟩
  obtain ⟨parent, record, found, _⟩ := node?_of_shape shape
  have kid₀ : r.kid n 0 = .ok k₀ := kid_of found rfl
  have kid₁ : r.kid n 1 = .ok k₁ := kid_of found rfl
  have kid₂ : r.kid n 2 = .ok k₂ := kid_of found rfl
  have valueP := pred k₀ _ spells₀
  have valueA := yes k₁ _ spells₁
  have valueB := no k₂ _ spells₂
  refine (evalWithin_of_words found (rawValue_select rfl kid₀ kid₁ kid₂ valueP valueA valueB)
    (Term.isSmall_of_typed typed)).trans ?_
  rw [Term.value, Option.bind_eq_bind, Option.map_bind]
  rfl

theorem evaluable_of_typed (typed : e.typed r.layout = true) (deep : e.size ≤ fuel) :
    Evaluable hidden r env fuel e := by
  induction e generalizing fuel <;> obtain ⟨fuel, rfl⟩ := Term.exists_succ_of_size_le deep <;>
    simp only [Term.size] at deep
  case lit => exact evaluable_lit typed
  case reg => exact evaluable_reg typed
  case load => exact evaluable_load typed
  case indirect => exact evaluable_indirect typed
  case through => exact evaluable_through typed
  case unary ih =>
    exact evaluable_unary typed (ih (Term.typed_unary.mp typed).1 (by omega))
  case binary ihA ihB =>
    obtain ⟨typedA, typedB, _⟩ := Term.typed_binary.mp typed
    exact evaluable_binary typed (ihA typedA (by omega)) (ihB typedB (by omega))
  case select ihP ihA ihB =>
    obtain ⟨typedP, typedA, typedB, _⟩ := Term.typed_select.mp typed
    exact evaluable_select typed (ihP typedP (by omega)) (ihA typedA (by omega))
      (ihB typedB (by omega))

end evaluable

/-- The value of a tree is that of the term it spells. -/
theorem eval_of_spells (h : Spells (r.shape hidden) e n ns) (typed : e.typed r.layout = true) :
    r.eval env n = .ok ((e.value r.layout env).map .int) :=
  evaluable_of_typed typed (Nat.le_succ_of_le h.size_le) n ns h

end Region

end Peephole
