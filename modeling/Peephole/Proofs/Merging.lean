import Peephole.Proofs.Reductions
import Peephole.Proofs.Spelling
import Peephole.Proofs.Values

/-!
# Merging constants of different types

The constants of `(x + c₁) + c₂` are merged into a literal of the type of `c₂`. Where this type
holds the sum, or is as wide as the operators, the value stays (`mergeConstants_preserves_value`);
a narrower one cuts the sum off (`mergeConstants_narrow`).
-/

namespace Peephole

open Edit Peephole.Tree

variable {r r' r₀ : Region} {env : Env} {n m : NodeId} {d : Node} {ns ns₀ : List NodeId}
  {ps : List Piece} {code : Op} {ty : Ty} {attrs : Attrs} {a b c : Tree} {up : Option NodeId}
  {fuel : Nat} {z : Value} {v w : Word} {l : Layout} {s : Setting}

/-! ### Values of binary trees -/

namespace Region

/-- The value of a node of small type is an integer. -/
theorem evalWithin_eq_some (found : r.node? n = some d) (small : d.ty.isSmall = true) :
    r.evalWithin env (fuel + 1) n = .ok (some z) ↔
      ∃ x, r.rawValue env (r.evalWithin env fuel) n d = .ok (some x) ∧
        z = .int (x.word r.layout d.ty) := by
  cases raw : r.rawValue env (r.evalWithin env fuel) n d with
  | error f => simp [evalWithin, node_of found, raw, bind, Except.bind]
  | ok x =>
    rw [evalWithin_succ found raw small]
    cases x <;> simp [eq_comm]

theorem evalWithin_int (found : r.node? n = some d) (small : d.ty.isSmall = true)
    (ran : r.evalWithin env fuel n = .ok (some z)) : ∃ v, z = .int v := by
  cases fuel with
  | zero => cases ran
  | succ fuel =>
    obtain ⟨_, _, rfl⟩ := (evalWithin_eq_some found small).mp ran
    exact ⟨_, rfl⟩

/-- A binary node has a value only where its operands do. -/
theorem operands_of_rawValue {value : NodeId → Except Fault (Option Value)} {x y : NodeId}
    (binary : d.code.isBinary = true) (left : r.kid n 0 = .ok x) (right : r.kid n 1 = .ok y)
    (raw : r.rawValue env value n d = .ok (some z)) :
    ∃ v w, value x = .ok (some v) ∧ value y = .ok (some w) := by
  simp only [rawValue_of_isBinary binary, left, right, bind_eq_ok, Except.ok.injEq,
    exists_eq_left'] at raw
  obtain ⟨v, known, raw⟩ := raw
  cases v with
  | none => cases raw
  | some v =>
    obtain ⟨w, known', raw⟩ := bind_eq_ok.mp raw
    cases w with
    | none => cases raw
    | some w => exact ⟨v, w, known, known'⟩

end Region

namespace Forest

theorem evalWithin_lit (env : Env) (fuel : Nat) (h : Forest r₀ ns₀ (.tree c n up :: ps) r)
    (value : c.top.intLit? = some v) (small : c.ty.isSmall = true) :
    r.evalWithin env (fuel + 1) n = .ok (some (.int (c.ty.wrapInt r.layout v))) := by
  obtain ⟨d, found, tops, _⟩ := h.node List.mem_cons_self
  rw [← tops.intLit?, Node.intLit?] at value
  split at value
  · rename_i v' code held
    obtain rfl : v' = v := by simp_all
    refine (Region.evalWithin_of_words (x := some v') found ?_ (tops.ty ▸ small)).trans ?_
    · simp [Region.rawValue, Region.leafValue, code, held, Op.isUnary, Op.isBinary]
    · rw [tops.ty]
      rfl
  · cases value

/-- The value of a binary tree comes from those of its operands. -/
theorem evalWithin_two (env : Env)
    (h : Forest r₀ ns₀ (.tree (two code ty attrs a b) n up :: ps) r)
    (binary : code.isBinary = true) (small : ty.isSmall = true) (smallA : a.ty.isSmall = true)
    (smallB : b.ty.isSmall = true) : ∃ x y, Forest r₀ ns₀
      (.stub (.fresh code ty attrs [[x], [y]]) n up :: .tree a x (some n) :: .tree b y (some n) ::
        ps) r ∧ ∀ fuel z, r.evalWithin env (fuel + 1) n = .ok (some z) ↔
      ∃ v w u, r.evalWithin env fuel x = .ok (some (.int v)) ∧
        r.evalWithin env fuel y = .ok (some (.int w)) ∧
        a.ty.applyMixed r.layout b.ty code v w = some u ∧ z = .int (ty.wrapInt r.layout u) := by
  obtain ⟨x, y, split⟩ := h.splitTwo
  obtain ⟨d, found, tops⟩ : ∃ d, r.node? n = some d ∧ d.code = code ∧ d.ty = ty ∧
      d.slots = [[x], [y]] := by
    obtain ⟨_, _, _, found⟩ := Region.node?_of_core (split.stub_found List.mem_cons_self)
    exact ⟨_, found, rfl, rfl, rfl⟩
  obtain ⟨rfl, rfl, slots⟩ := tops
  obtain ⟨left, foundX, topsA, _⟩ := (split.front [_]).node List.mem_cons_self
  obtain ⟨right, foundY, topsB, _⟩ := (split.front [_, _]).node List.mem_cons_self
  have smallX : left.ty.isSmall = true := topsA.ty ▸ smallA
  have smallY : right.ty.isSmall = true := topsB.ty ▸ smallB
  have kidX : r.kid n 0 = .ok x := Region.kid_of found (by rw [slots]; rfl)
  have kidY : r.kid n 1 = .ok y := Region.kid_of found (by rw [slots]; rfl)
  refine ⟨x, y, split, fun fuel z => (Region.evalWithin_eq_some found small).trans ?_⟩
  have applied (v w : Word) (known : r.evalWithin env fuel x = .ok (some (.int v)))
      (known' : r.evalWithin env fuel y = .ok (some (.int w))) :
      r.rawValue env (r.evalWithin env fuel) n d =
        .ok ((a.ty.applyMixed r.layout b.ty d.code v w).map .int) := by
    rw [← topsA.ty, ← topsB.ty]
    exact Region.rawValue_binary (x := some v) (y := some w) binary kidX kidY foundX foundY
      smallX smallY known known'
  constructor
  · rintro ⟨raw, ran, rfl⟩
    obtain ⟨v, w, known, known'⟩ := Region.operands_of_rawValue binary kidX kidY ran
    obtain ⟨v, rfl⟩ := Region.evalWithin_int foundX smallX known
    obtain ⟨w, rfl⟩ := Region.evalWithin_int foundY smallY known'
    rw [applied v w known known', Except.ok.injEq, Option.map_eq_some_iff] at ran
    obtain ⟨u, result, rfl⟩ := ran
    exact ⟨v, w, u, known, known', result, rfl⟩
  · rintro ⟨v, w, u, known, known', result, rfl⟩
    exact ⟨.int u, by rw [applied v w known known', result]; rfl, rfl⟩

end Forest

/-! ### Merging -/

/-- A type as wide as another one loses nothing that the other holds. -/
theorem Ty.wrapInt_of_wide {t q : Ty} (word : t.isWord = true) (word' : q.isWord = true)
    (wide : t.byteSize l ≤ q.byteSize l) : t.wrapInt l (q.wrapInt l v) = t.wrapInt l v := by
  rw [wrapInt_eq_iff word]
  have low := congrArg (BitVec.setWidth (t.byteSize l * 8)) (low_wrapInt (l := l) word' v)
  have narrow : t.byteSize l * 8 ≤ q.byteSize l * 8 := Nat.mul_le_mul_right 8 wide
  rwa [BitVec.setWidth_setWidth_of_le _ narrow, BitVec.setWidth_setWidth_of_le _ narrow] at low

/-- A literal in the range of its type, which is small. -/
structure Tree.Holds (l : Layout) (c : Tree) (v : Word) : Prop where
  value : c.top.intLit? = some v
  small : c.ty.isSmall = true
  range : c.ty.wrapInt l v = v

theorem Tree.Holds.evalWithin (held : c.Holds r.layout v)
    (h : Forest r₀ ns₀ (.tree c n up :: ps) r)
    (ran : r.evalWithin env fuel n = .ok (some (.int w))) : w = v := by
  cases fuel with
  | zero => cases ran
  | succ fuel =>
    rw [h.evalWithin_lit env fuel held.value held.small, held.range] at ran
    exact (Value.int.inj (Option.some.inj (Except.ok.inj ran))).symm

theorem Tree.intLit?_lit {q : Ty} (int : q.isInt = true) :
    (lit (.int v) q).top.intLit? = some v := by
  simp [Node.intLit?, top, Node.fresh, Tree.code, Tree.ty, Tree.attrs, Attrs.ofLiteral, int]

/-- Under an operator on words, the merged constant has the type of the outer one. -/
theorem Tree.Merges.shape {inner : Op} {attrs' : Attrs} {x u : Tree}
    (merges : Merges l code ty b (two inner ty attrs' x c) u) (word : ty.isWord = true) :
    ∃ v, u = two inner ty attrs' x (lit (.int v) b.ty) := by
  obtain ⟨_, _, pointer, chunk, _⟩ := Ty.kind_of_isSmall (Ty.isSmall_of_isWord word)
  cases merges with
  | @merge _ _ _ _ _ _ _ _ v _ _ _ _ _ _ _ own _ => exact ⟨v, by rw [own pointer chunk]⟩

/-- A tree of merged constants has the value it had, if the type of the outer constant loses
nothing of the merged one. -/
theorem Tree.Merges.eval {r₀' : Region} {n' : NodeId} {ns₀' : List NodeId} {ps' : List Piece}
    {up' : Option NodeId} {inner : Op} {attrs' : Attrs} {x u : Tree} {c₁ c₂ : Word}
    (merges : Merges r.layout code ty b (two inner ty attrs' x c) u)
    (h : Forest r₀ ns₀ (.tree (two code ty attrs (two inner ty attrs' x c) b) n up :: ps) r)
    (h' : Forest r₀' ns₀' (.tree u n' up' :: ps') r') (layout : r'.layout = r.layout)
    (binary : code.isBinary = true) (word : ty.isWord = true) (own : x.ty = ty)
    (left : c.Holds r.layout c₁) (right : b.Holds r.layout c₂)
    (covers : ∀ w, c.ty.applyMixed r.layout b.ty code c₁ c₂ = some w →
      ty.wrapInt r.layout (b.ty.wrapInt r.layout w) = ty.wrapInt r.layout w)
    (ran : r.eval env n = .ok (some z)) : r'.eval env n' = .ok (some z) := by
  have small := Ty.isSmall_of_isWord word
  cases merges with
  | @merge _ q _ _ _ v₁ v₂ w v associative outer level _ first second result mixed range =>
    have binary' := isBinary_of_isAssociative associative
    obtain rfl : v₁ = c₁ := Option.some.inj (first.symm.trans left.value)
    obtain rfl : v₂ = c₂ := Option.some.inj (second.symm.trans right.value)
    obtain rfl : q = b.ty :=
      mixed (Ty.kind_of_isSmall small).2.2.1 (Ty.kind_of_isSmall small).2.2.2.1
    -- both trees are deep enough for the values of their leaves
    obtain ⟨f, bound⟩ : ∃ f, r.nodes.size = f + 1 + 1 := by
      have deep := h.size_le
      simp only [size_two] at deep
      have inside : x.size ≤ r.nodes.size - 1 := by omega
      obtain ⟨f, below⟩ := exists_succ_of_size_le inside
      exact ⟨f, by omega⟩
    obtain ⟨g, bound', deep'⟩ : ∃ g, r'.nodes.size = g + 1 ∧ x.size ≤ g + 1 := by
      have deep := h'.size_le
      obtain ⟨g, bound⟩ := exists_succ_of_size_le deep
      rw [size_two] at deep
      exact ⟨g, bound, by omega⟩
    obtain rfl : b.ty.wrapInt r.layout w = v := by
      rw [Ty.normalizeInt_of_isInt _ (Ty.isInt_of_isSmall right.small)] at range
      exact Except.ok.inj range
    obtain ⟨y₀, y₁, split, outerValue⟩ := h.evalWithin_two env binary small small right.small
    obtain ⟨x₀, x₁, split', innerValue⟩ :=
      (split.front [_]).evalWithin_two env binary' small (own ▸ small) left.small
    obtain ⟨x₀', x₁', again, newValue⟩ :=
      h'.evalWithin_two env binary' small (own ▸ small) right.small
    rw [Region.eval, Region.depthBound, bound, outerValue] at ran
    obtain ⟨p, w₂, y, inside, literal, hy, rfl⟩ := ran
    rw [innerValue] at inside
    obtain ⟨vx, w₁, px, known, literal', hx, same⟩ := inside
    obtain rfl : p = ty.wrapInt r.layout px := Value.int.inj same
    obtain rfl : w₂ = v₂ := right.evalWithin (split.front [_, _]) literal
    obtain rfl : w₁ = v₁ := left.evalWithin (split'.front [_, _]) literal'
    obtain ⟨u, hu, agree⟩ := Ty.wrapInt_merge word ⟨associative, outer, level⟩ hx hy result
      (covers w result)
    rw [Region.eval, Region.depthBound, bound', newValue]
    refine ⟨vx, b.ty.wrapInt r.layout w, u, ?_, ?_, layout ▸ hu, by rw [layout, agree]⟩
    · exact (split'.front [_]).evalWithin (again.front [_]) layout deep' known
    · have same := Ty.wrapInt_wrapInt (l := r.layout) right.small w
      have made := (again.front [_, _]).evalWithin_lit env g
        (Tree.intLit?_lit (Ty.isInt_of_isSmall right.small)) right.small
      rwa [layout, show (lit (.int (b.ty.wrapInt r.layout w)) b.ty).ty = b.ty from rfl, same]
        at made

/-- Merging the constants of `(x inner c) outer b`, whatever their types, gives `x inner v`. It
keeps the value if the type of `b` loses nothing of the merged constant that the operators hold, as
one that is as wide as theirs does. -/
theorem mergeConstants_preserves_value (s : Setting) (env : Env) {outer inner : Op}
    {attrs' : Attrs} {x : Tree} {c₁ c₂ : Word} {out : NodeId}
    (tree : Draws r.core [.tree (two outer ty attrs (two inner ty attrs' x c) b) n up] ns)
    (distinct : ns.Nodup) (formed : (two outer ty attrs (two inner ty attrs' x c) b).Formed)
    (binary : outer.isBinary = true) (word : ty.isWord = true) (own : x.ty = ty)
    (left : c.Holds r.layout c₁) (right : b.Holds r.layout c₂)
    (covers : b.ty.isWord = true ∧ ty.byteSize r.layout ≤ b.ty.byteSize r.layout ∨
      ∀ w, c.ty.applyMixed r.layout b.ty outer c₁ c₂ = some w → b.ty.wrapInt r.layout w = w)
    (run : (mergeConstants s n).run r = .ok (some out, r')) :
    (∃ v up' ms, Draws r'.core [.tree (two inner ty attrs' x (lit (.int v) b.ty)) out up'] ms) ∧
      ∀ z, r.eval env n = .ok (some z) → r'.eval env out = .ok (some z) := by
  have bound : ∀ m ∈ ns, m.index < r.nodes.size := by
    intro m mem
    obtain ⟨d, found⟩ := tree.live (by simp [Piece.Whole]) mem
    exact Region.lt_size_of_core found
  have start := Forest.start tree distinct bound
  have merged := (meets_iff.mp (start.mergeConstants (s := s) formed binary)).1 _ _ run
  obtain ⟨u, ⟨_, _, same, merges⟩, regrown⟩ := merged
  obtain ⟨up', _, stands⟩ := regrown.placed
  simp only [List.cons.injEq, and_true] at same
  obtain ⟨rfl, rfl⟩ := same
  constructor
  · obtain ⟨v, rfl⟩ := merges.shape word
    obtain ⟨ms, drawn, _⟩ := stands
    exact ⟨v, up', ms, drawn⟩
  · intro z ran
    refine merges.eval start stands stands.layout binary word own left right
      (fun w merged => ?_) ran
    rcases covers with ⟨word', wide⟩ | inside
    · exact Ty.wrapInt_of_wide word word' wide
    · rw [inside w merged]

theorem Draws.leaf {g : NodeId → Option Node}
    (found : g n = some ((Node.fresh code ty attrs []).under up)) :
    Draws g [.tree (Tree.leaf code ty attrs) n up] [n] :=
  .tree found (show Fits [] [] from rfl) .nil .nil

theorem Draws.two {g : NodeId → Option Node} {x y : NodeId} {ms : List NodeId}
    (found : g n = some ((Node.fresh code ty attrs [[x], [y]]).under up))
    (left : Draws g [.tree a x (some n)] ns) (right : Draws g [.tree b y (some n)] ms) :
    Draws g [.tree (Tree.two code ty attrs a b) n up] (n :: (ns ++ ms)) := by
  have fits : Fits [[a], [b]] [[x], [y]] := rfl
  simpa using Draws.tree found fits (left.append right) .nil

/-- `($1 + c₁) + c₂` in 32 bits, of literals with these types. -/
def Region.twoConstants (t₁ t₂ : Ty) (c₁ c₂ : Word) : Region :=
  { Region.empty ⟨8⟩ with
    nodes := #[
      some (.fresh .add (.scalar .i32) .none [[⟨1⟩], [⟨4⟩]]),
      some { Node.fresh .add (.scalar .i32) .none [[⟨2⟩], [⟨3⟩]] with parent := some ⟨0⟩ },
      some { Node.fresh .pr (.scalar .i32) (.ofRegister 1) [] with parent := some ⟨1⟩ },
      some { Node.fresh .const t₁ (.ofLiteral (.int c₁)) [] with parent := some ⟨1⟩ },
      some { Node.fresh .const t₂ (.ofLiteral (.int c₂)) [] with parent := some ⟨0⟩ }] }

/-- The literal `100` of 8 bits and one of 32 bits make one of 32 bits. -/
theorem mergeConstants_wide : ∃ out r', (mergeConstants ⟨.standard, true⟩ ⟨0⟩).run
      (.twoConstants (.scalar .i8) (.scalar .i32) 100 100) = .ok (some out, r') ∧
    r'.eval (Env.empty.setReg 1 (.int 5)) out = .ok (some (.int 205)) := by
  have tree : Draws (Region.twoConstants (.scalar .i8) (.scalar .i32) 100 100).core
      [.tree (two .add (.scalar .i32) .none (two .add (.scalar .i32) .none
        (leaf .pr (.scalar .i32) (.ofRegister 1)) (lit (.int 100) (.scalar .i8)))
        (lit (.int 100) (.scalar .i32))) ⟨0⟩ none] [⟨0⟩, ⟨1⟩, ⟨2⟩, ⟨3⟩, ⟨4⟩] :=
    .two rfl (.two rfl (.leaf rfl) (.leaf rfl)) (.leaf rfl)
  have ends : Meets (mergeConstants ⟨.standard, true⟩ ⟨0⟩)
      (.twoConstants (.scalar .i8) (.scalar .i32) 100 100) (fun _ => False) fun out _ =>
        out.isSome = true := by
    decide +kernel
  obtain ⟨out, r', run⟩ := ends.returns
  obtain ⟨out, rfl⟩ := Option.isSome_iff_exists.mp ((meets_iff.mp ends).1 out r' run)
  have keeps := mergeConstants_preserves_value ⟨.standard, true⟩ (Env.empty.setReg 1 (.int 5)) tree
    (by decide) (.ofTwo rfl (.ofTwo rfl (.ofLeaf rfl) (.ofLeaf rfl)) (.ofLeaf rfl)) rfl rfl rfl
    ⟨rfl, rfl, by decide⟩ ⟨rfl, rfl, by decide⟩ (.inl ⟨rfl, le_rfl⟩) run
  exact ⟨out, r', run, keeps.2 _ rfl⟩

/-- With the types exchanged, `200` becomes `-56`. -/
theorem mergeConstants_narrow :
    (Region.twoConstants (.scalar .i32) (.scalar .i8) 100 100).eval
      (Env.empty.setReg 1 (.int 0)) ⟨0⟩ = .ok (some (.int 200)) ∧
    ∃ out r', (mergeConstants ⟨.standard, true⟩ ⟨0⟩).run
      (.twoConstants (.scalar .i32) (.scalar .i8) 100 100) = .ok (some out, r') ∧
    r'.eval (Env.empty.setReg 1 (.int 0)) out = .ok (some (.int (-56))) := by
  refine ⟨rfl, _, _, rfl, rfl⟩

end Peephole
