import Peephole.Proofs.Shape
import Peephole.Proofs.Invariant

/-!
# Trees taken apart

A tree is what refinement reads of an expression. While a rule moves kids around, nodes of a
tree stand apart: a piece is a whole tree, or a stub, which is one node whose kids are other
pieces or gone, or the place of a node that was dropped. Below the root of a piece every parent
link is right; the link of the root is part of the piece.
-/

namespace Peephole

open Edit

/-- An expression, as it stands in a region. -/
inductive Tree
  | node (code : Op) (ty : Ty) (attrs : Attrs) (slots : List (List Tree))

namespace Tree

def code : Tree → Op
  | node code _ _ _ => code

def ty : Tree → Ty
  | node _ ty _ _ => ty

def attrs : Tree → Attrs
  | node _ _ attrs _ => attrs

def slots : Tree → List (List Tree)
  | node _ _ _ slots => slots

/-- The node on top, without its kids. -/
def top (t : Tree) : Node := .fresh t.code t.ty t.attrs []

mutual

def size : Tree → Nat
  | node _ _ _ slots => 1 + sizeSlots slots

def sizeSlots : List (List Tree) → Nat
  | [] => 0
  | ts :: slots => sizeList ts + sizeSlots slots

def sizeList : List Tree → Nat
  | [] => 0
  | t :: ts => t.size + sizeList ts

end

theorem sizeList_append (ts us : List Tree) :
    sizeList (ts ++ us) = sizeList ts + sizeList us := by
  induction ts with
  | nil => simp [sizeList]
  | cons t ts ih => simp [sizeList, ih, Nat.add_assoc]

theorem sizeSlots_eq (slots : List (List Tree)) : sizeSlots slots = sizeList slots.flatten := by
  induction slots with
  | nil => rfl
  | cons ts slots ih => rw [sizeSlots, List.flatten_cons, sizeList_append, ih]

theorem size_node {code : Op} {ty : Ty} {attrs : Attrs} {slots : List (List Tree)} :
    (node code ty attrs slots).size = 1 + sizeList slots.flatten := by
  rw [size, sizeSlots_eq]

theorem size_le_sizeList {t : Tree} {ts : List Tree} (mem : t ∈ ts) : t.size ≤ sizeList ts := by
  induction ts with
  | nil => simp at mem
  | cons u ts ih =>
    rw [sizeList]
    rcases List.mem_cons.mp mem with rfl | mem
    · omega
    · have := ih mem
      omega

/-- Every operation has its slots, and no operand slot of an expression holds more than one
tree. -/
inductive Formed : Tree → Prop
  | node {code : Op} {ty : Ty} {attrs : Attrs} {slots : List (List Tree)}
      (laid : code.isExpr = true → slots.length = code.numSlots ∧
        ∀ i ts, slots[i]? = some ts → code.slotName i = "" → ts.length ≤ 1)
      (kids : ∀ t ∈ slots.flatten, Formed t) : Formed (node code ty attrs slots)

theorem nil_or_singleton {us : List Tree} (few : us.length ≤ 1) : us = [] ∨ ∃ a, us = [a] := by
  cases us with
  | nil => exact .inl rfl
  | cons a us =>
    obtain rfl := List.length_eq_zero_iff.mp (Nat.le_zero.mp (Nat.le_of_succ_le_succ few))
    exact .inr ⟨a, rfl⟩

/-- One of two operands is missing. -/
def Gap (slots : List (List Tree)) : Prop := (∃ us, slots = [[], us]) ∨ ∃ a, slots = [[a], []]

namespace Formed

variable {code : Op} {ty : Ty} {attrs : Attrs} {slots slots' : List (List Tree)} {t a b c : Tree}

theorem kid (h : Formed (.node code ty attrs slots)) : ∀ t ∈ slots.flatten, Formed t := by
  cases h with
  | node _ kids => exact kids

theorem leaf_slots (h : Formed (.node code ty attrs slots)) (expr : code.isExpr = true)
    (arity : code.numSlots = 0) : slots = [] := by
  cases h with
  | node laid _ => exact List.length_eq_zero_iff.mp ((laid expr).1.trans arity)

theorem slot_le (h : Formed (.node code ty attrs slots)) (expr : code.isExpr = true)
    {i : Nat} {us : List Tree} (found : slots[i]? = some us) (operand : code.slotName i = "") :
    us.length ≤ 1 := by
  cases h with
  | node laid _ => exact (laid expr).2 i us found operand

theorem single_slot (h : Formed (.node code ty attrs slots)) (expr : code.isExpr = true)
    (arity : code.numSlots = 1) (operand : code.slotName 0 = "") :
    ∃ us, slots = [us] ∧ us.length ≤ 1 := by
  cases h with
  | node laid _ =>
    obtain ⟨length, each⟩ := laid expr
    obtain ⟨us, rfl⟩ := List.length_eq_one_iff.mp (length.trans arity)
    exact ⟨us, rfl, each 0 us rfl operand⟩

theorem one_slot (h : Formed (.node code ty attrs slots)) (expr : code.isExpr = true)
    (arity : code.numSlots = 1) (operand : code.slotName 0 = "") :
    (∃ a, slots = [[a]]) ∨ slots = [[]] := by
  obtain ⟨us, rfl, few⟩ := h.single_slot expr arity operand
  rcases nil_or_singleton few with rfl | ⟨a, rfl⟩
  · exact .inr rfl
  · exact .inl ⟨a, rfl⟩

theorem two_slots (h : Formed (.node code ty attrs slots)) (binary : code.isBinary = true) :
    ∃ us vs, slots = [us, vs] ∧ us.length ≤ 1 ∧ vs.length ≤ 1 := by
  have known : code.isExpr = true ∧ code.numSlots = 2 ∧ ∀ i, code.slotName i = "" := by
    cases code <;> first | exact ⟨rfl, rfl, fun _ => rfl⟩ | simp [Op.isBinary] at binary
  cases h with
  | node laid _ =>
    obtain ⟨length, each⟩ := laid known.1
    obtain ⟨us, vs, rfl⟩ := List.length_eq_two.mp (length.trans known.2.1)
    exact ⟨us, vs, rfl, each 0 us rfl (known.2.2 0), each 1 vs rfl (known.2.2 1)⟩

theorem select_slots (h : Formed (.node .select ty attrs slots)) :
    ∃ us vs ws, slots = [us, vs, ws] ∧ us.length ≤ 1 ∧ vs.length ≤ 1 ∧ ws.length ≤ 1 := by
  cases h with
  | node laid _ =>
    obtain ⟨length, each⟩ := laid rfl
    obtain ⟨us, vs, ws, rfl⟩ := List.length_eq_three.mp length
    exact ⟨us, vs, ws, rfl, each 0 us rfl rfl, each 1 vs rfl rfl, each 2 ws rfl rfl⟩

/-- A binary node has both operands, or one is missing. -/
theorem binary_slots (h : Formed (.node code ty attrs slots)) (binary : code.isBinary = true) :
    (∃ a b, slots = [[a], [b]]) ∨ Gap slots := by
  obtain ⟨us, vs, rfl, few, few'⟩ := h.two_slots binary
  rcases nil_or_singleton few with rfl | ⟨a, rfl⟩
  · exact .inr (.inl ⟨vs, rfl⟩)
  · rcases nil_or_singleton few' with rfl | ⟨b, rfl⟩
    · exact .inr (.inr ⟨a, rfl⟩)
    · exact .inl ⟨a, b, rfl⟩

/-- Other kids in as many places. -/
theorem relaid (h : Formed (.node code ty attrs slots))
    (same : slots.map List.length = slots'.map List.length) (kids : ∀ t ∈ slots'.flatten, Formed t)
    (ty' : Ty) (attrs' : Attrs) : Formed (.node code ty' attrs' slots') := by
  cases h with
  | node laid _ =>
    refine .node (fun expr => ?_) kids
    obtain ⟨length, each⟩ := laid expr
    have lengths : slots.length = slots'.length := by simpa using congrArg List.length same
    refine ⟨lengths.symm.trans length, fun i ts found operand => ?_⟩
    have at_i := congrArg (·[i]?) same
    simp only [List.getElem?_map, found, Option.map_some] at at_i
    obtain ⟨us, here, count⟩ := Option.map_eq_some_iff.mp at_i
    exact count ▸ each i us here operand

end Formed

end Tree

/-- A tree or a node that stands apart from its kids, and the parent of its root; or an empty
place. -/
inductive Piece
  | tree (t : Tree) (n : NodeId) (up : Option NodeId)
  | stub (d : Node) (n : NodeId) (up : Option NodeId)
  | gone (n : NodeId)

def Piece.root : Piece → NodeId
  | tree _ n _ | stub _ n _ | gone n => n

@[simp] theorem Piece.root_tree {t : Tree} {n : NodeId} {up : Option NodeId} :
    (Piece.tree t n up).root = n := rfl

@[simp] theorem Piece.root_stub {d : Node} {n : NodeId} {up : Option NodeId} :
    (Piece.stub d n up).root = n := rfl

@[simp] theorem Piece.root_gone {n : NodeId} : (Piece.gone n).root = n := rfl

def Piece.Whole (p : Piece) : Prop := ∃ t n up, p = .tree t n up

/-- Trees and their roots, paired, all with one parent. -/
def planted (ts : List Tree) (ks : List NodeId) (up : Option NodeId) : List Piece :=
  List.zipWith (fun t k => .tree t k up) ts ks

variable {up : Option NodeId}

theorem planted_append {ts us : List Tree} {ks ls : List NodeId} (same : ts.length = ks.length) :
    planted (ts ++ us) (ks ++ ls) up = planted ts ks up ++ planted us ls up :=
  List.zipWith_append same

theorem root_planted {ts : List Tree} {ks : List NodeId} (same : ts.length = ks.length) :
    (planted ts ks up).map Piece.root = ks := by
  unfold planted
  rw [List.map_zipWith]
  induction ts generalizing ks with
  | nil => simp [List.length_eq_zero_iff.mp same.symm]
  | cons t ts ih =>
    cases ks with
    | nil => simp at same
    | cons k ks =>
      rw [List.zipWith_cons_cons, ih (by simpa using same)]
      rfl

theorem planted_whole {ts : List Tree} {ks : List NodeId} : ∀ p ∈ planted ts ks up, p.Whole := by
  intro p mem
  obtain ⟨i, inside, rfl⟩ := List.getElem_of_mem mem
  exact ⟨_, _, _, List.getElem_zipWith⟩

/-- The trees `ts` stand at the nodes `ks`, under whatever parents. -/
inductive Scattered : List Tree → List NodeId → List Piece → Prop
  | nil : Scattered [] [] []
  | cons {t : Tree} {k : NodeId} {up : Option NodeId} {ts : List Tree} {ks : List NodeId}
      {ps : List Piece} (rest : Scattered ts ks ps) :
        Scattered (t :: ts) (k :: ks) (.tree t k up :: ps)

namespace Scattered

variable {ts : List Tree} {ks : List NodeId} {ps : List Piece}

theorem length (h : Scattered ts ks ps) : ts.length = ks.length := by
  induction h with
  | nil => rfl
  | cons _ ih => simp [ih]

theorem of_planted (same : ts.length = ks.length) : Scattered ts ks (planted ts ks up) := by
  induction ts generalizing ks with
  | nil =>
    obtain rfl := List.length_eq_zero_iff.mp same.symm
    exact .nil
  | cons t ts ih =>
    cases ks with
    | nil => simp at same
    | cons k ks => exact .cons (ih (by simpa using same))

end Scattered

/-- Kids are laid out as the trees they are to be. -/
def Fits (slots : List (List Tree)) (ids : List (List NodeId)) : Prop :=
  slots.map List.length = ids.map List.length

namespace Fits

variable {slots : List (List Tree)} {ids : List (List NodeId)} {i : Nat} {us : List Tree}
  {ks : List NodeId}

theorem length_flatten (h : Fits slots ids) : slots.flatten.length = ids.flatten.length := by
  rw [List.length_flatten, List.length_flatten, h]

theorem length (h : Fits slots ids) : slots.length = ids.length := by
  simpa using congrArg List.length h

theorem set (h : Fits slots ids) (same : us.length = ks.length) :
    Fits (slots.set i us) (ids.set i ks) := by
  unfold Fits at *
  rw [List.map_set, List.map_set, h, same]

theorem get (h : Fits slots ids) (found : slots[i]? = some us) :
    ∃ ks, ids[i]? = some ks ∧ us.length = ks.length := by
  have at_i := congrArg (·[i]?) h
  simp only [List.getElem?_map, found, Option.map_some] at at_i
  cases here : ids[i]? with
  | none => simp [here] at at_i
  | some ks => exact ⟨ks, rfl, by simpa [here] using at_i⟩

/-- The kids of one slot stand before the others. -/
theorem planted_perm (h : Fits slots ids) (found : slots[i]? = some us) (slot : ids[i]? = some ks) :
    (planted slots.flatten ids.flatten up).Perm
      (planted us ks up ++ planted (slots.set i []).flatten (ids.set i []).flatten up) := by
  induction slots generalizing ids i with
  | nil => simp at found
  | cons ts slots ih =>
    cases ids with
    | nil => simp at slot
    | cons js ids =>
      have heads : ts.length = js.length ∧ Fits slots ids := by simpa [Fits] using h
      cases i with
      | zero =>
        obtain rfl : ts = us := by simpa using found
        obtain rfl : js = ks := by simpa using slot
        rw [List.flatten_cons, List.flatten_cons, planted_append heads.1]
        exact .refl _
      | succ i =>
        have rest := ih (i := i) heads.2 (by simpa using found) (by simpa using slot)
        rw [List.flatten_cons, List.flatten_cons, planted_append heads.1, List.set_cons_succ,
          List.set_cons_succ, List.flatten_cons, List.flatten_cons, planted_append heads.1]
        refine (rest.append_left _).trans ?_
        rw [← List.append_assoc, ← List.append_assoc]
        exact List.perm_append_comm.append_right _

end Fits

/-- Pieces whose nodes `g` gives, and the list of all these nodes. -/
inductive Draws (g : NodeId → Option Node) : List Piece → List NodeId → Prop
  | nil : Draws g [] []
  | tree {code : Op} {ty : Ty} {attrs : Attrs} {slots : List (List Tree)}
      {ids : List (List NodeId)} {n : NodeId} {up : Option NodeId} {ps : List Piece}
      {below ns : List NodeId} (found : g n = some ((Node.fresh code ty attrs ids).under up))
      (fits : Fits slots ids) (kids : Draws g (planted slots.flatten ids.flatten (some n)) below)
      (rest : Draws g ps ns) :
      Draws g (.tree (.node code ty attrs slots) n up :: ps) (n :: (below ++ ns))
  | stub {d : Node} {n : NodeId} {up : Option NodeId} {ps : List Piece} {ns : List NodeId}
      (found : g n = some (d.under up)) (rest : Draws g ps ns) :
      Draws g (.stub d n up :: ps) (n :: ns)
  | gone {n : NodeId} {ps : List Piece} {ns : List NodeId} (empty : g n = none)
      (rest : Draws g ps ns) : Draws g (.gone n :: ps) (n :: ns)

namespace Draws

variable {g g' : NodeId → Option Node} {p : Piece} {ps qs : List Piece} {ns ms : List NodeId}
  {m n : NodeId}

theorem congr (h : Draws g ps ns) (agree : ∀ m ∈ ns, g' m = g m) : Draws g' ps ns := by
  induction h with
  | nil => exact .nil
  | @tree code ty attrs slots ids n up ps below ns found fits _ _ ihKids ihRest =>
    refine .tree ((agree n List.mem_cons_self).trans found) fits (ihKids fun m mem => ?_)
      (ihRest fun m mem => ?_)
    · exact agree m (List.mem_cons_of_mem _ (List.mem_append_left _ mem))
    · exact agree m (List.mem_cons_of_mem _ (List.mem_append_right _ mem))
  | @stub d n up ps ns found _ ihRest =>
    refine .stub ((agree n List.mem_cons_self).trans found) (ihRest fun m mem => ?_)
    exact agree m (List.mem_cons_of_mem _ mem)
  | @gone n ps ns empty _ ihRest =>
    refine .gone ((agree n List.mem_cons_self).trans empty) (ihRest fun m mem => ?_)
    exact agree m (List.mem_cons_of_mem _ mem)

theorem append (h : Draws g ps ns) (h' : Draws g qs ms) : Draws g (ps ++ qs) (ns ++ ms) := by
  induction h with
  | nil => exact h'
  | tree found fits kids _ _ ihRest => simpa using Draws.tree found fits kids ihRest
  | stub found _ ihRest => exact .stub found ihRest
  | gone empty _ ihRest => exact .gone empty ihRest

theorem split (h : Draws g (ps ++ qs) ns) :
    ∃ fst snd, ns = fst ++ snd ∧ Draws g ps fst ∧ Draws g qs snd := by
  induction ps generalizing ns with
  | nil => exact ⟨[], ns, rfl, .nil, h⟩
  | cons p ps ih =>
    cases h with
    | tree found fits kids rest =>
      obtain ⟨fst, snd, rfl, left, right⟩ := ih rest
      exact ⟨_, snd, by simp, .tree found fits kids left, right⟩
    | stub found rest =>
      obtain ⟨fst, snd, rfl, left, right⟩ := ih rest
      exact ⟨_, snd, rfl, .stub found left, right⟩
    | gone empty rest =>
      obtain ⟨fst, snd, rfl, left, right⟩ := ih rest
      exact ⟨_, snd, rfl, .gone empty left, right⟩

theorem cons_iff : Draws g (p :: ps) ns ↔
    ∃ fst snd, ns = fst ++ snd ∧ Draws g [p] fst ∧ Draws g ps snd := by
  constructor
  · intro h
    exact Draws.split (show Draws g ([p] ++ ps) ns from h)
  · rintro ⟨fst, snd, rfl, here, rest⟩
    exact here.append rest

theorem perm (h : Draws g ps ns) (same : ps.Perm qs) : ∃ ms, Draws g qs ms ∧ ms.Perm ns := by
  induction same generalizing ns with
  | nil => exact ⟨ns, h, .refl _⟩
  | cons p _ ih =>
    obtain ⟨fst, snd, rfl, here, rest⟩ := cons_iff.mp h
    obtain ⟨ms, drawn, same⟩ := ih rest
    exact ⟨fst ++ ms, here.append drawn, same.append_left fst⟩
  | swap p q ps =>
    obtain ⟨fst, _, rfl, first, others⟩ := cons_iff.mp h
    obtain ⟨snd, rest, rfl, second, others⟩ := cons_iff.mp others
    refine ⟨snd ++ (fst ++ rest), second.append (first.append others), ?_⟩
    rw [← List.append_assoc, ← List.append_assoc]
    exact List.perm_append_comm.append_right rest
  | trans _ _ ih₁ ih₂ =>
    obtain ⟨ms, drawn, same₁⟩ := ih₁ h
    obtain ⟨ls, drawn, same₂⟩ := ih₂ drawn
    exact ⟨ls, drawn, same₂.trans same₁⟩

theorem unique (h : Draws g ps ns) (h' : Draws g ps ms) : ns = ms := by
  induction h generalizing ms with
  | nil => cases h'; rfl
  | tree found _ _ _ ihKids ihRest =>
    cases h' with
    | tree found' _ kids' rest' =>
      rw [found, Option.some.injEq] at found'
      obtain rfl := congrArg Node.slots found'
      rw [ihKids kids', ihRest rest']
  | stub _ _ ihRest =>
    cases h' with
    | stub _ rest' => rw [ihRest rest']
  | gone _ _ ihRest =>
    cases h' with
    | gone _ rest' => rw [ihRest rest']

theorem live (h : Draws g ps ns) (whole : ∀ p ∈ ps, p.Whole) (mem : m ∈ ns) :
    ∃ d, g m = some d := by
  induction h with
  | nil => simp at mem
  | tree found _ _ _ ihKids ihRest =>
    rcases List.mem_cons.mp mem with rfl | mem
    · exact ⟨_, found⟩
    · rcases List.mem_append.mp mem with mem | mem
      · exact ihKids planted_whole mem
      · exact ihRest (fun p mem => whole p (List.mem_cons_of_mem _ mem)) mem
  | stub | gone =>
    obtain ⟨t, n, up, same⟩ := whole _ List.mem_cons_self
    contradiction

theorem root_mem (h : Draws g ps ns) : ∀ p ∈ ps, p.root ∈ ns := by
  induction h with
  | nil => simp
  | tree _ _ _ _ _ ihRest =>
    rw [List.forall_mem_cons]
    refine ⟨List.mem_cons_self, fun p mem => ?_⟩
    exact List.mem_cons_of_mem _ (List.mem_append_right _ (ihRest p mem))
  | stub _ _ ihRest | gone _ _ ihRest =>
    rw [List.forall_mem_cons]
    exact ⟨List.mem_cons_self, fun p mem => List.mem_cons_of_mem _ (ihRest p mem)⟩

theorem stub_found {d : Node} (h : Draws g ps ns) (mem : Piece.stub d n up ∈ ps) :
    g n = some (d.under up) := by
  obtain ⟨before, after, rfl⟩ := List.append_of_mem mem
  obtain ⟨_, _, _, _, here⟩ := h.split
  cases here with
  | stub found _ => exact found

theorem tree_found {t : Tree} (h : Draws g ps ns) (mem : Piece.tree t n up ∈ ps) :
    ∃ ids, g n = some ((Node.fresh t.code t.ty t.attrs ids).under up) ∧ Fits t.slots ids := by
  obtain ⟨before, after, rfl⟩ := List.append_of_mem mem
  obtain ⟨_, _, _, _, here⟩ := h.split
  cases here with
  | tree found fits _ _ => exact ⟨_, found, fits⟩

/-- The whole trees among the pieces are a grove. -/
theorem grove {kidsAt : NodeId → Option (List NodeId)} (h : Draws g ps ns)
    (kids : ∀ n d, g n = some d → kidsAt n = some d.kids)
    (whole : ∀ p ∈ ps, p.Whole) : Grove kidsAt (ps.map Piece.root) ns := by
  induction h with
  | nil => exact .nil
  | @tree code ty attrs slots ids n up ps below ns found fits drawn _ ihKids ihRest =>
    have lower := ihKids planted_whole
    rw [root_planted fits.length_flatten] at lower
    exact .cons (kids n _ found) lower (ihRest fun p mem => whole p (List.mem_cons_of_mem _ mem))
  | stub | gone =>
    obtain ⟨t, n, up, same⟩ := whole _ List.mem_cons_self
    contradiction

theorem size_planted (h : Draws g ps ns) {ts : List Tree} {ks : List NodeId}
    (same : ps = planted ts ks up) (lengths : ts.length = ks.length) :
    Tree.sizeList ts = ns.length := by
  induction h generalizing ts ks up with
  | nil =>
    cases ts with
    | nil => rfl
    | cons t ts =>
      cases ks with
      | nil => simp at lengths
      | cons k ks => simp [planted] at same
  | @tree code ty attrs slots ids n up ps below ns found fits kids _ ihKids ihRest =>
    cases ts with
    | nil => simp [planted] at same
    | cons t ts =>
      cases ks with
      | nil => simp at lengths
      | cons k ks =>
        rw [planted, List.zipWith_cons_cons, List.cons.injEq, Piece.tree.injEq] at same
        obtain ⟨⟨rfl, rfl, _⟩, rfl⟩ := same
        rw [Tree.sizeList, Tree.size_node, ihKids rfl fits.length_flatten,
          ihRest rfl (by simpa using lengths), List.length_cons, List.length_append]
        omega
  | stub | gone =>
    cases ts with
    | nil => simp [planted] at same
    | cons t ts =>
      cases ks with
      | nil => simp at lengths
      | cons k ks => simp [planted] at same

end Draws

end Peephole
