import Peephole.Proofs.Spelling

/-!
# Places in a term

A place is a term with one operand left out. Another tree put there changes nothing
around it.
-/

namespace Peephole

open Edit

inductive Place
  | operand (op : Op) (ty : Ty)
  | left (op : Op) (ty : Ty) (b : Term)
  | right (op : Op) (ty : Ty) (a : Term)
  | pred (ty : Ty) (a b : Term)
  | yes (ty : Ty) (p b : Term)
  | no (ty : Ty) (p a : Term)

namespace Place

/-- The term with `a` at the place. -/
def fill : Place → Term → Term
  | .operand op ty, a => .unary op ty a
  | .left op ty b, a => .binary op ty a b
  | .right op ty a', a => .binary op ty a' a
  | .pred ty a' b, a => .select ty a a' b
  | .yes ty p b, a => .select ty p a b
  | .no ty p a', a => .select ty p a' a

/-- The number of the slot at the place. -/
def slot : Place → Nat
  | .operand .. | .left .. | .pred .. => 0
  | .right .. | .yes .. => 1
  | .no .. => 2

def code : Place → Op
  | .operand op _ | .left op _ _ | .right op _ _ => op
  | .pred .. | .yes .. | .no .. => .select

def ty : Place → Ty
  | .operand _ ty | .left _ ty _ | .right _ ty _ | .pred ty _ _ | .yes ty _ _ | .no ty _ _ => ty

/-- The trees before and after the place spell what they should, and `slots` gives the
slots of the node above, by the node at the place. -/
def Around (g : NodeId → Option Node) :
    Place → (before after : List NodeId) → (slots : NodeId → List (List NodeId)) → Prop
  | .operand _ _, before, after, slots => before = [] ∧ after = [] ∧ slots = fun k => [[k]]
  | .left _ _ b, before, after, slots => before = [] ∧
    ∃ k₁, Spells g b k₁ after ∧ slots = fun k => [[k], [k₁]]
  | .right _ _ a, before, after, slots => after = [] ∧
    ∃ k₀, Spells g a k₀ before ∧ slots = fun k => [[k₀], [k]]
  | .pred _ a b, before, after, slots => before = [] ∧
    ∃ k₁ n₁ k₂ n₂, after = n₁ ++ n₂ ∧ Spells g a k₁ n₁ ∧ Spells g b k₂ n₂ ∧
      slots = fun k => [[k], [k₁], [k₂]]
  | .yes _ p b, before, after, slots =>
    ∃ k₀ k₂, Spells g p k₀ before ∧ Spells g b k₂ after ∧ slots = fun k => [[k₀], [k], [k₂]]
  | .no _ p a, before, after, slots => after = [] ∧
    ∃ k₀ n₀ k₁ n₁, before = n₀ ++ n₁ ∧ Spells g p k₀ n₀ ∧ Spells g a k₁ n₁ ∧
      slots = fun k => [[k₀], [k₁], [k]]

theorem typed_of_fill {l : Layout} {place : Place} {a : Term}
    (h : (place.fill a).typed l = true) : a.typed l = true := by
  cases place with
  | operand op ty => exact (Term.typed_unary.mp h).1
  | left op ty b => exact (Term.typed_binary.mp h).1
  | right op ty a' => exact (Term.typed_binary.mp h).2.1
  | pred ty a' b => exact (Term.typed_select.mp h).1
  | yes ty p b => exact (Term.typed_select.mp h).2.1
  | no ty p a' => exact (Term.typed_select.mp h).2.2.1

variable {g g' : NodeId → Option Node} {place : Place} {a : Term} {n k k' m : NodeId}
  {ns before below after : List NodeId} {slots : NodeId → List (List NodeId)}

theorem spells_fill : Spells g (place.fill a) n ns ↔ ns.Nodup ∧
    ∃ k before below after attrs slots, ns = n :: (before ++ (below ++ after)) ∧
      place.Around g before after slots ∧
      g n = some (.fresh place.code place.ty attrs (slots k)) ∧ Spells g a k below := by
  cases place with
  | operand op ty =>
    constructor
    · rintro ⟨distinct, k, below, attrs, rfl, shape, spelled⟩
      exact ⟨distinct, k, [], below, [], attrs, _, by simp, ⟨rfl, rfl, rfl⟩, shape, spelled⟩
    · rintro ⟨distinct, k, _, below, _, attrs, _, rfl, ⟨rfl, rfl, rfl⟩, shape, spelled⟩
      exact ⟨distinct, k, below, attrs, by simp, shape, spelled⟩
  | left op ty b =>
    constructor
    · rintro ⟨distinct, k₀, below₀, k₁, below₁, attrs, rfl, shape, left, right⟩
      exact ⟨distinct, k₀, [], below₀, below₁, attrs, _, by simp, ⟨rfl, k₁, right, rfl⟩,
        shape, left⟩
    · rintro ⟨distinct, k₀, _, below₀, below₁, attrs, _, rfl, ⟨rfl, k₁, right, rfl⟩, shape, left⟩
      exact ⟨distinct, k₀, below₀, k₁, below₁, attrs, by simp, shape, left, right⟩
  | right op ty a' =>
    constructor
    · rintro ⟨distinct, k₀, below₀, k₁, below₁, attrs, rfl, shape, left, right⟩
      exact ⟨distinct, k₁, below₀, below₁, [], attrs, _, by simp, ⟨rfl, k₀, left, rfl⟩,
        shape, right⟩
    · rintro ⟨distinct, k₁, below₀, below₁, _, attrs, _, rfl, ⟨rfl, k₀, left, rfl⟩, shape, right⟩
      exact ⟨distinct, k₀, below₀, k₁, below₁, attrs, by simp, shape, left, right⟩
  | pred ty a' b =>
    constructor
    · rintro ⟨distinct, k₀, n₀, k₁, n₁, k₂, n₂, attrs, rfl, shape, pred, yes, no⟩
      exact ⟨distinct, k₀, [], n₀, n₁ ++ n₂, attrs, _, by simp,
        ⟨rfl, k₁, n₁, k₂, n₂, rfl, yes, no, rfl⟩, shape, pred⟩
    · rintro ⟨distinct, k₀, _, n₀, _, attrs, _, rfl,
        ⟨rfl, k₁, n₁, k₂, n₂, rfl, yes, no, rfl⟩, shape, pred⟩
      exact ⟨distinct, k₀, n₀, k₁, n₁, k₂, n₂, attrs, by simp, shape, pred, yes, no⟩
  | yes ty p b =>
    constructor
    · rintro ⟨distinct, k₀, n₀, k₁, n₁, k₂, n₂, attrs, rfl, shape, pred, yes, no⟩
      exact ⟨distinct, k₁, n₀, n₁, n₂, attrs, _, by simp, ⟨k₀, k₂, pred, no, rfl⟩, shape, yes⟩
    · rintro ⟨distinct, k₁, n₀, n₁, n₂, attrs, _, rfl, ⟨k₀, k₂, pred, no, rfl⟩, shape, yes⟩
      exact ⟨distinct, k₀, n₀, k₁, n₁, k₂, n₂, attrs, by simp, shape, pred, yes, no⟩
  | no ty p a' =>
    constructor
    · rintro ⟨distinct, k₀, n₀, k₁, n₁, k₂, n₂, attrs, rfl, shape, pred, yes, no⟩
      exact ⟨distinct, k₂, n₀ ++ n₁, n₂, [], attrs, _, by simp,
        ⟨rfl, k₀, n₀, k₁, n₁, rfl, pred, yes, rfl⟩, shape, no⟩
    · rintro ⟨distinct, k₂, _, n₂, _, attrs, _, rfl,
        ⟨rfl, k₀, n₀, k₁, n₁, rfl, pred, yes, rfl⟩, shape, no⟩
      exact ⟨distinct, k₀, n₀, k₁, n₁, k₂, n₂, attrs, by simp, shape, pred, yes, no⟩

theorem Around.congr (h : place.Around g before after slots)
    (agree : ∀ m, m ∈ before ∨ m ∈ after → g' m = g m) : place.Around g' before after slots := by
  cases place with
  | operand op ty => exact h
  | left op ty b =>
    obtain ⟨first, k₁, right, rest⟩ := h
    exact ⟨first, k₁, right.congr fun m mem => agree m (.inr mem), rest⟩
  | right op ty a' =>
    obtain ⟨last, k₀, left, rest⟩ := h
    exact ⟨last, k₀, left.congr fun m mem => agree m (.inl mem), rest⟩
  | pred ty a' b =>
    obtain ⟨first, k₁, n₁, k₂, n₂, rfl, yes, no, rest⟩ := h
    refine ⟨first, k₁, n₁, k₂, n₂, rfl, yes.congr fun m mem => ?_, no.congr fun m mem => ?_, rest⟩
    · exact agree m (.inr (List.mem_append_left _ mem))
    · exact agree m (.inr (List.mem_append_right _ mem))
  | yes ty p b =>
    obtain ⟨k₀, k₂, pred, no, rest⟩ := h
    exact ⟨k₀, k₂, pred.congr fun m mem => agree m (.inl mem),
      no.congr fun m mem => agree m (.inr mem), rest⟩
  | no ty p a' =>
    obtain ⟨last, k₀, n₀, k₁, n₁, rfl, pred, yes, rest⟩ := h
    refine ⟨last, k₀, n₀, k₁, n₁, rfl, pred.congr fun m mem => ?_, yes.congr fun m mem => ?_, rest⟩
    · exact agree m (.inl (List.mem_append_left _ mem))
    · exact agree m (.inl (List.mem_append_right _ mem))

theorem Around.slot_eq (h : place.Around g before after slots) (k : NodeId) :
    (slots k)[place.slot]? = some [k] := by
  cases place with
  | operand op ty => obtain ⟨_, _, rfl⟩ := h; rfl
  | left op ty b => obtain ⟨_, _, _, rfl⟩ := h; rfl
  | right op ty a' => obtain ⟨_, _, _, rfl⟩ := h; rfl
  | pred ty a' b => obtain ⟨_, _, _, _, _, _, _, _, rfl⟩ := h; rfl
  | yes ty p b => obtain ⟨_, _, _, _, rfl⟩ := h; rfl
  | no ty p a' => obtain ⟨_, _, _, _, _, _, _, _, rfl⟩ := h; rfl

theorem Around.set_slot (h : place.Around g before after slots) (k k' : NodeId) :
    (slots k).set place.slot [k'] = slots k' := by
  cases place with
  | operand op ty => obtain ⟨_, _, rfl⟩ := h; rfl
  | left op ty b => obtain ⟨_, _, _, rfl⟩ := h; rfl
  | right op ty a' => obtain ⟨_, _, _, rfl⟩ := h; rfl
  | pred ty a' b => obtain ⟨_, _, _, _, _, _, _, _, rfl⟩ := h; rfl
  | yes ty p b => obtain ⟨_, _, _, _, rfl⟩ := h; rfl
  | no ty p a' => obtain ⟨_, _, _, _, _, _, _, _, rfl⟩ := h; rfl

/-- The trees around a place, and those that stand in it, as the kids of the node above. -/
theorem Around.grove {ks : List NodeId} (h : place.Around g before after slots) (k : NodeId)
    (inner : Grove (fun m => (g m).map Node.kids) ks below) :
    Grove (fun m => (g m).map Node.kids) ((slots k).set place.slot ks).flatten
      (before ++ (below ++ after)) := by
  cases place with
  | operand op ty =>
    obtain ⟨rfl, rfl, rfl⟩ := h
    simpa [slot] using inner
  | left op ty b =>
    obtain ⟨rfl, k₁, right, rfl⟩ := h
    exact inner.append right.grove
  | right op ty a' =>
    obtain ⟨rfl, k₀, left, rfl⟩ := h
    simpa [slot] using left.grove.append inner
  | pred ty a' b =>
    obtain ⟨rfl, k₁, n₁, k₂, n₂, rfl, yes, no, rfl⟩ := h
    exact inner.append (yes.grove.append no.grove)
  | yes ty p b =>
    obtain ⟨k₀, k₂, pred, no, rfl⟩ := h
    exact pred.grove.append (inner.append no.grove)
  | no ty p a' =>
    obtain ⟨rfl, k₀, n₀, k₁, n₁, rfl, pred, yes, rfl⟩ := h
    simpa [slot] using pred.grove.append (yes.grove.append inner)

theorem Around.plain (h : place.Around g before after slots) : Plain g (before ++ after) := by
  have both {xs ys : List NodeId} (hx : Plain g xs) (hy : Plain g ys) : Plain g (xs ++ ys) := by
    intro m mem
    rcases List.mem_append.mp mem with mem | mem
    · exact hx m mem
    · exact hy m mem
  cases place with
  | operand op ty => obtain ⟨rfl, rfl, rfl⟩ := h; simp [Plain]
  | left op ty b => obtain ⟨rfl, k₁, right, rfl⟩ := h; exact right.plain
  | right op ty a' =>
    obtain ⟨rfl, k₀, left, rfl⟩ := h
    rw [List.append_nil]
    exact left.plain
  | pred ty a' b =>
    obtain ⟨rfl, k₁, n₁, k₂, n₂, rfl, yes, no, rfl⟩ := h
    rw [List.nil_append]
    exact both yes.plain no.plain
  | yes ty p b =>
    obtain ⟨k₀, k₂, pred, no, rfl⟩ := h
    exact both pred.plain no.plain
  | no ty p a' =>
    obtain ⟨rfl, k₀, n₀, k₁, n₁, rfl, pred, yes, rfl⟩ := h
    rw [List.append_nil]
    exact both pred.plain yes.plain

end Place

end Peephole
