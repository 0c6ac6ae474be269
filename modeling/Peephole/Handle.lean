/-!
# Handles

A region numbers its entities by kind, in the order they appear, and never
gives a number twice. A `Handle` is such a number together with its kind, so a
block number cannot be used where a node number is meant. `HandleSet` keeps
handles in ascending order: two sets with the same members are equal
(`HandleSet.ext`), and listing a set needs no sorting.
-/

namespace Peephole

/-- The kinds of entity a region numbers. -/
inductive Kind
  | node
  | block
  | var
  | location
  | locationSet
  | record
  | ssa
  | label
  deriving DecidableEq, Repr

/-- The letters in front of a handle's number when it is written out. -/
def Kind.tag : Kind → String
  | .node => "ir"
  | .block => "bb"
  | .var => "var"
  | .location => "md"
  | .locationSet => "mds"
  | .record => "du"
  | .ssa => "ssa"
  | .label => "L"

/-- The number of an entity. Nothing says that the entity exists. -/
structure Handle (k : Kind) where
  index : Nat
  deriving DecidableEq, Repr

abbrev NodeId := Handle .node
abbrev BlockId := Handle .block
abbrev VarId := Handle .var
abbrev LocationId := Handle .location
abbrev LocationSetId := Handle .locationSet
abbrev RecordId := Handle .record
abbrev SsaId := Handle .ssa
abbrev LabelId := Handle .label

namespace Handle

variable {k : Kind}

def text (h : Handle k) : String := k.tag ++ h.index.repr

theorem index_inj {a b : Handle k} : a.index = b.index ↔ a = b := by
  cases a
  cases b
  simp

end Handle

/-- Add a handle to an ascending list, unless it is there. -/
def insertAscending {k : Kind} (h : Handle k) : List (Handle k) → List (Handle k)
  | [] => [h]
  | x :: xs =>
    if h.index < x.index then h :: x :: xs
    else if h.index = x.index then x :: xs
    else x :: insertAscending h xs

theorem mem_insertAscending {k : Kind} {h x : Handle k} {xs : List (Handle k)} :
    x ∈ insertAscending h xs ↔ x = h ∨ x ∈ xs := by
  induction xs with
  | nil => simp [insertAscending]
  | cons y ys ih =>
    simp only [insertAscending]
    split
    · simp
    · split
      · rename_i same
        have eq : h = y := Handle.index_inj.mp same
        subst eq
        simp
      · simp only [List.mem_cons, ih]
        exact or_left_comm

theorem insertAscending_ascending {k : Kind} {h : Handle k} {xs : List (Handle k)}
    (asc : xs.Pairwise (·.index < ·.index)) :
    (insertAscending h xs).Pairwise (·.index < ·.index) := by
  induction xs with
  | nil => simp [insertAscending]
  | cons y ys ih =>
    obtain ⟨above, rest⟩ := List.pairwise_cons.mp asc
    simp only [insertAscending]
    split
    · rename_i below
      refine List.pairwise_cons.mpr ⟨fun z hz => ?_, asc⟩
      rcases List.mem_cons.mp hz with rfl | hz
      · exact below
      · exact Nat.lt_trans below (above z hz)
    · split
      · exact asc
      · refine List.pairwise_cons.mpr ⟨fun z hz => ?_, ih rest⟩
        rcases mem_insertAscending.mp hz with rfl | hz
        · omega
        · exact above z hz

/-- A finite set of handles, listed in ascending order. -/
structure HandleSet (k : Kind) where
  toList : List (Handle k)
  ascending : toList.Pairwise (·.index < ·.index)
  deriving DecidableEq

namespace HandleSet

variable {k : Kind}

def empty : HandleSet k := ⟨[], .nil⟩

instance : Inhabited (HandleSet k) := ⟨empty⟩

instance : Membership (Handle k) (HandleSet k) := ⟨fun s h => h ∈ s.toList⟩

instance (h : Handle k) (s : HandleSet k) : Decidable (h ∈ s) :=
  inferInstanceAs (Decidable (h ∈ s.toList))

def size (s : HandleSet k) : Nat := s.toList.length

def isEmpty (s : HandleSet k) : Bool := s.toList.isEmpty

def insert (s : HandleSet k) (h : Handle k) : HandleSet k :=
  ⟨insertAscending h s.toList, insertAscending_ascending s.ascending⟩

def erase (s : HandleSet k) (h : Handle k) : HandleSet k :=
  ⟨s.toList.filter (· != h), s.ascending.filter _⟩

def ofList (hs : List (Handle k)) : HandleSet k := hs.foldl insert empty

theorem mem_toList {h : Handle k} {s : HandleSet k} : h ∈ s.toList ↔ h ∈ s := Iff.rfl

@[simp] theorem not_mem_empty (h : Handle k) : h ∉ (empty : HandleSet k) :=
  List.not_mem_nil

@[simp] theorem mem_insert {h x : Handle k} {s : HandleSet k} :
    x ∈ s.insert h ↔ x = h ∨ x ∈ s := mem_insertAscending

@[simp] theorem mem_erase {h x : Handle k} {s : HandleSet k} :
    x ∈ s.erase h ↔ x ∈ s ∧ x ≠ h := by
  simp [erase, ← mem_toList]

theorem mem_foldl_insert {x : Handle k} {hs : List (Handle k)} {s : HandleSet k} :
    x ∈ hs.foldl insert s ↔ x ∈ s ∨ x ∈ hs := by
  induction hs generalizing s with
  | nil => simp
  | cons h hs ih =>
    simp only [List.foldl_cons, ih, mem_insert, List.mem_cons]
    rw [or_comm (a := x = h), or_assoc]

@[simp] theorem mem_ofList {x : Handle k} {hs : List (Handle k)} :
    x ∈ ofList hs ↔ x ∈ hs := by
  simp [ofList, mem_foldl_insert]

/-- Ascending lists with the same members are the same list. -/
theorem ascending_eq {xs ys : List (Handle k)} (hx : xs.Pairwise (·.index < ·.index))
    (hy : ys.Pairwise (·.index < ·.index)) (same : ∀ h, h ∈ xs ↔ h ∈ ys) : xs = ys := by
  induction xs generalizing ys with
  | nil =>
    cases ys with
    | nil => rfl
    | cons y ys => exact absurd ((same y).mpr (List.mem_cons_self ..)) List.not_mem_nil
  | cons x xs ih =>
    cases ys with
    | nil => exact absurd ((same x).mp (List.mem_cons_self ..)) List.not_mem_nil
    | cons y ys =>
      obtain ⟨aboveX, restX⟩ := List.pairwise_cons.mp hx
      obtain ⟨aboveY, restY⟩ := List.pairwise_cons.mp hy
      have head : x = y := by
        have inY := (same x).mp (List.mem_cons_self ..)
        have inX := (same y).mpr (List.mem_cons_self ..)
        rcases List.mem_cons.mp inY with eq | inY
        · exact eq
        · rcases List.mem_cons.mp inX with eq | inX
          · exact eq.symm
          · have := aboveY x inY
            have := aboveX y inX
            omega
      subst head
      congr 1
      apply ih restX restY
      intro h
      constructor
      · intro hm
        rcases List.mem_cons.mp ((same h).mp (List.mem_cons_of_mem _ hm)) with rfl | hm'
        · exact absurd (aboveX h hm) (Nat.lt_irrefl _)
        · exact hm'
      · intro hm
        rcases List.mem_cons.mp ((same h).mpr (List.mem_cons_of_mem _ hm)) with rfl | hm'
        · exact absurd (aboveY h hm) (Nat.lt_irrefl _)
        · exact hm'

@[ext] theorem ext {s t : HandleSet k} (same : ∀ h, h ∈ s ↔ h ∈ t) : s = t := by
  cases s
  cases t
  congr
  exact ascending_eq (by assumption) (by assumption) same

end HandleSet

end Peephole
