import Peephole.Proofs.Expressions

/-!
# Lists of stores

What a list of stores does to registers and locations, and when another list may stand in
its place: stores keep their targets and store terms that refine what was stored, and a
store may be left out if its target holds the value anyway. Where every register and
location is accessed at one type, such a list ends with the same values, read at these
types (`run_of_refined`).
-/

namespace Peephole

/-- A register, or a variable at an offset. -/
inductive Cell
  | reg (q : Nat)
  | var (x : VarId) (ofst : Int)
  deriving DecidableEq

/-- The term that reads a cell. -/
def Cell.read (t : Ty) : Cell → Term
  | .reg q => .reg t q
  | .var x ofst => .load t x ofst

namespace Env

def get (env : Env) : Cell → Option Value
  | .reg q => env.reg q
  | .var x ofst => env.var x ofst

def set (env : Env) : Cell → Value → Env
  | .reg q, v => env.setReg q v
  | .var x ofst, v => env.setVar x ofst v

/-- A cell as it is read at a type. -/
def readAt (l : Layout) (env : Env) (c : Cell) (t : Ty) : Except Fault (Option Value) :=
  (env.get c).mapM (·.normalize l t)

/-- Two environments hold the same values, each cell being read at its type. -/
def Agree (l : Layout) (cellTy : Cell → Ty) (env env' : Env) : Prop :=
  ∀ c, env'.readAt l c (cellTy c) = env.readAt l c (cellTy c)

variable {l : Layout} {env env' : Env} {c c' : Cell} {t : Ty} {v : Value} {cellTy : Cell → Ty}

theorem get_set : (env.set c v).get c' = if c' = c then some v else env.get c' := by
  cases c <;> cases c' <;> simp [set, Env.get, setReg, setVar]

theorem Agree.set (h : Agree l cellTy env env') : Agree l cellTy (env.set c v) (env'.set c v) := by
  intro c'
  unfold readAt
  rw [get_set, get_set]
  split
  · rfl
  · exact h c'

/-- Reading a cell at a word type. -/
theorem readAt_word (word : t.isWord = true) :
    env.readAt l c t = .ok (((c.read t).value l env).map .int) := by
  have small := Ty.isSmall_of_isWord word
  have same : (c.read t).value l env = (env.get c).map (·.word l t) := by cases c <;> rfl
  rw [same, readAt]
  cases env.get c with
  | none => rfl
  | some x => simp [Option.mapM, Value.normalize_small small, Functor.map, Except.map]

end Env

namespace Term

variable {l : Layout} {env env' : Env} {e : Term} {cellTy : Cell → Ty}

/-- The cells that a term has its value from, with the types it reads them at. -/
def accesses : Term → List (Cell × Ty)
  | .lit .. | .through .. => []
  | .reg t q => [(.reg q, t)]
  | .load t x ofst => [(.var x ofst, t)]
  | .indirect t x base ofst => [(.var x (base + ofst), t)]
  | .unary _ _ a => a.accesses
  | .binary _ _ a b => a.accesses ++ b.accesses
  | .select _ p a b => p.accesses ++ (a.accesses ++ b.accesses)

theorem value_read {c : Cell} {t : Ty} (word : t.isWord = true) (own : cellTy c = t)
    (agree : env.Agree l cellTy env') :
    (c.read t).value l env' = (c.read t).value l env := by
  have same := agree c
  rw [own, Env.readAt_word word, Env.readAt_word word, Except.ok.injEq] at same
  exact Option.map_injective (fun _ _ => Value.int.inj) same

/-- The value of a term depends on the values of the cells it reads. -/
theorem value_congr (typed : e.typed l = true) (own : ∀ p ∈ e.accesses, cellTy p.1 = p.2)
    (agree : env.Agree l cellTy env') : e.value l env' = e.value l env := by
  induction e with
  | lit t v => rfl
  | reg t q => exact value_read (c := .reg q) typed (own _ List.mem_cons_self) agree
  | load t x ofst => exact value_read (c := .var x ofst) typed (own _ List.mem_cons_self) agree
  | indirect t x base ofst =>
    simp only [Term.typed, Bool.and_eq_true] at typed
    exact value_read (c := .var x (base + ofst)) typed.1 (own _ List.mem_cons_self) agree
  | through t q ofst => rfl
  | unary op t a ih =>
    rw [value, value, ih (typed_unary.mp typed).1 own]
  | binary op t a b ihA ihB =>
    obtain ⟨typedA, typedB, _⟩ := typed_binary.mp typed
    simp only [accesses, List.mem_append] at own
    rw [value, value, ihA typedA fun p mem => own p (.inl mem),
      ihB typedB fun p mem => own p (.inr mem)]
  | select t p a b ihP ihA ihB =>
    obtain ⟨typedP, typedA, typedB, _⟩ := typed_select.mp typed
    simp only [accesses, List.mem_append] at own
    rw [value, value, ihP typedP fun p mem => own p (.inl mem),
      ihA typedA fun p mem => own p (.inr (.inl mem)),
      ihB typedB fun p mem => own p (.inr (.inr mem))]

end Term

/-- A store of a term into a register, into a variable, or through the address of a variable
plus `base`. -/
inductive Store
  | reg (ty : Ty) (q : Nat) (e : Term)
  | var (ty : Ty) (x : VarId) (ofst : Int) (e : Term)
  | indirect (ty : Ty) (x : VarId) (base ofst : Int) (e : Term)

namespace Store

variable {l : Layout} {σ σ' : Store} {stores stores' stores'' : List Store} {env env' : Env}
  {cellTy : Cell → Ty}

def ty : Store → Ty
  | .reg ty _ _ | .var ty _ _ _ | .indirect ty _ _ _ _ => ty

def target : Store → Cell
  | .reg _ q _ => .reg q
  | .var _ x ofst _ => .var x ofst
  | .indirect _ x base ofst _ => .var x (base + ofst)

def rhs : Store → Term
  | .reg _ _ e | .var _ _ _ e | .indirect _ _ _ _ e => e

def accesses (σ : Store) : List (Cell × Ty) := (σ.target, σ.ty) :: σ.rhs.accesses

/-- The stored term is uniform of the type of the store, and the offsets of an indirect store
add up. -/
structure Uniform (l : Layout) (σ : Store) : Prop where
  rhs : σ.rhs.Uniform l σ.ty
  offsets : ∀ ty x base ofst e, σ = .indirect ty x base ofst e → fitsOffset (base + ofst) = true

/-- A stored value is brought into the type of the store. -/
def run (l : Layout) (env : Env) (σ : Store) : Option Env :=
  (σ.rhs.value l env).map fun v => env.set σ.target (.int (σ.ty.wrapInt l v))

def runAll (l : Layout) (env : Env) : List Store → Option Env
  | [] => some env
  | σ :: rest => (σ.run l env).bind fun env' => runAll l env' rest

/-- What may stand in place of a store: another one into its target, or nothing where the
target holds the value anyway. -/
def Becomes (l : Layout) (σ : Store) : Option Store → Prop
  | some σ' => σ'.target = σ.target ∧ σ'.ty = σ.ty ∧ σ.rhs.Refines l σ'.rhs
  | none => σ.rhs.Refines l (σ.target.read σ.ty)

/-- What may stand in place of a list of stores. -/
inductive Refined (l : Layout) : List Store → List Store → Prop
  | nil : Refined l [] []
  | keep {σ σ' : Store} {rest rest' : List Store} : σ.Becomes l (some σ') →
    Refined l rest rest' → Refined l (σ :: rest) (σ' :: rest')
  | drop {σ : Store} {rest rest' : List Store} : σ.Becomes l none →
    Refined l rest rest' → Refined l (σ :: rest) rest'

theorem Becomes.refl (typed : σ.rhs.typed l = true) : σ.Becomes l (some σ) :=
  ⟨rfl, rfl, .refl typed⟩

theorem Becomes.trans {out : Option Store} (first : σ.Becomes l (some σ'))
    (second : σ'.Becomes l out) : σ.Becomes l out := by
  obtain ⟨target, ty, refines⟩ := first
  cases out with
  | some σ'' => exact ⟨second.1.trans target, second.2.1.trans ty, refines.trans second.2.2⟩
  | none =>
    have holds : σ'.rhs.Refines l (σ'.target.read σ'.ty) := second
    rw [target, ty] at holds
    exact refines.trans holds

theorem Refined.refl (typed : ∀ σ ∈ stores, σ.rhs.typed l = true) : Refined l stores stores := by
  induction stores with
  | nil => exact .nil
  | cons σ rest ih =>
    exact .keep (.refl (typed σ List.mem_cons_self)) (ih fun σ' mem =>
      typed σ' (List.mem_cons_of_mem σ mem))

theorem Refined.trans (first : Refined l stores stores') (second : Refined l stores' stores'') :
    Refined l stores stores'' := by
  induction first generalizing stores'' with
  | nil => exact second
  | keep becomes _ ih =>
    cases second with
    | keep again rest => exact .keep (becomes.trans again) (ih rest)
    | drop again rest => exact .drop (becomes.trans again) (ih rest)
  | drop becomes _ ih => exact .drop becomes (ih second)

/-- One store, run where cells read the same. -/
theorem run_of_becomes {out : Option Store} (becomes : σ.Becomes l out)
    (uniform : σ.Uniform l) (own : ∀ p ∈ σ.accesses, cellTy p.1 = p.2)
    (agree : env.Agree l cellTy env') {after : Env} (ran : σ.run l env = some after) :
    ∃ after', runAll l env' out.toList = some after' ∧ after.Agree l cellTy after' := by
  obtain ⟨word, ty, typed⟩ := uniform.rhs.typed
  obtain ⟨v, value, rfl⟩ := Option.map_eq_some_iff.mp ran
  have ownTarget : cellTy σ.target = σ.ty := own _ List.mem_cons_self
  have value' : σ.rhs.value l env' = some v := by
    rw [Term.value_congr typed (fun p mem => own p (List.mem_cons_of_mem _ mem)) agree, value]
  cases out with
  | some σ' =>
    obtain ⟨target, ty', refines⟩ := becomes
    refine ⟨env'.set σ.target (.int (σ.ty.wrapInt l v)), ?_, agree.set⟩
    simp [runAll, run, refines.value env' v value', target, ty']
  | none =>
    refine ⟨env', rfl, fun c => ?_⟩
    by_cases same : c = σ.target
    · have holds : (σ.target.read σ.ty).value l env' = some v :=
        (show σ.rhs.Refines l (σ.target.read σ.ty) from becomes).value env' v value'
      have range := Term.value_range typed value
      rw [ty] at range
      have small := Ty.isSmall_of_isWord word
      rw [same, ownTarget, Env.readAt_word word, holds, Env.readAt, Env.get_set, if_pos rfl]
      simp [Option.mapM, Value.normalize_small small, Functor.map, Except.map, Value.word, range]
    · rw [Env.readAt, Env.readAt, Env.get_set, if_neg same]
      exact agree c

theorem runAll_append {rest : List Store} : runAll l env (stores ++ rest) =
    (runAll l env stores).bind fun env' => runAll l env' rest := by
  induction stores generalizing env with
  | nil => rfl
  | cons σ stores ih =>
    simp only [List.cons_append, runAll, Option.bind_assoc]
    exact congrArg _ (funext fun _ => ih)

/-- A refined list ends with the same values where cells are accessed at one type. -/
theorem run_of_refined (refined : Refined l stores stores')
    (uniform : ∀ σ ∈ stores, σ.Uniform l)
    (own : ∀ σ ∈ stores, ∀ p ∈ σ.accesses, cellTy p.1 = p.2)
    (agree : env.Agree l cellTy env') {after : Env} (ran : runAll l env stores = some after) :
    ∃ after', runAll l env' stores' = some after' ∧ after.Agree l cellTy after' := by
  have step {σ : Store} {out : Option Store} {rest rest' : List Store}
      (becomes : σ.Becomes l out) (uniform : ∀ σ' ∈ σ :: rest, σ'.Uniform l)
      (own : ∀ σ' ∈ σ :: rest, ∀ p ∈ σ'.accesses, cellTy p.1 = p.2)
      (ih : ∀ {env env' : Env}, env.Agree l cellTy env' → runAll l env rest = some after →
        ∃ after', runAll l env' rest' = some after' ∧ after.Agree l cellTy after')
      {env env' : Env} (agree : env.Agree l cellTy env')
      (ran : runAll l env (σ :: rest) = some after) :
      ∃ after', runAll l env' (out.toList ++ rest') = some after' ∧
        after.Agree l cellTy after' := by
    obtain ⟨mid, first, ran⟩ := Option.bind_eq_some_iff.mp ran
    obtain ⟨mid', first', agree'⟩ := run_of_becomes becomes (uniform σ List.mem_cons_self)
      (own σ List.mem_cons_self) agree first
    rw [runAll_append, first']
    exact ih agree' ran
  induction refined generalizing env env' with
  | nil => exact ⟨env', rfl, Option.some.inj ran ▸ agree⟩
  | keep becomes _ ih | drop becomes _ ih =>
    refine step becomes uniform own (fun agree ran => ih ?_ ?_ agree ran) agree ran
    · exact fun σ mem => uniform σ (List.mem_cons_of_mem _ mem)
    · exact fun σ mem => own σ (List.mem_cons_of_mem _ mem)

end Store

end Peephole
