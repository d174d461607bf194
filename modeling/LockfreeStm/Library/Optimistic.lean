/-
  File:      LockfreeStm/Library/Optimistic.lean
  Subject:   OPTIMISTIC TRANSACTIONS OVER A MEMORY OF TYPED VARS.

  A program gets vars, tracked or not, sets vars, stores directly into objects nobody else can see,
  and retires objects. `run` executes it on a view of the memory and records what it did. An
  attempt that ran on an old memory validates against what has been written since if that touches
  nothing it got or set; its commit puts what it wrote on top of the memory of that moment.

  * **`run_congr`**: an attempt depends on the vars it has read only.
  * **`commit_eq_rerun`**: if every read is tracked, what a validated attempt commits is what the
    program does when it runs afresh on the newer memory.
  * `Ends`: what a program leaves wherever it starts, by its last operations.
  * `run_operations`: a run that is not over has more operations to come.
  * `run_storesAsSets`: a program may set the vars it stores into; it only validates less often then.
  * `first`, `Marks`: the beginning of a program, and what it can leave behind when it is given up there.
  * `Within`: which vars a program may touch, judged from its text (`Within.run`). Such a program
    tracks what it reads, so it runs the same way after another search (`Within.run_moved`).
-/
import Mathlib.Logic.Function.Basic
import Mathlib.Order.Nat
import Mathlib.Tactic.Simps.Basic

namespace LockfreeStm

namespace Optimistic

/-! ## 1. Programs -/

/-- A memory holds a value of its own type for every var. -/
abbrev Memory {Var : Type} (Content : Var → Type) := ∀ v, Content v

/-- A program: it ends with a result or stops with an error. -/
inductive Program {Var : Type} (Content : Var → Type) (Obj ε α : Type) where
  | ret (a : α)
  | halt (e : ε)
  | get (v : Var) (next : Content v → Program Content Obj ε α)
  | untrackedGet (v : Var) (next : Content v → Program Content Obj ε α)
  | set (v : Var) (x : Content v) (next : Program Content Obj ε α)
  /-- a plain store into an object that only this transaction can reach -/
  | unsafeSet (v : Var) (x : Content v) (next : Program Content Obj ε α)
  /-- hand the object over for destruction after the commit -/
  | retire (o : Obj) (next : Program Content Obj ε α)

section Programs

variable {Var : Type} {Content : Var → Type} {Obj ε α β : Type}

/-- Run one program after the other. -/
def Program.bind :
    Program Content Obj ε α → (α → Program Content Obj ε β) → Program Content Obj ε β
  | .ret a, f => f a
  | .halt e, _ => .halt e
  | .get v next, f => .get v fun x => (next x).bind f
  | .untrackedGet v next, f => .untrackedGet v fun x => (next x).bind f
  | .set v x next, f => .set v x (next.bind f)
  | .unsafeSet v x next, f => .unsafeSet v x (next.bind f)
  | .retire o next, f => .retire o (next.bind f)

instance : Monad (Program Content Obj ε) where
  pure := .ret
  bind := .bind

/-- A program made of three parts may be read either way. -/
theorem Program.bind_assoc {γ : Type} (p : Program Content Obj ε α)
    (f : α → Program Content Obj ε β) (g : β → Program Content Obj ε γ) :
    p >>= f >>= g = p >>= fun a => f a >>= g := by
  show (p.bind f).bind g = p.bind fun a => (f a).bind g
  induction p with
  | ret a => rfl
  | halt e => rfl
  | get v next ih => exact congrArg (Program.get v) (funext ih)
  | untrackedGet v next ih => exact congrArg (Program.untrackedGet v) (funext ih)
  | set v x next ih => exact congrArg (Program.set v x) ih
  | unsafeSet v x next ih => exact congrArg (Program.unsafeSet v x) ih
  | retire o next ih => exact congrArg (Program.retire o) ih

/-! ## 2. Attempts -/

/-- An attempt at a transaction: the memory as it sees it, and the record of what it did. -/
structure Attempt {Var : Type} (Content : Var → Type) (Obj : Type) where
  view : Memory Content
  /-- tracked -/
  reads : List Var
  untracked : List Var
  writes : List Var
  /-- stored into with `unsafeSet` -/
  privates : List Var
  retired : List Obj

namespace Attempt

/-- An attempt that begins on the memory. -/
@[simps -fullyApplied] def start (m : Memory Content) : Attempt Content Obj := ⟨m, [], [], [], [], []⟩

variable (s : Attempt Content Obj)

@[simps -fullyApplied] def read (v : Var) : Attempt Content Obj := { s with reads := v :: s.reads }

@[simps -fullyApplied] def readAll (vs : List Var) : Attempt Content Obj := { s with reads := vs ++ s.reads }

@[simp] theorem readAll_readAll (rs rs' : List Var) :
    (s.readAll rs).readAll rs' = s.readAll (rs' ++ rs) := by
  simp [readAll]

@[simps -fullyApplied] def readUntracked (v : Var) : Attempt Content Obj :=
  { s with untracked := v :: s.untracked }

@[simps -fullyApplied] def readAllUntracked (vs : List Var) : Attempt Content Obj :=
  { s with untracked := vs ++ s.untracked }

@[simp] theorem readAllUntracked_readAllUntracked (us us' : List Var) :
    (s.readAllUntracked us).readAllUntracked us' = s.readAllUntracked (us' ++ us) := by
  simp [readAllUntracked]

@[simps -fullyApplied] def retire (o : Obj) : Attempt Content Obj := { s with retired := o :: s.retired }

variable [DecidableEq Var]

@[simps -fullyApplied] def write (v : Var) (x : Content v) : Attempt Content Obj :=
  { s with view := Function.update s.view v x, writes := v :: s.writes }

@[simps -fullyApplied] def store (v : Var) (x : Content v) : Attempt Content Obj :=
  { s with view := Function.update s.view v x, privates := v :: s.privates }

/-- What another transaction has written since touches nothing this attempt got or set. -/
def Validates (written : List Var) : Prop := ∀ v ∈ written, v ∉ s.reads ∧ v ∉ s.writes

instance (written : List Var) : Decidable (s.Validates written) :=
  inferInstanceAs (Decidable (∀ v ∈ written, v ∉ s.reads ∧ v ∉ s.writes))

/-- How many operations the attempt has performed. -/
def operations : Nat :=
  s.reads.length + s.untracked.length + s.writes.length + s.privates.length + s.retired.length

/-- The memory after the attempt has committed on `m`. -/
def commit (m : Memory Content) : Memory Content :=
  fun v => if v ∈ s.writes ∨ v ∈ s.privates then s.view v else m v

end Attempt

/-! ## 3. Runs -/

variable [DecidableEq Var]

/-- Run the program in the attempt. -/
def Program.run : Program Content Obj ε α → Attempt Content Obj →
    Except ε (α × Attempt Content Obj)
  | .ret a, s => .ok (a, s)
  | .halt e, _ => .error e
  | .get v next, s => (next (s.view v)).run (s.read v)
  | .untrackedGet v next, s => (next (s.view v)).run (s.readUntracked v)
  | .set v x next, s => next.run (s.write v x)
  | .unsafeSet v x next, s => next.run (s.store v x)
  | .retire o next, s => next.run (s.retire o)

/-- The run of a program on a memory. -/
def Program.attempt (p : Program Content Obj ε α) (m : Memory Content) :
    Except ε (α × Attempt Content Obj) :=
  p.run (.start m)

/-- The attempt in which the program on `m` ends. -/
def Program.outcome (p : Program Content Obj ε α) (m : Memory Content) : Attempt Content Obj :=
  match p.attempt m with
  | .ok r => r.2
  | .error _ => .start m

/-- Given enough fuel, the program on `m` ends with `a`, in the attempt `s`. -/
def Returns (p : Nat → Program Content Obj ε α) (m : Memory Content) (a : α)
    (s : Attempt Content Obj) : Prop :=
  ∃ enough, ∀ fuel, enough ≤ fuel → (p fuel).attempt m = .ok (a, s)

/-- With enough fuel there is one outcome. -/
theorem Returns.unique {p : Nat → Program Content Obj ε α} {m : Memory Content} {a a' : α}
    {s s' : Attempt Content Obj} (h : Returns p m a s) (h' : Returns p m a' s') :
    a = a' ∧ s = s' := by
  obtain ⟨n, hn⟩ := h
  obtain ⟨n', hn'⟩ := h'
  have e := (hn (max n n') (Nat.le_max_left ..)).symm.trans (hn' (max n n') (Nat.le_max_right ..))
  exact ⟨congrArg Prod.fst (Except.ok.inj e), congrArg Prod.snd (Except.ok.inj e)⟩

namespace Program

variable {p : Program Content Obj ε α} {f : α → Program Content Obj ε β}
  {s s' : Attempt Content Obj} {a : α} {b : β}

@[simp] theorem run_pure : (pure a : Program Content Obj ε α).run s = .ok (a, s) := rfl

/-- The second program runs from where the first one ended. -/
theorem run_bind : (p >>= f).run s = (p.run s).bind fun r => (f r.1).run r.2 := by
  show (p.bind f).run s = _
  induction p generalizing s with
  | ret a => rfl
  | halt e => rfl
  | get v next ih => exact ih _
  | untrackedGet v next ih => exact ih _
  | set v x next ih => exact ih
  | unsafeSet v x next ih => exact ih
  | retire o next ih => exact ih

theorem run_bind_ok (h : p.run s = .ok (a, s')) : (p >>= f).run s = (f a).run s' := by
  rw [run_bind, h]
  rfl

/-- A run of two programs is a run of the first one and then a run of the second one. -/
theorem run_bind_eq_ok {r : β × Attempt Content Obj} (h : (p >>= f).run s = .ok r) :
    ∃ a s', p.run s = .ok (a, s') ∧ (f a).run s' = .ok r := by
  rw [run_bind] at h
  cases hp : p.run s with
  | error e =>
    rw [hp] at h
    cases h
  | ok q => exact ⟨q.1, q.2, rfl, by rwa [hp] at h⟩

/-- On the memory `m` the program only looks around: it ends with `a` and has read vars. -/
def Looks (p : Program Content Obj ε α) (m : Memory Content) (a : α) : Prop :=
  ∀ s : Attempt Content Obj, s.view = m → ∃ rs, p.run s = .ok (a, s.readAll rs)

namespace Looks

variable {m : Memory Content}

theorem pure (a : α) : (Pure.pure a : Program Content Obj ε α).Looks m a := fun _ _ => ⟨[], rfl⟩

theorem bind (h : p.Looks m a) (h' : (f a).Looks m b) : (p >>= f).Looks m b := by
  intro s hs
  obtain ⟨rs, hr⟩ := h s hs
  obtain ⟨rs', hr'⟩ := h' (s.readAll rs) hs
  refine ⟨rs' ++ rs, ?_⟩
  rw [run_bind_ok hr, hr', Attempt.readAll_readAll]

/-- What comes after a look. -/
theorem run_bind (h : p.Looks s.view a) :
    ∃ rs, ∀ {γ : Type} (g : α → Program Content Obj ε γ),
      (p >>= g).run s = (g a).run (s.readAll rs) := by
  obtain ⟨rs, hr⟩ := h s rfl
  exact ⟨rs, fun g => run_bind_ok hr⟩

end Looks

/-- From wherever the program runs, what it returns and the attempt it leaves satisfy `Q`. -/
def Ends (p : Program Content Obj ε α) (Q : α → Attempt Content Obj → Prop) : Prop :=
  ∀ s a s', p.run s = .ok (a, s') → Q a s'

namespace Ends

variable {q : Program Content Obj ε α} {Q : α → Attempt Content Obj → Prop} {R : β → Attempt Content Obj → Prop}

/-- What comes first does not matter. -/
theorem behind (p : Program Content Obj ε α) (hf : ∀ a, (f a).Ends R) : (p >>= f).Ends R := by
  intro s b s' h
  obtain ⟨a, s₁, -, h⟩ := run_bind_eq_ok h
  exact hf a s₁ b s' h

/-- Whichever branch is taken. -/
theorem ite {c : Prop} [Decidable c] (h : p.Ends Q) (h' : q.Ends Q) : (if c then p else q).Ends Q := by
  split
  · exact h
  · exact h'

end Ends

end Program

/-! ## 4. The record of a run -/

/-- What a run does to an attempt: its records grow, and nothing changes that they do not name. -/
structure Attempt.Grows (s s' : Attempt Content Obj) : Prop where
  reads : s.reads ⊆ s'.reads
  untracked : s.untracked ⊆ s'.untracked
  writes : s.writes ⊆ s'.writes
  privates : s.privates ⊆ s'.privates
  retired : s.retired ⊆ s'.retired
  frame : ∀ v, v ∉ s'.writes → v ∉ s'.privates → s'.view v = s.view v

namespace Attempt.Grows

variable {s s' s'' : Attempt Content Obj}

omit [DecidableEq Var] in
theorem refl (s : Attempt Content Obj) : Grows s s :=
  ⟨List.Subset.refl _, List.Subset.refl _, List.Subset.refl _, List.Subset.refl _,
    List.Subset.refl _, fun _ _ _ => rfl⟩

omit [DecidableEq Var] in
theorem trans (h : Grows s s') (h' : Grows s' s'') : Grows s s'' where
  reads := List.Subset.trans h.reads h'.reads
  untracked := List.Subset.trans h.untracked h'.untracked
  writes := List.Subset.trans h.writes h'.writes
  privates := List.Subset.trans h.privates h'.privates
  retired := List.Subset.trans h.retired h'.retired
  frame v hw hp :=
    (h'.frame v hw hp).trans
      (h.frame v (fun hv => hw (h'.writes hv)) (fun hv => hp (h'.privates hv)))

omit [DecidableEq Var] in
theorem read (s : Attempt Content Obj) (v : Var) : Grows s (s.read v) :=
  { refl s with reads := List.subset_cons_self v _ }

omit [DecidableEq Var] in
theorem readUntracked (s : Attempt Content Obj) (v : Var) : Grows s (s.readUntracked v) :=
  { refl s with untracked := List.subset_cons_self v _ }

omit [DecidableEq Var] in
theorem retire (s : Attempt Content Obj) (o : Obj) : Grows s (s.retire o) :=
  { refl s with retired := List.subset_cons_self o _ }

theorem write (s : Attempt Content Obj) (v : Var) (x : Content v) : Grows s (s.write v x) :=
  { refl s with
    writes := List.subset_cons_self v _
    frame := fun w hw _ =>
      Function.update_of_ne (fun h : w = v => hw (h ▸ List.mem_cons_self)) _ _ }

theorem store (s : Attempt Content Obj) (v : Var) (x : Content v) : Grows s (s.store v x) :=
  { refl s with
    privates := List.subset_cons_self v _
    frame := fun w _ hp =>
      Function.update_of_ne (fun h : w = v => hp (h ▸ List.mem_cons_self)) _ _ }

end Attempt.Grows

namespace Program

variable {p : Program Content Obj ε α} {s s' : Attempt Content Obj} {a : α}

/-- A run only adds to the record. -/
theorem run_grows (h : p.run s = .ok (a, s')) : s.Grows s' := by
  induction p generalizing s with
  | ret a =>
    cases h
    exact .refl _
  | halt e => cases h
  | get v next ih => exact (Attempt.Grows.read s v).trans (ih _ h)
  | untrackedGet v next ih => exact (Attempt.Grows.readUntracked s v).trans (ih _ h)
  | set v x next ih => exact (Attempt.Grows.write s v x).trans (ih h)
  | unsafeSet v x next ih => exact (Attempt.Grows.store s v x).trans (ih h)
  | retire o next ih => exact (Attempt.Grows.retire s o).trans (ih h)

end Program

namespace Attempt

variable (s : Attempt Content Obj) (v : Var) (x : Content v) (o : Obj)

omit [DecidableEq Var] in
@[simp] theorem operations_read : (s.read v).operations = s.operations + 1 := by
  simp only [operations, read, List.length_cons]
  omega

omit [DecidableEq Var] in
@[simp] theorem operations_readUntracked : (s.readUntracked v).operations = s.operations + 1 := by
  simp only [operations, readUntracked, List.length_cons]
  omega

omit [DecidableEq Var] in
@[simp] theorem operations_retire : (s.retire o).operations = s.operations + 1 := by
  simp only [operations, retire, List.length_cons]
  omega

@[simp] theorem operations_write : (s.write v x).operations = s.operations + 1 := by
  simp only [operations, write, List.length_cons]
  omega

@[simp] theorem operations_store : (s.store v x).operations = s.operations + 1 := by
  simp only [operations, store, List.length_cons]
  omega

end Attempt

namespace Program

variable {p : Program Content Obj ε α} {s s' : Attempt Content Obj} {a : α}

theorem operations_le (h : p.run s = .ok (a, s')) : s.operations ≤ s'.operations := by
  induction p generalizing s with
  | ret b =>
    cases h
    exact Nat.le_refl _
  | halt e => cases h
  | get v next ih => exact Nat.le_of_succ_le ((s.operations_read v).ge.trans (ih _ h))
  | untrackedGet v next ih => exact Nat.le_of_succ_le ((s.operations_readUntracked v).ge.trans (ih _ h))
  | set v x next ih => exact Nat.le_of_succ_le ((s.operations_write v x).ge.trans (ih h))
  | unsafeSet v x next ih => exact Nat.le_of_succ_le ((s.operations_store v x).ge.trans (ih h))
  | retire o next ih => exact Nat.le_of_succ_le ((s.operations_retire o).ge.trans (ih h))

/-- **What is left of a program that runs to its end** is its end, or has operations to perform. -/
theorem run_operations (h : p.run s = .ok (a, s')) : p = .ret a ∨ s.operations < s'.operations := by
  cases p with
  | ret b =>
    cases h
    exact .inl rfl
  | halt e => cases h
  | get v next => exact .inr ((s.operations_read v).ge.trans (operations_le (p := next _) h))
  | untrackedGet v next => exact .inr ((s.operations_readUntracked v).ge.trans (operations_le (p := next _) h))
  | set v x next => exact .inr ((s.operations_write v x).ge.trans (operations_le (p := next) h))
  | unsafeSet v x next => exact .inr ((s.operations_store v x).ge.trans (operations_le (p := next) h))
  | retire o next => exact .inr ((s.operations_retire o).ge.trans (operations_le (p := next) h))

end Program

/-! ## 5. Stores made as sets -/

/-- The program that sets the vars it stores into. -/
def Program.storesAsSets : Program Content Obj ε α → Program Content Obj ε α
  | .ret a => .ret a
  | .halt e => .halt e
  | .get v next => .get v fun x => (next x).storesAsSets
  | .untrackedGet v next => .untrackedGet v fun x => (next x).storesAsSets
  | .set v x next | .unsafeSet v x next => .set v x next.storesAsSets
  | .retire o next => .retire o next.storesAsSets

/-- The attempt `t` is `s`, but what `s` has stored into `t` has set. -/
structure Attempt.AsSets (s t : Attempt Content Obj) : Prop where
  view : t.view = s.view
  reads : t.reads = s.reads
  untracked : t.untracked = s.untracked
  retired : t.retired = s.retired
  privates : t.privates = []
  writes : ∀ v, v ∈ t.writes ↔ v ∈ s.writes ∨ v ∈ s.privates

namespace Attempt.AsSets

variable {s t : Attempt Content Obj}

omit [DecidableEq Var] in
theorem start (m : Memory Content) : AsSets (.start m : Attempt Content Obj) (.start m) :=
  ⟨rfl, rfl, rfl, rfl, rfl, fun _ => by simp⟩

/-- It commits the same. -/
theorem commit (h : AsSets s t) (m : Memory Content) : t.commit m = s.commit m := by
  funext v
  simp [Attempt.commit, h.view, h.privates, h.writes]

omit [DecidableEq Var] in
/-- It validates behind what the other one validates behind, if that has not stored into the same objects. -/
theorem validates_iff (h : AsSets s t) (written : List Var) :
    t.Validates written ↔ s.Validates written ∧ ∀ v ∈ written, v ∉ s.privates := by
  simp only [Validates, h.reads, h.writes, not_or, ← and_assoc, forall_and]

end Attempt.AsSets

/-- What two runs end with: the same result, or the same error. -/
def AsSetsEnd : Except ε (α × Attempt Content Obj) → Except ε (α × Attempt Content Obj) → Prop
  | .ok (a, s), .ok (b, t) => b = a ∧ s.AsSets t
  | .error e, .error e' => e' = e
  | _, _ => False

/-- **A program may set the vars it stores into**: it ends in the same way. -/
theorem Program.run_storesAsSets (p : Program Content Obj ε α) {s t : Attempt Content Obj} (h : s.AsSets t) :
    AsSetsEnd (p.run s) (p.storesAsSets.run t) := by
  induction p generalizing s t with
  | ret a => exact ⟨rfl, h⟩
  | halt e => exact rfl
  | get v next ih =>
    show AsSetsEnd _ ((next (t.view v)).storesAsSets.run (t.read v))
    rw [h.view]
    exact ih _ { h with reads := congrArg (v :: ·) h.reads }
  | untrackedGet v next ih =>
    show AsSetsEnd _ ((next (t.view v)).storesAsSets.run (t.readUntracked v))
    rw [h.view]
    exact ih _ { h with untracked := congrArg (v :: ·) h.untracked }
  | set v x next ih =>
    refine ih { h with view := ?_, writes := fun w => ?_ }
    · exact congrArg (Function.update · v x) h.view
    · simp only [Attempt.write_writes, Attempt.write_privates, List.mem_cons, h.writes, or_assoc]
  | unsafeSet v x next ih =>
    refine ih { h with view := ?_, writes := fun w => ?_ }
    · exact congrArg (Function.update · v x) h.view
    · simp only [Attempt.write_writes, Attempt.store_writes, Attempt.store_privates, List.mem_cons, h.writes,
        or_left_comm]
  | retire o next ih => exact ih { h with retired := congrArg (o :: ·) h.retired }

/-! ## 6. The beginning of a program -/

namespace Program

/-- The first `n` operations of a program. -/
def first : Nat → Program Content Obj ε α → Program Content Obj ε Unit
  | 0, _ | _ + 1, .ret _ => .ret ()
  | _ + 1, .halt e => .halt e
  | n + 1, .get v next => .get v fun x => (next x).first n
  | n + 1, .untrackedGet v next => .untrackedGet v fun x => (next x).first n
  | n + 1, .set v x next => .set v x (next.first n)
  | n + 1, .unsafeSet v x next => .unsafeSet v x (next.first n)
  | n + 1, .retire o next => .retire o (next.first n)

/-- The program stores into vars of `own` and retires `objs`, and no others. -/
def Marks (own : Var → Prop) (objs : Obj → Prop) : Program Content Obj ε α → Prop
  | .ret _ | .halt _ => True
  | .get _ next | .untrackedGet _ next => ∀ x, (next x).Marks own objs
  | .set _ _ next => next.Marks own objs
  | .unsafeSet v _ next => own v ∧ next.Marks own objs
  | .retire o next => objs o ∧ next.Marks own objs

namespace Marks

variable {own own' : Var → Prop} {objs : Obj → Prop} {p : Program Content Obj ε α}
  {f : α → Program Content Obj ε β} {s s' : Attempt Content Obj} {a : α}

omit [DecidableEq Var]

theorem mono (h : p.Marks own objs) (ho : ∀ v, own v → own' v) : p.Marks own' objs := by
  induction p with
  | ret a | halt e => trivial
  | get v next ih | untrackedGet v next ih => exact fun x => ih x (h x)
  | set v x next ih => exact ih h
  | unsafeSet v x next ih => exact ⟨ho v h.1, ih h.2⟩
  | retire o next ih => exact ⟨h.1, ih h.2⟩

theorem bind (h : p.Marks own objs) (hf : ∀ a, (f a).Marks own objs) : (p >>= f).Marks own objs := by
  show (p.bind f).Marks own objs
  induction p with
  | ret a => exact hf a
  | halt e => trivial
  | get v next ih | untrackedGet v next ih => exact fun x => ih x (h x)
  | set v x next ih => exact ih h
  | unsafeSet v x next ih => exact ⟨h.1, ih h.2⟩
  | retire o next ih => exact ⟨h.1, ih h.2⟩

theorem first (h : p.Marks own objs) (n : Nat) : (p.first n).Marks own objs := by
  induction p generalizing n with
  | ret a | halt e => cases n <;> trivial
  | get v next ih | untrackedGet v next ih =>
    cases n with
    | zero => trivial
    | succ n => exact fun x => ih x (h x) n
  | set v x next ih =>
    cases n with
    | zero => trivial
    | succ n => exact ih h n
  | unsafeSet v x next ih | retire o next ih =>
    cases n with
    | zero => trivial
    | succ n => exact ⟨h.1, ih h.2 n⟩

variable [DecidableEq Var]

/-- A run leaves no other mark. -/
theorem run (h : p.Marks own objs) (hr : p.run s = .ok (a, s')) :
    (∀ v ∈ s'.privates, v ∈ s.privates ∨ own v) ∧ ∀ o ∈ s'.retired, o ∈ s.retired ∨ objs o := by
  induction p generalizing s with
  | ret a =>
    cases hr
    exact ⟨fun v => .inl, fun o => .inl⟩
  | halt e => cases hr
  | get v next ih => exact ih _ (h _) (s := s.read v) hr
  | untrackedGet v next ih => exact ih _ (h _) (s := s.readUntracked v) hr
  | set v x next ih => exact ih h (s := s.write v x) hr
  | unsafeSet v x next ih =>
    obtain ⟨hp, ho⟩ := ih h.2 hr
    refine ⟨fun w hw => ?_, ho⟩
    rcases hp w hw with hw | hw
    · exact (List.mem_cons.mp hw).elim (fun e => .inr (e ▸ h.1)) .inl
    · exact .inr hw
  | retire o next ih =>
    obtain ⟨hp, ho⟩ := ih h.2 (s := s.retire o) hr
    refine ⟨hp, fun r hr => ?_⟩
    rcases ho r hr with hr | hr
    · exact (List.mem_cons.mp hr).elim (fun e => .inr (e ▸ h.1)) .inl
    · exact .inr hr

theorem outcome (h : p.Marks own objs) (m : Memory Content) :
    (∀ v ∈ (p.outcome m).privates, own v) ∧ ∀ o ∈ (p.outcome m).retired, objs o := by
  unfold Program.outcome Program.attempt
  cases hp : p.run (.start m) with
  | error e => exact ⟨fun v hv => absurd hv List.not_mem_nil, fun o ho => absurd ho List.not_mem_nil⟩
  | ok r =>
    obtain ⟨hpriv, hret⟩ := h.run (show p.run (.start m) = .ok (r.1, r.2) from hp)
    exact ⟨fun v hv => (hpriv v hv).resolve_left List.not_mem_nil,
      fun o ho => (hret o ho).resolve_left List.not_mem_nil⟩

end Marks

end Program

/-! ## 7. The same attempt on another memory -/

namespace Attempt

variable {s : Attempt Content Obj} {m m₀ : Memory Content}

/-- The attempt sees its own writes on top of the memory `m`. -/
def Over (s : Attempt Content Obj) (m : Memory Content) : Prop :=
  ∀ v, v ∉ s.writes → v ∉ s.privates → s.view v = m v

/-- The attempt as it would be had it run on `m`. -/
def rebase (s : Attempt Content Obj) (m : Memory Content) : Attempt Content Obj :=
  { s with view := s.commit m }

omit [DecidableEq Var] in
theorem start_over (m : Memory Content) : (start m : Attempt Content Obj).Over m :=
  fun _ _ _ => rfl

theorem start_rebase : (start m₀ : Attempt Content Obj).rebase m = start m := rfl

/-- Where the memories agree, so do the views. -/
theorem Over.rebase_view (h : s.Over m₀) {v : Var} (hv : v ∈ s.privates ∨ m v = m₀ v) :
    (s.rebase m).view v = s.view v := by
  show (if v ∈ s.writes ∨ v ∈ s.privates then s.view v else m v) = s.view v
  split
  · rfl
  · next hn =>
    rw [not_or] at hn
    rw [hv.resolve_left hn.2, h v hn.1 hn.2]

theorem rebase_write (v : Var) (x : Content v) :
    (s.rebase m).write v x = (s.write v x).rebase m := by
  have : Function.update (s.commit m) v x = (s.write v x).commit m := by
    funext w
    by_cases hw : w = v
    · subst hw
      simp [commit]
    · simp [commit, hw]
  simp only [rebase, write, this]

theorem rebase_store (v : Var) (x : Content v) :
    (s.rebase m).store v x = (s.store v x).rebase m := by
  have : Function.update (s.commit m) v x = (s.store v x).commit m := by
    funext w
    by_cases hw : w = v
    · subst hw
      simp [commit]
    · simp [commit, hw]
  simp only [rebase, store, this]

/-- The attempt as it would be on `m`, with other untracked reads. -/
def moved (s : Attempt Content Obj) (m : Memory Content) (us : List Var) : Attempt Content Obj :=
  { s.rebase m with untracked := us }

theorem moved_write (us : List Var) (v : Var) (x : Content v) :
    (s.moved m us).write v x = (s.write v x).moved m us :=
  congrArg (fun r : Attempt Content Obj => { r with untracked := us }) (rebase_write v x)

theorem moved_store (us : List Var) (v : Var) (x : Content v) :
    (s.moved m us).store v x = (s.store v x).moved m us :=
  congrArg (fun r : Attempt Content Obj => { r with untracked := us }) (rebase_store v x)

theorem moved_eq {us : List Var} {r : Attempt Content Obj} (h : s.rebase m = r)
    (hr : r.untracked = []) : s.moved m us = r.readAllUntracked us := by
  subst h
  simp [moved, readAllUntracked, hr]

/-- An attempt commits nothing but what it sees. -/
theorem Over.commit_self (h : s.Over m) : s.commit m = s.view := by
  funext v
  show (if v ∈ s.writes ∨ v ∈ s.privates then s.view v else m v) = s.view v
  split
  · rfl
  · next hn =>
    rw [not_or] at hn
    exact (h v hn.1 hn.2).symm

omit [DecidableEq Var] in
theorem Grows.over {s s' : Attempt Content Obj} (h : s.Grows s') (ho : s.Over m) : s'.Over m :=
  fun v hw hp => (h.frame v hw hp).trans
    (ho v (fun hv => hw (h.writes hv)) (fun hv => hp (h.privates hv)))

end Attempt

namespace Program

variable {p : Program Content Obj ε α} {s s' : Attempt Content Obj} {a : α}
  {m m₀ : Memory Content}

/-- **An attempt depends on the vars it has read only.** On a memory that agrees there it takes the
    same steps and makes the same record. -/
theorem run_congr (h : p.run s = .ok (a, s')) (ho : s.Over m₀)
    (hr : ∀ v ∈ s'.reads, m v = m₀ v) (hu : ∀ v ∈ s'.untracked, m v = m₀ v) :
    p.run (s.rebase m) = .ok (a, s'.rebase m) := by
  induction p generalizing s with
  | ret a =>
    cases h
    rfl
  | halt e => cases h
  | get v next ih =>
    have hv : m v = m₀ v := hr v ((run_grows (p := next (s.view v)) h).reads List.mem_cons_self)
    show (next ((s.rebase m).view v)).run _ = _
    rw [ho.rebase_view (.inr hv)]
    exact ih _ (s := s.read v) h ho
  | untrackedGet v next ih =>
    have hv : m v = m₀ v :=
      hu v ((run_grows (p := next (s.view v)) h).untracked List.mem_cons_self)
    show (next ((s.rebase m).view v)).run _ = _
    rw [ho.rebase_view (.inr hv)]
    exact ih _ (s := s.readUntracked v) h ho
  | set v x next ih =>
    show next.run ((s.rebase m).write v x) = _
    rw [Attempt.rebase_write]
    exact ih h ((Attempt.Grows.write s v x).over ho)
  | unsafeSet v x next ih =>
    show next.run ((s.rebase m).store v x) = _
    rw [Attempt.rebase_store]
    exact ih h ((Attempt.Grows.store s v x).over ho)
  | retire o next ih => exact ih (s := s.retire o) h ho

theorem attempt_over (h : p.attempt m = .ok (a, s)) : s.Over m :=
  (run_grows h).over (Attempt.start_over m)

/-- **What a validated attempt commits is what the program does afresh.** The attempt ran on `m₀`
    with tracked reads only; what it read has the same value in `m`. -/
theorem commit_eq_rerun (h : p.attempt m₀ = .ok (a, s)) (hu : s.untracked = [])
    (hr : ∀ v ∈ s.reads, m v = m₀ v) :
    ∃ s', p.attempt m = .ok (a, s') ∧ s'.view = s.commit m ∧ s'.retired = s.retired :=
  ⟨s.rebase m,
    run_congr h (Attempt.start_over m₀) hr (fun _ hv => absurd (hu ▸ hv) List.not_mem_nil),
    rfl, rfl⟩

end Program

/-- What an attempt commits on the memory it ran on is what it sees. -/
theorem Returns.commit_self {p : Nat → Program Content Obj ε α} {m : Memory Content} {a : α}
    {s : Attempt Content Obj} (h : Returns p m a s) : s.commit m = s.view := by
  obtain ⟨enough, hrun⟩ := h
  exact (Program.attempt_over (hrun enough (Nat.le_refl _))).commit_self

/-- A var the attempt has not written. -/
theorem Attempt.commit_of_notMem {s : Attempt Content Obj} {m : Memory Content} {v : Var}
    (hw : v ∉ s.writes) (hp : v ∉ s.privates) : s.commit m v = m v :=
  if_neg (not_or.mpr ⟨hw, hp⟩)

/-! ## 8. The vars a program may touch -/

/-- A part of the memory: its vars, those of them that may be stored into directly, and the values
    that do not lead out of it. -/
structure Region {Var : Type} (Content : Var → Type) where
  vars : Var → Prop
  own : Var → Prop
  closed : ∀ v, Content v → Prop

namespace Region

variable (R : Region Content)

/-- As long as every var of the region holds a value that does not lead out, the program stays in
    the region, tracks every read, and ends with a result in `Q`. -/
def Within : Program Content Obj ε α → (α → Prop) → Prop
  | .ret a, Q => Q a
  | .halt _, _ => True
  | .get v next, Q => R.vars v ∧ ∀ x, R.closed v x → Within (next x) Q
  | .untrackedGet _ _, _ => False
  | .set v x next, Q => (R.vars v ∧ R.closed v x) ∧ Within next Q
  | .unsafeSet v x next, Q => (R.own v ∧ R.closed v x) ∧ Within next Q
  | .retire _ next, Q => Within next Q

/-- The attempt has stayed in the region since `s`. -/
structure Stays (s s' : Attempt Content Obj) : Prop where
  closed : ∀ v, R.vars v → R.closed v (s'.view v)
  reads : ∀ v ∈ s'.reads, v ∈ s.reads ∨ R.vars v
  untracked : s'.untracked = s.untracked
  writes : ∀ v ∈ s'.writes, v ∈ s.writes ∨ R.vars v
  privates : ∀ v ∈ s'.privates, v ∈ s.privates ∨ R.own v

variable {R} {p : Program Content Obj ε α} {f : α → Program Content Obj ε β} {Q Q' : α → Prop}
  {s s' s'' : Attempt Content Obj} {a : α}

namespace Within

omit [DecidableEq Var] in
theorem mono (h : R.Within p Q) (hQ : ∀ a, Q a → Q' a) : R.Within p Q' := by
  induction p with
  | ret a => exact hQ a h
  | halt e => trivial
  | get v next ih => exact ⟨h.1, fun x hx => ih x (h.2 x hx)⟩
  | untrackedGet v next _ => exact h
  | set v x next ih => exact ⟨h.1, ih h.2⟩
  | unsafeSet v x next ih => exact ⟨h.1, ih h.2⟩
  | retire o next ih => exact ih h

omit [DecidableEq Var] in
theorem bind_iff {Q : β → Prop} :
    R.Within (p >>= f) Q ↔ R.Within p fun a => R.Within (f a) Q := by
  show R.Within (p.bind f) Q ↔ _
  induction p with
  | ret a => exact Iff.rfl
  | halt e => exact Iff.rfl
  | get v next ih => exact and_congr_right' (forall_congr' fun x => imp_congr_right fun _ => ih x)
  | untrackedGet v next _ => exact Iff.rfl
  | set v x next ih => exact and_congr_right' ih
  | unsafeSet v x next ih => exact and_congr_right' ih
  | retire o next ih => exact ih

omit [DecidableEq Var] in
/-- One program after the other. -/
theorem seq {Q : β → Prop} (h : R.Within p Q') (h' : ∀ a, Q' a → R.Within (f a) Q) :
    R.Within (p >>= f) Q := bind_iff.mpr (h.mono h')

end Within

namespace Stays

omit [DecidableEq Var] in
theorem refl (h : ∀ v, R.vars v → R.closed v (s.view v)) : R.Stays s s :=
  ⟨h, fun _ => .inl, rfl, fun _ => .inl, fun _ => .inl⟩

omit [DecidableEq Var] in
theorem trans (h : R.Stays s s') (h' : R.Stays s' s'') : R.Stays s s'' where
  closed := h'.closed
  reads v hv := (h'.reads v hv).elim (h.reads v) .inr
  untracked := h'.untracked.trans h.untracked
  writes v hv := (h'.writes v hv).elim (h.writes v) .inr
  privates v hv := (h'.privates v hv).elim (h.privates v) .inr

variable (h : ∀ v, R.vars v → R.closed v (s.view v)) {v : Var} {x : Content v}
include h

omit [DecidableEq Var] in
theorem read (hv : R.vars v) : R.Stays s (s.read v) :=
  { refl h with reads := fun _ hw => (List.mem_cons.mp hw).elim (fun e => .inr (e ▸ hv)) .inl }

theorem closed_update (hx : R.closed v x) (w : Var) (hw : R.vars w) :
    R.closed w (Function.update s.view v x w) := by
  by_cases e : w = v
  · subst e
    rwa [Function.update_self]
  · rw [Function.update_of_ne e]
    exact h w hw

theorem write (hv : R.vars v) (hx : R.closed v x) : R.Stays s (s.write v x) :=
  { refl h with
    closed := closed_update h hx
    writes := fun _ hw => (List.mem_cons.mp hw).elim (fun e => .inr (e ▸ hv)) .inl }

theorem store (hv : R.own v) (hx : R.closed v x) : R.Stays s (s.store v x) :=
  { refl h with
    closed := closed_update h hx
    privates := fun _ hw => (List.mem_cons.mp hw).elim (fun e => .inr (e ▸ hv)) .inl }

omit [DecidableEq Var] in
theorem retire (o : Obj) : R.Stays s (s.retire o) := { refl h with }

end Stays

/-- A run of a program that stays in the region. -/
theorem Within.run (hp : R.Within p Q) (h : ∀ v, R.vars v → R.closed v (s.view v))
    (hr : p.run s = .ok (a, s')) : R.Stays s s' ∧ Q a := by
  induction p generalizing s with
  | ret a =>
    cases hr
    exact ⟨.refl h, hp⟩
  | halt e => cases hr
  | get v next ih =>
    obtain ⟨hs, hQ⟩ := ih _ (s := s.read v) (hp.2 _ (h v hp.1)) h hr
    exact ⟨(Stays.read h hp.1).trans hs, hQ⟩
  | untrackedGet v next _ => exact hp.elim
  | set v x next ih =>
    have hw := Stays.write h hp.1.1 hp.1.2
    obtain ⟨hs, hQ⟩ := ih hp.2 hw.closed hr
    exact ⟨hw.trans hs, hQ⟩
  | unsafeSet v x next ih =>
    have hw := Stays.store h hp.1.1 hp.1.2
    obtain ⟨hs, hQ⟩ := ih hp.2 hw.closed hr
    exact ⟨hw.trans hs, hQ⟩
  | retire o next ih =>
    obtain ⟨hs, hQ⟩ := ih (s := s.retire o) hp h hr
    exact ⟨(Stays.retire h o).trans hs, hQ⟩

/-- **Such a run may have looked around untracked before.** It makes the same record on another
    memory that agrees on its tracked reads, whatever led up to it there. -/
theorem Within.run_moved {m m₀ : Memory Content} (hp : R.Within p Q)
    (h : ∀ v, R.vars v → R.closed v (s.view v)) (hr : p.run s = .ok (a, s')) (ho : s.Over m₀)
    (hm : ∀ v ∈ s'.reads, v ∈ s.privates ∨ m v = m₀ v) (us : List Var) :
    p.run (s.moved m us) = .ok (a, s'.moved m us) := by
  induction p generalizing s with
  | ret a =>
    cases hr
    rfl
  | halt e => cases hr
  | get v next ih =>
    have hv := hm v ((Program.run_grows (p := next (s.view v)) hr).reads List.mem_cons_self)
    show (next ((s.rebase m).view v)).run _ = _
    rw [ho.rebase_view hv]
    exact ih _ (s := s.read v) (hp.2 _ (h v hp.1)) h hr ho hm
  | untrackedGet v next _ => exact hp.elim
  | set v x next ih =>
    show next.run ((s.moved m us).write v x) = _
    rw [Attempt.moved_write]
    exact ih hp.2 (Stays.write h hp.1.1 hp.1.2).closed hr ((Attempt.Grows.write s v x).over ho) hm
  | unsafeSet v x next ih =>
    show next.run ((s.moved m us).store v x) = _
    rw [Attempt.moved_store]
    exact ih hp.2 (Stays.store h hp.1.1 hp.1.2).closed hr ((Attempt.Grows.store s v x).over ho)
      fun w hw => (hm w hw).imp_left (List.mem_cons_of_mem _)
  | retire o next ih => exact ih (s := s.retire o) hp h hr ho hm

end Region

end Programs

end Optimistic

end LockfreeStm
