/-
  File:      LockfreeStm/Library/SideBySide.lean
  Subject:   TWO MEMORIES SIDE BY SIDE, AND TWO TRANSACTIONS OVER THEM.

  A transaction may use one data structure and vars beside it. Its memory is then two memories, and
  what it does to the one leaves the other alone: a program for the left memory runs beside the
  right one as it runs alone (`run_inLeft`), and validation and commit may be judged on either side
  (`validates_iff`, `left_commit`, `right_commit`).

  Two transactions on one memory commit one after the other. The later one has begun behind the
  earlier one's commit, or it has run on the memory from before and validates, if it has written
  anything (`Interleaved`). `Serial` is the one after the other.
-/
import LockfreeStm.Library.Optimistic
import Mathlib.Data.Sum.Basic

namespace LockfreeStm

namespace Optimistic

/-! ## 1. Memories, programs and attempts -/

section Sides

variable {Var₁ Var₂ : Type} {C₁ : Var₁ → Type} {C₂ : Var₂ → Type} {Obj ε α β : Type}

/-- Two memories in one. -/
abbrev Beside (C₁ : Var₁ → Type) (C₂ : Var₂ → Type) : Var₁ ⊕ Var₂ → Type := Sum.elim C₁ C₂

def Memory.left (m : Memory (Beside C₁ C₂)) : Memory C₁ := fun v => m (.inl v)
def Memory.right (m : Memory (Beside C₁ C₂)) : Memory C₂ := fun v => m (.inr v)

def Memory.beside (m₁ : Memory C₁) (m₂ : Memory C₂) : Memory (Beside C₁ C₂)
  | .inl v => m₁ v
  | .inr v => m₂ v

/-- A program for the left memory, run on both. -/
def Program.inLeft : Program C₁ Obj ε α → Program (Beside C₁ C₂) Obj ε α
  | .ret a => .ret a
  | .halt e => .halt e
  | .get v next => .get (.inl v) fun x => (next x).inLeft
  | .untrackedGet v next => .untrackedGet (.inl v) fun x => (next x).inLeft
  | .set v x next => .set (.inl v) x next.inLeft
  | .unsafeSet v x next => .unsafeSet (.inl v) x next.inLeft
  | .retire o next => .retire o next.inLeft

/-- What an attempt has done to the left memory. -/
@[simps -fullyApplied] def Attempt.left (s : Attempt (Beside C₁ C₂) Obj) : Attempt C₁ Obj where
  view v := s.view (.inl v)
  reads := s.reads.filterMap Sum.getLeft?
  untracked := s.untracked.filterMap Sum.getLeft?
  writes := s.writes.filterMap Sum.getLeft?
  privates := s.privates.filterMap Sum.getLeft?
  retired := s.retired

/-- What it has done to the right memory; objects are handed over on the left. -/
@[simps -fullyApplied] def Attempt.right (s : Attempt (Beside C₁ C₂) Obj) : Attempt C₂ Obj where
  view v := s.view (.inr v)
  reads := s.reads.filterMap Sum.getRight?
  untracked := s.untracked.filterMap Sum.getRight?
  writes := s.writes.filterMap Sum.getRight?
  privates := s.privates.filterMap Sum.getRight?
  retired := []

theorem mem_getLeft {vs : List (Var₁ ⊕ Var₂)} {v : Var₁} :
    v ∈ vs.filterMap Sum.getLeft? ↔ .inl v ∈ vs := by
  simp [List.mem_filterMap]

theorem mem_getRight {vs : List (Var₁ ⊕ Var₂)} {v : Var₂} :
    v ∈ vs.filterMap Sum.getRight? ↔ .inr v ∈ vs := by
  simp [List.mem_filterMap]

variable [DecidableEq Var₁] [DecidableEq Var₂] {s : Attempt (Beside C₁ C₂) Obj}
  {m : Memory (Beside C₁ C₂)}

omit [DecidableEq Var₁] [DecidableEq Var₂] in
theorem left_start : (Attempt.start m : Attempt (Beside C₁ C₂) Obj).left = .start m.left := rfl

omit [DecidableEq Var₁] [DecidableEq Var₂] in
theorem right_start : (Attempt.start m : Attempt (Beside C₁ C₂) Obj).right = .start m.right := rfl

/-- The attempt that has gone on with `s₁` on the left. -/
def Attempt.onLeft (s : Attempt (Beside C₁ C₂) Obj) (s₁ : Attempt C₁ Obj) :
    Attempt (Beside C₁ C₂) Obj where
  view
    | .inl v => s₁.view v
    | .inr v => s.view (.inr v)
  reads := s₁.reads.map .inl ++ s.reads
  untracked := s₁.untracked.map .inl ++ s.untracked
  writes := s₁.writes.map .inl ++ s.writes
  privates := s₁.privates.map .inl ++ s.privates
  retired := s₁.retired ++ s.retired

omit [DecidableEq Var₁] [DecidableEq Var₂] in
/-- Nothing has gone on yet. -/
theorem onLeft_start : s.onLeft (.start s.left.view) = s := by
  have : (s.onLeft (.start s.left.view)).view = s.view := by
    funext v
    cases v <;> rfl
  exact congrArg (fun view => { s with view := view }) this

theorem onLeft_write (s₁ : Attempt C₁ Obj) (v : Var₁) (x : C₁ v) :
    (s.onLeft s₁).write (.inl v) x = s.onLeft (s₁.write v x) := by
  have : Function.update (s.onLeft s₁).view (.inl v) x = (s.onLeft (s₁.write v x)).view := by
    refine Function.update_eq_iff.mpr ⟨(Function.update_self v x s₁.view).symm, fun w hw => ?_⟩
    cases w with
    | inl w => exact (Function.update_of_ne (fun e => hw (congrArg Sum.inl e)) x s₁.view).symm
    | inr w => rfl
  exact congrArg (fun view => { s.onLeft (s₁.write v x) with view := view }) this

theorem onLeft_store (s₁ : Attempt C₁ Obj) (v : Var₁) (x : C₁ v) :
    (s.onLeft s₁).store (.inl v) x = s.onLeft (s₁.store v x) := by
  have : Function.update (s.onLeft s₁).view (.inl v) x = (s.onLeft (s₁.store v x)).view :=
    congrArg Attempt.view (onLeft_write s₁ v x)
  exact congrArg (fun view => { s.onLeft (s₁.store v x) with view := view }) this

/-- **A program for the left memory runs beside the right one as it runs alone.** -/
theorem Program.run_inLeft {p : Program C₁ Obj ε α} {a : α} {l l' : Attempt C₁ Obj}
    (h : p.run l = .ok (a, l')) :
    (p.inLeft : Program (Beside C₁ C₂) Obj ε α).run (s.onLeft l) = .ok (a, s.onLeft l') := by
  induction p generalizing l with
  | ret a =>
    cases h
    rfl
  | halt e => cases h
  | get v next ih => exact ih _ (l := l.read v) h
  | untrackedGet v next ih => exact ih _ (l := l.readUntracked v) h
  | set v x next ih =>
    show next.inLeft.run ((s.onLeft l).write (.inl v) x) = _
    rw [onLeft_write]
    exact ih h
  | unsafeSet v x next ih =>
    show next.inLeft.run ((s.onLeft l).store (.inl v) x) = _
    rw [onLeft_store]
    exact ih h
  | retire o next ih => exact ih (l := l.retire o) h

omit [DecidableEq Var₁] [DecidableEq Var₂] in
theorem right_onLeft (s₁ : Attempt C₁ Obj) : (s.onLeft s₁).right = s.right := by
  have hnone : ∀ vs : List Var₁, vs.filterMap (fun _ => (none : Option Var₂)) = [] := fun vs =>
    List.filterMap_eq_nil_iff.mpr fun _ _ => rfl
  simp [Attempt.right, Attempt.onLeft, List.filterMap_map, Function.comp_def, hnone]

omit [DecidableEq Var₁] [DecidableEq Var₂] in
/-- On the left the attempt has done what `s₁` has, if it had done nothing there before. -/
theorem left_onLeft {m₁ : Memory C₁} (h : s.left = .start m₁) (s₁ : Attempt C₁ Obj) :
    (s.onLeft s₁).left = s₁ := by
  obtain ⟨-, hr, hu, hw, hp, ho⟩ := Attempt.mk.inj h
  simp [Attempt.left, Attempt.onLeft, List.filterMap_map, Function.comp_def, hr, hu, hw, hp, ho]

/-! ## 2. What is done to the right memory -/

theorem left_write_inr (v : Var₂) (x : C₂ v) : (s.write (.inr v) x).left = s.left := by
  have : (fun w => (s.write (.inr v) x).view (.inl w)) = fun w => s.view (.inl w) :=
    funext fun w => Function.update_of_ne Sum.inl_ne_inr x s.view
  exact congrArg (fun view => { s.left with view := view }) this

theorem right_write_inr (v : Var₂) (x : C₂ v) : (s.write (.inr v) x).right = s.right.write v x := by
  have : Function.update s.right.view v x = fun w => (s.write (.inr v) x).view (.inr w) := by
    refine Function.update_eq_iff.mpr ⟨(Function.update_self (Sum.inr v) x s.view).symm, fun w hw => ?_⟩
    exact (Function.update_of_ne (fun e => hw (Sum.inr.inj e)) x s.view).symm
  exact congrArg (fun view => { s.right.write v x with view := view }) this.symm

omit [DecidableEq Var₁] [DecidableEq Var₂] in
theorem left_readAll_inr (vs : List Var₂) : (s.readAll (vs.map .inr)).left = s.left := by
  have : vs.filterMap (fun _ => (none : Option Var₁)) = [] := List.filterMap_eq_nil_iff.mpr fun _ _ => rfl
  simp [Attempt.left, Attempt.readAll, List.filterMap_map, Function.comp_def, this]

omit [DecidableEq Var₁] [DecidableEq Var₂] in
theorem right_readAll_inr (vs : List Var₂) :
    (s.readAll (vs.map .inr)).right = s.right.readAll vs := by
  simp [Attempt.right, Attempt.readAll, List.filterMap_map, Function.comp_def]

/-! ## 3. Validation and commit, side by side -/

omit [DecidableEq Var₁] [DecidableEq Var₂] in
theorem Attempt.validates_iff {ws : List (Var₁ ⊕ Var₂)} : s.Validates ws ↔
    s.left.Validates (ws.filterMap Sum.getLeft?) ∧ s.right.Validates (ws.filterMap Sum.getRight?) := by
  constructor
  · intro h
    refine ⟨fun v hv => ?_, fun v hv => ?_⟩
    · have hv := h _ (mem_getLeft.mp hv)
      exact ⟨fun hr => hv.1 (mem_getLeft.mp hr), fun hw => hv.2 (mem_getLeft.mp hw)⟩
    · have hv := h _ (mem_getRight.mp hv)
      exact ⟨fun hr => hv.1 (mem_getRight.mp hr), fun hw => hv.2 (mem_getRight.mp hw)⟩
  · rintro ⟨hl, hr⟩ v hv
    cases v with
    | inl v =>
      have h := hl v (mem_getLeft.mpr hv)
      exact ⟨fun hr => h.1 (mem_getLeft.mpr hr), fun hw => h.2 (mem_getLeft.mpr hw)⟩
    | inr v =>
      have h := hr v (mem_getRight.mpr hv)
      exact ⟨fun hr => h.1 (mem_getRight.mpr hr), fun hw => h.2 (mem_getRight.mpr hw)⟩

theorem Attempt.left_commit : Memory.left (s.commit m) = s.left.commit m.left := by
  funext v
  by_cases h : .inl v ∈ s.writes ∨ .inl v ∈ s.privates
  · exact (if_pos h).trans (if_pos (h.imp mem_getLeft.mpr mem_getLeft.mpr)).symm
  · exact (if_neg h).trans (if_neg fun h' => h (h'.imp mem_getLeft.mp mem_getLeft.mp)).symm

theorem Attempt.right_commit : Memory.right (s.commit m) = s.right.commit m.right := by
  funext v
  by_cases h : .inr v ∈ s.writes ∨ .inr v ∈ s.privates
  · exact (if_pos h).trans (if_pos (h.imp mem_getRight.mpr mem_getRight.mpr)).symm
  · exact (if_neg h).trans (if_neg fun h' => h (h'.imp mem_getRight.mp mem_getRight.mp)).symm

/-- An attempt that has written nothing commits nothing. -/
theorem Attempt.commit_of_nil {m₁ : Memory C₁} {s₁ : Attempt C₁ Obj} (hw : s₁.writes = [])
    (hp : s₁.privates = []) : s₁.commit m₁ = m₁ := by
  funext v
  exact Attempt.commit_of_notMem (hw ▸ List.not_mem_nil) (hp ▸ List.not_mem_nil)

theorem Attempt.start_readAll_commit {m₁ m₂ : Memory C₁} (vs : List Var₁) :
    ((Attempt.start m₁ : Attempt C₁ Obj).readAll vs).commit m₂ = m₂ := commit_of_nil rfl rfl

theorem Attempt.start_write_commit {m₁ m₂ : Memory C₁} (v : Var₁) (x : C₁ v) :
    ((Attempt.start m₁ : Attempt C₁ Obj).write v x).commit m₂ = Function.update m₂ v x := by
  funext w
  by_cases h : w = v
  · subst h
    simp [Attempt.commit]
  · simp [Attempt.commit, h]

omit [DecidableEq Var₁] [DecidableEq Var₂] in
theorem Memory.ext_sides {m m' : Memory (Beside C₁ C₂)} (hl : m.left = m'.left) (hr : m.right = m'.right) :
    m = m' := by
  funext v
  cases v with
  | inl v => exact congrFun hl v
  | inr v => exact congrFun hr v

end Sides

/-! ## 4. Queries -/

/-- A program that only gets vars, tracked, and then answers. -/
inductive Query {Var : Type} (Content : Var → Type) (α : Type) where
  | answer (a : α)
  | get (v : Var) (next : Content v → Query Content α)

namespace Query

variable {Var : Type} {Content : Var → Type} {α : Type}

/-- The answer on a memory. -/
def eval : Query Content α → Memory Content → α
  | .answer a, _ => a
  | .get v next, m => (next (m v)).eval m

/-- The vars it gets there. -/
def reads : Query Content α → Memory Content → List Var
  | .answer _, _ => []
  | .get v next, m => v :: (next (m v)).reads m

/-- It depends on these only. -/
theorem eval_congr {q : Query Content α} {m m' : Memory Content} (h : ∀ v ∈ q.reads m, m' v = m v) :
    q.eval m' = q.eval m := by
  induction q with
  | answer a => rfl
  | get v next ih =>
    rw [reads, List.forall_mem_cons] at h
    rw [eval, eval, h.1]
    exact ih _ h.2

variable {Var₁ : Type} {C₁ : Var₁ → Type} {C₂ : Var → Type} {Obj ε : Type}

/-- A query of the right memory. -/
def inRight : Query C₂ α → Program (Beside C₁ C₂) Obj ε α
  | .answer a => .ret a
  | .get v next => .get (.inr v) fun x => (next x).inRight

variable [DecidableEq Var₁] [DecidableEq Var]

variable (Obj ε) in
theorem run_inRight (q : Query C₂ α) (s : Attempt (Beside C₁ C₂) Obj) :
    (q.inRight : Program _ Obj ε α).run s =
      .ok (q.eval s.right.view, s.readAll ((q.reads s.right.view).reverse.map .inr)) := by
  induction q generalizing s with
  | answer a => rfl
  | get v next ih =>
    refine (ih _ (s.read (.inr v))).trans ?_
    simp [eval, reads, Attempt.readAll, Attempt.read]

end Query

/-! ## 5. Two transactions -/

section Interleaved

variable {Var : Type} [DecidableEq Var] {Content : Var → Type} {Obj ε α β : Type}

/-- The attempt commits behind the commit of `s₁`, though it began before: it has written nothing, or it
    validates. -/
def Attempt.CommitsAfter (s s₁ : Attempt Content Obj) : Prop := s.writes = [] ∨ s.Validates s₁.writes

/-- `p` and then `q` have committed, and `m'` is left of `m`. -/
inductive CommitThen (p : Nat → Program Content Obj ε α) (q : Nat → Program Content Obj ε β)
    (m : Memory Content) : Memory Content → Prop where
  /-- `q` has begun behind the commit of `p` -/
  | fresh (a : α) (b : β) (s s' : Attempt Content Obj) (hp : Returns p m a s)
      (hq : Returns q (s.commit m) b s') : CommitThen p q m (s'.commit (s.commit m))
  /-- `q` has begun before it -/
  | stale (a : α) (b : β) (s s' : Attempt Content Obj) (hp : Returns p m a s) (hq : Returns q m b s')
      (hc : s'.CommitsAfter s) : CommitThen p q m (s'.commit (s.commit m))

/-- Both have committed, in some interleaving. -/
def Interleaved (p : Nat → Program Content Obj ε α) (q : Nat → Program Content Obj ε β)
    (m m' : Memory Content) : Prop := CommitThen p q m m' ∨ CommitThen q p m m'

/-- `p` runs and then `q`. -/
def Serial (p : Nat → Program Content Obj ε α) (q : Nat → Program Content Obj ε β)
    (m m' : Memory Content) : Prop :=
  ∃ a b s s', Returns p m a s ∧ Returns q (s.commit m) b s' ∧ m' = s'.commit (s.commit m)

end Interleaved

end Optimistic

end LockfreeStm
