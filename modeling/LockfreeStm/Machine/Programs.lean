/-
  File:      LockfreeStm/Machine/Programs.lean
  Subject:   PROGRAMS as bodies, and the operators of `easy_var`.

  A body of the machine chooses its next operation by what the operations have returned so far. The body of
  a C++ function is written as a program: an operation, and what to do with its result.

  * `Executes` -- a tracked body run alone: its gets read the memory, its sets write it, what else it may do
    leaves the memory alone.
  * `Performs` -- a body with untracked gets, too: its log is one, up to where it is.
  * `Prog`, `Prog.body`, `Prog.run` -- a program, the body it is, and what it leaves when it runs alone.
  * `Executes.run` -- **the main result**: a body that is a program executes as the program runs.
  * `EasyVar` -- the operators of easy_var.hpp and detail/easy_var_detail.hpp: each is a read_write call of
    its own, so inside a transaction a nested one.
-/
import LockfreeStm.Machine.Bodies

namespace LockfreeStm

variable {ι ν α : Type}

/-! ## 1. A body alone -/

/-- A get through a transaction that knows its thread_data sees what the transaction has set. -/
def Op.seesOwn : Op ν α → Bool
  | .readOnlyGet _ => false
  | _ => true

section Executes

variable [DecidableEq ν]

/-- A tracked body executed alone from memory `m`: its log, and the memory so far. -/
inductive Executes (body : Body ν α) (m : ν → α) : Log α → (ν → α) → Prop where
  | start : Executes body m [] m
  | get {log : Log α} {cur : ν → α} {v : ν} (h : Executes body m log cur) (hop : body log = .get v) :
      Executes body m (log ++ [some (cur v)]) cur
  | set {log : Log α} {cur : ν → α} {v : ν} {x : α} (h : Executes body m log cur)
      (hop : body log = .set v x) : Executes body m (log ++ [none]) (Function.update cur v x)
  | other {log : Log α} {cur : ν → α} (h : Executes body m log cur)
      (hop : (∃ id, body log = .sometimeSynchronizedAfter id ∨ body log = .afterFail id) ∨
        body log = .nestedAtomic) : Executes body m (log ++ [none]) cur

theorem Executes.account (body : Body ν α) (m : ν → α) :
    Account Op.isTracked body m (Executes body m) where
  start := .start
  get h hok hop := by
    rcases hop with hop | hop
    · exact h.get hop
    · rw [hop] at hok
      cases hok
  set h hop := h.set hop
  other h _ hop := h.other hop
  notReadOnly _ := rfl

variable {body : Body ν α} {m : ν → α}

/-- What an operation returns from memory `cur`, and the memory after it; nothing for one that ends the
    body, and for a get that does not see the transaction's sets. -/
def Op.perform (cur : ν → α) : Op ν α → Option (Option α × (ν → α))
  | .get v | .untrackedGet v => some (some (cur v), cur)
  | .set v x => some (none, Function.update cur v x)
  | .sometimeSynchronizedAfter _ | .afterFail _ | .nestedAtomic => some (none, cur)
  | _ => none

/-- A body performed alone from memory `m`: its log, and the memory so far. -/
inductive Performs (body : Body ν α) (m : ν → α) : Log α → (ν → α) → Prop where
  | start : Performs body m [] m
  | step {log : Log α} {cur cur' : ν → α} {r : Option α} (h : Performs body m log cur)
      (hop : (body log).perform cur = some (r, cur')) : Performs body m (log ++ [r]) cur'

theorem Performs.account (body : Body ν α) (m : ν → α) : Account Op.seesOwn body m (Performs body m) where
  start := .start
  get h _ hop := h.step (by rcases hop with hop | hop <;> rw [hop] <;> rfl)
  set h hop := h.step (by rw [hop]; rfl)
  other h _ hop := h.step (by rcases hop with ⟨_, hop | hop⟩ | hop <;> rw [hop] <;> rfl)
  notReadOnly _ := rfl

/-- Two logs of one length are one log. -/
theorem Performs.unique {log log' : Log α} {cur cur' : ν → α} (h : Performs body m log cur)
    (h' : Performs body m log' cur') (hl : log.length = log'.length) : log = log' ∧ cur = cur' := by
  induction h generalizing log' cur' with
  | start =>
      cases h' with
      | start => exact ⟨rfl, rfl⟩
      | step => simp at hl
  | step _ hop ih =>
      cases h' with
      | start => simp at hl
      | step h₂ hop₂ =>
          obtain ⟨rfl, rfl⟩ := ih h₂ (by simpa using hl)
          cases hop.symm.trans hop₂
          exact ⟨rfl, rfl⟩

end Executes

/-! ## 2. Programs -/

/-- A program: its next operation, and how it goes on with what the operation returns. -/
inductive Prog (ν α : Type) where
  | get (v : ν) (k : α → Prog ν α)
  | set (v : ν) (x : α) (k : Prog ν α)
  /-- a nested call of `atomic` begins -/
  | nested (k : Prog ν α)
  | retry
  | throw
  | ret

namespace Prog

/-- The operation the program begins with. -/
def op : Prog ν α → Op ν α
  | get v _ => .get v
  | set v x _ => .set v x
  | nested _ => .nestedAtomic
  | retry => .retry
  | throw => .throw
  | ret => .ret

/-- What is left of the program when its first operation has returned `r`. -/
def resume : Prog ν α → Option α → Prog ν α
  | get _ k, some x => k x
  | set _ _ k, _ => k
  | nested k, _ => k
  | p, _ => p

/-- What is left of the program behind a log. -/
def after (p : Prog ν α) (log : Log α) : Prog ν α := log.foldl resume p

/-- The body a program is. -/
def body (p : Prog ν α) : Body ν α := fun log => (p.after log).op

@[simp] theorem after_nil (p : Prog ν α) : p.after [] = p := rfl

@[simp] theorem after_concat (p : Prog ν α) (log : Log α) (r : Option α) :
    p.after (log ++ [r]) = (p.after log).resume r := by
  rw [after, List.foldl_append]
  rfl

theorem isTracked_op (p : Prog ν α) : p.op.isTracked = true := by cases p <;> rfl

theorem isTracked_body (p : Prog ν α) (log : Log α) : (p.body log).isTracked = true := isTracked_op _

section Run

variable [DecidableEq ν]

/-- What the program leaves of memory `m` when it runs alone, if it returns. -/
def run : Prog ν α → (ν → α) → Option (ν → α)
  | get v k, m => (k (m v)).run m
  | set v x k, m => k.run (Function.update m v x)
  | nested k, m => k.run m
  | retry, _ => none
  | throw, _ => none
  | ret, m => some m

/-- What a program has left to do when it executes leaves what the whole program leaves. -/
theorem run_after {p : Prog ν α} {m : ν → α} {log : Log α} {cur : ν → α}
    (h : Executes p.body m log cur) : (p.after log).run cur = p.run m := by
  induction h with
  | start => rfl
  | get _ hop ih =>
      rw [after_concat, ← ih]
      revert hop
      unfold body
      cases p.after _ <;> intro hop <;> cases hop
      rfl
  | set _ hop ih =>
      rw [after_concat, ← ih]
      revert hop
      unfold body
      cases p.after _ <;> intro hop <;> cases hop
      rfl
  | other _ hop ih =>
      rw [after_concat, ← ih]
      revert hop
      unfold body
      cases p.after _ <;> intro hop <;>
        first | rfl | (rcases hop with ⟨_, hop | hop⟩ | hop <;> cases hop)

end Run

end Prog

/-- **A program that has executed to its end leaves what it leaves when it runs alone.** -/
theorem Executes.run [DecidableEq ν] {p : Prog ν α} {m m' : ν → α} {log : Log α}
    (h : Executes p.body m log m') (hret : p.body log = .ret) : p.run m = some m' := by
  rw [← Prog.run_after h]
  revert hret
  unfold Prog.body
  cases p.after log <;> intro hret <;> first | rfl | cases hret

/-! ## 3. easy_var -/

namespace EasyVar

/-- `get`, and the conversion to `value_type`. -/
def get (v : ν) (k : α → Prog ν α) : Prog ν α := .nested (.get v k)

/-- `operator=` from a value. -/
def assign (v : ν) (x : α) (k : Prog ν α) : Prog ν α := .nested (.set v x k)

/-- `operator=` from another easy_var. -/
def assignVar (v w : ν) (k : Prog ν α) : Prog ν α := .nested (.get w fun y => .set v y k)

/-- `LSTM_ASSIGN_OP` from a value: `operator symbol=`. -/
def assignOp (symbol : α → α → α) (v : ν) (u : α) (k : Prog ν α) : Prog ν α :=
  .nested (.get v fun x => .set v (symbol x u) k)

/-- `LSTM_ASSIGN_OP` from another easy_var. -/
def assignOpVar (symbol : α → α → α) (v w : ν) (k : Prog ν α) : Prog ν α :=
  .nested (.get v fun x => .get w fun y => .set v (symbol x y) k)

/-- `LSTM_RMW_UNARY_OP`, the prefix form. -/
def unaryOp [OfNat α 1] (symbol : α → α → α) (v : ν) (k : Prog ν α) : Prog ν α := assignOp symbol v 1 k

/-- `LSTM_RMW_UNARY_OP`, the postfix form: it returns the value before. -/
def postfixOp [OfNat α 1] (symbol : α → α → α) (v : ν) (k : α → Prog ν α) : Prog ν α :=
  .nested (.get v fun x => .set v (symbol x 1) (k x))

section Run

variable [DecidableEq ν] {v w : ν} {k : Prog ν α} {m : ν → α}

@[simp] theorem run_get {k : α → Prog ν α} : (get v k).run m = (k (m v)).run m := rfl

@[simp] theorem run_assign {x : α} : (assign v x k).run m = k.run (Function.update m v x) := rfl

@[simp] theorem run_assignVar : (assignVar v w k).run m = k.run (Function.update m v (m w)) := rfl

@[simp] theorem run_assignOp {symbol : α → α → α} {u : α} :
    (assignOp symbol v u k).run m = k.run (Function.update m v (symbol (m v) u)) := rfl

@[simp] theorem run_assignOpVar {symbol : α → α → α} :
    (assignOpVar symbol v w k).run m = k.run (Function.update m v (symbol (m v) (m w))) := rfl

@[simp] theorem run_postfixOp [OfNat α 1] {symbol : α → α → α} {k : α → Prog ν α} :
    (postfixOp symbol v k).run m = (k (m v)).run (Function.update m v (symbol (m v) 1)) := rfl

end Run

end EasyVar

end LockfreeStm
