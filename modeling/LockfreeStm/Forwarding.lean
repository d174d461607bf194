/-
  File:      LockfreeStm/Forwarding.lean
  Subject:   The argument pack in the loop of `slow_path` (read_write.hpp, read_only.hpp,
             atomic_base.hpp `call`): what the callable receives after failed passes.

  `operator()` of `read_write`, `read_only` and `atomic` hands `(Args&&) args...` on to `slow_path`,
  and each pass of its loop hands `(Args&&) args...` on to the callable: an rvalue argument is an
  rvalue again in every pass. The callable itself is kept by value and called as an lvalue. A
  nested call is no loop of its own; it is part of the body it stands in.

  * `slowPath_append` -- a run is its failed passes and then the rest, from what they left;
  * **`transparent_iff`** -- retrying is transparent to the arguments exactly if a call that can
    fail leaves each rvalue argument as it was.
-/
import LockfreeStm.Machine.State

namespace LockfreeStm

namespace Forwarding

/-! ## 1. Arguments and callables -/

/-- The value category of an argument expression: what `Args&&` collapses to. -/
inductive Category where
  | lvalue
  | rvalue
deriving DecidableEq

/-- An argument: how it was passed, and what the object it refers to holds. -/
structure Argument (V : Type) where
  category : Category
  value : V

/-- How the callable takes a parameter. -/
inductive Parameter where
  | byValue
  | byReference
deriving DecidableEq

/-- How the callable ends. -/
inductive Ending (ν α ρ : Type) where
  /-- with a result, and these writes pending -/
  | returned (result : ρ) (writes : List (ν × α))
  /-- by `tx_retry` -/
  | txRetry
  /-- by another exception -/
  | exception

/-- One execution of the callable's body: what it leaves in the objects its parameters refer to,
    and how it ends. Only objects that were passed as rvalues are its to change. -/
structure Execution (V ν α ρ : Type) where
  left : Nat → V
  ending : Ending ν α ρ

/-- A callable whose only other effect is on vars; `σ` is what it gets to see of them. -/
structure Callable (V σ ν α ρ : Type) where
  parameter : Nat → Parameter
  body : List V → σ → Execution V ν α ρ

variable {V σ ν α ρ : Type}

/-- What the callable receives: by value a copy or the value moved out, by reference the object. -/
def received (args : List (Argument V)) : List V := args.map (·.value)

/-- What parameter `i` leaves in its argument: a copy leaves it alone, a move leaves what the type's
    move constructor leaves, and an rvalue reference what the body leaves. -/
def consume (movedFrom : V → V) (f : Callable V σ ν α ρ) (left : Nat → V) (i : Nat)
    (a : Argument V) : Argument V :=
  match a.category, f.parameter i with
  | .lvalue, _ => a
  | .rvalue, .byValue => ⟨.rvalue, movedFrom a.value⟩
  | .rvalue, .byReference => ⟨.rvalue, left i⟩

/-- `atomic_base_fn::call(func, tx, (Args&&) args...)`. -/
def call (movedFrom : V → V) (f : Callable V σ ν α ρ) (args : List (Argument V)) (view : σ) :
    List (Argument V) × Ending ν α ρ :=
  let e := f.body (received args) view
  (args.mapIdx fun i a => consume movedFrom f e.left i a, e.ending)

/-! ## 2. The loop -/

/-- What a pass meets: what the callable sees of the vars, and whether another thread gets in the
    way of its commit. -/
structure Pass (σ : Type) where
  view : σ
  conflict : Bool

/-- What has become of a `slow_path`. -/
inductive Outcome (V ν α ρ : Type) where
  /-- the loop goes on, with these arguments -/
  | looping (args : List (Argument V))
  | returned (result : ρ) (writes : List (ν × α))
  | escaped

/-- `try_commit` fails: only a read_write transaction that wrote has anything to lock. -/
def commitFails (kind : TxKind) (writes : List (ν × α)) (conflict : Bool) : Bool :=
  kind != .readOnly && !writes.isEmpty && conflict

/-- `slow_path`, as far as the passes given take it. -/
def slowPath (movedFrom : V → V) (kind : TxKind) (f : Callable V σ ν α ρ) :
    List (Argument V) → List (Pass σ) → Outcome V ν α ρ
  | args, [] => .looping args
  | args, p :: ps =>
    match call movedFrom f args p.view with
    | (args, .returned result writes) =>
      if commitFails kind writes p.conflict then slowPath movedFrom kind f args ps
      else .returned result writes
    | (args, .txRetry) => slowPath movedFrom kind f args ps
    | (_, .exception) => .escaped

variable {movedFrom : V → V} {kind : TxKind} {f : Callable V σ ν α ρ} {args : List (Argument V)}

/-- A pass that meets an execution with this ending can fail. -/
def MayFail (kind : TxKind) : Ending ν α ρ → Prop
  | .returned _ writes => commitFails kind writes true = true
  | .txRetry => True
  | .exception => False

/-- A pass after which the loop goes on can fail, and goes on with what its call left. -/
theorem slowPath_cons_looping {p : Pass σ} {ps : List (Pass σ)} {args' : List (Argument V)}
    (h : slowPath movedFrom kind f args (p :: ps) = .looping args') :
    MayFail kind (call movedFrom f args p.view).2 ∧
      slowPath movedFrom kind f (call movedFrom f args p.view).1 ps = .looping args' := by
  unfold slowPath at h
  generalize call movedFrom f args p.view = c at h ⊢
  obtain ⟨left, ending⟩ := c
  cases ending with
  | returned result writes =>
    dsimp only at h
    split at h
    · rename_i hc
      refine ⟨?_, h⟩
      simp only [commitFails, Bool.and_eq_true] at hc
      simp only [MayFail, commitFails, Bool.and_eq_true]
      exact ⟨hc.1, trivial⟩
    · cases h
  | txRetry => exact ⟨trivial, h⟩
  | exception => cases h

/-- An execution that can fail does so in some pass with its view. -/
theorem slowPath_single_looping {view : σ}
    (h : MayFail kind (call movedFrom f args view).2) :
    slowPath movedFrom kind f args [⟨view, true⟩] =
      .looping (call movedFrom f args view).1 := by
  unfold slowPath
  dsimp only
  generalize call movedFrom f args view = c at h ⊢
  obtain ⟨left, ending⟩ := c
  cases ending with
  | returned result writes => exact if_pos h
  | txRetry => rfl
  | exception => exact absurd h id

/-- **A run is its failed passes and then the rest, from what they left.** -/
theorem slowPath_append {ps qs : List (Pass σ)} {args' : List (Argument V)}
    (h : slowPath movedFrom kind f args ps = .looping args') :
    slowPath movedFrom kind f args (ps ++ qs) = slowPath movedFrom kind f args' qs := by
  induction ps generalizing args with
  | nil => cases h; rfl
  | cons p ps ih =>
    have hgo := ih (slowPath_cons_looping h).2
    unfold slowPath at h
    rw [List.cons_append, slowPath]
    generalize call movedFrom f args p.view = c at h hgo ⊢
    obtain ⟨left, ending⟩ := c
    cases ending with
    | returned result writes =>
      dsimp only at h hgo ⊢
      split at h
      · rename_i hc
        rw [if_pos hc, hgo]
      · cases h
    | txRetry => exact hgo
    | exception => cases h

/-! ## 3. Transparency -/

/-- **Retrying is transparent to the arguments.** -/
structure Transparent (movedFrom : V → V) (kind : TxKind) (f : Callable V σ ν α ρ)
    (args : List (Argument V)) : Prop where
  /-- after any failed passes the callable receives what it received in the first one -/
  arguments : ∀ ps args', slowPath movedFrom kind f args ps = .looping args' →
    received args' = received args
  /-- and what comes out then is what had come out in a first pass -/
  outcome : ∀ ps args' p result writes, slowPath movedFrom kind f args ps = .looping args' →
    (slowPath movedFrom kind f args (ps ++ [p]) = .returned result writes ↔
      slowPath movedFrom kind f args [p] = .returned result writes)

/-- No argument is consumed by an execution with what the body leaves in `left`: an rvalue argument
    taken by value is not changed by being moved from, and one taken by reference is left alone. -/
def Keeps (movedFrom : V → V) (f : Callable V σ ν α ρ) (args : List (Argument V))
    (left : Nat → V) : Prop :=
  ∀ i a, args[i]? = some a → a.category = .rvalue →
    (f.parameter i = .byValue → movedFrom a.value = a.value) ∧
      (f.parameter i = .byReference → left i = a.value)

/-- A call that consumes nothing leaves the arguments as they were, and only such a one does. -/
theorem call_keeps {view : σ} :
    received (call movedFrom f args view).1 = received args ↔
      Keeps movedFrom f args (f.body (received args) view).left := by
  have hget : ∀ i, (received (call movedFrom f args view).1)[i]? = (args[i]?).map fun a =>
      (consume movedFrom f (f.body (received args) view).left i a).value := by
    intro i
    simp [received, call, List.getElem?_mapIdx, Function.comp_def]
  have hiff : ∀ i a, (consume movedFrom f (f.body (received args) view).left i a).value = a.value ↔
      (a.category = .rvalue → (f.parameter i = .byValue → movedFrom a.value = a.value) ∧
        (f.parameter i = .byReference → (f.body (received args) view).left i = a.value)) := by
    intro i a
    obtain ⟨category, value⟩ := a
    cases category <;> cases hp : f.parameter i <;> simp [consume, hp]
  constructor
  · intro h i a ha
    have hi := hget i
    rw [h, ha, Option.map_some, received, List.getElem?_map, ha, Option.map_some,
      Option.some_inj] at hi
    exact (hiff i a).mp hi.symm
  · intro h
    refine List.ext_getElem? fun i => ?_
    rw [hget, received, List.getElem?_map]
    cases ha : args[i]? with
    | none => rfl
    | some a => exact congrArg some ((hiff i a).mpr (h i a ha))

/-- A call does not change how its arguments were passed. -/
theorem call_category {view : σ} :
    (call movedFrom f args view).1.map (·.category) = args.map (·.category) := by
  refine List.ext_getElem? fun i => ?_
  simp only [call, List.getElem?_map, List.getElem?_mapIdx]
  cases args[i]? with
  | none => rfl
  | some a =>
    obtain ⟨category, value⟩ := a
    cases category <;> cases hp : f.parameter i <;> simp [consume, hp]

/-- An argument list is its categories and its values. -/
theorem args_ext {xs ys : List (Argument V)} (hc : xs.map (·.category) = ys.map (·.category))
    (hv : received xs = received ys) : xs = ys := by
  refine List.ext_getElem? fun i => ?_
  have hci := congrArg (fun l => l[i]?) hc
  have hvi := congrArg (fun l => l[i]?) hv
  simp only [received, List.getElem?_map] at hci hvi
  cases hx : xs[i]? with
  | none =>
    rw [hx] at hci
    cases hy : ys[i]? with
    | none => rfl
    | some y => rw [hy] at hci; cases hci
  | some x =>
    rw [hx] at hci hvi
    cases hy : ys[i]? with
    | none => rw [hy] at hci; cases hci
    | some y =>
      rw [hy] at hci hvi
      simp only [Option.map_some, Option.some_inj] at hci hvi
      obtain ⟨cx, vx⟩ := x
      obtain ⟨cy, vy⟩ := y
      cases hci
      cases hvi
      rfl

/-- **With calls that keep their arguments the loop never changes them.** -/
theorem slowPath_keeps
    (h : ∀ view, MayFail kind (f.body (received args) view).ending →
      Keeps movedFrom f args (f.body (received args) view).left) :
    ∀ {ps : List (Pass σ)} {args'}, slowPath movedFrom kind f args ps = .looping args' →
      args' = args := by
  intro ps
  induction ps with
  | nil =>
    intro args' hl
    cases hl
    rfl
  | cons p ps ih =>
    intro args' hl
    obtain ⟨hf, hgo⟩ := slowPath_cons_looping hl
    have hsame : (call movedFrom f args p.view).1 = args :=
      args_ext call_category (call_keeps.mpr (h p.view hf))
    rw [hsame] at hgo
    exact ih hgo

/-- **When retrying is transparent to the arguments**: exactly if every execution on the arguments
    as they were passed that can fail, by `tx_retry` or at its commit, leaves each rvalue argument
    with the value it had. -/
theorem transparent_iff :
    Transparent movedFrom kind f args ↔
      ∀ view, MayFail kind (f.body (received args) view).ending →
        Keeps movedFrom f args (f.body (received args) view).left := by
  constructor
  · intro h view hf
    have hl : slowPath movedFrom kind f args [⟨view, true⟩] =
        .looping (call movedFrom f args view).1 := slowPath_single_looping hf
    exact call_keeps.mp (h.arguments _ _ hl)
  · intro h
    constructor
    · intro ps args' hl
      rw [slowPath_keeps h hl]
    · intro ps args' p result writes hl
      rw [slowPath_append hl, slowPath_keeps h hl]

/-! ## 4. A pointer passed by rvalue -/

/-- `[](std::unique_ptr<T> p) { v.set(tx, p ? *p : 0); return p ? *p : 0; }`. -/
def takesPointer : Callable (Option Nat) Unit Unit Nat Nat where
  parameter := fun _ => .byValue
  body := fun received _ =>
    let n := ((received.head?.getD none).getD 0)
    ⟨fun _ => none, .returned n [((), n)]⟩

/-- After one failed commit the callable gets the null pointer the first pass left. -/
theorem takesPointer_retried :
    ¬ Transparent (fun _ => none) .readWrite takesPointer [⟨.rvalue, some 7⟩] := by
  intro h
  have hl := h.arguments [⟨(), true⟩] [⟨.rvalue, none⟩] rfl
  exact absurd hl (by decide)

end Forwarding

end LockfreeStm
