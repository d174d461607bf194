/-
  File:      LockfreeStm/FailCallbacks.lean
  Subject:   Fail callbacks that run `atomic`: the state `do_fail_callbacks` runs them in, and the
             path `operator()` of `read_write` and `read_only` takes there.

  `tx_failure_no_backoff` runs the callbacks after `access_unlock` and after it has cleared the
  sets, but with `tx_state` still read_write; `tx_success` resets it first. An `atomic` in a
  callback is therefore taken for a nested call, and its transaction gets the announced epoch,
  off_state, as its version. Other threads stand still while the callbacks run.

  * `exec_keeps` -- a body leaves `tx_state`, the announced epoch and the history alone;
  * `perform_nested` -- under a failing transaction every call of a callback is a nested one;
  * **`cleanUp_iff`** -- a failure's callbacks run as transactions of their own only where none of
    them calls `atomic`.
-/
import LockfreeStm.AtomicBase
import LockfreeStm.CommitAlgorithm

namespace LockfreeStm

namespace FailCallbacks

open AtomicBase

/-! ## 1. Callbacks, bodies, memory -/

/-- A fail callback: the destruction of a var's new object, or another one. -/
inductive Callback (α : Type) where
  | destroyDeallocate (s : VarStorage α)
  | other (id : Nat)
deriving DecidableEq

/-- The body of a read_write call. -/
inductive Body (ν α : Type) where
  | ret
  /-- `lstm::retry` -/
  | retry
  /-- an exception -/
  | throw
  | get (v : ν) (next : α → Body ν α)
  | set (v : ν) (x : α) (next : Body ν α)
  | afterFail (c : Callback α) (next : Body ν α)
  | sometimeSynchronizedAfter (c : Callback α) (next : Body ν α)
  /-- a nested call of `atomic` -/
  | atomic (inner next : Body ν α)

/-- A call of `atomic` in a callback: of `read_write` with a body, or of `read_only` with a callable
    that reads these vars. -/
inductive AtomicCall (ν α : Type) where
  | readWrite (body : Body ν α)
  | readOnly (vars : List ν)

/-- How a call was made: by the loop of `slow_path` or nested in a transaction, with which version,
    and what the clock was. -/
structure CallRecord where
  topLevel : Bool
  version : Epoch
  clock : Epoch
deriving DecidableEq

/-- Memory: the clock, the vars and their heap objects. As history, what was destroyed and how the
    callbacks' calls were made. An exception that leaves a callback terminates the program. -/
structure Env (ν α : Type) where
  clock : Epoch
  vars : ν → VarBase α
  cells : Ptr → α
  nextPtr : Ptr
  destroyed : List (VarStorage α)
  calls : List CallRecord
  terminated : Bool

/-- A thread over memory. -/
abbrev State (ν α : Type) := World ν α (Callback α) (Env ν α)

/-- What is fixed: which vars are heap vars, the hash, and which calls of `atomic` a callback
    makes (the destructors it runs included). -/
structure Program (ν α : Type) where
  varType : ν → VarType
  hash : ν → Hash
  code : Callback α → List (AtomicCall ν α)

/-- How a body ends. -/
inductive BodyEnd where
  | returned
  | txRetry
  | exception
deriving DecidableEq

/-- How a call ends; `looping` when no passes are left to it. -/
inductive CallEnd where
  | returned
  | threw
  | looping
deriving DecidableEq

variable {ν α : Type} [DecidableEq ν]

/-! ## 2. transaction_base.hpp -/

namespace State

/-- The value in a storage. -/
def load (w : State ν α) : VarStorage α → α
  | .ptr p => w.env.cells p
  | .raw x => x

/-- `rw_valid`. -/
def rwValid (w : State ν α) (version : Epoch) (v : ν) : Bool :=
  decide ((w.env.vars v).versionLock ≤ version)

/-- `rw_read`: the pending write, or what the var holds; `none` is `internal_retry`. -/
def rwRead (prog : Program ν α) (version : Epoch) (v : ν) (w : State ν α) :
    State ν α × Option α :=
  match w.td.writeSet.find prog.hash v with
  | some i =>
    if w.rwValid version v then (w, (w.td.writeSet.entries[i]?).map fun e => w.load e.pendingWrite)
    else (w, none)
  | none =>
    if w.rwValid version v then
      (w.onTd fun td => { td with readSet := td.readSet.emplaceBack v },
        some (w.load (w.env.vars v).storage))
    else (w, none)

/-- `rw_write` of an atomic var; `false` is `internal_retry`. -/
def rwAtomicWrite (prog : Program ν α) (version : Epoch) (v : ν) (x : α) (w : State ν α) :
    State ν α × Bool :=
  match w.td.writeSet.lookup prog.hash v with
  | .hash h =>
    (w.onTd fun td => { td with writeSet := td.writeSet.pushBack v (.raw x) h },
      w.rwValid version v)
  | .pendingWrite i =>
    (w.onTd fun td => { td with writeSet := td.writeSet.setPending i (.raw x) },
      w.rwValid version v)

/-- `rw_write` of a heap var. -/
def rwHeapWrite (prog : Program ν α) (version : Epoch) (v : ν) (x : α) (w : State ν α) :
    State ν α × Bool :=
  match w.td.writeSet.lookup prog.hash v with
  | .hash h =>
    if w.rwValid version v then
      let newStorage := VarStorage.ptr w.env.nextPtr
      let curStorage := (w.env.vars v).storage
      (⟨((({ w.td with writeSet := w.td.writeSet.pushBack v newStorage h } :
            TlsData ν α (Callback α)).sometimeSynchronizedAfter
              (.destroyDeallocate curStorage)).afterFail (.destroyDeallocate newStorage)),
        { w.env with
          cells := Function.update w.env.cells w.env.nextPtr x
          nextPtr := w.env.nextPtr + 1 }⟩, true)
    else (w, false)
  | .pendingWrite i =>
    if w.rwValid version v then
      match w.td.writeSet.entries[i]? with
      | some ⟨_, .ptr p⟩ =>
        ({ w with env := { w.env with cells := Function.update w.env.cells p x } }, true)
      | _ => (w, true)
    else (w, false)

/-- `rw_write`. -/
def rwWrite (prog : Program ν α) (version : Epoch) (v : ν) (x : α) (w : State ν α) :
    State ν α × Bool :=
  match prog.varType v with
  | .atomic => w.rwAtomicWrite prog version v x
  | .heap => w.rwHeapWrite prog version v x

/-- `ro_read` without thread_data. -/
def roRead (version : Epoch) (v : ν) (w : State ν α) : Option α :=
  if w.rwValid version v then some (w.load (w.env.vars v).storage) else none

/-- `try_commit`: the sync epoch, and the memory and the sets it leaves. -/
def tryCommit (prog : Program ν α) (version : Epoch) (w : State ν α) : Epoch × State ν α :=
  let (syncEpoch, s) :=
    CommitState.tryCommit prog.hash version ⟨w.env.clock, w.env.vars, w.td.readSet, w.td.writeSet⟩
  (syncEpoch, ⟨{ w.td with readSet := s.readSet, writeSet := s.writeSet },
    { w.env with clock := s.clock, vars := s.vars }⟩)

/-- History: a call was made. -/
def note (topLevel : Bool) (version : Epoch) (w : State ν α) : State ν α :=
  { w with env := { w.env with calls := w.env.calls ++ [⟨topLevel, version, w.env.clock⟩] } }

end State

open State

/-- A body, with a transaction of this version. -/
def exec (prog : Program ν α) (version : Epoch) : Body ν α → State ν α → State ν α × BodyEnd
  | .ret, w => (w, .returned)
  | .retry, w => (w, .txRetry)
  | .throw, w => (w, .exception)
  | .get v next, w =>
    match rwRead prog version v w with
    | (w, some x) => exec prog version (next x) w
    | (w, none) => (w, .txRetry)
  | .set v x next, w =>
    match rwWrite prog version v x w with
    | (w, true) => exec prog version next w
    | (w, false) => (w, .txRetry)
  | .afterFail c next, w => exec prog version next (w.onTd fun td => td.afterFail c)
  | .sometimeSynchronizedAfter c next, w =>
    exec prog version next (w.onTd fun td => td.sometimeSynchronizedAfter c)
  | .atomic inner next, w =>
    match exec prog w.td.active inner w with
    | (w, .returned) => exec prog version next w
    | (w, e) => (w, e)

/-- The reads of a read_only callable nested in a read_write transaction. -/
def readAll (prog : Program ν α) (version : Epoch) : List ν → State ν α → State ν α × BodyEnd
  | [], w => (w, .returned)
  | v :: vs, w =>
    match rwRead prog version v w with
    | (w, some _) => readAll prog version vs w
    | (w, none) => (w, .txRetry)

/-! ## 3. read_write.hpp and read_only.hpp -/

/-- `slow_path` of `read_write`, for a number of passes. -/
def readWriteSlowPath (prog : Program ν α) (perform : Callback α → State ν α → State ν α)
    (body : Body ν α) : Nat → State ν α → State ν α × CallEnd
  | 0, w => (w, .looping)
  | n + 1, w =>
    let version := w.env.clock
    match exec prog version body ((w.note true version).onTd fun td => td.accessLock version) with
    | (w, .returned) =>
      match tryCommit prog version w with
      | (syncEpoch, w) =>
        if syncEpoch ≠ commitFailed then (w.txSuccess .readWrite, .returned)
        else readWriteSlowPath prog perform body n (w.txFailure perform .readWrite)
    | (w, .txRetry) => readWriteSlowPath prog perform body n (w.txFailure perform .readWrite)
    | (w, .exception) => (w.unhandledException perform .readWrite, .threw)

/-- `slow_path` of `read_only`. -/
def readOnlySlowPath (perform : Callback α → State ν α → State ν α) (vars : List ν) :
    Nat → State ν α → State ν α × CallEnd
  | 0, w => (w, .looping)
  | n + 1, w =>
    let version := w.env.clock
    let w := (w.note true version).onTd fun td => td.accessLock version
    if vars.all fun v => (roRead version v w).isSome then (w.txSuccess .readOnly, .returned)
    else readOnlySlowPath perform vars n (w.txFailure perform .readOnly)

/-- How a nested call ends. -/
def nestedEnd : State ν α × BodyEnd → State ν α × CallEnd
  | (w, .returned) => (w, .returned)
  | (w, _) => (w, .threw)

/-- `operator()` of `read_write` and of `read_only`. -/
def runAtomic (prog : Program ν α) (perform : Callback α → State ν α → State ν α) (passes : Nat)
    (call : AtomicCall ν α) (w : State ν α) : State ν α × CallEnd :=
  match call with
  | .readWrite body =>
    if w.td.inTransaction then
      nestedEnd (exec prog w.td.active body (w.note false w.td.active))
    else readWriteSlowPath prog perform body passes (w.onTd fun td => td.setTxState .readWrite)
  | .readOnly vars =>
    match w.td.txState with
    | .readOnly =>
      if vars.all fun v => (roRead w.td.active v w).isSome then
        (w.note false w.td.active, .returned)
      else (w.note false w.td.active, .threw)
    | .readWrite => nestedEnd (readAll prog w.td.active vars (w.note false w.td.active))
    | .none => readOnlySlowPath perform vars passes (w.onTd fun td => td.setTxState .readOnly)

/-- The calls a callback makes; it is noexcept. -/
def runCalls (prog : Program ν α) (perform : Callback α → State ν α → State ν α) (passes : Nat) :
    List (AtomicCall ν α) → State ν α → State ν α
  | [], w => w
  | call :: calls, w =>
    match runAtomic prog perform passes call w with
    | (w, .returned) => runCalls prog perform passes calls w
    | (w, _) => { w with env := { w.env with terminated := true } }

/-- What a callback destroys. -/
def destroy (c : Callback α) (w : State ν α) : State ν α :=
  match c with
  | .destroyDeallocate s => { w with env := { w.env with destroyed := s :: w.env.destroyed } }
  | .other _ => w

/-- Running a callback, with calls in it nested `depth` deep. -/
def perform (prog : Program ν α) (passes : Nat) : Nat → Callback α → State ν α → State ν α
  | 0, _, w => w
  | depth + 1, c, w =>
    if w.env.terminated then w
    else destroy c (runCalls prog (perform prog passes depth) passes (prog.code c) w)

/-! ## 4. What a failing transaction's callbacks run -/

/-- What a body leaves alone. -/
structure Keeps (w w' : State ν α) : Prop where
  txState : w'.td.txState = w.td.txState
  active : w'.td.active = w.td.active
  calls : w'.env.calls = w.env.calls
  terminated : w'.env.terminated = w.env.terminated

omit [DecidableEq ν] in
theorem Keeps.refl (w : State ν α) : Keeps w w := ⟨rfl, rfl, rfl, rfl⟩

omit [DecidableEq ν] in
theorem Keeps.trans {w₁ w₂ w₃ : State ν α} (h : Keeps w₁ w₂) (h' : Keeps w₂ w₃) : Keeps w₁ w₃ :=
  ⟨h'.txState.trans h.txState, h'.active.trans h.active, h'.calls.trans h.calls,
    h'.terminated.trans h.terminated⟩

section

variable (prog : Program ν α) (version : Epoch)

theorem rwRead_keeps (v : ν) (w : State ν α) : Keeps w (rwRead prog version v w).1 := by
  unfold rwRead
  split
  · split <;> exact .refl w
  · split
    · exact ⟨rfl, rfl, rfl, rfl⟩
    · exact .refl w

theorem rwWrite_keeps (v : ν) (x : α) (w : State ν α) : Keeps w (rwWrite prog version v x w).1 := by
  unfold rwWrite
  split
  · unfold rwAtomicWrite
    split <;> exact ⟨rfl, rfl, rfl, rfl⟩
  · unfold rwHeapWrite
    split
    · split
      · exact ⟨rfl, rfl, rfl, rfl⟩
      · exact .refl w
    · split
      · split
        · exact ⟨rfl, rfl, rfl, rfl⟩
        · exact .refl w
      · exact .refl w

/-- **A body leaves `tx_state`, the announced epoch and the history alone.** -/
theorem exec_keeps (body : Body ν α) (w : State ν α) : Keeps w (exec prog version body w).1 := by
  induction body generalizing version w with
  | ret => exact .refl w
  | retry => exact .refl w
  | throw => exact .refl w
  | get v next ih =>
    unfold exec
    have hr := rwRead_keeps prog version v w
    generalize rwRead prog version v w = r at hr ⊢
    obtain ⟨w', r⟩ := r
    cases r with
    | none => exact hr
    | some x => exact hr.trans (ih x version w')
  | set v x next ih =>
    unfold exec
    have hr := rwWrite_keeps prog version v x w
    generalize rwWrite prog version v x w = r at hr ⊢
    obtain ⟨w', r⟩ := r
    cases r with
    | false => exact hr
    | true => exact hr.trans (ih version w')
  | afterFail c next ih =>
    unfold exec
    have hr : Keeps w (w.onTd fun td => td.afterFail c) := ⟨rfl, rfl, rfl, rfl⟩
    exact hr.trans (ih version _)
  | sometimeSynchronizedAfter c next ih =>
    unfold exec
    have hr : Keeps w (w.onTd fun td => td.sometimeSynchronizedAfter c) := ⟨rfl, rfl, rfl, rfl⟩
    exact hr.trans (ih version _)
  | atomic inner next ihi ihn =>
    unfold exec
    have hr := ihi w.td.active w
    generalize exec prog w.td.active inner w = r at hr ⊢
    obtain ⟨w', e⟩ := r
    cases e with
    | returned => exact hr.trans (ihn version w')
    | txRetry => exact hr
    | exception => exact hr

theorem readAll_keeps (vs : List ν) (w : State ν α) :
    Keeps w (readAll prog version vs w).1 := by
  induction vs generalizing w with
  | nil => exact .refl w
  | cons v vs ih =>
    unfold readAll
    have hr := rwRead_keeps prog version v w
    generalize rwRead prog version v w = r at hr ⊢
    obtain ⟨w', r⟩ := r
    cases r with
    | none => exact hr
    | some x => exact hr.trans (ih w')

end

/-- The thread is failing: in no critical section, but its `tx_state` says read_write. -/
def Failing (w : State ν α) : Prop := w.td.txState = .readWrite ∧ w.td.active = offState

/-- The calls made since then were nested ones under off_state, at least one of them if `some`. -/
structure NestedCalls (some : Prop) (w w' : State ν α) : Prop where
  failing : Failing w'
  calls : ∃ new, w'.env.calls = w.env.calls ++ new ∧
    (∀ r ∈ new, r.topLevel = false ∧ r.version = offState) ∧ (some → new ≠ [])

section

variable {prog : Program ν α} {run : Callback α → State ν α → State ν α} {passes : Nat}
  {w : State ν α}

omit [DecidableEq ν] in
theorem NestedCalls.of_keeps {some : Prop} {w' : State ν α} (hw : Failing w)
    (h : Keeps (w.note false w.td.active) w') : NestedCalls some w w' where
  failing := ⟨h.txState.trans hw.1, h.active.trans hw.2⟩
  calls := by
    refine ⟨[⟨false, w.td.active, w.env.clock⟩], h.calls, ?_, fun _ => List.cons_ne_nil _ _⟩
    intro r hr
    rw [List.mem_singleton.mp hr]
    exact ⟨rfl, hw.2⟩

omit [DecidableEq ν] in
theorem nestedEnd_fst (r : State ν α × BodyEnd) : (nestedEnd r).1 = r.1 := by
  obtain ⟨w, e⟩ := r
  cases e <;> rfl

/-- **A call of `atomic` under a failing transaction is a nested one, with version off_state.** -/
theorem runAtomic_nested (prog : Program ν α) (run : Callback α → State ν α → State ν α)
    (passes : Nat) (hw : Failing w) (call : AtomicCall ν α) :
    NestedCalls True w (runAtomic prog run passes call w).1 := by
  cases call with
  | readWrite body =>
    have htx : w.td.inTransaction = true := by
      rw [TlsData.inTransaction, hw.1]
      rfl
    rw [runAtomic, if_pos htx, nestedEnd_fst]
    exact .of_keeps hw (exec_keeps _ _ _ _)
  | readOnly vars =>
    rw [runAtomic]
    split
    · rename_i h
      rw [hw.1] at h
      cases h
    · rw [nestedEnd_fst]
      exact .of_keeps hw (readAll_keeps _ _ _ _)
    · rename_i h
      rw [hw.1] at h
      cases h

omit [DecidableEq ν] in
theorem NestedCalls.trans {p q : Prop} {w₁ w₂ w₃ : State ν α} (h : NestedCalls p w₁ w₂)
    (h' : NestedCalls q w₂ w₃) : NestedCalls (p ∨ q) w₁ w₃ where
  failing := h'.failing
  calls := by
    obtain ⟨new, hnew, hall, hsome⟩ := h.calls
    obtain ⟨new', hnew', hall', hsome'⟩ := h'.calls
    refine ⟨new ++ new', by rw [hnew', hnew, List.append_assoc], ?_, ?_⟩
    · intro r hr
      rcases List.mem_append.mp hr with hr | hr
      · exact hall r hr
      · exact hall' r hr
    · intro hpq hnil
      obtain ⟨h₁, h₂⟩ := List.append_eq_nil_iff.mp hnil
      rcases hpq with hp | hq
      · exact hsome hp h₁
      · exact hsome' hq h₂

omit [DecidableEq ν] in
theorem NestedCalls.mono {p q : Prop} {w₁ w₂ : State ν α} (h : NestedCalls p w₁ w₂)
    (hqp : q → p) : NestedCalls q w₁ w₂ where
  failing := h.failing
  calls := by
    obtain ⟨new, hnew, hall, hsome⟩ := h.calls
    exact ⟨new, hnew, hall, fun hq => hsome (hqp hq)⟩

omit [DecidableEq ν] in
theorem NestedCalls.refl {p : Prop} (hw : Failing w) (hp : ¬ p) : NestedCalls p w w :=
  ⟨hw, [], (List.append_nil _).symm, fun _ hr => (by cases hr), fun h => absurd h hp⟩

theorem runCalls_nested (prog : Program ν α) (run : Callback α → State ν α → State ν α)
    (passes : Nat) (hw : Failing w) (calls : List (AtomicCall ν α)) :
    NestedCalls (calls ≠ []) w (runCalls prog run passes calls w) := by
  induction calls generalizing w with
  | nil => exact .refl hw fun h => h rfl
  | cons call calls ih =>
    unfold runCalls
    have hr := runAtomic_nested prog run passes hw call
    generalize runAtomic prog run passes call w = r at hr ⊢
    obtain ⟨w', e⟩ := r
    cases e with
    | returned => exact (hr.trans (ih hr.failing)).mono fun _ => .inl trivial
    | threw => exact ⟨hr.failing, hr.mono (fun _ => trivial) |>.calls⟩
    | looping => exact ⟨hr.failing, hr.mono (fun _ => trivial) |>.calls⟩

omit [DecidableEq ν] in
theorem destroy_keeps (c : Callback α) (w : State ν α) : Keeps w (destroy c w) := by
  cases c <;> exact ⟨rfl, rfl, rfl, rfl⟩

/-- **Under a failing transaction every call of a callback is a nested one.** -/
theorem perform_nested (prog : Program ν α) (passes depth : Nat) (hw : Failing w)
    (c : Callback α) :
    NestedCalls (w.env.terminated = false ∧ prog.code c ≠ []) w
      (perform prog passes (depth + 1) c w) := by
  unfold perform
  split
  · rename_i h
    exact .refl hw fun h' => by
      rw [h] at h'
      cases h'.1
  · have hr := runCalls_nested prog (perform prog passes depth) passes hw (prog.code c)
    have hd := destroy_keeps c (runCalls prog (perform prog passes depth) passes (prog.code c) w)
    refine ⟨⟨hd.txState.trans hr.failing.1, hd.active.trans hr.failing.2⟩, ?_⟩
    obtain ⟨new, hnew, hall, hsome⟩ := hr.calls
    exact ⟨new, hd.calls.trans hnew, hall, fun h => hsome h.2⟩

/-- A callback without calls only destroys. -/
theorem perform_of_code_nil {depth : Nat} {c : Callback α} (hr : w.env.terminated = false)
    (hc : prog.code c = []) : perform prog passes (depth + 1) c w = destroy c w := by
  rw [perform, hr, hc]
  rfl

theorem foldl_perform_nested (prog : Program ν α) (passes depth : Nat) (hw : Failing w)
    (hr : w.env.terminated = false) (cs : List (Callback α)) :
    NestedCalls (∃ c ∈ cs, prog.code c ≠ []) w
      (cs.foldl (fun w c => perform prog passes (depth + 1) c w) w) := by
  -- once a callback has made a call, the others may run or not
  have hany : ∀ (cs : List (Callback α)) {w : State ν α}, Failing w → NestedCalls False w
      (cs.foldl (fun w c => perform prog passes (depth + 1) c w) w) := by
    intro cs
    induction cs with
    | nil => exact fun hw => .refl hw id
    | cons c cs ih =>
      intro w hw
      have hp := perform_nested prog passes depth hw c
      exact (hp.trans (ih hp.failing)).mono False.elim
  induction cs generalizing w with
  | nil => exact .refl hw fun ⟨c, hc, _⟩ => by cases hc
  | cons c cs ih =>
    rw [List.foldl_cons]
    by_cases hc : prog.code c = []
    · rw [perform_of_code_nil hr hc]
      have hd := destroy_keeps c w
      have hw' : Failing (destroy c w) := ⟨hd.txState.trans hw.1, hd.active.trans hw.2⟩
      have hrest := ih hw' (hd.terminated.trans hr)
      refine ⟨hrest.failing, ?_⟩
      obtain ⟨new, hnew, hall, hsome⟩ := hrest.calls
      refine ⟨new, by rw [hnew, hd.calls], hall, fun ⟨d, hd, hdc⟩ => ?_⟩
      rcases List.mem_cons.mp hd with rfl | hd
      · exact absurd hc hdc
      · exact hsome ⟨d, hd, hdc⟩
    · have hp := perform_nested prog passes depth hw c
      exact (hp.trans (hany cs hp.failing)).mono fun _ => .inl ⟨hr, hc⟩

theorem foldl_perform_of_code_nil (passes depth : Nat) {cs : List (Callback α)}
    (hr : w.env.terminated = false) (hc : ∀ c ∈ cs, prog.code c = []) :
    (cs.foldl (fun w c => perform prog passes (depth + 1) c w) w).td = w.td ∧
      (cs.foldl (fun w c => perform prog passes (depth + 1) c w) w).env.calls = w.env.calls := by
  induction cs generalizing w with
  | nil => exact ⟨rfl, rfl⟩
  | cons c cs ih =>
    rw [List.foldl_cons, perform_of_code_nil hr (hc c List.mem_cons_self)]
    have hd := destroy_keeps c w
    obtain ⟨htd, hcalls⟩ := ih (hd.terminated.trans hr) fun d hd => hc d (List.mem_cons_of_mem _ hd)
    refine ⟨htd.trans ?_, hcalls.trans hd.calls⟩
    cases c <;> rfl

end

/-! ## 5. Cleaning up -/

/-- **The callbacks of the failure that led from `w` to `w'` have run as transactions of their
    own**, and nothing of them is left in the thread_data. -/
structure CleansUp (w w' : State ν α) : Prop where
  /-- each call was a top-level one with a version read from the clock -/
  calls : ∀ r ∈ w'.env.calls.drop w.env.calls.length,
    r.topLevel = true ∧ r.version = r.clock ∧ r.version ≠ offState
  /-- no write of theirs is carried into the next attempt -/
  writeSet : w'.td.writeSet.entries = []
  start : w'.td.validStartState = true

/-- **When a failure's callbacks run as transactions of their own**: exactly if none of them calls
    `atomic`. Of a callback that does, the call is nested in the failed transaction. -/
theorem cleanUp_iff {prog : Program ν α} {passes depth : Nat} {e : World.PassEnd} {w : State ν α}
    (hw : w.td.txState = .readWrite) (hr : w.env.terminated = false) (he : e ≠ .committed) :
    CleansUp w (w.finish (perform prog passes (depth + 1)) .readWrite e) ↔
      ∀ c ∈ w.td.failCallbacks, prog.code c = [] := by
  let w₁ : State ν α := ((w.onTd .accessUnlock).onTd .clearReadWriteSets).onTd .clearWorkingEpoch
  let cs := w.td.failCallbacks.reverse
  let w₂ := cs.foldl (fun w c => perform prog passes (depth + 1) c w) w₁
  have hw₁ : Failing w₁ := ⟨hw, rfl⟩
  have hfinish : CleansUp w (w.finish (perform prog passes (depth + 1)) .readWrite e) ↔
      CleansUp w (w₂.onTd fun td => { td with failCallbacks := [] }) := by
    cases e with
    | committed => exact absurd rfl he
    | commitFailed => exact Iff.rfl
    | txRetry => exact Iff.rfl
    | exception =>
      exact ⟨fun h => ⟨h.calls, h.writeSet, h.start⟩, fun h => ⟨h.calls, h.writeSet, h.start⟩⟩
  rw [hfinish]
  constructor
  · intro h c hc
    by_contra hcode
    obtain ⟨-, new, hnew, hall, hsome⟩ := foldl_perform_nested prog passes depth hw₁ hr cs
    have hne : new ≠ [] := hsome ⟨c, List.mem_reverse.mpr hc, hcode⟩
    obtain ⟨r, hrn⟩ := List.exists_mem_of_ne_nil new hne
    have hcalls : w₂.env.calls = w.env.calls ++ new := hnew
    have hdrop : r ∈ w₂.env.calls.drop w.env.calls.length := by
      rw [hcalls, List.drop_left]
      exact hrn
    have htop := (h.calls r hdrop).1
    rw [(hall r hrn).1] at htop
    cases htop
  · intro h
    obtain ⟨htd, hcalls⟩ := foldl_perform_of_code_nil passes depth (w := w₁) hr
      fun c hc => h c (List.mem_reverse.mp hc)
    have hcalls : w₂.env.calls = w.env.calls := hcalls
    have htd : w₂.td = w₁.td := htd
    refine ⟨fun r hrm => ?_, ?_, ?_⟩
    · have hrm : r ∈ w₂.env.calls.drop w.env.calls.length := hrm
      rw [hcalls, List.drop_length] at hrm
      cases hrm
    · show w₂.td.writeSet.entries = []
      rw [htd]
      rfl
    · have hvalid : (w₂.onTd fun td => { td with failCallbacks := [] }).td =
          { w₁.td with failCallbacks := [] } := by rw [World.onTd, htd]
      rw [hvalid]
      rfl

/-! ## 6. A destructor that sets a var -/

/-- The fail callback 0 destroys an object whose destructor sets var 0 to 7 atomically. -/
def destructorSets : Program Nat Nat where
  varType := fun _ => .atomic
  hash := fun _ => 1#64
  code := fun
    | .other 0 => [.readWrite (.set 0 7 .ret)]
    | _ => []

/-- A read_write attempt that has registered this callback. -/
def attempt (c : Callback Nat) : State Nat Nat where
  td := { TlsData.init with failCallbacks := [c], txState := .readWrite, active := 3 }
  env := ⟨3, fun _ => ⟨0, .raw 0⟩, fun _ => 0, 0, [], [], false⟩

/-- The destruction of an object whose destructor runs no transaction. -/
theorem cleanUp_iff_plain :
    CleansUp (attempt (.other 1)) ((attempt (.other 1)).finish (perform destructorSets 1 1)
      .readWrite .txRetry) ↔ ∀ c ∈ [Callback.other 1], destructorSets.code c = [] :=
  cleanUp_iff rfl rfl (by decide)

/-- The set of the destructor runs under off_state, and its write is left for the next attempt. -/
theorem destructor_carries :
    ¬ CleansUp (attempt (.other 0)) ((attempt (.other 0)).finish (perform destructorSets 1 1)
      .readWrite .txRetry) ∧
      ((attempt (.other 0)).finish (perform destructorSets 1 1) .readWrite .txRetry).env.calls =
        [⟨false, offState, 3⟩] ∧
      ((attempt (.other 0)).finish (perform destructorSets 1 1)
        .readWrite .txRetry).td.writeSet.vars = [0] := by
  refine ⟨fun h => ?_, by decide, by decide⟩
  exact absurd h.start (by decide)

end FailCallbacks

end LockfreeStm
