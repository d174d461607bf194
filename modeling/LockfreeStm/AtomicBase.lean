/-
  File:      LockfreeStm/AtomicBase.lean
  Subject:   `atomic_base_fn` (detail/atomic_base.hpp) for callbacks that do something: how one
             thread's attempts begin and end in a build with NDEBUG.

  Machine/Step.lean has the same functions cut at their atomic accesses; there a callback does
  nothing but destroy an object. Here a callback is a value of any type and `perform` says what
  running it does to the thread's `thread_data` and to everything else, `env`. The assertions are
  compiled out.
-/
import LockfreeStm.Machine.State

namespace LockfreeStm

namespace AtomicBase

/-- `thread_data`, as far as atomic_base.hpp and memory.hpp look at it. -/
structure TlsData (ν α γ : Type) where
  readSet : PodVector ν
  writeSet : PodHashSet ν (VarStorage α)
  failCallbacks : List γ
  /-- the working epoch of `succ_callbacks` -/
  workingEpoch : List γ
  txState : TxKind
  /-- `synchronization_node.active` -/
  active : Epoch

/-- A thread's `thread_data` and what its callbacks act on. -/
structure World (ν α γ ρ : Type) where
  td : TlsData ν α γ
  env : ρ

variable {ν α γ ρ : Type}

namespace TlsData

/-- A new thread. -/
def init : TlsData ν α γ := ⟨.empty, .empty, [], [], .none, offState⟩

/-- `in_transaction`. -/
def inTransaction (td : TlsData ν α γ) : Bool := td.txState != .none

/-- `in_critical_section`. -/
def inCriticalSection (td : TlsData ν α γ) : Bool := td.active != offState

/-- `valid_start_state`. -/
def validStartState (td : TlsData ν α γ) : Bool :=
  td.readSet.data.isEmpty && td.writeSet.entries.isEmpty && td.failCallbacks.isEmpty &&
    td.workingEpoch.isEmpty

/-- `access_lock`. -/
def accessLock (td : TlsData ν α γ) (epoch : Epoch) : TlsData ν α γ := { td with active := epoch }

/-- `access_unlock`. -/
def accessUnlock (td : TlsData ν α γ) : TlsData ν α γ := { td with active := offState }

/-- `clear_read_write_sets`. -/
def clearReadWriteSets (td : TlsData ν α γ) : TlsData ν α γ :=
  { td with readSet := td.readSet.clear, writeSet := td.writeSet.clear }

/-- `succ_callbacks.clear_working_epoch()`. -/
def clearWorkingEpoch (td : TlsData ν α γ) : TlsData ν α γ := { td with workingEpoch := [] }

/-- `after_fail`. -/
def afterFail (td : TlsData ν α γ) (c : γ) : TlsData ν α γ :=
  { td with failCallbacks := td.failCallbacks ++ [c] }

/-- `sometime_synchronized_after`. -/
def sometimeSynchronizedAfter (td : TlsData ν α γ) (c : γ) : TlsData ν α γ :=
  { td with workingEpoch := td.workingEpoch ++ [c] }

/-- `set_rw` and `set_read`. -/
def setTxState (td : TlsData ν α γ) (kind : TxKind) : TlsData ν α γ := { td with txState := kind }

end TlsData

namespace World

/-- A change of the thread_data. -/
def onTd (w : World ν α γ ρ) (f : TlsData ν α γ → TlsData ν α γ) : World ν α γ ρ :=
  { w with td := f w.td }

/-- `do_fail_callbacks`: those there are when it is entered, from the last one to the first, and then
    the list is cleared. -/
def doFailCallbacks (perform : γ → World ν α γ ρ → World ν α γ ρ) (w : World ν α γ ρ) :
    World ν α γ ρ :=
  (w.td.failCallbacks.reverse.foldl (fun w c => perform c w) w).onTd fun td =>
    { td with failCallbacks := [] }

/-- `tx_failure_no_backoff<kind>`. -/
def txFailureNoBackoff (perform : γ → World ν α γ ρ → World ν α γ ρ) (kind : TxKind)
    (w : World ν α γ ρ) : World ν α γ ρ :=
  let w := w.onTd .accessUnlock
  if kind ≠ .readOnly then
    ((w.onTd .clearReadWriteSets).onTd .clearWorkingEpoch).doFailCallbacks perform
  else w

/-- `tx_failure<kind>`; the backoff only waits. -/
def txFailure (perform : γ → World ν α γ ρ → World ν α γ ρ) (kind : TxKind) (w : World ν α γ ρ) :
    World ν α γ ρ := w.txFailureNoBackoff perform kind

/-- `unhandled_exception<kind>`, up to its `throw`. -/
def unhandledException (perform : γ → World ν α γ ρ → World ν α γ ρ) (kind : TxKind)
    (w : World ν α γ ρ) : World ν α γ ρ :=
  (w.txFailureNoBackoff perform kind).onTd fun td => td.setTxState .none

/-- `tx_success<kind>`: `reclaim` takes over the working epoch. -/
def txSuccess (kind : TxKind) (w : World ν α γ ρ) : World ν α γ ρ :=
  let w := w.onTd fun td => td.accessUnlock.setTxState .none
  if kind ≠ .readOnly then
    w.onTd fun td => { td.clearReadWriteSets with failCallbacks := [], workingEpoch := [] }
  else w

/-- How a pass through the loop of `slow_path` ends. -/
inductive PassEnd where
  /-- the callable returned and, in a read_write transaction, `try_commit` succeeded -/
  | committed
  /-- the callable returned and `try_commit` failed -/
  | commitFailed
  /-- `tx_retry` was thrown -/
  | txRetry
  /-- another exception was thrown -/
  | exception
deriving DecidableEq

/-- What the loop does once its `try` block is over. -/
def finish (perform : γ → World ν α γ ρ → World ν α γ ρ) (kind : TxKind) (e : PassEnd)
    (w : World ν α γ ρ) : World ν α γ ρ :=
  match e with
  | .committed => w.txSuccess kind
  | .commitFailed => w.txFailure perform kind
  | .txRetry => w.txFailure perform kind
  | .exception => w.unhandledException perform kind

/-- One pass of the loop. -/
def pass (perform : γ → World ν α γ ρ → World ν α γ ρ) (kind : TxKind) (version : Epoch)
    (body : World ν α γ ρ → World ν α γ ρ) (e : PassEnd) (w : World ν α γ ρ) : World ν α γ ρ :=
  (body (w.onTd fun td => td.accessLock version)).finish perform kind e

end World

end AtomicBase

end LockfreeStm
