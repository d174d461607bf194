/-
  File:      LockfreeStm/Machine/State.lean
  Subject:   THE STATES OF THE MACHINE: shared memory, the threads' `thread_data`, and where each
             thread stands in the library's code.

  The machine interleaves threads that run `lstm::read_write` and `lstm::read_only` calls on a set
  of vars; every atomic access is one step of a sequentially consistent interleaving. What the
  threads share is the clock, the vars (`version_lock` and `storage`), the announced epoch
  (`active`) of every thread, and the heap objects the heap-stored vars point to. What a thread has
  for itself is its `thread_data` (read set, write set, both callback lists), the local variables of
  the call it is in, and its program counter `PC`, one constructor for each place of the source
  where the next step is an atomic access or a decision.

  A body is a strategy: what it does next as a function of what its operations have returned so
  far. So it may choose vars and values by the data it read, and it may run forever.

  History variables. `History` and `Attempt` record what has happened (`now` counts steps); no step
  reads them, they are what the theorems speak about.
-/
import LockfreeStm.Word
import LockfreeStm.PodHashSet
import LockfreeStm.EpochQueue
import Mathlib.Logic.Function.Basic

namespace LockfreeStm

/-! ## 1. Vars -/

/-- `var_type`. -/
inductive VarType where
  | heap
  | atomic
deriving DecidableEq

/-- The address of a heap object; the allocator never hands one out twice. -/
abbrev Ptr := Nat

/-- `var_storage`: a pointer to the object (heap) or the object's own bytes (atomic). -/
inductive VarStorage (α : Type) where
  | ptr (p : Ptr)
  | raw (x : α)
deriving DecidableEq

/-- `var_base`. -/
structure VarBase (α : Type) where
  versionLock : Epoch
  storage : VarStorage α

/-- What is fixed over a run: the kind and the addresses of every var, the initial objects, the
    registered `thread_synchronization_node`s and the `ReclaimLimit`. -/
structure Config (ι ν α : Type) where
  varType : ν → VarType
  layout : ν → VarLayout
  /-- the initial storage of a heap var -/
  initPtr : ν → Ptr
  initPtr_inj : ∀ v w, initPtr v = initPtr w → v = w
  /-- the first address the allocator hands out -/
  firstFree : Ptr
  initPtr_lt : ∀ v, initPtr v < firstFree
  /-- the initial heap objects -/
  initCells : Ptr → α
  /-- the initial value of an atomic var -/
  initRaw : ν → α
  nodes : List ι
  nodes_complete : ∀ t, t ∈ nodes
  reclaimLimit : Nat

namespace Config

variable {ι ν α : Type} (cfg : Config ι ν α)

/-- The storage a var is constructed with. -/
def initStorage (v : ν) : VarStorage α :=
  match cfg.varType v with
  | .heap => .ptr (cfg.initPtr v)
  | .atomic => .raw (cfg.initRaw v)

/-- The hash every caller but the heap overload of `rw_write` uses. -/
def baseHash (v : ν) : Hash := (cfg.layout v).baseHash

/-- The hash the heap overload of `rw_write` uses. -/
def varHash (v : ν) : Hash := (cfg.layout v).varHash

/-- Every var has an empty allocator: its `var_base` hashes like the var itself. -/
def EmptyAllocators : Prop :=
  ∀ v, (cfg.layout v).align = varBaseAlign ∧ (cfg.layout v).baseOffset = 0

end Config

/-! ## 2. Bodies and calls -/

/-- `tx_kind`. -/
inductive TxKind where
  | none
  | readWrite
  | readOnly
deriving DecidableEq

/-- One operation of a body. -/
inductive Op (ν α : Type) where
  /-- `var::get` through a transaction, or through a read_transaction nested in one -/
  | get (v : ν)
  /-- `var::untracked_get`, likewise -/
  | untrackedGet (v : ν)
  /-- a get through a read_transaction without thread_data (from `unsafe_checked_demote`) -/
  | readOnlyGet (v : ν)
  | set (v : ν) (x : α)
  | sometimeSynchronizedAfter (id : Nat)
  | afterFail (id : Nat)
  /-- a nested call of `atomic`: it runs on `transaction{tls_td, tls_td.epoch()}` -/
  | nestedAtomic
  /-- `lstm::retry` -/
  | retry
  /-- an exception other than `tx_retry` escapes the body -/
  | throw
  /-- the body returns -/
  | ret

/-- What the operations of a body have returned so far, a value for each get. -/
abbrev Log (α : Type) := List (Option α)

/-- A body. -/
abbrev Body (ν α : Type) := Log α → Op ν α

/-- What an idle thread may do next. -/
inductive Request (ν α : Type) where
  | readWrite (body : Body ν α)
  | readOnly (body : Body ν α)
  /-- `reclaim_all`, from `~thread_data` or `shrink_to_fit` -/
  | reclaimAll

/-! ## 3. Callbacks -/

/-- What a callback does. -/
inductive Action (α : Type) where
  /-- `var<T, Alloc>::destroy_deallocate(alloc, storage)` -/
  | destroyDeallocate (s : VarStorage α)
  /-- a callback of the user -/
  | user (id : Nat)
deriving DecidableEq

/-- `gp_callback`. The attempt that registered it, and the var whose `set` did, are history. -/
structure GpCallback (ν α : Type) where
  action : Action α
  attempt : Nat
  forVar : Option ν
deriving DecidableEq

/-! ## 4. Threads -/

/-- `thread_data`, but for the announced epoch, which other threads read. -/
structure ThreadData (ν α : Type) where
  readSet : PodVector ν
  writeSet : PodHashSet ν (VarStorage α)
  failCallbacks : PodVector (GpCallback ν α)
  succCallbacks : EpochQueue (GpCallback ν α)
  txState : TxKind

/-- `valid_start_state`. -/
def ThreadData.validStartState {ν α : Type} (td : ThreadData ν α) : Prop :=
  td.readSet.data = [] ∧ td.writeSet.entries = [] ∧ td.failCallbacks.data = [] ∧
    td.succCallbacks.working = []

/-- The read functions: `rw_read_base` and `rw_untracked_read_base` with their slow paths, and the
    reads of a read_transaction without thread_data. -/
inductive ReadPath where
  | fast (tracked : Bool)
  | slow (tracked : Bool)
  | readOnly
deriving DecidableEq

/-- The two callers of `synchronize_min_epoch`. -/
inductive ReclaimMode where
  | reclaimAll
  | reclaimAllPossible
deriving DecidableEq

/-- Where a thread stands. -/
inductive PC (ι ν α : Type) where
  | idle
  -- the top of `while (true)`, and `access_lock`
  | getClock
  | accessLock
  -- `atomic_base_fn::call`: the body's next operation
  | call
  -- get: before the load of `storage`, and before the load of `version_lock`
  | readStorage (path : ReadPath) (v : ν)
  | readVersion (path : ReadPath) (v : ν) (result : VarStorage α)
  -- get of a var in the write set: before the load of `version_lock`
  | readPending (v : ν) (pending : VarStorage α)
  -- rw_write, fast path
  | writeVersion (v : ν) (x : α)
  | writeCurStorage (v : ν) (newStorage : VarStorage α)
  -- rw_write_slow_path
  | writeSlowStorage (v : ν) (x : α)
  | writeSlowVersion (v : ν) (x : α) (curStorage : VarStorage α)
  | writePendingVersion (v : ν) (x : α) (pending : VarStorage α)
  -- rw_atomic_write_base and rw_atomic_write_slow_path
  | atomicWriteVersion (v : ν) (storage : VarStorage α)
  | atomicWriteSlowVersion (v : ν)
  -- commit_algorithm
  | tryCommit
  | lockLoad (i : Nat)
  | lockCas (i : Nat) (versionBuf : Epoch)
  | unlockLoad (i last : Nat)
  | unlockStore (i last : Nat) (versionBuf : Epoch)
  | validateReads (i : Nat)
  | doWrites (i : Nat)
  | bumpClock
  | publish (i : Nat) (syncEpoch : Epoch)
  -- tx_success, and tx_failure (also from unhandled_exception)
  | txSuccess (syncEpoch : Epoch)
  | txFailure (exn : Bool)
  | failCallbacks (exn : Bool) (left : Nat)
  -- wait_min_epoch, wait_on_epoch, and the callbacks of the front chunk
  | waitMinEpoch (mode : ReclaimMode) (epoch : Epoch) (nodes : List ι) (result : Epoch)
  | waitOnEpoch (mode : ReclaimMode) (epoch : Epoch) (node : ι) (nodes : List ι) (result : Epoch)
  | succCallbacks (mode : ReclaimMode) (epoch minEpoch : Epoch) (i : Nat)

/-- History of the running attempt. -/
structure Attempt (ν α : Type) where
  /-- the attempts of this thread are numbered -/
  number : Nat
  /-- when the attempt read the clock -/
  start : Nat
  /-- when it held every lock of its write set -/
  point : Nat
  /-- the values its gets returned for vars it had not written -/
  reads : List (ν × α)
  /-- the storages it has loaded from vars -/
  loaded : List (VarStorage α)
  /-- the callbacks it registered, in order -/
  regFail : List (GpCallback ν α)
  regSucc : List (GpCallback ν α)
  /-- the callbacks the thread had run, the chunks it had queued and the commits there were when
      the attempt began -/
  ranBefore : List (GpCallback ν α)
  chunksBefore : List (Chunk (GpCallback ν α))
  commitsBefore : Nat

/-- A thread: its thread_data, its program counter, the locals of the call it is in. -/
structure Thread (ι ν α : Type) where
  td : ThreadData ν α
  pc : PC ι ν α
  /-- the template argument `kind` of the call -/
  kind : TxKind
  body : Body ν α
  version : Epoch
  log : Log α
  att : Attempt ν α
  /-- history: every callback this thread has run -/
  ran : List (GpCallback ν α)

/-! ## 5. The system -/

/-- A var a commit wrote: the storage it installed and the value in it. -/
structure Written (ν α : Type) where
  var : ν
  storage : VarStorage α
  value : α

/-- A committed read_write transaction. -/
structure Commit (ι ν α : Type) where
  tid : ι
  attempt : Nat
  body : Body ν α
  log : Log α
  /-- the version it read the clock at, and the version it published -/
  rv : Epoch
  version : Epoch
  start : Nat
  point : Nat
  reads : List (ν × α)
  writes : List (Written ν α)
  /-- the attempts that were open (between access_lock and access_unlock) at the commit -/
  opened : ι → Option Nat

/-- A value a get returned for a var its attempt had not written. -/
structure ReadEvent (ι ν α : Type) where
  tid : ι
  attempt : Nat
  rv : Epoch
  var : ν
  value : α

/-- What has happened. -/
structure History (ι ν α : Type) where
  now : Nat
  /-- newest first; a writer enters at its clock bump, an empty write set at try_commit -/
  commits : List (Commit ι ν α)
  reads : List (ReadEvent ι ν α)
  /-- the committed transactions that have left their critical section: thread, attempt, time -/
  finished : List (ι × Nat × Nat)
  /-- destroyed storages, newest first -/
  destroyed : List (VarStorage α)

/-- What the threads share. -/
structure Shared (ι ν α : Type) where
  clock : Epoch
  vars : ν → VarBase α
  active : ι → Epoch
  cells : Ptr → α
  nextPtr : Ptr
  hist : History ι ν α

/-- A state of the machine. -/
structure Sys (ι ν α : Type) where
  shared : Shared ι ν α
  threads : ι → Thread ι ν α

/-- The object in a storage: `var::load`. -/
def VarStorage.load {α : Type} (cells : Ptr → α) : VarStorage α → α
  | .ptr p => cells p
  | .raw x => x

section Initial

variable {ι ν α : Type}

/-- An attempt that has not begun. -/
def Attempt.init : Attempt ν α := ⟨0, 0, 0, [], [], [], [], [], [], 0⟩

/-- The `thread_data` of a new thread. -/
def ThreadData.init (cfg : Config ι ν α) : ThreadData ν α :=
  ⟨.empty, .empty, .empty, .init cfg.reclaimLimit, .none⟩

/-- A new thread. -/
def Thread.init (cfg : Config ι ν α) : Thread ι ν α :=
  ⟨.init cfg, .idle, .none, fun _ => .ret, 0, [], .init, []⟩

/-- Every var constructed, every thread registered, nothing run. -/
def Sys.init (cfg : Config ι ν α) : Sys ι ν α where
  shared :=
    { clock := 0
      vars := fun v => ⟨0, cfg.initStorage v⟩
      active := fun _ => offState
      cells := cfg.initCells
      nextPtr := cfg.firstFree
      hist := ⟨0, [], [], [], []⟩ }
  threads := fun _ => .init cfg

end Initial

end LockfreeStm
