/-
  File:      LockfreeStm/Machine/Step.lean
  Subject:   THE STEPS OF THE MACHINE: the library's functions, cut at their atomic accesses.

  `Sys.step cfg s t req` is the next step of thread `t` in state `s`: one atomic access of the
  source together with the thread-local work that follows it, or a thread-local decision. It is
  `none` where the thread cannot move: an idle thread without a request, an operation the body's
  kind of transaction does not have, and a clock bump whose assertion fails
  (`fetch_and_bump_clock` asserts that the clock is below `max_version - bump_size`).

  The helpers carry the names of the source's functions and stand in the source's order:
  transaction_base.hpp (reads, writes), commit_algorithm.hpp, atomic_base.hpp, thread_data.hpp and
  thread_synchronization.hpp (reclamation), read_write.hpp and read_only.hpp (the calls).
-/
import LockfreeStm.Machine.State

namespace LockfreeStm

variable {ι ν α : Type} [DecidableEq ι] [DecidableEq ν]

/-! ## 1. Memory -/

namespace Shared

/-- `storage.load()`. -/
def loadStorage (sh : Shared ι ν α) (v : ν) : VarStorage α := (sh.vars v).storage

/-- `version_lock.load()`. -/
def loadVersion (sh : Shared ι ν α) (v : ν) : Epoch := (sh.vars v).versionLock

/-- `storage.store(s)`. -/
def storeStorage (sh : Shared ι ν α) (v : ν) (s : VarStorage α) : Shared ι ν α :=
  { sh with vars := Function.update sh.vars v { sh.vars v with storage := s } }

/-- `version_lock.store(e)`. -/
def storeVersion (sh : Shared ι ν α) (v : ν) (e : Epoch) : Shared ι ν α :=
  { sh with vars := Function.update sh.vars v { sh.vars v with versionLock := e } }

/-- `active.store(e)`. -/
def storeActive (sh : Shared ι ν α) (t : ι) (e : Epoch) : Shared ι ν α :=
  { sh with active := Function.update sh.active t e }

/-- The assignment to the object in a storage: `var::store`. -/
def storeObject (sh : Shared ι ν α) (s : VarStorage α) (x : α) : Shared ι ν α :=
  match s with
  | .ptr p => { sh with cells := Function.update sh.cells p x }
  | .raw _ => sh

/-- `allocate_construct` of a heap var: a fresh object holding `x`. -/
def allocateConstruct (sh : Shared ι ν α) (x : α) : Shared ι ν α × VarStorage α :=
  ({ sh with cells := Function.update sh.cells sh.nextPtr x, nextPtr := sh.nextPtr + 1 },
    .ptr sh.nextPtr)

/-- `fetch_and_bump_clock`, with its assertion: the previous version and the memory after. -/
def fetchAndBumpClock (sh : Shared ι ν α) : Option (Epoch × Shared ι ν α) :=
  if sh.clock < maxVersion - bumpSize then
    some (sh.clock, { sh with clock := sh.clock + bumpSize })
  else none

/-- Running a callback: what it destroys is remembered. -/
def runAction (sh : Shared ι ν α) (a : Action α) : Shared ι ν α :=
  match a with
  | .destroyDeallocate s => { sh with hist := { sh.hist with destroyed := s :: sh.hist.destroyed } }
  | .user _ => sh

/-- History: a get of thread `t` returned `x` for `v`, which the attempt has not written. -/
def noteRead (sh : Shared ι ν α) (t : ι) (th : Thread ι ν α) (v : ν) (x : α) : Shared ι ν α :=
  if v ∈ th.td.writeSet.vars then sh
  else { sh with
    hist := { sh.hist with reads := ⟨t, th.att.number, th.version, v, x⟩ :: sh.hist.reads } }

/-- History: the transaction of attempt `n` of thread `t` has finished. -/
def noteFinished (sh : Shared ι ν α) (t : ι) (n : Nat) : Shared ι ν α :=
  { sh with hist := { sh.hist with finished := (t, n, sh.hist.now) :: sh.hist.finished } }

end Shared

/-! ## 2. transaction_base.hpp -/

namespace Thread

/-- The thread goes to `pc`. -/
def goto (th : Thread ι ν α) (pc : PC ι ν α) : Thread ι ν α := { th with pc := pc }

/-- The body's operation returns `r`. -/
def opReturns (th : Thread ι ν α) (r : Option α) : Thread ι ν α :=
  { th with log := th.log ++ [r], pc := .call }

/-- History: a storage was loaded from a var. -/
def noteLoad (th : Thread ι ν α) (s : VarStorage α) : Thread ι ν α :=
  { th with att := { th.att with loaded := s :: th.att.loaded } }

/-- `rw_valid`, on a loaded version_lock. -/
def rwValid (th : Thread ι ν α) (version : Epoch) : Bool := decide (version ≤ th.version)

/-- `internal_retry`: `tx_retry` is thrown. -/
def internalRetry (th : Thread ι ν α) : Thread ι ν α := th.goto (.txFailure false)

/-- `rw_read_slow_path` and `rw_untracked_read_slow_path`, up to their first load. -/
def rwReadSlowPath (cfg : Config ι ν α) (th : Thread ι ν α) (tracked : Bool) (v : ν) :
    Option (Thread ι ν α) :=
  match th.td.writeSet.find cfg.baseHash v with
  | none => some (th.goto (.readStorage (.slow tracked) v))
  | some i => (th.td.writeSet.entries[i]?).map fun e => th.goto (.readPending v e.pendingWrite)

/-- `rw_read_base` and `rw_untracked_read_base`, up to their first load. -/
def rwReadBase (cfg : Config ι ν α) (th : Thread ι ν α) (tracked : Bool) (v : ν) :
    Option (Thread ι ν α) :=
  if !(tracked && th.td.readSet.allocatesOnNextPush)
      && th.td.writeSet.filter &&& cfg.baseHash v == 0#64 then
    some (th.goto (.readStorage (.fast tracked) v))
  else rwReadSlowPath cfg th tracked v

/-- The var a get returned from enters the read set of a tracked get. -/
def pushRead (th : Thread ι ν α) (path : ReadPath) (v : ν) : Thread ι ν α :=
  match path with
  | .fast true => { th with td := { th.td with readSet := th.td.readSet.uncheckedEmplaceBack v } }
  | .slow true => { th with td := { th.td with readSet := th.td.readSet.emplaceBack v } }
  | _ => th

/-- History: a get returned `x` for `v`, which the attempt has not written. -/
def noteRead (th : Thread ι ν α) (v : ν) (x : α) : Thread ι ν α :=
  if v ∈ th.td.writeSet.vars then th
  else { th with att := { th.att with reads := th.att.reads ++ [(v, x)] } }

/-- `sometime_synchronized_after`. -/
def sometimeSynchronizedAfter (th : Thread ι ν α) (cb : GpCallback ν α) : Thread ι ν α :=
  { th with
    td := { th.td with succCallbacks := th.td.succCallbacks.emplaceBack cb }
    att := { th.att with regSucc := th.att.regSucc ++ [cb] } }

/-- `after_fail`. -/
def afterFail (th : Thread ι ν α) (cb : GpCallback ν α) : Thread ι ν α :=
  { th with
    td := { th.td with failCallbacks := th.td.failCallbacks.emplaceBack cb }
    att := { th.att with regFail := th.att.regFail ++ [cb] } }

/-- The two `unchecked_emplace_back`s of the fast path of `rw_write`. -/
def uncheckedCallbacks (th : Thread ι ν α) (fail succ : GpCallback ν α) : Thread ι ν α :=
  { th with
    td := { th.td with
      failCallbacks := th.td.failCallbacks.uncheckedEmplaceBack fail
      succCallbacks := th.td.succCallbacks.uncheckedEmplaceBack succ }
    att := { th.att with
      regFail := th.att.regFail ++ [fail]
      regSucc := th.att.regSucc ++ [succ] } }

/-- The callback that destroys storage `s`, registered by a `set` of `v`. -/
def destroyCallback (th : Thread ι ν α) (v : ν) (s : VarStorage α) : GpCallback ν α :=
  ⟨.destroyDeallocate s, th.att.number, some v⟩

/-- A callback of the user. -/
def userCallback (th : Thread ι ν α) (id : Nat) : GpCallback ν α :=
  ⟨.user id, th.att.number, none⟩

/-- The write set is replaced. -/
def setWriteSet (th : Thread ι ν α) (ws : PodHashSet ν (VarStorage α)) : Thread ι ν α :=
  { th with td := { th.td with writeSet := ws } }

/-- `rw_write_slow_path`, up to its first load. -/
def rwWriteSlowPath (cfg : Config ι ν α) (th : Thread ι ν α) (v : ν) (x : α) :
    Option (Thread ι ν α) :=
  match th.td.writeSet.lookup cfg.baseHash v with
  | .hash _ => some (th.goto (.writeSlowStorage v x))
  | .pendingWrite i =>
      (th.td.writeSet.entries[i]?).map fun e => th.goto (.writePendingVersion v x e.pendingWrite)

/-- `rw_write` of a heap var, up to its first load. -/
def rwWrite (cfg : Config ι ν α) (th : Thread ι ν α) (v : ν) (x : α) : Option (Thread ι ν α) :=
  if th.td.writeSet.allocatesOnNextPush
      || th.td.writeSet.filter &&& cfg.varHash v != 0#64
      || th.td.failCallbacks.allocatesOnNextPush
      || th.td.succCallbacks.allocatesOnNextPush then
    rwWriteSlowPath cfg th v x
  else some (th.goto (.writeVersion v x))

/-- `rw_atomic_write_slow_path`, up to its load. -/
def rwAtomicWriteSlowPath (cfg : Config ι ν α) (th : Thread ι ν α) (v : ν) (s : VarStorage α) :
    Thread ι ν α :=
  match th.td.writeSet.lookup cfg.baseHash v with
  | .hash h => (th.setWriteSet (th.td.writeSet.pushBack v s h)).goto (.atomicWriteSlowVersion v)
  | .pendingWrite i =>
      (th.setWriteSet (th.td.writeSet.setPending i s)).goto (.atomicWriteSlowVersion v)

/-- `rw_atomic_write_base`, up to its load. -/
def rwAtomicWriteBase (cfg : Config ι ν α) (th : Thread ι ν α) (v : ν) (s : VarStorage α) :
    Thread ι ν α :=
  if th.td.writeSet.allocatesOnNextPush || th.td.writeSet.filter &&& cfg.baseHash v != 0#64 then
    rwAtomicWriteSlowPath cfg th v s
  else th.goto (.atomicWriteVersion v s)

end Thread

/-! ## 3. The steps of a body -/

section Body

variable (cfg : Config ι ν α) (sh : Shared ι ν α) (t : ι) (th : Thread ι ν α)

/-- The body's next operation. A read_only body has a read_transaction without thread_data. -/
def callStep : Option (Thread ι ν α) :=
  match th.kind, th.body th.log with
  | .readWrite, .get v => th.rwReadBase cfg true v
  | .readWrite, .untrackedGet v => th.rwReadBase cfg false v
  | .readWrite, .readOnlyGet v => some (th.goto (.readStorage .readOnly v))
  | .readWrite, .set v x =>
      match cfg.varType v with
      | .heap => th.rwWrite cfg v x
      | .atomic => some (th.rwAtomicWriteBase cfg v (.raw x))
  | .readWrite, .sometimeSynchronizedAfter id =>
      some ((th.sometimeSynchronizedAfter (th.userCallback id)).opReturns none)
  | .readWrite, .afterFail id => some ((th.afterFail (th.userCallback id)).opReturns none)
  | .readWrite, .nestedAtomic => some ({ th with version := sh.active t }.opReturns none)
  | .readWrite, .ret => some (th.goto .tryCommit)
  | .readOnly, .get v => some (th.goto (.readStorage .readOnly v))
  | .readOnly, .untrackedGet v => some (th.goto (.readStorage .readOnly v))
  | .readOnly, .readOnlyGet v => some (th.goto (.readStorage .readOnly v))
  | .readOnly, .nestedAtomic => some ({ th with version := sh.active t }.opReturns none)
  | .readOnly, .ret => some (th.goto (.txSuccess 0))
  | .none, _ => none
  | _, .retry => some th.internalRetry
  | _, .throw => some (th.goto (.txFailure true))
  | .readOnly, _ => none

/-- A get loads `storage`. -/
def readStorageStep (path : ReadPath) (v : ν) : Thread ι ν α :=
  (th.noteLoad (sh.loadStorage v)).goto (.readVersion path v (sh.loadStorage v))

/-- A get loads `version_lock` and checks it. -/
def readVersionStep (path : ReadPath) (v : ν) (result : VarStorage α) :
    Option (Shared ι ν α × Thread ι ν α) :=
  if th.rwValid (sh.loadVersion v) then
    some (sh.noteRead t th v (result.load sh.cells),
      ((th.pushRead path v).noteRead v (result.load sh.cells)).opReturns
        (some (result.load sh.cells)))
  else match path with
    | .fast tracked => (th.rwReadSlowPath cfg tracked v).map fun th' => (sh, th')
    | _ => some (sh, th.internalRetry)

/-- A get of a var in the write set checks the var's version_lock. -/
def readPendingStep (v : ν) (pending : VarStorage α) : Thread ι ν α :=
  if th.rwValid (sh.loadVersion v) then th.opReturns (some (pending.load sh.cells))
  else th.internalRetry

/-- `rw_write`: the last test of the fast path, then the allocation and the write set. -/
def writeVersionStep (v : ν) (x : α) : Option (Shared ι ν α × Thread ι ν α) :=
  if th.rwValid (sh.loadVersion v) then
    let (sh', newStorage) := sh.allocateConstruct x
    some (sh', (th.setWriteSet
      (th.td.writeSet.uncheckedPushBack v newStorage (cfg.varHash v))).goto
        (.writeCurStorage v newStorage))
  else (th.rwWriteSlowPath cfg v x).map fun th' => (sh, th')

/-- `rw_write`: the load of cur_storage, then both callbacks. -/
def writeCurStorageStep (v : ν) (newStorage : VarStorage α) : Thread ι ν α :=
  (((th.noteLoad (sh.loadStorage v)).uncheckedCallbacks (th.destroyCallback v newStorage)
    (th.destroyCallback v (sh.loadStorage v)))).opReturns none

/-- `rw_write_slow_path`: the load of cur_storage. -/
def writeSlowStorageStep (v : ν) (x : α) : Thread ι ν α :=
  (th.noteLoad (sh.loadStorage v)).goto (.writeSlowVersion v x (sh.loadStorage v))

/-- `rw_write_slow_path`: the check, then the allocation, the write set and both callbacks. -/
def writeSlowVersionStep (v : ν) (x : α) (curStorage : VarStorage α) :
    Shared ι ν α × Thread ι ν α :=
  if th.rwValid (sh.loadVersion v) then
    let (sh', newStorage) := sh.allocateConstruct x
    (sh', (((th.setWriteSet
      (th.td.writeSet.pushBack v newStorage (cfg.baseHash v))).sometimeSynchronizedAfter
        (th.destroyCallback v curStorage)).afterFail
          (th.destroyCallback v newStorage)).opReturns none)
  else (sh, th.internalRetry)

/-- `rw_write_slow_path`: a pending value is overwritten in place. -/
def writePendingVersionStep (v : ν) (x : α) (pending : VarStorage α) :
    Shared ι ν α × Thread ι ν α :=
  if th.rwValid (sh.loadVersion v) then (sh.storeObject pending x, th.opReturns none)
  else (sh, th.internalRetry)

/-- `rw_atomic_write_base`: the last test of the fast path, then the write set. -/
def atomicWriteVersionStep (v : ν) (s : VarStorage α) : Thread ι ν α :=
  if th.rwValid (sh.loadVersion v) then
    (th.setWriteSet (th.td.writeSet.uncheckedPushBack v s (cfg.baseHash v))).opReturns none
  else th.rwAtomicWriteSlowPath cfg v s

/-- `rw_atomic_write_slow_path`: the check after the write. -/
def atomicWriteSlowVersionStep (v : ν) : Thread ι ν α :=
  if th.rwValid (sh.loadVersion v) then th.opReturns none else th.internalRetry

end Body

/-! ## 4. commit_algorithm.hpp -/

/-- The loop of `remove_writes_from_reads`: from the last element down, an element that is in the
    write set is erased by moving the current last one over it. `n` elements are left to look at. -/
def removeWritesFromReadsLoop (hash : ν → Hash) (ws : PodHashSet ν (VarStorage α)) :
    Nat → PodVector ν → PodVector ν
  | 0, readSet => readSet
  | n + 1, readSet =>
      match readSet.data[n]? with
      | none => removeWritesFromReadsLoop hash ws n readSet
      | some v =>
          if (ws.find hash v).isSome then
            removeWritesFromReadsLoop hash ws n (readSet.unorderedErase n)
          else removeWritesFromReadsLoop hash ws n readSet

/-- `remove_writes_from_reads`. -/
def removeWritesFromReads (cfg : Config ι ν α) (td : ThreadData ν α) : ThreadData ν α :=
  { td with
    readSet := removeWritesFromReadsLoop cfg.baseHash td.writeSet td.readSet.data.length
      td.readSet }

/-- The commit as it enters the history: `version` is 0 for an empty write set. -/
def commitRecord (sh : Shared ι ν α) (t : ι) (th : Thread ι ν α) (version : Epoch) (point : Nat)
    (opened : ι → Option Nat) : Commit ι ν α where
  tid := t
  attempt := th.att.number
  body := th.body
  log := th.log
  rv := th.version
  version := version
  start := th.att.start
  point := point
  reads := th.att.reads
  writes := th.td.writeSet.entries.map fun e => ⟨e.destVar, e.pendingWrite, e.pendingWrite.load sh.cells⟩
  opened := opened

namespace Shared

/-- A commit enters the history. -/
def noteCommit (sh : Shared ι ν α) (c : Commit ι ν α) : Shared ι ν α :=
  { sh with hist := { sh.hist with commits := c :: sh.hist.commits } }

end Shared

section Commit

variable (cfg : Config ι ν α) (sh : Shared ι ν α) (t : ι) (th : Thread ι ν α)
  (opened : ι → Option Nat)

/-- `try_commit`: an empty write set commits at once, on the earliest epoch. -/
def tryCommitStep : Shared ι ν α × Thread ι ν α :=
  match th.td.writeSet.entries with
  | [] => (sh.noteCommit (commitRecord sh t th 0 th.att.start opened), th.goto (.txSuccess 0))
  | _ :: _ => (sh, { th with td := removeWritesFromReads cfg th.td, pc := .lockLoad 0 })

/-- `lock_writes`: the head of the loop and the load of `lock`. -/
def lockLoadStep (i : Nat) : Thread ι ν α :=
  match th.td.writeSet.entries[i]? with
  | none => { th with pc := .validateReads 0, att := { th.att with point := sh.hist.now } }
  | some e =>
      if th.rwValid (sh.loadVersion e.destVar) then
        th.goto (.lockCas i (sh.loadVersion e.destVar))
      else th.goto (.unlockLoad 0 i)

/-- `lock_writes`: the compare-exchange of `lock`. -/
def lockCasStep (i : Nat) (versionBuf : Epoch) : Option (Shared ι ν α × Thread ι ν α) :=
  (th.td.writeSet.entries[i]?).map fun e =>
    if sh.loadVersion e.destVar = versionBuf then
      (sh.storeVersion e.destVar (asLocked versionBuf), th.goto (.lockLoad (i + 1)))
    else (sh, th.goto (.unlockLoad 0 i))

/-- `unlock_write_set(begin, begin + last)`: the head of the loop and the load of `unlock`. -/
def unlockLoadStep (i last : Nat) : Option (Thread ι ν α) :=
  if i < last then
    (th.td.writeSet.entries[i]?).map fun e =>
      th.goto (.unlockStore i last (sh.loadVersion e.destVar))
  else some (th.goto (.txFailure false))

/-- `unlock_write_set`: the store of `unlock`. -/
def unlockStoreStep (i last : Nat) (versionBuf : Epoch) : Option (Shared ι ν α × Thread ι ν α) :=
  (th.td.writeSet.entries[i]?).map fun e =>
    (sh.storeVersion e.destVar (flipLock versionBuf), th.goto (.unlockLoad (i + 1) last))

/-- `validate_reads`. -/
def validateReadsStep (i : Nat) : Thread ι ν α :=
  match th.td.readSet.data[i]? with
  | none => th.goto (.doWrites 0)
  | some v =>
      if th.rwValid (sh.loadVersion v) then th.goto (.validateReads (i + 1))
      else th.goto (.unlockLoad 0 th.td.writeSet.entries.length)

/-- `do_writes`. -/
def doWritesStep (i : Nat) : Shared ι ν α × Thread ι ν α :=
  match th.td.writeSet.entries[i]? with
  | none => (sh, th.goto .bumpClock)
  | some e => (sh.storeStorage e.destVar e.pendingWrite, th.goto (.doWrites (i + 1)))

/-- `slower_path`: the clock bump. The commit enters the history. -/
def bumpClockStep : Option (Shared ι ν α × Thread ι ν α) :=
  sh.fetchAndBumpClock.map fun (syncEpoch, sh') =>
    (sh'.noteCommit (commitRecord sh t th (syncEpoch + bumpSize) th.att.point opened),
      th.goto (.publish 0 syncEpoch))

/-- `publish`. -/
def publishStep (i : Nat) (syncEpoch : Epoch) : Shared ι ν α × Thread ι ν α :=
  match th.td.writeSet.entries[i]? with
  | none => (sh, th.goto (.txSuccess syncEpoch))
  | some e => (sh.storeVersion e.destVar (syncEpoch + bumpSize), th.goto (.publish (i + 1) syncEpoch))

end Commit

/-! ## 5. atomic_base.hpp and thread_data.hpp -/

namespace Thread

/-- `clear_read_write_sets`. -/
def clearReadWriteSets (th : Thread ι ν α) : Thread ι ν α :=
  { th with td := { th.td with readSet := th.td.readSet.clear, writeSet := th.td.writeSet.clear } }

/-- `clear_working_epoch` of the success callbacks. -/
def clearWorkingEpoch (th : Thread ι ν α) : Thread ι ν α :=
  { th with td := { th.td with succCallbacks := th.td.succCallbacks.clearWorkingEpoch } }

/-- `fail_callbacks.clear()`. -/
def clearFailCallbacks (th : Thread ι ν α) : Thread ι ν α :=
  { th with td := { th.td with failCallbacks := th.td.failCallbacks.clear } }

/-- The assignment to `tx_state`. -/
def setTxState (th : Thread ι ν α) (k : TxKind) : Thread ι ν α :=
  { th with td := { th.td with txState := k } }

/-- A callback runs. -/
def runs (th : Thread ι ν α) (cb : GpCallback ν α) : Thread ι ν α :=
  { th with ran := th.ran ++ [cb] }

/-- `reclaim`, up to the first load of the scan: finalize, and if the limit is reached enter
    `reclaim_slow_path`. -/
def reclaim (cfg : Config ι ν α) (th : Thread ι ν α) (syncEpoch : Epoch) : Thread ι ν α :=
  let (q, reached) := th.td.succCallbacks.finalizeEpoch cfg.reclaimLimit syncEpoch
  let th' := { th with td := { th.td with succCallbacks := q } }
  if reached then
    match q.frontEpoch? with
    | some e => th'.goto (.waitMinEpoch .reclaimAllPossible e cfg.nodes offState)
    | none => th'.goto .idle
  else th'.goto .idle

end Thread

section Exit

variable (cfg : Config ι ν α) (sh : Shared ι ν α) (t : ι) (th : Thread ι ν α)

/-- `tx_success`. -/
def txSuccessStep (syncEpoch : Epoch) : Shared ι ν α × Thread ι ν α :=
  if th.kind = .readOnly then (sh.storeActive t offState, (th.setTxState .none).goto .idle)
  else ((sh.storeActive t offState).noteFinished t th.att.number,
    ((th.setTxState .none).clearReadWriteSets.clearFailCallbacks).reclaim cfg syncEpoch)

/-- Where the call goes once the fail callbacks have run: `unhandled_exception` rethrows, `tx_failure`
    starts the next attempt. -/
def afterFailure (exn : Bool) : Thread ι ν α :=
  if exn then (th.setTxState .none).goto .idle else th.goto .getClock

/-- `tx_failure_no_backoff`, up to the fail callbacks. -/
def txFailureStep (exn : Bool) : Shared ι ν α × Thread ι ν α :=
  if th.kind = .readOnly then (sh.storeActive t offState, afterFailure th exn)
  else (sh.storeActive t offState,
    (th.clearReadWriteSets.clearWorkingEpoch).goto
      (.failCallbacks exn th.td.failCallbacks.data.length))

/-- `do_fail_callbacks`: `left` callbacks are left to run, the last of them next. -/
def failCallbacksStep (exn : Bool) : Nat → Option (Shared ι ν α × Thread ι ν α)
  | 0 => some (sh, afterFailure th.clearFailCallbacks exn)
  | left + 1 => (th.td.failCallbacks.data[left]?).map fun cb =>
      (sh.runAction cb.action, (th.runs cb).goto (.failCallbacks exn left))

/-- `wait_min_epoch`: the nodes still to visit, and the minimum so far. -/
def waitMinEpochStep (mode : ReclaimMode) (epoch : Epoch) (nodes : List ι) (result : Epoch) :
    Thread ι ν α :=
  match nodes with
  | [] => th.goto (.succCallbacks mode epoch result 0)
  | u :: rest =>
      if sh.active u ≤ epoch then th.goto (.waitOnEpoch mode epoch u rest result)
      else th.goto (.waitMinEpoch mode epoch rest (min (sh.active u) result))

/-- `wait_on_epoch`: wait until the node's epoch is above `epoch`. -/
def waitOnEpochStep (mode : ReclaimMode) (epoch : Epoch) (u : ι) (nodes : List ι) (result : Epoch) :
    Thread ι ν α :=
  if sh.active u ≤ epoch then th else th.goto (.waitMinEpoch mode epoch nodes result)

/-- The loop condition of `reclaim_all` and of `reclaim_all_possible`. -/
def reclaimsNext (mode : ReclaimMode) (minEpoch : Epoch) (q : EpochQueue (GpCallback ν α)) : Bool :=
  match q.frontEpoch? with
  | none => false
  | some e => match mode with
    | .reclaimAll => true
    | .reclaimAllPossible => decide (e < minEpoch)

/-- `do_first_epoch_callbacks`: callback `i` of the front chunk runs, or the chunk is done. -/
def succCallbacksStep (mode : ReclaimMode) (epoch minEpoch : Epoch) (i : Nat) :
    Option (Shared ι ν α × Thread ι ν α) :=
  th.td.succCallbacks.chunks.head?.map fun ch =>
    match ch.callbacks[i]? with
    | some cb => (sh.runAction cb.action, (th.runs cb).goto (.succCallbacks mode epoch minEpoch (i + 1)))
    | none =>
        let q := th.td.succCallbacks.popFront
        let th' := { th with td := { th.td with succCallbacks := q } }
        if reclaimsNext mode minEpoch q then (sh, th'.goto (.succCallbacks mode epoch minEpoch 0))
        else (sh, th'.goto .idle)

end Exit

/-! ## 6. read_write.hpp and read_only.hpp -/

section Call

variable (cfg : Config ι ν α) (sh : Shared ι ν α) (t : ι) (th : Thread ι ν α)

/-- An idle thread calls `read_write`, `read_only`, or runs `reclaim_all`. -/
def requestStep : Request ν α → Thread ι ν α
  | .readWrite body =>
      { (th.setTxState .readWrite) with pc := .getClock, kind := .readWrite, body := body }
  | .readOnly body =>
      { (th.setTxState .readOnly) with pc := .getClock, kind := .readOnly, body := body }
  | .reclaimAll =>
      match th.td.succCallbacks.backEpoch? with
      | none => th
      | some e => th.goto (.waitMinEpoch .reclaimAll e cfg.nodes offState)

/-- The top of `while (true)`: the clock is read, and a new attempt begins. -/
def getClockStep : Thread ι ν α :=
  { th with
    pc := .accessLock
    version := sh.clock
    log := []
    att :=
      { number := th.att.number + 1
        start := sh.hist.now
        point := 0
        reads := []
        loaded := []
        regFail := []
        regSucc := []
        ranBefore := th.ran
        chunksBefore := th.td.succCallbacks.chunks
        commitsBefore := sh.hist.commits.length } }

/-- `access_lock`. -/
def accessLockStep : Shared ι ν α × Thread ι ν α := (sh.storeActive t th.version, th.goto .call)

/-- The next step of thread `t`, on the shared memory and its own state. -/
def threadStep (opened : ι → Option Nat) (req : Option (Request ν α)) :
    Option (Shared ι ν α × Thread ι ν α) :=
  match th.pc with
  | .idle => req.map fun r => (sh, requestStep cfg th r)
  | .getClock => some (sh, getClockStep sh th)
  | .accessLock => some (accessLockStep sh t th)
  | .call => (callStep cfg sh t th).map fun th' => (sh, th')
  | .readStorage path v => some (sh, readStorageStep sh th path v)
  | .readVersion path v result => readVersionStep cfg sh t th path v result
  | .readPending v pending => some (sh, readPendingStep sh th v pending)
  | .writeVersion v x => writeVersionStep cfg sh th v x
  | .writeCurStorage v s => some (sh, writeCurStorageStep sh th v s)
  | .writeSlowStorage v x => some (sh, writeSlowStorageStep sh th v x)
  | .writeSlowVersion v x cur => some (writeSlowVersionStep cfg sh th v x cur)
  | .writePendingVersion v x pending => some (writePendingVersionStep sh th v x pending)
  | .atomicWriteVersion v s => some (sh, atomicWriteVersionStep cfg sh th v s)
  | .atomicWriteSlowVersion v => some (sh, atomicWriteSlowVersionStep sh th v)
  | .tryCommit => some (tryCommitStep cfg sh t th opened)
  | .lockLoad i => some (sh, lockLoadStep sh th i)
  | .lockCas i buf => lockCasStep sh th i buf
  | .unlockLoad i last => (unlockLoadStep sh th i last).map fun th' => (sh, th')
  | .unlockStore i last buf => unlockStoreStep sh th i last buf
  | .validateReads i => some (sh, validateReadsStep sh th i)
  | .doWrites i => some (doWritesStep sh th i)
  | .bumpClock => bumpClockStep sh t th opened
  | .publish i e => some (publishStep sh th i e)
  | .txSuccess e => some (txSuccessStep cfg sh t th e)
  | .txFailure exn => some (txFailureStep sh t th exn)
  | .failCallbacks exn left => failCallbacksStep sh th exn left
  | .waitMinEpoch mode e nodes result => some (sh, waitMinEpochStep sh th mode e nodes result)
  | .waitOnEpoch mode e u nodes result => some (sh, waitOnEpochStep sh th mode e u nodes result)
  | .succCallbacks mode e minEpoch i => succCallbacksStep sh th mode e minEpoch i

end Call

/-! ## 7. Runs -/

namespace Sys

/-- The attempts that are open: between access_lock and access_unlock. -/
def opened (s : Sys ι ν α) (u : ι) : Option Nat :=
  if s.shared.active u = offState then none else some (s.threads u).att.number

/-- **One step of the system**: thread `t` moves, and time passes. -/
def step (cfg : Config ι ν α) (s : Sys ι ν α) (t : ι) (req : Option (Request ν α)) :
    Option (Sys ι ν α) :=
  (threadStep cfg s.shared t (s.threads t) s.opened req).map fun (sh, th) =>
    { shared := { sh with hist := { sh.hist with now := s.shared.hist.now + 1 } }
      threads := Function.update s.threads t th }

/-- **The states the machine reaches** by requests that all satisfy `ok`. -/
inductive Reach (cfg : Config ι ν α) (ok : Request ν α → Prop) : Sys ι ν α → Prop where
  | init : Reach cfg ok (.init cfg)
  | step {s s' : Sys ι ν α} {t : ι} {req : Option (Request ν α)} (h : Reach cfg ok s)
      (hok : ∀ r ∈ req, ok r) (hs : s.step cfg t req = some s') : Reach cfg ok s'

/-- The states the machine reaches from `s`. -/
inductive Steps (cfg : Config ι ν α) (ok : Request ν α → Prop) (s : Sys ι ν α) :
    Sys ι ν α → Prop where
  | refl : Steps cfg ok s s
  | step {s' s'' : Sys ι ν α} {t : ι} {req : Option (Request ν α)} (h : Steps cfg ok s s')
      (hok : ∀ r ∈ req, ok r) (hs : s'.step cfg t req = some s'') : Steps cfg ok s s''

/-- A schedule: which thread moves next, and what it requests if it is idle. -/
def run (cfg : Config ι ν α) : List (ι × Option (Request ν α)) → Sys ι ν α → Option (Sys ι ν α)
  | [], s => some s
  | (t, req) :: rest, s => (s.step cfg t req).bind (run cfg rest)

variable {cfg : Config ι ν α} {ok : Request ν α → Prop} {s s' : Sys ι ν α}

theorem Reach.steps (h : Reach cfg ok s) (hs : Steps cfg ok s s') : Reach cfg ok s' := by
  induction hs with
  | refl => exact h
  | step _ hok hst ih => exact .step ih hok hst

theorem Steps.trans {s'' : Sys ι ν α} (h : Steps cfg ok s s') (h' : Steps cfg ok s' s'') :
    Steps cfg ok s s'' := by
  induction h' with
  | refl => exact h
  | step _ hok hst ih => exact .step ih hok hst

/-- A schedule that can be followed leads to a state the machine reaches. -/
theorem Steps.of_run {schedule : List (ι × Option (Request ν α))}
    (hok : ∀ m ∈ schedule, ∀ r ∈ m.2, ok r) (h : run cfg schedule s = some s') :
    Steps cfg ok s s' := by
  induction schedule generalizing s with
  | nil =>
      cases h
      exact .refl
  | cons m rest ih =>
      obtain ⟨s1, h1, h2⟩ := Option.bind_eq_some_iff.mp h
      rw [List.forall_mem_cons] at hok
      exact (Steps.step .refl hok.1 h1).trans (ih hok.2 h2)

/-- The state a schedule leads to from the initial one. -/
theorem Reach.of_run {schedule : List (ι × Option (Request ν α))}
    (hok : ∀ m ∈ schedule, ∀ r ∈ m.2, ok r) (h : run cfg schedule (.init cfg) = some s) :
    Reach cfg ok s :=
  Reach.init.steps (Steps.of_run hok h)

end Sys

/-- A small machine: two threads and two heap vars with empty allocators. -/
def smallConfig : Config Bool Bool Nat where
  varType _ := .heap
  layout v := ⟨if v then 16 else 0, 16, 0⟩
  initPtr v := if v then 1 else 0
  initPtr_inj v w h := by cases v <;> cases w <;> first | rfl | cases h
  firstFree := 2
  initPtr_lt v := by cases v <;> decide
  initCells _ := 0
  initRaw _ := 0
  nodes := [false, true]
  nodes_complete t := by cases t <;> decide
  reclaimLimit := 4

end LockfreeStm
