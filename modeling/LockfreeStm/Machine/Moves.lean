/-
  File:      LockfreeStm/Machine/Moves.lean
  Subject:   EVERY STEP OF A THREAD, ONCE: the inversion of `threadStep`.

  `Move` has one constructor for each way a step can end, with the place the thread stood at, the
  tests that came out true, and the memory and the thread after the step. `threadStep_move` says
  that every step is a move; it is the only proof that looks into the step functions. What an
  invariant needs to know about the steps is proved from `Move` by cases.
-/
import LockfreeStm.Machine.Step

namespace LockfreeStm

variable {ι ν α : Type}

/-- The places between access_lock and access_unlock. -/
def PC.isOpen : PC ι ν α → Bool
  | .idle | .getClock | .accessLock | .failCallbacks _ _ | .waitMinEpoch _ _ _ _
  | .waitOnEpoch _ _ _ _ _ | .succCallbacks _ _ _ _ => false
  | _ => true

/-- The places of `lock_writes`, `validate_reads`, `do_writes`, the clock bump and `publish`. -/
def PC.inCommit : PC ι ν α → Bool
  | .lockLoad _ | .lockCas _ _ | .unlockLoad _ _ | .unlockStore _ _ _ | .validateReads _
  | .doWrites _ | .bumpClock | .publish _ _ => true
  | _ => false

/-- The places where the body runs: `call` and the inside of its gets and sets. -/
def PC.inBody : PC ι ν α → Bool
  | .call | .readStorage _ _ | .readVersion _ _ _ | .readPending _ _ | .writeVersion _ _
  | .writeCurStorage _ _ | .writeSlowStorage _ _ | .writeSlowVersion _ _ _
  | .writePendingVersion _ _ _ | .atomicWriteVersion _ _ | .atomicWriteSlowVersion _ => true
  | _ => false

/-- The places where an operation of the body makes its first access. -/
def PC.isEntry : PC ι ν α → Bool
  | .readStorage _ _ | .readPending _ _ | .writeVersion _ _ | .writeSlowStorage _ _
  | .writePendingVersion _ _ _ | .atomicWriteVersion _ _ => true
  | _ => false

/-- The places inside a set, behind the push of its entry. -/
def PC.inSet : PC ι ν α → Bool
  | .writeCurStorage _ _ | .atomicWriteSlowVersion _ => true
  | _ => false

theorem PC.inBody_of_isEntry {pc : PC ι ν α} (h : pc.isEntry = true) : pc.inBody = true := by
  cases pc <;> first | rfl | cases h

section Move

variable [DecidableEq ι] [DecidableEq ν]

/-- What a place inside an operation of the body says about that operation: which one it is, of
    what kind its var is, and what the write set answered when it was looked up. -/
def OpAt (cfg : Config ι ν α) (th : Thread ι ν α) : PC ι ν α → Prop
  | .readStorage path v | .readVersion path v _ =>
      match path with
      | .fast true => th.kind = .readWrite ∧ th.body th.log = .get v ∧
          th.td.writeSet.filter &&& cfg.baseHash v = 0#64
      | .fast false => th.kind = .readWrite ∧ th.body th.log = .untrackedGet v ∧
          th.td.writeSet.filter &&& cfg.baseHash v = 0#64
      | .slow true => th.kind = .readWrite ∧ th.body th.log = .get v ∧
          th.td.writeSet.find cfg.baseHash v = none
      | .slow false => th.kind = .readWrite ∧ th.body th.log = .untrackedGet v ∧
          th.td.writeSet.find cfg.baseHash v = none
      | .readOnly => th.body th.log = .readOnlyGet v ∨
          th.kind = .readOnly ∧ (th.body th.log = .get v ∨ th.body th.log = .untrackedGet v)
  | .readPending v pending => th.kind = .readWrite ∧
      (th.body th.log = .get v ∨ th.body th.log = .untrackedGet v) ∧
      ∃ i, th.td.writeSet.find cfg.baseHash v = some i ∧
        (th.td.writeSet.entries[i]?).map (·.pendingWrite) = some pending
  | .writeVersion v x => th.kind = .readWrite ∧ th.body th.log = .set v x ∧
      cfg.varType v = .heap ∧ th.td.writeSet.filter &&& cfg.varHash v = 0#64
  | .writeCurStorage v s => th.kind = .readWrite ∧ (∃ x, th.body th.log = .set v x) ∧
      cfg.varType v = .heap ∧ (∃ p, s = .ptr p) ∧ ∃ es, th.td.writeSet.entries = es ++ [⟨v, s⟩]
  | .writeSlowStorage v x | .writeSlowVersion v x _ => th.kind = .readWrite ∧
      th.body th.log = .set v x ∧ cfg.varType v = .heap ∧
      th.td.writeSet.lookup cfg.baseHash v = .hash (cfg.baseHash v)
  | .writePendingVersion v x pending => th.kind = .readWrite ∧ th.body th.log = .set v x ∧
      cfg.varType v = .heap ∧ ∃ i, th.td.writeSet.lookup cfg.baseHash v = .pendingWrite i ∧
        (th.td.writeSet.entries[i]?).map (·.pendingWrite) = some pending
  | .atomicWriteVersion v s => th.kind = .readWrite ∧ (∃ x, s = .raw x ∧ th.body th.log = .set v x) ∧
      cfg.varType v = .atomic ∧ th.td.writeSet.filter &&& cfg.baseHash v = 0#64
  | .atomicWriteSlowVersion v => th.kind = .readWrite ∧ (∃ x, th.body th.log = .set v x) ∧
      cfg.varType v = .atomic
  | .tryCommit => th.kind = .readWrite ∧ th.body th.log = .ret
  | pc => pc.inCommit = true → th.kind = .readWrite ∧ th.body th.log = .ret

/-- One step of thread `t`, from its memory and state to the ones after it. -/
inductive Move (cfg : Config ι ν α) (sh : Shared ι ν α) (t : ι) (th : Thread ι ν α)
    (opened : ι → Option Nat) (req : Option (Request ν α)) :
    Shared ι ν α → Thread ι ν α → Prop where
  -- the call
  | enter (k : TxKind) (body : Body ν α) (hpc : th.pc = .idle)
      (hreq : k = .readWrite ∧ req = some (.readWrite body) ∨
        k = .readOnly ∧ req = some (.readOnly body)) :
      Move cfg sh t th opened req sh
        { (th.setTxState k) with pc := .getClock, kind := k, body := body }
  | reclaimNothing (hpc : th.pc = .idle) (hreq : req = some .reclaimAll)
      (hq : th.td.succCallbacks.chunks = []) : Move cfg sh t th opened req sh th
  | reclaimAll (ch : Chunk (GpCallback ν α)) (hpc : th.pc = .idle) (hreq : req = some .reclaimAll)
      (hq : th.td.succCallbacks.chunks.getLast? = some ch) :
      Move cfg sh t th opened req sh
        (th.goto (.waitMinEpoch .reclaimAll ch.epoch cfg.nodes offState))
  | getClock (hpc : th.pc = .getClock) : Move cfg sh t th opened req sh (getClockStep sh th)
  | accessLock (hpc : th.pc = .accessLock) :
      Move cfg sh t th opened req (sh.storeActive t th.version) (th.goto .call)
  -- the body
  | goto (pc' : PC ι ν α) (hin : th.pc.inBody = true)
      (hout : pc'.isEntry = true ∨ (∃ exn, pc' = .txFailure exn) ∨ pc' = .tryCommit ∨
        pc' = .txSuccess 0 ∧ th.kind = .readOnly)
      (hset : th.pc.inSet = true → ∃ exn v, pc' = .txFailure exn ∧ th.pc = .atomicWriteSlowVersion v)
      (hop : OpAt cfg th th.pc → OpAt cfg th pc') :
      Move cfg sh t th opened req sh (th.goto pc')
  | registerSucc (id : Nat) (hpc : th.pc = .call) (hk : th.kind = .readWrite)
      (hop : th.body th.log = .sometimeSynchronizedAfter id) :
      Move cfg sh t th opened req sh
        ((th.sometimeSynchronizedAfter (th.userCallback id)).opReturns none)
  | registerFail (id : Nat) (hpc : th.pc = .call) (hk : th.kind = .readWrite)
      (hop : th.body th.log = .afterFail id) :
      Move cfg sh t th opened req sh ((th.afterFail (th.userCallback id)).opReturns none)
  | nestedAtomic (hpc : th.pc = .call) (hop : th.body th.log = .nestedAtomic) :
      Move cfg sh t th opened req sh ({ th with version := sh.active t }.opReturns none)
  | readStorage (path : ReadPath) (v : ν) (hpc : th.pc = .readStorage path v) :
      Move cfg sh t th opened req sh (readStorageStep sh th path v)
  | readReturns (path : ReadPath) (v : ν) (result : VarStorage α)
      (hpc : th.pc = .readVersion path v result) (hv : sh.loadVersion v ≤ th.version) :
      Move cfg sh t th opened req (sh.noteRead t th v (result.load sh.cells))
        (((th.pushRead path v).noteRead v (result.load sh.cells)).opReturns
          (some (result.load sh.cells)))
  | pendingReturns (v : ν) (pending : VarStorage α) (hpc : th.pc = .readPending v pending)
      (hv : sh.loadVersion v ≤ th.version) :
      Move cfg sh t th opened req sh (th.opReturns (some (pending.load sh.cells)))
  | allocFast (v : ν) (x : α) (hpc : th.pc = .writeVersion v x)
      (hv : sh.loadVersion v ≤ th.version) :
      Move cfg sh t th opened req (sh.allocateConstruct x).1
        ((th.setWriteSet (th.td.writeSet.uncheckedPushBack v (.ptr sh.nextPtr)
          (cfg.varHash v))).goto (.writeCurStorage v (.ptr sh.nextPtr)))
  | curStorage (v : ν) (s : VarStorage α) (hpc : th.pc = .writeCurStorage v s) :
      Move cfg sh t th opened req sh (writeCurStorageStep sh th v s)
  | slowStorage (v : ν) (x : α) (hpc : th.pc = .writeSlowStorage v x) :
      Move cfg sh t th opened req sh (writeSlowStorageStep sh th v x)
  | allocSlow (v : ν) (x : α) (cur : VarStorage α) (hpc : th.pc = .writeSlowVersion v x cur)
      (hv : sh.loadVersion v ≤ th.version) :
      Move cfg sh t th opened req (sh.allocateConstruct x).1
        ((((th.setWriteSet (th.td.writeSet.pushBack v (.ptr sh.nextPtr)
          (cfg.baseHash v))).sometimeSynchronizedAfter (th.destroyCallback v cur)).afterFail
            (th.destroyCallback v (.ptr sh.nextPtr))).opReturns none)
  | storePending (v : ν) (x : α) (pending : VarStorage α)
      (hpc : th.pc = .writePendingVersion v x pending) (hv : sh.loadVersion v ≤ th.version) :
      Move cfg sh t th opened req (sh.storeObject pending x) (th.opReturns none)
  | atomicFast (v : ν) (s : VarStorage α) (hpc : th.pc = .atomicWriteVersion v s)
      (hv : sh.loadVersion v ≤ th.version) :
      Move cfg sh t th opened req sh
        ((th.setWriteSet (th.td.writeSet.uncheckedPushBack v s (cfg.baseHash v))).opReturns none)
  | atomicPush (v : ν) (s : VarStorage α)
      (hpc : th.pc = .call ∧ th.kind = .readWrite ∧ (∃ x, s = .raw x ∧ th.body th.log = .set v x) ∧
        cfg.varType v = .atomic ∨ th.pc = .atomicWriteVersion v s)
      (hl : th.td.writeSet.lookup cfg.baseHash v = .hash (cfg.baseHash v)) :
      Move cfg sh t th opened req sh
        ((th.setWriteSet (th.td.writeSet.pushBack v s (cfg.baseHash v))).goto
          (.atomicWriteSlowVersion v))
  | atomicOverwrite (v : ν) (s : VarStorage α) (i : Nat)
      (hpc : th.pc = .call ∧ th.kind = .readWrite ∧ (∃ x, s = .raw x ∧ th.body th.log = .set v x) ∧
        cfg.varType v = .atomic ∨ th.pc = .atomicWriteVersion v s)
      (hl : th.td.writeSet.lookup cfg.baseHash v = .pendingWrite i) :
      Move cfg sh t th opened req sh
        ((th.setWriteSet (th.td.writeSet.setPending i s)).goto (.atomicWriteSlowVersion v))
  | atomicReturns (v : ν) (hpc : th.pc = .atomicWriteSlowVersion v)
      (hv : sh.loadVersion v ≤ th.version) : Move cfg sh t th opened req sh (th.opReturns none)
  -- the commit
  | commitEmpty (hpc : th.pc = .tryCommit) (he : th.td.writeSet.entries = []) :
      Move cfg sh t th opened req
        (sh.noteCommit (commitRecord sh t th 0 th.att.start opened)) (th.goto (.txSuccess 0))
  | startCommit (hpc : th.pc = .tryCommit) (he : th.td.writeSet.entries ≠ []) :
      Move cfg sh t th opened req sh
        { th with td := removeWritesFromReads cfg th.td, pc := .lockLoad 0 }
  | allLocked (i : Nat) (hpc : th.pc = .lockLoad i) (he : th.td.writeSet.entries[i]? = none) :
      Move cfg sh t th opened req sh
        { th with pc := .validateReads 0, att := { th.att with point := sh.hist.now } }
  | lockValid (i : Nat) (e : WriteSetValueType ν (VarStorage α)) (hpc : th.pc = .lockLoad i)
      (he : th.td.writeSet.entries[i]? = some e) (hv : sh.loadVersion e.destVar ≤ th.version) :
      Move cfg sh t th opened req sh (th.goto (.lockCas i (sh.loadVersion e.destVar)))
  | lockInvalid (i : Nat) (hi : i < th.td.writeSet.entries.length)
      (hpc : th.pc = .lockLoad i ∨ ∃ buf, th.pc = .lockCas i buf) :
      Move cfg sh t th opened req sh (th.goto (.unlockLoad 0 i))
  | lock (i : Nat) (e : WriteSetValueType ν (VarStorage α))
      (hpc : th.pc = .lockCas i (sh.loadVersion e.destVar))
      (he : th.td.writeSet.entries[i]? = some e) :
      Move cfg sh t th opened req
        (sh.storeVersion e.destVar (asLocked (sh.loadVersion e.destVar)))
        (th.goto (.lockLoad (i + 1)))
  | unlockLoad (i last : Nat) (e : WriteSetValueType ν (VarStorage α))
      (hpc : th.pc = .unlockLoad i last) (hi : i < last)
      (he : th.td.writeSet.entries[i]? = some e) :
      Move cfg sh t th opened req sh (th.goto (.unlockStore i last (sh.loadVersion e.destVar)))
  | unlockDone (i last : Nat) (hpc : th.pc = .unlockLoad i last) (hi : ¬ i < last) :
      Move cfg sh t th opened req sh (th.goto (.txFailure false))
  | unlock (i last : Nat) (buf : Epoch) (e : WriteSetValueType ν (VarStorage α))
      (hpc : th.pc = .unlockStore i last buf) (he : th.td.writeSet.entries[i]? = some e) :
      Move cfg sh t th opened req (sh.storeVersion e.destVar (flipLock buf))
        (th.goto (.unlockLoad (i + 1) last))
  | validated (i : Nat) (hpc : th.pc = .validateReads i) (he : th.td.readSet.data[i]? = none) :
      Move cfg sh t th opened req sh (th.goto (.doWrites 0))
  | readValid (i : Nat) (v : ν) (hpc : th.pc = .validateReads i)
      (he : th.td.readSet.data[i]? = some v) (hv : sh.loadVersion v ≤ th.version) :
      Move cfg sh t th opened req sh (th.goto (.validateReads (i + 1)))
  | readInvalid (i : Nat) (hpc : th.pc = .validateReads i) :
      Move cfg sh t th opened req sh
        (th.goto (.unlockLoad 0 th.td.writeSet.entries.length))
  | store (i : Nat) (e : WriteSetValueType ν (VarStorage α)) (hpc : th.pc = .doWrites i)
      (he : th.td.writeSet.entries[i]? = some e) :
      Move cfg sh t th opened req (sh.storeStorage e.destVar e.pendingWrite)
        (th.goto (.doWrites (i + 1)))
  | allStored (i : Nat) (hpc : th.pc = .doWrites i) (he : th.td.writeSet.entries[i]? = none) :
      Move cfg sh t th opened req sh (th.goto .bumpClock)
  | bump (hpc : th.pc = .bumpClock) (hc : sh.clock < maxVersion - bumpSize) :
      Move cfg sh t th opened req
        ({ sh with clock := sh.clock + bumpSize }.noteCommit
          (commitRecord { sh with clock := sh.clock + bumpSize } t th (sh.clock + bumpSize)
            th.att.point opened))
        (th.goto (.publish 0 sh.clock))
  | publish (i : Nat) (syncEpoch : Epoch) (e : WriteSetValueType ν (VarStorage α))
      (hpc : th.pc = .publish i syncEpoch) (he : th.td.writeSet.entries[i]? = some e) :
      Move cfg sh t th opened req (sh.storeVersion e.destVar (syncEpoch + bumpSize))
        (th.goto (.publish (i + 1) syncEpoch))
  | published (i : Nat) (syncEpoch : Epoch) (hpc : th.pc = .publish i syncEpoch)
      (he : th.td.writeSet.entries[i]? = none) :
      Move cfg sh t th opened req sh (th.goto (.txSuccess syncEpoch))
  -- the exits
  | successReadOnly (syncEpoch : Epoch) (hpc : th.pc = .txSuccess syncEpoch)
      (hk : th.kind = .readOnly) :
      Move cfg sh t th opened req (sh.storeActive t offState) ((th.setTxState .none).goto .idle)
  | success (syncEpoch : Epoch) (hpc : th.pc = .txSuccess syncEpoch) (hk : th.kind ≠ .readOnly) :
      Move cfg sh t th opened req ((sh.storeActive t offState).noteFinished t th.att.number)
        (((th.setTxState .none).clearReadWriteSets.clearFailCallbacks).reclaim cfg syncEpoch)
  | failureReadOnly (exn : Bool) (hpc : th.pc = .txFailure exn) (hk : th.kind = .readOnly) :
      Move cfg sh t th opened req (sh.storeActive t offState) (afterFailure th exn)
  | failure (exn : Bool) (hpc : th.pc = .txFailure exn) (hk : th.kind ≠ .readOnly) :
      Move cfg sh t th opened req (sh.storeActive t offState)
        ((th.clearReadWriteSets.clearWorkingEpoch).goto
          (.failCallbacks exn th.td.failCallbacks.data.length))
  | failCallback (exn : Bool) (left : Nat) (cb : GpCallback ν α)
      (hpc : th.pc = .failCallbacks exn (left + 1))
      (hcb : th.td.failCallbacks.data[left]? = some cb) :
      Move cfg sh t th opened req (sh.runAction cb.action)
        ((th.runs cb).goto (.failCallbacks exn left))
  | failDone (exn : Bool) (hpc : th.pc = .failCallbacks exn 0) :
      Move cfg sh t th opened req sh (afterFailure th.clearFailCallbacks exn)
  -- reclamation
  | scanned (mode : ReclaimMode) (epoch result : Epoch)
      (hpc : th.pc = .waitMinEpoch mode epoch [] result) :
      Move cfg sh t th opened req sh (th.goto (.succCallbacks mode epoch result 0))
  | scanWait (mode : ReclaimMode) (epoch result : Epoch) (u : ι) (nodes : List ι)
      (hpc : th.pc = .waitMinEpoch mode epoch (u :: nodes) result) (ha : sh.active u ≤ epoch) :
      Move cfg sh t th opened req sh (th.goto (.waitOnEpoch mode epoch u nodes result))
  | scanPass (mode : ReclaimMode) (epoch result : Epoch) (u : ι) (nodes : List ι)
      (hpc : th.pc = .waitMinEpoch mode epoch (u :: nodes) result) (ha : epoch < sh.active u) :
      Move cfg sh t th opened req sh
        (th.goto (.waitMinEpoch mode epoch nodes (min (sh.active u) result)))
  | waitMore (mode : ReclaimMode) (epoch result : Epoch) (u : ι) (nodes : List ι)
      (hpc : th.pc = .waitOnEpoch mode epoch u nodes result) (ha : sh.active u ≤ epoch) :
      Move cfg sh t th opened req sh th
  | waitDone (mode : ReclaimMode) (epoch result : Epoch) (u : ι) (nodes : List ι)
      (hpc : th.pc = .waitOnEpoch mode epoch u nodes result) (ha : epoch < sh.active u) :
      Move cfg sh t th opened req sh (th.goto (.waitMinEpoch mode epoch nodes result))
  | succCallback (mode : ReclaimMode) (epoch minEpoch : Epoch) (i : Nat)
      (ch : Chunk (GpCallback ν α)) (cb : GpCallback ν α)
      (hpc : th.pc = .succCallbacks mode epoch minEpoch i)
      (hch : th.td.succCallbacks.chunks.head? = some ch) (hcb : ch.callbacks[i]? = some cb) :
      Move cfg sh t th opened req (sh.runAction cb.action)
        ((th.runs cb).goto (.succCallbacks mode epoch minEpoch (i + 1)))
  | succNext (mode : ReclaimMode) (epoch minEpoch : Epoch) (i : Nat)
      (ch : Chunk (GpCallback ν α)) (hpc : th.pc = .succCallbacks mode epoch minEpoch i)
      (hch : th.td.succCallbacks.chunks.head? = some ch) (hcb : ch.callbacks[i]? = none)
      (hn : reclaimsNext mode minEpoch th.td.succCallbacks.popFront = true) :
      Move cfg sh t th opened req sh
        ({ th with td := { th.td with succCallbacks := th.td.succCallbacks.popFront } }.goto
          (.succCallbacks mode epoch minEpoch 0))
  | succDone (mode : ReclaimMode) (epoch minEpoch : Epoch) (i : Nat)
      (ch : Chunk (GpCallback ν α)) (hpc : th.pc = .succCallbacks mode epoch minEpoch i)
      (hch : th.td.succCallbacks.chunks.head? = some ch) (hcb : ch.callbacks[i]? = none)
      (hn : reclaimsNext mode minEpoch th.td.succCallbacks.popFront = false) :
      Move cfg sh t th opened req sh
        ({ th with td := { th.td with succCallbacks := th.td.succCallbacks.popFront } }.goto .idle)

/-! ## The inversion -/

section Inversion

variable {cfg : Config ι ν α} {sh sh' : Shared ι ν α} {t : ι} {th th' : Thread ι ν α}
  {opened : ι → Option Nat} {req : Option (Request ν α)}

omit [DecidableEq ι] [DecidableEq ν] in
theorem rwValid_iff {e : Epoch} : th.rwValid e = true ↔ e ≤ th.version := decide_eq_true_iff

omit [DecidableEq ι] in
/-- The slow path of a get goes to one of its two first loads. -/
theorem rwReadSlowPath_cases {tracked : Bool} {v : ν}
    (h : th.rwReadSlowPath cfg tracked v = some th') (hk : th.kind = .readWrite)
    (hop : th.body th.log = if tracked then .get v else .untrackedGet v) :
    ∃ pc', th' = th.goto pc' ∧ pc'.isEntry = true ∧ OpAt cfg th pc' := by
  unfold Thread.rwReadSlowPath at h
  split at h
  · rename_i hf
    cases h
    refine ⟨_, rfl, rfl, ?_⟩
    cases tracked <;> exact ⟨hk, hop, hf⟩
  · rename_i i hf
    obtain ⟨e, he, rfl⟩ := Option.map_eq_some_iff.mp h
    refine ⟨_, rfl, rfl, hk, ?_, i, hf, by rw [he]; rfl⟩
    cases tracked
    · exact Or.inr hop
    · exact Or.inl hop

omit [DecidableEq ι] in
theorem rwReadBase_cases {tracked : Bool} {v : ν} (h : th.rwReadBase cfg tracked v = some th')
    (hk : th.kind = .readWrite) (hop : th.body th.log = if tracked then .get v else .untrackedGet v) :
    ∃ pc', th' = th.goto pc' ∧ pc'.isEntry = true ∧ OpAt cfg th pc' := by
  unfold Thread.rwReadBase at h
  split at h
  · rename_i hf
    cases h
    have hf' : th.td.writeSet.filter &&& cfg.baseHash v = 0#64 := by
      rw [Bool.and_eq_true, beq_iff_eq] at hf
      exact hf.2
    refine ⟨_, rfl, rfl, ?_⟩
    cases tracked <;> exact ⟨hk, hop, hf'⟩
  · exact rwReadSlowPath_cases h hk hop

omit [DecidableEq ι] in
theorem rwWriteSlowPath_cases {v : ν} {x : α} (h : th.rwWriteSlowPath cfg v x = some th')
    (hk : th.kind = .readWrite) (hop : th.body th.log = .set v x) (hv : cfg.varType v = .heap) :
    ∃ pc', th' = th.goto pc' ∧ pc'.isEntry = true ∧ OpAt cfg th pc' := by
  unfold Thread.rwWriteSlowPath at h
  split at h
  · rename_i hash hl
    cases h
    obtain rfl := PodHashSet.lookup_hash hl
    exact ⟨_, rfl, rfl, hk, hop, hv, hl⟩
  · rename_i i hl
    obtain ⟨e, he, rfl⟩ := Option.map_eq_some_iff.mp h
    exact ⟨_, rfl, rfl, hk, hop, hv, i, hl, by rw [he]; rfl⟩

/-- The slow path of a set of an atomic var pushes it or overwrites its pending storage. -/
theorem rwAtomicWriteSlowPath_move {v : ν} {s : VarStorage α}
    (hpc : th.pc = .call ∧ th.kind = .readWrite ∧ (∃ x, s = .raw x ∧ th.body th.log = .set v x) ∧
      cfg.varType v = .atomic ∨ th.pc = .atomicWriteVersion v s) :
    Move cfg sh t th opened req sh (th.rwAtomicWriteSlowPath cfg v s) := by
  unfold Thread.rwAtomicWriteSlowPath
  split
  · rename_i hl
    obtain rfl := PodHashSet.lookup_hash hl
    exact .atomicPush v s hpc hl
  · exact .atomicOverwrite v s _ hpc ‹_›

omit [DecidableEq ι] [DecidableEq ν] in
theorem not_inSet {pc : PC ι ν α} {P : Prop} (h : pc.inSet = false) (h' : pc.inSet = true) : P := by
  rw [h] at h'
  cases h'

theorem move_of_cases (hin : th.pc.inBody = true) (hset : th.pc.inSet = false)
    (h : ∃ pc', th' = th.goto pc' ∧ pc'.isEntry = true ∧ OpAt cfg th pc') :
    Move cfg sh t th opened req sh th' := by
  obtain ⟨pc', rfl, hb, hop⟩ := h
  exact .goto pc' hin (Or.inl hb) (not_inSet hset) fun _ => hop

theorem callStep_move (hpc : th.pc = .call) (h : callStep cfg sh t th = some th') :
    Move cfg sh t th opened req sh th' := by
  have hin : th.pc.inBody = true := by rw [hpc]; rfl
  have hset : th.pc.inSet = false := by rw [hpc]; rfl
  unfold callStep at h
  split at h
  case h_1 hk hop => exact move_of_cases hin hset (rwReadBase_cases h hk hop)
  case h_2 hk hop => exact move_of_cases hin hset (rwReadBase_cases h hk hop)
  case h_3 hk hop =>
    cases h
    exact .goto _ hin (Or.inl rfl) (not_inSet hset) fun _ => Or.inl hop
  case h_4 hk hop =>
    split at h
    · rename_i hv
      unfold Thread.rwWrite at h
      split at h
      · exact move_of_cases hin hset (rwWriteSlowPath_cases h hk hop hv)
      · rename_i hf
        cases h
        refine .goto _ hin (Or.inl rfl) (not_inSet hset) fun _ => ⟨hk, hop, hv, ?_⟩
        simp only [Bool.or_eq_true, not_or, bne_iff_ne, ne_eq, Decidable.not_not] at hf
        exact hf.1.1.2
    · rename_i hv
      cases h
      unfold Thread.rwAtomicWriteBase
      split
      · exact rwAtomicWriteSlowPath_move (Or.inl ⟨hpc, hk, ⟨_, rfl, hop⟩, hv⟩)
      · rename_i hf
        refine .goto _ hin (Or.inl rfl) (not_inSet hset) fun _ => ⟨hk, ⟨_, rfl, hop⟩, hv, ?_⟩
        simp only [Bool.or_eq_true, not_or, bne_iff_ne, ne_eq, Decidable.not_not] at hf
        exact hf.2
  case h_5 hk hop => cases h; exact .registerSucc _ hpc hk hop
  case h_6 hk hop => cases h; exact .registerFail _ hpc hk hop
  case h_7 hk hop => cases h; exact .nestedAtomic hpc hop
  case h_8 hk hop =>
    cases h
    exact .goto _ hin (Or.inr (Or.inr (Or.inl rfl))) (not_inSet hset) fun _ => ⟨hk, hop⟩
  case h_9 hk hop =>
    cases h
    exact .goto _ hin (Or.inl rfl) (not_inSet hset) fun _ => Or.inr ⟨hk, Or.inl hop⟩
  case h_10 hk hop =>
    cases h
    exact .goto _ hin (Or.inl rfl) (not_inSet hset) fun _ => Or.inr ⟨hk, Or.inr hop⟩
  case h_11 hk hop =>
    cases h
    exact .goto _ hin (Or.inl rfl) (not_inSet hset) fun _ => Or.inl hop
  case h_12 hk hop => cases h; exact .nestedAtomic hpc hop
  case h_13 hk hop =>
    cases h
    exact .goto _ hin (Or.inr (Or.inr (Or.inr ⟨rfl, hk⟩))) (not_inSet hset) fun _ hc => by cases hc
  case h_15 | h_16 =>
    cases h
    exact .goto _ hin (Or.inr (Or.inl ⟨_, rfl⟩)) (not_inSet hset) fun _ hc => by
      cases hc
  all_goals cases h

/-- An invalid version_lock ends the attempt. -/
theorem retry_move (hin : th.pc.inBody = true)
    (hset : th.pc.inSet = true → ∃ v, th.pc = .atomicWriteSlowVersion v) :
    Move cfg sh t th opened req sh th.internalRetry :=
  .goto _ hin (Or.inr (Or.inl ⟨false, rfl⟩))
    (fun h => (hset h).elim fun v hv => ⟨false, v, rfl, hv⟩) fun _ hc => by cases hc

/-- A get checks the version: it returns, tries again on the slow path, or ends the attempt. -/
theorem readVersionStep_move {path : ReadPath} {v : ν} {result : VarStorage α}
    (hpc : th.pc = .readVersion path v result)
    (h : readVersionStep cfg sh t th path v result = some (sh', th')) :
    Move cfg sh t th opened req sh' th' := by
  have hin : th.pc.inBody = true := by rw [hpc]; rfl
  have hset : th.pc.inSet = false := by rw [hpc]; rfl
  unfold readVersionStep at h
  split at h
  · rename_i hv
    cases h
    exact .readReturns path v result hpc (rwValid_iff.mp hv)
  · split at h
    · rename_i tracked
      obtain ⟨r, hr, e⟩ := Option.map_eq_some_iff.mp h
      cases e
      unfold Thread.rwReadSlowPath at hr
      split at hr
      · rename_i hf
        cases hr
        refine .goto _ hin (Or.inl rfl) (not_inSet hset) fun hop => ?_
        rw [hpc] at hop
        cases tracked <;> exact ⟨hop.1, hop.2.1, hf⟩
      · rename_i i hf
        obtain ⟨e, he, rfl⟩ := Option.map_eq_some_iff.mp hr
        refine .goto _ hin (Or.inl rfl) (not_inSet hset) fun hop => ?_
        rw [hpc] at hop
        cases tracked
        · exact ⟨hop.1, Or.inr hop.2.1, i, hf, by rw [he]; rfl⟩
        · exact ⟨hop.1, Or.inl hop.2.1, i, hf, by rw [he]; rfl⟩
    · cases h
      exact retry_move hin (not_inSet hset)

/-- The fast path of a set checks the version: it allocates, or goes to the slow path. -/
theorem writeVersionStep_move {v : ν} {x : α} (hpc : th.pc = .writeVersion v x)
    (h : writeVersionStep cfg sh th v x = some (sh', th')) :
    Move cfg sh t th opened req sh' th' := by
  have hin : th.pc.inBody = true := by rw [hpc]; rfl
  have hset : th.pc.inSet = false := by rw [hpc]; rfl
  unfold writeVersionStep at h
  split at h
  · rename_i hv
    cases h
    exact .allocFast v x hpc (rwValid_iff.mp hv)
  · obtain ⟨r, hr, e⟩ := Option.map_eq_some_iff.mp h
    cases e
    unfold Thread.rwWriteSlowPath at hr
    split at hr
    · rename_i hl
      cases hr
      obtain rfl := PodHashSet.lookup_hash hl
      refine .goto _ hin (Or.inl rfl) (not_inSet hset) fun hop => ?_
      rw [hpc] at hop
      exact ⟨hop.1, hop.2.1, hop.2.2.1, hl⟩
    · rename_i i hl
      obtain ⟨e, he, rfl⟩ := Option.map_eq_some_iff.mp hr
      refine .goto _ hin (Or.inl rfl) (not_inSet hset) fun hop => ?_
      rw [hpc] at hop
      exact ⟨hop.1, hop.2.1, hop.2.2.1, i, hl, by rw [he]; rfl⟩

/-- A get of a pending object checks the version. -/
theorem readPendingStep_move {v : ν} {pending : VarStorage α} (hpc : th.pc = .readPending v pending) :
    Move cfg sh t th opened req sh (readPendingStep sh th v pending) := by
  have hin : th.pc.inBody = true := by rw [hpc]; rfl
  unfold readPendingStep
  split
  · rename_i hv
    exact .pendingReturns v pending hpc (rwValid_iff.mp hv)
  · exact retry_move hin (not_inSet (by rw [hpc]; rfl))

/-- The slow path of a set checks the version before it allocates. -/
theorem writeSlowVersionStep_move {v : ν} {x : α} {cur : VarStorage α}
    (hpc : th.pc = .writeSlowVersion v x cur) (h : writeSlowVersionStep cfg sh th v x cur = (sh', th')) :
    Move cfg sh t th opened req sh' th' := by
  have hin : th.pc.inBody = true := by rw [hpc]; rfl
  unfold writeSlowVersionStep at h
  split at h <;> cases h
  · rename_i hv
    exact .allocSlow v x cur hpc (rwValid_iff.mp hv)
  · exact retry_move hin (not_inSet (by rw [hpc]; rfl))

/-- A set of a var with a pending object checks the version before it assigns. -/
theorem writePendingVersionStep_move {v : ν} {x : α} {pending : VarStorage α}
    (hpc : th.pc = .writePendingVersion v x pending)
    (h : writePendingVersionStep sh th v x pending = (sh', th')) : Move cfg sh t th opened req sh' th' := by
  have hin : th.pc.inBody = true := by rw [hpc]; rfl
  unfold writePendingVersionStep at h
  split at h <;> cases h
  · rename_i hv
    exact .storePending v x pending hpc (rwValid_iff.mp hv)
  · exact retry_move hin (not_inSet (by rw [hpc]; rfl))

/-- The fast path of a set of an atomic var checks the version, and goes to the slow path if it fails. -/
theorem atomicWriteVersionStep_move {v : ν} {s : VarStorage α} (hpc : th.pc = .atomicWriteVersion v s) :
    Move cfg sh t th opened req sh (atomicWriteVersionStep cfg sh th v s) := by
  unfold atomicWriteVersionStep
  split
  · rename_i hv
    exact .atomicFast v s hpc (rwValid_iff.mp hv)
  · exact rwAtomicWriteSlowPath_move (Or.inr hpc)

/-- The slow path of a set of an atomic var checks the version after the write. -/
theorem atomicWriteSlowVersionStep_move {v : ν} (hpc : th.pc = .atomicWriteSlowVersion v) :
    Move cfg sh t th opened req sh (atomicWriteSlowVersionStep sh th v) := by
  have hin : th.pc.inBody = true := by rw [hpc]; rfl
  unfold atomicWriteSlowVersionStep
  split
  · rename_i hv
    exact .atomicReturns v hpc (rwValid_iff.mp hv)
  · exact retry_move hin fun _ => ⟨v, hpc⟩

theorem tryCommitStep_move (hpc : th.pc = .tryCommit) (h : tryCommitStep cfg sh t th opened = (sh', th')) :
    Move cfg sh t th opened req sh' th' := by
  unfold tryCommitStep at h
  split at h <;> cases h
  · rename_i he
    exact .commitEmpty hpc he
  · rename_i he
    exact .startCommit hpc (by rw [he]; exact List.cons_ne_nil _ _)

theorem lockLoadStep_move {i : Nat} (hpc : th.pc = .lockLoad i) :
    Move cfg sh t th opened req sh (lockLoadStep sh th i) := by
  unfold lockLoadStep
  split
  · rename_i he
    exact .allLocked i hpc he
  · rename_i e he
    split
    · rename_i hv
      exact .lockValid i e hpc he (rwValid_iff.mp hv)
    · exact .lockInvalid i (List.getElem?_eq_some_iff.mp he).1 (Or.inl hpc)

theorem lockCasStep_move {i : Nat} {versionBuf : Epoch} (hpc : th.pc = .lockCas i versionBuf)
    (h : lockCasStep sh th i versionBuf = some (sh', th')) : Move cfg sh t th opened req sh' th' := by
  obtain ⟨e, he, hr⟩ := Option.map_eq_some_iff.mp h
  split at hr <;> cases hr
  · rename_i hb
    subst hb
    exact .lock i e hpc he
  · exact .lockInvalid i (List.getElem?_eq_some_iff.mp he).1 (Or.inr ⟨versionBuf, hpc⟩)

theorem unlockLoadStep_move {i last : Nat} (hpc : th.pc = .unlockLoad i last)
    (h : unlockLoadStep sh th i last = some th') : Move cfg sh t th opened req sh th' := by
  unfold unlockLoadStep at h
  split at h
  · rename_i hi
    obtain ⟨e, he, rfl⟩ := Option.map_eq_some_iff.mp h
    exact .unlockLoad i last e hpc hi he
  · rename_i hi
    cases h
    exact .unlockDone i last hpc hi

theorem unlockStoreStep_move {i last : Nat} {versionBuf : Epoch}
    (hpc : th.pc = .unlockStore i last versionBuf)
    (h : unlockStoreStep sh th i last versionBuf = some (sh', th')) : Move cfg sh t th opened req sh' th' := by
  obtain ⟨e, he, hr⟩ := Option.map_eq_some_iff.mp h
  cases hr
  exact .unlock i last versionBuf e hpc he

theorem validateReadsStep_move {i : Nat} (hpc : th.pc = .validateReads i) :
    Move cfg sh t th opened req sh (validateReadsStep sh th i) := by
  unfold validateReadsStep
  split
  · rename_i he
    exact .validated i hpc he
  · rename_i v he
    split
    · rename_i hv
      exact .readValid i v hpc he (rwValid_iff.mp hv)
    · exact .readInvalid i hpc

theorem doWritesStep_move {i : Nat} (hpc : th.pc = .doWrites i) (h : doWritesStep sh th i = (sh', th')) :
    Move cfg sh t th opened req sh' th' := by
  unfold doWritesStep at h
  split at h <;> cases h
  · rename_i he
    exact .allStored i hpc he
  · rename_i e he
    exact .store i e hpc he

/-- The clock bump raises an error if the clock has come to its end. -/
theorem bumpClockStep_move (hpc : th.pc = .bumpClock) (h : bumpClockStep sh t th opened = some (sh', th')) :
    Move cfg sh t th opened req sh' th' := by
  obtain ⟨r, hr, e⟩ := Option.map_eq_some_iff.mp h
  unfold Shared.fetchAndBumpClock at hr
  split at hr <;> cases hr
  rename_i hc
  cases e
  exact .bump hpc hc

theorem publishStep_move {i : Nat} {syncEpoch : Epoch} (hpc : th.pc = .publish i syncEpoch)
    (h : publishStep sh th i syncEpoch = (sh', th')) : Move cfg sh t th opened req sh' th' := by
  unfold publishStep at h
  split at h <;> cases h
  · rename_i he
    exact .published i syncEpoch hpc he
  · rename_i e he
    exact .publish i syncEpoch e hpc he

theorem txSuccessStep_move {syncEpoch : Epoch} (hpc : th.pc = .txSuccess syncEpoch)
    (h : txSuccessStep cfg sh t th syncEpoch = (sh', th')) : Move cfg sh t th opened req sh' th' := by
  unfold txSuccessStep at h
  split at h <;> cases h
  · rename_i hk
    exact .successReadOnly syncEpoch hpc hk
  · rename_i hk
    exact .success syncEpoch hpc hk

theorem txFailureStep_move {exn : Bool} (hpc : th.pc = .txFailure exn)
    (h : txFailureStep sh t th exn = (sh', th')) : Move cfg sh t th opened req sh' th' := by
  unfold txFailureStep at h
  split at h <;> cases h
  · rename_i hk
    exact .failureReadOnly exn hpc hk
  · rename_i hk
    exact .failure exn hpc hk

theorem failCallbacksStep_move {exn : Bool} {left : Nat} (hpc : th.pc = .failCallbacks exn left)
    (h : failCallbacksStep sh th exn left = some (sh', th')) : Move cfg sh t th opened req sh' th' := by
  cases left with
  | zero =>
      cases h
      exact .failDone exn hpc
  | succ left =>
      obtain ⟨cb, hcb, e⟩ := Option.map_eq_some_iff.mp h
      cases e
      exact .failCallback exn left cb hpc hcb

theorem waitMinEpochStep_move {mode : ReclaimMode} {epoch result : Epoch} {nodes : List ι}
    (hpc : th.pc = .waitMinEpoch mode epoch nodes result) :
    Move cfg sh t th opened req sh (waitMinEpochStep sh th mode epoch nodes result) := by
  unfold waitMinEpochStep
  split
  · exact .scanned mode epoch result hpc
  · rename_i u rest
    split
    · rename_i ha
      exact .scanWait mode epoch result u rest hpc ha
    · rename_i ha
      exact .scanPass mode epoch result u rest hpc (Nat.lt_of_not_le ha)

theorem waitOnEpochStep_move {mode : ReclaimMode} {epoch result : Epoch} {u : ι} {nodes : List ι}
    (hpc : th.pc = .waitOnEpoch mode epoch u nodes result) :
    Move cfg sh t th opened req sh (waitOnEpochStep sh th mode epoch u nodes result) := by
  unfold waitOnEpochStep
  split
  · rename_i ha
    exact .waitMore mode epoch result u nodes hpc ha
  · rename_i ha
    exact .waitDone mode epoch result u nodes hpc (Nat.lt_of_not_le ha)

theorem succCallbacksStep_move {mode : ReclaimMode} {epoch minEpoch : Epoch} {i : Nat}
    (hpc : th.pc = .succCallbacks mode epoch minEpoch i)
    (h : succCallbacksStep sh th mode epoch minEpoch i = some (sh', th')) :
    Move cfg sh t th opened req sh' th' := by
  obtain ⟨ch, hch, e⟩ := Option.map_eq_some_iff.mp h
  revert e
  simp only
  split
  · rename_i cb hcb
    intro e
    cases e
    exact .succCallback mode epoch minEpoch i ch cb hpc hch hcb
  · rename_i hcb
    split
    · rename_i hn
      intro e
      cases e
      exact .succNext mode epoch minEpoch i ch hpc hch hcb hn
    · rename_i hn
      intro e
      cases e
      exact .succDone mode epoch minEpoch i ch hpc hch hcb (by simpa using hn)

theorem requestStep_move {r : Request ν α} (hpc : th.pc = .idle) (hr : req = some r) :
    Move cfg sh t th opened req sh (requestStep cfg th r) := by
  cases r with
  | readWrite body => exact .enter .readWrite body hpc (Or.inl ⟨rfl, hr⟩)
  | readOnly body => exact .enter .readOnly body hpc (Or.inr ⟨rfl, hr⟩)
  | reclaimAll =>
      simp only [requestStep, EpochQueue.backEpoch?]
      cases hl : th.td.succCallbacks.chunks.getLast? with
      | none => exact .reclaimNothing hpc hr (List.getLast?_eq_none_iff.mp hl)
      | some ch => exact .reclaimAll ch hpc hr hl

/-- **Every step is a move.** -/
theorem threadStep_move (h : threadStep cfg sh t th opened req = some (sh', th')) :
    Move cfg sh t th opened req sh' th' := by
  unfold threadStep at h
  split at h
  case h_1 hpc =>
    obtain ⟨r, hr, e⟩ := Option.map_eq_some_iff.mp h
    cases e
    exact requestStep_move hpc hr
  case h_2 hpc => cases h; exact .getClock hpc
  case h_3 hpc => cases h; exact .accessLock hpc
  -- the body
  case h_4 hpc =>
    obtain ⟨r, hr, e⟩ := Option.map_eq_some_iff.mp h
    cases e
    exact callStep_move hpc hr
  case h_5 hpc => cases h; exact .readStorage _ _ hpc
  case h_6 hpc => exact readVersionStep_move hpc h
  case h_7 hpc => cases h; exact readPendingStep_move hpc
  case h_8 hpc => exact writeVersionStep_move hpc h
  case h_9 hpc => cases h; exact .curStorage _ _ hpc
  case h_10 hpc => cases h; exact .slowStorage _ _ hpc
  case h_11 hpc => exact writeSlowVersionStep_move hpc (Option.some.inj h)
  case h_12 hpc => exact writePendingVersionStep_move hpc (Option.some.inj h)
  case h_13 hpc => cases h; exact atomicWriteVersionStep_move hpc
  case h_14 hpc => cases h; exact atomicWriteSlowVersionStep_move hpc
  -- the commit
  case h_15 hpc => exact tryCommitStep_move hpc (Option.some.inj h)
  case h_16 hpc => cases h; exact lockLoadStep_move hpc
  case h_17 hpc => exact lockCasStep_move hpc h
  case h_18 hpc =>
    obtain ⟨r, hr, e⟩ := Option.map_eq_some_iff.mp h
    cases e
    exact unlockLoadStep_move hpc hr
  case h_19 hpc => exact unlockStoreStep_move hpc h
  case h_20 hpc => cases h; exact validateReadsStep_move hpc
  case h_21 hpc => exact doWritesStep_move hpc (Option.some.inj h)
  case h_22 hpc => exact bumpClockStep_move hpc h
  case h_23 hpc => exact publishStep_move hpc (Option.some.inj h)
  -- the exits and the reclamation
  case h_24 hpc => exact txSuccessStep_move hpc (Option.some.inj h)
  case h_25 hpc => exact txFailureStep_move hpc (Option.some.inj h)
  case h_26 hpc => exact failCallbacksStep_move hpc h
  case h_27 hpc => cases h; exact waitMinEpochStep_move hpc
  case h_28 hpc => cases h; exact waitOnEpochStep_move hpc
  case h_29 hpc => exact succCallbacksStep_move hpc h

end Inversion

end Move

end LockfreeStm
