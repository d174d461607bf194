/-
  File:      LockfreeStm/Machine/Due.lean
  Subject:   THE CALLBACKS THAT ARE DUE: which success callback waits for which epoch, and which attempt
             has registered it.

  * `Thread.Due`, `Move.due` -- a callback becomes due when its transaction commits, under the epoch the
    commit synchronizes on; from then on it is due until it has run.
  * `Numbered`, `numbered_reach` -- in every state reached a callback that is due is one of an earlier
    attempt than the one that runs, so the commit it belongs to stays the same.
-/
import LockfreeStm.Machine.Ownership

namespace LockfreeStm

variable {ι ν α : Type}

/-! ## 1. Due callbacks -/

/-- The thread has still to run the callback, in a chunk of this epoch. -/
def Thread.Due (th : Thread ι ν α) (epoch : Epoch) (cb : GpCallback ν α) : Prop :=
  ∃ ch ∈ th.left, ch.epoch = epoch ∧ cb ∈ ch.callbacks

/-- The chunks in the queue, with the callbacks of the front chunk that have run. -/
def Thread.queue (th : Thread ι ν α) : List (Chunk (GpCallback ν α)) :=
  match th.pc with
  | .publish _ syncEpoch | .txSuccess syncEpoch =>
      th.td.succCallbacks.chunks ++ [⟨syncEpoch, th.td.succCallbacks.working⟩]
  | _ => th.td.succCallbacks.chunks

/-- The callback is in the queue, in a chunk of this epoch. -/
def Thread.InQueue (th : Thread ι ν α) (epoch : Epoch) (cb : GpCallback ν α) : Prop :=
  ∃ ch ∈ th.queue, ch.epoch = epoch ∧ cb ∈ ch.callbacks

/-- The places where the thread neither runs a chunk nor has just committed. -/
def PC.isSettled : PC ι ν α → Bool
  | .succCallbacks _ _ _ _ | .publish _ _ | .txSuccess _ => false
  | _ => true

theorem PC.isSettled_of_phase {pc : PC ι ν α} (h : pc.phase = .attempt) : pc.isSettled = true := by
  cases pc <;> first | rfl | cases h

namespace Thread

/-- Where the thread neither runs a chunk nor has just committed it has its queue left to run. -/
theorem left_eq {th : Thread ι ν α} (h : th.pc.isSettled = true) :
    th.left = th.td.succCallbacks.chunks := by
  unfold left
  cases hpc : th.pc <;> rw [hpc] at h <;> first | rfl | cases h

theorem left_committed {th : Thread ι ν α} {e : Epoch} (h : (∃ i, th.pc = .publish i e) ∨ th.pc = .txSuccess e) :
    th.left = th.td.succCallbacks.chunks ++ [⟨e, th.td.succCallbacks.working⟩] := by
  rcases h with ⟨i, h⟩ | h <;> rw [left, h]

theorem queue_eq {th : Thread ι ν α} (h : th.pc.isSettled = true) :
    th.queue = th.td.succCallbacks.chunks := by
  unfold queue
  cases hpc : th.pc <;> rw [hpc] at h <;> first | rfl | cases h

theorem queue_committed {th : Thread ι ν α} {e : Epoch}
    (h : (∃ i, th.pc = .publish i e) ∨ th.pc = .txSuccess e) :
    th.queue = th.td.succCallbacks.chunks ++ [⟨e, th.td.succCallbacks.working⟩] := by
  rcases h with ⟨i, h⟩ | h <;> rw [queue, h]

/-- Behind `i` callbacks of the front chunk. -/
theorem left_running {th : Thread ι ν α} {mode : ReclaimMode} {e m : Epoch} {i : Nat}
    (h : th.pc = .succCallbacks mode e m i) {ch : Chunk (GpCallback ν α)} {rest : List (Chunk (GpCallback ν α))}
    (hq : th.td.succCallbacks.chunks = ch :: rest) :
    th.left = { ch with callbacks := ch.callbacks.drop i } :: rest ∧ th.queue = ch :: rest := by
  rw [left, queue, h]
  simp only [hq, and_self]

/-- Elsewhere nothing in the queue has run. -/
theorem left_eq_queue {th : Thread ι ν α} (h : th.pc.isRunning = false) : th.left = th.queue := by
  unfold left queue
  cases hpc : th.pc <;> first | rfl | (rw [hpc] at h; cases h)

/-- What is due is in the queue. -/
theorem Due.inQueue {th : Thread ι ν α} {e : Epoch} {cb : GpCallback ν α} (h : th.Due e cb) :
    th.InQueue e cb := by
  obtain ⟨ch, hch, he, hcb⟩ := h
  cases hpc : th.pc with
  | succCallbacks mode ep m i =>
      cases hq : th.td.succCallbacks.chunks with
      | nil =>
          rw [left, hpc] at hch
          simp [hq] at hch
      | cons d rest =>
          obtain ⟨hl, hq'⟩ := left_running hpc hq
          rw [hl] at hch
          rw [InQueue, hq']
          rcases List.mem_cons.mp hch with rfl | hch
          · exact ⟨d, List.mem_cons_self, he, List.mem_of_mem_drop hcb⟩
          · exact ⟨ch, List.mem_cons_of_mem _ hch, he, hcb⟩
  | _ =>
      rw [left_eq_queue (by rw [hpc]; rfl)] at hch
      exact ⟨ch, hch, he, hcb⟩

theorem Due.mem {th : Thread ι ν α} {e : Epoch} {cb : GpCallback ν α} (h : th.Due e cb) :
    cb ∈ th.left.flatMap (·.callbacks) := by
  obtain ⟨ch, hch, _, hcb⟩ := h
  exact List.mem_flatMap.mpr ⟨ch, hch, hcb⟩

end Thread

variable [DecidableEq ι] [DecidableEq ν]

section Move

variable {cfg : Config ι ν α} {sh sh' : Shared ι ν α} {t : ι} {th th' : Thread ι ν α}
  {opened : ι → Option Nat} {req : Option (Request ν α)}

omit [DecidableEq ι] [DecidableEq ν] in
theorem chunks_reclaim (cfg : Config ι ν α) (th : Thread ι ν α) (e : Epoch) :
    (th.reclaim cfg e).td.succCallbacks.chunks =
      if th.td.succCallbacks.working.isEmpty then th.td.succCallbacks.chunks
      else th.td.succCallbacks.chunks ++ [⟨e, th.td.succCallbacks.working⟩] := by
  rw [← EpochQueue.chunks_finalizeEpoch _ cfg.reclaimLimit]
  simp only [Thread.reclaim]
  split
  · split <;> rfl
  · rfl

omit [DecidableEq ι] [DecidableEq ν] in
theorem reclaim_isSettled (cfg : Config ι ν α) (th : Thread ι ν α) (e : Epoch) :
    (th.reclaim cfg e).pc.isSettled = true := by
  simp only [Thread.reclaim]
  split
  · split <;> rfl
  · rfl

/-- What a step makes of the chunks a thread has still to run, and of those in its queue. -/
inductive LeftStep (sh : Shared ι ν α) (th th' : Thread ι ν α) : Prop where
  | same (h : th'.left = th.left) (hq : th'.queue = th.queue)
  /-- a commit queues what the attempt has registered: on the clock it bumps, or, with an empty write set,
      on the earliest epoch; a read_only call queues nothing -/
  | commit (e : Epoch) (cbs : List (GpCallback ν α)) (h : th'.left = th.left ++ [⟨e, cbs⟩])
      (hq : th'.queue = th.queue ++ [⟨e, cbs⟩])
      (hc : cbs = [] ∨ cbs = th.att.regSucc ∧ th'.pc.phase = .committed ∧
        (th.pc = .bumpClock ∧ e = sh.clock ∨
          th.pc = .tryCommit ∧ th.td.writeSet.entries = [] ∧ e = 0))
  /-- an empty working list is not finalized -/
  | nothing (e : Epoch) (h : th.left = th'.left ++ [⟨e, []⟩]) (hq : th.queue = th'.queue ++ [⟨e, []⟩])
  /-- the first callback of the front chunk has run -/
  | ran (e : Epoch) (cb : GpCallback ν α) (cbs : List (GpCallback ν α))
      (rest : List (Chunk (GpCallback ν α))) (h : th.left = ⟨e, cb :: cbs⟩ :: rest)
      (h' : th'.left = ⟨e, cbs⟩ :: rest) (hq : th'.queue = th.queue)
  /-- the front chunk is done -/
  | pop (mode : ReclaimMode) (epoch minEpoch : Epoch) (i : Nat) (ch : Chunk (GpCallback ν α))
      (hpc : th.pc = .succCallbacks mode epoch minEpoch i)
      (he : th.td.succCallbacks.frontEpoch? = some ch.epoch) (h : th.left = ⟨ch.epoch, []⟩ :: th'.left)
      (hq : th.queue = ch :: th'.queue)

omit [DecidableEq ι] [DecidableEq ν] in
theorem PC.not_running_of_settled {pc : PC ι ν α} (h : pc.isSettled = true) : pc.isRunning = false := by
  cases pc <;> first | rfl | cases h

omit [DecidableEq ι] [DecidableEq ν] in
/-- Past the last callback of the front chunk. -/
theorem LeftStep.chunkDone {mode : ReclaimMode} {epoch minEpoch : Epoch} {i : Nat} {ch : Chunk (GpCallback ν α)}
    (hpc : th.pc = .succCallbacks mode epoch minEpoch i) (hch : th.td.succCallbacks.chunks.head? = some ch)
    (hcb : ch.callbacks[i]? = none) (hl' : th'.left = th.td.succCallbacks.popFront.chunks)
    (hq' : th'.queue = th.td.succCallbacks.popFront.chunks) : LeftStep sh th th' := by
  obtain ⟨rest, hq⟩ := List.head?_eq_some_iff.mp hch
  obtain ⟨hl, hq0⟩ := Thread.left_running hpc hq
  rw [List.drop_eq_nil_of_le (List.getElem?_eq_none_iff.mp hcb)] at hl
  have hrest : th.td.succCallbacks.popFront.chunks = rest := by
    rw [EpochQueue.chunks_popFront, hq, List.tail_cons]
  exact .pop mode epoch minEpoch i ch hpc (by rw [EpochQueue.frontEpoch?, hch]; rfl)
    (by rw [hl, hl', hrest]) (by rw [hq0, hq', hrest])

omit [DecidableEq ι] [DecidableEq ν] in
/-- A success callback runs. -/
theorem LeftStep.callback {mode : ReclaimMode} {epoch minEpoch : Epoch} {i : Nat} {ch : Chunk (GpCallback ν α)}
    {cb : GpCallback ν α} (hpc : th.pc = .succCallbacks mode epoch minEpoch i)
    (hch : th.td.succCallbacks.chunks.head? = some ch) (hcb : ch.callbacks[i]? = some cb) :
    LeftStep sh th ((th.runs cb).goto (.succCallbacks mode epoch minEpoch (i + 1))) := by
  obtain ⟨rest, hq⟩ := List.head?_eq_some_iff.mp hch
  obtain ⟨hi, rfl⟩ := List.getElem?_eq_some_iff.mp hcb
  obtain ⟨hl, hq0⟩ := Thread.left_running hpc hq
  have hrun := @Thread.left_running _ _ _
    ((th.runs ch.callbacks[i]).goto (.succCallbacks mode epoch minEpoch (i + 1))) _ _ _ _ rfl _ _ hq
  refine .ran ch.epoch ch.callbacks[i] (ch.callbacks.drop (i + 1)) rest ?_ hrun.1 (hrun.2.trans hq0.symm)
  rw [hl, List.drop_eq_getElem_cons hi]

/-- **What every step does to the chunks that are left.** -/
theorem Move.left (hb : Books th) (hm : Move cfg sh t th opened req sh' th') : LeftStep sh th th' := by
  -- outside the callbacks the chunks that are left are those in the queue
  have same : th.pc.isRunning = false → th'.pc.isRunning = false → th'.left = th.left →
      LeftStep sh th th' := fun h1 h2 h => by
    refine .same h ?_
    rwa [Thread.left_eq_queue h1, Thread.left_eq_queue h2] at h
  have nothing : ∀ {e}, th.pc.isRunning = false → th'.pc.isRunning = false →
      th.left = th'.left ++ [⟨e, []⟩] → LeftStep sh th th' := fun h1 h2 h => by
    refine .nothing _ h ?_
    rwa [Thread.left_eq_queue h1, Thread.left_eq_queue h2] at h
  -- a step after which the chunks are what they were
  have out : th.pc.isSettled = true → th'.pc.isSettled = true →
      th'.td.succCallbacks.chunks = th.td.succCallbacks.chunks → LeftStep sh th th' :=
    fun h1 h2 h3 => same (PC.not_running_of_settled h1) (PC.not_running_of_settled h2)
      ((Thread.left_eq h2).trans (h3.trans (Thread.left_eq h1).symm))
  -- the step that commits
  have commit : ∀ {e'}, th.pc.phase = .attempt → th'.td.succCallbacks = th.td.succCallbacks →
      ((∃ i, th'.pc = .publish i e') ∨ th'.pc = .txSuccess e') →
      (th.att.regSucc = [] ∨ th.att.regSucc = th.att.regSucc ∧ th'.pc.phase = .committed ∧
        (th.pc = .bumpClock ∧ e' = sh.clock ∨
          th.pc = .tryCommit ∧ th.td.writeSet.entries = [] ∧ e' = 0)) → LeftStep sh th th' := by
    intro e' hp hq hpc' hc
    have hin : th.pc.inAttempt = true := by
      cases hpc : th.pc <;> rw [hpc] at hp <;> first | rfl | cases hp
    have hset := PC.isSettled_of_phase hp
    refine .commit e' th.att.regSucc ?_ ?_ hc
    · rw [Thread.left_committed hpc', hq, (hb.attempt hin).2.1, Thread.left_eq hset]
    · rw [Thread.queue_committed hpc', hq, (hb.attempt hin).2.1, Thread.queue_eq hset]
  cases hm with
  | reclaimNothing | waitMore => exact .same rfl rfl
  | goto pc' hin hout =>
      have hp := PC.phase_of_inBody hin
      have hset := PC.isSettled_of_phase hp
      rcases hout with h | ⟨exn, rfl⟩ | rfl | ⟨rfl, hk⟩
      · exact out hset (PC.isSettled_of_phase (PC.phase_of_inBody (PC.inBody_of_isEntry h))) rfl
      · exact out hset rfl rfl
      · exact out hset rfl rfl
      · refine commit hp rfl (Or.inr rfl) (Or.inl ?_)
        rw [← (hb.attempt (PC.inAttempt_of_isOpen (PC.isOpen_of_inBody hin))).2.1]
        exact (hb.readOnly hk).2.2.2
  | readReturns path v result hpc =>
      refine out (by rw [hpc]; rfl) rfl ?_
      rw [td_opReturns, td_noteRead]
      unfold Thread.pushRead
      split <;> rfl
  | registerSucc id hpc | allocSlow v x cur hpc =>
      exact out (by rw [hpc]; rfl) rfl (EpochQueue.chunks_emplaceBack ..)
  | atomicPush v s hpc | atomicOverwrite v s i hpc =>
      exact out (by rcases hpc with ⟨hpc, _⟩ | hpc <;> rw [hpc] <;> rfl) rfl rfl
  | commitEmpty hpc he =>
      exact commit (by rw [hpc]; rfl) rfl (Or.inr rfl) (Or.inr ⟨rfl, rfl, Or.inr ⟨hpc, he, rfl⟩⟩)
  | bump hpc =>
      exact commit (by rw [hpc]; rfl) rfl (Or.inl ⟨0, rfl⟩) (Or.inr ⟨rfl, rfl, Or.inl ⟨hpc, rfl⟩⟩)
  | lockInvalid i hi hpc =>
      exact out (by rcases hpc with hpc | ⟨_, hpc⟩ <;> rw [hpc] <;> rfl) rfl rfl
  | publish i sync e' hpc =>
      exact same (by rw [hpc]; rfl) rfl ((Thread.left_committed (Or.inl ⟨i + 1, rfl⟩)).trans
        (Thread.left_committed (Or.inl ⟨i, hpc⟩)).symm)
  | published i sync hpc =>
      exact same (by rw [hpc]; rfl) rfl ((Thread.left_committed (Or.inr rfl)).trans
        (Thread.left_committed (Or.inl ⟨i, hpc⟩)).symm)
  | successReadOnly sync hpc hk =>
      refine nothing (e := sync) (by rw [hpc]; rfl) rfl ?_
      rw [Thread.left_committed (Or.inr hpc), (hb.readOnly hk).2.2.2]
      rfl
  | success sync hpc =>
      have hset := reclaim_isSettled cfg ((th.setTxState .none).clearReadWriteSets.clearFailCallbacks) sync
      have hl := Thread.left_committed (Or.inr hpc)
      have hl' := Thread.left_eq hset
      have hrun : th.pc.isRunning = false := by rw [hpc]; rfl
      rw [chunks_reclaim] at hl'
      split at hl'
      · rename_i hw
        refine nothing (e := sync) hrun (PC.not_running_of_settled hset) ?_
        have hw' : th.td.succCallbacks.working = [] := List.isEmpty_iff.mp hw
        rw [hl, hl', hw']
        rfl
      · exact same hrun (PC.not_running_of_settled hset) (hl'.trans hl.symm)
  | failureReadOnly exn hpc | failDone exn hpc =>
      exact out (by rw [hpc]; rfl) (by cases exn <;> rfl) (by cases exn <;> rfl)
  | scanned mode epoch result hpc =>
      have hset : th.pc.isSettled = true := by rw [hpc]; rfl
      refine .same (Eq.trans ?_ (Thread.left_eq hset).symm) (Thread.queue_eq hset).symm
      unfold Thread.left Thread.goto
      cases th.td.succCallbacks.chunks <;> rfl
  | succCallback mode epoch minEpoch i ch cb hpc hch hcb => exact .callback hpc hch hcb
  | succNext mode epoch minEpoch i ch hpc hch hcb =>
      refine .chunkDone hpc hch hcb ?_ rfl
      unfold Thread.left Thread.goto
      cases th.td.succCallbacks.popFront.chunks <;> rfl
  | succDone mode epoch minEpoch i ch hpc hch hcb => exact .chunkDone hpc hch hcb rfl rfl
  | _ =>
      exact out (by simp only [*]; rfl) rfl rfl

/-- A step makes a callback due only if it commits the transaction that has registered it: on the clock it
    bumps, or, with an empty write set, on the earliest epoch. -/
theorem Move.due (hb : Books th) (hm : Move cfg sh t th opened req sh' th') {e : Epoch} {cb : GpCallback ν α}
    (hd : th'.Due e cb) :
    th.Due e cb ∨ cb ∈ th.att.regSucc ∧ th'.pc.phase = .committed ∧
      (th.pc = .bumpClock ∧ e = sh.clock ∨ th.pc = .tryCommit ∧ th.td.writeSet.entries = [] ∧ e = 0) := by
  obtain ⟨ch, hch, rfl, hcb⟩ := hd
  cases hm.left hb with
  | same h => exact Or.inl ⟨ch, h ▸ hch, rfl, hcb⟩
  | commit e cbs h _ hc =>
      rw [h, List.mem_append, List.mem_singleton] at hch
      rcases hch with hch | rfl
      · exact Or.inl ⟨ch, hch, rfl, hcb⟩
      · rcases hc with rfl | ⟨rfl, hp, hpc⟩
        · cases hcb
        · exact Or.inr ⟨hcb, hp, hpc⟩
  | nothing e h => exact Or.inl ⟨ch, h ▸ List.mem_append_left _ hch, rfl, hcb⟩
  | ran e cb' cbs rest h h' =>
      rw [h'] at hch
      rcases List.mem_cons.mp hch with rfl | hch
      · refine Or.inl ⟨⟨e, cb' :: cbs⟩, ?_, rfl, List.mem_cons_of_mem _ hcb⟩
        rw [h]
        exact List.mem_cons_self
      · exact Or.inl ⟨ch, h ▸ List.mem_cons_of_mem _ hch, rfl, hcb⟩
  | pop mode epoch minEpoch i d hpc he h => exact Or.inl ⟨ch, h ▸ List.mem_cons_of_mem _ hch, rfl, hcb⟩

/-- The same of the callbacks that are in the queue. -/
theorem Move.inQueue (hb : Books th) (hm : Move cfg sh t th opened req sh' th') {e : Epoch}
    {cb : GpCallback ν α} (hd : th'.InQueue e cb) :
    th.InQueue e cb ∨ cb ∈ th.att.regSucc ∧ th'.pc.phase = .committed ∧
      (th.pc = .bumpClock ∧ e = sh.clock ∨ th.pc = .tryCommit ∧ th.td.writeSet.entries = [] ∧ e = 0) := by
  obtain ⟨ch, hch, rfl, hcb⟩ := hd
  have keep : ch ∈ th.queue → th.InQueue ch.epoch cb := fun h => ⟨ch, h, rfl, hcb⟩
  cases hm.left hb with
  | same _ h | ran _ _ _ _ _ _ h => exact Or.inl (keep (h ▸ hch))
  | commit e cbs _ h hc =>
      rw [h, List.mem_append, List.mem_singleton] at hch
      rcases hch with hch | rfl
      · exact Or.inl (keep hch)
      · rcases hc with rfl | ⟨rfl, hp, hpc⟩
        · cases hcb
        · exact Or.inr ⟨hcb, hp, hpc⟩
  | nothing e _ h => exact Or.inl (keep (h ▸ List.mem_append_left _ hch))
  | pop mode epoch minEpoch i d hpc he _ h => exact Or.inl (keep (h ▸ List.mem_cons_of_mem _ hch))

/-- A success callback is registered by the running attempt. -/
theorem Move.regSucc (hm : Move cfg sh t th opened req sh' th') {cb : GpCallback ν α}
    (h : cb ∈ th'.att.regSucc) :
    th'.att.number = th.att.number ∧ cb ∈ th.att.regSucc ∨ cb.attempt = th'.att.number := by
  have keep : ∀ {th' : Thread ι ν α}, th'.att.number = th.att.number → th'.att.regSucc = th.att.regSucc →
      cb ∈ th'.att.regSucc → th'.att.number = th.att.number ∧ cb ∈ th.att.regSucc ∨ cb.attempt = th'.att.number :=
    fun h1 h2 h => Or.inl ⟨h1, h2 ▸ h⟩
  cases hm with
  | getClock => cases h
  | registerSucc | curStorage | allocSlow =>
      rcases List.mem_append.mp h with h | h
      · exact Or.inl ⟨rfl, h⟩
      · rw [List.mem_singleton.mp h]
        exact Or.inr rfl
  | readReturns path v result =>
      refine keep ?_ ?_ h
      · exact (number_noteRead ..).trans (congrArg _ (att_pushRead ..))
      · exact (regs_noteRead ..).2.trans (congrArg _ (att_pushRead ..))
  | success => exact keep (congrArg _ (att_reclaim ..)) (congrArg _ (att_reclaim ..)) h
  | failureReadOnly => exact keep (congrArg _ (att_afterFailure ..)) (congrArg _ (att_afterFailure ..)) h
  | failDone => exact keep (congrArg _ (att_afterFailure ..)) (congrArg _ (att_afterFailure ..)) h
  | _ => exact keep rfl rfl h

/-- Where a thread comes to its access_lock a new attempt begins. -/
theorem Move.accessLock_cases (hm : Move cfg sh t th opened req sh' th') (h : th'.pc = .accessLock) :
    th.pc = .getClock := by
  cases hm with
  | getClock hpc => exact hpc
  | reclaimNothing hpc =>
      rw [hpc] at h
      cases h
  | waitMore mode epoch result u nodes hpc =>
      rw [hpc] at h
      cases h
  | goto pc' hin hout =>
      rcases hout with ho | ⟨_, rfl⟩ | rfl | ⟨rfl, _⟩
      · rw [pc_goto] at h
        rw [h] at ho
        cases ho
      all_goals cases h
  | success =>
      have hp := reclaim_outside cfg ((th.setTxState .none).clearReadWriteSets.clearFailCallbacks) (by assumption)
      rw [h] at hp
      cases hp
  | failureReadOnly exn => cases exn <;> cases h
  | failDone exn => cases exn <;> cases h
  | _ => cases h

/-- A thread opens an attempt by its access_lock. -/
theorem Move.opens (hm : Move cfg sh t th opened req sh' th') (h : th'.pc.isOpen = true) :
    th.pc.isOpen = true ∨ th.pc = .accessLock := by
  cases hm with
  | accessLock hpc => exact Or.inr hpc
  | reclaimNothing | waitMore => exact Or.inl h
  | goto pc' hin => exact Or.inl (PC.isOpen_of_inBody hin)
  | atomicPush v s hpc | atomicOverwrite v s i hpc =>
      exact Or.inl (by rcases hpc with ⟨hpc, _⟩ | hpc <;> rw [hpc] <;> rfl)
  | lockInvalid i hi hpc => exact Or.inl (by rcases hpc with hpc | ⟨_, hpc⟩ <;> rw [hpc] <;> rfl)
  | success =>
      rw [reclaim_not_open] at h
      cases h
  | failureReadOnly exn hpc => exact Or.inl (by rw [hpc]; rfl)
  | failDone exn =>
      rw [afterFailure_not_open] at h
      cases h
  | _ => first | (cases h; done) | exact Or.inl (by simp only [*]; rfl)

end Move

/-! ## 2. The attempts they belong to -/

/-- The attempts the callbacks and the commits of a state belong to. -/
structure Numbered (s : Sys ι ν α) : Prop where
  due : ∀ t e cb, (s.threads t).InQueue e cb → cb.attempt ≤ (s.threads t).att.number ∧
    ((s.threads t).pc.phase = .attempt → cb.attempt ≠ (s.threads t).att.number)
  registered : ∀ t, (s.threads t).pc.phase = .attempt → ∀ cb ∈ (s.threads t).att.regSucc,
    cb.attempt = (s.threads t).att.number
  opened : ∀ c ∈ s.shared.hist.commits, ∀ u n, c.opened u = some n → n ≤ (s.threads u).att.number ∧
    ((s.threads u).pc = .accessLock → n ≠ (s.threads u).att.number)

omit [DecidableEq ι] in
/-- Which attempt a thread is in that is open. -/
theorem Active.opened_eq {cfg : Config ι ν α} {s : Sys ι ν α} (h : Active cfg s) (u : ι) :
    s.opened u = if (s.threads u).pc.isOpen then some (s.threads u).att.number else none := by
  have hlt : (s.threads u).version < offState :=
    lt_of_le_of_lt (h.version_le u) (h.clock_lt.trans (maxVersion_lt.trans lockBit_lt_offState))
  rw [Sys.opened, h.active u]
  split
  · rw [if_neg hlt.ne]
  · rw [if_pos rfl]

section Step

variable {cfg : Config ι ν α} {s : Sys ι ν α} {t : ι} {req : Option (Request ν α)}
  {sh' : Shared ι ν α} {th' : Thread ι ν α}

/-- What a step of thread `t` adds to the commits. -/
theorem Move.commits_mem (hm : Move cfg s.shared t (s.threads t) s.opened req sh' th') {c : Commit ι ν α}
    (hc : c ∈ sh'.hist.commits) : c ∈ s.shared.hist.commits ∨
      c.tid = t ∧ c.attempt = (s.threads t).att.number ∧ c.opened = s.opened ∧
        (s.threads t).pc.phase = .attempt ∧ th'.pc ≠ .accessLock := by
  cases hm.effect with
  | quiet hs => exact Or.inl (hs.commits ▸ hc)
  | commitEmpty hpc =>
      refine (List.mem_cons.mp hc).symm.imp_right ?_
      rintro rfl
      exact ⟨rfl, rfl, rfl, by rw [hpc]; rfl, fun h => by cases h⟩
  | bump hpc =>
      refine (List.mem_cons.mp hc).symm.imp_right ?_
      rintro rfl
      exact ⟨rfl, rfl, rfl, by rw [hpc]; rfl, fun h => by cases h⟩
  | _ => exact Or.inl hc

/-- **A step keeps the numbers right.** -/
theorem Numbered.step (h : Numbered s) (ha : Active cfg s) (hb : Books (s.threads t))
    (hm : Move cfg s.shared t (s.threads t) s.opened req sh' th') : Numbered (s.after t sh' th') where
  due := by
    refine Sys.forall_after (P := fun _ th => ∀ e cb, th.InQueue e cb → cb.attempt ≤ th.att.number ∧
      (th.pc.phase = .attempt → cb.attempt ≠ th.att.number)) (fun e cb hd => ?_) fun u _ => h.due u
    rcases hm.inQueue hb hd with hd | ⟨hcb, hcom, hpc⟩
    · obtain ⟨hle, hne⟩ := h.due t e cb hd
      rcases hm.number with ⟨hng, hn⟩ | ⟨_, hn⟩
      · rw [hn]
        refine ⟨hle, fun hp => ?_⟩
        rcases hm.phase.into_attempt (Or.inl hp) with hp | hp | hp
        · exact hne hp
        · have hph := hm.phase
          rw [hp, ‹th'.pc.phase = .attempt›] at hph
          cases hph
        · exact absurd (PC.eq_getClock hp) hng
      · rw [hn]
        exact ⟨Nat.le_succ_of_le hle, fun _ => (Nat.lt_succ_of_le hle).ne⟩
    · have hp : (s.threads t).pc.phase = .attempt := by
        rcases hpc with ⟨hpc, _⟩ | ⟨hpc, _⟩ <;> rw [hpc] <;> rfl
      have hng : th'.att.number = (s.threads t).att.number := by
        rcases hm.number with ⟨_, hn⟩ | ⟨hg, _⟩
        · exact hn
        · rw [hg] at hp
          cases hp
      refine ⟨(hng ▸ h.registered t hp cb hcb).le, fun hp' => ?_⟩
      rw [hcom] at hp'
      cases hp'
  registered := by
    refine Sys.forall_after (P := fun _ th => th.pc.phase = .attempt → ∀ cb ∈ th.att.regSucc,
      cb.attempt = th.att.number) (fun hp cb hcb => ?_) fun u _ => h.registered u
    rcases hm.regSucc hcb with ⟨hn, hcb⟩ | hn
    · have hph := hm.phase
      rw [hp] at hph
      rw [hn]
      refine h.registered t ?_ cb hcb
      generalize hq : (s.threads t).pc.phase = q at hph
      cases hph with
      | stay | failReadOnly => rfl
      | attempt =>
          rcases hm.number with ⟨hng, _⟩ | ⟨_, hn'⟩
          · exact absurd (PC.eq_getClock hq) hng
          · exact absurd (hn.symm.trans hn') (Nat.lt_succ_self _).ne
    · exact hn
  opened := by
    intro c hc u n hn
    have hold : n ≤ (s.threads u).att.number ∧
        ((s.threads u).pc = .accessLock → n ≠ (s.threads u).att.number) := by
      rcases hm.commits_mem hc with hc | ⟨_, _, ho, _⟩
      · exact h.opened c hc u n hn
      · rw [ho, ha.opened_eq] at hn
        split at hn
        · rename_i hopen
          cases hn
          refine ⟨Nat.le_refl _, fun hpc => ?_⟩
          rw [hpc] at hopen
          cases hopen
        · cases hn
    revert hold
    refine Sys.forall_after (P := fun u th => (n ≤ (s.threads u).att.number ∧
      ((s.threads u).pc = .accessLock → n ≠ (s.threads u).att.number)) → n ≤ th.att.number ∧
      (th.pc = .accessLock → n ≠ th.att.number)) (fun hold => ?_) (fun _ _ => id) u
    rcases hm.number with ⟨hng, hn⟩ | ⟨_, hn⟩
    · exact ⟨hn ▸ hold.1, fun hpc => absurd (hm.accessLock_cases hpc) hng⟩
    · rw [hn]
      exact ⟨Nat.le_succ_of_le hold.1, fun _ => (Nat.lt_succ_of_le hold.1).ne⟩

end Step

/-- **In every state reached the numbers are right.** -/
theorem numbered_reach {cfg : Config ι ν α} {ok : Request ν α → Prop} {s : Sys ι ν α}
    (h : Sys.Reach cfg ok s) : Numbered s := by
  refine h.induct ⟨?_, fun _ hp => (by cases hp), fun _ hc => absurd hc List.not_mem_nil⟩
    fun hr ih _ hm => ih.step (active_reach hr) (books_reach hr _) hm
  rintro t e cb ⟨ch, hch, _⟩
  cases hch

end LockfreeStm
