/-
  File:      LockfreeStm/Machine/Attempt.lean
  Subject:   THE BOOKS OF AN ATTEMPT: read set, write set, callback lists and tx_state, from the top
             of `while (true)` to the exit.

  * `Books`, `books_reach` -- in every state reached: outside the critical section the read set, the
    write set and the working epoch are empty, and but for the failing attempt's own callbacks
    fail_callbacks is empty too; inside it both callback lists are what the attempt registered, the
    earlier chunks are untouched and no callback has run; a failing attempt has run the callbacks it
    registered from the last one down.

  Both exits restore a part of the thread_data each, in different orders; the invariant is what all
  of them agree on.
-/
import LockfreeStm.Machine.Active

namespace LockfreeStm

variable {ι ν α : Type}

/-- The places of an attempt: from access_lock on. -/
def PC.inAttempt : PC ι ν α → Bool
  | .accessLock => true
  | pc => pc.isOpen

/-- The places of a call. -/
def PC.inCall : PC ι ν α → Bool
  | .getClock | .failCallbacks _ _ => true
  | pc => pc.inAttempt

/-- The place where the fail callbacks run. -/
def PC.isFailing : PC ι ν α → Bool
  | .failCallbacks _ _ => true
  | _ => false

/-- What the thread_data of a thread and the history of its attempt satisfy. -/
structure Books (th : Thread ι ν α) : Prop where
  sets : th.pc.isOpen = false → th.td.readSet.data = [] ∧ th.td.writeSet.entries = [] ∧
    th.td.succCallbacks.working = []
  fails : th.pc.isOpen = false → th.pc.isFailing = false → th.td.failCallbacks.data = []
  readOnly : th.kind = .readOnly → th.td.validStartState
  txState : th.td.txState = if th.pc.inCall then th.kind else .none
  kind : th.pc.inCall = true → th.kind ≠ .none
  attempt : th.pc.inAttempt = true → th.td.failCallbacks.data = th.att.regFail ∧
    th.td.succCallbacks.working = th.att.regSucc ∧
    th.td.succCallbacks.chunks = th.att.chunksBefore ∧ th.ran = th.att.ranBefore
  failing : ∀ exn left, th.pc = .failCallbacks exn left →
    th.kind = .readWrite ∧ left ≤ th.att.regFail.length ∧
    th.td.failCallbacks.data = th.att.regFail ∧
    th.td.succCallbacks.chunks = th.att.chunksBefore ∧
    th.ran = th.att.ranBefore ++ (th.att.regFail.drop left).reverse

theorem PC.inAttempt_of_isOpen {pc : PC ι ν α} (h : pc.isOpen = true) : pc.inAttempt = true := by
  cases pc <;> first | rfl | cases h

theorem PC.inCall_of_isOpen {pc : PC ι ν α} (h : pc.isOpen = true) : pc.inCall = true := by
  cases pc <;> first | rfl | cases h

theorem PC.inCall_of_inAttempt {pc : PC ι ν α} (h : pc.inAttempt = true) : pc.inCall = true := by
  cases pc <;> first | rfl | cases h

theorem PC.not_failing_of_isOpen {pc : PC ι ν α} (h : pc.isOpen = true) (exn : Bool) (left : Nat) :
    pc ≠ .failCallbacks exn left := by
  rintro rfl
  cases h

namespace Books

variable {th th' : Thread ι ν α}

/-- Outside the critical section and the fail callbacks a thread_data is in its start state. -/
theorem validStartState (h : Books th) (ho : th.pc.isOpen = false) (hf : th.pc.isFailing = false) :
    th.td.validStartState :=
  ⟨(h.sets ho).1, (h.sets ho).2.1, h.fails ho hf, (h.sets ho).2.2⟩

/-- Of a thread that has no callbacks to keep account of. -/
theorem of_outside (hc : th.pc.inCall = false) (hv : th.td.validStartState)
    (ht : th.td.txState = .none) : Books th where
  sets _ := ⟨hv.1, hv.2.1, hv.2.2.2⟩
  fails _ _ := hv.2.2.1
  readOnly _ := hv
  txState := by rw [hc]; exact ht
  kind h := by rw [hc] at h; cases h
  attempt h := by
    rw [PC.inCall_of_inAttempt h] at hc
    cases hc
  failing _ _ h := by rw [h] at hc; cases hc

/-- Inside the critical section: what is left to show once the thread stays inside. -/
theorem of_open (h : Books th) (ho : th.pc.isOpen = true) (ho' : th'.pc.isOpen = true)
    (hk : th'.kind = th.kind) (ht : th'.td.txState = th.td.txState)
    (hr : th'.kind = .readOnly → th'.td.validStartState)
    (ha : th'.td.failCallbacks.data = th'.att.regFail ∧
      th'.td.succCallbacks.working = th'.att.regSucc ∧
      th'.td.succCallbacks.chunks = th'.att.chunksBefore ∧ th'.ran = th'.att.ranBefore) :
    Books th' where
  sets hn := by rw [ho'] at hn; cases hn
  fails hn := by rw [ho'] at hn; cases hn
  readOnly := hr
  txState := by
    rw [ht, h.txState, PC.inCall_of_isOpen ho, PC.inCall_of_isOpen ho', hk]
  kind _ := hk ▸ h.kind (PC.inCall_of_isOpen ho)
  attempt _ := ha
  failing exn left hf := absurd hf (PC.not_failing_of_isOpen ho' exn left)

/-- A step inside the critical section that leaves the callback lists alone. -/
theorem of_same (h : Books th) (ho : th.pc.isOpen = true) (ho' : th'.pc.isOpen = true)
    (hk : th'.kind = th.kind) (ht : th'.td.txState = th.td.txState)
    (hr : th'.kind = .readOnly → th'.td.validStartState)
    (hf : th'.td.failCallbacks = th.td.failCallbacks)
    (hs : th'.td.succCallbacks = th.td.succCallbacks) (hran : th'.ran = th.ran)
    (hrf : th'.att.regFail = th.att.regFail) (hrs : th'.att.regSucc = th.att.regSucc)
    (hc : th'.att.chunksBefore = th.att.chunksBefore)
    (hb : th'.att.ranBefore = th.att.ranBefore) : Books th' := by
  refine h.of_open ho ho' hk ht hr ?_
  rw [hf, hs, hran, hrf, hrs, hc, hb]
  exact h.attempt (PC.inAttempt_of_isOpen ho)

/-- A step inside the critical section from place to place. -/
theorem of_goto (h : Books th) (ho : th.pc.isOpen = true) {pc' : PC ι ν α}
    (ho' : pc'.isOpen = true) : Books (th.goto pc') :=
  h.of_same ho ho' rfl rfl h.readOnly rfl rfl rfl rfl rfl rfl rfl

/-- Where the call goes once the fail callbacks are gone. -/
theorem afterFailure {exn : Bool} (hv : th.td.validStartState) (ht : th.td.txState = th.kind)
    (hk : th.kind ≠ .none) : Books (afterFailure th exn) := by
  cases exn
  · exact ⟨fun _ => ⟨hv.1, hv.2.1, hv.2.2.2⟩, fun _ _ => hv.2.2.1, fun _ => hv, ht, fun _ => hk,
      fun h => (by cases h), fun _ _ h => by cases h⟩
  · exact .of_outside rfl hv rfl

/-- After a commit: the working epoch is finalized. -/
theorem reclaim (cfg : Config ι ν α) (hr : th.td.readSet.data = [])
    (hw : th.td.writeSet.entries = []) (hf : th.td.failCallbacks.data = [])
    (ht : th.td.txState = .none) (e : Epoch) : Books (th.reclaim cfg e) := by
  have hv : ThreadData.validStartState { th.td with
      succCallbacks := (th.td.succCallbacks.finalizeEpoch cfg.reclaimLimit e).1 } :=
    ⟨hr, hw, hf, EpochQueue.working_finalizeEpoch ..⟩
  simp only [Thread.reclaim]
  split
  · split <;> exact .of_outside rfl hv ht
  · exact .of_outside rfl hv ht

variable [DecidableEq ι] [DecidableEq ν]

omit [DecidableEq ι] in
/-- A get of the body: its var may enter the read set. -/
theorem get_returns (h : Books th) {path : ReadPath} {v : ν} {x : α} {r : Option α}
    (ho : th.pc.isOpen = true) (hk : th.kind = .readOnly → path = .readOnly) :
    Books (((th.pushRead path v).noteRead v x).opReturns r) := by
  have hsame : ∀ {th' : Thread ι ν α}, th'.pc.isOpen = true → th'.kind = th.kind →
      th'.td = (th.pushRead path v).td → th'.ran = th.ran →
      th'.att.regFail = th.att.regFail → th'.att.regSucc = th.att.regSucc →
      th'.att.chunksBefore = th.att.chunksBefore → th'.att.ranBefore = th.att.ranBefore →
      Books th' := by
    intro th' ho' hk' htd hran h1 h2 h3 h4
    refine h.of_same ho ho' hk' ?_ (fun hro => ?_) ?_ ?_ hran h1 h2 h3 h4
    · rw [htd]; unfold Thread.pushRead; split <;> rfl
    · obtain rfl := hk (hk' ▸ hro)
      rw [htd]
      exact h.readOnly (hk' ▸ hro)
    · rw [htd]; unfold Thread.pushRead; split <;> rfl
    · rw [htd]; unfold Thread.pushRead; split <;> rfl
  unfold Thread.noteRead
  split <;> (refine hsame rfl ?_ rfl ?_ ?_ ?_ ?_ ?_ <;> (unfold Thread.pushRead; split <;> rfl))

omit [DecidableEq ι] [DecidableEq ν] in
/-- A place of the body that belongs to a read_write call. -/
theorem valid_of_readWrite {P : Prop} (hk : th.kind = .readWrite) (h : th.kind = .readOnly) : P := by
  rw [hk] at h
  cases h

omit [DecidableEq ι] [DecidableEq ν] in
/-- A call begins, in the start state. -/
theorem enter (h : Books th) {k : TxKind} {body : Body ν α} (hpc : th.pc = .idle) (hk : k ≠ .none) :
    Books ({ (th.setTxState k) with pc := .getClock, kind := k, body := body } : Thread ι ν α) := by
  have hv := h.validStartState (by rw [hpc]; rfl) (by rw [hpc]; rfl)
  exact ⟨fun _ => ⟨hv.1, hv.2.1, hv.2.2.2⟩, fun _ _ => hv.2.2.1, fun _ => hv, rfl, fun _ => hk,
    fun h => (by cases h), fun _ _ h => by cases h⟩

omit [DecidableEq ι] [DecidableEq ν] in
/-- An attempt begins, with nothing on record. -/
theorem getClock (h : Books th) (sh : Shared ι ν α) (hpc : th.pc = .getClock) : Books (getClockStep sh th) := by
  have hv := h.validStartState (by rw [hpc]; rfl) (by rw [hpc]; rfl)
  have ht := h.txState
  rw [hpc] at ht
  exact ⟨fun _ => ⟨hv.1, hv.2.1, hv.2.2.2⟩, fun _ _ => hv.2.2.1, fun _ => hv, ht,
    fun _ => h.kind (by rw [hpc]; rfl), fun _ => ⟨hv.2.2.1, hv.2.2.2, rfl, rfl⟩, fun _ _ h => by cases h⟩

omit [DecidableEq ι] [DecidableEq ν] in
/-- The attempt fails: all its fail callbacks are left to run. -/
theorem failure (h : Books th) {exn : Bool} (hpc : th.pc = .txFailure exn) (hk : th.kind ≠ .readOnly) :
    Books ((th.clearReadWriteSets.clearWorkingEpoch).goto
      (.failCallbacks exn th.td.failCallbacks.data.length)) := by
  have ht := h.txState
  rw [hpc] at ht
  obtain ⟨h1, h2, h3, h4⟩ := h.attempt (by rw [hpc]; rfl)
  have hkn := h.kind (by rw [hpc]; rfl)
  have hrw : th.kind = .readWrite := by
    cases e : th.kind
    · exact absurd e hkn
    · rfl
    · exact absurd e hk
  refine ⟨fun _ => ⟨rfl, rfl, rfl⟩, fun _ hn => (by cases hn), valid_of_readWrite hrw, ht,
    fun _ => hkn, fun hn => (by cases hn), ?_⟩
  intro exn' left heq
  cases heq
  refine ⟨hrw, (congrArg List.length h1).le, h1, h3, ?_⟩
  rw [h1]
  show th.ran = th.att.ranBefore ++ (th.att.regFail.drop th.att.regFail.length).reverse
  rw [List.drop_length, List.reverse_nil, List.append_nil, h4]

omit [DecidableEq ι] [DecidableEq ν] in
/-- The last of the fail callbacks that are left runs. -/
theorem failCallback (h : Books th) {exn : Bool} {left : Nat} {cb : GpCallback ν α}
    (hpc : th.pc = .failCallbacks exn (left + 1)) (hcb : th.td.failCallbacks.data[left]? = some cb) :
    Books ((th.runs cb).goto (.failCallbacks exn left)) := by
  obtain ⟨hk, hle, h1, h3, h4⟩ := h.failing _ _ hpc
  have ht := h.txState
  rw [hpc] at ht
  refine ⟨fun _ => h.sets (by rw [hpc]; rfl), fun _ hn => (by cases hn), valid_of_readWrite hk, ht,
    fun _ => h.kind (by rw [hpc]; rfl), fun hn => (by cases hn), ?_⟩
  intro exn' left' heq
  cases heq
  refine ⟨hk, Nat.le_of_succ_le hle, h1, h3, ?_⟩
  rw [h1] at hcb
  obtain ⟨hlt, rfl⟩ := List.getElem?_eq_some_iff.mp hcb
  show th.ran ++ [th.att.regFail[left]] = _
  rw [h4]
  show _ = th.att.ranBefore ++ (th.att.regFail.drop left).reverse
  rw [List.drop_eq_getElem_cons hlt, List.reverse_cons, List.append_assoc]

/-- **A step of a thread keeps its books.** -/
theorem step {cfg : Config ι ν α} {sh sh' : Shared ι ν α} {t : ι} {opened : ι → Option Nat}
    {req : Option (Request ν α)} (h : Books th) (hop : OpAt cfg th th.pc)
    (hm : Move cfg sh t th opened req sh' th') : Books th' := by
  cases hm with
  | enter k body hpc hreq =>
      exact h.enter hpc (by rcases hreq with ⟨rfl, _⟩ | ⟨rfl, _⟩ <;> exact TxKind.noConfusion)
  | reclaimNothing | waitMore => exact h
  | reclaimAll ch hpc | scanned mode epoch result hpc | scanWait mode epoch result u nodes hpc
  | scanPass mode epoch result u nodes hpc | waitDone mode epoch result u nodes hpc
  | succCallback mode epoch minEpoch i ch cb hpc | succNext mode epoch minEpoch i ch hpc
  | succDone mode epoch minEpoch i ch hpc =>
      have ht := h.txState
      rw [hpc] at ht
      exact .of_outside rfl (h.validStartState (by rw [hpc]; rfl) (by rw [hpc]; rfl)) ht
  | getClock hpc => exact h.getClock sh hpc
  | accessLock hpc =>
      have ht := h.txState
      rw [hpc] at ht
      exact ⟨fun hn => (by cases hn), fun hn => (by cases hn), h.readOnly, ht,
        fun _ => h.kind (by rw [hpc]; rfl), fun _ => h.attempt (by rw [hpc]; rfl),
        fun _ _ h => by cases h⟩
  | goto pc' hin hout =>
      refine h.of_goto (PC.isOpen_of_inBody hin) ?_
      rcases hout with h | ⟨_, rfl⟩ | rfl | ⟨rfl, _⟩
      · exact PC.isOpen_of_inBody (PC.inBody_of_isEntry h)
      all_goals rfl
  | registerSucc id hpc hk =>
      obtain ⟨h1, h2, h3, h4⟩ := h.attempt (by rw [hpc]; rfl)
      exact h.of_open (by rw [hpc]; rfl) rfl rfl rfl (valid_of_readWrite hk)
        ⟨h1, (EpochQueue.working_emplaceBack ..).trans (congrArg (· ++ _) h2),
          (EpochQueue.chunks_emplaceBack ..).trans h3, h4⟩
  | registerFail id hpc hk =>
      obtain ⟨h1, h2, h3, h4⟩ := h.attempt (by rw [hpc]; rfl)
      exact h.of_open (by rw [hpc]; rfl) rfl rfl rfl (valid_of_readWrite hk)
        ⟨(PodVector.data_emplaceBack ..).trans (congrArg (· ++ _) h1), h2, h3, h4⟩
  | nestedAtomic hpc =>
      exact h.of_same (by rw [hpc]; rfl) rfl rfl rfl h.readOnly rfl rfl rfl rfl rfl rfl rfl
  | readStorage path v hpc =>
      exact h.of_same (by rw [hpc]; rfl) rfl rfl rfl h.readOnly rfl rfl rfl rfl rfl rfl rfl
  | readReturns path v result hpc =>
      refine h.get_returns (by rw [hpc]; rfl) fun hk => ?_
      rw [hpc] at hop
      rcases path with (_ | _) | (_ | _) | _
      · exact valid_of_readWrite hop.1 hk
      · exact valid_of_readWrite hop.1 hk
      · exact valid_of_readWrite hop.1 hk
      · exact valid_of_readWrite hop.1 hk
      · rfl
  | pendingReturns v pending hpc | storePending v x pending hpc | atomicReturns v hpc =>
      exact h.of_same (by rw [hpc]; rfl) rfl rfl rfl h.readOnly rfl rfl rfl rfl rfl rfl rfl
  | allocFast v x hpc | atomicFast v x hpc =>
      rw [hpc] at hop
      exact h.of_same (by rw [hpc]; rfl) rfl rfl rfl (valid_of_readWrite hop.1) rfl rfl rfl rfl rfl
        rfl rfl
  | curStorage v s hpc =>
      rw [hpc] at hop
      obtain ⟨h1, h2, h3, h4⟩ := h.attempt (by rw [hpc]; rfl)
      exact h.of_open (by rw [hpc]; rfl) rfl rfl rfl (valid_of_readWrite hop.1)
        ⟨congrArg (· ++ _) h1, congrArg (· ++ _) h2, h3, h4⟩
  | slowStorage v x hpc =>
      exact h.of_same (by rw [hpc]; rfl) rfl rfl rfl h.readOnly rfl rfl rfl rfl rfl rfl rfl
  | allocSlow v x cur hpc =>
      rw [hpc] at hop
      obtain ⟨h1, h2, h3, h4⟩ := h.attempt (by rw [hpc]; rfl)
      exact h.of_open (by rw [hpc]; rfl) rfl rfl rfl (valid_of_readWrite hop.1)
        ⟨(PodVector.data_emplaceBack ..).trans (congrArg (· ++ _) h1),
          (EpochQueue.working_emplaceBack ..).trans (congrArg (· ++ _) h2),
          (EpochQueue.chunks_emplaceBack ..).trans h3, h4⟩
  | atomicPush v s hpc | atomicOverwrite v s i hpc =>
      have hk : th.kind = .readWrite := by
        rcases hpc with ⟨_, hk, _⟩ | hpc
        · exact hk
        · rw [hpc] at hop
          exact hop.1
      exact h.of_same (by rcases hpc with ⟨hpc, _⟩ | hpc <;> rw [hpc] <;> rfl) rfl rfl rfl
        (valid_of_readWrite hk) rfl rfl rfl rfl rfl rfl rfl
  | startCommit hpc =>
      rw [hpc] at hop
      exact h.of_same (by rw [hpc]; rfl) rfl rfl rfl (valid_of_readWrite hop.1) rfl rfl rfl rfl rfl
        rfl rfl
  | allLocked i hpc =>
      exact h.of_same (by rw [hpc]; rfl) rfl rfl rfl h.readOnly rfl rfl rfl rfl rfl rfl rfl
  | lockInvalid i hi hpc =>
      exact h.of_goto (by rcases hpc with hpc | ⟨_, hpc⟩ <;> rw [hpc] <;> rfl) rfl
  | successReadOnly sync hpc hk => exact .of_outside rfl (h.readOnly hk) rfl
  | success => exact .reclaim cfg rfl rfl rfl rfl _
  | failureReadOnly exn hpc hk =>
      have ht := h.txState
      rw [hpc] at ht
      exact .afterFailure (h.readOnly hk) ht (h.kind (by rw [hpc]; rfl))
  | failure exn hpc hk => exact h.failure hpc hk
  | failCallback exn left cb hpc hcb => exact h.failCallback hpc hcb
  | failDone exn hpc =>
      have ht := h.txState
      rw [hpc] at ht
      obtain ⟨h1, h2, h3⟩ := h.sets (by rw [hpc]; rfl)
      exact .afterFailure ⟨h1, h2, rfl, h3⟩ ht (h.kind (by rw [hpc]; rfl))
  | _ => exact h.of_goto (by simp only [*]; rfl) rfl

end Books

variable [DecidableEq ι] [DecidableEq ν]

/-- **In every state reached the books of every thread are right.** -/
theorem books_reach {cfg : Config ι ν α} {ok : Request ν α → Prop} {s : Sys ι ν α}
    (h : Sys.Reach cfg ok s) (t : ι) : Books (s.threads t) := by
  revert t
  refine h.induct (P := fun s => ∀ t, Books (s.threads t)) ?_ ?_
  · exact fun t => .of_outside rfl ⟨rfl, rfl, rfl, rfl⟩ rfl
  · intro s t req sh' th' hr ih _ hm
    exact Sys.forall_after (P := fun _ th => Books th)
      ((ih t).step ((active_reach hr).opAt t) hm) fun u _ => ih u

end LockfreeStm
