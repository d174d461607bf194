/-
  File:      LockfreeStm/Machine/Progress.lean
  Subject:   PROGRESS: no step is blocked but a wait for a grace period, a commit is over after a bounded
             number of its own steps, and who waits does not wait for one who waits.

  Locks are taken with a compare-exchange that is tried once, never waited for, so a commit ends whatever
  the other threads do. The one place where a thread waits for another is `wait_on_epoch`, and there it
  waits for threads inside an attempt.

  * `ReadyAt`, `ready_reach`, `threadStep_isSome` -- what a step needs, and that it has it.
  * `Thread.commitRank`, `commit_bounded` -- **how many steps a commit takes at most**.
  * `Sys.Waits`, `no_deadlock` -- **a thread that waits, waits for one that can move**.
  * `waits_once` -- **and it waits for one attempt of that thread only**.
-/
import LockfreeStm.Machine.Atomicity
import LockfreeStm.Machine.Due
import LockfreeStm.CommitAlgorithm

namespace LockfreeStm

variable {ι ν α : Type}

/-! ## 1. What a step needs -/

/-- What the next step needs to be possible. -/
def ReadyAt (th : Thread ι ν α) : PC ι ν α → Prop
  | .lockCas i _ => i < th.td.writeSet.entries.length
  | .unlockLoad _ last => last ≤ th.td.writeSet.entries.length
  | .unlockStore i last _ => i < last ∧ last ≤ th.td.writeSet.entries.length
  | .waitMinEpoch _ _ _ _ | .waitOnEpoch _ _ _ _ _ | .succCallbacks _ _ _ _ =>
      th.td.succCallbacks.chunks ≠ []
  | _ => True

/-- What a read_transaction has. -/
def Op.isReadOnly : Op ν α → Bool
  | .get _ | .untrackedGet _ | .readOnlyGet _ | .nestedAtomic | .retry | .throw | .ret => true
  | _ => false

/-- A read_only body does what its transaction has; the compiler rejects every other. -/
def Request.isTyped : Request ν α → Prop
  | .readOnly body => ∀ log, (body log).isReadOnly = true
  | _ => True

theorem ReadyAt.of_inBody {th : Thread ι ν α} {pc : PC ι ν α} (h : pc.inBody = true) : ReadyAt th pc := by
  cases pc <;> trivial

theorem EpochQueue.chunks_ne_nil_of_front {κ : Type} {q : EpochQueue κ} {e : Nat}
    (h : q.frontEpoch? = some e) : q.chunks ≠ [] := by
  rintro hq
  rw [EpochQueue.frontEpoch?, hq] at h
  cases h

variable [DecidableEq ι] [DecidableEq ν]

section Move

variable {cfg : Config ι ν α} {sh sh' : Shared ι ν α} {t : ι} {th th' : Thread ι ν α}
  {opened : ι → Option Nat} {req : Option (Request ν α)}

omit [DecidableEq ι] [DecidableEq ν] in
/-- After a commit the scan is entered for a chunk that is there. -/
theorem ReadyAt.reclaim (th : Thread ι ν α) (sync : Epoch) :
    ReadyAt (th.reclaim cfg sync) (th.reclaim cfg sync).pc := by
  simp only [Thread.reclaim]
  split
  · split
    · rename_i e he
      exact EpochQueue.chunks_ne_nil_of_front he
    · trivial
  · trivial

/-- **A step leaves a thread with what its next step needs.** -/
theorem Move.ready (h : Move cfg sh t th opened req sh' th') (hr : ReadyAt th th.pc) :
    ReadyAt th' th'.pc := by
  cases h with
  | reclaimNothing | waitMore => exact hr
  | goto pc' hin hout =>
      rcases hout with h | ⟨_, rfl⟩ | rfl | ⟨rfl, _⟩
      · exact (ReadyAt.of_inBody (PC.inBody_of_isEntry h) : ReadyAt (th.goto pc') pc')
      all_goals trivial
  | reclaimAll ch _ _ hq =>
      rintro hnil
      rw [show th.td.succCallbacks.chunks = [] from hnil] at hq
      cases hq
  | lockValid i e hpc he => exact (List.getElem?_eq_some_iff.mp he).1
  | lockInvalid i hi => exact hi.le
  | unlockLoad i last e hpc hi =>
      rw [hpc] at hr
      exact ⟨hi, hr⟩
  | unlock i last buf e hpc =>
      rw [hpc] at hr
      exact hr.2
  | readInvalid => exact Nat.le_refl _
  | success sync => exact ReadyAt.reclaim ..
  | failureReadOnly exn => cases exn <;> trivial
  | failDone exn => cases exn <;> trivial
  | scanned mode epoch result hpc | scanWait mode epoch result u nodes hpc | scanPass mode epoch result u nodes hpc
  | waitDone mode epoch result u nodes hpc =>
      rw [hpc] at hr
      exact hr
  | succCallback mode epoch minEpoch i ch cb hpc =>
      rw [hpc] at hr
      exact hr
  | succNext mode epoch minEpoch i ch hpc hch hcb hn =>
      rintro hnil
      rw [reclaimsNext, EpochQueue.frontEpoch?, show th.td.succCallbacks.popFront.chunks = [] from hnil] at hn
      cases hn
  | _ => trivial

end Move

/-- **In every state reached every thread has what its next step needs.** -/
theorem ready_reach {cfg : Config ι ν α} {ok : Request ν α → Prop} {s : Sys ι ν α} (h : Sys.Reach cfg ok s)
    (t : ι) : ReadyAt (s.threads t) (s.threads t).pc := by
  revert t
  exact h.induct (P := fun s => ∀ t, ReadyAt (s.threads t) (s.threads t).pc) (fun _ => trivial)
    fun _ ih _ hm => Sys.forall_after (P := fun _ th => ReadyAt th th.pc) (hm.ready (ih _)) fun u _ => ih u

section Step

variable {cfg : Config ι ν α} {sh : Shared ι ν α} {t : ι} {th : Thread ι ν α} {opened : ι → Option Nat}

omit [DecidableEq ι] in
theorem rwReadSlowPath_isSome (tracked : Bool) (v : ν) :
    (th.rwReadSlowPath cfg tracked v).isSome = true := by
  unfold Thread.rwReadSlowPath
  split
  · rfl
  · obtain ⟨e, he, _⟩ := PodHashSet.find_eq_some ‹_›
    rw [he]
    rfl

omit [DecidableEq ι] in
theorem rwReadBase_isSome (tracked : Bool) (v : ν) : (th.rwReadBase cfg tracked v).isSome = true := by
  unfold Thread.rwReadBase
  split
  · rfl
  · exact rwReadSlowPath_isSome tracked v

omit [DecidableEq ι] in
theorem rwWriteSlowPath_isSome (v : ν) (x : α) : (th.rwWriteSlowPath cfg v x).isSome = true := by
  unfold Thread.rwWriteSlowPath
  split
  · rfl
  · obtain ⟨e, he, _⟩ := PodHashSet.lookup_pendingWrite ‹_›
    rw [he]
    rfl

omit [DecidableEq ι] in
/-- The body's next operation is one its transaction has. -/
theorem callStep_isSome (hk : th.kind ≠ .none)
    (hty : th.kind = .readOnly → (th.body th.log).isReadOnly = true) : (callStep cfg sh t th).isSome = true := by
  unfold callStep
  split
  case h_1 | h_2 => exact rwReadBase_isSome ..
  case h_4 =>
    split
    · unfold Thread.rwWrite
      split
      · exact rwWriteSlowPath_isSome ..
      · rfl
    · rfl
  case h_14 hkind => exact absurd hkind hk
  case h_17 hkind h1 h2 h3 h4 h5 h6 h7 =>
    have hop := hty hkind
    cases hb : th.body th.log <;> simp_all [Op.isReadOnly]
  all_goals rfl

/-- **A thread in a call can move**, but for a clock that is used up. -/
theorem threadStep_isSome (hb : Books th) (hr : ReadyAt th th.pc) (hpc : th.pc ≠ .idle)
    (hclock : th.pc = .bumpClock → sh.clock < maxVersion - bumpSize)
    (hty : th.pc = .call → th.kind = .readOnly → (th.body th.log).isReadOnly = true) :
    (threadStep cfg sh t th opened none).isSome = true := by
  unfold threadStep
  cases hp : th.pc <;> rw [hp] at hr
  case idle => exact absurd hp hpc
  case call => simpa using callStep_isSome (hb.kind (by rw [hp]; rfl)) (hty hp)
  case readVersion path v result =>
    show (readVersionStep cfg sh t th path v result).isSome = true
    unfold readVersionStep
    split
    · rfl
    · split
      · simpa using rwReadSlowPath_isSome ..
      · rfl
  case writeVersion v x =>
    show (writeVersionStep cfg sh th v x).isSome = true
    unfold writeVersionStep
    split
    · rfl
    · simpa using rwWriteSlowPath_isSome ..
  case lockCas i buf =>
    show (lockCasStep sh th i buf).isSome = true
    rw [lockCasStep, List.getElem?_eq_getElem hr]
    rfl
  case unlockLoad i last =>
    show ((unlockLoadStep sh th i last).map _).isSome = true
    unfold unlockLoadStep
    split
    · rw [List.getElem?_eq_getElem (Nat.lt_of_lt_of_le ‹_› hr)]
      rfl
    · rfl
  case unlockStore i last buf =>
    show (unlockStoreStep sh th i last buf).isSome = true
    rw [unlockStoreStep, List.getElem?_eq_getElem (Nat.lt_of_lt_of_le hr.1 hr.2)]
    rfl
  case bumpClock =>
    show (bumpClockStep sh t th opened).isSome = true
    rw [bumpClockStep, Shared.fetchAndBumpClock, if_pos (hclock hp)]
    rfl
  case failCallbacks exn left =>
    cases left with
    | zero => rfl
    | succ left =>
        obtain ⟨_, hle, hdata, _⟩ := hb.failing exn (left + 1) hp
        show (failCallbacksStep sh th exn (left + 1)).isSome = true
        rw [failCallbacksStep, hdata, List.getElem?_eq_getElem hle]
        rfl
  case succCallbacks mode epoch minEpoch i =>
    show (succCallbacksStep sh th mode epoch minEpoch i).isSome = true
    have hne : th.td.succCallbacks.chunks ≠ [] := hr
    rw [succCallbacksStep, Option.isSome_map]
    simpa using hne
  all_goals rfl

end Step

/-! ## 2. How long a commit takes -/

/-- How many steps are left, at most, of an attempt that has come to its commit or is given up: `n` entries
    are in the write set and `r` in the read set. -/
def PC.commitRank (n r : Nat) : PC ι ν α → Nat
  | .tryCommit => 4 * n + r + 7
  | .lockLoad i => 2 * (n - i) + 2 * n + r + 6
  | .lockCas i _ => 2 * (n - i) + 2 * n + r + 5
  | .validateReads i => (r - i) + 2 * n + 5
  | .doWrites i => (n - i) + n + 4
  | .bumpClock => n + 3
  | .publish i _ => (n - i) + 2
  | .unlockLoad i last => 2 * (last - i) + 2
  | .unlockStore i last _ => 2 * (last - (i + 1)) + 3
  | .txSuccess _ | .txFailure _ => 1
  | _ => 0

/-- How many steps are left, at most, of the thread's commit. -/
def Thread.commitRank (th : Thread ι ν α) : Nat :=
  th.pc.commitRank th.td.writeSet.entries.length th.td.readSet.data.length

omit [DecidableEq ι] [DecidableEq ν] in
theorem PC.commitRank_of_inBody {pc : PC ι ν α} (h : pc.inBody = true) (n r : Nat) :
    pc.commitRank n r = 0 := by
  cases pc <;> first | rfl | cases h

omit [DecidableEq ι] in
/-- `remove_writes_from_reads` adds nothing. -/
theorem length_removeWritesFromReads (cfg : Config ι ν α) (td : ThreadData ν α) :
    (removeWritesFromReads cfg td).readSet.data.length ≤ td.readSet.data.length := by
  have hp := removeWritesFromReadsLoop_perm cfg.baseHash td.writeSet _ td.readSet (Nat.le_refl _)
  rw [List.take_length, List.drop_length, List.append_nil] at hp
  exact hp.length_eq.trans_le (List.length_filter_le ..)

omit [DecidableEq ι] [DecidableEq ν] in
theorem commitRank_reclaim (cfg : Config ι ν α) (th : Thread ι ν α) (sync : Epoch) (n r : Nat) :
    (th.reclaim cfg sync).pc.commitRank n r = 0 := by
  simp only [Thread.reclaim]
  split
  · split <;> rfl
  · rfl

section Rank

variable {cfg : Config ι ν α} {sh sh' : Shared ι ν α} {t : ι} {th th' : Thread ι ν α}
  {opened : ι → Option Nat} {req : Option (Request ν α)}

/-- **Every step of a commit brings its end nearer**, also where it fails; the last one leaves the section. -/
theorem Move.commitRank (h : Move cfg sh t th opened req sh' th') (hr : 0 < th.commitRank) :
    th'.commitRank < th.commitRank ∧
      (0 < th'.commitRank ∨ th'.pc.isOpen = false ∧ th'.pc.phase ≠ .attempt) := by
  have outside : ∀ {P : Prop} {pc : PC ι ν α}, th.pc = pc → pc.commitRank th.td.writeSet.entries.length
      th.td.readSet.data.length = 0 → P := fun hpc h0 => by
    rw [Thread.commitRank, hpc, h0] at hr
    exact absurd hr (Nat.lt_irrefl 0)
  -- a step to a place outside the section
  have leaves : (∀ n r, th'.pc.commitRank n r = 0) → th'.pc.isOpen = false → th'.pc.phase ≠ .attempt →
      th'.commitRank < th.commitRank ∧
        (0 < th'.commitRank ∨ th'.pc.isOpen = false ∧ th'.pc.phase ≠ .attempt) := fun h0 ho hp =>
    ⟨by rwa [Thread.commitRank, h0], Or.inr ⟨ho, hp⟩⟩
  cases h with
  | goto pc' hin => exact outside rfl (PC.commitRank_of_inBody hin ..)
  | startCommit hpc =>
      have hle := length_removeWritesFromReads cfg th.td
      refine ⟨?_, Or.inl (Nat.succ_pos _)⟩
      simp only [Thread.commitRank, hpc, PC.commitRank]
      show 2 * (th.td.writeSet.entries.length - 0) + 2 * th.td.writeSet.entries.length +
        (removeWritesFromReads cfg th.td).readSet.data.length + 6 < _
      omega
  | lockInvalid i hi hpc =>
      refine ⟨?_, Or.inl (Nat.succ_pos _)⟩
      rcases hpc with hpc | ⟨buf, hpc⟩
      all_goals
        simp only [Thread.commitRank, Thread.goto, hpc, PC.commitRank]
        omega
  | lock i e hpc he | store i e hpc he | publish i syncEpoch e hpc he =>
      have hi := (List.getElem?_eq_some_iff.mp he).1
      refine ⟨?_, Or.inl (Nat.succ_pos _)⟩
      simp only [Thread.commitRank, Thread.goto, hpc, PC.commitRank]
      omega
  | readValid i v hpc he =>
      have hi := (List.getElem?_eq_some_iff.mp he).1
      refine ⟨?_, Or.inl (Nat.succ_pos _)⟩
      simp only [Thread.commitRank, Thread.goto, hpc, PC.commitRank]
      omega
  | commitEmpty hpc | allLocked i hpc | lockValid i e hpc | unlockLoad i last e hpc | unlockDone i last hpc
  | unlock i last buf e hpc | validated i hpc | readInvalid i hpc | allStored i hpc | bump hpc
  | published i syncEpoch hpc =>
      refine ⟨?_, Or.inl (Nat.succ_pos _)⟩
      simp only [Thread.commitRank, Thread.goto, hpc, PC.commitRank]
      omega
  | success sync =>
      refine leaves (fun n r => commitRank_reclaim ..) (reclaim_not_open ..) fun hp => ?_
      rw [reclaim_outside] at hp
      cases hp
  | successReadOnly | failure => exact leaves (fun _ _ => rfl) rfl fun hp => by cases hp
  | failureReadOnly exn =>
      exact leaves (fun _ _ => by cases exn <;> rfl) (afterFailure_not_open ..) fun hp => by cases exn <;> cases hp
  | atomicPush v s hpc | atomicOverwrite v s i hpc =>
      rcases hpc with ⟨hpc, _⟩ | hpc <;> exact outside hpc rfl
  | _ => exact outside ‹_› rfl

end Rank

section Run

variable {cfg : Config ι ν α} {ok : Request ν α → Prop} {s s' : Sys ι ν α} {t : ι}

omit [DecidableEq ι] [DecidableEq ν] in
theorem Thread.pc_ne_getClock {th : Thread ι ν α} (h : 0 < th.commitRank) : th.pc ≠ .getClock := by
  intro hpc
  rw [Thread.commitRank, hpc] at h
  exact Nat.lt_irrefl 0 h

/-- Somewhere along the schedule thread `t` is out of its section, still in its attempt number `n`. -/
def Sys.LeavesAlong (cfg : Config ι ν α) (schedule : List (ι × Option (Request ν α))) (s : Sys ι ν α) (t : ι)
    (n : Nat) : Prop :=
  ∃ front back s₁, schedule = front ++ back ∧ Sys.run cfg front s = some s₁ ∧
    (s₁.threads t).pc.isOpen = false ∧ (s₁.threads t).att.number = n

theorem Sys.LeavesAlong.cons {m : ι × Option (Request ν α)} {rest : List (ι × Option (Request ν α))} {n : Nat}
    (h1 : s.step cfg m.1 m.2 = some s') (h : Sys.LeavesAlong cfg rest s' t n) :
    Sys.LeavesAlong cfg (m :: rest) s t n := by
  obtain ⟨front, back, s₁, e, hrun, hout⟩ := h
  exact ⟨m :: front, back, s₁, by rw [e]; rfl, by rw [Sys.run, h1]; exact hrun, hout⟩

/-- **The run**: a schedule in which the thread of a commit has as many steps as the commit may take leads
    it out of its section. -/
theorem leavesAlong {schedule : List (ι × Option (Request ν α))} (h : Sys.run cfg schedule s = some s')
    (ho : 0 < (s.threads t).commitRank ∨ (s.threads t).pc.isOpen = false)
    (hn : (s.threads t).commitRank ≤ schedule.countP fun m => m.1 = t) :
    Sys.LeavesAlong cfg schedule s t (s.threads t).att.number := by
  rcases ho with hr | ho
  swap
  · exact ⟨[], schedule, s, rfl, rfl, ho, rfl⟩
  induction schedule generalizing s with
  | nil => exact absurd hr (Nat.not_lt_of_le hn)
  | cons m rest ih =>
      obtain ⟨s₁, h1, h2⟩ := Option.bind_eq_some_iff.mp h
      refine Sys.LeavesAlong.cons h1 ?_
      obtain ⟨sh', th', hm, rfl⟩ := Sys.step_move h1
      by_cases hmt : m.1 = t
      · -- its own step brings the end nearer
        subst hmt
        obtain ⟨hlt, ho⟩ := hm.commitRank hr
        have hnum := (hm.attempt (Thread.pc_ne_getClock hr)).1
        rw [List.countP_cons_of_pos (by simp)] at hn
        rcases ho with hr' | ⟨ho, _⟩
        · have hle : th'.commitRank ≤ rest.countP fun m' => m'.1 = m.1 := by omega
          have := ih h2 (by rwa [Sys.threads_after_self]) (by rwa [Sys.threads_after_self])
          rwa [Sys.threads_after_self, hnum] at this
        · exact ⟨[], rest, _, rfl, rfl, by rwa [Sys.threads_after_self], by rwa [Sys.threads_after_self]⟩
      · -- the others' steps leave it as far as it is
        rw [List.countP_cons_of_neg (by simpa using hmt)] at hn
        have hsame := s.threads_after_ne (Ne.symm hmt) sh' th'
        have := ih h2 (by rwa [hsame]) (by rwa [hsame])
        rwa [hsame] at this

/-- **A commit is over after a bounded number of its own steps.** From `try_commit` with `n` entries in the
    write set and `r` in the read set, the thread's next step is possible whatever the other threads have
    done, and in every schedule that gives it `4 * n + r + 7` steps it has left its section: it takes and
    gives back its locks, validates, stores and publishes without waiting for anybody. -/
theorem commit_bounded (h : Sys.Reach cfg ok s) (hpc : (s.threads t).pc = .tryCommit) :
    (∀ s', Sys.Steps cfg ok s s' → 0 < (s'.threads t).commitRank →
      s'.shared.clock < maxVersion - bumpSize → (s'.step cfg t none).isSome = true) ∧
    ∀ schedule s', Sys.run cfg schedule s = some s' →
      4 * (s.threads t).td.writeSet.entries.length + (s.threads t).td.readSet.data.length + 7 ≤
        schedule.countP (fun m => m.1 = t) →
      Sys.LeavesAlong cfg schedule s t (s.threads t).att.number := by
  refine ⟨fun s' hs hr hc => ?_, fun schedule s' hrun hn => leavesAlong hrun (Or.inl ?_) ?_⟩
  · have hr' := h.steps hs
    rw [Sys.step, Option.isSome_map]
    refine threadStep_isSome (books_reach hr' t) (ready_reach hr' t) (fun hidle => ?_) (fun _ => hc) fun hcall => ?_
    · rw [Thread.commitRank, hidle] at hr
      exact absurd hr (Nat.lt_irrefl 0)
    · rw [Thread.commitRank, hcall] at hr
      exact absurd hr (Nat.lt_irrefl 0)
  · rw [Thread.commitRank, hpc]
    exact Nat.succ_pos _
  · rw [Thread.commitRank, hpc]
    exact hn

end Run

/-- A body that sets one var. -/
def setOne : Body Bool Nat := fun log => if log.length = 0 then .set true 7 else .ret

/-- A call that sets one var has come to its commit. -/
def toCommit : List (Bool × Option (Request Bool Nat)) :=
  (false, some (.readWrite setOne)) :: List.replicate 6 (false, none)

theorem toCommit_isSome : (Sys.run smallConfig toCommit (.init smallConfig)).isSome = true := by decide

/-- The commit of one var takes the eleven steps there are for it. -/
theorem commit_bounded_toCommit :
    Sys.LeavesAlong smallConfig (List.replicate 11 (false, none))
      ((Sys.run smallConfig toCommit (.init smallConfig)).get toCommit_isSome) false 1 := by
  have hr : Sys.Reach smallConfig (fun _ => True)
      ((Sys.run smallConfig toCommit (.init smallConfig)).get toCommit_isSome) :=
    .of_run (fun _ _ _ _ => trivial) (Option.some_get toCommit_isSome).symm
  have hrun : (Sys.run smallConfig (List.replicate 11 (false, none))
      ((Sys.run smallConfig toCommit (.init smallConfig)).get toCommit_isSome)).isSome = true := by decide
  exact (commit_bounded (t := false) hr rfl).2 _ _ (Option.some_get hrun).symm (by decide)

/-! ## 3. Who waits for whom -/

/-- The epoch the place carries: the one a commit synchronizes on, or the one a scan waits for. -/
def PC.epoch? : PC ι ν α → Option Epoch
  | .publish _ epoch | .txSuccess epoch | .waitMinEpoch _ epoch _ _ | .waitOnEpoch _ epoch _ _ _ => some epoch
  | _ => none

/-- An epoch the thread's callbacks wait for. -/
def Thread.HasEpoch (th : Thread ι ν α) (e : Epoch) : Prop :=
  (∃ ch ∈ th.td.succCallbacks.chunks, ch.epoch = e) ∨ th.pc.epoch? = some e

/-- Thread `u` waits until thread `v` announces more than `epoch`. -/
def Sys.Waits (s : Sys ι ν α) (u v : ι) (epoch : Epoch) : Prop :=
  (∃ mode nodes result, (s.threads u).pc = .waitOnEpoch mode epoch v nodes result) ∧ s.shared.active v ≤ epoch

section Epochs

variable {cfg : Config ι ν α} {sh sh' : Shared ι ν α} {t : ι} {th th' : Thread ι ν α}
  {opened : ι → Option Nat} {req : Option (Request ν α)} {e : Epoch}

omit [DecidableEq ι] [DecidableEq ν] in
theorem PC.epoch?_of_inBody {pc : PC ι ν α} (h : pc.inBody = true) : pc.epoch? = none := by
  cases pc <;> first | rfl | cases h

omit [DecidableEq ι] [DecidableEq ν] in
/-- A scan is entered for the epoch of a chunk. -/
theorem hasEpoch_reclaim {sync : Epoch} (h : (th.reclaim cfg sync).HasEpoch e) :
    ∃ ch ∈ (th.reclaim cfg sync).td.succCallbacks.chunks, ch.epoch = e := by
  rcases h with h | h
  · exact h
  · revert h
    simp only [Thread.reclaim]
    split
    · split
      · rename_i e' he'
        intro h
        obtain ⟨ch, hch, hce⟩ := Option.map_eq_some_iff.mp he'
        exact ⟨ch, List.mem_of_mem_head? hch, hce.trans (Option.some.inj h)⟩
      · exact fun h => by cases h
    · exact fun h => by cases h

/-- **Where an epoch comes from**: a commit brings one that is then past, or the earliest one. -/
theorem Move.hasEpoch (h : Move cfg sh t th opened req sh' th') (he : th'.HasEpoch e) :
    th.HasEpoch e ∨ e = 0 ∨ e < sh'.clock := by
  have same : th'.td.succCallbacks.chunks = th.td.succCallbacks.chunks → th'.pc.epoch? = none →
      th.HasEpoch e ∨ e = 0 ∨ e < sh'.clock := fun hc hp => by
    rcases he with ⟨ch, hch, hce⟩ | he
    · exact Or.inl (Or.inl ⟨ch, hc ▸ hch, hce⟩)
    · rw [hp] at he
      cases he
  -- a step to a place with the epoch of the one before
  have keep : ∀ {pc : PC ι ν α}, th.pc = pc → th'.td.succCallbacks.chunks = th.td.succCallbacks.chunks →
      th'.pc.epoch? = pc.epoch? → th.HasEpoch e ∨ e = 0 ∨ e < sh'.clock := by
    rintro pc rfl hc hp
    rcases he with ⟨ch, hch, hce⟩ | he
    · exact Or.inl (Or.inl ⟨ch, hc ▸ hch, hce⟩)
    · exact Or.inl (Or.inr (hp ▸ he))
  cases h with
  | reclaimNothing | waitMore => exact Or.inl he
  | reclaimAll ch _ _ hq =>
      rcases he with he | he
      · exact Or.inl (Or.inl he)
      · exact Or.inl (Or.inl ⟨ch, List.mem_of_getLast? hq, Option.some.inj he⟩)
  | goto pc' hin hout =>
      rcases hout with h | ⟨_, rfl⟩ | rfl | ⟨rfl, _⟩
      · exact same rfl (PC.epoch?_of_inBody (PC.inBody_of_isEntry h))
      · exact same rfl rfl
      · exact same rfl rfl
      · rcases he with he | he
        · exact Or.inl (Or.inl he)
        · exact Or.inr (Or.inl (Option.some.inj he).symm)
  | readReturns path v result =>
      refine same ?_ rfl
      rw [td_opReturns, td_noteRead]
      unfold Thread.pushRead
      split <;> rfl
  | registerSucc | allocSlow => exact same (EpochQueue.chunks_emplaceBack ..) rfl
  | commitEmpty =>
      rcases he with he | he
      · exact Or.inl (Or.inl he)
      · exact Or.inr (Or.inl (Option.some.inj he).symm)
  | bump hpc =>
      rcases he with he | he
      · exact Or.inl (Or.inl he)
      · exact Or.inr (Or.inr (Option.some.inj he ▸ Nat.lt_succ_self _))
  | publish i sync e' hpc | published i sync hpc => exact keep hpc rfl rfl
  | success sync hpc =>
      refine Or.inl ?_
      obtain ⟨ch, hch, hce⟩ := hasEpoch_reclaim he
      rw [chunks_reclaim] at hch
      split at hch
      · exact Or.inl ⟨ch, hch, hce⟩
      · rw [List.mem_append, List.mem_singleton] at hch
        rcases hch with hch | rfl
        · exact Or.inl ⟨ch, hch, hce⟩
        · exact Or.inr (by rw [hpc, ← hce]; rfl)
  | failureReadOnly exn => cases exn <;> exact same rfl rfl
  | failDone exn => cases exn <;> exact same rfl rfl
  | scanWait mode epoch result u nodes hpc | scanPass mode epoch result u nodes hpc
  | waitDone mode epoch result u nodes hpc => exact keep hpc rfl rfl
  | succNext | succDone =>
      rcases he with ⟨ch, hch, hce⟩ | he
      · exact Or.inl (Or.inl ⟨ch, List.mem_of_mem_tail hch, hce⟩)
      · cases he
  | _ => exact same rfl rfl

end Epochs

section Waits

variable {cfg : Config ι ν α} {ok : Request ν α → Prop} {s s' : Sys ι ν α} {u v : ι} {e : Epoch}

/-- **In every state reached every epoch that is waited for is past**, or the earliest one. -/
theorem epochs_past (h : Sys.Reach cfg ok s) (t : ι) (he : (s.threads t).HasEpoch e) :
    e = 0 ∨ e < s.shared.clock := by
  revert t
  refine h.induct (P := fun s => ∀ t, (s.threads t).HasEpoch e → e = 0 ∨ e < s.shared.clock) ?_ ?_
  · rintro t (⟨ch, hch, _⟩ | he)
    · cases hch
    · cases he
  · intro s t req sh' th' _ ih _ hm
    refine Sys.forall_after (P := fun _ th => th.HasEpoch e → e = 0 ∨ e < sh'.clock) (fun he => ?_)
      fun u _ he => (ih u he).imp_right fun h => h.trans_le hm.clock_le
    rcases hm.hasEpoch he with he | he | he
    · exact (ih t he).imp_right fun h => h.trans_le hm.clock_le
    · exact Or.inl he
    · exact Or.inr he

theorem Sys.Waits.epoch_past (hw : s.Waits u v e) (h : Sys.Reach cfg ok s) : e = 0 ∨ e < s.shared.clock := by
  obtain ⟨⟨mode, nodes, result, hpc⟩, _⟩ := hw
  exact epochs_past h u (Or.inr (by rw [hpc]; rfl))

/-- Who is waited for is inside its section. -/
theorem Sys.Waits.isOpen (hw : s.Waits u v e) (h : Sys.Reach cfg ok s) : (s.threads v).pc.isOpen = true := by
  have ha := active_reach h
  have hoff := maxVersion_lt.trans lockBit_lt_offState
  have hlt : e < offState := by
    rcases hw.epoch_past h with rfl | hlt
    · exact Nat.zero_lt_of_lt hoff
    · exact hlt.trans (ha.clock_lt.trans hoff)
  by_contra hn
  have hact := ha.active v
  rw [if_neg hn] at hact
  exact absurd (hact ▸ hw.2) (Nat.not_le_of_lt hlt)

omit [DecidableEq ι] [DecidableEq ν] in
theorem Sys.Waits.not_open (hw : s.Waits u v e) : (s.threads u).pc.isOpen = false := by
  obtain ⟨⟨mode, nodes, result, hpc⟩, _⟩ := hw
  rw [hpc]
  rfl

theorem step_isSome (hok : ∀ r, ok r → r.isTyped) (h : Sys.Reach cfg ok s)
    (hclock : s.shared.clock < maxVersion - bumpSize) (hpc : (s.threads u).pc ≠ .idle) :
    (s.step cfg u none).isSome = true := by
  rw [Sys.step, Option.isSome_map]
  refine threadStep_isSome (books_reach h u) (ready_reach h u) hpc (fun _ => hclock) fun hcall hk => ?_
  rcases request_of_inCall h u (by rw [hcall]; rfl) with ⟨hk', _⟩ | ⟨_, hreq⟩
  · rw [hk] at hk'
    cases hk'
  · exact hok _ hreq _

/-- **No deadlock.** In every reachable state every thread that is not idle can make its next step, as long
    as the clock is not used up; and if that step waits for another thread, the other one is inside its
    section, waits for nobody and can make its next step. -/
theorem no_deadlock (hok : ∀ r, ok r → r.isTyped) (h : Sys.Reach cfg ok s)
    (hclock : s.shared.clock < maxVersion - bumpSize) (hpc : (s.threads u).pc ≠ .idle) :
    (s.step cfg u none).isSome = true ∧ ∀ v e, s.Waits u v e →
      v ≠ u ∧ (s.threads v).pc.isOpen = true ∧ (∀ w e', ¬ s.Waits v w e') ∧
        (s.step cfg v none).isSome = true := by
  refine ⟨step_isSome hok h hclock hpc, fun v e hw => ?_⟩
  have hopen := hw.isOpen h
  refine ⟨?_, hopen, fun w e' hw' => ?_, step_isSome hok h hclock fun hidle => ?_⟩
  · rintro rfl
    rw [hw.not_open] at hopen
    cases hopen
  · rw [hw'.not_open] at hopen
    cases hopen
  · rw [hidle] at hopen
    cases hopen

/-- The one step from the top of `while (true)`. -/
theorem Move.of_getClock {sh sh' : Shared ι ν α} {t : ι} {th th' : Thread ι ν α} {opened : ι → Option Nat}
    {req : Option (Request ν α)} (h : Move cfg sh t th opened req sh' th') (hpc : th.pc = .getClock) :
    th' = getClockStep sh th := by
  cases h with
  | getClock => rfl
  | goto pc' hin =>
      rw [hpc] at hin
      cases hin
  | atomicPush v s hpc' | atomicOverwrite v s i hpc' =>
      rcases hpc' with ⟨hpc', _⟩ | hpc' <;> cases hpc.symm.trans hpc'
  | lockInvalid i hi hpc' => rcases hpc' with hpc' | ⟨_, hpc'⟩ <;> cases hpc.symm.trans hpc'
  | _ => cases hpc.symm.trans ‹_›

/-- The attempts a thread begins read a later clock. -/
theorem version_of_later (h : Sys.Reach cfg ok s) (hs : Sys.Steps cfg ok s s') :
    s.shared.clock ≤ s'.shared.clock ∧ ∀ v, (s.threads v).att.number ≤ (s'.threads v).att.number ∧
      ((s'.threads v).att.number = (s.threads v).att.number ∨ s.shared.clock ≤ (s'.threads v).version) := by
  induction hs with
  | refl => exact ⟨Nat.le_refl _, fun _ => ⟨Nat.le_refl _, Or.inl rfl⟩⟩
  | @step s₁ s₂ t req hs' _ hst ih =>
      obtain ⟨sh', th', hm, rfl⟩ := Sys.step_move hst
      refine ⟨ih.1.trans hm.clock_le, ?_⟩
      refine Sys.forall_after (P := fun u th => (s.threads u).att.number ≤ th.att.number ∧
        (th.att.number = (s.threads u).att.number ∨ s.shared.clock ≤ th.version)) ?_ fun u _ => ih.2 u
      obtain ⟨hle, hver⟩ := ih.2 t
      rcases hm.number with ⟨hpc, hn⟩ | ⟨hpc, hn⟩
      · rw [hn, (active_reach (h.steps hs')).version_eq hm hpc]
        exact ⟨hle, hver⟩
      · rw [hn, hm.of_getClock hpc]
        exact ⟨Nat.le_succ_of_le hle, Or.inr ih.1⟩

/-- **A thread waits for one attempt of another only.** Once a version has been published, who waits for
    thread `v` does so for the attempt that `v` is in: when that has left its section, no later one of `v` is
    ever waited for at this epoch. -/
theorem waits_once (h : Sys.Reach cfg ok s) (hw : s.Waits u v e) (hclock : 0 < s.shared.clock)
    (hs : Sys.Steps cfg ok s s')
    (hleft : (s'.threads v).pc.isOpen = true → (s'.threads v).att.number ≠ (s.threads v).att.number) :
    e < s'.shared.active v := by
  have hpast : e < s.shared.clock := by
    rcases hw.epoch_past h with rfl | hlt
    · exact hclock
    · exact hlt
  obtain ⟨hcl, hver⟩ := version_of_later h hs
  have ha := active_reach (h.steps hs)
  rw [ha.active v]
  split
  · rename_i ho
    exact hpast.trans_le ((hver v).2.resolve_left (hleft ho))
  · exact (hpast.trans_le hcl).trans (ha.clock_lt.trans (maxVersion_lt.trans lockBit_lt_offState))

end Waits

/-- A read_only call is about to get a var; a commit that sets it is over, and its thread reclaims. -/
def awaited : List (Bool × Option (Request Bool Nat)) :=
  (true, some (.readOnly fun log => if log.length = 0 then .get true else .ret)) ::
    List.replicate 3 (true, none) ++
  (false, some (.readWrite setOne)) :: List.replicate 17 (false, none) ++
  (false, some .reclaimAll) :: List.replicate 2 (false, none)

theorem awaited_isSome : (Sys.run smallConfig awaited (.init smallConfig)).isSome = true := by decide

theorem awaited_reach : Sys.Reach smallConfig Request.isTyped
    ((Sys.run smallConfig awaited (.init smallConfig)).get awaited_isSome) := by
  refine .of_run (fun m hm r hr => ?_) (Option.some_get awaited_isSome).symm
  simp only [awaited, List.cons_append, List.mem_cons, List.mem_append, List.mem_replicate] at hm
  rcases hm with rfl | (⟨_, rfl⟩ | rfl | ⟨_, rfl⟩) | rfl | ⟨_, rfl⟩ <;> cases hr
  · intro log
    dsimp only
    split <;> rfl
  · trivial
  · trivial

theorem awaited_waits :
    ((Sys.run smallConfig awaited (.init smallConfig)).get awaited_isSome).Waits false true 0 :=
  ⟨⟨.reclaimAll, [], offState, rfl⟩, by decide⟩

theorem no_deadlock_awaited :
    (((Sys.run smallConfig awaited (.init smallConfig)).get awaited_isSome).step smallConfig true none).isSome
      = true :=
  ((no_deadlock (u := false) (fun _ h => h) awaited_reach (by decide) nofun).2 true 0 awaited_waits).2.2.2

/-- The get fails, and its thread begins another attempt. -/
theorem again_isSome : (Sys.run smallConfig (List.replicate 5 (true, none))
    ((Sys.run smallConfig awaited (.init smallConfig)).get awaited_isSome)).isSome = true := by decide

theorem waits_once_again :
    0 < ((Sys.run smallConfig (List.replicate 5 (true, none))
      ((Sys.run smallConfig awaited (.init smallConfig)).get awaited_isSome)).get again_isSome).shared.active
        true := by
  refine waits_once awaited_reach awaited_waits (by decide)
    (Sys.Steps.of_run (fun m hm r hr => ?_) (Option.some_get again_isSome).symm) fun _ => by decide
  rw [(List.mem_replicate.mp hm).2] at hr
  cases hr

end LockfreeStm
