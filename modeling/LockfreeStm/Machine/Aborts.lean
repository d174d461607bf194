/-
  File:      LockfreeStm/Machine/Aborts.lean
  Subject:   NO ATTEMPT IS GIVEN UP WITHOUT A REASON: the body asked for it, or another thread is in the way
             of a var the attempt uses.

  `tx_retry` is thrown, and `try_commit` returns commit_failed, where a version_lock is above the attempt's
  version, or has changed between its load and the compare-exchange. `Move` says that such a step ends the
  attempt; here is which test failed, and what that says about the other threads.

  * `AbortCause`, `abort_cause` -- the test that failed.
  * `AbortFacts`, `abortFacts_reach` -- the invariants behind it: what a version loaded in front of the
    compare-exchange says about the commits, and that no var is in both sets once the commit has begun.
  * `Sys.Conflict`, `abort_conflict` -- who is in the way: a lock, or a later commit.
  * `abort_justified` -- **the main result**.
-/
import LockfreeStm.Machine.Serial
import LockfreeStm.CommitAlgorithm

namespace LockfreeStm

variable {ι ν α : Type}

/-! ## 1. The test that failed -/

/-- The places at which the attempt is being given up. -/
def PC.isAborting : PC ι ν α → Bool
  | .txFailure _ | .unlockLoad _ _ | .unlockStore _ _ _ => true
  | _ => false

/-- The next step checks the version_lock of `v`. -/
def Thread.Checks (th : Thread ι ν α) (v : ν) : Prop :=
  match th.pc with
  | .readVersion _ w _ | .readPending w _ | .writeVersion w _ | .writeSlowVersion w _ _
  | .writePendingVersion w _ _ | .atomicWriteVersion w _ | .atomicWriteSlowVersion w => w = v
  | .lockLoad i | .lockCas i _ => ∃ e, th.td.writeSet.entries[i]? = some e ∧ e.destVar = v
  | .validateReads i => th.td.readSet.data[i]? = some v
  | _ => False

/-- The places from which an attempt may be given up. -/
def PC.mayAbort : PC ι ν α → Bool
  | .lockLoad _ | .lockCas _ _ | .validateReads _ => true
  | pc => pc.inBody

variable [DecidableEq ι] [DecidableEq ν]

/-- Why a step gives the attempt up. -/
inductive AbortCause (sh : Shared ι ν α) (th : Thread ι ν α) : Prop where
  | body (hpc : th.pc = .call) (hop : th.body th.log = .retry ∨ th.body th.log = .throw)
  | invalid (v : ν) (hc : th.Checks v) (hv : th.version < sh.loadVersion v)
  | changed (i : Nat) (buf : Epoch) (e : WriteSetValueType ν (VarStorage α))
      (hpc : th.pc = .lockCas i buf) (he : th.td.writeSet.entries[i]? = some e)
      (hne : sh.loadVersion e.destVar ≠ buf)

section Cause

variable {cfg : Config ι ν α} {sh sh' : Shared ι ν α} {t : ι} {th th' : Thread ι ν α}
  {opened : ι → Option Nat} {req : Option (Request ν α)}

omit [DecidableEq ι] [DecidableEq ν] in
theorem not_rwValid {v : ν} (h : ¬ th.rwValid (sh.loadVersion v) = true) :
    th.version < sh.loadVersion v :=
  Nat.lt_of_not_le fun hle => h (rwValid_iff.mpr hle)

omit [DecidableEq ι] [DecidableEq ν] in
theorem PC.not_aborting_of_isEntry {pc : PC ι ν α} (h : pc.isEntry = true) : pc.isAborting = false := by
  cases pc <;> first | rfl | cases h

omit [DecidableEq ι] in
/-- A body's operation gives the attempt up where it is `retry` or `throw`. -/
theorem callStep_cause (hpc : th.pc = .call) (h : callStep cfg sh t th = some th')
    (ha : th'.pc.isAborting = true) : AbortCause sh th := by
  have entry : (∃ pc', th' = th.goto pc' ∧ pc'.isEntry = true ∧ OpAt cfg th pc') → AbortCause sh th := by
    rintro ⟨pc', rfl, hin, _⟩
    rw [Thread.goto, PC.not_aborting_of_isEntry hin] at ha
    cases ha
  unfold callStep at h
  split at h
  case h_1 hk hop => exact entry (rwReadBase_cases h hk hop)
  case h_2 hk hop => exact entry (rwReadBase_cases h hk hop)
  case h_4 hk hop =>
    split at h
    · rename_i hv
      unfold Thread.rwWrite at h
      split at h
      · exact entry (rwWriteSlowPath_cases h hk hop hv)
      · cases h
        cases ha
    · cases h
      revert ha
      unfold Thread.rwAtomicWriteBase Thread.rwAtomicWriteSlowPath
      split
      · split <;> exact fun ha => by cases ha
      · exact fun ha => by cases ha
  case h_15 hop _ => exact .body hpc (Or.inl hop)
  case h_16 hop _ => exact .body hpc (Or.inr hop)
  all_goals
    cases h
    try cases ha

omit [DecidableEq ι] [DecidableEq ν] in
theorem PC.mayAbort_of_inBody {pc : PC ι ν α} (h : pc.inBody = true) : pc.mayAbort = true := by
  cases pc <;> first | rfl | cases h

/-- An attempt is given up inside its body, at a lock, or while it validates its reads. -/
theorem Move.mayAbort (h : Move cfg sh t th opened req sh' th') (hb : th.pc.isAborting = false)
    (ha : th'.pc.isAborting = true) : th.pc.mayAbort = true := by
  cases h with
  | reclaimNothing | waitMore =>
      rw [hb] at ha
      cases ha
  | goto pc' hin => exact PC.mayAbort_of_inBody hin
  | lockInvalid i hi hpc => rcases hpc with hpc | ⟨_, hpc⟩ <;> rw [hpc] <;> rfl
  | readInvalid i hpc => rw [hpc]; rfl
  | unlockLoad _ _ _ hpc | unlockDone _ _ hpc | unlock _ _ _ _ hpc =>
      rw [hpc] at hb
      cases hb
  | success sync =>
      simp only [Thread.reclaim] at ha
      split at ha
      · split at ha <;> cases ha
      · cases ha
  | failureReadOnly exn => cases exn <;> cases ha
  | failDone exn => cases exn <;> cases ha
  | _ => cases ha

/-- **A step that gives the attempt up has a cause.** -/
theorem abort_cause (h : threadStep cfg sh t th opened req = some (sh', th'))
    (hb : th.pc.isAborting = false) (ha : th'.pc.isAborting = true) : AbortCause sh th := by
  have hmay : th.pc.mayAbort = true := (threadStep_move h).mayAbort hb ha
  have check : ∀ {v : ν}, th.Checks v → ¬ th.rwValid (sh.loadVersion v) = true → AbortCause sh th :=
    fun hc hv => .invalid _ hc (not_rwValid hv)
  unfold threadStep at h
  split at h
  case h_4 hpc =>
    obtain ⟨r, hr, e⟩ := Option.map_eq_some_iff.mp h
    cases e
    exact callStep_cause hpc hr ha
  case h_6 path v result hpc =>
    unfold readVersionStep at h
    split at h
    · cases h
      cases ha
    · exact check (by rw [Thread.Checks, hpc]) ‹_›
  case h_7 v pending hpc =>
    cases h
    unfold readPendingStep at ha
    split at ha
    · cases ha
    · exact check (by rw [Thread.Checks, hpc]) ‹_›
  case h_8 v x hpc =>
    unfold writeVersionStep at h
    split at h
    · cases h
      cases ha
    · exact check (by rw [Thread.Checks, hpc]) ‹_›
  case h_11 v x cur hpc =>
    simp only [writeSlowVersionStep, Option.some.injEq] at h
    split at h
    · cases h
      cases ha
    · exact check (by rw [Thread.Checks, hpc]) ‹_›
  case h_12 v x pending hpc =>
    simp only [writePendingVersionStep, Option.some.injEq] at h
    split at h
    · cases h
      cases ha
    · exact check (by rw [Thread.Checks, hpc]) ‹_›
  case h_13 v s hpc =>
    cases h
    unfold atomicWriteVersionStep at ha
    split at ha
    · cases ha
    · exact check (by rw [Thread.Checks, hpc]) ‹_›
  case h_14 v hpc =>
    cases h
    unfold atomicWriteSlowVersionStep at ha
    split at ha
    · cases ha
    · exact check (by rw [Thread.Checks, hpc]) ‹_›
  case h_16 i hpc =>
    cases h
    unfold lockLoadStep at ha
    split at ha
    · cases ha
    · rename_i e he
      split at ha
      · cases ha
      · exact check (by rw [Thread.Checks, hpc]; exact ⟨e, he, rfl⟩) ‹_›
  case h_17 i buf hpc =>
    obtain ⟨e, he, hr⟩ := Option.map_eq_some_iff.mp h
    split at hr
    · cases hr
      cases ha
    · exact .changed i buf e hpc he ‹_›
  case h_20 i hpc =>
    cases h
    unfold validateReadsStep at ha
    split at ha
    · cases ha
    · split at ha
      · cases ha
      · exact check (by rw [Thread.Checks, hpc]; assumption) ‹_›
  case h_5 | h_9 | h_10 =>
    cases h
    cases ha
  all_goals
    rename_i hpc
    rw [hpc] at hmay
    cases hmay

end Cause

/-! ## 2. What the attempt may rely on -/

/-- What holds of a running attempt of thread `t`. -/
structure AbortFacts (s : Sys ι ν α) (t : ι) (th : Thread ι ν α) : Prop where
  /-- the thread's own commits are older than the attempt -/
  own : th.pc.phase = .attempt → ∀ c ∈ s.shared.hist.commits, c.tid = t → c.version ≤ th.version
  /-- the loaded version is the latest one, or somebody has committed the var since -/
  casAt : ∀ i buf e, th.pc = .lockCas i buf → th.td.writeSet.entries[i]? = some e →
    latestVersion s.shared.hist.commits e.destVar = buf ∨
      th.version < latestVersion s.shared.hist.commits e.destVar
  /-- no var is in both sets -/
  disjoint : th.pc.inCommit = true → ∀ v ∈ th.td.readSet.data, ¬ th.Writes v

section Facts

variable {cfg : Config ι ν α} {s : Sys ι ν α} {t : ι} {req : Option (Request ν α)}
  {sh' : Shared ι ν α} {th' : Thread ι ν α}

omit [DecidableEq ι] in
/-- A step leaves the latest version of a var, or puts one above the clock. -/
theorem Effect.latestVersion {sh : Shared ι ν α} {th : Thread ι ν α} {opened : ι → Option Nat}
    (hm : Effect sh t th opened sh' th') (v : ν) :
    latestVersion sh'.hist.commits v = latestVersion sh.hist.commits v ∨
      sh.clock < latestVersion sh'.hist.commits v := by
  cases hm with
  | quiet hs => exact Or.inl (by rw [hs.commits])
  | commitEmpty hpc he =>
      exact Or.inl (latestVersion_of_eq
        (WriteLog.latest_cons_none (Commit.put_of_empty (by simp [commitRecord, he]) v)))
  | bump =>
      by_cases hw : ∃ e ∈ th.entries, e.destVar = v
      · obtain ⟨w, hw⟩ := commitRecord_put_of_mem { sh with clock := sh.clock + bumpSize } t
          (sh.clock + bumpSize) th.att.point opened hw
        refine Or.inr ?_
        rw [Shared.noteCommit, latestVersion_of_some (WriteLog.latest_cons_some hw)]
        exact Nat.lt_succ_self _
      · exact Or.inl (latestVersion_of_eq (WriteLog.latest_cons_none
          (WriteLog.not_writes.mp fun hw' => hw (commitRecord_writes.mp hw'))))
  | _ => exact Or.inl rfl

/-- What a step of another thread leaves. -/
theorem AbortFacts.other {u : ι} {th : Thread ι ν α} (h : AbortFacts s u th) (ha : th.version ≤ s.shared.clock)
    (hu : u ≠ t) (hm : Move cfg s.shared t (s.threads t) s.opened req sh' th') :
    AbortFacts (s.after t sh' th') u th where
  own hp c hc htid := by
    rcases hm.commits with ⟨hcs, _⟩ | ⟨d, hcs, hd, _⟩
    · exact h.own hp c (hcs ▸ hc) htid
    · rcases List.mem_cons.mp (hcs ▸ hc) with rfl | hc
      · exact absurd (htid.symm.trans hd) hu
      · exact h.own hp c hc htid
  casAt i buf e hpc he := by
    show latestVersion sh'.hist.commits _ = _ ∨ _ < latestVersion sh'.hist.commits _
    rcases hm.effect.latestVersion e.destVar with heq | hlt
    · rw [heq]
      exact h.casAt i buf e hpc he
    · exact Or.inr (lt_of_le_of_lt ha hlt)
  disjoint := h.disjoint

/-- The commits of a thread are older than the attempt it runs. -/
theorem AbortFacts.own_step (h : AbortFacts s t (s.threads t)) (ha : Active cfg s) (hc : Commits cfg s)
    (hm : Move cfg s.shared t (s.threads t) s.opened req sh' th') (hp : th'.pc.phase = .attempt) :
    ∀ c ∈ sh'.hist.commits, c.tid = t → c.version ≤ th'.version := by
  intro c hcm htid
  have hcs : sh'.hist.commits = s.shared.hist.commits := by
    rcases hm.commits with ⟨hcs, _⟩ | ⟨_, _, _, _, _, hp', _⟩
    · exact hcs
    · rw [hp] at hp'
      cases hp'
  rw [hcs] at hcm
  have old : (s.threads t).pc.phase = .attempt → c.version ≤ th'.version := fun hph => by
    rw [ha.version_eq hm fun hg => by rw [hg] at hph; cases hph]
    exact h.own hph c hcm htid
  cases hm.run hp with
  | fresh => exact hc.le_clock c hcm
  | read path v st hpc => exact old (by rw [hpc]; rfl)
  | allLocked i hpc => exact old (by rw [hpc]; rfl)
  | valid i v hpc => exact old (by rw [hpc]; rfl)
  | same _ hph => exact old hph

/-- In front of the compare-exchange the loaded version is the var's latest. -/
theorem casAt_step (ha : Active cfg s) (hc : Commits cfg s) (hl : Locks s)
    (hm : Move cfg s.shared t (s.threads t) s.opened req sh' th') {i : Nat} {buf : Epoch}
    {e : WriteSetValueType ν (VarStorage α)} (hpc : th'.pc = .lockCas i buf)
    (he : th'.td.writeSet.entries[i]? = some e) :
    latestVersion sh'.hist.commits e.destVar = buf := by
  cases hm with
  | lockValid j e' hpc' he' hv =>
      cases hpc
      cases he.symm.trans he'
      exact (hc.unlocked ha hl (hl.not_holds_of_valid ha hv)).1.symm
  | goto pc' hin hout =>
      obtain rfl : pc' = .lockCas i buf := hpc
      rcases hout with h | ⟨_, h⟩ | h | ⟨h, _⟩ <;> cases h
  | reclaimNothing h | waitMore _ _ _ _ _ h =>
      rw [hpc] at h
      cases h
  | success sync =>
      have := reclaim_outside cfg ((s.threads t).setTxState .none).clearReadWriteSets.clearFailCallbacks sync
      rw [hpc] at this
      cases this
  | failureReadOnly exn => cases exn <;> cases hpc
  | failDone exn => cases exn <;> cases hpc
  | _ => cases hpc

/-- The commit begins with no var in both sets, and changes neither of them. -/
theorem AbortFacts.disjoint_step (h : AbortFacts s t (s.threads t)) (ht : Tidy cfg (s.threads t))
    (hm : Move cfg s.shared t (s.threads t) s.opened req sh' th') (hin : th'.pc.inCommit = true) :
    ∀ v ∈ th'.td.readSet.data, ¬ th'.Writes v := by
  have out : th'.pc.inCommit = false → ∀ v ∈ th'.td.readSet.data, ¬ th'.Writes v := fun h => by
    rw [hin] at h
    cases h
  cases hm with
  | startCommit hpc =>
      intro v hv ⟨e, he, hev⟩
      exact ((mem_removeWritesFromReads ht.covers).mp hv).2 (List.mem_map.mpr ⟨e, he, hev⟩)
  | reclaimNothing | waitMore => exact h.disjoint hin
  | goto pc' hb hout =>
      refine out ?_
      rcases hout with h | ⟨_, rfl⟩ | rfl | ⟨rfl, _⟩
      · exact PC.inCommit_of_inBody (PC.inBody_of_isEntry h)
      all_goals rfl
  | allLocked i hpc | lockValid i e hpc | lock i e hpc | unlockLoad i last e hpc
  | unlock i last buf e hpc | validated i hpc | readValid i v hpc | readInvalid i hpc
  | store i e hpc | allStored i hpc | bump hpc | publish i syncEpoch e hpc =>
      exact h.disjoint (by rw [hpc]; rfl)
  | lockInvalid i hi hpc => exact h.disjoint (by rcases hpc with hpc | ⟨_, hpc⟩ <;> rw [hpc] <;> rfl)
  | success sync => exact out (Thread.reclaim_outside ..)
  | failureReadOnly exn => exact out (afterFailure_outside ..)
  | failDone exn => exact out (afterFailure_outside ..)
  | _ => exact out rfl

/-- **In every state reached every thread may rely on its facts.** -/
theorem abortFacts_reach {ok : Request ν α → Prop} (hag : cfg.HashesAgree) (h : Sys.Reach cfg ok s) (t : ι) :
    AbortFacts s t (s.threads t) := by
  revert t
  refine h.induct (P := fun s => ∀ t, AbortFacts s t (s.threads t))
    (fun t => ⟨nofun, nofun, nofun⟩) ?_
  intro s t req sh' th' hr ih _ hm
  refine Sys.forall_after (P := fun u th => AbortFacts (s.after t sh' th') u th) ?_
    fun u hu => (ih u).other ((active_reach hr).version_le u) hu hm
  have hown := (ih t).own_step (active_reach hr) (commits_reach hr) hm
  exact {
    own := hown
    casAt := fun i buf e hpc he =>
      Or.inl (casAt_step (active_reach hr) (commits_reach hr) (locks_reach hr) hm hpc he)
    disjoint := (ih t).disjoint_step (tidy_reach hag hr t) hm }

/-! ## 3. Who is in the way -/

/-- Another thread is in the way of thread `t` at `v`: it has locked the var, or it has committed it since
    the attempt read the clock. -/
def Sys.Conflict (s : Sys ι ν α) (t : ι) (v : ν) : Prop :=
  (∃ u, u ≠ t ∧ (s.threads u).Holds v) ∨
    ∃ c ∈ s.shared.hist.commits, c.tid ≠ t ∧ c.Writes v ∧ (s.threads t).version < c.version

omit [DecidableEq ι] in
/-- A version above the attempt's is one another thread committed. -/
theorem AbortFacts.conflict_of_latest (h : AbortFacts s t (s.threads t))
    (hp : (s.threads t).pc.phase = .attempt) {v : ν}
    (hlt : (s.threads t).version < latestVersion s.shared.hist.commits v) : s.Conflict t v := by
  cases hl : latest s.shared.hist.commits v with
  | none =>
      rw [latestVersion, hl] at hlt
      exact absurd hlt (Nat.not_lt_zero _)
  | some cw =>
      obtain ⟨c, w⟩ := cw
      rw [latestVersion_of_some hl] at hlt
      obtain ⟨hc, hw⟩ := WriteLog.mem_of_latest hl
      exact Or.inr ⟨c, hc, fun htid => Nat.not_le_of_lt hlt (h.own hp c hc htid),
        WriteLog.writes_of_put hw, hlt⟩

omit [DecidableEq ι] in
/-- The var that is checked is not one the thread holds. -/
theorem Thread.Checks.not_holds {th : Thread ι ν α} {v : ν} (h : AbortFacts s t th) (ht : Tidy cfg th)
    (hc : th.Checks v) : ¬ th.Holds v := by
  rintro ⟨e, he, hev⟩
  -- the entry at `i` is not among those in front of it
  have front : ∀ {i : Nat}, e ∈ th.entries.take i →
      (∃ e', th.td.writeSet.entries[i]? = some e' ∧ e'.destVar = v) → False := by
    rintro i hi ⟨e', he', hv⟩
    obtain ⟨j, hj⟩ := List.mem_iff_getElem?.mp hi
    rw [List.getElem?_take] at hj
    split at hj
    · exact absurd (eq_of_destVar_eq ht.nodup hj he' (hev.trans hv.symm)) (Nat.ne_of_lt ‹_›)
    · cases hj
  unfold Thread.held at he
  unfold Thread.Checks at hc
  split at he
  · rename_i i hpc
    rw [hpc] at hc
    exact front he hc
  · rename_i i buf hpc
    rw [hpc] at hc
    exact front he hc
  · rename_i hpc
    rw [hpc] at hc
    exact hc
  · rename_i hpc
    rw [hpc] at hc
    exact hc
  · rename_i i hpc
    rw [hpc] at hc
    exact h.disjoint (by rw [hpc]; rfl) v (List.mem_of_getElem? hc) ⟨e, he, hev⟩
  all_goals
    first
    | cases he
    | rename_i hpc
      rw [hpc] at hc
      exact hc

omit [DecidableEq ι] [DecidableEq ν] in
theorem PC.phase_of_mayAbort {pc : PC ι ν α} (h : pc.mayAbort = true) : pc.phase = .attempt := by
  cases pc <;> first | rfl | cases h

omit [DecidableEq ι] in
/-- A test on a var the thread does not hold fails: then another thread is in the way. -/
theorem AbortFacts.conflict (h : AbortFacts s t (s.threads t)) (ha : Active cfg s) (hc : Commits cfg s)
    (hl : Locks s) (hp : (s.threads t).pc.phase = .attempt) {v : ν} (hn : ¬ (s.threads t).Holds v)
    (hf : s.shared.loadVersion v = latestVersion s.shared.hist.commits v →
      (s.threads t).version < latestVersion s.shared.hist.commits v) : s.Conflict t v := by
  by_cases hfree : ∀ u, ¬ (s.threads u).Holds v
  · exact h.conflict_of_latest hp (hf (hc.unlocked ha hl hfree).1)
  · obtain ⟨u, hu⟩ := not_forall_not.mp hfree
    exact Or.inl ⟨u, fun e => hn (e ▸ hu), hu⟩

/-- A step that gives the attempt up, with who is in its way. -/
theorem abort_conflict {ok : Request ν α → Prop} (hag : cfg.HashesAgree) (h : Sys.Reach cfg ok s)
    (hs : threadStep cfg s.shared t (s.threads t) s.opened req = some (sh', th'))
    (hb : (s.threads t).pc.isAborting = false) (hab : th'.pc.isAborting = true) :
    ((s.threads t).pc = .call ∧ ((s.threads t).body (s.threads t).log = .retry ∨
        (s.threads t).body (s.threads t).log = .throw)) ∨
      ∃ v, (s.threads t).Checks v ∧ s.Conflict t v := by
  have hp := PC.phase_of_mayAbort ((threadStep_move hs).mayAbort hb hab)
  have hfacts := abortFacts_reach hag h t
  have conflict : ∀ {v : ν}, (s.threads t).Checks v →
      (s.shared.loadVersion v = latestVersion s.shared.hist.commits v →
        (s.threads t).version < latestVersion s.shared.hist.commits v) → s.Conflict t v := fun hc =>
    hfacts.conflict (active_reach h) (commits_reach h) (locks_reach h) hp
      (hc.not_holds hfacts (tidy_reach hag h t))
  rcases abort_cause hs hb hab with ⟨hpc, hop⟩ | ⟨v, hc, hv⟩ | ⟨i, buf, e, hpc, he, hne⟩
  · exact Or.inl ⟨hpc, hop⟩
  · exact Or.inr ⟨v, hc, conflict hc fun heq => heq ▸ hv⟩
  · have hc : (s.threads t).Checks e.destVar := by
      rw [Thread.Checks, hpc]
      exact ⟨e, he, rfl⟩
    refine Or.inr ⟨e.destVar, hc, conflict hc fun heq => ?_⟩
    exact (hfacts.casAt i buf e hpc he).resolve_left fun h => hne (heq.trans h)

/-- **No attempt is given up without a reason.** In every reachable state, a step by which a thread gives
    its attempt up is a `retry` or an exception of the body, or a check of a var that another thread has
    locked or has committed since the attempt read the clock: the tests fail neither on the thread's own
    locks nor on its own commits, and the compare-exchange only on a real change. -/
theorem abort_justified {ok : Request ν α → Prop} {s' : Sys ι ν α} (hag : cfg.HashesAgree)
    (h : Sys.Reach cfg ok s) (hs : s.step cfg t req = some s')
    (hb : (s.threads t).pc.isAborting = false) (hab : (s'.threads t).pc.isAborting = true) :
    ((s.threads t).pc = .call ∧ ((s.threads t).body (s.threads t).log = .retry ∨
        (s.threads t).body (s.threads t).log = .throw)) ∨
      ∃ v, (s.threads t).Checks v ∧ s.Conflict t v := by
  obtain ⟨⟨sh', th'⟩, hst, hs'⟩ := Option.map_eq_some_iff.mp hs
  have hth : s'.threads t = th' := by rw [← hs']; exact Function.update_self ..
  exact abort_conflict hag h hst hb (hth ▸ hab)

end Facts

/-- A read_only call begins; another thread sets the var it is about to get. -/
def overtaken : List (Bool × Option (Request Bool Nat)) :=
  (true, some (.readOnly fun log => if log.length = 0 then .get true else .ret)) ::
    List.replicate 4 (true, none) ++
  (false, some (.readWrite fun log => if log.length = 0 then .set true 7 else .ret)) ::
    List.replicate 17 (false, none)

theorem overtaken_isSome : (Sys.run smallConfig overtaken (.init smallConfig)).isSome = true := by decide

theorem overtaken_aborts :
    (((Sys.run smallConfig overtaken (.init smallConfig)).get overtaken_isSome).step smallConfig true none).map
      (fun s' => (s'.threads true).pc.isAborting) = some true := by decide

/-- The get gives its attempt up because of that commit. -/
theorem abort_justified_overtaken :
    ∃ v, (((Sys.run smallConfig overtaken (.init smallConfig)).get overtaken_isSome).threads true).Checks v ∧
      ((Sys.run smallConfig overtaken (.init smallConfig)).get overtaken_isSome).Conflict true v := by
  have hr : Sys.Reach smallConfig (fun _ => True)
      ((Sys.run smallConfig overtaken (.init smallConfig)).get overtaken_isSome) :=
    .of_run (fun _ _ _ _ => trivial) (Option.some_get overtaken_isSome).symm
  have hag : smallConfig.HashesAgree := fun v _ => by cases v <;> rfl
  obtain ⟨s', hs, ha⟩ := Option.map_eq_some_iff.mp overtaken_aborts
  rcases abort_justified hag hr hs (by decide) ha with ⟨hpc, _⟩ | h
  · cases hpc
  · exact h

end LockfreeStm
