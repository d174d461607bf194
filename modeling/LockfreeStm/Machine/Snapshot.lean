/-
  File:      LockfreeStm/Machine/Snapshot.lean
  Subject:   OPACITY: every get of every attempt, committed, aborted or running, returns a value of
             the one snapshot the attempt's version names.

  * `IsSnapshot` -- the value the committed transaction with the greatest version of at most `rv`
    installed, or the initial one.
  * `Snapshot`, `snapshot_reach` -- the invariant: a storage a get has loaded is still the var's own
    unless the var has been overwritten, or has a version above the attempt's.
  * `reads_snapshot` -- **the main result**.

  A get loads the storage first and the version once, afterwards. What makes that enough is the order
  of a commit's steps: lock, store, bump, publish. A storage stored too early is under a lock; once
  the lock is gone the version is above the reader's.
-/
import LockfreeStm.Machine.Commits
import LockfreeStm.Machine.Heap

namespace LockfreeStm

variable {ι ν α : Type} [DecidableEq ι] [DecidableEq ν]

/-! ## 1. The snapshot of a version -/

/-- `x` is the value of `v` in the snapshot `rv`. -/
def IsSnapshot (cfg : Config ι ν α) (commits : List (Commit ι ν α)) (rv : Epoch) (v : ν) (x : α) :
    Prop :=
  (∃ c ∈ commits, ∃ w ∈ c.writes, w.var = v ∧ w.value = x ∧ c.version ≤ rv ∧
    ∀ c' ∈ commits, (∃ w' ∈ c'.writes, w'.var = v) → c'.version ≤ rv →
      c' = c ∨ c'.version < c.version) ∨
  ((∀ c ∈ commits, (∃ w ∈ c.writes, w.var = v) → rv < c.version) ∧ x = cfg.initValue v)

/-- The commits of the snapshot `rv`. -/
def upTo (rv : Epoch) (cs : List (Commit ι ν α)) : List (Commit ι ν α) :=
  cs.filter fun c => decide (c.version ≤ rv)

section Value

variable {cfg : Config ι ν α} {cs : List (Commit ι ν α)} {rv : Epoch} {v : ν}

omit [DecidableEq ι] in
/-- The latest commit that wrote `v` belongs to the snapshot: then it is the snapshot's latest. -/
theorem latest_upTo (h : latestVersion cs v ≤ rv) : latest (upTo rv cs) v = latest cs v :=
  WriteLog.latest_filter fun _ _ hl => decide_eq_true (latestVersion_of_some hl ▸ h)

omit [DecidableEq ι] in
/-- A commit above the snapshot, or one that wrote nothing, changes nothing in it. -/
theorem latest_upTo_cons {c : Commit ι ν α} (h : c.version ≤ rv → c.writes = []) :
    latest (upTo rv (c :: cs)) v = latest (upTo rv cs) v :=
  WriteLog.latest_filter_cons fun hc => Commit.put_of_empty (h (of_decide_eq_true hc)) v

omit [DecidableEq ι] in
/-- **In a sorted history the latest value of the snapshot is its value.** -/
theorem isSnapshot_latestValue
    (hs : cs.Pairwise fun newer older => newer.writes ≠ [] → older.version < newer.version) :
    IsSnapshot cfg cs rv v (latestValue cfg (upTo rv cs) v) := by
  cases hl : latest (upTo rv cs) v with
  | none =>
      refine Or.inr ⟨fun c hc hw => ?_, latestValue_of_none hl⟩
      have hn := WriteLog.latest_eq_none.mp hl c
      rw [upTo, List.mem_filter, decide_eq_true_iff] at hn
      exact Nat.lt_of_not_le fun hle => hn ⟨hc, hle⟩ (Commit.writes_iff.mpr hw)
  | some cw =>
      obtain ⟨c, w⟩ := cw
      obtain ⟨hmem, hput⟩ := WriteLog.mem_of_latest hl
      obtain ⟨hw, hv⟩ := Commit.put_mem hput
      rw [upTo, List.mem_filter, decide_eq_true_iff] at hmem
      refine Or.inl ⟨c, hmem.1, w, hw, hv, (latestValue_of_some hl).symm, hmem.2,
        fun c' hc' hw' hle => ?_⟩
      refine WriteLog.latest_max (r := fun older newer => older.version < newer.version)
        ((hs.filter _).imp fun h hn _ => h ?_) hl
        (List.mem_filter.mpr ⟨hc', decide_eq_true hle⟩) (Commit.writes_iff.mpr hw')
      obtain ⟨w', hw', _⟩ := Commit.writes_iff.mp hn
      exact List.ne_nil_of_mem hw'

end Value

/-! ## 2. The invariant -/

/-- What the gets have found. -/
structure Snapshot (cfg : Config ι ν α) (s : Sys ι ν α) : Prop where
  reading : ∀ t path v st, (s.threads t).pc = .readVersion path v st →
    (∀ u, ¬ (s.threads u).PreStored v) →
    latestVersion s.shared.hist.commits v ≤ (s.threads t).version → s.shared.loadStorage v = st
  events : ∀ ev ∈ s.shared.hist.reads, ev.rv ≤ s.shared.clock ∧
    ev.value = latestValue cfg (upTo ev.rv s.shared.hist.commits) ev.var
  attempts : ∀ ev ∈ s.shared.hist.reads, ev.attempt ≤ (s.threads ev.tid).att.number ∧
    (ev.attempt = (s.threads ev.tid).att.number → ev.rv = (s.threads ev.tid).version)
  oneVersion : ∀ ev ∈ s.shared.hist.reads, ∀ ev' ∈ s.shared.hist.reads, ev'.tid = ev.tid →
    ev'.attempt = ev.attempt → ev'.rv = ev.rv

/-! ## 3. The step -/

section Move

variable {cfg : Config ι ν α} {sh sh' : Shared ι ν α} {t : ι} {th th' : Thread ι ν α}
  {opened : ι → Option Nat} {req : Option (Request ν α)}

/-- A get that returns adds its event; nothing else does. -/
theorem Move.reads (h : Move cfg sh t th opened req sh' th') :
    sh'.hist.reads = sh.hist.reads ∨
      ∃ path v st, th.pc = .readVersion path v st ∧ sh.loadVersion v ≤ th.version ∧
        SameVars sh sh' ∧ sh'.hist.reads =
          ⟨t, th.att.number, th.version, v, st.load sh.cells⟩ :: sh.hist.reads := by
  cases h with
  | readReturns path v st hpc hv =>
      unfold Shared.noteRead
      split
      · exact Or.inl rfl
      · exact Or.inr ⟨path, v, st, hpc, hv, ⟨rfl, rfl, rfl⟩, rfl⟩
  | storePending v x pending => cases pending <;> exact Or.inl rfl
  | failCallback exn left cb => cases cb.action <;> exact Or.inl rfl
  | succCallback mode epoch minEpoch i ch cb => cases cb.action <;> exact Or.inl rfl
  | _ => exact Or.inl rfl

/-- The version is checked after the storage has been loaded. -/
theorem Move.readVersion {path : ReadPath} {v : ν} {st : VarStorage α}
    (h : Move cfg sh t th opened req sh' th') (hpc' : th'.pc = .readVersion path v st) :
    sh' = sh ∧ st = sh.loadStorage v := by
  cases h with
  | reclaimNothing hpc => rw [hpc] at hpc'; cases hpc'
  | waitMore mode epoch result u nodes hpc => rw [hpc] at hpc'; cases hpc'
  | goto pc' hin hout =>
      obtain rfl := hpc'
      rcases hout with h | ⟨_, h⟩ | h | ⟨h, _⟩ <;> cases h
  | readStorage path v hpc => cases hpc'; exact ⟨rfl, rfl⟩
  | success sync =>
      have hn := reclaim_not_open cfg
        ((th.setTxState .none).clearReadWriteSets.clearFailCallbacks) sync
      rw [hpc'] at hn
      cases hn
  | failureReadOnly exn =>
      have hn := afterFailure_not_open th exn
      rw [hpc'] at hn
      cases hn
  | failDone exn =>
      have hn := afterFailure_not_open th.clearFailCallbacks exn
      rw [hpc'] at hn
      cases hn
  | _ => cases hpc'

end Move

section Step

variable {cfg : Config ι ν α} {s : Sys ι ν α} {t : ι} {req : Option (Request ν α)}
  {sh' : Shared ι ν α} {th' : Thread ι ν α}

omit [DecidableEq ι] in
/-- A var that a thread has not stored after its step: the step was a clock bump with it, or the var is
    as it was before. -/
theorem Effect.unstored {sh : Shared ι ν α} {th : Thread ι ν α} {opened : ι → Option Nat}
    (hm : Effect sh t th opened sh' th') (v : ν) (hn : ¬ th'.PreStored v) :
    sh.clock < latestVersion sh'.hist.commits v ∨
      ¬ th.PreStored v ∧ sh'.loadStorage v = sh.loadStorage v ∧
        latest sh'.hist.commits v = latest sh.hist.commits v := by
  have nil : th.preStored = [] → ¬ th.PreStored v := by
    rintro h ⟨e, he, _⟩
    rw [h] at he
    cases he
  cases hm with
  | quiet hs hv =>
      exact Or.inr ⟨fun h => hn ((hv.stored v).mpr h), by rw [Shared.loadStorage, hs.vars]; rfl,
        by rw [hs.commits]⟩
  | commitEmpty hpc he =>
      exact Or.inr ⟨nil (by simp [Thread.preStored, hpc]), rfl,
        WriteLog.latest_cons_none (Commit.put_of_empty (by simp [commitRecord, he]) v)⟩
  | lock i e hpc he =>
      exact Or.inr ⟨nil (by simp [Thread.preStored, hpc]), Shared.loadStorage_storeVersion .., rfl⟩
  | unlock i last buf e hpc he =>
      exact Or.inr ⟨nil (by simp [Thread.preStored, hpc]), Shared.loadStorage_storeVersion .., rfl⟩
  | store i e hpc he =>
      have hpre := preStored_store hpc he
      refine Or.inr ⟨fun hv => hn (hv.imp fun e' he' => ⟨?_, he'.2⟩), ?_, rfl⟩
      · rw [hpre]
        exact List.mem_append_left _ he'.1
      · rw [Shared.loadStorage_storeStorage, if_neg]
        rintro rfl
        exact hn ⟨e, by rw [hpre]; simp, rfl⟩
  | bump hpc hc =>
      by_cases hv : ∃ e ∈ th.entries, e.destVar = v
      · obtain ⟨w, hw⟩ := commitRecord_put_of_mem { sh with clock := sh.clock + bumpSize } t
          (sh.clock + bumpSize) th.att.point opened hv
        refine Or.inl (lt_of_lt_of_eq (Nat.lt_succ_self sh.clock) ?_)
        exact (latestVersion_of_some (WriteLog.latest_cons_some hw)).symm
      · refine Or.inr ⟨fun hp => hv ?_, rfl, WriteLog.latest_cons_none
          (WriteLog.not_writes.mp fun hw => hv (commitRecord_writes.mp hw))⟩
        rwa [Thread.PreStored, Thread.preStored, hpc] at hp
  | publish i sync e hpc he =>
      exact Or.inr ⟨nil (by simp [Thread.preStored, hpc]), Shared.loadStorage_storeVersion .., rfl⟩

/-- Between two states a var keeps its storage and its latest version, unless a running commit stores
    it or a commit bumps the clock with it. -/
theorem unstored_step (hm : Effect s.shared t (s.threads t) s.opened sh' th') (v : ν)
    (hn : ∀ u, ¬ ((s.after t sh' th').threads u).PreStored v) :
    s.shared.clock < latestVersion sh'.hist.commits v ∨
      (∀ u, ¬ (s.threads u).PreStored v) ∧ sh'.loadStorage v = s.shared.loadStorage v ∧
        latestVersion sh'.hist.commits v = latestVersion s.shared.hist.commits v := by
  have ht := hn t
  rw [Sys.threads_after_self] at ht
  refine (hm.unstored v ht).imp_right fun ⟨h1, h2, h3⟩ => ⟨fun u => ?_, h2, latestVersion_of_eq h3⟩
  by_cases hu : u = t
  · exact hu ▸ h1
  · have := hn u
    rwa [Sys.threads_after_ne s hu] at this

/-- What a get has loaded stays the var's storage while the version check can still succeed. -/
theorem Snapshot.reading_step (h : Snapshot cfg s) (ha : Active cfg s)
    (hm : Move cfg s.shared t (s.threads t) s.opened req sh' th') (u : ι) (path : ReadPath) (v : ν)
    (st : VarStorage α) (hpc : ((s.after t sh' th').threads u).pc = .readVersion path v st)
    (hn : ∀ w, ¬ ((s.after t sh' th').threads w).PreStored v)
    (hle : latestVersion sh'.hist.commits v ≤ ((s.after t sh' th').threads u).version) :
    sh'.loadStorage v = st := by
  by_cases hu : u = t
  · subst hu
    rw [Sys.threads_after_self] at hpc
    obtain ⟨rfl, rfl⟩ := hm.readVersion hpc
    rfl
  · rw [Sys.threads_after_ne s hu] at hpc hle
    rcases unstored_step hm.effect v hn with hlt | ⟨hn', hst, hver⟩
    · exact absurd (hlt.trans_le hle) (Nat.not_lt_of_le (ha.version_le u))
    · rw [hst]
      exact h.reading u path v st hpc hn' (hver ▸ hle)

omit [DecidableEq ι] in
/-- The snapshot of a version the clock has reached does not change any more. -/
theorem latest_upTo_step (hm : Effect s.shared t (s.threads t) s.opened sh' th') {rv : Epoch}
    (hrv : rv ≤ s.shared.clock) (v : ν) :
    latest (upTo rv sh'.hist.commits) v = latest (upTo rv s.shared.hist.commits) v := by
  cases hm with
  | quiet hs => rw [hs.commits]
  | commitEmpty hpc he => exact latest_upTo_cons fun _ => by simp [commitRecord, he]
  | bump hpc hc =>
      exact latest_upTo_cons fun hle => absurd (hle.trans hrv) (Nat.not_succ_le_self _)
  | _ => rfl

omit [DecidableEq ι] [DecidableEq ν] in
/-- The initial objects are still what they were. -/
theorem load_initStorage (hh : Heap cfg s) (v : ν) :
    (cfg.initStorage v).load s.shared.cells = cfg.initValue v := by
  unfold Config.initValue Config.initStorage
  split
  · exact hh.initial _ (cfg.initPtr_lt v)
  · rfl

omit [DecidableEq ι] in
/-- **A get that passes its version check returns a value of the attempt's snapshot.** -/
theorem Snapshot.value (h : Snapshot cfg s) (hc : Commits cfg s) (hh : Heap cfg s)
    (ha : Active cfg s) (hl : Locks s) {path : ReadPath} {v : ν} {st : VarStorage α}
    (hpc : (s.threads t).pc = .readVersion path v st)
    (hv : s.shared.loadVersion v ≤ (s.threads t).version) :
    latestVersion s.shared.hist.commits v ≤ (s.threads t).version ∧
      st.load s.shared.cells = latestValue cfg s.shared.hist.commits v := by
  have hfree := hl.not_holds_of_valid ha hv
  obtain ⟨hver, hst⟩ := hc.unlocked ha hl hfree
  have hle : latestVersion s.shared.hist.commits v ≤ (s.threads t).version := hver ▸ hv
  refine ⟨hle, ?_⟩
  rw [← h.reading t path v st hpc (fun u hu => hfree u hu.holds) hle, hst]
  cases hlat : latest s.shared.hist.commits v with
  | none =>
      rw [latestStorage_of_none hlat, latestValue_of_none hlat]
      exact load_initStorage hh v
  | some cw =>
      obtain ⟨c, w⟩ := cw
      obtain ⟨hmem, hput⟩ := WriteLog.mem_of_latest hlat
      rw [latestStorage_of_some hlat, latestValue_of_some hlat]
      exact hh.value c hmem w (Commit.put_mem hput).1

/-- **A step keeps what the gets have found right.** -/
theorem Snapshot.step (h : Snapshot cfg s) (hc : Commits cfg s) (hh : Heap cfg s)
    (ha : Active cfg s) (hl : Locks s)
    (hm : Move cfg s.shared t (s.threads t) s.opened req sh' th') :
    Snapshot cfg (s.after t sh' th') := by
  have hold : ∀ ev ∈ s.shared.hist.reads, ev.rv ≤ sh'.clock ∧
      ev.value = latestValue cfg (upTo ev.rv sh'.hist.commits) ev.var := fun ev hev =>
    ⟨(h.events ev hev).1.trans hm.clock_le, (h.events ev hev).2.trans
      (latestValue_of_eq (latest_upTo_step hm.effect (h.events ev hev).1 _)).symm⟩
  have hatt : ∀ ev ∈ s.shared.hist.reads,
      ev.attempt ≤ ((s.after t sh' th').threads ev.tid).att.number ∧
        (ev.attempt = ((s.after t sh' th').threads ev.tid).att.number →
          ev.rv = ((s.after t sh' th').threads ev.tid).version) := by
    intro ev hev
    obtain ⟨h1, h2⟩ := h.attempts ev hev
    by_cases hu : ev.tid = t
    · rw [hu] at h1 h2 ⊢
      rw [Sys.threads_after_self]
      rcases hm.number with ⟨hpc, e⟩ | ⟨_, e⟩
      · rw [e, ha.version_eq hm hpc]
        exact ⟨h1, h2⟩
      · rw [e]
        exact ⟨Nat.le_succ_of_le h1, fun e' => absurd (e' ▸ h1) (Nat.not_succ_le_self _)⟩
    · rw [Sys.threads_after_ne s hu]
      exact ⟨h1, h2⟩
  rcases hm.reads with e | ⟨path, v, st, hpc, hv, hs, e⟩
  · refine ⟨h.reading_step ha hm, ?_, ?_, ?_⟩
    all_goals rw [Sys.shared_after, Shared.reads_atTime, e]
    · exact hold
    · exact hatt
    · exact h.oneVersion
  · have hng : (s.threads t).pc ≠ .getClock := by rw [hpc]; exact nofun
    have hnum : th'.att.number = (s.threads t).att.number :=
      (hm.number.resolve_right fun h => hng h.1).2
    refine ⟨h.reading_step ha hm, ?_, ?_, ?_⟩
    all_goals rw [Sys.shared_after, Shared.reads_atTime, e]
    · refine List.forall_mem_cons.mpr ⟨⟨hs.clock ▸ ha.version_le t, ?_⟩, hold⟩
      obtain ⟨hle, hval⟩ := h.value hc hh ha hl hpc hv
      rw [Shared.commits_atTime, hs.commits]
      exact hval.trans (latestValue_of_eq (latest_upTo hle)).symm
    · refine List.forall_mem_cons.mpr ⟨?_, hatt⟩
      rw [Sys.threads_after_self]
      exact ⟨hnum.ge, fun _ => (ha.version_eq hm hng).symm⟩
    · intro ev hev ev' hev' htid hat
      rcases List.mem_cons.mp hev with rfl | hev <;> rcases List.mem_cons.mp hev' with rfl | hev'
      · rfl
      · have := (h.attempts ev' hev').2
        rw [htid] at this
        exact this hat
      · have := (h.attempts ev hev).2
        rw [← htid] at this
        exact (this hat.symm).symm
      · exact h.oneVersion ev hev ev' hev' htid hat

end Step

/-- **In every state reached what the gets have found is right.** -/
theorem snapshot_reach {cfg : Config ι ν α} {ok : Request ν α → Prop} {s : Sys ι ν α}
    (h : Sys.Reach cfg ok s) : Snapshot cfg s := by
  refine h.induct ?_ fun hr ih _ hm =>
    ih.step (commits_reach hr) (heap_reach hr) (active_reach hr) (locks_reach hr) hm
  exact ⟨fun _ _ _ _ h => by (cases h), fun _ h => absurd h List.not_mem_nil,
    fun _ h => absurd h List.not_mem_nil, fun _ h => absurd h List.not_mem_nil⟩

/-- **Opacity.** Every value a get or an untracked get returned for a var its attempt had not written
    is that var's value in the snapshot of the attempt's version, and an attempt has one version. -/
theorem reads_snapshot {cfg : Config ι ν α} {ok : Request ν α → Prop} {s : Sys ι ν α}
    (h : Sys.Reach cfg ok s) : ∀ ev ∈ s.shared.hist.reads,
      IsSnapshot cfg s.shared.hist.commits ev.rv ev.var ev.value ∧
      ∀ ev' ∈ s.shared.hist.reads, ev'.tid = ev.tid → ev'.attempt = ev.attempt → ev'.rv = ev.rv := by
  intro ev hev
  refine ⟨?_, (snapshot_reach h).oneVersion ev hev⟩
  rw [((snapshot_reach h).events ev hev).2]
  exact isSnapshot_latestValue (commits_reach h).sorted

/-- One thread sets a var and commits, then the other one gets it. -/
def setThenGet : List (Bool × Option (Request Bool Nat)) :=
  (false, some (.readWrite fun log => if log.length = 0 then .set true 7 else .ret)) ::
    List.replicate 17 (false, none) ++
  (true, some (.readOnly fun log => if log.length = 0 then .get true else .ret)) ::
    List.replicate 5 (true, none)

theorem setThenGet_isSome : ((Sys.run smallConfig setThenGet (.init smallConfig))).isSome = true := by
  decide

theorem reads_snapshot_setThenGet :
    let s := (Sys.run smallConfig setThenGet (.init smallConfig)).get setThenGet_isSome
    s.shared.hist.reads.map (fun ev => (ev.tid, ev.rv, ev.var, ev.value)) = [(true, 1, true, 7)] ∧
      ∀ ev ∈ s.shared.hist.reads,
        IsSnapshot smallConfig s.shared.hist.commits ev.rv ev.var ev.value ∧
        ∀ ev' ∈ s.shared.hist.reads, ev'.tid = ev.tid → ev'.attempt = ev.attempt → ev'.rv = ev.rv := by
  have hr : Sys.Reach smallConfig (fun _ => True)
      ((Sys.run smallConfig setThenGet (.init smallConfig)).get setThenGet_isSome) :=
    .of_run (fun _ _ _ _ => trivial) (Option.some_get setThenGet_isSome).symm
  exact ⟨by decide, reads_snapshot hr⟩

end LockfreeStm
