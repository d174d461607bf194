/-
  File:      LockfreeStm/Machine/Serial.lean
  Subject:   STRICT SERIALIZABILITY of read_write transactions that get and set.

  A transaction takes effect when it holds every lock of its write set, one with an empty write set
  when it reads the clock; `Commit.point` is that time. Versions do not give a serial order: reads
  are validated before the clock is bumped, so a transaction may read what another one with a lower
  version overwrites. The points do.

  * `Running`, `Serial`, `serial_reach` -- the invariant over all mid-commit states: what a running
    attempt has read was current when it began, and nobody who took effect since then and will bump
    the clock later writes it.
  * `strict_serializability` -- **the main result**.
-/
import LockfreeStm.Machine.Bodies
import LockfreeStm.Machine.Snapshot
import Mathlib.Data.List.Sort

namespace LockfreeStm

variable {ι ν α : Type}

/-! ## 1. The invariant -/

/-- The places where a thread holds all its locks and has not bumped the clock. -/
def PC.isSealed : PC ι ν α → Bool
  | .validateReads _ | .doWrites _ | .bumpClock => true
  | _ => false

namespace Thread

/-- The var is in the write set. -/
def Writes (th : Thread ι ν α) (v : ν) : Prop := ∃ e ∈ th.entries, e.destVar = v

/-- The vars of the read set that `validate_reads` has passed. -/
def validated (th : Thread ι ν α) : List ν :=
  match th.pc with
  | .validateReads i => th.td.readSet.data.take i
  | .doWrites _ | .bumpClock => th.td.readSet.data
  | _ => []

/-- A sealed thread holds what it writes. -/
theorem holds_of_sealed {th : Thread ι ν α} (hs : th.pc.isSealed = true) {v : ν} (hw : th.Writes v) :
    th.Holds v := by
  obtain ⟨e, he, hv⟩ := hw
  refine ⟨e, ?_, hv⟩
  unfold held
  cases hpc : th.pc <;> rw [hpc] at hs <;> first | exact he | cases hs

theorem sealed_of_validated {th : Thread ι ν α} {v : ν} (h : v ∈ th.validated) :
    th.pc.isSealed = true := by
  unfold validated at h
  cases hpc : th.pc <;> rw [hpc] at h <;> first | rfl | cases h

end Thread

variable [DecidableEq ι] [DecidableEq ν]

/-- The commits that took effect before `time`. -/
def before (time : Nat) (cs : List (Commit ι ν α)) : List (Commit ι ν α) :=
  cs.filter fun c => decide (c.point < time)

/-- The commit writes the var. -/
abbrev Commit.Writes (c : Commit ι ν α) (v : ν) : Prop := WriteLog.Writes Commit.put c v

/-- What holds of a running attempt of thread `t`. -/
structure Running (cfg : Config ι ν α) (s : Sys ι ν α) (t : ι) (th : Thread ι ν α) : Prop where
  start_lt : th.att.start < s.shared.hist.now
  /-- the commits the attempt may see took effect before it began -/
  visible : ∀ c ∈ s.shared.hist.commits, c.writes ≠ [] → c.version ≤ th.version →
    c.point < th.att.start
  distinct : ∀ c ∈ s.shared.hist.commits, c.writes ≠ [] → c.point ≠ th.att.start
  distinct_sealed : ∀ u, u ≠ t → (s.threads u).pc.isSealed = true →
    (s.threads u).att.point ≠ th.att.start
  reads : ∀ p ∈ th.att.reads,
    p.2 = latestValue cfg (before th.att.start s.shared.hist.commits) p.1
  /-- nobody who took effect before the attempt began and has not bumped the clock writes a var it
      has read -/
  unsealed : ∀ u, u ≠ t → (s.threads u).pc.isSealed = true →
    (s.threads u).att.point ≤ th.att.start → ∀ p ∈ th.att.reads, ¬ (s.threads u).Writes p.1
  covered : ∀ p ∈ th.att.reads, p.1 ∈ th.td.readSet.data ∨ th.Writes p.1
  point : th.pc.isSealed = true → th.att.start < th.att.point ∧ th.att.point < s.shared.hist.now
  validated : ∀ v ∈ th.validated,
    (∀ c ∈ s.shared.hist.commits, c.Writes v → c.point < th.att.start ∨ th.att.point < c.point) ∧
    ∀ u, u ≠ t → (s.threads u).pc.isSealed = true → (s.threads u).att.point ≤ th.att.point →
      ¬ (s.threads u).Writes v

/-- What the commits and the running attempts satisfy. -/
structure Serial (cfg : Config ι ν α) (s : Sys ι ν α) : Prop where
  stamped : Serialization.Stamped Commit.put Written.value Commit.reads Commit.start Commit.point
    cfg.initValue s.shared.hist.commits
  point_lt : ∀ c ∈ s.shared.hist.commits, c.point < s.shared.hist.now
  /-- nobody who took effect before a commit and has not bumped the clock writes a var it read -/
  unsealed : ∀ c ∈ s.shared.hist.commits, ∀ u, (s.threads u).pc.isSealed = true →
    (s.threads u).att.point ≤ c.point → ∀ p ∈ c.reads, ¬ (s.threads u).Writes p.1
  running : ∀ t, (s.threads t).pc.phase = .attempt → Running cfg s t (s.threads t)

/-! ## 2. What a step does -/

section Move

variable {cfg : Config ι ν α} {sh sh' : Shared ι ν α} {t : ι} {th th' : Thread ι ν α}
  {opened : ι → Option Nat} {req : Option (Request ν α)}

/-- What the other threads see of a step: who is sealed, and what has committed. -/
inductive SealStep (sh : Shared ι ν α) (t : ι) (th : Thread ι ν α) (opened : ι → Option Nat)
    (sh' : Shared ι ν α) (th' : Thread ι ν α) : Prop where
  | keep (hc : sh'.hist.commits = sh.hist.commits)
      (hs : th'.pc.isSealed = true → th.pc.isSealed = true ∧ th'.att.point = th.att.point ∧
        th'.entries = th.entries)
  | allLocked (hc : sh'.hist.commits = sh.hist.commits) (hp : th'.att.point = sh.hist.now)
  | commitEmpty (hpc : th.pc = .tryCommit) (he : th.td.writeSet.entries = [])
      (hc : sh'.hist.commits = commitRecord sh t th 0 th.att.start opened :: sh.hist.commits)
      (hs : th'.pc.isSealed = false)
  | bump (hpc : th.pc = .bumpClock)
      (hc : sh'.hist.commits = commitRecord { sh with clock := sh.clock + bumpSize } t th
        (sh.clock + bumpSize) th.att.point opened :: sh.hist.commits)
      (hs : th'.pc.isSealed = false)

omit [DecidableEq ι] [DecidableEq ν] in
theorem PC.not_sealed_of_phase {pc : PC ι ν α} (h : pc.phase ≠ .attempt) : pc.isSealed = false := by
  cases pc <;> first | rfl | exact absurd rfl h

omit [DecidableEq ι] [DecidableEq ν] in
theorem PC.not_sealed_of_inBody {pc : PC ι ν α} (h : pc.inBody = true) : pc.isSealed = false := by
  cases pc <;> first | rfl | cases h

theorem Move.seal (h : Move cfg sh t th opened req sh' th') : SealStep sh t th opened sh' th' := by
  have out : ∀ {sh' : Shared ι ν α} {th' : Thread ι ν α}, sh'.hist.commits = sh.hist.commits →
      th'.pc.isSealed = false → SealStep sh t th opened sh' th' := by
    intro sh' th' hc hs
    refine .keep hc fun hs' => ?_
    rw [hs] at hs'
    cases hs'
  cases h with
  | reclaimNothing | waitMore => exact .keep rfl fun h => ⟨h, rfl, rfl⟩
  | goto pc' hin hout =>
      refine out rfl ?_
      rcases hout with h | ⟨_, rfl⟩ | rfl | ⟨rfl, _⟩
      · exact PC.not_sealed_of_inBody (PC.inBody_of_isEntry h)
      all_goals rfl
  | readReturns => exact out (Shared.sameVars_noteRead ..).commits rfl
  | storePending => exact out (Shared.sameVars_storeObject ..).commits rfl
  | commitEmpty hpc he => exact .commitEmpty hpc he rfl rfl
  | allLocked => exact .allLocked rfl rfl
  | validated i hpc | readValid i v hpc | store i e hpc | allStored i hpc =>
      exact .keep rfl fun _ => ⟨by rw [hpc]; rfl, rfl, rfl⟩
  | bump hpc => exact .bump hpc rfl rfl
  | success sync => exact out rfl (PC.not_sealed_of_phase (by rw [reclaim_outside]; exact nofun))
  | failureReadOnly exn => cases exn <;> exact out rfl rfl
  | failDone exn => cases exn <;> exact out rfl rfl
  | failCallback => exact out (Shared.sameVars_runAction ..).commits rfl
  | succCallback => exact out (Shared.sameVars_runAction ..).commits rfl
  | _ => exact out rfl rfl

/-- The attempt goes on: it has validated no new var and read no new value. -/
structure SameRun (th th' : Thread ι ν α) : Prop where
  start : th'.att.start = th.att.start
  point : th'.att.point = th.att.point
  reads : th'.att.reads = th.att.reads
  covered : ∀ v, v ∈ th.td.readSet.data ∨ th.Writes v → v ∈ th'.td.readSet.data ∨ th'.Writes v
  isSealed : th'.pc.isSealed = true → th.pc.isSealed = true
  validated : ∀ v ∈ th'.validated, v ∈ th.validated

/-- What a step does to the thread's own running attempt. -/
inductive RunStep (sh : Shared ι ν α) (th : Thread ι ν α) : Thread ι ν α → Prop where
  | fresh (hpc : th.pc = .getClock) : RunStep sh th (getClockStep sh th)
  | read (path : ReadPath) (v : ν) (st : VarStorage α) (hpc : th.pc = .readVersion path v st)
      (hv : sh.loadVersion v ≤ th.version) :
      RunStep sh th (((th.pushRead path v).noteRead v (st.load sh.cells)).opReturns
        (some (st.load sh.cells)))
  | allLocked (i : Nat) (hpc : th.pc = .lockLoad i) (he : th.td.writeSet.entries[i]? = none) :
      RunStep sh th { th with pc := .validateReads 0, att := { th.att with point := sh.hist.now } }
  | valid (i : Nat) (v : ν) (hpc : th.pc = .validateReads i)
      (he : th.td.readSet.data[i]? = some v) (hv : sh.loadVersion v ≤ th.version) :
      RunStep sh th (th.goto (.validateReads (i + 1)))
  | same {th' : Thread ι ν α} (h : SameRun th th') (hp : th.pc.phase = .attempt) : RunStep sh th th'

/-- `remove_writes_from_reads` drops only what is in the write set. -/
theorem mem_removeWritesFromReadsLoop {hash : ν → Hash} {ws : PodHashSet ν (VarStorage α)} {v : ν} :
    ∀ (n : Nat) (readSet : PodVector ν), v ∈ readSet.data →
      v ∈ (removeWritesFromReadsLoop hash ws n readSet).data ∨ (ws.find hash v).isSome = true
  | 0, _, hv => Or.inl hv
  | n + 1, readSet, hv => by
      unfold removeWritesFromReadsLoop
      split
      · exact mem_removeWritesFromReadsLoop n readSet hv
      · rename_i w hw
        split
        · rename_i hf
          by_cases hvw : w = v
          · exact Or.inr (hvw ▸ hf)
          · obtain ⟨hn, hget⟩ := List.getElem?_eq_some_iff.mp hw
            exact mem_removeWritesFromReadsLoop n _
              (PodVector.mem_unorderedErase hv hn (by rw [hget]; exact hvw))
        · exact mem_removeWritesFromReadsLoop n readSet hv

omit [DecidableEq ι] [DecidableEq ν] in
/-- A step from place to place. -/
theorem SameRun.of_goto {pc' : PC ι ν α} (h1 : pc'.isSealed = true → th.pc.isSealed = true)
    (h2 : ∀ v ∈ (th.goto pc').validated, v ∈ th.validated) : SameRun th (th.goto pc') :=
  ⟨rfl, rfl, rfl, fun _ => id, h1, h2⟩

omit [DecidableEq ι] [DecidableEq ν] in
/-- A step to a place where the attempt is not sealed that keeps what it has read. -/
theorem SameRun.of_unsealed (hn : th'.pc.isSealed = false) (h1 : th'.att.start = th.att.start)
    (h2 : th'.att.point = th.att.point) (h3 : th'.att.reads = th.att.reads)
    (h4 : ∀ v, v ∈ th.td.readSet.data ∨ th.Writes v → v ∈ th'.td.readSet.data ∨ th'.Writes v) :
    SameRun th th' := by
  refine ⟨h1, h2, h3, h4, fun hs => ?_, fun v hv => ?_⟩
  · rw [hn] at hs
    cases hs
  · have := Thread.sealed_of_validated hv
    rw [hn] at this
    cases this

/-- **What a step does to a running attempt.** -/
theorem Move.run (h : Move cfg sh t th opened req sh' th') (hp' : th'.pc.phase = .attempt) :
    RunStep sh th th' := by
  have out : ∀ {th' : Thread ι ν α}, th.pc.phase = .attempt → th'.pc.isSealed = false →
      th'.att.start = th.att.start → th'.att.point = th.att.point → th'.att.reads = th.att.reads →
      (∀ v, v ∈ th.td.readSet.data ∨ th.Writes v → v ∈ th'.td.readSet.data ∨ th'.Writes v) →
      RunStep sh th th' := fun hp hn h1 h2 h3 h4 => .same (.of_unsealed hn h1 h2 h3 h4) hp
  -- a step that appends entries
  have push : ∀ {th' : Thread ι ν α} {es : List (WriteSetValueType ν (VarStorage α))},
      th'.td.readSet = th.td.readSet → th'.td.writeSet.entries = th.td.writeSet.entries ++ es →
      ∀ v, v ∈ th.td.readSet.data ∨ th.Writes v → v ∈ th'.td.readSet.data ∨ th'.Writes v := by
    intro th' es hr he v
    rw [hr]
    exact Or.imp_right fun ⟨e, hm, hv⟩ => ⟨e, by rw [Thread.entries, he]; exact List.mem_append_left _ hm, hv⟩
  cases h with
  | getClock hpc => exact .fresh hpc
  | goto pc' hin hout =>
      refine out (PC.phase_of_inBody hin) ?_ rfl rfl rfl fun _ => id
      rcases hout with h | ⟨_, rfl⟩ | rfl | ⟨rfl, _⟩
      · exact PC.not_sealed_of_inBody (PC.inBody_of_isEntry h)
      all_goals rfl
  | readReturns path v st hpc hv => exact .read path v st hpc hv
  | allocFast v x hpc =>
      exact out (by rw [hpc]; rfl) rfl rfl rfl rfl (push rfl (PodHashSet.entries_uncheckedPushBack ..))
  | allocSlow v x cur hpc =>
      exact out (by rw [hpc]; rfl) rfl rfl rfl rfl (push rfl (PodHashSet.entries_pushBack ..))
  | atomicFast v s hpc =>
      exact out (by rw [hpc]; rfl) rfl rfl rfl rfl (push rfl (PodHashSet.entries_uncheckedPushBack ..))
  | atomicPush v s hpc =>
      exact out (by rcases hpc with ⟨hpc, _⟩ | hpc <;> rw [hpc] <;> rfl) rfl rfl rfl rfl
        (push rfl (PodHashSet.entries_pushBack ..))
  | atomicOverwrite v s i hpc =>
      refine out (by rcases hpc with ⟨hpc, _⟩ | hpc <;> rw [hpc] <;> rfl) rfl rfl rfl rfl fun w => ?_
      refine Or.imp_right fun ⟨e, hm, hw⟩ => ?_
      have hmem : w ∈ (th.td.writeSet.setPending i s).vars := by
        rw [PodHashSet.vars_setPending]
        exact List.mem_map.mpr ⟨e, hm, hw⟩
      obtain ⟨e', hm', hw'⟩ := List.mem_map.mp hmem
      exact ⟨e', hm', hw'⟩
  | startCommit hpc =>
      refine out (by rw [hpc]; rfl) rfl rfl rfl rfl fun v hv => ?_
      rcases hv with hv | hv
      · refine (mem_removeWritesFromReadsLoop _ _ hv).imp_right fun hf => ?_
        obtain ⟨i, hf⟩ := Option.isSome_iff_exists.mp hf
        obtain ⟨e, he, hev⟩ := PodHashSet.find_eq_some hf
        exact ⟨e, List.mem_of_getElem? he, hev⟩
      · exact Or.inr hv
  | allLocked i hpc he => exact .allLocked i hpc he
  | lockInvalid i hi hpc =>
      exact out (by rcases hpc with hpc | ⟨_, hpc⟩ <;> rw [hpc] <;> rfl) rfl rfl rfl rfl fun _ => id
  | validated i hpc he =>
      refine .same (.of_goto (fun _ => by rw [hpc]; rfl) fun v hv => ?_) (by rw [hpc]; rfl)
      have ht := List.take_of_length_le (List.getElem?_eq_none_iff.mp he)
      rw [Thread.validated, hpc]
      show v ∈ th.td.readSet.data.take i
      rw [ht]
      exact hv
  | readValid i v hpc he hv => exact .valid i v hpc he hv
  | store i e hpc | allStored i hpc =>
      refine .same (.of_goto (fun _ => by rw [hpc]; rfl) fun v => ?_) (by rw [hpc]; rfl)
      rw [Thread.validated, Thread.validated, hpc]
      exact id
  | reclaimNothing hpc | waitMore _ _ _ _ _ hpc =>
      rw [hpc] at hp'
      cases hp'
  | success sync => rw [reclaim_outside] at hp'; cases hp'
  | failureReadOnly exn => cases exn <;> cases hp'
  | failDone exn => cases exn <;> cases hp'
  | _ => first
    | exact out (by simp only [*]; rfl) rfl rfl rfl rfl fun _ => id
    | cases hp'

end Move

/-! ## 3. The step, for the other threads -/

omit [DecidableEq ι] [DecidableEq ν] in
theorem PC.phase_of_sealed {pc : PC ι ν α} (h : pc.isSealed = true) : pc.phase = .attempt := by
  cases pc <;> first | rfl | cases h

omit [DecidableEq ι] in
theorem Commit.writes_ne_nil {c : Commit ι ν α} {v : ν} (h : c.Writes v) : c.writes ≠ [] := by
  obtain ⟨w, hw, _⟩ := Commit.writes_iff.mp h
  exact List.ne_nil_of_mem hw

/-- A commit of another thread that leaves what a running attempt knows right. -/
structure Harmless (th : Thread ι ν α) (c : Commit ι ν α) : Prop where
  later : c.writes ≠ [] → th.version < c.version
  distinct : c.writes ≠ [] → c.point ≠ th.att.start
  reads : ∀ p ∈ th.att.reads, c.point < th.att.start → ¬ c.Writes p.1
  validated : ∀ v ∈ th.validated, c.Writes v → th.att.point < c.point

section Step

variable {cfg : Config ι ν α} {s : Sys ι ν α} {t : ι} {req : Option (Request ν α)}
  {sh' : Shared ι ν α} {th' : Thread ι ν α}

omit [DecidableEq ι] in
/-- A commit that writes a var is not above the latest one that does. -/
theorem Commits.version_le_latest (h : Commits cfg s) {c : Commit ι ν α}
    (hc : c ∈ s.shared.hist.commits) {v : ν} (hw : c.Writes v) :
    c.version ≤ latestVersion s.shared.hist.commits v := by
  cases hl : latest s.shared.hist.commits v with
  | none => exact absurd hw (WriteLog.latest_eq_none.mp hl c hc)
  | some dw =>
      obtain ⟨d, w⟩ := dw
      rw [latestVersion_of_some hl]
      rcases WriteLog.latest_max (r := fun older newer => older.version < newer.version)
        (h.sorted.imp fun h hn _ => h (Commit.writes_ne_nil hn)) hl hc hw with rfl | hlt
      · exact Nat.le_refl _
      · exact hlt.le

omit [DecidableEq ι] in
/-- A var whose latest version the attempt may see: who wrote it took effect before it began. -/
theorem Running.point_lt_start (h : Running cfg s t (s.threads t)) (hc : Commits cfg s) {v : ν}
    (hv : latestVersion s.shared.hist.commits v ≤ (s.threads t).version) {c : Commit ι ν α}
    (hm : c ∈ s.shared.hist.commits) (hw : c.Writes v) : c.point < (s.threads t).att.start :=
  h.visible c hm (Commit.writes_ne_nil hw) ((hc.version_le_latest hm hw).trans hv)

omit [DecidableEq ι] [DecidableEq ν] in
/-- A var nobody holds is written by nobody who is sealed. -/
theorem not_writes_of_free {v : ν} (hn : ∀ u, ¬ (s.threads u).Holds v) (u : ι)
    (hs : (s.threads u).pc.isSealed = true) : ¬ (s.threads u).Writes v :=
  fun hw => hn u (Thread.holds_of_sealed hs hw)

omit [DecidableEq ν] in
/-- A thread that is sealed after the step was sealed before, or it is sealed now. -/
theorem SealStep.sealed_after (hm : SealStep s.shared t (s.threads t) s.opened sh' th') {w : ι}
    (hw : ((s.after t sh' th').threads w).pc.isSealed = true) :
    ((s.threads w).pc.isSealed = true ∧
      ((s.after t sh' th').threads w).att.point = (s.threads w).att.point ∧
      ∀ v, ((s.after t sh' th').threads w).Writes v → (s.threads w).Writes v) ∨
    ((s.after t sh' th').threads w).att.point = s.shared.hist.now := by
  by_cases hwt : w = t
  · subst hwt
    rw [Sys.threads_after_self] at hw ⊢
    cases hm with
    | keep hc hs =>
        obtain ⟨h1, h2, h3⟩ := hs hw
        refine Or.inl ⟨h1, h2, fun v => ?_⟩
        rw [Thread.Writes, Thread.Writes, h3]
        exact id
    | allLocked hc hp => exact Or.inr hp
    | commitEmpty _ _ _ hs | bump _ _ hs =>
        rw [hs] at hw
        cases hw
  · rw [Sys.threads_after_ne s hwt] at hw ⊢
    exact Or.inl ⟨hw, rfl, fun _ => id⟩

omit [DecidableEq ι] in
/-- What a step of thread `t` adds to the commits is harmless to the running attempt of `u`. -/
theorem SealStep.harmless (hm : SealStep s.shared t (s.threads t) s.opened sh' th') (ha : Active cfg s)
    {u : ι} (hu : u ≠ t) (hr : Running cfg s u (s.threads u)) :
    sh'.hist.commits = s.shared.hist.commits ∨
      ∃ c, sh'.hist.commits = c :: s.shared.hist.commits ∧ Harmless (s.threads u) c := by
  cases hm with
  | keep hc | allLocked hc => exact Or.inl hc
  | commitEmpty hpc he hc =>
      have hnil : (commitRecord s.shared t (s.threads t) 0 (s.threads t).att.start s.opened).writes = [] := by
        simp [commitRecord, he]
      have hno : ∀ v, ¬ Commit.Writes _ v := fun v hw => Commit.writes_ne_nil hw hnil
      exact Or.inr ⟨_, hc, fun hn => absurd hnil hn, fun hn => absurd hnil hn, fun p _ _ => hno p.1,
        fun v _ hw => absurd hw (hno v)⟩
  | bump hpc hc =>
      have hs : (s.threads t).pc.isSealed = true := by rw [hpc]; rfl
      refine Or.inr ⟨_, hc, fun _ => Nat.lt_succ_of_le (ha.version_le u),
        fun _ => hr.distinct_sealed t hu.symm hs, fun p hp hlt hw => ?_, fun v hv hw => ?_⟩
      · exact hr.unsealed t hu.symm hs hlt.le p hp (commitRecord_writes.mp hw)
      · refine Nat.lt_of_not_le fun hle => ?_
        exact (hr.validated v hv).2 t hu.symm hs hle (commitRecord_writes.mp hw)

/-- **A step of another thread keeps what a running attempt knows.** -/
theorem Running.step_ne (hm : SealStep s.shared t (s.threads t) s.opened sh' th') (ha : Active cfg s)
    {u : ι} (hu : u ≠ t) (hr : Running cfg s u (s.threads u)) :
    Running cfg (s.after t sh' th') u (s.threads u) := by
  have hcommits := hm.harmless ha hu hr
  have hmem : ∀ {P : Commit ι ν α → Prop}, (∀ c ∈ s.shared.hist.commits, P c) →
      (∀ c, Harmless (s.threads u) c → P c) → ∀ c ∈ sh'.hist.commits, P c := by
    intro P hold hnew
    rcases hcommits with hc | ⟨c, hc, hh⟩ <;> rw [hc]
    · exact hold
    · exact List.forall_mem_cons.mpr ⟨hnew c hh, hold⟩
  refine ⟨Nat.lt_succ_of_lt hr.start_lt, ?_, ?_, fun w hw hs => ?_, fun p hp => ?_,
    fun w hw hs hle p hp hwr => ?_, hr.covered,
    fun hs => ⟨(hr.point hs).1, Nat.lt_succ_of_lt (hr.point hs).2⟩, fun v hv => ⟨?_, fun w hw hs hle hwr => ?_⟩⟩
  · exact hmem hr.visible fun c hh hne hle => absurd hle (Nat.not_le_of_lt (hh.later hne))
  · exact hmem hr.distinct fun c hh => hh.distinct
  · rcases hm.sealed_after hs with ⟨h1, h2, _⟩ | h2
    · exact h2 ▸ hr.distinct_sealed w hw h1
    · exact h2 ▸ (Nat.ne_of_lt hr.start_lt).symm
  · refine (hr.reads p hp).trans ?_
    rcases hcommits with hc | ⟨c, hc, hh⟩ <;> rw [Sys.shared_after, Shared.commits_atTime, hc]
    refine (latestValue_of_eq (WriteLog.latest_filter_cons fun hlt => ?_)).symm
    exact WriteLog.not_writes.mp (hh.reads p hp (of_decide_eq_true hlt))
  · rcases hm.sealed_after hs with ⟨h1, h2, h3⟩ | h2
    · exact hr.unsealed w hw h1 (h2 ▸ hle) p hp (h3 _ hwr)
    · exact absurd (h2 ▸ hle) (Nat.not_le_of_lt hr.start_lt)
  · exact hmem (hr.validated v hv).1 fun c hh hw => Or.inr (hh.validated v hv hw)
  · rcases hm.sealed_after hs with ⟨h1, h2, h3⟩ | h2
    · exact (hr.validated v hv).2 w hw h1 (h2 ▸ hle) (h3 v hwr)
    · exact absurd (h2 ▸ hle) (Nat.not_le_of_lt (hr.point (Thread.sealed_of_validated hv)).2)

/-! ## 4. The step, for the thread itself -/

/-- An attempt that goes on at the same start and version with the same reads. -/
theorem Running.of_same (hr : Running cfg s t (s.threads t))
    (hc : sh'.hist.commits = s.shared.hist.commits) (h1 : th'.att.start = (s.threads t).att.start)
    (hv : th'.version = (s.threads t).version) (h2 : th'.att.reads = (s.threads t).att.reads)
    (covered : ∀ v, v ∈ (s.threads t).td.readSet.data ∨ (s.threads t).Writes v →
      v ∈ th'.td.readSet.data ∨ th'.Writes v)
    (point : th'.pc.isSealed = true →
      (s.threads t).att.start < th'.att.point ∧ th'.att.point ≤ s.shared.hist.now)
    (validated : ∀ v ∈ th'.validated,
      (∀ c ∈ s.shared.hist.commits, c.Writes v → c.point < (s.threads t).att.start ∨ th'.att.point < c.point) ∧
      ∀ u, u ≠ t → (s.threads u).pc.isSealed = true → (s.threads u).att.point ≤ th'.att.point →
        ¬ (s.threads u).Writes v) : Running cfg (s.after t sh' th') t th' := by
  refine ⟨?_, ?_, ?_, fun u hu => ?_, ?_, fun u hu => ?_, ?_, fun hs => ?_, fun v hv' => ⟨?_, fun u hu => ?_⟩⟩
  · exact h1 ▸ Nat.lt_succ_of_lt hr.start_lt
  · rw [Sys.shared_after, Shared.commits_atTime, hc, h1, hv]
    exact hr.visible
  · rw [Sys.shared_after, Shared.commits_atTime, hc, h1]
    exact hr.distinct
  · rw [Sys.threads_after_ne s hu, h1]
    exact hr.distinct_sealed u hu
  · rw [Sys.shared_after, Shared.commits_atTime, hc, h1, h2]
    exact hr.reads
  · rw [Sys.threads_after_ne s hu, h1, h2]
    exact hr.unsealed u hu
  · exact fun p hp => covered p.1 (hr.covered p (h2 ▸ hp))
  · exact h1 ▸ ⟨(point hs).1, Nat.lt_succ_of_le (point hs).2⟩
  · rw [Sys.shared_after, Shared.commits_atTime, hc, h1]
    exact (validated v hv').1
  · rw [Sys.threads_after_ne s hu]
    exact (validated v hv').2 u hu

/-- An attempt begins. -/
theorem Running.fresh (hpt : ∀ c ∈ s.shared.hist.commits, c.point < s.shared.hist.now)
    (hsl : ∀ u, (s.threads u).pc.isSealed = true → (s.threads u).att.point < s.shared.hist.now)
    (hc : sh'.hist.commits = s.shared.hist.commits) :
    Running cfg (s.after t sh' (getClockStep s.shared (s.threads t))) t
      (getClockStep s.shared (s.threads t)) where
  start_lt := Nat.lt_succ_self _
  visible c hm _ _ := hpt c (hc ▸ hm)
  distinct c hm _ := Nat.ne_of_lt (hpt c (hc ▸ hm))
  distinct_sealed u hu hs := by
    rw [Sys.threads_after_ne s hu] at hs ⊢
    exact Nat.ne_of_lt (hsl u hs)
  reads _ hp := absurd hp List.not_mem_nil
  unsealed _ _ _ _ _ hp := absurd hp List.not_mem_nil
  covered _ hp := absurd hp List.not_mem_nil
  point hs := by cases hs
  validated _ hv := absurd hv List.not_mem_nil

/-- A get returns: what it has read was current when the attempt began. -/
theorem Running.read (hr : Running cfg s t (s.threads t)) (hc : Commits cfg s) (ha : Active cfg s)
    (hl : Locks s) {th' : Thread ι ν α} {v : ν} {x : α}
    (hcom : sh'.hist.commits = s.shared.hist.commits)
    (hv : s.shared.loadVersion v ≤ (s.threads t).version)
    (hx : x = latestValue cfg s.shared.hist.commits v)
    (hle : latestVersion s.shared.hist.commits v ≤ (s.threads t).version)
    (hreads : ∀ p ∈ th'.att.reads, p ∈ (s.threads t).att.reads ∨ p = (v, x) ∧ v ∈ th'.td.readSet.data)
    (hset : ∀ w, w ∈ (s.threads t).td.readSet.data → w ∈ th'.td.readSet.data)
    (hws : th'.td.writeSet = (s.threads t).td.writeSet)
    (hstart : th'.att.start = (s.threads t).att.start) (hver : th'.version = (s.threads t).version)
    (hpc : th'.pc = .call) : Running cfg (s.after t sh' th') t th' := by
  have hns : th'.pc.isSealed = false := by rw [hpc]; rfl
  have hval : ∀ w, w ∉ th'.validated := fun w hw => by
    rw [Thread.sealed_of_validated hw] at hns
    cases hns
  refine ⟨?_, ?_, ?_, fun u hu => ?_, fun p hp => ?_, fun u hu hs hlt p hp => ?_, fun p hp => ?_, fun hs => ?_,
    fun w hw => absurd hw (hval w)⟩
  · exact hstart ▸ Nat.lt_succ_of_lt hr.start_lt
  · rw [Sys.shared_after, Shared.commits_atTime, hcom, hstart, hver]
    exact hr.visible
  · rw [Sys.shared_after, Shared.commits_atTime, hcom, hstart]
    exact hr.distinct
  · rw [Sys.threads_after_ne s hu, hstart]
    exact hr.distinct_sealed u hu
  · rw [Sys.shared_after, Shared.commits_atTime, hcom, hstart]
    rcases hreads p hp with hp | ⟨rfl, _⟩
    · exact hr.reads p hp
    · -- the latest commit that wrote `v` is one the attempt may see
      refine hx.trans (latestValue_of_eq (WriteLog.latest_filter fun c w hlat => decide_eq_true ?_)).symm
      obtain ⟨hmem, hput⟩ := WriteLog.mem_of_latest hlat
      exact hr.point_lt_start hc hle hmem (WriteLog.writes_of_put hput)
  · rw [Sys.threads_after_ne s hu] at hs hlt ⊢
    rcases hreads p hp with hp | ⟨rfl, _⟩
    · exact hr.unsealed u hu hs (hstart ▸ hlt) p hp
    · exact not_writes_of_free (hl.not_holds_of_valid ha hv) u hs
  · rcases hreads p hp with hp | ⟨rfl, hmem⟩
    · refine (hr.covered p hp).imp (hset p.1) fun hw => ?_
      rwa [Thread.Writes, Thread.entries, hws]
    · exact Or.inl hmem
  · rw [hns] at hs
    cases hs

omit [DecidableEq ι] [DecidableEq ν] in
/-- A tracked get of a var puts it into the read set. -/
theorem mem_readSet_pushRead {th : Thread ι ν α} {path : ReadPath} {v : ν}
    (hp : path = .fast true ∨ path = .slow true) : v ∈ (th.pushRead path v).td.readSet.data := by
  rcases hp with rfl | rfl
  · exact List.mem_append_right _ List.mem_cons_self
  · rw [Thread.pushRead, PodVector.data_emplaceBack]
    exact List.mem_append_right _ List.mem_cons_self

omit [DecidableEq ι] [DecidableEq ν] in
theorem readSet_subset_pushRead {th : Thread ι ν α} {path : ReadPath} {v w : ν}
    (h : w ∈ th.td.readSet.data) : w ∈ (th.pushRead path v).td.readSet.data := by
  unfold Thread.pushRead
  split
  · exact List.mem_append_left _ h
  · rw [PodVector.data_emplaceBack]
    exact List.mem_append_left _ h
  · exact h

omit [DecidableEq ι] in
theorem mem_reads_noteRead {th : Thread ι ν α} {v : ν} {x : α} {p : ν × α}
    (h : p ∈ (th.noteRead v x).att.reads) : p ∈ th.att.reads ∨ p = (v, x) := by
  unfold Thread.noteRead at h
  split at h
  · exact Or.inl h
  · exact (List.mem_append.mp h).imp_right List.mem_singleton.mp

omit [DecidableEq ι] in
theorem start_noteRead (th : Thread ι ν α) (v : ν) (x : α) :
    (th.noteRead v x).att.start = th.att.start := by
  unfold Thread.noteRead
  split <;> rfl

/-- **A step of a thread keeps what its own attempt knows**, if its gets are tracked. -/
theorem Running.step_self (hpt : ∀ c ∈ s.shared.hist.commits, c.point < s.shared.hist.now)
    (hsl : ∀ u, (s.threads u).pc.isSealed = true → (s.threads u).att.point < s.shared.hist.now)
    (hrun : (s.threads t).pc.phase = .attempt → Running cfg s t (s.threads t))
    (hc : Commits cfg s) (hh : Heap cfg s) (ha : Active cfg s) (hl : Locks s) (hsn : Snapshot cfg s)
    (htracked : ∀ path v st, (s.threads t).pc = .readVersion path v st →
      path = .fast true ∨ path = .slow true)
    (hm : Move cfg s.shared t (s.threads t) s.opened req sh' th') (hp' : th'.pc.phase = .attempt) :
    Running cfg (s.after t sh' th') t th' := by
  have hcom : sh'.hist.commits = s.shared.hist.commits := by
    rcases hm.commits with ⟨hcom, _⟩ | ⟨_, _, _, _, _, hp, _⟩
    · exact hcom
    · rw [hp'] at hp
      cases hp
  have hver : (s.threads t).pc.phase = .attempt → th'.version = (s.threads t).version := fun hp =>
    ha.version_eq hm (by rintro e; rw [e] at hp; cases hp)
  have hval : ∀ {th' : Thread ι ν α}, th'.pc.isSealed = false → ∀ v, v ∉ th'.validated := fun hn v hv => by
    rw [Thread.sealed_of_validated hv] at hn
    cases hn
  cases hm.run hp' with
  | fresh hpc => exact .fresh hpt hsl hcom
  | read path v st hpc hv =>
      have hp : (s.threads t).pc.phase = .attempt := by rw [hpc]; rfl
      obtain ⟨hle, hx⟩ := hsn.value hc hh ha hl hpc hv
      have hpath := htracked path v st hpc
      refine .read (hrun hp) hc ha hl hcom hv hx hle (fun p hp => ?_) (fun w hw => ?_) ?_ ?_ (hver hp) rfl
      · refine (mem_reads_noteRead hp).imp (fun hp => by rwa [att_pushRead] at hp) fun hp => ⟨hp, ?_⟩
        rw [td_opReturns, td_noteRead]
        exact mem_readSet_pushRead hpath
      · rw [td_opReturns, td_noteRead]
        exact readSet_subset_pushRead hw
      · exact (congrArg ThreadData.writeSet (td_noteRead ..)).trans (writeSet_pushRead ..)
      · exact (start_noteRead ..).trans (congrArg Attempt.start (att_pushRead ..))
  | allLocked i hpc he =>
      have hr := hrun (by rw [hpc]; rfl)
      exact hr.of_same hcom rfl rfl rfl (fun _ => id) (fun _ => ⟨hr.start_lt, Nat.le_refl _⟩)
        fun v hv => absurd hv List.not_mem_nil
  | valid i v hpc he hv =>
      have hr := hrun (by rw [hpc]; rfl)
      have hfree := hl.not_holds_of_valid ha hv
      refine hr.of_same hcom rfl rfl rfl (fun _ => id)
        (fun _ => ⟨(hr.point (by rw [hpc]; rfl)).1, (hr.point (by rw [hpc]; rfl)).2.le⟩) fun w hw => ?_
      obtain ⟨hi, rfl⟩ := List.getElem?_eq_some_iff.mp he
      have hw : w ∈ (s.threads t).td.readSet.data.take (i + 1) := hw
      rw [← List.take_concat_get' _ i hi, List.mem_append, List.mem_singleton] at hw
      rcases hw with hw | rfl
      · exact hr.validated w (by rw [Thread.validated, hpc]; exact hw)
      · have hle := (hc.unlocked ha hl hfree).1 ▸ hv
        exact ⟨fun c hm hw => Or.inl (hr.point_lt_start hc hle hm hw),
          fun u _ hs _ => not_writes_of_free hfree u hs⟩
  | same hs hp =>
      have hr := hrun hp
      refine hr.of_same hcom hs.start (hver hp) hs.reads hs.covered
        (fun hse => ?_) fun v hv => ?_
      · rw [hs.point]
        exact ⟨(hr.point (hs.isSealed hse)).1, (hr.point (hs.isSealed hse)).2.le⟩
      · rw [hs.point]
        exact hr.validated v (hs.validated v hv)

/-! ## 5. The commits -/

/-- The commits so far are stamped. -/
abbrev StampedCommits (cfg : Config ι ν α) (cs : List (Commit ι ν α)) : Prop :=
  Serialization.Stamped Commit.put Written.value Commit.reads Commit.start Commit.point cfg.initValue cs

/-- What the commits satisfy. -/
structure SerialCommits (cfg : Config ι ν α) (s : Sys ι ν α) : Prop where
  stamped : StampedCommits cfg s.shared.hist.commits
  point_lt : ∀ c ∈ s.shared.hist.commits, c.point < s.shared.hist.now
  unsealed : ∀ c ∈ s.shared.hist.commits, ∀ u, (s.threads u).pc.isSealed = true →
    (s.threads u).att.point ≤ c.point → ∀ p ∈ c.reads, ¬ (s.threads u).Writes p.1

omit [DecidableEq ι] in
theorem Serial.serialCommits (h : Serial cfg s) : SerialCommits cfg s :=
  ⟨h.stamped, h.point_lt, h.unsealed⟩

omit [DecidableEq ι] in
/-- A read_write transaction with an empty write set takes effect when it reads the clock. -/
theorem Running.commitEmpty (hr : Running cfg s t (s.threads t))
    (hst : StampedCommits cfg s.shared.hist.commits) (he : (s.threads t).td.writeSet.entries = []) :
    StampedCommits cfg (commitRecord s.shared t (s.threads t) 0 (s.threads t).att.start s.opened ::
      s.shared.hist.commits) := by
  have hnil : (commitRecord s.shared t (s.threads t) 0 (s.threads t).att.start s.opened).writes = [] := by
    simp [commitRecord, he]
  have hput : ∀ v, Commit.put _ v = none := fun v => Commit.put_of_empty hnil v
  have hno : ∀ v, ¬ Commit.Writes _ v := fun v => WriteLog.not_writes.mpr (hput v)
  refine ⟨fun v => List.pairwise_cons.mpr ⟨fun d _ hw => absurd hw (hno v), hst.order v⟩,
    List.forall_mem_cons.mpr ⟨Nat.le_refl _, hst.start_le⟩,
    List.forall_mem_cons.mpr ⟨fun p hp => ?_, fun d hd p hp => ?_⟩,
    List.pairwise_cons.mpr ⟨fun d hd => ⟨fun p hp hw => ?_, fun p _ hw => absurd hw (hno p.1)⟩,
      hst.stable⟩⟩
  · exact (hr.reads p hp).trans (latestValue_of_eq (WriteLog.latest_filter_cons fun _ => hput p.1)).symm
  · exact (hst.current d hd p hp).trans
      (Serialization.valueOf_congr (WriteLog.latest_filter_cons fun _ => hput p.1)).symm
  · exact Nat.lt_or_gt_of_ne (hr.distinct d hd (Commit.writes_ne_nil hw))

omit [DecidableEq ι] in
/-- The clock bump: the transaction has taken effect when it held its last lock. -/
theorem Running.bump (hr : Running cfg s t (s.threads t)) (h : SerialCommits cfg s) (hc : Commits cfg s)
    (hlk : Locked s (s.threads t)) (hpc : (s.threads t).pc = .bumpClock)
    (sh : Shared ι ν α) (version : Epoch) (opened : ι → Option Nat) :
    StampedCommits cfg (commitRecord sh t (s.threads t) version (s.threads t).att.point opened ::
      s.shared.hist.commits) := by
  have hs : (s.threads t).pc.isSealed = true := by rw [hpc]; rfl
  have hpoint := (hr.point hs).1
  -- who wrote a var the transaction writes took effect before it began
  have hw : ∀ {v d}, (s.threads t).Writes v → d ∈ s.shared.hist.commits → Commit.Writes d v →
      d.point < (s.threads t).att.start := fun hv hd hw =>
    hr.point_lt_start hc (hlk _ (Thread.holds_of_sealed hs hv) fun ⟨_, he, _⟩ => by
      simp [Thread.publishing, hpc] at he) hd hw
  refine ⟨fun v => List.pairwise_cons.mpr ⟨fun d hd hcv hdv => ?_, h.stamped.order v⟩,
    List.forall_mem_cons.mpr ⟨hpoint.le, h.stamped.start_le⟩,
    List.forall_mem_cons.mpr ⟨fun p hp => ?_, fun d hd p hp => ?_⟩,
    List.pairwise_cons.mpr ⟨fun d hd => ⟨fun p hp hdv => ?_, fun p hp hcv => ?_⟩, h.stamped.stable⟩⟩
  · exact (hw (commitRecord_writes.mp hcv) hd hdv).trans hpoint
  · refine (hr.reads p hp).trans (latestValue_of_eq (WriteLog.latest_filter_cons fun hlt => ?_)).symm
    exact absurd (of_decide_eq_true hlt) (Nat.lt_asymm hpoint)
  · refine (h.stamped.current d hd p hp).trans
      (Serialization.valueOf_congr (WriteLog.latest_filter_cons fun hlt => ?_)).symm
    have hle : (s.threads t).att.point ≤ d.point :=
      (Nat.lt_of_lt_of_le (of_decide_eq_true hlt) (h.stamped.start_le d hd)).le
    exact WriteLog.not_writes.mp fun hcv => h.unsealed d hd t hs hle p hp (commitRecord_writes.mp hcv)
  · rcases hr.covered p hp with hmem | hv
    · exact (hr.validated p.1 (by rw [Thread.validated, hpc]; exact hmem)).1 d hd hdv
    · exact Or.inl (hw hv hd hdv)
  · refine Or.inr (Nat.lt_of_not_le fun hle => ?_)
    exact h.unsealed d hd t hs hle p hp (commitRecord_writes.mp hcv)

omit [DecidableEq ι] in
/-- A step keeps the commits serializable. -/
theorem SerialCommits.stamped_step (h : SerialCommits cfg s) (hc : Commits cfg s)
    (hlk : Locked s (s.threads t))
    (hrun : (s.threads t).pc = .tryCommit ∨ (s.threads t).pc.isSealed = true → Running cfg s t (s.threads t))
    (hm : SealStep s.shared t (s.threads t) s.opened sh' th') : StampedCommits cfg sh'.hist.commits := by
  cases hm with
  | keep hcom | allLocked hcom => exact hcom ▸ h.stamped
  | commitEmpty hpc he hcom => exact hcom ▸ (hrun (Or.inl hpc)).commitEmpty h.stamped he
  | bump hpc hcom => exact hcom ▸ (hrun (Or.inr (by rw [hpc]; rfl))).bump h hc hlk hpc _ _ _

/-- A step adds a commit whose point is over and whose reads nobody sealed before writes. -/
theorem SerialCommits.unsealed_step (h : SerialCommits cfg s) (hl : Locks s)
    (hrun : (s.threads t).pc = .tryCommit ∨ (s.threads t).pc.isSealed = true → Running cfg s t (s.threads t))
    (hm : SealStep s.shared t (s.threads t) s.opened sh' th') :
    ∀ c ∈ sh'.hist.commits, c.point < s.shared.hist.now ∧
      ∀ u, ((s.after t sh' th').threads u).pc.isSealed = true →
        ((s.after t sh' th').threads u).att.point ≤ c.point → ∀ p ∈ c.reads,
        ¬ ((s.after t sh' th').threads u).Writes p.1 := by
  have old : ∀ c ∈ s.shared.hist.commits, c.point < s.shared.hist.now ∧
      ∀ u, ((s.after t sh' th').threads u).pc.isSealed = true →
        ((s.after t sh' th').threads u).att.point ≤ c.point → ∀ p ∈ c.reads,
        ¬ ((s.after t sh' th').threads u).Writes p.1 := by
    refine fun c hc => ⟨h.point_lt c hc, fun u hs hle p hp hw => ?_⟩
    rcases hm.sealed_after hs with ⟨h1, h2, h3⟩ | h2
    · exact h.unsealed c hc u h1 (h2 ▸ hle) p hp (h3 _ hw)
    · exact absurd (h2 ▸ hle) (Nat.not_le_of_lt (h.point_lt c hc))
  have other : th'.pc.isSealed = false → ∀ u, ((s.after t sh' th').threads u).pc.isSealed = true → u ≠ t := by
    rintro hn u hs rfl
    rw [Sys.threads_after_self, hn] at hs
    cases hs
  cases hm with
  | keep hcom | allLocked hcom => exact hcom ▸ old
  | commitEmpty hpc he hcom hn =>
      have hr := hrun (Or.inl hpc)
      refine hcom ▸ List.forall_mem_cons.mpr ⟨⟨hr.start_lt, fun u hs hle p hp => ?_⟩, old⟩
      have hu := other hn u hs
      rw [Sys.threads_after_ne s hu] at hs hle ⊢
      exact hr.unsealed u hu hs hle p hp
  | bump hpc hcom hn =>
      have hst : (s.threads t).pc.isSealed = true := by rw [hpc]; rfl
      have hr := hrun (Or.inr hst)
      refine hcom ▸ List.forall_mem_cons.mpr ⟨⟨(hr.point hst).2, fun u hs hle p hp hw => ?_⟩, old⟩
      have hu := other hn u hs
      rw [Sys.threads_after_ne s hu] at hs hle hw
      rcases hr.covered p hp with hmem | hv
      · exact (hr.validated p.1 (by rw [Thread.validated, hpc]; exact hmem)).2 u hu hs hle hw
      · exact hu (hl.unique u t p.1 (Thread.holds_of_sealed hs hw) (Thread.holds_of_sealed hst hv))

/-- **A step keeps what the commits satisfy.** -/
theorem SerialCommits.step (h : SerialCommits cfg s) (hc : Commits cfg s) (hl : Locks s)
    (hlk : Locked s (s.threads t))
    (hrun : (s.threads t).pc = .tryCommit ∨ (s.threads t).pc.isSealed = true → Running cfg s t (s.threads t))
    (hm : SealStep s.shared t (s.threads t) s.opened sh' th') : SerialCommits cfg (s.after t sh' th') :=
  have hst : StampedCommits cfg sh'.hist.commits := h.stamped_step hc hlk hrun hm
  have hnew := h.unsealed_step hl hrun hm
  ⟨hst, fun c hm => Nat.lt_succ_of_lt (hnew c hm).1, fun c hm => (hnew c hm).2⟩

omit [DecidableEq ι] in
theorem serialCommits_init (cfg : Config ι ν α) : SerialCommits cfg (.init cfg) :=
  ⟨⟨fun _ => List.Pairwise.nil, fun _ hc => (by cases hc), fun _ hc => (by cases hc), List.Pairwise.nil⟩,
    fun _ hc => (by cases hc), fun _ hc => (by cases hc)⟩

omit [DecidableEq ι] [DecidableEq ν] in
theorem PC.phase_of_committing {pc : PC ι ν α} (h : pc = .tryCommit ∨ pc.isSealed = true) :
    pc.phase = .attempt := by
  rcases h with rfl | h
  · rfl
  · exact PC.phase_of_sealed h

end Step

/-- **In every state reached by simple calls the commits and the running attempts are serializable.** -/
theorem serial_reach {cfg : Config ι ν α} {s : Sys ι ν α} (hal : cfg.EmptyAllocators)
    (h : Sys.Reach cfg Request.isSimple s) : Serial cfg s := by
  refine h.induct ?_ fun {s t req sh' th'} hr ih _ hm => ?_
  · obtain ⟨h1, h2, h3⟩ := serialCommits_init cfg
    exact ⟨h1, h2, h3, fun t hp => by cases hp⟩
  · have hc := commits_reach hr
    have ha := active_reach hr
    have hl := locks_reach hr
    obtain ⟨h1, h2, h3⟩ := ih.serialCommits.step hc hl (locked_reach hr t)
      (fun hp => ih.running t (PC.phase_of_committing hp)) hm.seal
    refine ⟨h1, h2, h3, ?_⟩
    refine Sys.forall_after (P := fun u th => th.pc.phase = .attempt → Running cfg (s.after t sh' th') u th) ?_ ?_
    · refine Running.step_self ih.point_lt
        (fun u hs => ((ih.running u (PC.phase_of_sealed hs)).point hs).2) (ih.running t) hc (heap_reach hr) ha
        hl (snapshot_reach hr) (fun path v st hpc => ?_) hm
      obtain ⟨hk, hsimple⟩ := (bodies_reach hal hr).simple t (by rw [hpc]; rfl)
      have hop := ha.opAt t
      rw [hpc] at hop
      exact hop.tracked hk (Op.isTracked_of_isSimple (hsimple _))
    · exact fun u hu hp => (ih.running u hp).step_ne hm.seal ha hu

/-! ## 6. Real time -/

/-- The transactions that have finished have committed, and took effect before they finished. -/
def Finished (s : Sys ι ν α) : Prop :=
  ∀ f ∈ s.shared.hist.finished,
    (∃ c ∈ s.shared.hist.commits, c.tid = f.1 ∧ c.attempt = f.2.1) ∧
    ∀ c ∈ s.shared.hist.commits, c.tid = f.1 → c.attempt = f.2.1 → c.point < f.2.2

/-- A transaction finishes where it leaves its critical section. -/
theorem Move.finished {cfg : Config ι ν α} {sh sh' : Shared ι ν α} {t : ι} {th th' : Thread ι ν α}
    {opened : ι → Option Nat} {req : Option (Request ν α)}
    (h : Move cfg sh t th opened req sh' th') :
    sh'.hist.finished = sh.hist.finished ∨ th.pc.phase = .committed ∧ th.kind ≠ .readOnly ∧
      sh'.hist.commits = sh.hist.commits ∧
      sh'.hist.finished = (t, th.att.number, sh.hist.now) :: sh.hist.finished := by
  cases h with
  | readReturns =>
      unfold Shared.noteRead
      split <;> exact Or.inl rfl
  | storePending v x pending => cases pending <;> exact Or.inl rfl
  | failCallback exn left cb => cases cb.action <;> exact Or.inl rfl
  | succCallback mode epoch minEpoch i ch cb => cases cb.action <;> exact Or.inl rfl
  | success sync hpc hk => exact Or.inr ⟨by rw [hpc]; rfl, hk, rfl, rfl⟩
  | _ => exact Or.inl rfl

/-- In every state reached what has finished took effect before, if commits never take effect later than
    now. -/
theorem finished_of_points {cfg : Config ι ν α} {ok : Request ν α → Prop} {s : Sys ι ν α}
    (hpt : ∀ {s : Sys ι ν α}, Sys.Reach cfg ok s → ∀ c ∈ s.shared.hist.commits, c.point < s.shared.hist.now)
    (h : Sys.Reach cfg ok s) : Finished s := by
  refine h.induct (fun _ hf => absurd hf List.not_mem_nil) fun {s t req sh' th'} hr ih _ hm => ?_
  have hids := commitIds_reach hr t
  -- a new commit is none of an attempt that has finished
  have hcommits : ∀ f ∈ s.shared.hist.finished,
      (∃ c ∈ sh'.hist.commits, c.tid = f.1 ∧ c.attempt = f.2.1) ∧
      ∀ c ∈ sh'.hist.commits, c.tid = f.1 → c.attempt = f.2.1 → c.point < f.2.2 := by
    intro f hf
    obtain ⟨⟨c, hc, htid, hatt⟩, hlt⟩ := ih f hf
    rcases hm.commits with ⟨hcom, _⟩ | ⟨d, hcom, hdt, hda, hp, _⟩
    · rw [hcom]
      exact ih f hf
    · rw [hcom]
      refine ⟨⟨c, List.mem_cons_of_mem _ hc, htid, hatt⟩, List.forall_mem_cons.mpr ⟨fun h1 h2 => ?_, hlt⟩⟩
      refine absurd (hatt.trans (h2.symm.trans hda)) (hids.uncommitted (Or.inl hp) c hc ?_)
      rw [htid, ← h1, hdt]
  rcases hm.finished with hfin | ⟨hp, hk, hcom, hfin⟩
  · intro f hf
    rw [Sys.shared_after, Shared.finished_atTime, hfin] at hf
    exact hcommits f hf
  · intro f hf
    rw [Sys.shared_after, Shared.finished_atTime, hfin] at hf
    rcases List.mem_cons.mp hf with rfl | hf
    · rw [Sys.shared_after, Shared.commits_atTime, hcom]
      exact ⟨hids.committed hp hk, fun c hc _ _ => hpt hr c hc⟩
    · exact hcommits f hf

/-- **In every state reached by simple calls what has finished took effect before.** -/
theorem finished_reach {cfg : Config ι ν α} {s : Sys ι ν α} (hal : cfg.EmptyAllocators)
    (h : Sys.Reach cfg Request.isSimple s) : Finished s :=
  finished_of_points (fun hr => (serial_reach hal hr).point_lt) h

/-! ## 7. The result -/

/-- The transactions one after the other: each body alone, with the log it had, from memory `m` to
    memory `final`. -/
inductive SerialRun : (ν → α) → List (Commit ι ν α) → (ν → α) → Prop where
  | nil (m : ν → α) : SerialRun m [] m
  | cons {m m' final : ν → α} {c : Commit ι ν α} {cs : List (Commit ι ν α)}
      (hbody : Alone c.body m c.log m') (hret : c.body c.log = .ret) (h : SerialRun m' cs final) :
      SerialRun m (c :: cs) final

omit [DecidableEq ι] in
theorem serialization_apply (c : Commit ι ν α) (m : ν → α) :
    Serialization.apply Commit.put Written.value m c = c.apply m := by
  funext v
  unfold Serialization.apply Commit.apply
  cases c.put v <;> rfl

omit [DecidableEq ι] in
/-- A legal order of transactions whose bodies have run to their ends. -/
theorem serialRun_of_legal {order : List (Commit ι ν α)} {m : ν → α}
    (hc : ∀ c ∈ order, c.Replays)
    (h : Serialization.Legal Commit.put Written.value Commit.reads m order) :
    SerialRun m order (Serialization.replay Commit.put Written.value m order) := by
  induction order generalizing m with
  | nil => exact .nil m
  | cons c cs ih =>
      rw [List.forall_mem_cons] at hc
      have hbody := hc.1.2 m fun p hp => (h.1 p hp).symm
      rw [← serialization_apply] at hbody
      exact .cons hbody hc.1.1 (ih hc.2 h.2)

omit [DecidableEq ι] in
/-- The value a var holds that nobody has stored without having bumped the clock. -/
theorem load_eq_latestValue {cfg : Config ι ν α} {s : Sys ι ν α} (hc : Commits cfg s)
    (hh : Heap cfg s) {v : ν} (hn : ∀ u, ¬ (s.threads u).PreStored v) :
    (s.shared.loadStorage v).load s.shared.cells = latestValue cfg s.shared.hist.commits v := by
  rw [(hc.var v).storage hn]
  cases hlat : latest s.shared.hist.commits v with
  | none =>
      rw [latestStorage_of_none hlat, latestValue_of_none hlat]
      exact load_initStorage hh v
  | some cw =>
      obtain ⟨c, w⟩ := cw
      obtain ⟨hmem, hput⟩ := WriteLog.mem_of_latest hlat
      rw [latestStorage_of_some hlat, latestValue_of_some hlat]
      exact hh.value c hmem w (Commit.put_mem hput).1

/-- **Strict serializability.** In every state reached there is an order of the committed
    transactions, every one that has finished among them, in which none that finished before
    another's attempt read the clock comes after it, and in which the bodies, run one after the other
    from the initial values, return from every get what it returned and leave in every var what it
    holds. -/
theorem strict_serializability {cfg : Config ι ν α} {s : Sys ι ν α} (hal : cfg.EmptyAllocators)
    (h : Sys.Reach cfg Request.isSimple s) :
    ∃ (order : List (Commit ι ν α)) (final : ν → α), order.Perm s.shared.hist.commits ∧
      (∀ f ∈ s.shared.hist.finished, ∃ c ∈ order, c.tid = f.1 ∧ c.attempt = f.2.1) ∧
      order.Pairwise (fun c d => ∀ f ∈ s.shared.hist.finished, d.tid = f.1 → d.attempt = f.2.1 →
        c.start ≤ f.2.2) ∧
      SerialRun cfg.initValue order final ∧
      ∀ v, (∀ u, ¬ (s.threads u).PreStored v) →
        final v = (s.shared.loadStorage v).load s.shared.cells := by
  have hser := serial_reach hal h
  have hfin := finished_reach hal h
  let order := s.shared.hist.commits.insertionSort fun c d => c.point ≤ d.point
  have hperm : order.Perm s.shared.hist.commits := List.perm_insertionSort ..
  have hsorted : order.Pairwise fun c d => c.point ≤ d.point := by
    have : Std.Total fun c d : Commit ι ν α => c.point ≤ d.point := ⟨fun c d => Nat.le_total ..⟩
    have : IsTrans (Commit ι ν α) fun c d => c.point ≤ d.point := ⟨fun _ _ _ => Nat.le_trans⟩
    exact List.pairwise_insertionSort ..
  obtain ⟨hlegal, hfinal⟩ := Serialization.legal_of_sorted hser.stamped hperm hsorted
  refine ⟨order, _, hperm, fun f hf => ?_, ?_,
    serialRun_of_legal (fun c hc => (bodies_reach hal h).commits c (hperm.mem_iff.mp hc)) hlegal,
    fun v hv => ?_⟩
  · obtain ⟨⟨c, hc, hid⟩, _⟩ := hfin f hf
    exact ⟨c, hperm.mem_iff.mpr hc, hid⟩
  · refine hsorted.imp_of_mem fun {c d} hc hd hle f hf htid hatt => ?_
    have h1 := hser.stamped.start_le c (hperm.mem_iff.mp hc)
    have h2 := (hfin f hf).2 d (hperm.mem_iff.mp hd) htid hatt
    exact (h1.trans hle).trans h2.le
  · rw [hfinal, load_eq_latestValue (commits_reach h) (heap_reach h) hv]
    rfl

/-- One thread gets `true` and sets `false`; after it has validated its reads the other one sets `true`
    and commits. The first comes first, with the higher version. -/
def overtake : List (Bool × Option (Request Bool Nat)) :=
  (false, some (.readWrite fun log =>
    match log.length with
    | 0 => .get true
    | 1 => .set false 5
    | _ => .ret)) :: List.replicate 15 (false, none) ++
  (true, some (.readWrite fun log => if log.length = 0 then .set true 7 else .ret)) ::
    List.replicate 17 (true, none) ++ List.replicate 6 (false, none)

theorem overtake_isSome : (Sys.run smallConfig overtake (.init smallConfig)).isSome = true := by
  decide

theorem strict_serializability_overtake :
    let s := (Sys.run smallConfig overtake (.init smallConfig)).get overtake_isSome
    s.shared.hist.commits.map (fun c => (c.tid, c.version, c.log)) =
      [(false, 2, [some 0, none]), (true, 1, [none])] ∧
    ∃ (order : List (Commit Bool Bool Nat)) (final : Bool → Nat), order.Perm s.shared.hist.commits ∧
      (∀ f ∈ s.shared.hist.finished, ∃ c ∈ order, c.tid = f.1 ∧ c.attempt = f.2.1) ∧
      order.Pairwise (fun c d => ∀ f ∈ s.shared.hist.finished, d.tid = f.1 → d.attempt = f.2.1 →
        c.start ≤ f.2.2) ∧
      SerialRun smallConfig.initValue order final ∧
      ∀ v, (∀ u, ¬ (s.threads u).PreStored v) →
        final v = (s.shared.loadStorage v).load s.shared.cells := by
  have hal : smallConfig.EmptyAllocators := fun v => by cases v <;> exact ⟨rfl, rfl⟩
  have hok : ∀ m ∈ overtake, ∀ r ∈ m.2, Request.isSimple r := by
    intro m hm r hr
    simp only [overtake, List.cons_append, List.mem_cons, List.mem_append, List.mem_replicate] at hm
    rcases hm with rfl | (⟨_, rfl⟩ | rfl | ⟨_, rfl⟩) | ⟨_, rfl⟩
    · cases hr
      intro log
      dsimp only
      split <;> rfl
    · cases hr
    · cases hr
      intro log
      dsimp only
      split <;> rfl
    · cases hr
    · cases hr
  exact ⟨by decide, strict_serializability hal (.of_run hok (Option.some_get overtake_isSome).symm)⟩

end LockfreeStm
