/-
  File:      LockfreeStm/Machine/Commits.lean
  Subject:   WHAT THE VARS HOLD: the storage and the version of a var are those of the last commit
             that wrote it.

  * `latestStorage`, `latestVersion`, `latestValue` -- what the newest commit that wrote a var left
    there, or what the var was constructed with.
  * `Commits`, `commits_reach` -- in every state reached the commits are sorted by their versions; a
    var whose storage no running commit has overwritten holds the latest storage, and a var that is
    not being published has the latest version.
  * `locked_reach` -- nobody overtakes a thread on a var it holds.

  Between `do_writes` and the clock bump a var holds a storage that belongs to no commit yet; between
  the bump and `publish` it has the version of the commit before.
-/
import LockfreeStm.Machine.Locks
import LockfreeStm.Library.Serialization

namespace LockfreeStm

variable {ι ν α : Type} [DecidableEq ι] [DecidableEq ν]

/-- What the commit wrote to `v`. -/
def Commit.put (c : Commit ι ν α) (v : ν) : Option (Written ν α) := c.writes.find? (·.var = v)

/-- The newest commit that wrote `v`, and what it wrote. -/
abbrev latest (cs : List (Commit ι ν α)) (v : ν) : Option (Commit ι ν α × Written ν α) :=
  WriteLog.latest Commit.put cs v

/-- The storage the newest commit that wrote `v` installed. -/
def latestStorage (cfg : Config ι ν α) (cs : List (Commit ι ν α)) (v : ν) : VarStorage α :=
  match latest cs v with
  | some (_, w) => w.storage
  | none => cfg.initStorage v

/-- The version of the newest commit that wrote `v`. -/
def latestVersion (cs : List (Commit ι ν α)) (v : ν) : Epoch :=
  match latest cs v with
  | some (c, _) => c.version
  | none => 0

/-- The value a var is constructed with. -/
def Config.initValue (cfg : Config ι ν α) (v : ν) : α := (cfg.initStorage v).load cfg.initCells

/-- The value the newest commit that wrote `v` installed. -/
def latestValue (cfg : Config ι ν α) (cs : List (Commit ι ν α)) (v : ν) : α :=
  Serialization.valueOf Commit.put Written.value cfg.initValue cs v

/-! ## 1. Commit records -/

omit [DecidableEq ι] in
/-- A commit writes the vars of its record. -/
theorem Commit.writes_iff {c : Commit ι ν α} {v : ν} :
    WriteLog.Writes Commit.put c v ↔ ∃ w ∈ c.writes, w.var = v := by
  simp [WriteLog.Writes, Commit.put]

omit [DecidableEq ι] in
theorem Commit.put_mem {c : Commit ι ν α} {v : ν} {w : Written ν α} (h : c.put v = some w) :
    w ∈ c.writes ∧ w.var = v :=
  ⟨List.mem_of_find?_eq_some h, by simpa using List.find?_some h⟩

omit [DecidableEq ι] in
theorem Commit.put_of_empty {c : Commit ι ν α} (h : c.writes = []) (v : ν) : c.put v = none := by
  simp [Commit.put, h]

section Record

variable {sh : Shared ι ν α} {t : ι} {th : Thread ι ν α} {version : Epoch} {point : Nat}
  {opened : ι → Option Nat} {v : ν}

omit [DecidableEq ι] in
theorem commitRecord_put {w : Written ν α}
    (h : (commitRecord sh t th version point opened).put v = some w) :
    ∃ e ∈ th.entries, e.destVar = v ∧ w.storage = e.pendingWrite := by
  obtain ⟨hw, rfl⟩ := Commit.put_mem h
  obtain ⟨e, he, rfl⟩ := List.mem_map.mp hw
  exact ⟨e, he, rfl, rfl⟩

omit [DecidableEq ι] in
theorem commitRecord_put_of_mem (sh : Shared ι ν α) (t : ι) (version : Epoch) (point : Nat)
    (opened : ι → Option Nat) (h : ∃ e ∈ th.entries, e.destVar = v) :
    ∃ w, (commitRecord sh t th version point opened).put v = some w := by
  have hs : WriteLog.Writes Commit.put (commitRecord sh t th version point opened) v := by
    rw [Commit.writes_iff]
    simpa [commitRecord, Thread.entries] using h
  exact Option.isSome_iff_exists.mp hs

omit [DecidableEq ι] in
theorem commitRecord_writes :
    WriteLog.Writes Commit.put (commitRecord sh t th version point opened) v ↔
      ∃ e ∈ th.entries, e.destVar = v := by
  rw [Commit.writes_iff]
  simp [commitRecord, Thread.entries]

end Record

section Latest

variable {cfg : Config ι ν α} {cs : List (Commit ι ν α)} {c : Commit ι ν α} {w : Written ν α} {v : ν}

omit [DecidableEq ι] in
theorem latestStorage_of_some (h : latest cs v = some (c, w)) :
    latestStorage cfg cs v = w.storage := by rw [latestStorage, h]

omit [DecidableEq ι] in
theorem latestStorage_of_none (h : latest cs v = none) :
    latestStorage cfg cs v = cfg.initStorage v := by rw [latestStorage, h]

omit [DecidableEq ι] in
theorem latestVersion_of_some (h : latest cs v = some (c, w)) : latestVersion cs v = c.version := by
  rw [latestVersion, h]

omit [DecidableEq ι] in
theorem latestValue_of_some (h : latest cs v = some (c, w)) : latestValue cfg cs v = w.value :=
  Serialization.valueOf_of_some h

omit [DecidableEq ι] in
theorem latestValue_of_none (h : latest cs v = none) :
    latestValue cfg cs v = cfg.initValue v := Serialization.valueOf_of_none h

end Latest

omit [DecidableEq ι] in
theorem latestStorage_of_eq {cfg : Config ι ν α} {cs cs' : List (Commit ι ν α)} {v : ν}
    (h : latest cs' v = latest cs v) : latestStorage cfg cs' v = latestStorage cfg cs v := by
  rw [latestStorage, h]
  rfl

omit [DecidableEq ι] in
theorem latestVersion_of_eq {cs cs' : List (Commit ι ν α)} {v : ν}
    (h : latest cs' v = latest cs v) : latestVersion cs' v = latestVersion cs v := by
  rw [latestVersion, h]
  rfl

omit [DecidableEq ι] in
theorem latestValue_of_eq {cfg : Config ι ν α} {cs cs' : List (Commit ι ν α)} {v : ν}
    (h : latest cs' v = latest cs v) : latestValue cfg cs' v = latestValue cfg cs v :=
  Serialization.valueOf_congr h

/-! ## 2. The invariant -/

/-- What a var holds. -/
structure VarOk (cfg : Config ι ν α) (s : Sys ι ν α) (v : ν) : Prop where
  storage : (∀ u, ¬ (s.threads u).PreStored v) →
    s.shared.loadStorage v = latestStorage cfg s.shared.hist.commits v
  preStored : ∀ u, ∀ e ∈ (s.threads u).preStored, e.destVar = v →
    s.shared.loadStorage v = e.pendingWrite
  version : (∀ u, ¬ (s.threads u).Publishing v) →
    baseVersion (s.shared.loadVersion v) = latestVersion s.shared.hist.commits v
  publishing : ∀ u, (s.threads u).Publishing v →
    latestVersion s.shared.hist.commits v = (s.threads u).publishVersion

/-- What the commits and the vars satisfy. -/
structure Commits (cfg : Config ι ν α) (s : Sys ι ν α) : Prop where
  sorted : s.shared.hist.commits.Pairwise fun newer older =>
    newer.writes ≠ [] → older.version < newer.version
  le_clock : ∀ c ∈ s.shared.hist.commits, c.version ≤ s.shared.clock
  var : ∀ v, VarOk cfg s v

omit [DecidableEq ι] [DecidableEq ν] in
@[simp] theorem Shared.loadStorage_atTime (sh : Shared ι ν α) (n : Nat) (v : ν) :
    (sh.atTime n).loadStorage v = sh.loadStorage v := rfl

omit [DecidableEq ι] in
theorem Shared.loadStorage_storeStorage (sh : Shared ι ν α) (v w : ν) (x : VarStorage α) :
    (sh.storeStorage v x).loadStorage w = if w = v then x else sh.loadStorage w := by
  by_cases h : w = v
  · subst h
    simp [loadStorage, storeStorage]
  · simp [loadStorage, storeStorage, h]

omit [DecidableEq ι] in
@[simp] theorem Shared.loadStorage_storeVersion (sh : Shared ι ν α) (v w : ν) (e : Epoch) :
    (sh.storeVersion v e).loadStorage w = sh.loadStorage w := by
  by_cases h : w = v
  · subst h
    simp [loadStorage, storeVersion]
  · simp [loadStorage, storeVersion, h]

/-! ## 3. The step -/

section Step

variable {cfg : Config ι ν α} {s : Sys ι ν α} {t : ι} {sh' : Shared ι ν α} {th' : Thread ι ν α}

/-- The thread does nothing to `v` that the invariant sees. -/
structure SameAt (s : Sys ι ν α) (t : ι) (sh' : Shared ι ν α) (th' : Thread ι ν α) (v : ν) :
    Prop where
  storage : sh'.loadStorage v = s.shared.loadStorage v
  version : baseVersion (sh'.loadVersion v) = baseVersion (s.shared.loadVersion v)
  latest : latest sh'.hist.commits v = latest s.shared.hist.commits v
  preStored : ∀ e, e.destVar = v → (e ∈ th'.preStored ↔ e ∈ (s.threads t).preStored)
  publishing : th'.Publishing v ↔ (s.threads t).Publishing v
  publishVersion : th'.Publishing v → th'.publishVersion = (s.threads t).publishVersion

theorem SameAt.preStored_iff {v : ν} (h : SameAt s t sh' th' v) (u : ι) :
    ((s.after t sh' th').threads u).PreStored v ↔ (s.threads u).PreStored v :=
  Sys.forall_after (P := fun u th => th.PreStored v ↔ (s.threads u).PreStored v)
    ⟨fun ⟨e, he, hv⟩ => ⟨e, (h.preStored e hv).mp he, hv⟩,
      fun ⟨e, he, hv⟩ => ⟨e, (h.preStored e hv).mpr he, hv⟩⟩ (fun _ _ => Iff.rfl) u

theorem SameAt.publishing_iff {v : ν} (h : SameAt s t sh' th' v) (u : ι) :
    ((s.after t sh' th').threads u).Publishing v ↔ (s.threads u).Publishing v :=
  Sys.forall_after (P := fun u th => th.Publishing v ↔ (s.threads u).Publishing v)
    h.publishing (fun _ _ => Iff.rfl) u

/-- A var the step does nothing to. -/
theorem VarOk.of_same {v : ν} (h : VarOk cfg s v) (hs : SameAt s t sh' th' v) :
    VarOk cfg (s.after t sh' th') v where
  storage hn := by
    rw [Sys.shared_after, Shared.loadStorage_atTime, hs.storage, Shared.commits_atTime,
      latestStorage_of_eq hs.latest]
    exact h.storage fun u hu => hn u ((hs.preStored_iff u).mpr hu)
  preStored := by
    refine Sys.forall_after (P := fun _ th => ∀ e ∈ th.preStored, e.destVar = v →
      sh'.loadStorage v = e.pendingWrite) ?_ ?_
    · intro e he hv
      exact hs.storage.trans (h.preStored t e ((hs.preStored e hv).mp he) hv)
    · exact fun u _ e he hv => hs.storage.trans (h.preStored u e he hv)
  version hn := by
    rw [Sys.shared_after, Shared.loadVersion_atTime, hs.version, Shared.commits_atTime,
      latestVersion_of_eq hs.latest]
    exact h.version fun u hu => hn u ((hs.publishing_iff u).mpr hu)
  publishing := by
    refine Sys.forall_after (P := fun _ th => th.Publishing v →
      latestVersion sh'.hist.commits v = th.publishVersion) ?_ ?_
    · intro hp
      rw [latestVersion_of_eq hs.latest, hs.publishVersion hp]
      exact h.publishing t (hs.publishing.mp hp)
    · intro u _ hp
      rw [latestVersion_of_eq hs.latest]
      exact h.publishing u hp

omit [DecidableEq ι] in
theorem SameViews.sameAt (hv : SameViews (s.threads t) th') {v : ν}
    (h1 : sh'.loadStorage v = s.shared.loadStorage v)
    (h2 : baseVersion (sh'.loadVersion v) = baseVersion (s.shared.loadVersion v))
    (h3 : latest sh'.hist.commits v = latest s.shared.hist.commits v) :
    SameAt s t sh' th' v where
  storage := h1
  version := h2
  latest := h3
  preStored _ _ := by rw [hv.preStored]
  publishing := hv.publish v
  publishVersion := fun ⟨_, he, _⟩ => hv.publishVersion (List.ne_nil_of_mem he)

omit [DecidableEq ι] in
/-- A step between two places without stored entries or entries to publish. -/
theorem SameAt.of_nil {v : ν} (h1 : (s.threads t).preStored = []) (h2 : th'.preStored = [])
    (h3 : (s.threads t).publishing = []) (h4 : th'.publishing = [])
    (hs : sh'.loadStorage v = s.shared.loadStorage v)
    (hb : baseVersion (sh'.loadVersion v) = baseVersion (s.shared.loadVersion v))
    (hl : LockfreeStm.latest sh'.hist.commits v = LockfreeStm.latest s.shared.hist.commits v) :
    SameAt s t sh' th' v := by
  refine ⟨hs, hb, hl, fun e _ => by rw [h1, h2], ?_, ?_⟩
  · rw [Thread.Publishing, Thread.Publishing, h3, h4]
  · rintro ⟨e, he, _⟩
    rw [h4] at he
    cases he

omit [DecidableEq ν] in
/-- Entries of pairwise different vars: one var, one place. -/
theorem eq_of_destVar_eq {l : List (WriteSetValueType ν (VarStorage α))}
    (hn : (l.map (·.destVar)).Nodup) {i j : Nat} {e e' : WriteSetValueType ν (VarStorage α)}
    (hi : l[i]? = some e) (hj : l[j]? = some e') (h : e.destVar = e'.destVar) : i = j := by
  have hlt : i < (l.map (·.destVar)).length := by
    rw [List.length_map]
    exact (List.getElem?_eq_some_iff.mp hi).1
  refine (List.getElem?_inj hlt hn).mp ?_
  rw [List.getElem?_map, List.getElem?_map, hi, hj, Option.map_some, Option.map_some, h]

/-- `do_writes` stores the pending storage of an entry. -/
theorem VarOk.store {i : Nat} {e : WriteSetValueType ν (VarStorage α)} (hl : Locks s)
    (h : ∀ v, VarOk cfg s v) (hpc : (s.threads t).pc = .doWrites i)
    (he : (s.threads t).td.writeSet.entries[i]? = some e) (v : ν) :
    VarOk cfg (s.after t (s.shared.storeStorage e.destVar e.pendingWrite)
      ((s.threads t).goto (.doWrites (i + 1)))) v := by
  have hpre := preStored_store hpc he
  have hheld : (s.threads t).held = (s.threads t).entries := by rw [Thread.held, hpc]
  have hin : (s.threads t).Holds e.destVar := ⟨e, by rw [hheld]; exact List.mem_of_getElem? he, rfl⟩
  have hpub : (s.threads t).publishing = [] := by simp [Thread.publishing, hpc]
  by_cases hv : v = e.destVar
  · subst hv
    refine ⟨fun hn => absurd ?_ (hn t), ?_, fun hn => ?_, ?_⟩
    · rw [Sys.threads_after_self]
      exact ⟨e, by rw [hpre]; simp, rfl⟩
    · refine Sys.forall_after (P := fun _ th => ∀ e' ∈ th.preStored, e'.destVar = e.destVar →
        (s.shared.storeStorage e.destVar e.pendingWrite).loadStorage e.destVar = e'.pendingWrite)
        ?_ ?_
      · intro e' he' hv'
        rw [hpre, List.mem_append, List.mem_singleton] at he'
        rw [Shared.loadStorage_storeStorage, if_pos rfl]
        rcases he' with he' | rfl
        · -- two entries of one var: the thread would hold it twice
          obtain ⟨j, hj⟩ := List.mem_iff_getElem?.mp he'
          rw [Thread.preStored, hpc, List.getElem?_take] at hj
          split at hj
          · have hij := eq_of_destVar_eq (hheld ▸ hl.nodup t) hj he hv'
            omega
          · cases hj
        · rfl
      · intro u hu e' he' hv'
        exact absurd (hl.unique u t _ (Thread.PreStored.holds ⟨e', he', hv'⟩) hin) hu
    · rw [Sys.shared_after, Shared.loadVersion_atTime, Shared.loadVersion_storeStorage]
      refine (h e.destVar).version fun u hu => absurd hu ?_
      by_cases hut : u = t
      · rw [hut, Thread.Publishing, hpub]
        rintro ⟨_, hm, _⟩
        cases hm
      · have := hn u
        rwa [Sys.threads_after_ne s hut] at this
    · refine Sys.forall_after (P := fun _ th => th.Publishing e.destVar →
        latestVersion s.shared.hist.commits e.destVar = th.publishVersion) ?_ ?_
      · rintro ⟨_, hm, _⟩
        cases hm
      · intro u _ hp
        exact (h e.destVar).publishing u hp
  · refine (h v).of_same ⟨?_, ?_, rfl, fun e' hv' => ?_, ?_, ?_⟩
    · rw [Shared.loadStorage_storeStorage, if_neg hv]
    · rw [Shared.loadVersion_storeStorage]
    · rw [hpre, List.mem_append, List.mem_singleton]
      exact or_iff_left (by rintro rfl; exact hv hv'.symm)
    · rw [Thread.Publishing, Thread.Publishing, hpub]
      rfl
    · rintro ⟨_, hm, _⟩
      cases hm

/-- The clock bump turns the stored entries into a commit that is still to be published. -/
theorem VarOk.bump (hl : Locks s) (h : ∀ v, VarOk cfg s v) (hpc : (s.threads t).pc = .bumpClock)
    (v : ν) :
    VarOk cfg (s.after t ({ s.shared with clock := s.shared.clock + bumpSize }.noteCommit
      (commitRecord { s.shared with clock := s.shared.clock + bumpSize } t (s.threads t)
        (s.shared.clock + bumpSize) (s.threads t).att.point s.opened))
      ((s.threads t).goto (.publish 0 s.shared.clock))) v := by
  have hpre : (s.threads t).preStored = (s.threads t).entries := by rw [Thread.preStored, hpc]
  have hheld : (s.threads t).held = (s.threads t).entries := by rw [Thread.held, hpc]
  have hpub : (s.threads t).publishing = [] := by simp [Thread.publishing, hpc]
  by_cases hv : ∃ e ∈ (s.threads t).entries, e.destVar = v
  · obtain ⟨w, hw⟩ := commitRecord_put_of_mem
      { s.shared with clock := s.shared.clock + bumpSize } t (s.shared.clock + bumpSize)
      (s.threads t).att.point s.opened hv
    obtain ⟨e, he, hev, hstor⟩ := commitRecord_put hw
    have hlat : latest (_ :: s.shared.hist.commits) v = some (_, w) :=
      WriteLog.latest_cons_some hw
    have hin : (s.threads t).Holds v := ⟨e, hheld ▸ he, hev⟩
    refine ⟨fun _ => ?_, ?_, fun hn => absurd ?_ (hn t), ?_⟩
    · refine ((h v).preStored t e (hpre ▸ he) hev).trans ?_
      rw [← hstor]
      exact (latestStorage_of_some hlat).symm
    · intro u e' he' hv'
      by_cases hu : u = t
      · rw [hu, Sys.threads_after_self] at he'
        cases he'
      · rw [Sys.threads_after_ne s hu] at he'
        exact absurd (hl.unique u t _ (Thread.PreStored.holds ⟨e', he', hv'⟩) hin) hu
    · rw [Sys.threads_after_self]
      exact ⟨e, he, hev⟩
    · intro u hp
      by_cases hu : u = t
      · rw [hu, Sys.threads_after_self]
        exact latestVersion_of_some hlat
      · rw [Sys.threads_after_ne s hu] at hp
        exact absurd (hl.unique u t _ hp.holds hin) hu
  · refine (h v).of_same ⟨rfl, rfl, ?_, fun e hev => ?_, ?_, ?_⟩
    · exact WriteLog.latest_cons_none (WriteLog.not_writes.mp fun hw => hv (commitRecord_writes.mp hw))
    · rw [hpre]
      exact ⟨fun he => absurd he List.not_mem_nil, fun he => absurd ⟨e, he, hev⟩ hv⟩
    · refine ⟨fun hp => absurd hp hv, ?_⟩
      rintro ⟨e, he, _⟩
      rw [hpub] at he
      cases he
    · exact fun hp => absurd hp hv

/-- `publish` gives a var the version of its commit. -/
theorem VarOk.publish {i : Nat} {sync : Epoch} {e : WriteSetValueType ν (VarStorage α)}
    (ha : Active cfg s) (hl : Locks s) (h : ∀ v, VarOk cfg s v)
    (hpc : (s.threads t).pc = .publish i sync)
    (he : (s.threads t).td.writeSet.entries[i]? = some e) (v : ν) :
    VarOk cfg (s.after t (s.shared.storeVersion e.destVar (sync + bumpSize))
      ((s.threads t).goto (.publish (i + 1) sync))) v := by
  have hcons := publishing_publish hpc he
  have hpre : (s.threads t).preStored = [] := by simp [Thread.preStored, hpc]
  have hver : (s.threads t).publishVersion = sync + bumpSize := by rw [Thread.publishVersion, hpc]
  have hheld := held_publish hpc he
  by_cases hv : v = e.destVar
  · subst hv
    have hno : ∀ u, ¬ ((s.after t (s.shared.storeVersion e.destVar (sync + bumpSize))
        ((s.threads t).goto (.publish (i + 1) sync))).threads u).Holds e.destVar :=
      hl.not_holds_after hheld
    refine ⟨fun hn => ?_, ?_, fun _ => ?_, fun u hu => absurd hu.holds (hno u)⟩
    · rw [Sys.shared_after, Shared.loadStorage_atTime, Shared.loadStorage_storeVersion]
      refine (h e.destVar).storage fun u hu => ?_
      by_cases hut : u = t
      · rw [hut, Thread.PreStored, hpre] at hu
        obtain ⟨_, hm, _⟩ := hu
        cases hm
      · exact hn u (by rwa [Sys.threads_after_ne s hut])
    · intro u e' he' hv'
      exact absurd (Thread.PreStored.holds ⟨e', he', hv'⟩) (hno u)
    · rw [Sys.shared_after, Shared.loadVersion_atTime, Shared.loadVersion_storeVersion, if_pos rfl,
        baseVersion_of_lt (lt_of_le_of_lt (hl.sync hpc) (ha.clock_lt.trans maxVersion_lt)), ← hver]
      exact ((h e.destVar).publishing t ⟨e, hcons ▸ List.mem_cons_self, rfl⟩).symm
  · refine (h v).of_same ⟨?_, ?_, rfl, fun e' _ => ?_, ?_, fun _ => hver.symm⟩
    · rw [Shared.loadStorage_storeVersion]
    · rw [Shared.loadVersion_storeVersion, if_neg hv]
    · rw [hpre]
      exact Iff.rfl
    · rw [Thread.Publishing, Thread.Publishing, hcons]
      simp only [List.mem_cons, exists_eq_or_imp]
      exact (or_iff_right fun hev => hv hev.symm).symm

/-- A step keeps what the vars hold right. -/
theorem VarOk.step (ha : Active cfg s) (hl : Locks s) (h : ∀ v, VarOk cfg s v)
    (hm : Effect s.shared t (s.threads t) s.opened sh' th') (v : ν) :
    VarOk cfg (s.after t sh' th') v := by
  have hlt : ∀ {b}, b ≤ s.shared.clock → b < lockBit := fun hb =>
    lt_of_le_of_lt hb (ha.clock_lt.trans maxVersion_lt)
  cases hm with
  | quiet hs hv =>
      exact (h v).of_same (hv.sameAt (by rw [Shared.loadStorage, hs.vars]; rfl)
        (by rw [hs.loadVersion]) (by rw [hs.commits]))
  | commitEmpty hpc he =>
      obtain ⟨_, h2, h3⟩ := (s.threads t).views_of_outside (by rw [hpc]; rfl)
      refine (h v).of_same (.of_nil h2 rfl h3 rfl rfl rfl ?_)
      exact WriteLog.latest_cons_none (Commit.put_of_empty (by simp [commitRecord, he]) v)
  | lock i e hpc he =>
      refine (h v).of_same (.of_nil (by simp [Thread.preStored, hpc]) rfl
        (by simp [Thread.publishing, hpc]) rfl (by rw [Shared.loadStorage_storeVersion]) ?_ rfl)
      rw [Shared.loadVersion_storeVersion]
      split
      · rename_i hv
        have hb := hlt (hl.not_holds_of_cas ha hpc).1
        rw [hv, baseVersion_asLocked hb, baseVersion_of_lt hb]
      · rfl
  | unlock i last buf e hpc he =>
      refine (h v).of_same (.of_nil (by simp [Thread.preStored, hpc]) rfl
        (by simp [Thread.publishing, hpc]) rfl (by rw [Shared.loadStorage_storeVersion]) ?_ rfl)
      rw [Shared.loadVersion_storeVersion]
      split
      · rename_i hv
        obtain ⟨e', he', hi, hbuf⟩ := hl.unlockBuf hpc
        obtain rfl : e = e' := Option.some.inj (he.symm.trans he')
        obtain ⟨b, hb, hw⟩ := hl.of_holds (t := t)
          ((holds_cons (held_unlock hpc hi he) _).mpr (Or.inl rfl))
        rw [hv, ← hbuf, hw, flipLock_asLocked (hlt hb), baseVersion_of_lt (hlt hb),
          baseVersion_asLocked (hlt hb)]
      · rfl
  | store i e hpc he => exact .store hl h hpc he v
  | bump hpc hc => exact .bump hl h hpc v
  | publish i sync e hpc he => exact .publish ha hl h hpc he v

/-- **A step keeps the commits and the vars right.** -/
theorem Commits.step (h : Commits cfg s) (ha : Active cfg s) (hl : Locks s)
    (hm : Effect s.shared t (s.threads t) s.opened sh' th') : Commits cfg (s.after t sh' th') := by
  refine ⟨?_, ?_, VarOk.step ha hl h.var hm⟩
  · cases hm with
    | quiet hs => rw [Sys.shared_after, Shared.commits_atTime, hs.commits]; exact h.sorted
    | commitEmpty hpc he =>
        refine List.pairwise_cons.mpr ⟨fun c _ hne => absurd ?_ hne, h.sorted⟩
        simp [commitRecord, he]
    | bump =>
        exact List.pairwise_cons.mpr ⟨fun c hc _ => Nat.lt_succ_of_le (h.le_clock c hc), h.sorted⟩
    | _ => exact h.sorted
  · cases hm with
    | quiet hs =>
        rw [Sys.shared_after, Shared.commits_atTime, hs.commits, Shared.clock_atTime, hs.clock]
        exact h.le_clock
    | commitEmpty => exact List.forall_mem_cons.mpr ⟨Nat.zero_le _, h.le_clock⟩
    | bump =>
        exact List.forall_mem_cons.mpr ⟨Nat.le_refl _, fun c hc => Nat.le_succ_of_le (h.le_clock c hc)⟩
    | _ => exact h.le_clock

end Step

/-- **In every state reached the commits and the vars are right.** -/
theorem commits_reach {cfg : Config ι ν α} {ok : Request ν α → Prop} {s : Sys ι ν α}
    (h : Sys.Reach cfg ok s) : Commits cfg s := by
  refine h.induct ?_ fun hr ih _ hm => ih.step (active_reach hr) (locks_reach hr) hm.effect
  exact ⟨List.Pairwise.nil, fun _ hc => absurd hc List.not_mem_nil, fun v =>
    ⟨fun _ => rfl, fun _ _ he => absurd he List.not_mem_nil,
      fun _ => baseVersion_of_lt (show 0 < lockBit by decide), fun _ ⟨_, he, _⟩ => absurd he List.not_mem_nil⟩⟩

/-! ## 4. What an unlocked var holds -/

section Unlocked

variable {cfg : Config ι ν α} {s : Sys ι ν α} {v : ν}

omit [DecidableEq ι] in
/-- A version that is not above the clock is the version of the latest commit. -/
theorem Commits.version_eq (h : Commits cfg s) (ha : Active cfg s)
    (hn : ∀ u, ¬ (s.threads u).Holds v) (hv : s.shared.loadVersion v ≤ s.shared.clock) :
    s.shared.loadVersion v = latestVersion s.shared.hist.commits v := by
  rw [← (h.var v).version fun u hu => hn u hu.holds,
    baseVersion_of_lt (lt_of_le_of_lt hv (ha.clock_lt.trans maxVersion_lt))]

omit [DecidableEq ι] in
/-- **A var nobody holds has the version and the storage of the latest commit that wrote it.** -/
theorem Commits.unlocked (h : Commits cfg s) (ha : Active cfg s) (hl : Locks s)
    (hn : ∀ u, ¬ (s.threads u).Holds v) :
    s.shared.loadVersion v = latestVersion s.shared.hist.commits v ∧
      s.shared.loadStorage v = latestStorage cfg s.shared.hist.commits v := by
  refine ⟨?_, (h.var v).storage fun u hu => hn u hu.holds⟩
  obtain ⟨b, hb, ⟨e, _⟩ | ⟨_, u, hu⟩⟩ := hl.word v
  · exact h.version_eq ha hn (e ▸ hb)
  · exact absurd hu (hn u)

end Unlocked

/-! ## 5. What a lock keeps -/

section Locked

variable {cfg : Config ι ν α} {s : Sys ι ν α} {t : ι} {req : Option (Request ν α)}
  {sh' : Shared ι ν α} {th' : Thread ι ν α}

/-- A var that a thread holds and has not committed has no version above the thread's. -/
def Locked (s : Sys ι ν α) (th : Thread ι ν α) : Prop :=
  ∀ v, th.Holds v → ¬ th.Publishing v → latestVersion s.shared.hist.commits v ≤ th.version

omit [DecidableEq ι] in
/-- A commit of another thread does not write what this one holds. -/
theorem latest_of_held (hl : Locks s) (hm : Effect s.shared t (s.threads t) s.opened sh' th') {u : ι}
    (hu : u ≠ t) {v : ν} (hv : (s.threads u).Holds v) :
    latest sh'.hist.commits v = latest s.shared.hist.commits v := by
  cases hm with
  | quiet hs => rw [hs.commits]
  | commitEmpty hpc he =>
      exact WriteLog.latest_cons_none (Commit.put_of_empty (by simp [commitRecord, he]) v)
  | bump hpc =>
      refine WriteLog.latest_cons_none (WriteLog.not_writes.mp fun hw => hu (hl.unique u t v hv ?_))
      obtain ⟨e, he, hev⟩ := commitRecord_writes.mp hw
      exact ⟨e, by rw [Thread.held, hpc]; exact he, hev⟩
  | _ => rfl

/-- A thread's own step keeps what its locks keep. -/
theorem Locked.step (h : Locked s (s.threads t)) (hc : Commits cfg s) (ha : Active cfg s) (hl : Locks s)
    (hm : Move cfg s.shared t (s.threads t) s.opened req sh' th') : Locked (s.after t sh' th') th' := by
  intro v hv hp
  show latestVersion sh'.hist.commits v ≤ th'.version
  have old : ∀ {th' : Thread ι ν α}, th'.version = (s.threads t).version → (s.threads t).Holds v →
      ¬ (s.threads t).Publishing v → latestVersion s.shared.hist.commits v ≤ th'.version :=
    fun e hv hp => e ▸ h v hv hp
  cases hm.effect with
  | quiet hs hview =>
      rw [hs.commits]
      have hv := (hview.holds v).mp hv
      refine old (ha.version_eq hm fun hpc => ?_) hv fun hp' => hp ((hview.publish v).mpr hp')
      obtain ⟨e, he, _⟩ := hv
      rw [((s.threads t).views_of_outside (by rw [hpc]; rfl)).1] at he
      cases he
  | commitEmpty =>
      obtain ⟨e, he, _⟩ := hv
      cases he
  | lock i e hpc he =>
      rcases (holds_concat (held_lock hpc he) v).mp hv with hv | rfl
      · exact old rfl hv fun ⟨e, he, _⟩ => by simp [Thread.publishing, hpc] at he
      · show latestVersion s.shared.hist.commits _ ≤ (s.threads t).version
        rw [← (hc.unlocked ha hl (hl.not_holds_of_cas ha hpc).2).1]
        exact hl.casBuf hpc
  | unlock i last buf e hpc he =>
      obtain ⟨_, _, hi, _⟩ := hl.unlockBuf hpc
      exact old rfl ((holds_cons (held_unlock hpc hi he) v).mpr (Or.inr hv))
        fun ⟨e, he, _⟩ => by simp [Thread.publishing, hpc] at he
  | store i e hpc he =>
      rw [Thread.Holds, held_store hpc] at hv
      exact old rfl hv fun ⟨e, he, _⟩ => by simp [Thread.publishing, hpc] at he
  | bump => exact absurd hv hp
  | publish => exact absurd hv hp

/-- **In every state reached a var a thread holds has a version of at most the thread's**, until the
    thread commits it. -/
theorem locked_reach {ok : Request ν α → Prop} (h : Sys.Reach cfg ok s) (t : ι) :
    Locked s (s.threads t) := by
  revert t
  refine h.induct (P := fun s => ∀ t, Locked s (s.threads t))
    (fun _ _ ⟨_, he, _⟩ => absurd he List.not_mem_nil) ?_
  intro s t req sh' th' hr ih _ hm
  refine Sys.forall_after (P := fun _ th => Locked (s.after t sh' th') th)
    ((ih t).step (commits_reach hr) (active_reach hr) (locks_reach hr) hm) fun u hu v hv hp => ?_
  show latestVersion sh'.hist.commits v ≤ _
  rw [latestVersion_of_eq (latest_of_held (locks_reach hr) hm.effect hu hv)]
  exact ih u v hv hp

end Locked

end LockfreeStm
