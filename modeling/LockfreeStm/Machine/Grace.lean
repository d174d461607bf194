/-
  File:      LockfreeStm/Machine/Grace.lean
  Subject:   RECLAMATION WAITS FOR THE READERS.

  A thread is exposed to a success callback while it is still inside the attempt it was in when the
  transaction of the callback bumped the clock: only then can it have loaded what the callback destroys.
  A thread announces its version after it has read the clock and before it loads anything, so the version of
  an exposed thread is at most the epoch the callback is due under (`Exposure`). The scan of `wait_min_epoch`
  visits one thread after another while all of them move on; a thread it has passed, or waited for, can be
  in a section that has been open since a commit only at an epoch above the one it waits for, and not below
  the minimum it returns (`ScanOk`).

  * `exposure_reach`, `scan_reach` -- both hold in every state reached.
  * `reclaim_grace` -- **the main result**: when reclamation behind a commit destroys a storage, no other
    thread is in an attempt that has loaded it.
-/
import LockfreeStm.Machine.Due

namespace LockfreeStm

variable {ι ν α : Type} [DecidableEq ι] [DecidableEq ν]

/-! ## 1. Exposure -/

/-- Thread `u` is still inside the attempt it was in when the transaction of thread `t` that registered `cb`
    bumped the clock. -/
def Exposed (s : Sys ι ν α) (t : ι) (cb : GpCallback ν α) (u : ι) : Prop :=
  (s.threads u).pc.isOpen = true ∧ ∃ c ∈ s.shared.hist.commits, c.tid = t ∧ c.attempt = cb.attempt ∧
    c.writes ≠ [] ∧ c.opened u = some (s.threads u).att.number

/-- Thread `u` is still inside the attempt it was in at a commit that satisfies `P`, of the attempt of
    thread `t` that registered `cb`. -/
def OpenSince (P : Commit ι ν α → Prop) (s : Sys ι ν α) (t : ι) (cb : GpCallback ν α) (u : ι) : Prop :=
  (s.threads u).pc.isOpen = true ∧ ∃ c ∈ s.shared.hist.commits, c.tid = t ∧ c.attempt = cb.attempt ∧
    P c ∧ c.opened u = some (s.threads u).att.number

/-- Exposed threads are at versions up to the epoch the callback is queued under. -/
def ExposedUpTo (s : Sys ι ν α) : Prop :=
  ∀ t e cb u, (s.threads t).InQueue e cb → Exposed s t cb u → (s.threads u).version ≤ e

/-- What exposed threads satisfy. -/
structure Exposure (s : Sys ι ν α) : Prop where
  version_le : ExposedUpTo s
  loaded : ∀ t e cb u st, (s.threads t).Due e cb → cb.action = .destroyDeallocate st →
    (s.threads u).pc.isOpen = true → st ∈ (s.threads u).att.loaded → Exposed s t cb u
  fresh : ∀ u, (s.threads u).pc = .accessLock → (s.threads u).att.loaded = []

section Step

variable {cfg : Config ι ν α} {s : Sys ι ν α} {t : ι} {req : Option (Request ν α)}
  {sh' : Shared ι ν α} {th' : Thread ι ν α}

/-- A thread that is open after the step was open before, or has just read the clock. -/
theorem Move.open_before (hm : Move cfg s.shared t (s.threads t) s.opened req sh' th') {u : ι}
    (h : ((s.after t sh' th').threads u).pc.isOpen = true) :
    (s.threads u).pc.isOpen = true ∨ u = t ∧ (s.threads u).pc = .accessLock := by
  by_cases hu : u = t
  · subst hu
    rw [Sys.threads_after_self] at h
    exact (hm.opens h).imp_right fun hpc => ⟨rfl, hpc⟩
  · rw [Sys.threads_after_ne s hu] at h
    exact Or.inl h

/-- It is in the attempt it was in, at the same version. -/
theorem Move.same_of_open (ha : Active cfg s)
    (hm : Move cfg s.shared t (s.threads t) s.opened req sh' th') {u : ι}
    (h : ((s.after t sh' th').threads u).pc.isOpen = true) :
    ((s.after t sh' th').threads u).att.number = (s.threads u).att.number ∧
      ((s.after t sh' th').threads u).version = (s.threads u).version := by
  have hg : (s.threads u).pc ≠ .getClock := by
    rcases hm.open_before h with ho | ⟨_, hpc⟩
    · rintro e
      rw [e] at ho
      cases ho
    · rw [hpc]
      exact fun h => by cases h
  by_cases hu : u = t
  · subst hu
    rw [Sys.threads_after_self]
    refine ⟨?_, ha.version_eq hm hg⟩
    rcases hm.number with ⟨_, hn⟩ | ⟨e, _⟩
    · exact hn
    · exact absurd e hg
  · rw [Sys.threads_after_ne s hu]
    exact ⟨rfl, rfl⟩

theorem Move.commits_mono (hm : Move cfg s.shared t (s.threads t) s.opened req sh' th') :
    s.shared.hist.commits ⊆ sh'.hist.commits := by
  cases hm.effect with
  | quiet hs => exact hs.commits ▸ List.Subset.refl _
  | commitEmpty | bump => exact List.subset_cons_self ..
  | _ => exact List.Subset.refl _

/-- **No step opens a section that has been open since the commit of a callback in the queue.** -/
theorem OpenSince.before {P : Commit ι ν α → Prop} (hn : Numbered s) (ha : Active cfg s)
    (hm : Move cfg s.shared t (s.threads t) s.opened req sh' th') {v u : ι} {e : Epoch} {cb : GpCallback ν α}
    (hd : (s.threads v).InQueue e cb) (h : OpenSince P (s.after t sh' th') v cb u) : OpenSince P s v cb u := by
  obtain ⟨hopen, c, hc, htid, hatt, hw, hop⟩ := h
  rw [(hm.same_of_open ha hopen).1] at hop
  have hold : c ∈ s.shared.hist.commits := by
    refine (hm.commits_mem hc).resolve_right fun ⟨htid', hatt', _, hp, _⟩ => ?_
    obtain rfl := htid'.symm.trans htid
    exact (hn.due _ e cb hd).2 hp (hatt.symm.trans hatt')
  refine ⟨?_, c, hold, htid, hatt, hw, hop⟩
  refine (hm.open_before hopen).resolve_right fun ⟨_, hpc⟩ => ?_
  exact (hn.opened c hold u _ hop).2 hpc rfl

/-- A thread that stays open stays open since. -/
theorem OpenSince.after {P : Commit ι ν α → Prop} (ha : Active cfg s)
    (hm : Move cfg s.shared t (s.threads t) s.opened req sh' th') {v u : ι} {cb : GpCallback ν α}
    (h : OpenSince P s v cb u) (ho : ((s.after t sh' th').threads u).pc.isOpen = true) :
    OpenSince P (s.after t sh' th') v cb u := by
  obtain ⟨_, c, hc, hrest⟩ := h
  refine ⟨ho, c, hm.commits_mono hc, ?_⟩
  rwa [(hm.same_of_open ha ho).1]

/-- **No step exposes a thread to a callback in the queue.** -/
theorem Exposed.before (hn : Numbered s) (ha : Active cfg s)
    (hm : Move cfg s.shared t (s.threads t) s.opened req sh' th') {v u : ι} {e : Epoch} {cb : GpCallback ν α}
    (hd : (s.threads v).InQueue e cb) (h : Exposed (s.after t sh' th') v cb u) : Exposed s v cb u :=
  OpenSince.before (P := fun c => c.writes ≠ []) hn ha hm hd h

/-- A thread that stays open stays exposed. -/
theorem Exposed.after (ha : Active cfg s) (hm : Move cfg s.shared t (s.threads t) s.opened req sh' th')
    {v u : ι} {cb : GpCallback ν α} (h : Exposed s v cb u)
    (ho : ((s.after t sh' th').threads u).pc.isOpen = true) : Exposed (s.after t sh' th') v cb u :=
  OpenSince.after (P := fun c => c.writes ≠ []) ha hm h ho

/-- What is due after a step was due before, or belongs to the commit. -/
theorem Move.due_after (hb : Books (s.threads t)) (hm : Move cfg s.shared t (s.threads t) s.opened req sh' th')
    {v : ι} {e : Epoch} {cb : GpCallback ν α} (hd : ((s.after t sh' th').threads v).Due e cb) :
    (s.threads v).Due e cb ∨ v = t ∧ cb ∈ (s.threads t).att.regSucc ∧
      ((s.threads t).pc = .bumpClock ∧ e = s.shared.clock ∨
        (s.threads t).pc = .tryCommit ∧ (s.threads t).td.writeSet.entries = [] ∧ e = 0) := by
  by_cases hv : v = t
  · subst hv
    rw [Sys.threads_after_self] at hd
    exact (hm.due hb hd).imp_right fun ⟨h1, _, h2⟩ => ⟨rfl, h1, h2⟩
  · rw [Sys.threads_after_ne s hv] at hd
    exact Or.inl hd

/-- What is in a queue after a step was in it before, or belongs to the commit. -/
theorem Move.inQueue_after (hb : Books (s.threads t))
    (hm : Move cfg s.shared t (s.threads t) s.opened req sh' th') {v : ι} {e : Epoch} {cb : GpCallback ν α}
    (hd : ((s.after t sh' th').threads v).InQueue e cb) :
    (s.threads v).InQueue e cb ∨ v = t ∧ cb ∈ (s.threads t).att.regSucc ∧
      ((s.threads t).pc = .bumpClock ∧ e = s.shared.clock ∨
        (s.threads t).pc = .tryCommit ∧ (s.threads t).td.writeSet.entries = [] ∧ e = 0) := by
  by_cases hv : v = t
  · subst hv
    rw [Sys.threads_after_self] at hd
    exact (hm.inQueue hb hd).imp_right fun ⟨h1, _, h2⟩ => ⟨rfl, h1, h2⟩
  · rw [Sys.threads_after_ne s hv] at hd
    exact Or.inl hd

/-- The storages a thread has loaded in its attempt. -/
theorem Move.loaded (hm : Move cfg s.shared t (s.threads t) s.opened req sh' th') :
    th'.att.loaded = (s.threads t).att.loaded ∨ (s.threads t).pc = .getClock ∧ th'.att.loaded = [] ∨
      ∃ v, th'.att.loaded = s.shared.loadStorage v :: (s.threads t).att.loaded ∧
        (s.threads t).pc.inBody = true := by
  cases hm with
  | getClock hpc => exact Or.inr (Or.inl ⟨hpc, rfl⟩)
  | readStorage path v hpc => exact Or.inr (Or.inr ⟨v, rfl, by rw [hpc]; rfl⟩)
  | curStorage v st hpc => exact Or.inr (Or.inr ⟨v, rfl, by rw [hpc]; rfl⟩)
  | slowStorage v x hpc => exact Or.inr (Or.inr ⟨v, rfl, by rw [hpc]; rfl⟩)
  | readReturns path v result =>
      refine Or.inl ?_
      show (((s.threads t).pushRead path v).noteRead v _).att.loaded = _
      rw [← att_pushRead (s.threads t) path v]
      unfold Thread.noteRead
      split <;> rfl
  | success => exact Or.inl (congrArg _ (att_reclaim ..))
  | failureReadOnly => exact Or.inl (congrArg _ (att_afterFailure ..))
  | failDone => exact Or.inl (congrArg _ (att_afterFailure ..))
  | _ => exact Or.inl rfl

omit [DecidableEq ι] in
/-- An attempt without an entry in its write set has registered no callback that destroys. -/
theorem Registered.destroys_nothing (h : Registered cfg s t (s.threads t))
    (he : (s.threads t).registered = []) : storages (s.threads t).att.regSucc = [] := by
  have hs := h.succs
  rw [he] at hs
  rw [← storages_bySet h.plain.2, List.forall₂_nil_right_iff.mp hs]
  rfl

/-- The commit a clock bump adds. -/
theorem Move.commits_bump (hm : Move cfg s.shared t (s.threads t) s.opened req sh' th')
    (hpc : (s.threads t).pc = .bumpClock) :
    ∃ c, sh'.hist.commits = c :: s.shared.hist.commits ∧ c.tid = t ∧ c.attempt = (s.threads t).att.number ∧
      c.opened = s.opened ∧ ((s.threads t).td.writeSet.entries ≠ [] → c.writes ≠ []) := by
  cases hm with
  | bump => exact ⟨_, rfl, rfl, rfl, rfl, fun he => by simpa [commitRecord] using he⟩
  | goto pc' hin =>
      rw [hpc] at hin
      cases hin
  | _ => simp_all

/-- The commit of the callbacks a transaction has registered: its write set was empty, or every thread that
    is in an attempt is exposed to them. -/
theorem exposed_bump (ha : Active cfg s) (hn : Numbered s)
    (hm : Move cfg s.shared t (s.threads t) s.opened req sh' th') (hpc : (s.threads t).pc = .bumpClock)
    (hne : (s.threads t).td.writeSet.entries ≠ []) {cb : GpCallback ν α}
    (hcb : cb ∈ (s.threads t).att.regSucc) {u : ι}
    (ho : ((s.after t sh' th').threads u).pc.isOpen = true) : Exposed (s.after t sh' th') t cb u := by
  have hopen : (s.threads u).pc.isOpen = true := by
    refine (hm.open_before ho).resolve_right fun ⟨hu, hal⟩ => ?_
    rw [hu, hpc] at hal
    cases hal
  have hnum := (hm.same_of_open ha ho).1
  refine ⟨ho, ?_⟩
  rw [hnum]
  obtain ⟨c, hc, htid, hatt, hop, hw⟩ := hm.commits_bump hpc
  refine ⟨c, List.mem_of_mem_head? (by rw [Sys.shared_after, Shared.commits_atTime, hc]; rfl), htid, ?_, hw hne, ?_⟩
  · exact hatt.trans (hn.registered t (by rw [hpc]; rfl) cb hcb).symm
  · rw [hop, ha.opened_eq, if_pos hopen]

/-- Nobody is exposed to the callbacks of a commit that writes nothing. -/
theorem not_exposed_tryCommit (hn : Numbered s) (hid : CommitIds s.shared.hist.commits t (s.threads t))
    (hm : Move cfg s.shared t (s.threads t) s.opened req sh' th') (hpc : (s.threads t).pc = .tryCommit)
    (he : (s.threads t).td.writeSet.entries = []) {cb : GpCallback ν α}
    (hcb : cb ∈ (s.threads t).att.regSucc) (u : ι) : ¬ Exposed (s.after t sh' th') t cb u := by
  rintro ⟨_, c, hc, htid, hatt, hw, _⟩
  have hp : (s.threads t).pc.phase = .attempt := by rw [hpc]; rfl
  rw [hn.registered t hp cb hcb] at hatt
  cases hm.effect with
  | quiet hs => exact hid.uncommitted (Or.inl hp) c (hs.commits ▸ hc) htid hatt
  | commitEmpty =>
      rcases List.mem_cons.mp hc with rfl | hc
      · exact hw (by simp [commitRecord, he])
      · exact hid.uncommitted (Or.inl hp) c hc htid hatt
  | bump hpc' =>
      rw [hpc] at hpc'
      cases hpc'
  | _ => exact hid.uncommitted (Or.inl hp) c hc htid hatt

/-- A step keeps exposed threads at versions up to the epoch. -/
theorem ExposedUpTo.step (h : ExposedUpTo s) (ha : Active cfg s) (hn : Numbered s) (hb : Books (s.threads t))
    (hid : CommitIds s.shared.hist.commits t (s.threads t))
    (hm : Move cfg s.shared t (s.threads t) s.opened req sh' th') : ExposedUpTo (s.after t sh' th') := by
  intro v e cb u hd hx
  rw [(hm.same_of_open ha hx.1).2]
  rcases hm.inQueue_after hb hd with hd | ⟨rfl, hcb, ⟨_, rfl⟩ | ⟨hpc, he, _⟩⟩
  · exact h v e cb u hd (hx.before hn ha hm hd)
  · exact ha.version_le u
  · exact absurd hx (not_exposed_tryCommit hn hid hm hpc he hcb u)

/-- **A step keeps exposed threads at versions up to the epoch, and what a thread has loaded from being
    destroyed.** -/
theorem Exposure.step (h : Exposure s) (ha : Active cfg s) (hn : Numbered s) (hb : Books (s.threads t))
    (hid : CommitIds s.shared.hist.commits t (s.threads t))
    (hreg : (s.threads t).pc.isPrivate = true → Registered cfg s t (s.threads t))
    (hleft : ∀ v u, s.shared.loadStorage v ∉ storages ((s.threads u).left.flatMap (·.callbacks)))
    (hm : Move cfg s.shared t (s.threads t) s.opened req sh' th') : Exposure (s.after t sh' th') where
  version_le := h.version_le.step ha hn hb hid hm
  loaded v e cb u st hd hact ho hst := by
    rcases hm.due_after hb hd with hd' | ⟨rfl, hcb, hpc⟩
    · have hopen : st ∈ (s.threads u).att.loaded → Exposed s v cb u := fun hst => by
        rcases hm.open_before ho with hu | ⟨_, hu⟩
        · exact h.loaded v e cb u st hd' hact hu hst
        · rw [h.fresh u hu] at hst
          cases hst
      refine Exposed.after ha hm (hopen ?_) ho
      by_cases hu : u = t
      · subst hu
        rw [Sys.threads_after_self] at hst ho
        rcases hm.loaded with hl | ⟨_, hl⟩ | ⟨w, hl, _⟩
        · exact hl ▸ hst
        · rw [hl] at hst
          cases hst
        · rw [hl] at hst
          refine (List.mem_cons.mp hst).resolve_left fun heq => hleft w v ?_
          exact heq ▸ mem_storages.mpr ⟨cb, hd'.mem, hact⟩
      · rwa [Sys.threads_after_ne s hu] at hst
    · have hp : (s.threads v).pc.isPrivate = true := by
        rcases hpc with ⟨hpc, _⟩ | ⟨hpc, _⟩ <;> rw [hpc] <;> rfl
      have hne : (s.threads v).td.writeSet.entries ≠ [] := by
        intro he
        have hreg' : (s.threads v).registered = [] := by
          rw [Thread.registered_eq, Thread.entries, he]
          rcases hpc with ⟨hpc, _⟩ | ⟨hpc, _⟩ <;> rw [hpc] <;> rfl
        have hmem := mem_storages.mpr ⟨cb, hcb, hact⟩
        rw [(hreg hp).destroys_nothing hreg'] at hmem
        cases hmem
      rcases hpc with ⟨hpc, _⟩ | ⟨_, he, _⟩
      · exact exposed_bump ha hn hm hpc hne hcb ho
      · exact absurd he hne
  fresh := by
    refine Sys.forall_after (P := fun _ th => th.pc = .accessLock → th.att.loaded = []) (fun hpc => ?_)
      fun u _ => h.fresh u
    have hg := hm.accessLock_cases hpc
    rcases hm.loaded with hl | ⟨_, hl⟩ | ⟨_, _, hin⟩
    · cases hm with
      | getClock => rfl
      | goto pc' hin =>
          rw [hg] at hin
          cases hin
      | _ => simp_all
    · exact hl
    · rw [hg] at hin
      cases hin

end Step

/-- **In every state reached exposed threads are as they should be.** -/
theorem exposure_reach {cfg : Config ι ν α} {ok : Request ν α → Prop} {s : Sys ι ν α}
    (h : Sys.Reach cfg ok s) : Exposure s := by
  refine h.induct ⟨?_, ?_, fun _ _ => rfl⟩ fun {s t _ _ _} hr ih _ hm =>
    ih.step (active_reach hr) (numbered_reach hr) (books_reach hr t) (commitIds_reach hr t)
      (registered_reach hr t) (loadStorage_not_left hr) hm
  · rintro _ _ _ _ ⟨_, hch, _⟩
    cases hch
  · rintro _ _ _ _ _ ⟨_, hch, _⟩
    cases hch

/-! ## 2. The scan -/

/-- The scan of thread `t` has passed thread `u`: a section that has been open since the commit of a callback
    of `t` has announced an epoch above the one waited for, and at least the minimum. -/
def Passed (s : Sys ι ν α) (t : ι) (epoch minEpoch : Epoch) (u : ι) : Prop :=
  ∀ e cb, (s.threads t).InQueue e cb → OpenSince (fun _ => True) s t cb u →
    epoch < (s.threads u).version ∧ minEpoch ≤ (s.threads u).version

/-- What the scan of thread `t` knows about the threads it has visited. -/
def ScanOk (s : Sys ι ν α) (t : ι) : Prop :=
  match (s.threads t).pc with
  | .waitMinEpoch _ epoch nodes result => ∀ u, u ∉ nodes → Passed s t epoch result u
  | .waitOnEpoch _ epoch node nodes result =>
      (∀ u, u ≠ node → u ∉ nodes → Passed s t epoch result u) ∧
      ∀ e cb, (s.threads t).InQueue e cb → OpenSince (fun _ => True) s t cb node →
        (s.threads node).version ≤ epoch
  | .succCallbacks _ epoch minEpoch _ => ∀ u, Passed s t epoch minEpoch u
  | _ => True

/-- The places of a scan and of the callbacks behind it. -/
def PC.isScanning : PC ι ν α → Bool
  | .waitMinEpoch _ _ _ _ | .waitOnEpoch _ _ _ _ _ | .succCallbacks _ _ _ _ => true
  | _ => false

omit [DecidableEq ι] [DecidableEq ν] in
theorem PC.not_scanning_of_inBody {pc : PC ι ν α} (h : pc.inBody = true) : pc.isScanning = false := by
  cases pc <;> first | rfl | cases h

section Scan

variable {cfg : Config ι ν α} {s : Sys ι ν α} {t : ι} {req : Option (Request ν α)}
  {sh' : Shared ι ν α} {th' : Thread ι ν α}

/-- A thread that has been passed stays so while no callback is queued. -/
theorem Passed.after (ha : Active cfg s) (hn : Numbered s)
    (hm : Move cfg s.shared t (s.threads t) s.opened req sh' th') {v u : ι} {epoch minEpoch : Epoch}
    (hdue : ∀ e cb, ((s.after t sh' th').threads v).InQueue e cb → (s.threads v).InQueue e cb)
    (h : Passed s v epoch minEpoch u) : Passed (s.after t sh' th') v epoch minEpoch u := by
  intro e cb hd hx
  rw [(hm.same_of_open ha hx.1).2]
  exact h e cb (hdue e cb hd) (hx.before hn ha hm (hdue e cb hd))

/-- A step of another thread keeps what a scan knows. -/
theorem ScanOk.step_ne {v : ι} (h : ScanOk s v) (ha : Active cfg s) (hn : Numbered s)
    (hm : Move cfg s.shared t (s.threads t) s.opened req sh' th') (hv : v ≠ t) :
    ScanOk (s.after t sh' th') v := by
  have hsame := Sys.threads_after_ne s hv sh' th'
  have hdue : ∀ e cb, ((s.after t sh' th').threads v).InQueue e cb → (s.threads v).InQueue e cb := fun e cb hd => by
    rwa [hsame] at hd
  unfold ScanOk at h ⊢
  rw [hsame]
  split
  all_goals simp only [*] at h
  · exact fun u hu => (h u hu).after ha hn hm hdue
  · refine ⟨fun u hu hu' => (h.1 u hu hu').after ha hn hm hdue, fun e cb hd hx => ?_⟩
    rw [(hm.same_of_open ha hx.1).2]
    exact h.2 e cb hd (hx.before hn ha hm hd)
  · exact fun u => (h u).after ha hn hm hdue
  · trivial

/-- **A step of the scanning thread: it passes a thread, starts to wait for one, or is done waiting.** -/
theorem ScanOk.step_self (h : ScanOk s t) (ha : Active cfg s) (hn : Numbered s)
    (hb : Books (s.threads t)) (hm : Move cfg s.shared t (s.threads t) s.opened req sh' th') :
    ScanOk (s.after t sh' th') t := by
  have hself := Sys.threads_after_self s t sh' th'
  -- outside the attempts no callback is queued
  have hdue : (s.threads t).pc.phase = .outside →
      ∀ e cb, ((s.after t sh' th').threads t).InQueue e cb → (s.threads t).InQueue e cb := by
    intro hp e cb hd
    refine (hm.inQueue_after hb hd).resolve_right ?_
    rintro ⟨_, _, ⟨hpc, _⟩ | ⟨hpc, _⟩⟩ <;> rw [hpc] at hp <;> cases hp
  have idle : th'.pc.isScanning = false → ScanOk (s.after t sh' th') t := by
    intro h
    unfold ScanOk
    rw [hself]
    cases hpc : th'.pc <;> rw [hpc] at h <;> trivial
  have start : ∀ {mode e m}, th'.pc = .waitMinEpoch mode e cfg.nodes m → ScanOk (s.after t sh' th') t := by
    intro mode e m hpc
    unfold ScanOk
    rw [hself, hpc]
    exact fun u hu => absurd (cfg.nodes_complete u) hu
  have hm' := hm
  cases hm with
  | reclaimNothing hpc => exact idle (by rw [hpc]; rfl)
  | reclaimAll ch => exact start rfl
  | goto pc' hin hout =>
      refine idle ?_
      rcases hout with h | ⟨_, rfl⟩ | rfl | ⟨rfl, _⟩
      · exact PC.not_scanning_of_inBody (PC.inBody_of_isEntry h)
      all_goals rfl
  | success sync hpc =>
      have hp := reclaim_outside cfg ((s.threads t).setTxState .none).clearReadWriteSets.clearFailCallbacks sync
      by_cases hw : ∃ e,
          (((s.threads t).setTxState .none).clearReadWriteSets.clearFailCallbacks.reclaim cfg sync).pc =
          .waitMinEpoch .reclaimAllPossible e cfg.nodes offState
      · exact start hw.choose_spec
      · have hi : (((s.threads t).setTxState .none).clearReadWriteSets.clearFailCallbacks.reclaim cfg sync).pc =
            .idle := by
          revert hw
          simp only [Thread.reclaim]
          split
          · split
            · exact fun hw => absurd ⟨_, rfl⟩ hw
            · exact fun _ => rfl
          · exact fun _ => rfl
        exact idle (by rw [hi]; rfl)
  | failureReadOnly exn => exact idle (by cases exn <;> rfl)
  | failDone exn => exact idle (by cases exn <;> rfl)
  | scanned mode epoch result hpc =>
      unfold ScanOk at h ⊢
      rw [hpc] at h
      rw [hself]
      exact fun u => (h u List.not_mem_nil).after ha hn hm' (hdue (by rw [hpc]; rfl))
  | scanWait mode epoch result u nodes hpc hact =>
      have hdue := hdue (by rw [hpc]; rfl)
      unfold ScanOk at h ⊢
      rw [hpc] at h
      rw [hself]
      refine ⟨fun w hw hw' => (h w (List.not_mem_cons_of_ne_of_not_mem hw hw')).after ha hn hm' hdue,
        fun e cb hd hxu => ?_⟩
      rw [← hself] at hd
      rw [(hm'.same_of_open ha hxu.1).2]
      exact ha.active_of_open (hxu.before hn ha hm' (hdue e cb hd)).1 ▸ hact
  | scanPass mode epoch result u nodes hpc hact =>
      have hdue := hdue (by rw [hpc]; rfl)
      unfold ScanOk at h ⊢
      rw [hpc] at h
      rw [hself]
      intro w hw e cb hd hxw
      rw [(hm'.same_of_open ha hxw.1).2]
      have hxw := hxw.before hn ha hm' (hdue e cb hd)
      by_cases hwu : w = u
      · rw [← ha.active_of_open hxw.1, hwu]
        exact ⟨hact, Nat.min_le_left _ _⟩
      · obtain ⟨h1, h2⟩ := h w (List.not_mem_cons_of_ne_of_not_mem hwu hw) e cb (hdue e cb hd) hxw
        exact ⟨h1, (Nat.min_le_right _ _).trans h2⟩
  | waitMore mode epoch result u nodes hpc hact =>
      have hdue := hdue (by rw [hpc]; rfl)
      unfold ScanOk at h ⊢
      rw [hpc] at h
      simp only [hself, hpc]
      refine ⟨fun w hw hw' => (h.1 w hw hw').after ha hn hm' hdue, fun e cb hd hxu => ?_⟩
      rw [(hm'.same_of_open ha hxu.1).2]
      rw [← hself] at hd
      exact h.2 e cb (hdue e cb hd) (hxu.before hn ha hm' (hdue e cb hd))
  | waitDone mode epoch result u nodes hpc hact =>
      have hdue := hdue (by rw [hpc]; rfl)
      unfold ScanOk at h ⊢
      rw [hpc] at h
      rw [hself]
      intro w hw e cb hd hxw
      rw [(hm'.same_of_open ha hxw.1).2]
      have hd' := hdue e cb hd
      have hxw := hxw.before hn ha hm' hd'
      by_cases hwu : w = u
      · -- the thread waited for is in a new attempt, or in none
        rw [hwu] at hxw
        have hle := h.2 e cb hd' hxw
        rw [← ha.active_of_open hxw.1] at hle
        exact absurd hact (Nat.not_lt_of_le hle)
      · exact h.1 w hwu hw e cb hd' hxw
  | succCallback mode epoch minEpoch i ch cb hpc hch hcb =>
      unfold ScanOk at h ⊢
      rw [hpc] at h
      rw [hself]
      exact fun u => (h u).after ha hn hm' (hdue (by rw [hpc]; rfl))
  | succNext mode epoch minEpoch i ch hpc hch hcb hnext =>
      unfold ScanOk at h ⊢
      rw [hpc] at h
      rw [hself]
      exact fun u => (h u).after ha hn hm' (hdue (by rw [hpc]; rfl))
  | _ => exact idle rfl

end Scan

/-- **In every state reached what a scan knows is right.** -/
theorem scan_reach {cfg : Config ι ν α} {ok : Request ν α → Prop} {s : Sys ι ν α}
    (h : Sys.Reach cfg ok s) (t : ι) : ScanOk s t := by
  revert t
  refine h.induct (P := fun s => ∀ t, ScanOk s t) (fun _ => trivial) fun {s t _ _ _} hr ih _ hm u => ?_
  by_cases hu : u = t
  · subst hu
    exact (ih u).step_self (active_reach hr) (numbered_reach hr) (books_reach hr u) hm
  · exact (ih u).step_ne (active_reach hr) (numbered_reach hr) hm hu

omit [DecidableEq ι] [DecidableEq ν] in
/-- The callback a thread is about to run is due under the epoch of its chunk. -/
theorem due_front {th : Thread ι ν α} {mode : ReclaimMode} {epoch minEpoch : Epoch} {i : Nat}
    (hpc : th.pc = .succCallbacks mode epoch minEpoch i) {ch : Chunk (GpCallback ν α)}
    (hch : th.td.succCallbacks.chunks.head? = some ch) {cb : GpCallback ν α}
    (hcb : ch.callbacks[i]? = some cb) : th.Due ch.epoch cb := by
  obtain ⟨rest, hq⟩ := List.head?_eq_some_iff.mp hch
  obtain ⟨hi, rfl⟩ := List.getElem?_eq_some_iff.mp hcb
  refine ⟨{ ch with callbacks := ch.callbacks.drop i }, ?_, rfl, ?_⟩
  · rw [Thread.left, hpc]
    simp [hq]
  · rw [List.drop_eq_getElem_cons hi]
    exact List.mem_cons_self

omit [DecidableEq ι] [DecidableEq ν] in
/-- **A scan is over**: a section that has been open since the commit of a callback in the queue has announced
    a later epoch than that of a chunk that may be run. -/
theorem ScanOk.lt_version {s : Sys ι ν α} {t u : ι} (h : ScanOk s t) {mode : ReclaimMode}
    {epoch minEpoch e e' : Epoch} {i : Nat} (hpc : (s.threads t).pc = .succCallbacks mode epoch minEpoch i)
    {cb : GpCallback ν α} (hd : (s.threads t).InQueue e' cb) (hx : OpenSince (fun _ => True) s t cb u)
    (hle : e ≤ epoch ∨ e < minEpoch) : e < (s.threads u).version := by
  unfold ScanOk at h
  rw [hpc] at h
  obtain ⟨h1, h2⟩ := h u e' cb hd hx
  exact hle.elim (Nat.lt_of_le_of_lt · h1) (Nat.lt_of_lt_of_le · h2)

omit [DecidableEq ι] [DecidableEq ν] in
/-- Nobody is exposed to a callback of a chunk that may be run. -/
theorem ScanOk.not_exposed {s : Sys ι ν α} {t : ι} (h : ScanOk s t) (hx : Exposure s) {mode : ReclaimMode}
    {epoch minEpoch : Epoch} {i : Nat} (hpc : (s.threads t).pc = .succCallbacks mode epoch minEpoch i)
    {ch : Chunk (GpCallback ν α)} (hch : (s.threads t).td.succCallbacks.chunks.head? = some ch)
    {cb : GpCallback ν α} (hcb : ch.callbacks[i]? = some cb) (hle : ch.epoch ≤ epoch ∨ ch.epoch < minEpoch)
    (u : ι) : (s.threads t).Due ch.epoch cb ∧ ¬ Exposed s t cb u := by
  have hd := due_front hpc hch hcb
  refine ⟨hd, fun hexp => ?_⟩
  have hsince : OpenSince (fun _ => True) s t cb u := hexp.imp_right fun ⟨c, hc, h1, h2, _, h3⟩ =>
    ⟨c, hc, h1, h2, trivial, h3⟩
  exact Nat.not_lt_of_le (hx.version_le t ch.epoch cb u hd.inQueue hexp)
    (h.lt_version hpc hd.inQueue hsince hle)

/-! ## 3. Reclamation behind a commit -/

/-- `reclaim_all_possible` waits for the epoch of the front chunk, and goes on below the minimum. -/
def FrontOk (th : Thread ι ν α) : Prop :=
  match th.pc with
  | .waitMinEpoch .reclaimAllPossible epoch _ _ | .waitOnEpoch .reclaimAllPossible epoch _ _ _ =>
      th.td.succCallbacks.frontEpoch? = some epoch
  | .succCallbacks .reclaimAllPossible epoch minEpoch _ =>
      ∀ e, th.td.succCallbacks.frontEpoch? = some e → e ≤ epoch ∨ e < minEpoch
  | _ => True

theorem Move.frontOk {cfg : Config ι ν α} {sh sh' : Shared ι ν α} {t : ι} {th th' : Thread ι ν α}
    {opened : ι → Option Nat} {req : Option (Request ν α)} (hm : Move cfg sh t th opened req sh' th')
    (h : FrontOk th) : FrontOk th' := by
  cases hm with
  | reclaimNothing | waitMore => exact h
  | goto pc' hin hout =>
      rcases hout with h | ⟨_, rfl⟩ | rfl | ⟨rfl, _⟩
      · cases pc' <;> trivial
      all_goals trivial
  | success sync =>
      simp only [Thread.reclaim]
      split
      · split
        · exact ‹_›
        · trivial
      · trivial
  | failureReadOnly exn => cases exn <;> trivial
  | failDone exn => cases exn <;> trivial
  | scanned mode epoch result hpc =>
      unfold FrontOk at h
      rw [hpc] at h
      cases mode with
      | reclaimAll => trivial
      | reclaimAllPossible =>
          intro e he
          exact Or.inl (Option.some.inj (he.symm.trans h)).le
  | scanWait mode epoch result u nodes hpc | scanPass mode epoch result u nodes hpc
  | waitDone mode epoch result u nodes hpc =>
      unfold FrontOk at h
      rw [hpc] at h
      cases mode with
      | reclaimAll => trivial
      | reclaimAllPossible => exact h
  | succCallback mode epoch minEpoch i ch cb hpc =>
      unfold FrontOk at h
      rw [hpc] at h
      cases mode with
      | reclaimAll => trivial
      | reclaimAllPossible => exact h
  | succNext mode epoch minEpoch i ch hpc hch hcb hn =>
      cases mode with
      | reclaimAll => trivial
      | reclaimAllPossible =>
          intro e he
          have he' : th.td.succCallbacks.popFront.frontEpoch? = some e := he
          rw [reclaimsNext, he'] at hn
          exact Or.inr (of_decide_eq_true hn)
  | _ => trivial

theorem front_reach {cfg : Config ι ν α} {ok : Request ν α → Prop} {s : Sys ι ν α}
    (h : Sys.Reach cfg ok s) (t : ι) : FrontOk (s.threads t) := by
  revert t
  exact h.induct (P := fun s => ∀ t, FrontOk (s.threads t)) (fun _ => trivial) fun _ ih _ hm =>
    Sys.forall_after (P := fun _ th => FrontOk th) (hm.frontOk (ih _)) fun u _ => ih u

/-- The callback a step runs that destroys a storage. -/
theorem succCallback_of_destroyed {cfg : Config ι ν α} {s s' : Sys ι ν α} {t : ι} {req : Option (Request ν α)}
    {mode : ReclaimMode} {epoch minEpoch : Epoch} {i : Nat} {st : VarStorage α}
    (hpc : (s.threads t).pc = .succCallbacks mode epoch minEpoch i) (hs : s.step cfg t req = some s')
    (hd : s'.shared.hist.destroyed = st :: s.shared.hist.destroyed) :
    ∃ ch cb, (s.threads t).td.succCallbacks.chunks.head? = some ch ∧ ch.callbacks[i]? = some cb ∧
      cb.action = .destroyDeallocate st := by
  obtain ⟨sh', th', hm, rfl⟩ := Sys.step_move hs
  have hne : sh'.hist.destroyed ≠ s.shared.hist.destroyed := fun e =>
    List.cons_ne_self st _ (hd.symm.trans e)
  cases hm with
  | succCallback mode' epoch' minEpoch' i' ch cb hpc' hch hcb =>
      rw [hpc] at hpc'
      cases hpc'
      refine ⟨ch, cb, hch, hcb, ?_⟩
      cases ha : cb.action with
      | destroyDeallocate st' =>
          rw [ha] at hd
          cases hd
          rfl
      | user id =>
          rw [ha] at hne
          exact absurd rfl hne
  | failCallback exn left cb hpc' =>
      rw [hpc] at hpc'
      cases hpc'
  | readReturns path v result hpc' =>
      rw [hpc] at hpc'
      cases hpc'
  | storePending v x pending hpc' =>
      rw [hpc] at hpc'
      cases hpc'
  | _ => exact absurd rfl hne

/-- **No storage is reclaimed under a reader.** When a success callback that `reclaim_all_possible` runs
    destroys a storage, no other thread is in an attempt in which it has loaded it. -/
theorem reclaim_grace {cfg : Config ι ν α} {ok : Request ν α → Prop} {s s' : Sys ι ν α}
    (h : Sys.Reach cfg ok s) {t : ι} {req : Option (Request ν α)} {epoch minEpoch : Epoch} {i : Nat}
    {st : VarStorage α} (hpc : (s.threads t).pc = .succCallbacks .reclaimAllPossible epoch minEpoch i)
    (hs : s.step cfg t req = some s') (hd : s'.shared.hist.destroyed = st :: s.shared.hist.destroyed) :
    ∀ u, u ≠ t → (s.threads u).pc.isOpen = true → st ∉ (s.threads u).att.loaded := by
  obtain ⟨ch, cb, hch, hcb, hact⟩ := succCallback_of_destroyed hpc hs hd
  intro u _ ho hl
  have hf := front_reach h t
  unfold FrontOk at hf
  rw [hpc] at hf
  obtain ⟨hdue, hx⟩ := (scan_reach h t).not_exposed (exposure_reach h) hpc hch hcb
    (hf ch.epoch (by rw [EpochQueue.frontEpoch?, hch]; rfl)) u
  exact hx ((exposure_reach h).loaded t ch.epoch cb u st hdue hact ho hl)

/-- A thread replaces an object twice; between the two the other one loads what is to be replaced next. The
    second commit reaches the reclaim limit. -/
def replaceTwice : List (Bool × Option (Request Bool Nat)) :=
  (false, some (.readWrite fun log => if log.length = 0 then .set true 7 else .ret)) ::
    List.replicate 17 (false, none) ++
  (true, some (.readOnly fun log => if log.length = 0 then .get true else .ret)) ::
    List.replicate 4 (true, none) ++
  (false, some (.readWrite fun log => if log.length = 0 then .set true 8 else .ret)) ::
    List.replicate 20 (false, none)

theorem replaceTwice_isSome : (Sys.run smallConfig replaceTwice (.init smallConfig)).isSome = true := by
  decide

/-- The first object is destroyed while the other thread has loaded the second. -/
theorem reclaim_grace_replaceTwice :
    let s := (Sys.run smallConfig replaceTwice (.init smallConfig)).get replaceTwice_isSome
    ((s.step smallConfig false none).map (·.shared.hist.destroyed) = some [.ptr 1] ∧
      (s.threads true).att.loaded = [.ptr 2]) ∧
    ∀ u, u ≠ false → (s.threads u).pc.isOpen = true → .ptr 1 ∉ (s.threads u).att.loaded := by
  have hr : Sys.Reach smallConfig (fun _ => True)
      ((Sys.run smallConfig replaceTwice (.init smallConfig)).get replaceTwice_isSome) :=
    .of_run (fun _ _ _ _ => trivial) (Option.some_get replaceTwice_isSome).symm
  have hd : (((Sys.run smallConfig replaceTwice (.init smallConfig)).get replaceTwice_isSome).step
      smallConfig false none).map (·.shared.hist.destroyed) = some [.ptr 1] := by decide
  obtain ⟨s', hs, hd'⟩ := Option.map_eq_some_iff.mp hd
  have hpc : (((Sys.run smallConfig replaceTwice (.init smallConfig)).get replaceTwice_isSome).threads
      false).pc = .succCallbacks .reclaimAllPossible 0 1 0 := rfl
  exact ⟨⟨hd, by decide⟩, reclaim_grace hr hpc hs hd'⟩

end LockfreeStm
