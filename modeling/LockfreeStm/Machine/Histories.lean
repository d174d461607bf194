/-
  File:      LockfreeStm/Machine/Histories.lean
  Subject:   THE COMMITS ARE A HISTORY OF OPTIMISTIC TRANSACTIONS, whatever the bodies read untracked.

  An untracked get is validated when it is made, and never again. So a transaction with untracked gets need
  not be serializable; but what it has seen is still one memory, and what it has tracked or set nobody writes
  between the reading of its clock and the point at which it takes effect.

  * `Thread.Tracks`, `Thread.Covers`, `Move.covers` -- what a body has tracked is in the read set, or in the
    write set.
  * `Validating`, `Validated`, `validated_reach` -- the invariant: of what a running attempt has validated, and
    of any two commits.
  * `optimistic_history` -- **the main result**: in the order in which they took effect, every body ran on what
    a beginning of those before it leaves, and the others before it write nothing it tracked or set.
-/
import LockfreeStm.Library.History
import LockfreeStm.Machine.Opacity

namespace LockfreeStm

variable {ι ν α : Type}

/-! ## 1. What a body has tracked -/

/-- One of the operations in the log is a tracked get of the var. -/
def Tracks (body : Body ν α) (log : Log α) (v : ν) : Prop :=
  ∃ front r back, log = front ++ r :: back ∧ body front = .get v

theorem Tracks.of_concat {body : Body ν α} {log : Log α} {r : Option α} {v : ν}
    (h : Tracks body (log ++ [r]) v) : Tracks body log v ∨ body log = .get v := by
  obtain ⟨front, r', back, e, hop⟩ := h
  rcases Histories.concat_split e with ⟨rfl, -⟩ | ⟨back', e⟩
  · exact Or.inr hop
  · exact Or.inl ⟨front, r', back', e, hop⟩

theorem not_tracks_nil {body : Body ν α} {v : ν} : ¬ Tracks body [] v := by
  rintro ⟨front, r, back, e, -⟩
  simp at e

abbrev Thread.Tracks (th : Thread ι ν α) (v : ν) : Prop := LockfreeStm.Tracks th.body th.log v

abbrev Commit.Tracks (c : Commit ι ν α) (v : ν) : Prop := LockfreeStm.Tracks c.body c.log v

/-- The var is read and in the read set, or it is in the write set. -/
def Thread.Covers (th : Thread ι ν α) (v : ν) : Prop :=
  v ∈ th.td.readSet.data ∧ (∃ x, (v, x) ∈ th.att.reads) ∨ th.Writes v

section Covers

variable {th th' : Thread ι ν α} {v : ν}

/-- Read set, write set and reads only grow. -/
theorem Thread.Covers.mono (h : th.Covers v) (hr : ∀ w ∈ th.td.readSet.data, w ∈ th'.td.readSet.data)
    (hreads : ∀ p ∈ th.att.reads, p ∈ th'.att.reads) (hw : th.Writes v → th'.Writes v) : th'.Covers v :=
  h.imp (fun ⟨hm, x, hx⟩ => ⟨hr v hm, x, hreads _ hx⟩) hw

/-- The operation that has returned is no tracked get. -/
theorem Tracks.of_returns (hb : th'.body = th.body) {r : Option α} (hl : th'.log = th.log ++ [r])
    (hop : ∀ w, th.body th.log ≠ .get w) (h : th'.Tracks v) : th.Tracks v := by
  rw [Thread.Tracks, hb, hl] at h
  exact h.of_concat.resolve_right (hop v)

theorem Thread.Writes.push {es : List (WriteSetValueType ν (VarStorage α))} (h : th.Writes v)
    (he : th'.td.writeSet.entries = th.td.writeSet.entries ++ es) : th'.Writes v := by
  obtain ⟨e, hm, hv⟩ := h
  exact ⟨e, by rw [Thread.entries, he]; exact List.mem_append_left _ hm, hv⟩

variable {es : List (WriteSetValueType ν (VarStorage α))}

/-- A step inside an operation, which may push entries. -/
theorem Thread.covers_of_inside (hc : ∀ v, th.Tracks v → th.Covers v) (hb : th'.body = th.body)
    (hl : th'.log = th.log) (hr : th'.td.readSet = th.td.readSet) (hreads : th'.att.reads = th.att.reads)
    (he : th'.td.writeSet.entries = th.td.writeSet.entries ++ es) : ∀ v, th'.Tracks v → th'.Covers v := by
  intro v hv
  rw [Thread.Tracks, hb, hl] at hv
  exact (hc v hv).mono (fun _ hw => hr ▸ hw) (fun _ hp => hreads ▸ hp) fun hw => hw.push he

/-- A set or a callback returns, behind entries that it may have pushed. -/
theorem Thread.covers_of_returns {r : Option α} (hc : ∀ v, th.Tracks v → th.Covers v)
    (hop : ∀ w, th.body th.log ≠ .get w) (hb : th'.body = th.body) (hl : th'.log = th.log ++ [r])
    (hr : th'.td.readSet = th.td.readSet) (hreads : th'.att.reads = th.att.reads)
    (he : th'.td.writeSet.entries = th.td.writeSet.entries ++ es) : ∀ v, th'.Tracks v → th'.Covers v :=
  fun v hv => (hc v (Tracks.of_returns hb hl hop hv)).mono (fun _ hw => hr ▸ hw) (fun _ hp => hreads ▸ hp)
    fun hw => hw.push he

end Covers

variable [DecidableEq ι] [DecidableEq ν]

section Move

variable {cfg : Config ι ν α} {sh sh' : Shared ι ν α} {t : ι} {th th' : Thread ι ν α}
  {opened : ι → Option Nat} {req : Option (Request ν α)}

omit [DecidableEq ι] in
theorem mem_reads_noteRead_of_mem {v : ν} {x : α} {p : ν × α} (h : p ∈ th.att.reads) :
    p ∈ (th.noteRead v x).att.reads := by
  unfold Thread.noteRead
  split
  · exact h
  · exact List.mem_append_left _ h

omit [DecidableEq ι] in
/-- What a get that returns leaves alone. -/
theorem returned_same (th : Thread ι ν α) (path : ReadPath) (v : ν) (x : α) :
    ((th.pushRead path v).noteRead v x).body = th.body ∧ ((th.pushRead path v).noteRead v x).log = th.log ∧
      ((th.pushRead path v).noteRead v x).entries = th.entries := by
  unfold Thread.noteRead Thread.pushRead
  split <;> split <;> exact ⟨rfl, rfl, rfl⟩

omit [DecidableEq ι] in
/-- A tracked get covers its var, every other get leaves covered what was. -/
theorem OpAt.covers {path : ReadPath} {v : ν} {st : VarStorage α} (hop : OpAt cfg th (.readVersion path v st))
    (hk : th.kind = .readWrite) (hc : ∀ v, th.Tracks v → th.Covers v) (x : α) :
    ∀ w, (((th.pushRead path v).noteRead v x).opReturns (some x)).Tracks w →
      (((th.pushRead path v).noteRead v x).opReturns (some x)).Covers w := by
  intro w hw
  obtain ⟨hbody, hlog, hentries⟩ := returned_same th path v x
  have hw : Tracks th.body (th.log ++ [some x]) w := by
    rw [← hbody, ← hlog]
    exact hw
  rcases hw.of_concat with hw | hget
  · refine (hc w hw).mono (fun u hu => ?_) (fun q hq => ?_) fun ⟨e, he, hew⟩ => ⟨e, hentries ▸ he, hew⟩
    · rw [td_opReturns, td_noteRead]
      exact readSet_subset_pushRead hu
    · exact mem_reads_noteRead_of_mem (by rwa [att_pushRead])
  · obtain ⟨hpath, rfl⟩ : (path = .fast true ∨ path = .slow true) ∧ v = w := by
      cases path with
      | fast tracked | slow tracked =>
          cases tracked with
          | true => exact ⟨by simp, Op.get.inj (hop.2.1.symm.trans hget)⟩
          | false => cases hop.2.1.symm.trans hget
      | readOnly =>
          rcases hop with hop | ⟨hro, -⟩
          · cases hop.symm.trans hget
          · cases hro.symm.trans hk
    by_cases hv : v ∈ th.td.writeSet.vars
    · obtain ⟨e, he, hev⟩ := List.mem_map.mp hv
      exact Or.inr ⟨e, hentries ▸ he, hev⟩
    · refine Or.inl ⟨?_, x, ?_⟩
      · rw [td_opReturns, td_noteRead]
        exact mem_readSet_pushRead hpath
      · show (v, x) ∈ ((th.pushRead path v).noteRead v x).att.reads
        rw [Thread.noteRead, if_neg (by rwa [writeSet_pushRead])]
        exact List.mem_append_right _ List.mem_cons_self

/-- **A step keeps what has been tracked covered.** -/
theorem Move.covers (h : Move cfg sh t th opened req sh' th') (hop : OpAt cfg th th.pc)
    (hk : th.kind = .readWrite) (hp : th.pc.phase = .attempt) (hp' : th'.pc.phase = .attempt)
    (hc : ∀ v, th.Tracks v → th.Covers v) : ∀ v, th'.Tracks v → th'.Covers v := by
  have nil : ∀ {ws : PodHashSet ν (VarStorage α)}, ws.entries = ws.entries ++ [] := (List.append_nil _).symm
  have noGet : ∀ {op : Op ν α}, th.body th.log = op → (∀ w, op ≠ .get w) → ∀ w, th.body th.log ≠ .get w :=
    fun e hno => e ▸ hno
  cases h with
  | registerSucc id hpc hk hop' | registerFail id hpc hk hop' =>
      exact Thread.covers_of_returns hc (noGet hop' nofun) rfl rfl rfl rfl nil
  | nestedAtomic hpc hop' => exact Thread.covers_of_returns hc (noGet hop' nofun) rfl rfl rfl rfl nil
  | readReturns path v st hpc =>
      rw [hpc] at hop
      exact hop.covers hk hc _
  | pendingReturns v pending hpc =>
      rw [hpc] at hop
      obtain ⟨-, hget, i, hf, -⟩ := hop
      intro w hw
      rcases Tracks.of_concat hw with hw | hw
      · exact hc w hw
      · -- the get of a var the attempt has set
        obtain rfl : v = w := by
          rcases hget with hget | hget
          · exact Op.get.inj (hget.symm.trans hw)
          · cases hget.symm.trans hw
        obtain ⟨e, he, hev⟩ := PodHashSet.find_eq_some hf
        exact Or.inr ⟨e, List.mem_of_getElem? he, hev⟩
  | allocFast v x hpc =>
      exact Thread.covers_of_inside hc rfl rfl rfl rfl (PodHashSet.entries_uncheckedPushBack ..)
  | curStorage v st hpc =>
      rw [hpc] at hop
      obtain ⟨x, hop'⟩ := hop.2.1
      exact Thread.covers_of_returns hc (noGet hop' nofun) rfl rfl rfl rfl nil
  | slowStorage => exact Thread.covers_of_inside hc rfl rfl rfl rfl nil
  | allocSlow v x cur hpc =>
      rw [hpc] at hop
      exact Thread.covers_of_returns hc (noGet hop.2.1 nofun) rfl rfl rfl rfl (PodHashSet.entries_pushBack ..)
  | storePending v x pending hpc =>
      rw [hpc] at hop
      exact Thread.covers_of_returns hc (noGet hop.2.1 nofun) rfl rfl rfl rfl nil
  | atomicFast v st hpc =>
      rw [hpc] at hop
      obtain ⟨x, -, hop'⟩ := hop.2.1
      exact Thread.covers_of_returns hc (noGet hop' nofun) rfl rfl rfl rfl
        (PodHashSet.entries_uncheckedPushBack ..)
  | atomicPush v st hpc => exact Thread.covers_of_inside hc rfl rfl rfl rfl (PodHashSet.entries_pushBack ..)
  | atomicOverwrite v st i hpc =>
      intro w hw
      refine (hc w hw).mono (fun _ => id) (fun _ => id) fun ⟨e, hm, hew⟩ => ?_
      have hmem : w ∈ (th.td.writeSet.setPending i st).vars := by
        rw [PodHashSet.vars_setPending]
        exact List.mem_map.mpr ⟨e, hm, hew⟩
      obtain ⟨e', hm', hw'⟩ := List.mem_map.mp hmem
      exact ⟨e', hm', hw'⟩
  | atomicReturns v hpc =>
      rw [hpc] at hop
      obtain ⟨x, hop'⟩ := hop.2.1
      exact Thread.covers_of_returns hc (noGet hop' nofun) rfl rfl rfl rfl nil
  | startCommit hpc =>
      intro w hw
      rcases hc w hw with ⟨hm, x, hx⟩ | hwr
      · rcases mem_removeWritesFromReadsLoop _ _ hm with hm' | hf
        · exact Or.inl ⟨hm', x, hx⟩
        · obtain ⟨i, hf⟩ := Option.isSome_iff_exists.mp hf
          obtain ⟨e, he, hev⟩ := PodHashSet.find_eq_some hf
          exact Or.inr ⟨e, List.mem_of_getElem? he, hev⟩
      · exact Or.inr hwr
  | getClock hpc | enter k body hpc =>
      rw [hpc] at hp
      cases hp
  | success sync =>
      rw [reclaim_outside] at hp'
      cases hp'
  | failureReadOnly exn | failDone exn => cases exn <;> cases hp'
  | _ => first
    | exact Thread.covers_of_inside hc rfl rfl rfl rfl nil
    | cases hp'

end Move

/-! ## 2. What has been validated -/

/-- Nobody writes the var between the reading of the clock by thread `t` and the point at which it takes
    effect. -/
def Untouched (s : Sys ι ν α) (t : ι) (th : Thread ι ν α) (v : ν) : Prop :=
  (∀ c ∈ s.shared.hist.commits, c.Writes v → c.point < th.att.start ∨ th.att.point < c.point) ∧
  ∀ u, u ≠ t → (s.threads u).pc.isSealed = true → (s.threads u).att.point ≤ th.att.point →
    ¬ (s.threads u).Writes v

/-- What a running read_write attempt of thread `t` has validated. -/
structure Validating (s : Sys ι ν α) (t : ι) (th : Thread ι ν α) : Prop where
  covers : ∀ v, th.Tracks v → th.Covers v
  distinct : ∀ c ∈ s.shared.hist.commits, c.writes ≠ [] → c.point ≠ th.att.start
  distinct_sealed : ∀ u, u ≠ t → (s.threads u).pc.isSealed = true → (s.threads u).att.point ≠ th.att.start
  untouched : ∀ v ∈ th.validated, Untouched s t th v

/-- The commit has tracked or set the var. -/
def Commit.Uses (c : Commit ι ν α) (v : ν) : Prop := c.Tracks v ∨ c.Writes v

/-- `d` writes nothing `c` uses between the reading of the clock by `c` and the point at which it takes
    effect. -/
def Apart (c d : Commit ι ν α) : Prop := ∀ v, c.Uses v → d.Writes v → d.point < c.start ∨ c.point < d.point

/-- What the commits and the running attempts have validated. -/
structure Validated (cfg : Config ι ν α) (s : Sys ι ν α) : Prop where
  current : ∀ c ∈ s.shared.hist.commits, ∀ p ∈ c.reads,
    p.2 = latestValue cfg (before c.start s.shared.hist.commits) p.1
  apart : s.shared.hist.commits.Pairwise fun c d => Apart c d ∧ Apart d c
  /-- nobody who took effect before a commit read its clock, and has not bumped it, writes a var it has read -/
  unread : ∀ c ∈ s.shared.hist.commits, ∀ u, (s.threads u).pc.isSealed = true →
    (s.threads u).att.point ≤ c.start → ∀ p ∈ c.reads, ¬ (s.threads u).Writes p.1
  /-- and nobody who did before the commit writes a var it has tracked -/
  untracked : ∀ c ∈ s.shared.hist.commits, ∀ u, (s.threads u).pc.isSealed = true →
    (s.threads u).att.point ≤ c.point → ∀ v, c.Tracks v → ¬ (s.threads u).Writes v
  running : ∀ t, (s.threads t).pc.phase = .attempt → (s.threads t).kind = .readWrite →
    Validating s t (s.threads t)

section Step

variable {cfg : Config ι ν α} {s : Sys ι ν α} {t : ι} {req : Option (Request ν α)}
  {sh' : Shared ι ν α} {th' : Thread ι ν α}

/-- The commit that a step of thread `th` adds. -/
structure Adds (th : Thread ι ν α) (c : Commit ι ν α) : Prop where
  start : c.start = th.att.start
  reads : c.reads = th.att.reads
  tracks : ∀ v, c.Tracks v ↔ th.Tracks v
  point : th.pc = .tryCommit ∧ th.td.writeSet.entries = [] ∧ c.writes = [] ∧ c.point = th.att.start ∨
    th.pc = .bumpClock ∧ c.point = th.att.point ∧ ∀ v, c.Writes v ↔ th.Writes v

omit [DecidableEq ι] in
theorem SealStep.adds (hm : SealStep s.shared t (s.threads t) s.opened sh' th') :
    sh'.hist.commits = s.shared.hist.commits ∨ th'.pc.isSealed = false ∧
      ∃ c, sh'.hist.commits = c :: s.shared.hist.commits ∧ Adds (s.threads t) c := by
  cases hm with
  | keep hc | allLocked hc => exact Or.inl hc
  | commitEmpty hpc he hc hs =>
      exact Or.inr ⟨hs, _, hc, rfl, rfl, fun _ => Iff.rfl, Or.inl ⟨hpc, he, by simp [commitRecord, he], rfl⟩⟩
  | bump hpc hc hs =>
      exact Or.inr ⟨hs, _, hc, rfl, rfl, fun _ => Iff.rfl, Or.inr ⟨hpc, rfl, fun _ => commitRecord_writes⟩⟩

omit [DecidableEq ι] in
theorem Adds.not_writes {c : Commit ι ν α} (hw : c.writes = []) {v : ν} : ¬ c.Writes v :=
  fun h => Commit.writes_ne_nil h hw

/-- A step of another thread leaves untouched what was. -/
theorem Untouched.step_ne (hm : SealStep s.shared t (s.threads t) s.opened sh' th') {u : ι} (hu : u ≠ t) {v : ν}
    (hpt : (s.threads u).att.point < s.shared.hist.now) (h : Untouched s u (s.threads u) v) :
    Untouched (s.after t sh' th') u (s.threads u) v := by
  refine ⟨?_, fun w hw hs hle hwr => ?_⟩
  · rw [Sys.shared_after, Shared.commits_atTime]
    rcases hm.adds with hc | ⟨-, c, hc, hadds⟩ <;> rw [hc]
    · exact h.1
    · refine List.forall_mem_cons.mpr ⟨fun hwr => ?_, h.1⟩
      rcases hadds.point with ⟨-, -, hnil, -⟩ | ⟨hpc, hp, hwrites⟩
      · exact absurd hwr (Adds.not_writes hnil)
      · refine Or.inr (Nat.lt_of_not_le fun hle => ?_)
        exact h.2 t hu.symm (by rw [hpc]; rfl) (hp ▸ hle) ((hwrites v).mp hwr)
  · rcases hm.sealed_after hs with ⟨h1, h2, h3⟩ | h2
    · exact h.2 w hw h1 (h2 ▸ hle) (h3 v hwr)
    · exact absurd (h2 ▸ hle) (Nat.not_le_of_lt hpt)

/-- **A step of another thread keeps what an attempt has validated.** -/
theorem Validating.step_ne (hm : SealStep s.shared t (s.threads t) s.opened sh' th') {u : ι} (hu : u ≠ t)
    (hr : Seen cfg s u (s.threads u)) (h : Validating s u (s.threads u)) :
    Validating (s.after t sh' th') u (s.threads u) := by
  refine ⟨h.covers, ?_, fun w hw hs => ?_, fun v hv =>
    (h.untouched v hv).step_ne hm hu (hr.point (Thread.sealed_of_validated hv)).2⟩
  · rw [Sys.shared_after, Shared.commits_atTime]
    rcases hm.adds with hc | ⟨-, c, hc, hadds⟩ <;> rw [hc]
    · exact h.distinct
    · refine List.forall_mem_cons.mpr ⟨fun hne => ?_, h.distinct⟩
      rcases hadds.point with ⟨-, -, hnil, -⟩ | ⟨hpc, hp, -⟩
      · exact absurd hnil hne
      · exact hp ▸ h.distinct_sealed t hu.symm (by rw [hpc]; rfl)
  · rcases hm.sealed_after hs with ⟨h1, h2, -⟩ | h2
    · exact h2 ▸ h.distinct_sealed w hw h1
    · exact h2 ▸ (Nat.ne_of_lt hr.start_lt).symm

/-- An attempt that goes on. -/
theorem Validating.of_same (h : Validating s t (s.threads t))
    (hc : sh'.hist.commits = s.shared.hist.commits) (hstart : th'.att.start = (s.threads t).att.start)
    (covers : ∀ v, th'.Tracks v → th'.Covers v) (untouched : ∀ v ∈ th'.validated, Untouched s t th' v) :
    Validating (s.after t sh' th') t th' := by
  refine ⟨covers, ?_, fun u hu hs => ?_, fun v hv => ⟨?_, fun u hu hs => ?_⟩⟩
  · rw [Sys.shared_after, Shared.commits_atTime, hc, hstart]
    exact h.distinct
  · rw [Sys.threads_after_ne s hu] at hs ⊢
    exact hstart ▸ h.distinct_sealed u hu hs
  · rw [Sys.shared_after, Shared.commits_atTime, hc]
    exact (untouched v hv).1
  · rw [Sys.threads_after_ne s hu] at hs ⊢
    exact (untouched v hv).2 u hu hs

/-- An attempt begins. -/
theorem Validating.fresh (hpre : Prefixes cfg s) (hc : sh'.hist.commits = s.shared.hist.commits) :
    Validating (s.after t sh' (getClockStep s.shared (s.threads t))) t
      (getClockStep s.shared (s.threads t)) where
  covers _ hv := absurd hv not_tracks_nil
  distinct c hm _ := Nat.ne_of_lt (hpre.point_lt c (hc ▸ hm))
  distinct_sealed u hu hs := by
    rw [Sys.threads_after_ne s hu] at hs ⊢
    exact Nat.ne_of_lt ((hpre.running u (PC.phase_of_sealed hs)).point hs).2
  untouched _ hv := absurd hv List.not_mem_nil

/-- **A step of a thread keeps what its own attempt has validated.** -/
theorem Validating.step_self (hpre : Prefixes cfg s) (hc : Commits cfg s) (ha : Active cfg s) (hl : Locks s)
    (h : (s.threads t).pc.phase = .attempt → Validating s t (s.threads t))
    (hm : Move cfg s.shared t (s.threads t) s.opened req sh' th') (hk : (s.threads t).kind = .readWrite)
    (hp' : th'.pc.phase = .attempt) : Validating (s.after t sh' th') t th' := by
  have hcom : sh'.hist.commits = s.shared.hist.commits := by
    rcases hm.commits with ⟨hcom, _⟩ | ⟨_, _, _, _, _, hp, _⟩
    · exact hcom
    · rw [hp'] at hp
      cases hp
  have hcov : ∀ hp : (s.threads t).pc.phase = .attempt, ∀ v, th'.Tracks v → th'.Covers v := fun hp =>
    hm.covers (ha.opAt t) hk hp hp' (h hp).covers
  cases hm.run hp' with
  | fresh hpc => exact .fresh hpre hcom
  | read path v st hpc =>
      have hp : (s.threads t).pc.phase = .attempt := by rw [hpc]; rfl
      refine (h hp).of_same hcom ((start_noteRead ..).trans (congrArg Attempt.start (att_pushRead ..)))
        (hcov hp) fun v hv => ?_
      have := Thread.sealed_of_validated hv
      cases this
  | allLocked i hpc he =>
      have hp : (s.threads t).pc.phase = .attempt := by rw [hpc]; rfl
      exact (h hp).of_same hcom rfl (hcov hp) fun v hv => absurd hv List.not_mem_nil
  | valid i v hpc he hv =>
      have hp : (s.threads t).pc.phase = .attempt := by rw [hpc]; rfl
      have hfree := hl.not_holds_of_valid ha hv
      refine (h hp).of_same hcom rfl (hcov hp) fun w hw => ?_
      obtain ⟨hi, rfl⟩ := List.getElem?_eq_some_iff.mp he
      have hw : w ∈ (s.threads t).td.readSet.data.take (i + 1) := hw
      rw [← List.take_concat_get' _ i hi, List.mem_append, List.mem_singleton] at hw
      rcases hw with hw | rfl
      · exact (h hp).untouched w (by rw [Thread.validated, hpc]; exact hw)
      · -- the var is free, and its version one the attempt may see
        have hle := (hc.unlocked ha hl hfree).1 ▸ hv
        refine ⟨fun c hm hw => Or.inl ?_, fun u _ hs _ => not_writes_of_free hfree u hs⟩
        exact (hpre.running t hp).visible c hm (Commit.writes_ne_nil hw) ((hc.version_le_latest hm hw).trans hle)
  | same hs hp =>
      refine (h hp).of_same hcom hs.start (hcov hp) fun v hv => ?_
      have hv := (h hp).untouched v (hs.validated v hv)
      rw [Untouched, hs.start, hs.point]
      exact hv

omit [DecidableEq ι] in
/-- Who wrote a var that a thread about to bump the clock writes took effect before it began. -/
theorem Seen.writer_lt (hr : Seen cfg s t (s.threads t)) (hc : Commits cfg s) (hlk : Locked s (s.threads t))
    (hpc : (s.threads t).pc = .bumpClock) {d : Commit ι ν α} (hd : d ∈ s.shared.hist.commits) {v : ν}
    (hw : (s.threads t).Writes v) (hdw : d.Writes v) : d.point < (s.threads t).att.start := by
  have hs : (s.threads t).pc.isSealed = true := by rw [hpc]; rfl
  have hle := hlk v (Thread.holds_of_sealed hs hw) (by
    rintro ⟨_, he, _⟩
    simp [Thread.publishing, hpc] at he)
  exact hr.visible d hd (Commit.writes_ne_nil hdw) ((hc.version_le_latest hd hdw).trans hle)

section Adds

variable {c : Commit ι ν α} (hadds : Adds (s.threads t) c) (hr : Seen cfg s t (s.threads t))
  (hv : Validating s t (s.threads t))

omit [DecidableEq ι] in
/-- The new commit has taken effect. -/
theorem Adds.point_lt (hadds : Adds (s.threads t) c)
    (hr : Seen cfg s t (s.threads t)) : c.start ≤ c.point ∧ c.point < s.shared.hist.now := by
  rcases hadds.point with ⟨-, -, -, hp⟩ | ⟨hpc, hp, -⟩
  · exact ⟨(hadds.start.trans hp.symm).le, hp ▸ hr.start_lt⟩
  · have := hr.point (by rw [hpc]; rfl)
    rw [hadds.start, hp]
    exact ⟨this.1.le, this.2⟩

include hadds hr hv

omit [DecidableEq ι] in
/-- **The new commit and one before it** write nothing the other one uses in between. -/
theorem Adds.apart (h : Validated cfg s) (hc : Commits cfg s) (hlk : Locked s (s.threads t)) {d : Commit ι ν α}
    (hd : d ∈ s.shared.hist.commits) : Apart c d ∧ Apart d c := by
  rcases hadds.point with ⟨hpc, he, hnil, hp⟩ | ⟨hpc, hp, hwrites⟩
  · refine ⟨fun v _ hdw => ?_, fun v _ hcw => absurd hcw (Adds.not_writes hnil)⟩
    rw [hp, hadds.start]
    exact Nat.lt_or_gt_of_ne (hv.distinct d hd (Commit.writes_ne_nil hdw))
  · have hs : (s.threads t).pc.isSealed = true := by rw [hpc]; rfl
    have hwriter := fun {v} => hr.writer_lt hc hlk hpc hd (v := v)
    refine ⟨fun v huse hdw => ?_, fun v huse hcw => Or.inr ?_⟩
    · rw [hp, hadds.start]
      rcases huse with htr | hcw
      · rcases hv.covers v ((hadds.tracks v).mp htr) with ⟨hm, -⟩ | hw
        · exact (hv.untouched v (by rw [Thread.validated, hpc]; exact hm)).1 d hd hdw
        · exact Or.inl (hwriter hw hdw)
      · exact Or.inl (hwriter ((hwrites v).mp hcw) hdw)
    · have hw := (hwrites v).mp hcw
      rcases huse with htr | hdw
      · refine Nat.lt_of_not_le fun hle => ?_
        exact h.untracked d hd t hs (hp ▸ hle) v htr hw
      · exact hp ▸ (hwriter hw hdw).trans (hr.point hs).1

omit [DecidableEq ι] in
/-- Nobody else who is sealed before the new commit writes a var it has tracked. -/
theorem Adds.untracked (hl : Locks s) {u : ι} (hu : u ≠ t) (hs : (s.threads u).pc.isSealed = true)
    (hle : (s.threads u).att.point ≤ c.point) {v : ν} (htr : c.Tracks v) : ¬ (s.threads u).Writes v := by
  intro hw
  have hcov := hv.covers v ((hadds.tracks v).mp htr)
  rcases hadds.point with ⟨hpc, he, -, hp⟩ | ⟨hpc, hp, -⟩
  · rcases hcov with ⟨-, x, hx⟩ | ⟨e, hm, -⟩
    · exact hr.unsealed u hu hs (hp ▸ hle) (v, x) hx hw
    · rw [Thread.entries, he] at hm
      cases hm
  · rcases hcov with ⟨hm, -⟩ | htw
    · exact (hv.untouched v (by rw [Thread.validated, hpc]; exact hm)).2 u hu hs (hp ▸ hle) hw
    · have hst : (s.threads t).pc.isSealed = true := by rw [hpc]; rfl
      exact hu (hl.unique u t v (Thread.holds_of_sealed hs hw) (Thread.holds_of_sealed hst htw))

end Adds

/-- **A step keeps what the commits have validated.** -/
theorem Validated.commits_step (h : Validated cfg s) (hpre : Prefixes cfg s) (hc : Commits cfg s) (hl : Locks s)
    (hlk : Locked s (s.threads t))
    (hk : (s.threads t).pc = .tryCommit ∨ (s.threads t).pc.isSealed = true → (s.threads t).kind = .readWrite)
    (hm : SealStep s.shared t (s.threads t) s.opened sh' th') :
    (∀ c ∈ sh'.hist.commits, ∀ p ∈ c.reads, p.2 = latestValue cfg (before c.start sh'.hist.commits) p.1) ∧
    sh'.hist.commits.Pairwise (fun c d => Apart c d ∧ Apart d c) ∧
    ∀ c ∈ sh'.hist.commits, ∀ u, ((s.after t sh' th').threads u).pc.isSealed = true →
      (((s.after t sh' th').threads u).att.point ≤ c.start →
        ∀ p ∈ c.reads, ¬ ((s.after t sh' th').threads u).Writes p.1) ∧
      (((s.after t sh' th').threads u).att.point ≤ c.point →
        ∀ v, c.Tracks v → ¬ ((s.after t sh' th').threads u).Writes v) := by
  have old : ∀ c ∈ s.shared.hist.commits, ∀ u, ((s.after t sh' th').threads u).pc.isSealed = true →
      (((s.after t sh' th').threads u).att.point ≤ c.start →
        ∀ p ∈ c.reads, ¬ ((s.after t sh' th').threads u).Writes p.1) ∧
      (((s.after t sh' th').threads u).att.point ≤ c.point →
        ∀ v, c.Tracks v → ¬ ((s.after t sh' th').threads u).Writes v) := by
    intro c hcm u hs
    have hlt := hpre.point_lt c hcm
    have hle := hpre.start_le c hcm
    rcases hm.sealed_after hs with ⟨h1, h2, h3⟩ | h2
    · exact ⟨fun hp p hpm hw => h.unread c hcm u h1 (h2 ▸ hp) p hpm (h3 _ hw),
        fun hp v hv hw => h.untracked c hcm u h1 (h2 ▸ hp) v hv (h3 _ hw)⟩
    · rw [h2]
      exact ⟨fun hp => absurd hp (Nat.not_le_of_lt (hle.trans_lt hlt)), fun hp => absurd hp (Nat.not_le_of_lt hlt)⟩
  rcases hm.adds with hcom | ⟨hns, c, hcom, hadds⟩
  · rw [hcom]
    exact ⟨h.current, h.apart, old⟩
  have hplace : (s.threads t).pc = .tryCommit ∨ (s.threads t).pc.isSealed = true :=
    hadds.point.imp And.left fun h => by rw [h.1]; rfl
  have hr := hpre.running t (PC.phase_of_committing hplace)
  have hv := h.running t (PC.phase_of_committing hplace) (hk hplace)
  have hpoint := hadds.point_lt hr
  rw [hcom]
  refine ⟨List.forall_mem_cons.mpr ⟨fun p hp => ?_, fun d hd p hp => ?_⟩,
    List.pairwise_cons.mpr ⟨fun d hd => hadds.apart hr hv h hc hlk hd, h.apart⟩,
    List.forall_mem_cons.mpr ⟨fun u hs => ?_, old⟩⟩
  · rw [hadds.reads] at hp
    rw [hadds.start]
    refine (hr.reads p hp).trans (latestValue_of_eq (WriteLog.latest_filter_cons fun hlt => ?_)).symm
    exact absurd (of_decide_eq_true hlt) (Nat.not_lt_of_le (hadds.start ▸ hpoint.1))
  · refine (h.current d hd p hp).trans (latestValue_of_eq (WriteLog.latest_filter_cons fun hlt => ?_)).symm
    rcases hadds.point with ⟨-, -, hnil, -⟩ | ⟨hpc, hp', hwrites⟩
    · exact Commit.put_of_empty hnil p.1
    · refine WriteLog.not_writes.mp fun hw => ?_
      exact h.unread d hd t (by rw [hpc]; rfl) (hp' ▸ (of_decide_eq_true hlt).le) p hp ((hwrites p.1).mp hw)
  · have hu : u ≠ t := by
      rintro rfl
      rw [Sys.threads_after_self, hns] at hs
      cases hs
    rw [Sys.threads_after_ne s hu] at hs ⊢
    refine ⟨fun hle p hp => ?_, fun hle v htr => hadds.untracked hr hv hl hu hs hle htr⟩
    rw [hadds.start] at hle
    rw [hadds.reads] at hp
    exact hr.unsealed u hu hs hle p hp

end Step

/-- **In every state reached the commits and the running attempts have validated what they use.** -/
theorem validated_reach {cfg : Config ι ν α} {ok : Request ν α → Prop} {s : Sys ι ν α}
    (h : Sys.Reach cfg ok s) : Validated cfg s := by
  refine h.induct ?_ fun {s t req sh' th'} hr ih _ hm => ?_
  · exact ⟨fun _ hc => (by cases hc), List.Pairwise.nil, fun _ hc => (by cases hc), fun _ hc => (by cases hc),
      fun _ hp => (by cases hp)⟩
  · have hpre := prefixes_reach hr
    have hc := commits_reach hr
    have hl := locks_reach hr
    obtain ⟨h1, h2, h3⟩ := ih.commits_step hpre hc hl (locked_reach hr t) (kind_of_committing hr) hm.seal
    refine ⟨h1, h2, fun c hc u hs => (h3 c hc u hs).1, fun c hc u hs => (h3 c hc u hs).2, ?_⟩
    refine Sys.forall_after (P := fun u th => th.pc.phase = .attempt → th.kind = .readWrite →
      Validating (s.after t sh' th') u th) (fun hp hk => ?_) ?_
    · have hk' : (s.threads t).kind = .readWrite := (hm.kind (by rw [hp]; exact nofun)).symm.trans hk
      exact .step_self hpre hc (active_reach hr) hl (fun hp => ih.running t hp hk') hm hk' hp
    · exact fun u hu hp hk => (ih.running u hp hk).step_ne hm.seal hu (hpre.running u hp)

/-! ## 3. The history -/

/-- A read_write call of a body whose gets see what it has set, any read_only call, or a reclamation. -/
def Request.seesOwn : Request ν α → Prop
  | .readWrite body => ∀ log, (body log).seesOwn = true
  | .readOnly _ | .reclaimAll => True

/-- The body has run alone on the memory `m`, to its end. -/
def Commit.Began (c : Commit ι ν α) (m : ν → α) : Prop :=
  c.body c.log = .ret ∧ Performs c.body m c.log (c.apply m)

/-- `d` writes nothing that `c` has tracked or set. -/
def Commit.Passes (d c : Commit ι ν α) : Prop := ∀ v, d.Writes v → ¬ c.Tracks v ∧ ¬ c.Writes v

section Result

variable {cfg : Config ι ν α} {ok : Request ν α → Prop} {s : Sys ι ν α} {order : List (Commit ι ν α)}

omit [DecidableEq ι] in
/-- Two commits of which the one is listed first. -/
theorem Validated.apart_of_mem (h : Validated cfg s) (ho : TakesEffect s order) {front back : List (Commit ι ν α)}
    {c d : Commit ι ν α} (e : order = front ++ c :: back) (hd : d ∈ front) : Apart c d := by
  have hp : order.Pairwise fun c d => Apart c d ∧ Apart d c :=
    (ho.perm.pairwise_iff fun h => ⟨h.2, h.1⟩).mpr h.apart
  rw [e] at hp
  exact ((List.pairwise_append.mp hp).2.2 d hd c List.mem_cons_self).2

/-- **One commit in the order**: its body ran on what is left by those that took effect before it read the
    clock, all that had finished by then among them; the others before it write nothing it uses. -/
theorem TakesEffect.overtaken (hag : cfg.HashesAgree) (hok : ∀ r, ok r → r.seesOwn) (h : Sys.Reach cfg ok s)
    (ho : TakesEffect s order) {front back : List (Commit ι ν α)} {c : Commit ι ν α}
    (e : order = front ++ c :: back) :
    ∃ pre mid, front = pre ++ mid ∧ c.Began (leaves cfg pre) ∧
      (∀ d ∈ order, FinishedBefore s c.start d → d ∈ pre) ∧
      ∀ d ∈ mid, c.start ≤ d.point ∧ d.point ≤ c.point ∧ d.Passes c := by
  have hv := validated_reach h
  have hpre := prefixes_reach h
  have hmem : c ∈ s.shared.hist.commits := ho.perm.mem_iff.mp (by rw [e]; simp)
  have hsorted := ho.sorted
  rw [e] at hsorted
  obtain ⟨hfront, hback, hle⟩ := List.pairwise_append.mp hsorted
  obtain ⟨pre, mid, rfl, hearlier, hlater⟩ := Serialization.split_of_sorted hfront c.start
  -- those behind it take effect later
  have hbehind : ∀ d ∈ c :: back, c.start ≤ d.point := List.forall_mem_cons.mpr
    ⟨hpre.start_le c hmem, fun d hd => (hpre.start_le c hmem).trans ((List.pairwise_cons.mp hback).1 d hd)⟩
  have hall : pre = order.filter fun d => decide (d.point < c.start) := by
    rw [e, List.filter_append, ← hearlier, List.filter_eq_nil_iff.mpr, List.append_nil]
    exact fun d hd hlt => Nat.not_lt_of_le (hbehind d hd) (of_decide_eq_true hlt)
  have hagr : Agrees (leaves cfg pre) c.reads := fun p hp => by
    rw [hpre.leaves_eq List.filter_sublist (hall ▸ ho.perm.filter _) (List.pairwise_append.mp hfront).1]
    exact (hv.current c hmem p hp).symm
  obtain ⟨-, hret, hperf⟩ := account_commits Performs.account hag (fun _ hr => hok _ hr) h c hmem
  refine ⟨pre, mid, rfl, ⟨hret, hperf _ hagr⟩, fun d hd hfin => ?_, fun d hd =>
    ⟨hlater d hd, hle d (List.mem_append_right _ hd) c List.mem_cons_self, fun v hw => ?_⟩⟩
  · obtain ⟨f, hfm, htid, hatt, hlef⟩ := hfin
    have hlt := (finished_in h f hfm).2 d (ho.perm.mem_iff.mp hd) htid hatt
    rw [hall]
    exact List.mem_filter.mpr ⟨hd, decide_eq_true (hlt.trans_le hlef)⟩
  · have hap := hv.apart_of_mem ho e (List.mem_append_right _ hd)
    have hno : ¬ c.Uses v := fun huse => by
      rcases hap v huse hw with hlt | hlt
      · exact Nat.not_lt_of_le (hlater d hd) hlt
      · exact Nat.not_lt_of_le (hle d (List.mem_append_right _ hd) c List.mem_cons_self) hlt
    exact ⟨fun h => hno (Or.inl h), fun h => hno (Or.inr h)⟩

/-- **The commits are a history of optimistic transactions**, also of bodies with untracked gets. In every
    state reached there is an order of the commits, in which none that finished before another's attempt read
    the clock comes after it, and which leaves in every var what it holds, such that every body has run alone,
    with the log it had, on what a beginning of those before it leaves, one with all that had finished when it
    read the clock; and the others before it write nothing that it has tracked or set. -/
theorem optimistic_history (hag : cfg.HashesAgree) (hok : ∀ r, ok r → r.seesOwn) (h : Sys.Reach cfg ok s) :
    ∃ order, order.Perm s.shared.hist.commits ∧
      order.Pairwise (fun c d => ∀ f ∈ s.shared.hist.finished, d.tid = f.1 → d.attempt = f.2.1 →
        c.start ≤ f.2.2) ∧
      (∀ v, (∀ u, ¬ (s.threads u).PreStored v) →
        leaves cfg order v = (s.shared.loadStorage v).load s.shared.cells) ∧
      ∀ front c back, order = front ++ c :: back → ∃ pre mid, front = pre ++ mid ∧
        c.body c.log = .ret ∧ Performs c.body (leaves cfg pre) c.log (c.apply (leaves cfg pre)) ∧
        (∀ d ∈ order, FinishedBefore s c.start d → d ∈ pre) ∧
        ∀ d ∈ mid, ∀ v, d.Writes v → ¬ c.Tracks v ∧ ¬ c.Writes v := by
  obtain ⟨order, ho⟩ := exists_takesEffect s
  refine ⟨order, ho.perm, ho.real_time h, fun v hv => leaves_order h ho hv, fun front c back e => ?_⟩
  obtain ⟨pre, mid, hfront, ⟨hret, hperf⟩, hfin, hpass⟩ := ho.overtaken hag hok h e
  exact ⟨pre, mid, hfront, hret, hperf, hfin, fun d hd => (hpass d hd).2.2⟩

end Result

/-- Get one var untracked, set the other one. -/
def lookThenSet (v : Bool) : Body Bool Nat := fun log =>
  match log.length with
  | 0 => .untrackedGet v
  | 1 => .set (!v) 1
  | _ => .ret

/-- Each of two threads looks at the var that the other one is about to set. -/
def lookBoth : List (Bool × Option (Request Bool Nat)) :=
  (true, some (.readWrite (lookThenSet false))) :: List.replicate 8 (true, none) ++
  (false, some (.readWrite (lookThenSet true))) :: List.replicate 20 (false, none) ++
  List.replicate 12 (true, none)

theorem lookBoth_isSome : (Sys.run smallConfig lookBoth (.init smallConfig)).isSome = true := by decide

theorem lookBoth_reach : Sys.Reach smallConfig Request.seesOwn
    ((Sys.run smallConfig lookBoth (.init smallConfig)).get lookBoth_isSome) := by
  refine .of_run (fun m hm r hr => ?_) (Option.some_get lookBoth_isSome).symm
  have hsees : ∀ v, Request.seesOwn (.readWrite (lookThenSet v)) := fun v log => by
    rw [lookThenSet]
    split <;> rfl
  simp only [lookBoth, List.cons_append, List.append_assoc, List.mem_cons, List.mem_append,
    List.mem_replicate] at hm
  rcases hm with rfl | ⟨_, rfl⟩ | rfl | ⟨_, rfl⟩ | ⟨_, rfl⟩ <;> cases hr <;> exact hsees _

/-- Neither has seen what the other one has set; no serial execution of the two bodies does that. -/
theorem optimistic_history_lookBoth :
    let s := (Sys.run smallConfig lookBoth (.init smallConfig)).get lookBoth_isSome
    s.shared.hist.commits.map (fun c => (c.tid, c.log)) = [(true, [some 0, none]), (false, [some 0, none])] ∧
    s.shared.hist.finished.length = 2 ∧
    ∃ order, order.Perm s.shared.hist.commits ∧
      order.Pairwise (fun c d => ∀ f ∈ s.shared.hist.finished, d.tid = f.1 → d.attempt = f.2.1 →
        c.start ≤ f.2.2) ∧
      (∀ v, (∀ u, ¬ (s.threads u).PreStored v) →
        leaves smallConfig order v = (s.shared.loadStorage v).load s.shared.cells) ∧
      ∀ front c back, order = front ++ c :: back → ∃ pre mid, front = pre ++ mid ∧
        c.body c.log = .ret ∧ Performs c.body (leaves smallConfig pre) c.log (c.apply (leaves smallConfig pre)) ∧
        (∀ d ∈ order, FinishedBefore s c.start d → d ∈ pre) ∧
        ∀ d ∈ mid, ∀ v, d.Writes v → ¬ c.Tracks v ∧ ¬ c.Writes v :=
  ⟨by decide, by decide, optimistic_history smallConfig_hashesAgree (fun _ => id) lookBoth_reach⟩

end LockfreeStm
