/-
  File:      LockfreeStm/Machine/Prefixes.lean
  Subject:   EVERY ATTEMPT SEES A PREFIX of the serial order, also one that will abort.

  `reads_snapshot` says which version a get returns. Versions do not give a serial order, the points at
  which transactions take effect do; so that every get is right does not say that the gets of one
  attempt fit together in an execution of the program. They do:

  * `Seen`, `Prefixes`, `prefixes_reach` -- the invariant: what an attempt has read, whatever its body
    does, are the values all commits left that took effect before it read the clock, and no others.
  * `TakesEffect`, `OfPrefix` -- the commits in the order in which they took effect, and what holds of a
    beginning of it.
  * `attempt_reads_prefix` -- **the main result**: every running attempt has seen what a beginning of that
    order leaves.
-/
import LockfreeStm.Machine.Serial

namespace LockfreeStm

variable {ι ν α : Type} [DecidableEq ι] [DecidableEq ν]

/-! ## 1. What an attempt has seen -/

/-- What holds of a running attempt of thread `t`, whatever its body does. -/
structure Seen (cfg : Config ι ν α) (s : Sys ι ν α) (t : ι) (th : Thread ι ν α) : Prop where
  start_lt : th.att.start < s.shared.hist.now
  visible : ∀ c ∈ s.shared.hist.commits, c.writes ≠ [] → c.version ≤ th.version →
    c.point < th.att.start
  reads : ∀ p ∈ th.att.reads,
    p.2 = latestValue cfg (before th.att.start s.shared.hist.commits) p.1
  /-- nobody who took effect before the attempt began and has not bumped the clock writes a var it
      has read -/
  unsealed : ∀ u, u ≠ t → (s.threads u).pc.isSealed = true →
    (s.threads u).att.point ≤ th.att.start → ∀ p ∈ th.att.reads, ¬ (s.threads u).Writes p.1
  point : th.pc.isSealed = true → th.att.start < th.att.point ∧ th.att.point < s.shared.hist.now

/-- What the running attempts have seen; commits that write one var take effect in the order of their
    versions, and none later than now. -/
structure Prefixes (cfg : Config ι ν α) (s : Sys ι ν α) : Prop where
  order : ∀ v, s.shared.hist.commits.Pairwise fun newer older =>
    newer.Writes v → older.Writes v → older.point < newer.point
  start_le : ∀ c ∈ s.shared.hist.commits, c.start ≤ c.point
  point_lt : ∀ c ∈ s.shared.hist.commits, c.point < s.shared.hist.now
  running : ∀ t, (s.threads t).pc.phase = .attempt → Seen cfg s t (s.threads t)

section Step

variable {cfg : Config ι ν α} {s : Sys ι ν α} {t : ι} {req : Option (Request ν α)}
  {sh' : Shared ι ν α} {th' : Thread ι ν α}

omit [DecidableEq ι] in
/-- A commit of another thread has a later version, and writes nothing the attempt has read unless it took
    effect later. -/
theorem Seen.harmless (hm : SealStep s.shared t (s.threads t) s.opened sh' th') (ha : Active cfg s)
    {u : ι} (hu : u ≠ t) (h : Seen cfg s u (s.threads u)) :
    sh'.hist.commits = s.shared.hist.commits ∨
      ∃ c, sh'.hist.commits = c :: s.shared.hist.commits ∧
        (c.writes ≠ [] → (s.threads u).version < c.version) ∧
        ∀ p ∈ (s.threads u).att.reads, c.point < (s.threads u).att.start → ¬ c.Writes p.1 := by
  cases hm with
  | keep hc | allLocked hc => exact Or.inl hc
  | commitEmpty hpc he hc =>
      have hnil : (commitRecord s.shared t (s.threads t) 0 (s.threads t).att.start s.opened).writes = [] := by
        simp [commitRecord, he]
      exact Or.inr ⟨_, hc, fun hn => absurd hnil hn, fun p _ _ hw => Commit.writes_ne_nil hw hnil⟩
  | bump hpc hc =>
      refine Or.inr ⟨_, hc, fun _ => Nat.lt_succ_of_le (ha.version_le u), fun p hp hlt hw => ?_⟩
      exact h.unsealed t hu.symm (by rw [hpc]; rfl) hlt.le p hp (commitRecord_writes.mp hw)

/-- A step of another thread changes nothing in what an attempt has seen. -/
theorem Seen.step_ne (hm : SealStep s.shared t (s.threads t) s.opened sh' th') (ha : Active cfg s)
    {u : ι} (hu : u ≠ t) (h : Seen cfg s u (s.threads u)) :
    Seen cfg (s.after t sh' th') u (s.threads u) := by
  have hcommits := h.harmless hm ha hu
  refine ⟨Nat.lt_succ_of_lt h.start_lt, ?_, fun p hp => ?_, fun w hw hs hle p hp hwr => ?_,
    fun hs => ⟨(h.point hs).1, Nat.lt_succ_of_lt (h.point hs).2⟩⟩
  · rw [Sys.shared_after, Shared.commits_atTime]
    rcases hcommits with hc | ⟨c, hc, hlt, -⟩ <;> rw [hc]
    · exact h.visible
    · exact List.forall_mem_cons.mpr
        ⟨fun hne hle => absurd hle (Nat.not_le_of_lt (hlt hne)), h.visible⟩
  · refine (h.reads p hp).trans ?_
    rcases hcommits with hc | ⟨c, hc, -, hno⟩ <;> rw [Sys.shared_after, Shared.commits_atTime, hc]
    refine (latestValue_of_eq (WriteLog.latest_filter_cons fun hlt => ?_)).symm
    exact WriteLog.not_writes.mp (hno p hp (of_decide_eq_true hlt))
  · rcases hm.sealed_after hs with ⟨h1, h2, h3⟩ | h2
    · exact h.unsealed w hw h1 (h2 ▸ hle) p hp (h3 _ hwr)
    · exact absurd (h2 ▸ hle) (Nat.not_le_of_lt h.start_lt)

/-- An attempt that goes on at the same start and version, with reads that are right. -/
theorem Seen.of_reads (h : Seen cfg s t (s.threads t))
    (hc : sh'.hist.commits = s.shared.hist.commits) (h1 : th'.att.start = (s.threads t).att.start)
    (hv : th'.version = (s.threads t).version)
    (hpoint : th'.pc.isSealed = true →
      (s.threads t).att.start < th'.att.point ∧ th'.att.point ≤ s.shared.hist.now)
    (hreads : ∀ p ∈ th'.att.reads, p ∈ (s.threads t).att.reads ∨
      p.2 = latestValue cfg (before (s.threads t).att.start s.shared.hist.commits) p.1 ∧
        ∀ u, (s.threads u).pc.isSealed = true → ¬ (s.threads u).Writes p.1) :
    Seen cfg (s.after t sh' th') t th' := by
  refine ⟨?_, ?_, fun p hp => ?_, fun u hu hs hle p hp => ?_, fun hs => ?_⟩
  · exact h1 ▸ Nat.lt_succ_of_lt h.start_lt
  · rw [Sys.shared_after, Shared.commits_atTime, hc, h1, hv]
    exact h.visible
  · rw [Sys.shared_after, Shared.commits_atTime, hc, h1]
    exact (hreads p hp).elim (h.reads p) And.left
  · rw [Sys.threads_after_ne s hu] at hs hle ⊢
    exact (hreads p hp).elim (fun hp => h.unsealed u hu hs (h1 ▸ hle) p hp) fun hn => hn.2 u hs
  · exact h1 ▸ ⟨(hpoint hs).1, Nat.lt_succ_of_le (hpoint hs).2⟩

/-- An attempt begins. -/
theorem Seen.fresh (h : Prefixes cfg s) (hc : sh'.hist.commits = s.shared.hist.commits) :
    Seen cfg (s.after t sh' (getClockStep s.shared (s.threads t))) t
      (getClockStep s.shared (s.threads t)) where
  start_lt := Nat.lt_succ_self _
  visible c hm _ _ := h.point_lt c (hc ▸ hm)
  reads _ hp := absurd hp List.not_mem_nil
  unsealed _ _ _ _ _ hp := absurd hp List.not_mem_nil
  point hs := by cases hs

/-- **A step of a thread keeps what its own attempt has seen right.** -/
theorem Seen.step_self (h : Prefixes cfg s) (hc : Commits cfg s) (hh : Heap cfg s) (ha : Active cfg s)
    (hl : Locks s) (hsn : Snapshot cfg s)
    (hm : Move cfg s.shared t (s.threads t) s.opened req sh' th') (hp' : th'.pc.phase = .attempt) :
    Seen cfg (s.after t sh' th') t th' := by
  have hcom : sh'.hist.commits = s.shared.hist.commits := by
    rcases hm.commits with ⟨hcom, _⟩ | ⟨_, _, _, _, _, hp, _⟩
    · exact hcom
    · rw [hp'] at hp
      cases hp
  have hver : (s.threads t).pc.phase = .attempt → th'.version = (s.threads t).version := fun hp =>
    ha.version_eq hm (by rintro e; rw [e] at hp; cases hp)
  cases hm.run hp' with
  | fresh hpc => exact .fresh h hcom
  | read path v st hpc hv =>
      have hp : (s.threads t).pc.phase = .attempt := by rw [hpc]; rfl
      have hr := h.running t hp
      obtain ⟨hle, hx⟩ := hsn.value hc hh ha hl hpc hv
      refine hr.of_reads hcom ((start_noteRead ..).trans (congrArg Attempt.start (att_pushRead ..)))
        (hver hp) (fun hs => by cases hs) fun p hp => ?_
      refine (mem_reads_noteRead hp).imp (fun hp => by rwa [att_pushRead] at hp) ?_
      rintro rfl
      -- the latest commit that wrote the var is one the attempt may see, and nobody holds the var now
      refine ⟨hx.trans (latestValue_of_eq (WriteLog.latest_filter fun c w hlat => decide_eq_true ?_)).symm,
        fun u hs => not_writes_of_free (hl.not_holds_of_valid ha hv) u hs⟩
      obtain ⟨hmem, hput⟩ := WriteLog.mem_of_latest hlat
      have hw := WriteLog.writes_of_put hput
      exact hr.visible c hmem (Commit.writes_ne_nil hw) ((hc.version_le_latest hmem hw).trans hle)
  | allLocked i hpc he =>
      have hr := h.running t (by rw [hpc]; rfl)
      exact hr.of_reads hcom rfl rfl (fun _ => ⟨hr.start_lt, Nat.le_refl _⟩) fun _ => Or.inl
  | valid i v hpc he hv =>
      have hr := h.running t (by rw [hpc]; rfl)
      have hp := hr.point (by rw [hpc]; rfl)
      exact hr.of_reads hcom rfl rfl (fun _ => ⟨hp.1, hp.2.le⟩) fun _ => Or.inl
  | same hs hp =>
      have hr := h.running t hp
      refine hr.of_reads hcom hs.start (hver hp) (fun hse => ?_) fun _ hp => Or.inl (hs.reads ▸ hp)
      rw [hs.point]
      exact ⟨(hr.point (hs.isSealed hse)).1, (hr.point (hs.isSealed hse)).2.le⟩

omit [DecidableEq ι] in
/-- A commit takes effect in the right place: behind every one that wrote one of its vars, and before now. -/
theorem Prefixes.commits_step (h : Prefixes cfg s) (hc : Commits cfg s) (hlk : Locked s (s.threads t))
    (hm : SealStep s.shared t (s.threads t) s.opened sh' th') :
    (∀ v, sh'.hist.commits.Pairwise fun newer older =>
      newer.Writes v → older.Writes v → older.point < newer.point) ∧
    ∀ c ∈ sh'.hist.commits, c.start ≤ c.point ∧ c.point < s.shared.hist.now + 1 := by
  have hold : ∀ c ∈ s.shared.hist.commits, c.start ≤ c.point ∧ c.point < s.shared.hist.now + 1 :=
    fun c hc => ⟨h.start_le c hc, Nat.lt_succ_of_lt (h.point_lt c hc)⟩
  cases hm with
  | keep hcom | allLocked hcom => exact hcom ▸ ⟨h.order, hold⟩
  | commitEmpty hpc he hcom =>
      have hnil : (commitRecord s.shared t (s.threads t) 0 (s.threads t).att.start s.opened).writes = [] := by
        simp [commitRecord, he]
      have hlt := (h.running t (by rw [hpc]; rfl)).start_lt
      exact hcom ▸ ⟨fun v => List.pairwise_cons.mpr
          ⟨fun d _ hw => absurd hnil (Commit.writes_ne_nil hw), h.order v⟩,
        List.forall_mem_cons.mpr ⟨⟨Nat.le_refl _, Nat.lt_succ_of_lt hlt⟩, hold⟩⟩
  | bump hpc hcom =>
      have hs : (s.threads t).pc.isSealed = true := by rw [hpc]; rfl
      have hr := h.running t (PC.phase_of_sealed hs)
      refine hcom ▸ ⟨fun v => List.pairwise_cons.mpr ⟨fun d hd hw hdw => ?_, h.order v⟩,
        List.forall_mem_cons.mpr ⟨⟨(hr.point hs).1.le, Nat.lt_succ_of_lt (hr.point hs).2⟩, hold⟩⟩
      -- the thread holds the var: who wrote it before did so in a version the attempt may see
      have hle := hlk v (Thread.holds_of_sealed hs (commitRecord_writes.mp hw)) (by
        rintro ⟨_, he, _⟩
        simp [Thread.publishing, hpc] at he)
      exact (hr.visible d hd (Commit.writes_ne_nil hdw) ((hc.version_le_latest hd hdw).trans hle)).trans
        (hr.point hs).1

end Step

/-- **In every state reached the running attempts have seen what took effect before them.** -/
theorem prefixes_reach {cfg : Config ι ν α} {ok : Request ν α → Prop} {s : Sys ι ν α}
    (h : Sys.Reach cfg ok s) : Prefixes cfg s := by
  refine h.induct ?_ fun {s t req sh' th'} hr ih _ hm => ?_
  · exact ⟨fun _ => List.Pairwise.nil, fun _ hc => (by cases hc), fun _ hc => (by cases hc),
      fun _ hp => (by cases hp)⟩
  · have ha := active_reach hr
    obtain ⟨h1, h2⟩ := ih.commits_step (commits_reach hr) (locked_reach hr t) hm.seal
    refine ⟨h1, fun c hc => (h2 c hc).1, fun c hc => (h2 c hc).2, ?_⟩
    refine Sys.forall_after (P := fun u th => th.pc.phase = .attempt → Seen cfg (s.after t sh' th') u th) ?_ ?_
    · exact Seen.step_self ih (commits_reach hr) (heap_reach hr) ha (locks_reach hr) (snapshot_reach hr) hm
    · exact fun u hu hp => (ih.running u hp).step_ne hm.seal ha hu

/-! ## 2. The order of the commits -/

/-- The commits in the order in which they took effect. -/
structure TakesEffect (s : Sys ι ν α) (order : List (Commit ι ν α)) : Prop where
  perm : order.Perm s.shared.hist.commits
  sorted : order.Pairwise fun c d => c.point ≤ d.point

omit [DecidableEq ι] [DecidableEq ν] in
theorem exists_takesEffect (s : Sys ι ν α) : ∃ order, TakesEffect s order := by
  refine ⟨s.shared.hist.commits.insertionSort fun c d => c.point ≤ d.point, List.perm_insertionSort .., ?_⟩
  have : Std.Total fun c d : Commit ι ν α => c.point ≤ d.point := ⟨fun c d => Nat.le_total ..⟩
  have : IsTrans (Commit ι ν α) fun c d => c.point ≤ d.point := ⟨fun _ _ _ => Nat.le_trans⟩
  exact List.pairwise_insertionSort ..

/-- The memory the commits of a list leave, one after the other. -/
abbrev leaves (cfg : Config ι ν α) (cs : List (Commit ι ν α)) : ν → α :=
  Serialization.replay Commit.put Written.value cfg.initValue cs

/-- The commits that finished before `time`. -/
def FinishedBefore (s : Sys ι ν α) (time : Nat) (c : Commit ι ν α) : Prop :=
  ∃ f ∈ s.shared.hist.finished, c.tid = f.1 ∧ c.attempt = f.2.1 ∧ f.2.2 ≤ time

/-- `P` holds of a beginning of the order: the one with all that had finished when the attempt read the
    clock, with nothing that took effect later, and with everything that took effect before. -/
def OfPrefix (s : Sys ι ν α) (order : List (Commit ι ν α)) (th : Thread ι ν α)
    (P : List (Commit ι ν α) → Prop) : Prop :=
  ∃ earlier later, order = earlier ++ later ∧ P earlier ∧
    (∀ c ∈ order, FinishedBefore s th.att.start c → c ∈ earlier) ∧
    (∀ c ∈ earlier, c.point < th.att.start) ∧ ∀ c ∈ later, th.att.start ≤ c.point

omit [DecidableEq ι] [DecidableEq ν] in
theorem OfPrefix.imp {s : Sys ι ν α} {order : List (Commit ι ν α)} {th : Thread ι ν α}
    {P Q : List (Commit ι ν α) → Prop} (h : OfPrefix s order th P)
    (hPQ : ∀ earlier later, order = earlier ++ later → P earlier → Q earlier) : OfPrefix s order th Q := by
  obtain ⟨earlier, later, e, hP, hrest⟩ := h
  exact ⟨earlier, later, e, hPQ earlier later e hP, hrest⟩

section Order

variable {cfg : Config ι ν α} {ok : Request ν α → Prop} {s : Sys ι ν α} {order : List (Commit ι ν α)}

omit [DecidableEq ι] in
/-- A part of the history, in the order in which its commits took effect, leaves what the part says. -/
theorem Prefixes.leaves_eq (h : Prefixes cfg s) {cs ds : List (Commit ι ν α)}
    (hsub : cs.Sublist s.shared.hist.commits) (hp : ds.Perm cs)
    (hs : ds.Pairwise fun c d => c.point ≤ d.point) : leaves cfg ds = latestValue cfg cs :=
  Serialization.replay_of_sorted Commit.point (fun v => (h.order v).sublist hsub) hp hs

omit [DecidableEq ι] in
/-- **Every running attempt has seen a beginning of the order.** -/
theorem Seen.ofPrefix (h : Prefixes cfg s) (hf : Finished s) (ho : TakesEffect s order) {t : ι}
    (hr : Seen cfg s t (s.threads t)) :
    OfPrefix s order (s.threads t) fun earlier => Agrees (leaves cfg earlier) (s.threads t).att.reads := by
  obtain ⟨earlier, later, e, he, hlater⟩ :=
    Serialization.split_of_sorted ho.sorted (s.threads t).att.start
  have hperm : earlier.Perm (before (s.threads t).att.start s.shared.hist.commits) :=
    he ▸ ho.perm.filter _
  have hs : earlier.Pairwise fun c d => c.point ≤ d.point :=
    (List.pairwise_append.mp (e ▸ ho.sorted)).1
  refine ⟨earlier, later, e, fun p hp => ?_, fun c hc hfin => ?_, fun c hc => ?_, hlater⟩
  · rw [h.leaves_eq List.filter_sublist hperm hs]
    exact (hr.reads p hp).symm
  · obtain ⟨f, hfm, htid, hatt, hle⟩ := hfin
    have hlt := (hf f hfm).2 c (ho.perm.mem_iff.mp hc) htid hatt
    rw [he]
    exact List.mem_filter.mpr ⟨hc, decide_eq_true (hlt.trans_le hle)⟩
  · rw [he, List.mem_filter] at hc
    exact of_decide_eq_true hc.2

/-- What has finished took effect before. -/
theorem finished_in (h : Sys.Reach cfg ok s) : Finished s :=
  finished_of_points (fun hr => (prefixes_reach hr).point_lt) h

/-- The whole order leaves what the vars hold. -/
theorem leaves_order (h : Sys.Reach cfg ok s) (ho : TakesEffect s order) {v : ν}
    (hv : ∀ u, ¬ (s.threads u).PreStored v) :
    leaves cfg order v = (s.shared.loadStorage v).load s.shared.cells := by
  rw [(prefixes_reach h).leaves_eq (List.Sublist.refl _) ho.perm ho.sorted,
    load_eq_latestValue (commits_reach h) (heap_reach h) hv]

/-- **Every attempt, also one that will abort, whatever its body does, has seen what a beginning of the
    commits' order leaves**, with everything in it that had finished before the attempt began; and the
    whole order leaves what the vars hold. -/
theorem attempt_reads_prefix (h : Sys.Reach cfg ok s) :
    ∃ order, TakesEffect s order ∧
      (∀ v, (∀ u, ¬ (s.threads u).PreStored v) →
        leaves cfg order v = (s.shared.loadStorage v).load s.shared.cells) ∧
      ∀ t, (s.threads t).pc.phase = .attempt → OfPrefix s order (s.threads t) fun earlier =>
        Agrees (leaves cfg earlier) (s.threads t).att.reads := by
  have hp := prefixes_reach h
  obtain ⟨order, ho⟩ := exists_takesEffect s
  exact ⟨order, ho, fun v hv => leaves_order h ho hv,
    fun t ht => (hp.running t ht).ofPrefix hp (finished_in h) ho⟩

end Order

/-- One thread sets a var and commits, the other one reads it without tracking, the first one sets it
    again: what the other attempt has read is overwritten, but it is what the first commit left. -/
def overwritten : List (Bool × Option (Request Bool Nat)) :=
  (false, some (.readWrite fun log => if log.length = 0 then .set true 7 else .ret)) ::
    List.replicate 17 (false, none) ++
  (true, some (.readWrite fun log => if log.length = 0 then .untrackedGet true else .get false)) ::
    List.replicate 5 (true, none) ++
  (false, some (.readWrite fun log => if log.length = 0 then .set true 8 else .ret)) ::
    List.replicate 17 (false, none)

theorem overwritten_isSome : (Sys.run smallConfig overwritten (.init smallConfig)).isSome = true := by
  decide

theorem attempt_reads_prefix_overwritten :
    let s := (Sys.run smallConfig overwritten (.init smallConfig)).get overwritten_isSome
    (s.threads true).att.reads = [(true, 7)] ∧ (s.shared.loadStorage true).load s.shared.cells = 8 ∧
    ∃ order, TakesEffect s order ∧
      (∀ v, (∀ u, ¬ (s.threads u).PreStored v) →
        leaves smallConfig order v = (s.shared.loadStorage v).load s.shared.cells) ∧
      ∀ t, (s.threads t).pc.phase = .attempt → OfPrefix s order (s.threads t) fun earlier =>
        Agrees (leaves smallConfig earlier) (s.threads t).att.reads := by
  have hr : Sys.Reach smallConfig (fun _ => True)
      ((Sys.run smallConfig overwritten (.init smallConfig)).get overwritten_isSome) :=
    .of_run (fun _ _ _ _ => trivial) (Option.some_get overwritten_isSome).symm
  exact ⟨by decide, by decide, attempt_reads_prefix hr⟩

end LockfreeStm
