/-
  File:      LockfreeStm/Machine/Discipline.lean
  Subject:   THE VERSION-LOCK DISCIPLINE: who locks a var, what the lock bit says, and what a var reads
             when its lock is given back.

  `Locks` and `Commits` say what holds in one state. Here a lock is followed from the step that takes
  it to the step that gives it back: in between the word stays as the compare-exchange left it, and
  the attempt never takes the lock a second time.

  * `LockDiscipline`, `lockDiscipline_reach` -- the states.
  * `Kept`, `kept_steps` -- what holds of a var from the step that locks it on.
  * `version_lock_discipline` -- **the main result**, with what the last step of a lock leaves there:
    the version from before (`unlock`), or the higher version of the commit (`publish`).
-/
import LockfreeStm.Machine.Commits

namespace LockfreeStm

variable {ι ν α : Type} [DecidableEq ι] [DecidableEq ν]

/-! ## 1. The states -/

/-- The committed transactions that wrote a var, newest first. -/
def writers (cs : List (Commit ι ν α)) : List (Commit ι ν α) := cs.filter fun c => !c.writes.isEmpty

/-- What the version locks satisfy in a state. -/
structure LockDiscipline (s : Sys ι ν α) : Prop where
  locked_iff : ∀ v, locked (s.shared.loadVersion v) = true ↔ ∃! t, (s.threads t).Holds v
  once : ∀ t, ((s.threads t).held.map (·.destVar)).Nodup
  returned : ∀ t, (s.threads t).pc.inCommit = false → ∀ v, ¬ (s.threads t).Holds v
  unlocked : ∀ v, locked (s.shared.loadVersion v) = false →
    s.shared.loadVersion v = latestVersion s.shared.hist.commits v ∧
      s.shared.loadVersion v ≤ s.shared.clock
  versions : (writers s.shared.hist.commits).Pairwise fun newer older => older.version < newer.version

section States

variable {cfg : Config ι ν α} {s : Sys ι ν α}

omit [DecidableEq ι] in
/-- The lock bit is set exactly while a thread holds the var. -/
theorem Locks.locked_iff (h : Locks s) (ha : Active cfg s) (v : ν) :
    locked (s.shared.loadVersion v) = true ↔ ∃ t, (s.threads t).Holds v := by
  obtain ⟨b, hb, ⟨e, hn⟩ | ⟨e, ht⟩⟩ := h.word v
  · have hlt : b < lockBit := lt_of_le_of_lt hb (ha.clock_lt.trans maxVersion_lt)
    rw [e, locked_of_lt hlt]
    refine iff_of_false Bool.false_ne_true ?_
    rintro ⟨t, ht⟩
    exact hn t ht
  · rw [e, locked_asLocked]
    exact iff_of_true rfl ht

theorem lockDiscipline_reach {ok : Request ν α → Prop} (h : Sys.Reach cfg ok s) :
    LockDiscipline s := by
  have ha := active_reach h
  have hl := locks_reach h
  have hc := commits_reach h
  refine ⟨fun v => ?_, hl.nodup, fun t ht v hv => ?_, fun v hv => ?_, ?_⟩
  · rw [hl.locked_iff ha]
    refine ⟨?_, ExistsUnique.exists⟩
    rintro ⟨t, ht⟩
    exact ⟨t, ht, fun u hu => hl.unique u t v hu ht⟩
  · obtain ⟨e, he, _⟩ := hv
    rw [((s.threads t).views_of_outside ht).1] at he
    cases he
  · have hn : ∀ u, ¬ (s.threads u).Holds v := by
      intro u hu
      rw [(hl.locked_iff ha v).mpr ⟨u, hu⟩] at hv
      cases hv
    obtain ⟨b, hb, ⟨e, _⟩ | ⟨_, u, hu⟩⟩ := hl.word v
    · exact ⟨(hc.unlocked ha hl hn).1, e ▸ hb⟩
    · exact absurd hu (hn u)
  · refine (hc.sorted.filter _).imp_of_mem fun {c d} hmem _ hlt => hlt ?_
    simpa using (List.mem_filter.mp hmem).2

end States

/-! ## 2. From the lock to its release -/

/-- The places of an attempt in front of its first lock. -/
def PC.beforeLocks : PC ι ν α → Bool
  | .accessLock | .tryCommit => true
  | pc => pc.inBody

/-- The places of `lock_writes`. -/
def PC.isLocking : PC ι ν α → Bool
  | .lockLoad _ | .lockCas _ _ => true
  | _ => false

/-- What holds of `v` once attempt `n` of thread `t` has locked it at version `b`. -/
structure Kept (t : ι) (v : ν) (n : Nat) (b : Epoch) (s : Sys ι ν α) : Prop where
  le_clock : b ≤ s.shared.clock
  number : n ≤ (s.threads t).att.number
  behind : (s.threads t).att.number = n → (s.threads t).pc.beforeLocks = false
  locking : (s.threads t).att.number = n → (s.threads t).pc.isLocking = true → (s.threads t).Holds v
  word : (s.threads t).att.number = n → (s.threads t).Holds v → s.shared.loadVersion v = asLocked b
  publishing : (s.threads t).att.number = n → (s.threads t).Publishing v →
    b < (s.threads t).publishVersion

section Step

variable {cfg : Config ι ν α} {s : Sys ι ν α} {t : ι} {req : Option (Request ν α)}
  {sh sh' : Shared ι ν α} {th th' : Thread ι ν α} {opened : ι → Option Nat}

omit [DecidableEq ι] [DecidableEq ν] in
theorem PC.beforeLocks_of_inBody {pc : PC ι ν α} (h : pc.inBody = true) : pc.beforeLocks = true := by
  cases pc <;> first | rfl | cases h

/-- Only a new attempt gets in front of its locks again. -/
theorem Move.beforeLocks (h : Move cfg sh t th opened req sh' th') (hpc : th.pc ≠ .getClock)
    (hb : th.pc.beforeLocks = false) : th'.pc.beforeLocks = false := by
  have inBody : ∀ {pc : PC ι ν α}, th.pc = pc → pc.beforeLocks = true → False := fun e he => by
    rw [e, he] at hb
    cases hb
  cases h with
  | getClock h => exact absurd h hpc
  | reclaimNothing => exact hb
  | waitMore => exact hb
  | goto pc' hin => exact (inBody rfl (PC.beforeLocks_of_inBody hin)).elim
  | atomicPush v s h | atomicOverwrite v s i h =>
      rcases h with ⟨h, _⟩ | h
      all_goals exact (inBody h rfl).elim
  | success sync =>
      simp only [Thread.reclaim]
      split
      · split <;> rfl
      · rfl
  | failureReadOnly | failDone =>
      unfold afterFailure
      split <;> rfl
  | accessLock h | registerSucc _ h | registerFail _ h | nestedAtomic h | readStorage _ _ h
  | readReturns _ _ _ h | pendingReturns _ _ h | allocFast _ _ h | curStorage _ _ h
  | slowStorage _ _ h | allocSlow _ _ _ h | storePending _ _ _ h | atomicFast _ _ h
  | atomicReturns _ h => exact (inBody h rfl).elim
  | _ => rfl

/-- A thread behind its first lock that is in `lock_writes` was there before. -/
theorem Move.isLocking (h : Move cfg sh t th opened req sh' th') (hb : th.pc.beforeLocks = false)
    (hl : th'.pc.isLocking = true) : th.pc.isLocking = true := by
  have inBody : ∀ {pc : PC ι ν α}, th.pc = pc → pc.beforeLocks = true → False := fun e he => by
    rw [e, he] at hb
    cases hb
  cases h with
  | reclaimNothing | waitMore => exact hl
  | goto pc' hin => exact (inBody rfl (PC.beforeLocks_of_inBody hin)).elim
  | startCommit h => exact (inBody h rfl).elim
  | lockValid i e h | lock i e h => rw [h]; rfl
  | success sync =>
      simp only [Thread.reclaim] at hl
      split at hl
      · split at hl <;> cases hl
      · cases hl
  | failureReadOnly | failDone =>
      unfold afterFailure at hl
      split at hl <;> cases hl
  | _ => cases hl

/-- A step of the thread itself. -/
theorem Kept.step_self {v : ν} {n : Nat} {b : Epoch} (h : Kept t v n b s) (ha : Active cfg s)
    (hl : Locks s) (hm : Move cfg s.shared t (s.threads t) s.opened req sh' th') :
    Kept t v n b (s.after t sh' th') := by
  -- as long as the attempt is the same, so was it before the step
  have same : th'.att.number = n → (s.threads t).att.number = n ∧ (s.threads t).pc ≠ .getClock := by
    intro e
    have hge := h.number
    rcases hm.number with ⟨hpc, hn⟩ | ⟨_, hn⟩
    · exact ⟨hn ▸ e, hpc⟩
    · omega
  have hnum : n ≤ th'.att.number := by
    have hge := h.number
    rcases hm.number with ⟨_, hn⟩ | ⟨_, hn⟩ <;> omega
  refine ⟨h.le_clock.trans hm.clock_le, ?_, ?_, ?_, ?_, ?_⟩ <;> rw [Sys.threads_after_self]
  · exact hnum
  · intro e
    exact hm.beforeLocks (same e).2 (h.behind (same e).1)
  · intro e hloc
    have hold := h.locking (same e).1 (hm.isLocking (h.behind (same e).1) hloc)
    cases hm.effect with
    | quiet hs hv => exact (hv.holds v).mpr hold
    | lock i e' hpc he => exact (holds_concat (held_lock hpc he) v).mpr (Or.inl hold)
    | _ => cases hloc
  · intro e hv
    rw [Sys.shared_after, Shared.loadVersion_atTime]
    have hword := h.word (same e).1
    cases hm.effect with
    | quiet hs hview =>
        rw [hs.loadVersion]
        exact hword ((hview.holds v).mp hv)
    | commitEmpty hpc =>
        obtain ⟨_, he, _⟩ := hv
        cases he
    | lock i e' hpc he =>
        -- the lock it takes is not this one, which it holds already
        have hold := h.locking (same e).1 (by rw [hpc]; rfl)
        have hne : v ≠ e'.destVar := by
          rintro rfl
          exact (hl.not_holds_of_cas ha hpc).2 t hold
        rw [Shared.loadVersion_storeVersion, if_neg hne]
        exact hword hold
    | unlock i last buf e' hpc he =>
        obtain ⟨_, _, hi, _⟩ := hl.unlockBuf hpc
        have hheld := held_unlock hpc hi he
        have hne : v ≠ e'.destVar := by
          rintro rfl
          have hno : ¬ ((s.after t s.shared _).threads t).Holds e'.destVar :=
            hl.not_holds_after hheld t
          exact hno (by rwa [Sys.threads_after_self])
        rw [Shared.loadVersion_storeVersion, if_neg hne]
        exact hword ((holds_cons hheld v).mpr (Or.inr hv))
    | store i e' hpc he =>
        rw [Shared.loadVersion_storeStorage]
        exact hword (by rwa [Thread.Holds, held_store hpc] at hv)
    | bump hpc => exact hword (by rwa [Thread.Holds, held_bump _ hpc] at hv)
    | publish i sync e' hpc he =>
        have hheld := held_publish hpc he
        have hne : v ≠ e'.destVar := by
          rintro rfl
          have hno : ¬ ((s.after t s.shared _).threads t).Holds e'.destVar :=
            hl.not_holds_after hheld t
          exact hno (by rwa [Sys.threads_after_self])
        rw [Shared.loadVersion_storeVersion, if_neg hne]
        exact hword ((holds_cons hheld v).mpr (Or.inr hv))
  · intro e hp
    cases hm.effect with
    | quiet hs hview =>
        obtain ⟨e', he', hev⟩ := hp
        rw [hview.publishVersion (List.ne_nil_of_mem he')]
        exact h.publishing (same e).1 ((hview.publish v).mp ⟨e', he', hev⟩)
    | bump => exact Nat.lt_succ_of_le h.le_clock
    | publish i sync e' hpc he =>
        have hold := h.publishing (same e).1
        rw [Thread.publishVersion, hpc] at hold
        refine hold ?_
        obtain ⟨e'', he'', hev⟩ := hp
        exact ⟨e'', publishing_publish hpc he ▸ List.mem_cons_of_mem _ he'', hev⟩
    | _ =>
        obtain ⟨_, he', _⟩ := hp
        cases he'

/-- A step of another thread. -/
theorem Kept.step_ne {u : ι} {v : ν} {n : Nat} {b : Epoch} (h : Kept u v n b s) (ha : Active cfg s)
    (hl : Locks s) (hm : Move cfg s.shared t (s.threads t) s.opened req sh' th') (hu : u ≠ t) :
    Kept u v n b (s.after t sh' th') := by
  refine ⟨h.le_clock.trans hm.clock_le, ?_, ?_, ?_, ?_, ?_⟩ <;> rw [Sys.threads_after_ne s hu]
  · exact h.number
  · exact h.behind
  · exact h.locking
  · intro e hv
    rw [Sys.shared_after, Shared.loadVersion_atTime, hl.loadVersion_of_holds ha hm.effect hu hv]
    exact h.word e hv
  · exact h.publishing

theorem kept_steps {ok : Request ν α → Prop} {s' : Sys ι ν α} {v : ν} {n : Nat} {b : Epoch}
    (hr : Sys.Reach cfg ok s) (h : Kept t v n b s) (hs : Sys.Steps cfg ok s s') :
    Kept t v n b s' := by
  induction hs with
  | refl => exact h
  | @step s1 s2 u _ hs hok hst ih =>
      have hr1 := hr.steps hs
      obtain ⟨sh', th', hm, rfl⟩ := Sys.step_move hst
      by_cases hu : t = u
      · subst hu
        exact ih.step_self (active_reach hr1) (locks_reach hr1) hm
      · exact ih.step_ne (active_reach hr1) (locks_reach hr1) hm hu

/-- The step that takes the lock. -/
theorem Kept.of_lock {u : ι} {v : ν} (ha : Active cfg s) (hl : Locks s)
    (hm : Move cfg s.shared u (s.threads u) s.opened req sh' th') (hn : ¬ (s.threads t).Holds v)
    (hv : ((s.after u sh' th').threads t).Holds v) :
    Kept t v ((s.after u sh' th').threads t).att.number (s.shared.loadVersion v)
      (s.after u sh' th') := by
  have hu : t = u := Classical.byContradiction fun hu =>
    hn (by rwa [Sys.threads_after_ne s hu] at hv)
  subst hu
  rw [Sys.threads_after_self] at hv
  cases hm.effect with
  | lock i e hpc he =>
      obtain ⟨hle, hno⟩ := hl.not_holds_of_cas ha hpc
      have hev : e.destVar = v := ((holds_concat (held_lock hpc he) v).mp hv).resolve_left hn
      subst hev
      refine ⟨hle, Nat.le_refl _, ?_, ?_, ?_, ?_⟩ <;> rw [Sys.threads_after_self]
      · exact fun _ => rfl
      · exact fun _ _ => hv
      · intro _ _
        rw [Sys.shared_after, Shared.loadVersion_atTime, Shared.loadVersion_storeVersion, if_pos rfl]
      · rintro _ ⟨_, he', _⟩
        cases he'
  | quiet hs hview => exact absurd ((hview.holds v).mp hv) hn
  | commitEmpty =>
      obtain ⟨_, he, _⟩ := hv
      cases he
  | unlock i last buf e hpc he =>
      obtain ⟨_, _, hi, _⟩ := hl.unlockBuf hpc
      exact absurd ((holds_cons (held_unlock hpc hi he) v).mpr (Or.inr hv)) hn
  | store i e hpc => exact absurd (by rwa [Thread.Holds, held_store hpc] at hv) hn
  | bump hpc => exact absurd (by rwa [Thread.Holds, held_bump _ hpc] at hv) hn
  | publish i sync e hpc he =>
      exact absurd ((holds_cons (held_publish hpc he) v).mpr (Or.inr hv)) hn

/-- What the step from `s2` to `s3` that gives the lock of `v` back leaves there; `s` is the state in
    which the lock was taken. -/
def Released (t : ι) (v : ν) (s s2 s3 : Sys ι ν α) : Prop :=
  (∃ i last buf, (s2.threads t).pc = .unlockStore i last buf) ∧
      s3.shared.loadVersion v = s.shared.loadVersion v ∨
    (∃ i sync, (s2.threads t).pc = .publish i sync) ∧
      s.shared.loadVersion v < s3.shared.loadVersion v ∧
      s3.shared.loadVersion v = latestVersion s3.shared.hist.commits v

/-- The step that gives the lock back: `unlock` flips the lock bit of the word the lock left, `publish`
    overwrites it. -/
theorem Kept.released {s0 : Sys ι ν α} {u : ι} {v : ν}
    (h : Kept t v (s.threads t).att.number (s0.shared.loadVersion v) s) (ha : Active cfg s)
    (hl : Locks s) (hc : Commits cfg s) (hv : (s.threads t).Holds v)
    (hm : Move cfg s.shared u (s.threads u) s.opened req sh' th')
    (hn : ¬ ((s.after u sh' th').threads t).Holds v) : Released t v s0 s (s.after u sh' th') := by
  have hu : t = u := Classical.byContradiction fun hu =>
    hn (by rwa [Sys.threads_after_ne s hu])
  subst hu
  rw [Sys.threads_after_self] at hn
  have hword := h.word rfl hv
  have hlt : s0.shared.loadVersion v < lockBit :=
    lt_of_le_of_lt h.le_clock (ha.clock_lt.trans maxVersion_lt)
  rw [Released, Sys.shared_after, Shared.loadVersion_atTime, Shared.commits_atTime]
  cases hm.effect with
  | unlock i last buf e hpc he =>
      obtain ⟨e', he', hi, hbuf⟩ := hl.unlockBuf hpc
      obtain rfl : e = e' := Option.some.inj (he.symm.trans he')
      have hev : e.destVar = v := ((holds_cons (held_unlock hpc hi he) v).mp hv).resolve_right hn
      subst hev
      refine Or.inl ⟨⟨i, last, buf, hpc⟩, ?_⟩
      rw [Shared.loadVersion_storeVersion, if_pos rfl, ← hbuf, hword, flipLock_asLocked hlt]
  | publish i sync e hpc he =>
      have hev : e.destVar = v := ((holds_cons (held_publish hpc he) v).mp hv).resolve_right hn
      subst hev
      have hpub : (s.threads t).Publishing e.destVar :=
        ⟨e, publishing_publish hpc he ▸ List.mem_cons_self, rfl⟩
      have hver : (s.threads t).publishVersion = sync + bumpSize := by
        rw [Thread.publishVersion, hpc]
      refine Or.inr ⟨⟨i, sync, hpc⟩, ?_, ?_⟩
      all_goals rw [Shared.loadVersion_storeVersion, if_pos rfl, ← hver]
      · exact h.publishing rfl hpub
      · exact ((hc.var _).publishing t hpub).symm
  | quiet hs hview => exact absurd ((hview.holds v).mpr hv) hn
  | commitEmpty hpc =>
      obtain ⟨e, he, _⟩ := hv
      rw [((s.threads t).views_of_outside (by rw [hpc]; rfl)).1] at he
      cases he
  | lock i e hpc he => exact absurd ((holds_concat (held_lock hpc he) v).mpr (Or.inl hv)) hn
  | store i e hpc => exact absurd (by rwa [Thread.Holds, held_store hpc]) hn
  | bump hpc => exact absurd (by rwa [Thread.Holds, held_bump _ hpc]) hn

end Step

/-! ## 3. The discipline -/

/-- **The version-lock discipline**, in every state reached, and for every lock a thread takes there and
    gives back in the same attempt: an aborted commit restores the version it found, a successful one
    publishes a higher one. -/
theorem version_lock_discipline {cfg : Config ι ν α} {ok : Request ν α → Prop} {s : Sys ι ν α}
    (h : Sys.Reach cfg ok s) :
    LockDiscipline s ∧
      ∀ (t u u' : ι) (v : ν) (req req' : Option (Request ν α)) (s1 s2 s3 : Sys ι ν α),
        (∀ r ∈ req, ok r) → s.step cfg u req = some s1 →
        ¬ (s.threads t).Holds v → (s1.threads t).Holds v →
        Sys.Steps cfg ok s1 s2 → (s2.threads t).att.number = (s1.threads t).att.number →
        (s2.threads t).Holds v → s2.step cfg u' req' = some s3 → ¬ (s3.threads t).Holds v →
        Released t v s s2 s3 := by
  refine ⟨lockDiscipline_reach h, ?_⟩
  intro t u u' v req req' s1 s2 s3 hok hs hn hv hsteps hnum hv2 hs' hn3
  have hr1 : Sys.Reach cfg ok s1 := .step h hok hs
  have hr2 := hr1.steps hsteps
  obtain ⟨sh1, th1, hm1, rfl⟩ := Sys.step_move hs
  obtain ⟨sh3, th3, hm3, rfl⟩ := Sys.step_move hs'
  have hkept := kept_steps hr1 (Kept.of_lock (active_reach h) (locks_reach h) hm1 hn hv) hsteps
  rw [← hnum] at hkept
  exact hkept.released (active_reach hr2) (locks_reach hr2) (commits_reach hr2) hv2 hm3 hn3

instance (th : Thread ι ν α) (v : ν) : Decidable (th.Holds v) :=
  inferInstanceAs (Decidable (∃ e ∈ th.held, e.destVar = v))

/-- A body that sets a var. -/
def setBody : Body Bool Nat := fun log => if log.isEmpty then .set true 7 else .ret

/-- The state before its compare-exchange. -/
def beforeLock : Sys Bool Bool Nat :=
  (Sys.run smallConfig ((false, some (.readWrite setBody)) :: List.replicate 8 (false, none))
    (.init smallConfig)).get (by decide)

/-- The state after it. -/
def afterLock : Sys Bool Bool Nat := (beforeLock.step smallConfig false none).get (by decide)

/-- The state before the store of `publish`. -/
def beforePublish : Sys Bool Bool Nat :=
  (Sys.run smallConfig (List.replicate 5 (false, none)) afterLock).get (by decide)

/-- The state after it. -/
def afterPublish : Sys Bool Bool Nat :=
  (beforePublish.step smallConfig false none).get (by decide)

theorem version_lock_discipline_set :
    beforeLock.shared.loadVersion true = 0 ∧ afterLock.shared.loadVersion true = asLocked 0 ∧
      afterPublish.shared.loadVersion true = 1 ∧
      Released false true beforeLock beforePublish afterPublish := by
  have hr : Sys.Reach smallConfig (fun _ => True) beforeLock :=
    .of_run (fun _ _ _ _ => trivial) (Option.some_get _).symm
  have hs : Sys.Steps smallConfig (fun _ => True) afterLock beforePublish :=
    .of_run (fun _ _ _ _ => trivial) (Option.some_get _).symm
  refine ⟨by decide, by decide, by decide, ?_⟩
  exact (version_lock_discipline hr).2 false false false true none none afterLock beforePublish
    afterPublish (fun _ _ => trivial) (Option.some_get _).symm (by decide) (by decide) hs (by decide)
    (by decide) (Option.some_get _).symm (by decide)

end LockfreeStm
