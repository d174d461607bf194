/-
  File:      LockfreeStm/Machine/Alone.lean
  Subject:   OBSTRUCTION FREEDOM: an attempt that runs alone commits, wherever the other threads were stopped.

  The other threads may stand anywhere, inside their bodies, in their callbacks, in a scan; only not where
  they hold locks. An attempt that then reads the clock finds no version above its own and no lock, and
  nobody changes that; so it gives up only where its body asks for it.

  * `Sys.Alone` -- the states reached by the steps of one thread.
  * `solo_performs` -- the body runs to its end, and does what it does alone.
  * `Finishing`, `alone_finishes` -- the commit behind it succeeds.
  * `solo_commits` -- **the main result**.
-/
import LockfreeStm.Machine.OwnWrites
import LockfreeStm.Machine.Opacity
import LockfreeStm.Machine.Aborts
import LockfreeStm.Machine.Progress

namespace LockfreeStm

variable {ι ν α : Type}

/-! ## 1. The body -/

section Performs

variable [DecidableEq ν] {body : Body ν α} {m : ν → α} {log log' : Log α} {cur cur' : ν → α}

/-- Behind a log that is not the whole one the body goes on. -/
theorem Performs.next (h : Performs body m log cur)
    (h' : Performs body m log' cur') (hl : log'.length < log.length) :
    (body log').goesOn = true ∧ body log' ≠ .ret := by
  induction h with
  | start => exact absurd hl (Nat.not_lt_zero _)
  | @step log cur cur' r h hop ih =>
      rw [List.length_append, List.length_singleton] at hl
      rcases Nat.lt_succ_iff_lt_or_eq.mp hl with hl | hl
      · exact ih hl
      · obtain ⟨rfl, rfl⟩ := h.unique h' hl.symm
        constructor
        · revert hop
          cases body log <;> intro hop <;> first | rfl | cases hop
        · intro hret
          rw [hret] at hop
          cases hop

/-- No log is longer than one the body returns behind. -/
theorem Performs.length_le (h : Performs body m log cur)
    (hret : body log = .ret) (h' : Performs body m log' cur') : log'.length ≤ log.length := by
  by_contra hlt
  exact (h'.next h (Nat.lt_of_not_le hlt)).2 hret

end Performs

variable [DecidableEq ι] [DecidableEq ν]

/-- The states thread `t` reaches by itself. -/
inductive Sys.Alone (cfg : Config ι ν α) (t : ι) (s₀ : Sys ι ν α) : Sys ι ν α → Prop where
  | refl : Sys.Alone cfg t s₀ s₀
  | step {s s' : Sys ι ν α} (h : Sys.Alone cfg t s₀ s) (hs : s.step cfg t none = some s') :
      Sys.Alone cfg t s₀ s'

section Body

variable {cfg : Config ι ν α} {ok : Request ν α → Prop} {t : ι} {s₀ s s' : Sys ι ν α}

theorem Sys.Alone.trans (h : Sys.Alone cfg t s₀ s) (h' : Sys.Alone cfg t s s') : Sys.Alone cfg t s₀ s' := by
  induction h' with
  | refl => exact h
  | step _ hs ih => exact .step ih hs

theorem Sys.Alone.reach (h : Sys.Alone cfg t s₀ s) (hr : Sys.Reach cfg ok s₀) : Sys.Reach cfg ok s := by
  induction h with
  | refl => exact hr
  | step _ hs ih => exact .step ih (fun _ hr => by cases hr) hs

theorem Sys.Alone.others (h : Sys.Alone cfg t s₀ s) {u : ι} (hu : u ≠ t) : s.threads u = s₀.threads u := by
  induction h with
  | refl => rfl
  | step _ hs ih =>
      obtain ⟨sh', th', _, rfl⟩ := Sys.step_move hs
      rw [Sys.threads_after_ne _ hu, ih]

theorem Sys.Solo.alone (h : Sys.Solo cfg t s₀ s) : Sys.Alone cfg t s₀ s := by
  induction h with
  | refl => exact .refl
  | step _ _ hs ih => exact .step ih hs

/-- What the log of an attempt that runs alone is. -/
theorem SoloOk.performs (h : SoloOk t s₀ s) (hag : cfg.HashesAgree) (hr : Sys.Reach cfg ok s)
    (hown : ∀ log, ((s₀.threads t).body log).seesOwn = true) :
    ∃ cur, Performs (s₀.threads t).body s₀.value (s.threads t).log cur := by
  have hacc := account_reach Performs.account hag hr t ⟨h.call.1, h.call.2 ▸ hown⟩ h.reads
  rw [h.call.2] at hacc
  refine hacc.log ?_
  have hp := h.place
  revert hp
  cases (s.threads t).pc <;> intro hp <;> first | exact Or.inl rfl | exact Or.inr rfl | cases hp

/-- **A body that runs alone runs to its end**, by induction on what is left of it. -/
theorem solo_performs (hag : cfg.HashesAgree) (hr₀ : Sys.Reach cfg ok s₀)
    (hq : ∀ v, s₀.shared.loadVersion v ≤ (s₀.threads t).version)
    (hown : ∀ log, ((s₀.threads t).body log).seesOwn = true) {log : Log α} {cur : ν → α}
    (hL : Performs (s₀.threads t).body s₀.value log cur) (hret : (s₀.threads t).body log = .ret)
    (hs : Sys.Solo cfg t s₀ s) (hk : SoloOk t s₀ s) :
    ∃ s', Sys.Solo cfg t s₀ s' ∧ SoloOk t s₀ s' ∧ (s'.threads t).pc = .tryCommit ∧
      (s'.threads t).log = log ∧ (s'.threads t).att.number = (s.threads t).att.number := by
  generalize hn : 5 * (log.length - (s.threads t).log.length) + (s.threads t).pc.rank = n
  induction n using Nat.strongRecOn generalizing s with
  | ind n ih =>
    have hr := hs.reach hr₀
    obtain ⟨cur', hp⟩ := hk.performs hag hr hown
    have hle := hL.length_le hret hp
    by_cases hpc : (s.threads t).pc = .tryCommit
    · -- the body has returned, so this is the whole log
      refine ⟨s, hs, hk, hpc, ?_, rfl⟩
      have hop := (active_reach hr).opAt t
      rw [hpc, OpAt, hk.call.2] at hop
      rcases hle.lt_or_eq with hlt | heq
      · exact absurd hop.2 (hL.next hp hlt).2
      · exact (hp.unique hL heq).1
    · have hgo : ((s.threads t).body (s.threads t).log).goesOn = true := by
        rw [hk.call.2]
        rcases hle.lt_or_eq with hlt | heq
        · exact (hL.next hp hlt).1
        · rw [(hp.unique hL heq).1, hret]
          rfl
      obtain ⟨sh', th', hth, _⟩ : ∃ sh' th', threadStep cfg s.shared t (s.threads t) s.opened none =
          some (sh', th') ∧ Advances (s.threads t) th' :=
        threadStep_advances (hk.quiet hq) hk.call.1 hgo hk.place hpc
      have hstep : s.step cfg t none = some (s.after t sh' th') := by
        rw [Sys.step, hth]
        rfl
      obtain ⟨hk', hadv⟩ := hk.step hq hgo hr₀ hr hpc hstep
      have hs' := Sys.Solo.step hs hpc hstep
      have hnum : th'.att.number = (s.threads t).att.number := by
        refine ((threadStep_move hth).attempt fun hg => ?_).1
        have hp := hk.place
        rw [hg] at hp
        cases hp
      have hnext := ih _ ?_ hs' hk' rfl
      · rwa [Sys.threads_after_self, hnum] at hnext
      rcases hadv with ⟨hc, hl⟩ | ⟨hl, hrank, _⟩
      · obtain ⟨_, hp'⟩ := hk'.performs hag (hs'.reach hr₀) hown
        have hle' := hL.length_le hret hp'
        have h3 : PC.rank (PC.call : PC ι ν α) = 3 := rfl
        rw [hc, hl, h3]
        omega
      · rw [hl]
        omega

end Body

/-! ## 2. The commit -/

section Commit

variable {cfg : Config ι ν α} {ok : Request ν α → Prop} {t : ι} {s₀ s s' : Sys ι ν α}
  {req : Option (Request ν α)} {sh' : Shared ι ν α} {th' : Thread ι ν α} {m : ν → α}

/-- The fail callbacks begin to run where the attempt is being given up. -/
theorem Move.failing {sh : Shared ι ν α} {th : Thread ι ν α} {opened : ι → Option Nat}
    (h : Move cfg sh t th opened req sh' th') (hp : th'.pc.phase = .failing) :
    th.pc.isAborting = true ∨ th.pc.phase = .failing := by
  cases h with
  | failure exn hpc => exact Or.inl (by rw [hpc]; rfl)
  | failCallback exn left cb hpc => exact Or.inr (by rw [hpc]; rfl)
  | reclaimNothing | waitMore => exact Or.inr hp
  | goto pc' hin hout =>
      rcases hout with h | ⟨_, rfl⟩ | rfl | ⟨rfl, _⟩
      · rw [show (th.goto pc').pc.phase = .attempt from PC.phase_of_inBody (PC.inBody_of_isEntry h)] at hp
        cases hp
      all_goals cases hp
  | success sync =>
      rw [reclaim_outside] at hp
      cases hp
  | failureReadOnly exn => cases exn <;> cases hp
  | failDone exn => cases exn <;> cases hp
  | _ => cases hp

/-- The commit is of the attempt thread `th` is in, and its body has performed from memory `m`. -/
def Commit.PerformedBy (c : Commit ι ν α) (t : ι) (th : Thread ι ν α) (m : ν → α) : Prop :=
  c.tid = t ∧ c.attempt = th.att.number ∧ c.body = th.body ∧ th.body c.log = .ret ∧
    Performs th.body m c.log (c.apply m)

/-- An attempt that runs alone, on its way through the commit from `s₀`: nothing has been committed since, or
    its own transaction has. -/
structure Finishing (cfg : Config ι ν α) (t : ι) (m : ν → α) (s₀ s : Sys ι ν α) : Prop where
  alone : Sys.Alone cfg t s₀ s
  call : (s.threads t).kind = .readWrite ∧ (s.threads t).body = (s₀.threads t).body
  number : (s.threads t).att.number = (s₀.threads t).att.number
  going : (s.threads t).pc.isAborting = false
  history : ((s.threads t).pc.phase = .attempt ∧ 0 < (s.threads t).commitRank ∧
      s.shared.hist.commits = s₀.shared.hist.commits ∧ s.shared.clock = s₀.shared.clock ∧
      Agrees m (s.threads t).att.reads ∧
      ∀ c ∈ s.shared.hist.commits, c.version ≤ (s.threads t).version) ∨
    ((s.threads t).pc.phase = .committed ∨ (s.threads t).pc.phase = .outside) ∧
      ∃ c, s.shared.hist.commits = c :: s₀.shared.hist.commits ∧ c.PerformedBy t (s₀.threads t) m

/-- Nobody is in the way. -/
theorem Finishing.no_conflict (h : Finishing cfg t m s₀ s) (hfree : ∀ u, u ≠ t → ∀ v, ¬ (s₀.threads u).Holds v)
    (hp : (s.threads t).pc.phase = .attempt) (v : ν) : ¬ s.Conflict t v := by
  rintro (⟨u, hu, hh⟩ | ⟨c, hc, _, _, hlt⟩)
  · rw [h.alone.others hu] at hh
    exact hfree u hu v hh
  · rcases h.history with ⟨_, _, _, _, _, hle⟩ | ⟨hp', _⟩
    · exact Nat.not_le_of_lt hlt (hle c hc)
    · rw [hp] at hp'
      rcases hp' with hp' | hp' <;> cases hp'

omit [DecidableEq ι] [DecidableEq ν] in
theorem PC.not_outside_of_commitRank {pc : PC ι ν α} {n r : Nat} (h : 0 < pc.commitRank n r) :
    pc.phase ≠ .outside := by
  intro hp
  revert h
  cases pc <;> first | exact fun h => absurd h (Nat.lt_irrefl 0) | cases hp

omit [DecidableEq ι] in
/-- A step that adds no commit leaves the clock alone. -/
theorem Effect.clock_eq {sh : Shared ι ν α} {th : Thread ι ν α} {opened : ι → Option Nat}
    (hm : Effect sh t th opened sh' th') (hc : sh'.hist.commits = sh.hist.commits) : sh'.clock = sh.clock := by
  cases hm with
  | quiet hs => exact hs.clock
  | bump => exact absurd hc (List.cons_ne_self _ _)
  | _ => rfl

/-- Behind `try_commit` an attempt reads nothing new. -/
theorem Move.reads_commit {sh : Shared ι ν α} {th : Thread ι ν α} {opened : ι → Option Nat}
    (hm : Move cfg sh t th opened req sh' th') (hrank : 0 < th.commitRank) (hp' : th'.pc.phase = .attempt) :
    th'.att.reads = th.att.reads := by
  cases hm.run hp' with
  | fresh hpc | read path v st hpc =>
      rw [Thread.commitRank, hpc] at hrank
      exact absurd hrank (Nat.lt_irrefl 0)
  | allLocked | valid => rfl
  | same hs => exact hs.reads

/-- What has been committed after the step. -/
theorem Finishing.history_step (h : Finishing cfg t m s₀ s) (hag : cfg.HashesAgree) (hr : Sys.Reach cfg ok s)
    (hown : ∀ log, ((s₀.threads t).body log).seesOwn = true) (hrank : 0 < (s.threads t).commitRank)
    (hm : Move cfg s.shared t (s.threads t) s.opened req sh' th') :
    (th'.pc.phase = .attempt ∧ 0 < th'.commitRank ∧ sh'.hist.commits = s₀.shared.hist.commits ∧
      sh'.clock = s₀.shared.clock ∧ Agrees m th'.att.reads ∧ ∀ c ∈ sh'.hist.commits, c.version ≤ th'.version) ∨
    (th'.pc.phase = .committed ∨ th'.pc.phase = .outside) ∧
      ∃ c, sh'.hist.commits = c :: s₀.shared.hist.commits ∧ c.PerformedBy t (s₀.threads t) m := by
  have hphase := hm.phase
  rcases h.history with ⟨hp, _, hcs, hclk, hagr, hle⟩ | ⟨hp, c, hcs, hc⟩
  · rcases hm.commits with ⟨hc, hcom⟩ | ⟨c, hc, _, _, _, hp', _⟩
    · have hp' : th'.pc.phase = .attempt := by
        rw [hp] at hphase
        generalize hq : th'.pc.phase = p' at hphase
        cases hphase with
        | stay => rfl
        | commit =>
            rcases hcom hq with hp' | hk
            · rw [hp] at hp'
              cases hp'
            · rw [h.call.1] at hk
              cases hk
        | fail =>
            rcases hm.failing hq with ha | hf
            · rw [h.going] at ha
              cases ha
            · rw [hp] at hf
              cases hf
        | failReadOnly _ hk =>
            rw [h.call.1] at hk
            cases hk
      refine Or.inl ⟨hp', (hm.commitRank hrank).2.resolve_right fun ho => ho.2 hp', hc.trans hcs,
        (hm.effect.clock_eq hc).trans hclk, ?_, ?_⟩
      · rwa [hm.reads_commit hrank hp']
      · rwa [hc, (active_reach hr).version_eq hm (Thread.pc_ne_getClock hrank)]
    · refine Or.inr ⟨Or.inl hp', c, hcs ▸ hc, ?_⟩
      rcases hm.effect.newCommit ((active_reach hr).opAt t) with hc' |
        ⟨sh, version, point, hcells, hc', hrun, hk, hret⟩
      · exact absurd (hc.symm.trans hc') (List.cons_ne_self _ _)
      · obtain ⟨rfl, -⟩ := List.cons.inj (hc.symm.trans hc')
        have hacc := (account_reach Performs.account hag hr t ⟨hk, h.call.2 ▸ hown⟩ hagr).runs hrun
        refine ⟨rfl, h.number, h.call.2, h.call.2 ▸ hret, ?_⟩
        rw [apply_commitRecord, hcells, ← h.call.2]
        exact hacc
  · have hp := hp.resolve_right (PC.not_outside_of_commitRank hrank)
    rcases hm.commits with ⟨hcs', _⟩ | ⟨_, _, _, _, hp', _⟩
    · refine Or.inr ⟨?_, c, hcs'.trans hcs, hc⟩
      rw [hp] at hphase
      generalize th'.pc.phase = p' at hphase
      cases hphase with
      | stay => exact Or.inl rfl
      | success => exact Or.inr rfl
    · rw [hp] at hp'
      cases hp'

/-- **A step of the commit of an attempt that runs alone**: it is possible, does not fail, and brings the end
    nearer. -/
theorem Finishing.step (h : Finishing cfg t m s₀ s) (hag : cfg.HashesAgree) (hr₀ : Sys.Reach cfg ok s₀)
    (hown : ∀ log, ((s₀.threads t).body log).seesOwn = true)
    (hfree : ∀ u, u ≠ t → ∀ v, ¬ (s₀.threads u).Holds v)
    (hclock : s₀.shared.clock < maxVersion - bumpSize) (hrank : 0 < (s.threads t).commitRank) :
    ∃ s', s.step cfg t none = some s' ∧ Finishing cfg t m s₀ s' ∧
      (s'.threads t).commitRank < (s.threads t).commitRank ∧
      (0 < (s'.threads t).commitRank ∨ (s'.threads t).pc.isOpen = false) := by
  have hr := h.alone.reach hr₀
  have hsome : (threadStep cfg s.shared t (s.threads t) s.opened none).isSome = true := by
    refine threadStep_isSome (books_reach hr t) (ready_reach hr t) (fun hidle => ?_) (fun hb => ?_) fun _ hk => ?_
    · rw [Thread.commitRank, hidle] at hrank
      exact absurd hrank (Nat.lt_irrefl 0)
    · rcases h.history with ⟨_, _, _, hc, _⟩ | ⟨hp, _⟩
      · rwa [hc]
      · rw [hb] at hp
        rcases hp with hp | hp <;> cases hp
    · rw [h.call.1] at hk
      cases hk
  obtain ⟨⟨sh', th'⟩, hst⟩ := Option.isSome_iff_exists.mp hsome
  have hm := threadStep_move hst
  have hstep : s.step cfg t none = some (s.after t sh' th') := by
    rw [Sys.step, hst]
    rfl
  have hg : (s.threads t).pc ≠ .getClock := Thread.pc_ne_getClock hrank
  obtain ⟨hlt, hor⟩ := hm.commitRank hrank
  have hcall : th'.kind = .readWrite ∧ th'.body = (s₀.threads t).body := by
    rcases hm.call with ⟨_, _, ⟨_, hreq⟩ | ⟨_, hreq⟩, _⟩ | ⟨hk, hb, _⟩
    · cases hreq
    · cases hreq
    · exact ⟨hk.trans h.call.1, hb.trans h.call.2⟩
  have hhist := h.history_step hag hr hown hrank hm
  refine ⟨_, hstep, ⟨.step h.alone hstep, ?_, ?_, ?_, ?_⟩, ?_⟩
  all_goals rw [Sys.threads_after_self]
  · exact hcall
  · exact (hm.attempt hg).1.trans h.number
  · by_contra hab
    rw [Bool.not_eq_false] at hab
    rcases abort_conflict hag hr hst h.going hab with ⟨hpc, _⟩ | ⟨v, _, hc⟩
    · rw [Thread.commitRank, hpc] at hrank
      exact absurd hrank (Nat.lt_irrefl 0)
    · exact h.no_conflict hfree (PC.phase_of_mayAbort (hm.mayAbort h.going hab)) v hc
  · exact hhist
  · exact ⟨hlt, hor.imp_right And.left⟩

/-- **The commit of an attempt that runs alone succeeds**, by induction on how many steps are left. -/
theorem alone_finishes (h : Finishing cfg t m s₀ s) (hag : cfg.HashesAgree) (hr₀ : Sys.Reach cfg ok s₀)
    (hown : ∀ log, ((s₀.threads t).body log).seesOwn = true)
    (hfree : ∀ u, u ≠ t → ∀ v, ¬ (s₀.threads u).Holds v)
    (hclock : s₀.shared.clock < maxVersion - bumpSize)
    (ho : 0 < (s.threads t).commitRank ∨ (s.threads t).pc.isOpen = false) :
    ∃ s', Finishing cfg t m s₀ s' ∧ (s'.threads t).pc.isOpen = false := by
  generalize hn : (s.threads t).commitRank = n at ho
  induction n using Nat.strongRecOn generalizing s with
  | ind n ih =>
    rcases ho with hrank | ho
    · obtain ⟨s', _, hs', hlt, ho'⟩ := h.step hag hr₀ hown hfree hclock (hn ▸ hrank)
      exact ih _ (hn ▸ hlt) hs' rfl ho'
    · exact ⟨s, h, ho⟩

end Commit

/-! ## 3. The whole attempt -/

omit [DecidableEq ι] [DecidableEq ν] in
theorem PC.commitRank_of_not_open {pc : PC ι ν α} {n r : Nat} (h : pc.isOpen = false) :
    pc.commitRank n r = 0 := by
  cases pc <;> first | rfl | cases h

omit [DecidableEq ι] [DecidableEq ν] in
theorem PC.not_inCommit_of_not_open {pc : PC ι ν α} (h : pc.isOpen = false) : pc.inCommit = false := by
  cases pc <;> first | rfl | cases h

section Result

variable {cfg : Config ι ν α} {ok : Request ν α → Prop} {t : ι} {s : Sys ι ν α}

/-- **Obstruction freedom.** Take any reachable state in which nobody holds a lock, the other threads
    standing wherever they like, and a thread about to start an attempt of a body that, performed alone from
    the values the vars have, returns. Then this thread, running alone, commits in that attempt: with the log
    of the body performed alone, and it leaves what the body leaves. -/
theorem solo_commits (hag : cfg.HashesAgree) (h : Sys.Reach cfg ok s) (hpc : (s.threads t).pc = .getClock)
    (hk : (s.threads t).kind = .readWrite) (hown : ∀ log, ((s.threads t).body log).seesOwn = true)
    (hfree : ∀ u v, ¬ (s.threads u).Holds v) (hclock : s.shared.clock < maxVersion - bumpSize)
    {log : Log α} {cur : ν → α} (hL : Performs (s.threads t).body s.value log cur)
    (hret : (s.threads t).body log = .ret) :
    ∃ s', Sys.Alone cfg t s s' ∧ (s'.threads t).pc.isOpen = false ∧
      (∃ c, s'.shared.hist.commits = c :: s.shared.hist.commits ∧ c.tid = t ∧
        c.attempt = (s.threads t).att.number + 1 ∧ c.body = (s.threads t).body ∧ c.log = log) ∧
      s'.value = cur := by
  -- the clock is read: no version is above it
  have hc := commits_reach h
  have hstep : s.step cfg t none = some (s.after t s.shared (getClockStep s.shared (s.threads t))) := by
    rw [Sys.step, threadStep, hpc]
    rfl
  have hm : Move cfg s.shared t (s.threads t) s.opened none s.shared (getClockStep s.shared (s.threads t)) :=
    .getClock hpc
  set s₁ := s.after t s.shared (getClockStep s.shared (s.threads t)) with hs₁
  have hth : s₁.threads t = getClockStep s.shared (s.threads t) := Sys.threads_after_self ..
  have h₁ : Sys.Reach cfg ok s₁ := .step h (fun _ hr => by cases hr) hstep
  have hq : ∀ v, s₁.shared.loadVersion v ≤ (s₁.threads t).version := fun v => by
    rw [hth]
    show s.shared.loadVersion v ≤ s.shared.clock
    obtain ⟨b, hb, ⟨e, _⟩ | ⟨_, u, hu⟩⟩ := (locks_reach h).word v
    · exact e ▸ hb
    · exact absurd hu (hfree u v)
  have hval : s₁.value = s.value := rfl
  -- the body
  obtain ⟨s₂, hs₂, hk₂, hpc₂, -, hnum₂⟩ := solo_performs hag h₁ hq (by rw [hth]; exact hown)
    (by rw [hth, hval]; exact hL) (by rw [hth]; exact hret) .refl
    (SoloOk.refl h₁ (by rw [hth]; rfl) (by rw [hth]; exact hk))
  have h₂ := hs₂.reach h₁
  -- the commit
  have hfree₂ : ∀ u, u ≠ t → ∀ v, ¬ (s₂.threads u).Holds v := fun u hu v => by
    rw [hs₂.alone.others hu, hs₁, Sys.threads_after_ne s hu]
    exact hfree u v
  have hfin : Finishing cfg t s.value s₂ s₂ := by
    refine ⟨.refl, ⟨hk₂.call.1, rfl⟩, rfl, by rw [hpc₂]; rfl, Or.inl ⟨by rw [hpc₂]; rfl, ?_, rfl, rfl, ?_, ?_⟩⟩
    · rw [Thread.commitRank, hpc₂]
      exact Nat.succ_pos _
    · exact hval ▸ hk₂.reads
    · intro c hcm
      rw [hk₂.version, hth]
      exact hc.le_clock c (by rw [hk₂.sameVars.commits] at hcm; exact hcm)
  have hbody₂ : (s₂.threads t).body = (s.threads t).body := by rw [hk₂.call.2, hth]; rfl
  obtain ⟨s', hs', ho⟩ := alone_finishes hfin hag h₂ (by rw [hbody₂]; exact hown) hfree₂
    (by rw [hk₂.sameVars.clock]; exact hclock) (Or.inl (by rw [Thread.commitRank, hpc₂]; exact Nat.succ_pos _))
  have h' := hs'.alone.reach h₂
  rcases hs'.history with ⟨_, hrank, _⟩ | ⟨_, c, hcs, htid, hatt, hbody, hret', hperf⟩
  · rw [Thread.commitRank, PC.commitRank_of_not_open ho] at hrank
    exact absurd hrank (Nat.lt_irrefl 0)
  rw [hbody₂] at hbody hret' hperf
  obtain ⟨hlog, hcur⟩ := hperf.unique hL (Nat.le_antisymm (hL.length_le hret hperf) (hperf.length_le hret' hL))
  refine ⟨s', (Sys.Alone.refl.step hstep).trans (hs₂.alone.trans hs'.alone), ho,
    ⟨c, by rw [hcs, hk₂.sameVars.commits]; rfl, htid, ?_, hbody, hlog⟩, ?_⟩
  · rw [hatt, hnum₂, hth]
    rfl
  · have hfree' : ∀ v u, ¬ (s'.threads u).PreStored v := fun v u hp => by
      by_cases hu : u = t
      · obtain ⟨e, he, _⟩ := hp
        rw [hu, ((s'.threads t).views_of_outside (PC.not_inCommit_of_not_open ho)).2.1] at he
        cases he
      · exact hfree₂ u hu v (hs'.alone.others hu ▸ hp.holds)
    funext v
    rw [← hcur, Sys.value, load_eq_latestValue (commits_reach h') (heap_reach h') (hfree' v), latestValue, hcs,
      Serialization.valueOf_cons, serialization_apply]
    refine congrFun (congrArg c.apply (funext fun w => ?_)) v
    rw [hk₂.sameVars.commits]
    exact (load_eq_latestValue hc (heap_reach h) fun u hp => hfree u w hp.holds).symm

end Result

/-- One thread was stopped between two gets; another one is about to run the same transaction. -/
def stopped : List (Bool × Option (Request Bool Nat)) :=
  (true, some (.readWrite incBoth.body)) :: List.replicate 6 (true, none) ++
    [(false, some (.readWrite incBoth.body))]

theorem stopped_isSome : (Sys.run smallConfig stopped (.init smallConfig)).isSome = true := by decide

/-- It commits past the one that was stopped. -/
theorem solo_commits_stopped :
    let s := (Sys.run smallConfig stopped (.init smallConfig)).get stopped_isSome
    ∃ s', Sys.Alone smallConfig false s s' ∧ (s'.threads false).pc.isOpen = false ∧
      (∃ c, s'.shared.hist.commits = c :: s.shared.hist.commits ∧ c.tid = false ∧
        c.attempt = (s.threads false).att.number + 1 ∧ c.body = (s.threads false).body ∧
        c.log = [none, some 0, none, none, some 0, none]) ∧
      s'.value = Function.update (Function.update (fun _ => 0) true 1) false 1 := by
  intro s
  have hr : Sys.Reach smallConfig (fun _ => True) s :=
    .of_run (fun _ _ _ _ => trivial) (Option.some_get stopped_isSome).symm
  have hval : s.value = fun _ => 0 := funext fun v => by cases v <;> decide
  refine solo_commits smallConfig_hashesAgree hr rfl rfl (fun log => ?_) (fun u v ⟨e, he, _⟩ => ?_) (by decide)
    ?_ rfl
  · show (incBoth.body log).seesOwn = true
    have := Prog.isTracked_body incBoth log
    revert this
    cases incBoth.body log <;> intro h <;> first | rfl | cases h
  · have hnil := ((s.threads u).views_of_outside (by cases u <;> decide)).1
    rw [hnil] at he
    cases he
  · rw [hval]
    exact (((((Performs.start.step rfl).step rfl).step rfl).step rfl).step rfl).step rfl

end LockfreeStm
