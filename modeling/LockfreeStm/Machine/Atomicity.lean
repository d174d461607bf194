/-
  File:      LockfreeStm/Machine/Atomicity.lean
  Subject:   HOW AN ATTEMPT ENDS: all of it, or nothing of it.

  * `Phase`, `Move.phase` -- the phases of a call and the order they come in.
  * `CommitIds`, `commitIds_reach` -- an attempt that has not come to its commit has none in the
    history, an attempt that is about to return has one.
  * `Since`, `since_steps` -- what a run adds to the history while an attempt is under way.
  * `attempt_outcome` -- **the main result**: every read_write attempt starts in `valid_start_state`
    and ends in one of two ways. It fails: then it has run its fail callbacks, each once and in
    reverse, nothing else of it remains, and the vars are as it found them but for the commits of
    others. Or it commits: then it has run none of its callbacks, and its success callbacks are the
    newest chunk.
-/
import LockfreeStm.Machine.Commits
import LockfreeStm.Machine.Attempt

namespace LockfreeStm

variable {ι ν α : Type}

/-! ## 1. The phases of a call -/

/-- The phases of a call. -/
inductive Phase where
  | outside
  | starting
  | attempt
  | committed
  | failing
deriving DecidableEq

/-- The phase a place belongs to. -/
def PC.phase : PC ι ν α → Phase
  | .idle | .waitMinEpoch _ _ _ _ | .waitOnEpoch _ _ _ _ _ | .succCallbacks _ _ _ _ => .outside
  | .getClock => .starting
  | .publish _ _ | .txSuccess _ => .committed
  | .failCallbacks _ _ => .failing
  | _ => .attempt

/-- The phases of an attempt. -/
def Phase.inAttempt : Phase → Bool
  | .attempt | .committed | .failing => true
  | _ => false

/-- The order the phases come in. -/
inductive PhaseStep (kind : TxKind) : Phase → Phase → Prop where
  | stay (p : Phase) : PhaseStep kind p p
  | call : PhaseStep kind .outside .starting
  | attempt : PhaseStep kind .starting .attempt
  | commit : PhaseStep kind .attempt .committed
  | fail : PhaseStep kind .attempt .failing
  | failReadOnly (p : Phase) (hk : kind = .readOnly) : PhaseStep kind .attempt p
  | success : PhaseStep kind .committed .outside
  | retry : PhaseStep kind .failing .starting
  | throw : PhaseStep kind .failing .outside

variable [DecidableEq ι] [DecidableEq ν]

section Move

variable {cfg : Config ι ν α} {sh sh' : Shared ι ν α} {t : ι} {th th' : Thread ι ν α}
  {opened : ι → Option Nat} {req : Option (Request ν α)}

omit [DecidableEq ι] [DecidableEq ν] in
theorem PC.phase_of_inBody {pc : PC ι ν α} (h : pc.inBody = true) : pc.phase = .attempt := by
  cases pc <;> first | rfl | cases h

omit [DecidableEq ι] [DecidableEq ν] in
theorem PC.not_open_of_phase {pc : PC ι ν α} (h : pc.phase.inAttempt = false) :
    pc.isOpen = false := by
  cases pc <;> first | rfl | cases h

omit [DecidableEq ι] [DecidableEq ν] in
theorem reclaim_outside (cfg : Config ι ν α) (th : Thread ι ν α) (e : Epoch) :
    (th.reclaim cfg e).pc.phase = .outside := by
  simp only [Thread.reclaim]
  split
  · split <;> rfl
  · rfl

/-- **A step goes on to the next phase or stays.** -/
theorem Move.phase (h : Move cfg sh t th opened req sh' th') :
    PhaseStep th.kind th.pc.phase th'.pc.phase := by
  have stay : th'.pc.phase = th.pc.phase → PhaseStep th.kind th.pc.phase th'.pc.phase :=
    fun e => e ▸ .stay _
  cases h with
  | enter k body hpc => rw [hpc]; exact .call
  | getClock hpc => rw [hpc]; exact .attempt
  | goto pc' hin hout =>
      rcases hout with h | ⟨_, rfl⟩ | rfl | ⟨rfl, _⟩
      · exact stay ((PC.phase_of_inBody (PC.inBody_of_isEntry h)).trans (PC.phase_of_inBody hin).symm)
      · exact stay (PC.phase_of_inBody hin).symm
      · exact stay (PC.phase_of_inBody hin).symm
      · rw [PC.phase_of_inBody hin]; exact .commit
  | reclaimNothing | waitMore => exact .stay _
  | atomicPush v s hpc | atomicOverwrite v s i hpc =>
      exact stay (by rcases hpc with ⟨hpc, _⟩ | hpc <;> rw [hpc] <;> rfl)
  | lockInvalid i hi hpc => exact stay (by rcases hpc with hpc | ⟨_, hpc⟩ <;> rw [hpc] <;> rfl)
  | commitEmpty hpc => rw [hpc]; exact .commit
  | bump hpc => rw [hpc]; exact .commit
  | successReadOnly sync hpc => rw [hpc]; exact .success
  | success sync hpc => rw [hpc, reclaim_outside]; exact .success
  | failureReadOnly exn hpc hk => rw [hpc]; exact .failReadOnly _ hk
  | failure exn hpc => rw [hpc]; exact .fail
  | failDone exn hpc =>
      rw [hpc]
      cases exn
      · exact .retry
      · exact .throw
  | _ => exact stay (by simp only [*]; rfl)

/-- A commit enters the history as the attempt passes to the phase `committed`. -/
theorem Move.commits (h : Move cfg sh t th opened req sh' th') :
    (sh'.hist.commits = sh.hist.commits ∧
      (th'.pc.phase = .committed → th.pc.phase = .committed ∨ th.kind = .readOnly)) ∨
    ∃ c, sh'.hist.commits = c :: sh.hist.commits ∧ c.tid = t ∧ c.attempt = th.att.number ∧
      th.pc.phase = .attempt ∧ th'.pc.phase = .committed ∧ th'.att = th.att := by
  cases h with
  | reclaimNothing | waitMore => exact Or.inl ⟨rfl, Or.inl⟩
  | goto pc' hin hout =>
      refine Or.inl ⟨rfl, fun hp => Or.inr ?_⟩
      rcases hout with h | ⟨_, rfl⟩ | rfl | ⟨_, hk⟩
      · have := (PC.phase_of_inBody (PC.inBody_of_isEntry h)).symm.trans hp
        cases this
      · cases hp
      · cases hp
      · exact hk
  | readReturns =>
      refine Or.inl ⟨?_, fun hp => by cases hp⟩
      unfold Shared.noteRead
      split <;> rfl
  | storePending v x pending => exact Or.inl ⟨by cases pending <;> rfl, fun hp => by cases hp⟩
  | commitEmpty hpc => exact Or.inr ⟨_, rfl, rfl, rfl, by rw [hpc]; rfl, rfl, rfl⟩
  | bump hpc => exact Or.inr ⟨_, rfl, rfl, rfl, by rw [hpc]; rfl, rfl, rfl⟩
  | publish i sync e hpc | published i sync hpc =>
      exact Or.inl ⟨rfl, fun _ => Or.inl (by rw [hpc]; rfl)⟩
  | success sync hpc => exact Or.inl ⟨rfl, fun _ => Or.inl (by rw [hpc]; rfl)⟩
  | failureReadOnly exn hpc hk => exact Or.inl ⟨rfl, fun _ => Or.inr hk⟩
  | failDone exn => exact Or.inl ⟨rfl, by cases exn <;> exact fun hp => by cases hp⟩
  | failCallback exn left cb => exact Or.inl ⟨by cases cb.action <;> rfl, fun hp => by cases hp⟩
  | succCallback mode epoch minEpoch i ch cb =>
      exact Or.inl ⟨by cases cb.action <;> rfl, fun hp => by cases hp⟩
  | _ => exact Or.inl ⟨rfl, fun hp => by cases hp⟩

/-- The history of the attempt is kept until the next one begins. -/
theorem Move.attempt (h : Move cfg sh t th opened req sh' th') (hpc : th.pc ≠ .getClock) :
    th'.att.number = th.att.number ∧ th'.att.ranBefore = th.att.ranBefore ∧
      th'.att.chunksBefore = th.att.chunksBefore := by
  cases h with
  | getClock h => exact absurd h hpc
  | readReturns path v st =>
      unfold Thread.noteRead Thread.pushRead
      split <;> split <;> exact ⟨rfl, rfl, rfl⟩
  | success sync => rw [att_reclaim]; exact ⟨rfl, rfl, rfl⟩
  | failureReadOnly exn => rw [att_afterFailure]; exact ⟨rfl, rfl, rfl⟩
  | failDone exn => rw [att_afterFailure]; exact ⟨rfl, rfl, rfl⟩
  | _ => exact ⟨rfl, rfl, rfl⟩

/-- A call begins, or its kind and its body are kept. -/
theorem Move.call (h : Move cfg sh t th opened req sh' th') :
    (∃ k body, (k = .readWrite ∧ req = some (.readWrite body) ∨
        k = .readOnly ∧ req = some (.readOnly body)) ∧
      th'.pc = .getClock ∧ th'.kind = k ∧ th'.body = body) ∨
    th'.kind = th.kind ∧ th'.body = th.body ∧ (th'.pc.inCall = true → th.pc.inCall = true) := by
  cases h with
  | enter k body hpc hreq => exact Or.inl ⟨k, body, hreq, rfl, rfl, rfl⟩
  | reclaimNothing | waitMore => exact Or.inr ⟨rfl, rfl, id⟩
  | goto pc' hin =>
      exact Or.inr ⟨rfl, rfl, fun _ => PC.inCall_of_isOpen (PC.isOpen_of_inBody hin)⟩
  | readReturns path v st hpc =>
      refine Or.inr ⟨?_, ?_, fun _ => by rw [hpc]; rfl⟩
      all_goals
        unfold Thread.noteRead Thread.pushRead
        split <;> split <;> rfl
  | atomicPush v s hpc | atomicOverwrite v s i hpc =>
      exact Or.inr ⟨rfl, rfl, fun _ => by rcases hpc with ⟨hpc, _⟩ | hpc <;> rw [hpc] <;> rfl⟩
  | lockInvalid i hi hpc =>
      exact Or.inr ⟨rfl, rfl, fun _ => by rcases hpc with hpc | ⟨_, hpc⟩ <;> rw [hpc] <;> rfl⟩
  | success sync hpc =>
      refine Or.inr ⟨?_, ?_, fun _ => by rw [hpc]; rfl⟩
      all_goals
        simp only [Thread.reclaim]
        split
        · split <;> rfl
        · rfl
  | failureReadOnly exn hpc => exact Or.inr ⟨by cases exn <;> rfl, by cases exn <;> rfl, fun _ => by rw [hpc]; rfl⟩
  | failDone exn hpc => exact Or.inr ⟨by cases exn <;> rfl, by cases exn <;> rfl, fun _ => by rw [hpc]; rfl⟩
  | _ => first
    | exact Or.inr ⟨rfl, rfl, fun _ => by simp only [*]; rfl⟩
    | exact Or.inr ⟨rfl, rfl, fun h => by cases h⟩

/-- The kind of a call is kept until the next call. -/
theorem Move.kind (h : Move cfg sh t th opened req sh' th') (hp : th'.pc.phase ≠ .starting) :
    th'.kind = th.kind := by
  rcases h.call with ⟨_, _, _, hpc, _⟩ | ⟨hk, _⟩
  · exact absurd (by rw [hpc]; rfl) hp
  · exact hk

end Move

/-! ## 2. Whose commits there are -/

/-- The commits of a thread and its running attempt. -/
structure CommitIds (commits : List (Commit ι ν α)) (t : ι) (th : Thread ι ν α) : Prop where
  le : ∀ c ∈ commits, c.tid = t → c.attempt ≤ th.att.number
  uncommitted : th.pc.phase = .attempt ∨ th.pc.phase = .failing →
    ∀ c ∈ commits, c.tid = t → c.attempt ≠ th.att.number
  committed : th.pc.phase = .committed → th.kind ≠ .readOnly →
    ∃ c ∈ commits, c.tid = t ∧ c.attempt = th.att.number

section Step

variable {cfg : Config ι ν α} {sh sh' : Shared ι ν α} {t : ι} {th th' : Thread ι ν α}
  {opened : ι → Option Nat} {req : Option (Request ν α)}

/-- An attempt is not over, or a new one begins. -/
theorem PhaseStep.into_attempt {kind : TxKind} {p p' : Phase} (h : PhaseStep kind p p')
    (hp : p' = .attempt ∨ p' = .failing) :
    p = .attempt ∨ p = .failing ∨ p = .starting := by
  cases h with
  | stay => exact hp.imp_right Or.inl
  | attempt => exact Or.inr (Or.inr rfl)
  | fail | failReadOnly => exact Or.inl rfl
  | _ => rcases hp with hp | hp <;> cases hp

omit [DecidableEq ι] [DecidableEq ν] in
theorem PC.eq_getClock {pc : PC ι ν α} (h : pc.phase = .starting) : pc = .getClock := by
  cases pc <;> first | rfl | cases h

/-- A thread's own step keeps its commits right. -/
theorem CommitIds.step (h : CommitIds sh.hist.commits t th)
    (hm : Move cfg sh t th opened req sh' th') : CommitIds sh'.hist.commits t th' := by
  rcases hm.commits with ⟨hc, hcom⟩ | ⟨c, hc, htid, hatt, hp, hp', ha⟩
  · rw [hc]
    rcases hm.number with ⟨hng, hn⟩ | ⟨hg, hn⟩
    · refine ⟨hn ▸ h.le, fun hp => ?_, fun hp hk => ?_⟩
      · rw [hn]
        rcases hm.phase.into_attempt hp with hp | hp | hp
        · exact h.uncommitted (Or.inl hp)
        · exact h.uncommitted (Or.inr hp)
        · exact absurd (PC.eq_getClock hp) hng
      · have hkind := hm.kind (by rw [hp]; exact nofun)
        rw [hn]
        rw [hkind] at hk
        exact h.committed ((hcom hp).resolve_right hk) hk
    · refine ⟨fun c hm ht => hn ▸ Nat.le_succ_of_le (h.le c hm ht), fun _ c hm ht => ?_, fun hp _ => ?_⟩
      · rw [hn]
        exact Nat.ne_of_lt (Nat.lt_succ_of_le (h.le c hm ht))
      · have hph := hm.phase
        rw [hg, hp] at hph
        cases hph
  · rw [hc]
    refine ⟨List.forall_mem_cons.mpr ⟨fun _ => by rw [hatt, ha], ha ▸ h.le⟩, fun hp => ?_,
      fun _ _ => ⟨c, List.mem_cons_self, htid, by rw [hatt, ha]⟩⟩
    rw [hp'] at hp
    rcases hp with hp | hp <;> cases hp

/-- The step of another thread adds no commit of this one. -/
theorem CommitIds.step_ne (h : CommitIds sh.hist.commits t th) {u : ι} {thu thu' : Thread ι ν α}
    (hu : t ≠ u) (hm : Move cfg sh u thu opened req sh' thu') : CommitIds sh'.hist.commits t th := by
  rcases hm.commits with ⟨hc, _⟩ | ⟨c, hc, htid, _⟩
  · exact hc ▸ h
  · have hne : c.tid ≠ t := fun e => hu (e ▸ htid)
    rw [hc]
    exact ⟨List.forall_mem_cons.mpr ⟨fun e => absurd e hne, h.le⟩,
      fun hp => List.forall_mem_cons.mpr ⟨fun e => absurd e hne, h.uncommitted hp⟩,
      fun hp hk => (h.committed hp hk).imp fun _ hc => ⟨List.mem_cons_of_mem _ hc.1, hc.2⟩⟩

end Step

/-- **In every state reached the commits of every thread are those of attempts it has made.** -/
theorem commitIds_reach {cfg : Config ι ν α} {ok : Request ν α → Prop} {s : Sys ι ν α}
    (h : Sys.Reach cfg ok s) (t : ι) : CommitIds s.shared.hist.commits t (s.threads t) := by
  revert t
  refine h.induct (P := fun s => ∀ t, CommitIds s.shared.hist.commits t (s.threads t)) ?_ ?_
  · exact fun t => ⟨fun _ hc => absurd hc List.not_mem_nil, fun _ _ hc => absurd hc List.not_mem_nil,
      fun hp => by cases hp⟩
  · intro s t req sh' th' _ ih _ hm
    exact Sys.forall_after (P := fun u th => CommitIds sh'.hist.commits u th) ((ih t).step hm)
      fun u hu => (ih u).step_ne hu hm

/-- The call a thread is in was requested. -/
theorem request_of_inCall {cfg : Config ι ν α} {ok : Request ν α → Prop} {s : Sys ι ν α}
    (h : Sys.Reach cfg ok s) (t : ι) (hin : (s.threads t).pc.inCall = true) :
    ((s.threads t).kind = .readWrite ∧ ok (.readWrite (s.threads t).body)) ∨
      ((s.threads t).kind = .readOnly ∧ ok (.readOnly (s.threads t).body)) := by
  revert t
  refine h.induct (P := fun s => ∀ t, (s.threads t).pc.inCall = true →
    ((s.threads t).kind = .readWrite ∧ ok (.readWrite (s.threads t).body)) ∨
      ((s.threads t).kind = .readOnly ∧ ok (.readOnly (s.threads t).body))) (fun t hin => by cases hin) ?_
  intro s t req sh' th' _ ih hreq hm
  refine Sys.forall_after (P := fun _ th => th.pc.inCall = true →
    (th.kind = .readWrite ∧ ok (.readWrite th.body)) ∨ (th.kind = .readOnly ∧ ok (.readOnly th.body)))
    (fun hin => ?_) fun u _ => ih u
  rcases hm.call with ⟨_, _, ⟨rfl, hr⟩ | ⟨rfl, hr⟩, _, hk', hb⟩ | ⟨hk', hb, hc⟩
  · exact Or.inl ⟨hk', hb ▸ hreq _ hr⟩
  · exact Or.inr ⟨hk', hb ▸ hreq _ hr⟩
  · rw [hk', hb]
    exact ih t (hc hin)

theorem readWrite_of_inCall {cfg : Config ι ν α} {ok : Request ν α → Prop} {s : Sys ι ν α}
    (h : Sys.Reach cfg ok s) (t : ι) (hin : (s.threads t).pc.inCall = true)
    (hk : (s.threads t).kind = .readWrite) : ok (.readWrite (s.threads t).body) := by
  rcases request_of_inCall h t hin with ⟨_, hok⟩ | ⟨hk', _⟩
  · exact hok
  · rw [hk] at hk'
    cases hk'

/-! ## 3. Runs -/

/-- What has happened to thread `t` between `s`, where an attempt begins, and `s'`. -/
structure Since (t : ι) (s s' : Sys ι ν α) : Prop where
  number : (s.threads t).att.number ≤ (s'.threads t).att.number
  same : (s'.threads t).att.number = (s.threads t).att.number →
    (s'.threads t).att.ranBefore = (s.threads t).att.ranBefore ∧
      (s'.threads t).att.chunksBefore = (s.threads t).att.chunksBefore
  kind : (s'.threads t).att.number = (s.threads t).att.number →
    (s'.threads t).pc.phase.inAttempt = true → (s'.threads t).kind = (s.threads t).kind
  commits : ∃ new, s'.shared.hist.commits = new ++ s.shared.hist.commits ∧
    ∀ c ∈ new, c.tid = t → (s.threads t).att.number ≤ c.attempt

theorem PhaseStep.inAttempt {kind : TxKind} {p p' : Phase} (h : PhaseStep kind p p')
    (hp : p'.inAttempt = true) : p.inAttempt = true ∨ p = .starting := by
  cases h with
  | stay => exact Or.inl hp
  | attempt => exact Or.inr rfl
  | commit | fail | failReadOnly => exact Or.inl rfl
  | _ => cases hp

/-- One more step. -/
theorem Since.step {cfg : Config ι ν α} {s s' : Sys ι ν α} {t u : ι} {req : Option (Request ν α)}
    {sh' : Shared ι ν α} {th' : Thread ι ν α} (h : Since t s s')
    (hm : Move cfg s'.shared u (s'.threads u) s'.opened req sh' th') :
    Since t s (s'.after u sh' th') := by
  have hcommits : ∃ new, sh'.hist.commits = new ++ s.shared.hist.commits ∧
      ∀ c ∈ new, c.tid = t → (s.threads t).att.number ≤ c.attempt := by
    obtain ⟨new, he, hnew⟩ := h.commits
    rcases hm.commits with ⟨hc, _⟩ | ⟨c, hc, htid, hatt, _⟩
    · exact ⟨new, hc.trans he, hnew⟩
    · refine ⟨c :: new, by rw [hc, he, List.cons_append], List.forall_mem_cons.mpr ⟨fun e => ?_, hnew⟩⟩
      rw [hatt, ← htid, e]
      exact h.number
  by_cases hu : u = t
  · subst hu
    refine ⟨?_, ?_, ?_, hcommits⟩
    all_goals rw [Sys.threads_after_self]
    · rcases hm.number with ⟨_, e⟩ | ⟨_, e⟩
      · exact e ▸ h.number
      · exact e ▸ Nat.le_succ_of_le h.number
    · intro hn
      rcases hm.number with ⟨hg, e⟩ | ⟨_, e⟩
      · obtain ⟨_, e1, e2⟩ := hm.attempt hg
        rw [e1, e2]
        exact h.same (e ▸ hn)
      · exact absurd (hn ▸ e) (Nat.ne_of_lt (Nat.lt_succ_of_le h.number))
    · intro hn hp
      rcases hm.number with ⟨hg, e⟩ | ⟨_, e⟩
      · rw [hm.kind (fun hs => by rw [hs] at hp; cases hp)]
        exact h.kind (e ▸ hn) ((hm.phase.inAttempt hp).resolve_right fun hs => hg (PC.eq_getClock hs))
      · exact absurd (hn ▸ e) (Nat.ne_of_lt (Nat.lt_succ_of_le h.number))
  · refine ⟨?_, ?_, ?_, hcommits⟩
    all_goals rw [Sys.threads_after_ne s' (Ne.symm hu)]
    · exact h.number
    · exact h.same
    · exact h.kind

/-- A run keeps the account of an attempt. -/
theorem since_steps {cfg : Config ι ν α} {ok : Request ν α → Prop} {s s' : Sys ι ν α}
    (h : Sys.Steps cfg ok s s') (t : ι) : Since t s s' := by
  induction h with
  | refl =>
      exact ⟨Nat.le_refl _, fun _ => ⟨rfl, rfl⟩, fun _ _ => rfl, [], rfl, fun _ hc =>
        absurd hc List.not_mem_nil⟩
  | step _ _ hs ih =>
      obtain ⟨sh', th', hm, rfl⟩ := Sys.step_move hs
      exact ih.step hm

/-! ## 4. The outcome -/

/-- Between `s` and `s'`, where thread `t` holds nothing, the vars change by commits only: a var that
    none of the `new` commits wrote has the storage it had, unless another thread has stored it
    without having bumped the clock, and the version it had, unless another thread holds its lock. -/
def OnlyCommits (t : ι) (new : List (Commit ι ν α)) (s s' : Sys ι ν α) : Prop :=
  ∀ v, (∀ c ∈ new, ¬ ∃ w ∈ c.writes, w.var = v) →
    ((∀ u, u ≠ t → ¬ (s.threads u).PreStored v ∧ ¬ (s'.threads u).PreStored v) →
      s'.shared.loadStorage v = s.shared.loadStorage v) ∧
    ((∀ u, u ≠ t → ¬ (s.threads u).Holds v ∧ ¬ (s'.threads u).Holds v) →
      s'.shared.loadVersion v = s.shared.loadVersion v)

/-- The attempt thread `t` began in `s` has failed in `s'`. -/
structure HasFailed (t : ι) (s s' : Sys ι ν α) : Prop where
  ran : (s'.threads t).ran = (s.threads t).ran ++ (s'.threads t).att.regFail.reverse
  chunks : (s'.threads t).td.succCallbacks.chunks = (s.threads t).td.succCallbacks.chunks
  start : (s'.threads t).td.validStartState
  vars : ∃ new, s'.shared.hist.commits = new ++ s.shared.hist.commits ∧ (∀ c ∈ new, c.tid ≠ t) ∧
    OnlyCommits t new s s'
  next : (s'.threads t).pc = .getClock ∧ (s'.threads t).td.txState = .readWrite ∨
    (s'.threads t).pc = .idle ∧ (s'.threads t).td.txState = .none

/-- The attempt thread `t` began in `s` has committed in `s'`. -/
structure HasCommitted (t : ι) (s s' : Sys ι ν α) : Prop where
  ran : (s'.threads t).ran = (s.threads t).ran
  chunks : ∃ epoch, (s'.threads t).td.succCallbacks.chunks = (s.threads t).td.succCallbacks.chunks ++
    if (s'.threads t).att.regSucc = [] then [] else [⟨epoch, (s'.threads t).att.regSucc⟩]
  start : (s'.threads t).td.validStartState
  commit : ∃ c ∈ s'.shared.hist.commits, c.tid = t ∧ c.attempt = (s.threads t).att.number
  txState : (s'.threads t).td.txState = .none

section Outcome

variable {cfg : Config ι ν α} {ok : Request ν α → Prop} {s s' : Sys ι ν α} {t : ι}

omit [DecidableEq ι] in
/-- A latest write that no new commit is stays the latest. -/
theorem latest_append {new cs : List (Commit ι ν α)} {v : ν}
    (h : ∀ c ∈ new, ¬ ∃ w ∈ c.writes, w.var = v) : latest (new ++ cs) v = latest cs v := by
  induction new with
  | nil => rfl
  | cons c new ih =>
      rw [List.forall_mem_cons] at h
      exact (WriteLog.latest_cons_none (WriteLog.not_writes.mp fun hw =>
        h.1 (Commit.writes_iff.mp hw))).trans (ih h.2)

/-- Between two states in which thread `t` is outside its commit the vars change by commits only. -/
theorem onlyCommits (h : Sys.Reach cfg ok s) (h' : Sys.Reach cfg ok s')
    (ho : (s.threads t).pc.inCommit = false) (ho' : (s'.threads t).pc.inCommit = false)
    {new : List (Commit ι ν α)} (he : s'.shared.hist.commits = new ++ s.shared.hist.commits) :
    OnlyCommits t new s s' := by
  intro v hnew
  have hlat : latest s'.shared.hist.commits v = latest s.shared.hist.commits v := by
    rw [he]
    exact latest_append hnew
  have hno : ∀ {s : Sys ι ν α}, (s.threads t).pc.inCommit = false →
      ¬ (s.threads t).PreStored v ∧ ¬ (s.threads t).Holds v := by
    intro s ho
    obtain ⟨e1, e2, _⟩ := (s.threads t).views_of_outside ho
    rw [Thread.PreStored, Thread.Holds, e1, e2]
    constructor
    all_goals
      rintro ⟨_, hm, _⟩
      exact List.not_mem_nil hm
  constructor
  · intro hs
    have h1 := ((commits_reach h).var v).storage fun u => by
      by_cases hu : u = t
      · exact hu ▸ (hno ho).1
      · exact (hs u hu).1
    have h2 := ((commits_reach h').var v).storage fun u => by
      by_cases hu : u = t
      · exact hu ▸ (hno ho').1
      · exact (hs u hu).2
    rw [h1, h2, latestStorage_of_eq hlat]
  · intro hs
    have h1 := (commits_reach h).unlocked (active_reach h) (locks_reach h) (v := v) fun u => by
      by_cases hu : u = t
      · exact hu ▸ (hno ho).2
      · exact (hs u hu).1
    have h2 := (commits_reach h').unlocked (active_reach h') (locks_reach h') (v := v) fun u => by
      by_cases hu : u = t
      · exact hu ▸ (hno ho').2
      · exact (hs u hu).2
    rw [h1.1, h2.1, latestVersion_of_eq hlat]

/-- The last step of a failing attempt. -/
theorem hasFailed (h : Sys.Reach cfg ok s) (hs : Sys.Steps cfg ok s s')
    (hpc : (s.threads t).pc = .accessLock) (hk : (s.threads t).kind = .readWrite)
    (hn : (s'.threads t).att.number = (s.threads t).att.number) {exn : Bool}
    (hpc' : (s'.threads t).pc = .failCallbacks exn 0) {s'' : Sys ι ν α}
    (hr'' : Sys.Reach cfg ok s'')
    (hs'' : s'' = s'.after t s'.shared (afterFailure (s'.threads t).clearFailCallbacks exn)) :
    HasFailed t s s'' := by
  have hsince := since_steps hs t
  obtain ⟨_, _, hfd, hch, hran⟩ := (books_reach (h.steps hs) t).failing exn 0 hpc'
  obtain ⟨_, _, hch0, hran0⟩ := (books_reach h t).attempt (by rw [hpc]; rfl)
  obtain ⟨e1, e2⟩ := hsince.same hn
  have hth : s''.threads t = afterFailure (s'.threads t).clearFailCallbacks exn := by
    rw [hs'', Sys.threads_after_self]
  have hb := books_reach hr'' t
  have hpcs : (s''.threads t).pc.isOpen = false ∧ (s''.threads t).pc.isFailing = false ∧
      (s''.threads t).pc.inCommit = false := by
    rw [hth]
    cases exn <;> exact ⟨rfl, rfl, rfl⟩
  refine ⟨?_, ?_, hb.validStartState hpcs.1 hpcs.2.1, ?_, ?_⟩
  · have hran'' : (s''.threads t).ran = (s'.threads t).ran := by rw [hth]; cases exn <;> rfl
    have hatt : (s''.threads t).att = (s'.threads t).att := by rw [hth, att_afterFailure]; rfl
    rw [hran'', hatt, hran, e1, ← hran0, List.drop_zero]
  · have hch'' : (s''.threads t).td.succCallbacks = (s'.threads t).td.succCallbacks := by
      rw [hth]; cases exn <;> rfl
    rw [hch'', hch, e2, ← hch0]
  · obtain ⟨new, he, hnew⟩ := hsince.commits
    have he'' : s''.shared.hist.commits = new ++ s.shared.hist.commits := by rw [hs'']; exact he
    refine ⟨new, he'', fun c hc htid => ?_, onlyCommits h hr'' (by rw [hpc]; rfl) hpcs.2.2 he''⟩
    -- a commit of this thread would be one of the failing attempt, which has none
    have hids := commitIds_reach (h.steps hs) t
    have hmem : c ∈ s'.shared.hist.commits := he ▸ List.mem_append_left _ hc
    refine hids.uncommitted (Or.inr (by rw [hpc']; rfl)) c hmem htid ?_
    exact Nat.le_antisymm (hids.le c hmem htid) (hn ▸ hnew c hc htid)
  · have ht := (books_reach (h.steps hs) t).txState
    rw [hpc'] at ht
    have hkind := hsince.kind hn (by rw [hpc']; rfl)
    rw [hth]
    cases exn
    · exact Or.inl ⟨rfl, ht.trans (hkind.trans hk)⟩
    · exact Or.inr ⟨rfl, rfl⟩

/-- The step out of a committed attempt. -/
theorem hasCommitted (h : Sys.Reach cfg ok s) (hs : Sys.Steps cfg ok s s')
    (hpc : (s.threads t).pc = .accessLock) (hk : (s'.threads t).kind ≠ .readOnly)
    (hn : (s'.threads t).att.number = (s.threads t).att.number) {sync : Epoch}
    (hpc' : (s'.threads t).pc = .txSuccess sync) {s'' : Sys ι ν α} (hr'' : Sys.Reach cfg ok s'')
    (hs'' : s'' = s'.after t ((s'.shared.storeActive t offState).noteFinished t (s'.threads t).att.number)
      ((((s'.threads t).setTxState .none).clearReadWriteSets.clearFailCallbacks).reclaim cfg sync)) :
    HasCommitted t s s'' := by
  have hsince := since_steps hs t
  obtain ⟨_, hw, hch, hran⟩ := (books_reach (h.steps hs) t).attempt (by rw [hpc']; rfl)
  obtain ⟨_, _, hch0, hran0⟩ := (books_reach h t).attempt (by rw [hpc]; rfl)
  obtain ⟨e1, e2⟩ := hsince.same hn
  have hth : s''.threads t = (((s'.threads t).setTxState .none).clearReadWriteSets.clearFailCallbacks).reclaim
      cfg sync := by
    rw [hs'', Sys.threads_after_self]
  have hb := books_reach hr'' t
  have hph : (s''.threads t).pc.phase = .outside := by rw [hth]; exact reclaim_outside ..
  have hatt : (s''.threads t).att = (s'.threads t).att := by rw [hth, att_reclaim]; rfl
  have hout : (s''.threads t).pc.isOpen = false ∧ (s''.threads t).pc.isFailing = false ∧
      (s''.threads t).pc.inCall = false := by
    revert hph
    cases (s''.threads t).pc <;> first | exact fun _ => ⟨rfl, rfl, rfl⟩ | exact fun h => by cases h
  refine ⟨?_, ⟨sync, ?_⟩, hb.validStartState hout.1 hout.2.1, ?_, ?_⟩
  · have hran'' : (s''.threads t).ran = (s'.threads t).ran := by
      rw [hth]
      simp only [Thread.reclaim]
      split
      · split <;> rfl
      · rfl
    rw [hran'', hran, e1, ← hran0]
  · have hch'' : (s''.threads t).td.succCallbacks.chunks =
        ((s'.threads t).td.succCallbacks.finalizeEpoch cfg.reclaimLimit sync).1.chunks := by
      rw [hth]
      simp only [Thread.reclaim]
      split
      · split <;> rfl
      · rfl
    rw [hch'', EpochQueue.chunks_finalizeEpoch, hatt, hw, hch, e2, ← hch0]
    cases (s'.threads t).att.regSucc with
    | nil => simp
    | cons c cs => rfl
  · obtain ⟨c, hc, htid, hc'⟩ := (commitIds_reach (h.steps hs) t).committed (by rw [hpc']; rfl) hk
    exact ⟨c, by rw [hs'']; exact hc, htid, hc'.trans hn⟩
  · have := hb.txState
    rwa [hout.2.2] at this

/-- The steps that end an attempt. -/
theorem Move.leave {sh sh' : Shared ι ν α} {th th' : Thread ι ν α} {opened : ι → Option Nat}
    {req : Option (Request ν α)} (h : Move cfg sh t th opened req sh' th')
    (hp : th.pc.phase.inAttempt = true) (hp' : th'.pc.phase.inAttempt = false)
    (hk : th.kind = .readWrite) :
    (∃ exn, th.pc = .failCallbacks exn 0 ∧ sh' = sh ∧ th' = afterFailure th.clearFailCallbacks exn) ∨
    ∃ sync, th.pc = .txSuccess sync ∧ sh' = (sh.storeActive t offState).noteFinished t th.att.number ∧
      th' = ((th.setTxState .none).clearReadWriteSets.clearFailCallbacks).reclaim cfg sync := by
  cases h with
  | failDone exn hpc => exact Or.inl ⟨exn, hpc, rfl, rfl⟩
  | success sync hpc => exact Or.inr ⟨sync, hpc, rfl, rfl⟩
  | successReadOnly sync hpc hro => rw [hk] at hro; cases hro
  | failureReadOnly exn hpc hro => rw [hk] at hro; cases hro
  | goto pc' hin hout =>
      rcases hout with h | ⟨_, rfl⟩ | rfl | ⟨rfl, _⟩
      · have := congrArg Phase.inAttempt (PC.phase_of_inBody (PC.inBody_of_isEntry h))
        exact absurd (this.symm.trans hp') nofun
      all_goals cases hp'
  | reclaimNothing hpc => rw [hpc] at hp; cases hp
  | waitMore mode epoch result u nodes hpc => rw [hpc] at hp; cases hp
  | enter k body hpc => rw [hpc] at hp; cases hp
  | reclaimAll ch hpc => rw [hpc] at hp; cases hp
  | scanned mode epoch result hpc => rw [hpc] at hp; cases hp
  | scanWait mode epoch result u nodes hpc => rw [hpc] at hp; cases hp
  | scanPass mode epoch result u nodes hpc => rw [hpc] at hp; cases hp
  | waitDone mode epoch result u nodes hpc => rw [hpc] at hp; cases hp
  | succCallback mode epoch minEpoch i ch cb hpc => rw [hpc] at hp; cases hp
  | succNext mode epoch minEpoch i ch hpc => rw [hpc] at hp; cases hp
  | succDone mode epoch minEpoch i ch hpc => rw [hpc] at hp; cases hp
  | _ => cases hp'

/-- **An attempt commits or leaves nothing behind.** A thread that is in no call has tx_state none, is
    in no critical section and has its sets and lists empty. A read_write attempt starts with its
    sets and lists empty, nothing it registered runs before it ends, and it ends by failing or by
    committing. -/
theorem attempt_outcome (h : Sys.Reach cfg ok s) (t : ι) :
    ((s.threads t).pc = .idle → (s.threads t).td.txState = .none ∧
      s.shared.active t = offState ∧ (s.threads t).td.validStartState) ∧
    ((s.threads t).pc = .accessLock → (s.threads t).kind = .readWrite →
      (s.threads t).td.validStartState ∧
      ∀ s' s'' req, Sys.Steps cfg ok s s' → (∀ r ∈ req, ok r) → s'.step cfg t req = some s'' →
        (s'.threads t).att.number = (s.threads t).att.number →
        (s'.threads t).pc.phase.inAttempt = true →
        ((s'.threads t).pc.isOpen = true → (s'.threads t).ran = (s.threads t).ran ∧
          (s'.threads t).td.succCallbacks.chunks = (s.threads t).td.succCallbacks.chunks) ∧
        ((s''.threads t).pc.phase.inAttempt = false →
          s''.shared.active t = offState ∧ (HasFailed t s s'' ∨ HasCommitted t s s''))) := by
  refine ⟨fun hpc => ⟨?_, ?_, ?_⟩, fun hpc hk => ⟨?_, ?_⟩⟩
  · have := (books_reach h t).txState
    rwa [hpc] at this
  · have := (active_reach h).active t
    rwa [hpc] at this
  · exact (books_reach h t).validStartState (by rw [hpc]; rfl) (by rw [hpc]; rfl)
  · exact (books_reach h t).validStartState (by rw [hpc]; rfl) (by rw [hpc]; rfl)
  · intro s' s'' req hs hok hst hn hin
    have hsince := since_steps hs t
    obtain ⟨_, _, hch0, hran0⟩ := (books_reach h t).attempt (by rw [hpc]; rfl)
    refine ⟨fun ho => ?_, fun hout => ?_⟩
    · obtain ⟨_, _, hch, hran⟩ := (books_reach (h.steps hs) t).attempt (PC.inAttempt_of_isOpen ho)
      obtain ⟨e1, e2⟩ := hsince.same hn
      exact ⟨by rw [hran, e1, ← hran0], by rw [hch, e2, ← hch0]⟩
    · have hr'' : Sys.Reach cfg ok s'' := (h.steps hs).step hok hst
      have hact := (active_reach hr'').active t
      obtain ⟨sh', th', hm, rfl⟩ := Sys.step_move hst
      rw [Sys.threads_after_self] at hout
      have hkind := (hsince.kind hn hin).trans hk
      refine ⟨?_, ?_⟩
      · rw [hact, if_neg]
        rw [Sys.threads_after_self, PC.not_open_of_phase hout]
        exact Bool.false_ne_true
      · rcases hm.leave hin hout hkind with ⟨exn, hpc', rfl, rfl⟩ | ⟨sync, hpc', rfl, rfl⟩
        · exact Or.inl (hasFailed h hs hpc hk hn hpc' hr'' rfl)
        · exact Or.inr (hasCommitted h hs hpc (by rw [hkind]; exact nofun) hn hpc' hr'' rfl)

end Outcome

/-- A body that registers a callback of each list, sets a var and retries. -/
def retryBody : Body Bool Nat := fun log =>
  match log.length with
  | 0 => .afterFail 5
  | 1 => .set true 7
  | 2 => .sometimeSynchronizedAfter 9
  | _ => .retry

/-- The state at access_lock of its first attempt. -/
def retryStart : Sys Bool Bool Nat :=
  (Sys.run smallConfig [(false, some (.readWrite retryBody)), (false, none)]
    (.init smallConfig)).get (by decide)

/-- The state after its last fail callback. -/
def retryRan : Sys Bool Bool Nat :=
  (Sys.run smallConfig (List.replicate 10 (false, none)) retryStart).get (by decide)

/-- The state before its second attempt. -/
def retryEnd : Sys Bool Bool Nat := (retryRan.step smallConfig false none).get (by decide)

theorem attempt_outcome_retry :
    (retryEnd.threads false).ran.map (·.action) = [.destroyDeallocate (.ptr 2), .user 5] ∧
      retryEnd.shared.active false = offState ∧
      (HasFailed false retryStart retryEnd ∨ HasCommitted false retryStart retryEnd) := by
  have hr : Sys.Reach smallConfig (fun _ => True) retryStart :=
    .of_run (fun _ _ _ _ => trivial) (Option.some_get _).symm
  have hs : Sys.Steps smallConfig (fun _ => True) retryStart retryRan :=
    .of_run (fun _ _ _ _ => trivial) (Option.some_get _).symm
  have hend : retryRan.step smallConfig false none = some retryEnd := (Option.some_get _).symm
  refine ⟨by decide, ?_⟩
  exact (((attempt_outcome hr false).2 (by rfl) rfl).2 retryRan retryEnd none hs
    (fun _ _ => trivial) hend rfl rfl).2 rfl

end LockfreeStm
