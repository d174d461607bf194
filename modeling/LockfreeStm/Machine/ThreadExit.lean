/-
  File:      LockfreeStm/Machine/ThreadExit.lean
  Subject:   CALLBACKS THAT RUN TRANSACTIONS, AND `reclaim_all` AT THREAD EXIT.

  A success callback may run transactions of its own: `destroy_deallocate` runs a destructor, and that may
  call `read_write`. The transaction commits while `do_first_epoch_callbacks` stands at the callback that
  called it, and its callbacks are queued behind all others, under the epoch of its own clock bump.
  `reclaim_all` has waited before its loop, for the newest epoch there was; the loop goes on until the buffer
  is empty, and waits for nobody again.

  `ExitSys` is the machine with such callbacks: a thread inside a callback is an idle thread that remembers
  where in the loop the callback was called. It may request transactions like any idle thread, and then
  returns from the callback.

  * `ExitMove`, `ExitSys.step_move` -- every step, once.
  * `BumpsAlone` -- the condition: a transaction called from the loop of `reclaim_all` that has registered a
    callback bumps the clock while no other thread is in a section.
  * `exit_reach` -- in the runs whose steps meet it nobody is exposed to what `reclaim_all` still has to run.
  * `threadExit_grace` -- **the main result**; `threadExit_beside_reader` -- in other runs a callback runs
    beside a thread that has loaded what it destroys.
-/
import LockfreeStm.Machine.ReclaimAll

namespace LockfreeStm

variable {ι ν α : Type}

/-! ## 1. The machine -/

/-- Where `do_first_epoch_callbacks` goes on when the callback it has called returns. -/
structure CallSite where
  mode : ReclaimMode
  epoch : Epoch
  minEpoch : Epoch
  /-- the next callback of the front chunk -/
  next : Nat
deriving DecidableEq

/-- The return from the callback. -/
def CallSite.back (c : CallSite) : PC ι ν α := .succCallbacks c.mode c.epoch c.minEpoch c.next

/-- The callback the thread's next step calls. -/
def Thread.calls (th : Thread ι ν α) : Option CallSite :=
  match th.pc with
  | .succCallbacks mode epoch minEpoch i =>
      (th.td.succCallbacks.chunks.head?.bind fun ch => ch.callbacks[i]?).map fun _ =>
        ⟨mode, epoch, minEpoch, i + 1⟩
  | _ => none

/-- A state of the machine, and for every thread that is inside a success callback where it was called. -/
structure ExitSys (ι ν α : Type) where
  sys : Sys ι ν α
  site : ι → Option CallSite

/-- Nothing has run. -/
def ExitSys.init (cfg : Config ι ν α) : ExitSys ι ν α := ⟨.init cfg, fun _ => none⟩

variable [DecidableEq ι] [DecidableEq ν]

/-- Thread `t` goes to `pc`. -/
def Sys.goto (s : Sys ι ν α) (t : ι) (pc : PC ι ν α) : Sys ι ν α :=
  { s with threads := Function.update s.threads t ((s.threads t).goto pc) }

namespace ExitSys

/-- Thread `t` goes to `pc` and remembers `site`. -/
def goto (x : ExitSys ι ν α) (t : ι) (pc : PC ι ν α) (site : Option CallSite) : ExitSys ι ν α :=
  ⟨x.sys.goto t pc, Function.update x.site t site⟩

/-- The step of a thread inside a callback: the callback returns, or a transaction it runs goes on. The
    buffer is to stay below the limit meanwhile. -/
def callbackStep (cfg : Config ι ν α) (x : ExitSys ι ν α) (t : ι) (c : CallSite)
    (req : Option (Request ν α)) : Option (ExitSys ι ν α) :=
  match (x.sys.threads t).pc, req with
  | .idle, none => some (x.goto t c.back none)
  | .idle, some .reclaimAll => none
  | _, _ => (x.sys.step cfg t req).bind fun s =>
      if (s.threads t).td.succCallbacks.size < cfg.reclaimLimit then some ⟨s, x.site⟩ else none

/-- **One step**: outside the callbacks it is the machine's, and the step that runs a callback enters it. -/
def step (cfg : Config ι ν α) (x : ExitSys ι ν α) (t : ι) (req : Option (Request ν α)) :
    Option (ExitSys ι ν α) :=
  match x.site t with
  | some c => x.callbackStep cfg t c req
  | none => (x.sys.step cfg t req).map fun s =>
      match (x.sys.threads t).calls with
      | some c => ExitSys.goto ⟨s, x.site⟩ t .idle (some c)
      | none => ⟨s, x.site⟩

/-- The states reached by steps that are all taken where `P` holds. -/
inductive ReachWhere (cfg : Config ι ν α) (P : ExitSys ι ν α → ι → Option (Request ν α) → Prop) :
    ExitSys ι ν α → Prop where
  | init : ReachWhere cfg P (.init cfg)
  | step {x y : ExitSys ι ν α} {t : ι} {req : Option (Request ν α)} (h : ReachWhere cfg P x)
      (hp : P x t req) (hs : x.step cfg t req = some y) : ReachWhere cfg P y

/-- A schedule. -/
def run (cfg : Config ι ν α) : List (ι × Option (Request ν α)) → ExitSys ι ν α → Option (ExitSys ι ν α)
  | [], x => some x
  | (t, req) :: rest, x => (x.step cfg t req).bind (run cfg rest)

/-- Every step of the schedule is taken where `p` holds. -/
def allSteps (cfg : Config ι ν α) (p : ExitSys ι ν α → ι → Option (Request ν α) → Bool) :
    List (ι × Option (Request ν α)) → ExitSys ι ν α → Bool
  | [], _ => true
  | (t, req) :: rest, x => p x t req && (x.step cfg t req).all (allSteps cfg p rest)

/-- A schedule whose steps are all taken where `p` holds keeps a condition that `p` implies. -/
theorem ReachWhere.run {cfg : Config ι ν α} {P : ExitSys ι ν α → ι → Option (Request ν α) → Prop}
    {p : ExitSys ι ν α → ι → Option (Request ν α) → Bool} (hp : ∀ x t req, p x t req = true → P x t req)
    {schedule : List (ι × Option (Request ν α))} {x y : ExitSys ι ν α} (h : ReachWhere cfg P x)
    (hall : allSteps cfg p schedule x = true) (hr : ExitSys.run cfg schedule x = some y) :
    ReachWhere cfg P y := by
  induction schedule generalizing x with
  | nil =>
      cases hr
      exact h
  | cons m rest ih =>
      obtain ⟨x1, h1, h2⟩ := Option.bind_eq_some_iff.mp hr
      rw [allSteps, h1, Option.all_some, Bool.and_eq_true] at hall
      exact ih (.step h (hp x m.1 m.2 hall.1) h1) hall.2 h2

end ExitSys

/-! ## 2. Every step -/

/-- A step of thread `t`: a move of the machine, which inside a callback comes to no scan; a move that
    calls a callback; or the return from one. -/
inductive ExitMove (cfg : Config ι ν α) (x : ExitSys ι ν α) (t : ι) (req : Option (Request ν α)) :
    ExitSys ι ν α → Prop where
  | move (sh' : Shared ι ν α) (th' : Thread ι ν α)
      (hm : Move cfg x.sys.shared t (x.sys.threads t) x.sys.opened req sh' th')
      (hin : ∀ c, x.site t = some c → th'.pc.isScanning = false) :
      ExitMove cfg x t req ⟨x.sys.after t sh' th', x.site⟩
  | call (sh' : Shared ι ν α) (th' : Thread ι ν α) (c : CallSite) (hsite : x.site t = none)
      (hm : Move cfg x.sys.shared t (x.sys.threads t) x.sys.opened req sh' th') (hpc : th'.pc = c.back) :
      ExitMove cfg x t req (ExitSys.goto ⟨x.sys.after t sh' th', x.site⟩ t .idle (some c))
  | back (c : CallSite) (hsite : x.site t = some c) (hpc : (x.sys.threads t).pc = .idle) :
      ExitMove cfg x t req (x.goto t c.back none)

section Moves

variable {cfg : Config ι ν α} {sh sh' : Shared ι ν α} {t : ι} {th th' : Thread ι ν α}
  {opened : ι → Option Nat} {req : Option (Request ν α)}

/-- The move that runs a callback comes to the place behind it. -/
theorem Move.calls (hm : Move cfg sh t th opened req sh' th') {c : CallSite} (hc : th.calls = some c) :
    th'.pc = c.back := by
  unfold Thread.calls at hc
  split at hc
  · rename_i mode epoch minEpoch i hpc
    obtain ⟨cb, hcb, rfl⟩ := Option.map_eq_some_iff.mp hc
    obtain ⟨ch, hch, hcb⟩ := Option.bind_eq_some_iff.mp hcb
    cases hm with
    | succCallback mode' epoch' minEpoch' j ch' cb' hpc' =>
        rw [hpc] at hpc'
        cases hpc'
        rfl
    | goto pc' hin =>
        rw [hpc] at hin
        cases hin
    | _ => simp_all
  · cases hc

/-- Below the limit a transaction comes to no scan. -/
theorem Move.not_scanning (hm : Move cfg sh t th opened req sh' th') (hpc : th.pc.isScanning = false)
    (hreq : th.pc = .idle → req ≠ some .reclaimAll) (hsize : th'.td.succCallbacks.size < cfg.reclaimLimit) :
    th'.pc.isScanning = false := by
  cases hm with
  | reclaimNothing hi h | reclaimAll _ hi h => exact absurd h (hreq hi)
  | goto pc' hin hout =>
      rcases hout with h | ⟨_, rfl⟩ | rfl | ⟨rfl, _⟩
      · exact PC.not_scanning_of_inBody (PC.inBody_of_isEntry h)
      all_goals rfl
  | success sync =>
      revert hsize
      simp only [Thread.reclaim]
      split
      · rename_i hreached
        intro hsize
        have hle := EpochQueue.le_size_finalizeEpoch hreached
        refine absurd hsize (Nat.not_lt_of_le ?_)
        split <;> exact hle
      · exact fun _ => rfl
  | failureReadOnly exn | failDone exn => cases exn <;> rfl
  | scanned _ _ _ h | scanWait _ _ _ _ _ h | scanPass _ _ _ _ _ h | waitMore _ _ _ _ _ h
  | waitDone _ _ _ _ _ h | succCallback _ _ _ _ _ _ h | succNext _ _ _ _ _ h | succDone _ _ _ _ _ h =>
      rw [h] at hpc
      cases hpc
  | _ => rfl

end Moves

/-- **Every step is one of these.** -/
theorem ExitSys.step_move {cfg : Config ι ν α} {x y : ExitSys ι ν α} {t : ι} {req : Option (Request ν α)}
    (hsite : ∀ c, x.site t = some c → (x.sys.threads t).pc.isScanning = false)
    (h : x.step cfg t req = some y) : ExitMove cfg x t req y := by
  unfold step at h
  split at h
  · rename_i c hc
    have hpc := hsite c hc
    unfold callbackStep at h
    split at h
    · cases h
      exact .back c hc ‹_›
    · cases h
    · rename_i req _ _ _ hreq
      obtain ⟨s, hs, h⟩ := Option.bind_eq_some_iff.mp h
      obtain ⟨sh', th', hm, rfl⟩ := Sys.step_move hs
      split at h
      · rename_i hsize
        cases h
        rw [Sys.threads_after_self] at hsize
        exact .move sh' th' hm fun _ _ => hm.not_scanning hpc hreq hsize
      · cases h
  · rename_i hc
    obtain ⟨s, hs, rfl⟩ := Option.map_eq_some_iff.mp h
    obtain ⟨sh', th', hm, rfl⟩ := Sys.step_move hs
    split
    · rename_i c hcalls
      exact .call sh' th' c hc hm (hm.calls hcalls)
    · exact .move sh' th' hm fun c hc' => absurd (hc.symm.trans hc') (by simp)

/-! ## 3. Calls and returns -/

/-- The places between two callbacks, or outside everything. -/
def PC.isResting : PC ι ν α → Bool
  | .idle | .succCallbacks _ _ _ _ => true
  | _ => false

namespace PC

variable {pc : PC ι ν α}

omit [DecidableEq ι] [DecidableEq ν] in
theorem not_open_of_resting (h : pc.isResting = true) : pc.isOpen = false := by
  cases pc <;> first | rfl | cases h

omit [DecidableEq ι] [DecidableEq ν] in
theorem not_inCall_of_resting (h : pc.isResting = true) : pc.inCall = false := by
  cases pc <;> first | rfl | cases h

omit [DecidableEq ι] [DecidableEq ν] in
theorem phase_of_resting (h : pc.isResting = true) : pc.phase = .outside := by
  cases pc <;> first | rfl | cases h

omit [DecidableEq ι] [DecidableEq ν] in
theorem not_failing_of_resting (h : pc.isResting = true) : pc.isFailing = false := by
  cases pc <;> first | rfl | cases h

end PC

namespace ExitSys

variable (x : ExitSys ι ν α) (t : ι) (pc : PC ι ν α) (site : Option CallSite)

omit [DecidableEq ν] in
@[simp] theorem sys_goto : (x.goto t pc site).sys = x.sys.goto t pc := rfl

omit [DecidableEq ν] in
@[simp] theorem site_goto_self : (x.goto t pc site).site t = site := Function.update_self ..

omit [DecidableEq ν] in
theorem site_goto_ne {u : ι} (h : u ≠ t) : (x.goto t pc site).site u = x.site u := Function.update_of_ne h ..

end ExitSys

section Goto

variable {s : Sys ι ν α} {t u : ι} {pc : PC ι ν α}

omit [DecidableEq ν] in
theorem Sys.threads_goto_self : (s.goto t pc).threads t = (s.threads t).goto pc := Function.update_self ..

omit [DecidableEq ν] in
theorem Sys.threads_goto_ne (h : u ≠ t) : (s.goto t pc).threads u = s.threads u :=
  Function.update_of_ne h ..

omit [DecidableEq ν] in
/-- What holds of the thread that goes and of every other one holds of every thread. -/
theorem Sys.forall_goto {P : ι → Thread ι ν α → Prop} (ht : P t ((s.threads t).goto pc))
    (hu : ∀ u, u ≠ t → P u (s.threads u)) : ∀ u, P u ((s.goto t pc).threads u) := by
  intro u
  by_cases h : u = t
  · subst h
    rwa [threads_goto_self]
  · rw [threads_goto_ne h]
    exact hu u h

omit [DecidableEq ν] in
/-- A thread that goes keeps its data. -/
theorem Sys.data_goto (s : Sys ι ν α) (t : ι) (pc : PC ι ν α) :
    ∀ u, ((s.goto t pc).threads u).td = (s.threads u).td ∧
      ((s.goto t pc).threads u).att = (s.threads u).att ∧
      ((s.goto t pc).threads u).version = (s.threads u).version := by
  intro u
  by_cases h : u = t
  · subst h
    rw [threads_goto_self]
    exact ⟨rfl, rfl, rfl⟩
  · rw [threads_goto_ne h]
    exact ⟨rfl, rfl, rfl⟩

section Resting

variable (hp : (s.threads t).pc.isResting = true) (hp' : pc.isResting = true)
include hp hp'

omit [DecidableEq ν] in
theorem Sys.isOpen_goto (u : ι) : ((s.goto t pc).threads u).pc.isOpen = (s.threads u).pc.isOpen := by
  revert u
  refine Sys.forall_goto (P := fun u th => th.pc.isOpen = (s.threads u).pc.isOpen) ?_ fun _ _ => rfl
  exact (PC.not_open_of_resting hp').trans (PC.not_open_of_resting hp).symm

omit [DecidableEq ν] in
theorem queue_goto_resting (v : ι) : ((s.goto t pc).threads v).queue = (s.threads v).queue := by
  have hq : ∀ th : Thread ι ν α, th.pc.isResting = true → th.queue = th.td.succCallbacks.chunks := by
    intro th h
    unfold Thread.queue
    cases hpc : th.pc <;> rw [hpc] at h <;> first | rfl | cases h
  revert v
  refine Sys.forall_goto (P := fun v th => th.queue = (s.threads v).queue) ?_ fun _ _ => rfl
  exact (hq ((s.threads t).goto pc) hp').trans (hq _ hp).symm

omit [DecidableEq ν] in
theorem inQueue_goto {v : ι} {e : Epoch} {cb : GpCallback ν α} :
    ((s.goto t pc).threads v).InQueue e cb ↔ (s.threads v).InQueue e cb := by
  rw [Thread.InQueue, queue_goto_resting hp hp', Thread.InQueue]

omit [DecidableEq ν] in
/-- Nobody's section opens or ends. -/
theorem openSince_goto {P : Commit ι ν α → Prop} {v u : ι} {cb : GpCallback ν α} :
    OpenSince P (s.goto t pc) v cb u ↔ OpenSince P s v cb u := by
  unfold OpenSince
  rw [Sys.isOpen_goto hp hp', (Sys.data_goto s t pc u).2.1]
  exact Iff.rfl

omit [DecidableEq ν] in
theorem exposed_goto {v u : ι} {cb : GpCallback ν α} : Exposed (s.goto t pc) v cb u ↔ Exposed s v cb u :=
  openSince_goto (P := fun c => c.writes ≠ []) hp hp'

end Resting

end Goto

/-- What holds of the machine inside and outside the callbacks: the announced epochs, the numbers of the
    attempts, the thread_data, the commits, and the versions of exposed threads. -/
structure SysInv (cfg : Config ι ν α) (s : Sys ι ν α) : Prop where
  active : Active cfg s
  numbered : Numbered s
  books : ∀ t, Books (s.threads t)
  ids : ∀ t, CommitIds s.shared.hist.commits t (s.threads t)
  upTo : ExposedUpTo s

theorem SysInv.init (cfg : Config ι ν α) : SysInv cfg (.init cfg) :=
  have hr : Sys.Reach cfg (fun _ => True) (.init cfg) := .init
  ⟨active_reach hr, numbered_reach hr, books_reach hr, commitIds_reach hr, (exposure_reach hr).version_le⟩

/-- A move keeps it. -/
theorem SysInv.step {cfg : Config ι ν α} {s : Sys ι ν α} {t : ι} {req : Option (Request ν α)}
    {sh' : Shared ι ν α} {th' : Thread ι ν α} (h : SysInv cfg s)
    (hm : Move cfg s.shared t (s.threads t) s.opened req sh' th') : SysInv cfg (s.after t sh' th') where
  active := h.active.step hm
  numbered := h.numbered.step h.active (h.books t) hm
  books := Sys.forall_after (P := fun _ th => Books th) ((h.books t).step (h.active.opAt t) hm)
    fun u _ => h.books u
  ids := Sys.forall_after (P := fun u th => CommitIds sh'.hist.commits u th) ((h.ids t).step hm)
    fun u hu => (h.ids u).step_ne hu hm
  upTo := h.upTo.step h.active h.numbered (h.books t) (h.ids t) hm

/-- Calling a callback and returning from it keeps it. -/
theorem SysInv.goto {cfg : Config ι ν α} {s : Sys ι ν α} (h : SysInv cfg s) {t : ι} {pc : PC ι ν α}
    (hp : (s.threads t).pc.isResting = true) (hp' : pc.isResting = true) : SysInv cfg (s.goto t pc) where
  active :=
    { clock_lt := h.active.clock_lt
      active := fun u => by
        rw [Sys.isOpen_goto hp hp', (Sys.data_goto s t pc u).2.2]
        exact h.active.active u
      version_le := fun u => by
        rw [(Sys.data_goto s t pc u).2.2]
        exact h.active.version_le u
      opAt := by
        refine Sys.forall_goto (P := fun _ th => OpAt cfg th th.pc) ?_ fun u _ => h.active.opAt u
        cases pc <;> first | (cases hp'; done) | exact fun hc => by cases hc }
  numbered :=
    { due := by
        intro v e cb hq
        rw [inQueue_goto hp hp'] at hq
        have hd := h.numbered.due v e cb hq
        revert hd
        refine Sys.forall_goto (P := fun v th => (cb.attempt ≤ (s.threads v).att.number ∧
          ((s.threads v).pc.phase = .attempt → cb.attempt ≠ (s.threads v).att.number)) →
          cb.attempt ≤ th.att.number ∧ (th.pc.phase = .attempt → cb.attempt ≠ th.att.number))
          ?_ (fun _ _ => id) v
        refine fun hd => ⟨hd.1, fun hph => ?_⟩
        rw [pc_goto, PC.phase_of_resting hp'] at hph
        cases hph
      registered := by
        refine Sys.forall_goto (P := fun _ th => th.pc.phase = .attempt → ∀ cb ∈ th.att.regSucc,
          cb.attempt = th.att.number) (fun h => ?_) fun u _ => h.numbered.registered u
        rw [pc_goto, PC.phase_of_resting hp'] at h
        cases h
      opened := by
        intro c hc u n hn
        have ho := h.numbered.opened c hc u n hn
        revert ho
        refine Sys.forall_goto (P := fun u th => (n ≤ (s.threads u).att.number ∧
          ((s.threads u).pc = .accessLock → n ≠ (s.threads u).att.number)) →
          n ≤ th.att.number ∧ (th.pc = .accessLock → n ≠ th.att.number))
          ?_ (fun _ _ => id) u
        refine fun ho => ⟨ho.1, fun hacc => ?_⟩
        rw [pc_goto] at hacc
        rw [hacc] at hp'
        cases hp' }
  books := by
    refine Sys.forall_goto (P := fun _ th => Books th) ?_ fun u _ => h.books u
    have hb := h.books t
    refine .of_outside (PC.not_inCall_of_resting hp')
      (hb.validStartState (PC.not_open_of_resting hp) (PC.not_failing_of_resting hp)) ?_
    have htx := hb.txState
    rwa [PC.not_inCall_of_resting hp, if_neg (by simp)] at htx
  ids := by
    refine Sys.forall_goto (P := fun u th => CommitIds s.shared.hist.commits u th) ?_ fun u _ => h.ids u
    have hph : ((s.threads t).goto pc).pc.phase = .outside := PC.phase_of_resting hp'
    refine ⟨(h.ids t).le, fun hp => ?_, fun hp => ?_⟩
    · rw [hph] at hp
      rcases hp with hp | hp <;> cases hp
    · rw [hph] at hp
      cases hp
  upTo v e cb u hq hx := by
    rw [inQueue_goto hp hp'] at hq
    rw [exposed_goto hp hp'] at hx
    rw [(Sys.data_goto s t pc u).2.2]
    exact h.upTo v e cb u hq hx

/-! ## 4. What `reclaim_all` has still to run -/

/-- Thread `t` is in the loop of `reclaim_all`, or in a callback called from it. -/
def ExitSys.Reclaiming (x : ExitSys ι ν α) (t : ι) : Prop :=
  (∃ epoch minEpoch i, (x.sys.threads t).pc = .succCallbacks .reclaimAll epoch minEpoch i) ∨
    ∃ c, x.site t = some c ∧ c.mode = .reclaimAll

/-- `reclaim_all` starts on a buffer whose newest epoch covers it, and a transaction called from its loop that
    has registered a callback bumps the clock while no other thread is in a section. -/
def BumpsAlone (x : ExitSys ι ν α) (t : ι) (req : Option (Request ν α)) : Prop :=
  (∀ r ∈ req, BackCovers x.sys t r) ∧
    ((∃ c, x.site t = some c ∧ c.mode = .reclaimAll) → (x.sys.threads t).pc = .bumpClock →
      (x.sys.threads t).td.succCallbacks.working ≠ [] → ∀ u, u ≠ t → x.sys.shared.active u = offState)

/-- **The invariant.** Outside the loops a scan knows what it has passed; in the loop of `reclaim_all`, and in
    the callbacks it calls, nobody else is exposed to what is in the buffer. -/
structure ExitInv (cfg : Config ι ν α) (x : ExitSys ι ν α) : Prop where
  sys : SysInv cfg x.sys
  site : ∀ t c, x.site t = some c → (x.sys.threads t).pc.isScanning = false
  scan : ∀ t, (x.sys.threads t).pc.isRunning = false → ScanOk x.sys t
  back : ∀ t, (x.sys.threads t).pc.isRunning = false → BackOk (x.sys.threads t)
  clear : ∀ t, x.Reclaiming t → ∀ e cb, (x.sys.threads t).InQueue e cb → ∀ u, u ≠ t → ¬ Exposed x.sys t cb u

section Loop

variable {cfg : Config ι ν α} {sh sh' : Shared ι ν α} {t : ι} {th th' : Thread ι ν α}
  {opened : ι → Option Nat} {req : Option (Request ν α)}

omit [DecidableEq ι] [DecidableEq ν] in
theorem PC.not_running_of_inBody {pc : PC ι ν α} (h : pc.inBody = true) : pc.isRunning = false := by
  cases pc <;> first | rfl | cases h

/-- The loop goes on, or it is over. -/
theorem Move.from_loop (hm : Move cfg sh t th opened req sh' th') (h : th.pc.isRunning = true) :
    th'.pc.isRunning = true ∨ th'.pc = .idle := by
  cases hm with
  | succCallback | succNext => exact Or.inl rfl
  | succDone => exact Or.inr rfl
  | goto pc' hin =>
      rw [PC.not_running_of_inBody hin] at h
      cases h
  | atomicPush v s hpc | atomicOverwrite v s i hpc =>
      rcases hpc with ⟨hpc, _⟩ | hpc <;> rw [hpc] at h <;> cases h
  | lockInvalid i hi hpc => rcases hpc with hpc | ⟨_, hpc⟩ <;> rw [hpc] at h <;> cases h
  | _ => simp_all [PC.isRunning]

/-- `reclaim_all` enters its loop when its scan is over. -/
theorem Move.into_loop (hm : Move cfg sh t th opened req sh' th') {epoch minEpoch : Epoch} {i : Nat}
    (h : th'.pc = .succCallbacks .reclaimAll epoch minEpoch i) :
    (∃ epoch minEpoch i, th.pc = .succCallbacks .reclaimAll epoch minEpoch i) ∨
      th.pc = .waitMinEpoch .reclaimAll epoch [] minEpoch := by
  cases hm with
  | scanned mode e m hpc =>
      cases h
      exact Or.inr hpc
  | succCallback mode e m j ch cb hpc | succNext mode e m j ch hpc =>
      cases h
      exact Or.inl ⟨_, _, _, hpc⟩
  | reclaimNothing hpc | waitMore _ _ _ _ _ hpc =>
      rw [hpc] at h
      cases h
  | goto pc' hin hout =>
      rcases hout with ho | ⟨_, rfl⟩ | rfl | ⟨rfl, _⟩
      · rw [pc_goto] at h
        rw [h] at ho
        cases ho
      all_goals cases h
  | success sync =>
      revert h
      simp only [Thread.reclaim]
      split
      · split <;> exact fun h => by cases h
      · exact fun h => by cases h
  | failureReadOnly exn | failDone exn => cases exn <;> cases h
  | _ => cases h

end Loop

section Step

variable {cfg : Config ι ν α} {x : ExitSys ι ν α} {t : ι} {req : Option (Request ν α)}
  {sh' : Shared ι ν α} {th' : Thread ι ν α}

omit [DecidableEq ν] in
theorem ExitSys.reclaiming_after_ne {v : ι} (hv : v ≠ t)
    (h : ExitSys.Reclaiming ⟨x.sys.after t sh' th', x.site⟩ v) : x.Reclaiming v := by
  unfold Reclaiming at h ⊢
  rwa [Sys.threads_after_ne x.sys hv] at h

omit [DecidableEq ι] in
/-- **The scan is over**: it has passed every thread that is exposed, and waited for the epoch of every
    chunk. -/
theorem ExitInv.not_exposed_scanned (h : ExitInv cfg x) {epoch minEpoch : Epoch}
    (hpc : (x.sys.threads t).pc = .waitMinEpoch .reclaimAll epoch [] minEpoch) {e : Epoch}
    {cb : GpCallback ν α} (hq : (x.sys.threads t).InQueue e cb) (u : ι) : ¬ Exposed x.sys t cb u := by
  intro hx
  have hscan := h.scan t (by rw [hpc]; rfl)
  have hback := h.back t (by rw [hpc]; rfl)
  unfold ScanOk at hscan
  unfold BackOk at hback
  rw [hpc] at hscan hback
  have hsince : OpenSince (fun _ => True) x.sys t cb u := hx.imp_right fun ⟨c, hc, h1, h2, _, h3⟩ =>
    ⟨c, hc, h1, h2, trivial, h3⟩
  have hlt := (hscan u List.not_mem_nil e cb hq hsince).1
  obtain ⟨ch, hch, rfl, _⟩ := id hq
  rw [Thread.queue_eq (by rw [hpc]; rfl)] at hch
  exact Nat.not_lt_of_le ((h.sys.upTo t ch.epoch cb u hq hx).trans (hback ch hch)) hlt

/-- A transaction called from the loop of `reclaim_all` queues nothing anybody else is exposed to. -/
theorem ExitInv.not_exposed_commit (h : ExitInv cfg x) (hp : BumpsAlone x t req) (hr : x.Reclaiming t)
    (hm : Move cfg x.sys.shared t (x.sys.threads t) x.sys.opened req sh' th') {e : Epoch}
    {cb : GpCallback ν α} (hcb : cb ∈ (x.sys.threads t).att.regSucc)
    (hpc : (x.sys.threads t).pc = .bumpClock ∧ e = x.sys.shared.clock ∨
      (x.sys.threads t).pc = .tryCommit ∧ (x.sys.threads t).td.writeSet.entries = [] ∧ e = 0)
    {u : ι} (hu : u ≠ t) : ¬ Exposed (x.sys.after t sh' th') t cb u := by
  have hsite : ∃ c, x.site t = some c ∧ c.mode = .reclaimAll := by
    refine hr.resolve_left ?_
    rintro ⟨_, _, _, hpc'⟩
    rcases hpc with ⟨hpc, _⟩ | ⟨hpc, _⟩ <;> rw [hpc] at hpc' <;> cases hpc'
  rcases hpc with ⟨hpc, _⟩ | ⟨hpc, he, _⟩
  · rintro ⟨ho, _⟩
    rw [Sys.threads_after_ne x.sys hu] at ho
    have hw : (x.sys.threads t).td.succCallbacks.working ≠ [] := by
      rw [((h.sys.books t).attempt (by rw [hpc]; rfl)).2.1]
      exact List.ne_nil_of_mem hcb
    have hoff := hp.2 hsite hpc hw u hu
    rw [h.sys.active.active_of_open ho] at hoff
    exact ((h.sys.active.version_lt u).trans lockBit_lt_offState).ne hoff
  · exact not_exposed_tryCommit h.sys.numbered (h.sys.ids t) hm hpc he hcb u

/-- **A move keeps the invariant.** -/
theorem ExitInv.move (h : ExitInv cfg x) (hp : BumpsAlone x t req)
    (hm : Move cfg x.sys.shared t (x.sys.threads t) x.sys.opened req sh' th')
    (hin : ∀ c, x.site t = some c → th'.pc.isScanning = false) :
    ExitInv cfg ⟨x.sys.after t sh' th', x.site⟩ where
  sys := h.sys.step hm
  site := Sys.forall_after (P := fun v th => ∀ c, x.site v = some c → th.pc.isScanning = false) hin
    fun v _ => h.site v
  scan := by
    intro v hv
    by_cases hvt : v = t
    · subst hvt
      by_cases hrun : (x.sys.threads v).pc.isRunning = true
      · rw [Sys.threads_after_self] at hv
        have hidle := (hm.from_loop hrun).resolve_left (by rw [hv]; exact Bool.false_ne_true)
        unfold ScanOk
        rw [Sys.threads_after_self, hidle]
        trivial
      · exact (h.scan v (Bool.eq_false_of_not_eq_true hrun)).step_self h.sys.active h.sys.numbered
          (h.sys.books v) hm
    · rw [Sys.threads_after_ne x.sys hvt] at hv
      exact (h.scan v hv).step_ne h.sys.active h.sys.numbered hm hvt
  back := by
    refine Sys.forall_after (P := fun _ th => th.pc.isRunning = false → BackOk th) (fun hv => ?_)
      fun v _ => h.back v
    by_cases hrun : (x.sys.threads t).pc.isRunning = true
    · have hidle := (hm.from_loop hrun).resolve_left (by rw [hv]; exact Bool.false_ne_true)
      unfold BackOk
      rw [hidle]
      trivial
    · exact hm.backOk (h.back t (Bool.eq_false_of_not_eq_true hrun)) hp.1
  clear := by
    intro v hr e cb hq u hu hx
    -- what was in the buffer before the step is as it was
    have hold : x.Reclaiming v → (x.sys.threads v).InQueue e cb → False := fun hr hq =>
      h.clear v hr e cb hq u hu (hx.before h.sys.numbered h.sys.active hm hq)
    by_cases hvt : v = t
    · subst hvt
      rcases hm.inQueue_after (h.sys.books v) hq with hq' | ⟨_, hcb, hpc⟩
      · rcases hr with ⟨epoch, minEpoch, i, hpc⟩ | hsite
        · rw [Sys.threads_after_self] at hpc
          rcases hm.into_loop hpc with hloop | hwait
          · exact hold (Or.inl hloop) hq'
          · exact h.not_exposed_scanned hwait hq' u (hx.before h.sys.numbered h.sys.active hm hq')
        · exact hold (Or.inr hsite) hq'
      · refine h.not_exposed_commit hp ?_ hm hcb hpc hu hx
        rcases hr with ⟨epoch, minEpoch, i, hpc'⟩ | hsite
        · rw [Sys.threads_after_self] at hpc'
          refine (hm.into_loop hpc').elim Or.inl fun hwait => ?_
          rcases hpc with ⟨hpc, _⟩ | ⟨hpc, _⟩ <;> rw [hpc] at hwait <;> cases hwait
        · exact Or.inr hsite
    · rcases hm.inQueue_after (h.sys.books t) hq with hq' | ⟨rfl, _⟩
      · exact hold (ExitSys.reclaiming_after_ne hvt hr) hq'
      · exact hvt rfl

omit [DecidableEq ν] in
/-- What a scan knows it still knows when another thread calls a callback or returns from one. -/
theorem scanOk_goto {s : Sys ι ν α} {pc : PC ι ν α} (hp : (s.threads t).pc.isResting = true)
    (hp' : pc.isResting = true) {v : ι} (hv : v ≠ t) (h : ScanOk s v) : ScanOk (s.goto t pc) v := by
  have passed : ∀ {epoch minEpoch u}, Passed s v epoch minEpoch u → Passed (s.goto t pc) v epoch minEpoch u :=
    fun {_ _ u} h e cb hq hx => by
      rw [inQueue_goto hp hp'] at hq
      rw [openSince_goto hp hp'] at hx
      rw [(Sys.data_goto s t pc u).2.2]
      exact h e cb hq hx
  unfold ScanOk at h ⊢
  rw [Sys.threads_goto_ne hv]
  split
  all_goals simp only [*] at h
  · exact fun u hu => passed (h u hu)
  · refine ⟨fun u hu hu' => passed (h.1 u hu hu'), fun e cb hq hx => ?_⟩
    have hq : ((s.goto t pc).threads v).InQueue e cb := by rwa [Sys.threads_goto_ne hv]
    rw [inQueue_goto hp hp'] at hq
    rw [openSince_goto hp hp'] at hx
    rw [(Sys.data_goto s t pc _).2.2]
    exact h.2 e cb hq hx
  · exact fun u => passed (h u)
  · trivial

/-- **Calling a callback and returning from it keeps the invariant.** -/
theorem ExitInv.goto (h : ExitInv cfg x) {pc : PC ι ν α} {site : Option CallSite}
    (hp : (x.sys.threads t).pc.isResting = true) (hp' : pc.isResting = true)
    (hsite : ∀ c, site = some c → pc = .idle)
    (hr : (x.goto t pc site).Reclaiming t → x.Reclaiming t) : ExitInv cfg (x.goto t pc site) where
  sys := h.sys.goto hp hp'
  site := by
    intro v c hc
    by_cases hv : v = t
    · subst hv
      rw [ExitSys.site_goto_self] at hc
      rw [ExitSys.sys_goto, Sys.threads_goto_self, pc_goto, hsite c hc]
      rfl
    · rw [ExitSys.site_goto_ne _ _ _ _ hv] at hc
      rw [ExitSys.sys_goto, Sys.threads_goto_ne hv]
      exact h.site v c hc
  scan := by
    intro v hrun
    by_cases hv : v = t
    · subst hv
      rw [ExitSys.sys_goto, Sys.threads_goto_self] at hrun
      unfold ScanOk
      rw [ExitSys.sys_goto, Sys.threads_goto_self]
      cases pc <;> trivial
    · rw [ExitSys.sys_goto, Sys.threads_goto_ne hv] at hrun
      exact scanOk_goto hp hp' hv (h.scan v hrun)
  back := by
    refine Sys.forall_goto (P := fun _ th => th.pc.isRunning = false → BackOk th) (fun hrun => ?_)
      fun v _ => h.back v
    cases pc <;> trivial
  clear := by
    intro v hrv e cb hq u hu
    rw [ExitSys.sys_goto, inQueue_goto hp hp'] at hq
    rw [ExitSys.sys_goto, exposed_goto hp hp']
    refine h.clear v ?_ e cb hq u hu
    by_cases hv : v = t
    · subst hv
      exact hr hrv
    · unfold ExitSys.Reclaiming at hrv ⊢
      rwa [ExitSys.sys_goto, Sys.threads_goto_ne hv, ExitSys.site_goto_ne _ _ _ _ hv] at hrv

/-- **Every step keeps the invariant.** -/
theorem ExitInv.step {y : ExitSys ι ν α} (h : ExitInv cfg x) (hp : BumpsAlone x t req)
    (hm : ExitMove cfg x t req y) : ExitInv cfg y := by
  cases hm with
  | move sh' th' hm hin => exact h.move hp hm hin
  | call sh' th' c hsite hm hpc =>
      have hz := h.move hp hm fun c' hc' => absurd (hsite.symm.trans hc') (by simp)
      have hth : (((⟨x.sys.after t sh' th', x.site⟩ : ExitSys ι ν α).sys.threads t).pc) = c.back := by
        rw [Sys.threads_after_self, hpc]
      refine hz.goto (by rw [hth]; rfl) rfl (fun _ _ => rfl) fun hr => ?_
      rcases hr with ⟨_, _, _, hidle⟩ | ⟨c', hc', hmode⟩
      · rw [ExitSys.sys_goto, Sys.threads_goto_self] at hidle
        cases hidle
      · rw [ExitSys.site_goto_self] at hc'
        cases hc'
        rw [CallSite.back, hmode] at hth
        exact Or.inl ⟨_, _, _, hth⟩
  | back c hsite hpc =>
      refine h.goto (by rw [hpc]; rfl) rfl (fun c' hc' => by cases hc') fun hr => ?_
      rcases hr with ⟨_, _, _, hback⟩ | ⟨c', hc', _⟩
      · rw [ExitSys.sys_goto, Sys.threads_goto_self, pc_goto, CallSite.back] at hback
        exact Or.inr ⟨c, hsite, (PC.succCallbacks.inj hback).1⟩
      · rw [ExitSys.site_goto_self] at hc'
        cases hc'

end Step

theorem ExitInv.init (cfg : Config ι ν α) : ExitInv cfg (.init cfg) where
  sys := .init cfg
  site _ _ h := by cases h
  scan _ _ := trivial
  back _ _ := trivial
  clear _ hr := by
    rcases hr with ⟨_, _, _, h⟩ | ⟨_, h, _⟩ <;> cases h

/-- **In every run whose steps meet the condition nobody is exposed to what `reclaim_all` has to run.** -/
theorem exit_reach {cfg : Config ι ν α} {x : ExitSys ι ν α} (h : ExitSys.ReachWhere cfg BumpsAlone x) :
    ExitInv cfg x := by
  induction h with
  | init => exact .init cfg
  | step _ hp hs ih => exact ih.step hp (ExitSys.step_move (fun c hc => ih.site _ c hc) hs)

/-! ## 5. Reclamation at thread exit -/

/-- **Storage retired by a callback at thread exit gets its grace period**, in every run in which
    `reclaim_all` starts on a buffer whose newest epoch covers it and the transactions its callbacks run bump
    the clock alone: whatever callback the loop runs next, of whatever transaction, every other thread has
    left the attempt it was in when that transaction bumped the clock. -/
theorem threadExit_grace {cfg : Config ι ν α} {x : ExitSys ι ν α}
    (h : ExitSys.ReachWhere cfg BumpsAlone x) {t : ι} {epoch minEpoch : Epoch} {i : Nat}
    {ch : Chunk (GpCallback ν α)} {cb : GpCallback ν α}
    (hpc : (x.sys.threads t).pc = .succCallbacks .reclaimAll epoch minEpoch i)
    (hch : (x.sys.threads t).td.succCallbacks.chunks.head? = some ch) (hcb : ch.callbacks[i]? = some cb) :
    ∀ u, u ≠ t → ¬ Exposed x.sys t cb u :=
  (exit_reach h).clear t (Or.inl ⟨_, _, _, hpc⟩) ch.epoch cb (due_front hpc hch hcb).inQueue

/-- A thread commits a set of one var and runs `reclaim_all`. The callback it runs commits a set of the
    other var. -/
def exitWrites : List (Bool × Option (Request Bool Nat)) :=
  (false, some (.readWrite fun log => if log.length = 0 then .set true 8 else .ret)) ::
    List.replicate 17 (false, none) ++
  (false, some .reclaimAll) :: List.replicate 4 (false, none)

/-- The callback runs a transaction and returns; the front chunk is done. -/
def callbackWrites : List (Bool × Option (Request Bool Nat)) :=
  (false, some (.readWrite fun log => if log.length = 0 then .set false 7 else .ret)) ::
    List.replicate 19 (false, none)

/-- The other thread begins an attempt and loads the var the callback's transaction sets. -/
def otherReads : List (Bool × Option (Request Bool Nat)) :=
  (true, some (.readOnly fun log => if log.length = 0 then .get false else .ret)) ::
    List.replicate 4 (true, none)

/-- A sufficient condition that can be evaluated: inside a callback no other thread is in a section. -/
def callbacksAlone (x : ExitSys Bool Bool Nat) (t : Bool) : Option (Request Bool Nat) → Bool
  | some .reclaimAll => decide (∀ back ∈ (x.sys.threads t).td.succCallbacks.backEpoch?,
      ∀ ch ∈ (x.sys.threads t).td.succCallbacks.chunks, ch.epoch ≤ back) && (x.site t).isNone
  | _ => (x.site t).isNone || decide (∀ u, u ≠ t → x.sys.shared.active u = offState)

theorem bumpsAlone_of_callbacksAlone {x : ExitSys Bool Bool Nat} {t : Bool}
    {req : Option (Request Bool Nat)} (h : callbacksAlone x t req = true) : BumpsAlone x t req := by
  have alone : ((x.site t).isNone || decide (∀ u, u ≠ t → x.sys.shared.active u = offState)) = true →
      (∃ c, x.site t = some c ∧ c.mode = .reclaimAll) → ∀ u, u ≠ t → x.sys.shared.active u = offState := by
    rintro h ⟨c, hc, _⟩
    rw [hc, Option.isNone_some, Bool.false_or] at h
    exact of_decide_eq_true h
  match req, h with
  | some .reclaimAll, h =>
      rw [callbacksAlone, Bool.and_eq_true] at h
      have hback := of_decide_eq_true h.1
      refine ⟨fun r hr => ?_, fun hc _ _ => alone (by rw [h.2, Bool.true_or]) hc⟩
      cases hr
      exact hback
  | none, h => exact ⟨fun r hr => (by cases hr), fun hc _ _ => alone h hc⟩
  | some (.readWrite _), h => exact ⟨fun r hr => (by cases hr; trivial), fun hc _ _ => alone h hc⟩
  | some (.readOnly _), h => exact ⟨fun r hr => (by cases hr; trivial), fun hc _ _ => alone h hc⟩

theorem exitReadBehind_isSome :
    (ExitSys.run wideConfig (exitWrites ++ callbackWrites ++ otherReads) (.init wideConfig)).isSome = true := by
  decide

/-- The thread that has begun behind the callback's commit is in an attempt, but not exposed. -/
theorem threadExit_grace_exitReadBehind :
    let x := (ExitSys.run wideConfig (exitWrites ++ callbackWrites ++ otherReads) (.init wideConfig)).get
      exitReadBehind_isSome
    (x.sys.threads true).pc.isOpen = true ∧
      ∀ u, u ≠ false → ¬ Exposed x.sys false ⟨.destroyDeallocate (.ptr 0), 2, some false⟩ u := by
  have hr : ExitSys.ReachWhere wideConfig BumpsAlone
      ((ExitSys.run wideConfig (exitWrites ++ callbackWrites ++ otherReads) (.init wideConfig)).get
        exitReadBehind_isSome) :=
    ExitSys.ReachWhere.init.run (fun _ _ _ => bumpsAlone_of_callbacksAlone) (by decide)
      (Option.some_get exitReadBehind_isSome).symm
  exact ⟨by decide, threadExit_grace hr rfl rfl rfl⟩

theorem exitReadBefore_isSome :
    (ExitSys.run wideConfig (exitWrites ++ otherReads ++ callbackWrites) (.init wideConfig)).isSome = true := by
  decide

theorem exitReadBefore_exposed :
    Exposed ((ExitSys.run wideConfig (exitWrites ++ otherReads ++ callbackWrites) (.init wideConfig)).get
      exitReadBefore_isSome).sys false ⟨.destroyDeallocate (.ptr 0), 2, some false⟩ true := by
  unfold Exposed
  decide

/-- **`reclaim_all` runs a callback beside a reader**: it has waited for epoch 0 before its loop. Its first
    callback's transaction bumps the clock and queues a chunk of epoch 1; the other thread is in an attempt of
    version 1 that was open at the bump, and has loaded the storage the chunk's callback destroys. -/
theorem threadExit_beside_reader :
    ¬ ∀ x : ExitSys Bool Bool Nat, ExitSys.ReachWhere wideConfig (fun _ _ _ => True) x →
      ∀ t epoch minEpoch i ch cb, (x.sys.threads t).pc = .succCallbacks .reclaimAll epoch minEpoch i →
        (x.sys.threads t).td.succCallbacks.chunks.head? = some ch → ch.callbacks[i]? = some cb →
        ∀ u, u ≠ t → ¬ Exposed x.sys t cb u := by
  intro h
  have hr : ExitSys.ReachWhere wideConfig (fun _ _ _ => True)
      ((ExitSys.run wideConfig (exitWrites ++ otherReads ++ callbackWrites) (.init wideConfig)).get
        exitReadBefore_isSome) :=
    ExitSys.ReachWhere.init.run (p := fun _ _ _ => true) (fun _ _ _ _ => trivial) (by decide)
      (Option.some_get exitReadBefore_isSome).symm
  exact h _ hr false 0 offState 0 _ _ rfl rfl rfl true (by decide) exitReadBefore_exposed

end LockfreeStm
