/-
  File:      LockfreeStm/Machine/ReclaimAll.lean
  Subject:   `reclaim_all`: ONE WAIT FOR THE WHOLE BUFFER.

  `reclaim_all` waits once, for the epoch of the newest chunk, and then runs every chunk. That covers the
  whole buffer if no chunk has a later epoch than the newest. The epochs come from `try_commit`: a commit
  that bumps the clock synchronizes on the clock, one with an empty write set on the earliest epoch. So a
  transaction that registers a callback and writes nothing leaves a newest chunk of epoch 0.

  * `Sys.ReachIf`, `BackCovers` -- the runs in which every `reclaim_all` starts on a buffer whose newest
    epoch is at least every other one.
  * `reclaimAll_grace` -- in these no callback of a transaction that wrote runs beside a thread that is still
    inside the attempt it was in at the clock bump.
  * `reclaimAll_beside_reader` -- in others one does.
-/
import LockfreeStm.Machine.Grace

namespace LockfreeStm

variable {ι ν α : Type} [DecidableEq ι] [DecidableEq ν]

/-! ## 1. Runs under a condition -/

/-- The states the machine reaches by requests that satisfy `ok` in the state they are made in. -/
inductive Sys.ReachIf (cfg : Config ι ν α) (ok : Sys ι ν α → ι → Request ν α → Prop) :
    Sys ι ν α → Prop where
  | init : ReachIf cfg ok (.init cfg)
  | step {s s' : Sys ι ν α} {t : ι} {req : Option (Request ν α)} (h : ReachIf cfg ok s)
      (hok : ∀ r ∈ req, ok s t r) (hs : s.step cfg t req = some s') : ReachIf cfg ok s'

theorem Sys.ReachIf.reach {cfg : Config ι ν α} {ok : Sys ι ν α → ι → Request ν α → Prop}
    {s : Sys ι ν α} (h : Sys.ReachIf cfg ok s) : Sys.Reach cfg (fun _ => True) s := by
  induction h with
  | init => exact .init
  | step _ _ hs ih => exact .step ih (fun _ _ => trivial) hs

/-- A schedule whose requests satisfy `ok` in every state keeps the condition. -/
theorem Sys.ReachIf.run {cfg : Config ι ν α} {ok : Sys ι ν α → ι → Request ν α → Prop}
    {schedule : List (ι × Option (Request ν α))} {s s' : Sys ι ν α} (h : Sys.ReachIf cfg ok s)
    (hok : ∀ m ∈ schedule, ∀ r ∈ m.2, ∀ s t, ok s t r) (hr : Sys.run cfg schedule s = some s') :
    Sys.ReachIf cfg ok s' := by
  induction schedule generalizing s with
  | nil =>
      cases hr
      exact h
  | cons m rest ih =>
      obtain ⟨s1, h1, h2⟩ := Option.bind_eq_some_iff.mp hr
      rw [List.forall_mem_cons] at hok
      exact ih (.step h (fun r hr => hok.1 r hr s m.1) h1) hok.2 h2

/-- No chunk of the buffer has a later epoch than the newest. -/
def BackCovers (s : Sys ι ν α) (t : ι) : Request ν α → Prop
  | .reclaimAll => ∀ back ∈ (s.threads t).td.succCallbacks.backEpoch?,
      ∀ ch ∈ (s.threads t).td.succCallbacks.chunks, ch.epoch ≤ back
  | _ => True

/-! ## 2. The epoch `reclaim_all` waits for -/

/-- `reclaim_all` waits for an epoch that is at least that of every chunk. -/
def BackOk (th : Thread ι ν α) : Prop :=
  match th.pc with
  | .waitMinEpoch .reclaimAll epoch _ _ | .waitOnEpoch .reclaimAll epoch _ _ _
  | .succCallbacks .reclaimAll epoch _ _ => ∀ ch ∈ th.td.succCallbacks.chunks, ch.epoch ≤ epoch
  | _ => True

theorem Move.backOk {cfg : Config ι ν α} {s : Sys ι ν α} {t : ι} {req : Option (Request ν α)}
    {sh' : Shared ι ν α} {th' : Thread ι ν α}
    (hm : Move cfg s.shared t (s.threads t) s.opened req sh' th') (h : BackOk (s.threads t))
    (hok : ∀ r ∈ req, BackCovers s t r) : BackOk th' := by
  cases hm with
  | reclaimNothing | waitMore => exact h
  | reclaimAll ch hpc hreq hq =>
      have hcov : BackCovers s t .reclaimAll := hok _ hreq
      exact hcov ch.epoch (by rw [EpochQueue.backEpoch?, hq]; rfl)
  | goto pc' hin hout =>
      rcases hout with h | ⟨_, rfl⟩ | rfl | ⟨rfl, _⟩
      · cases pc' <;> trivial
      all_goals trivial
  | success sync =>
      simp only [Thread.reclaim]
      split
      · split <;> trivial
      · trivial
  | failureReadOnly exn => cases exn <;> trivial
  | failDone exn => cases exn <;> trivial
  | scanned mode epoch result hpc | scanWait mode epoch result u nodes hpc
  | scanPass mode epoch result u nodes hpc | waitDone mode epoch result u nodes hpc
  | succCallback mode epoch minEpoch i ch cb hpc =>
      unfold BackOk at h
      rw [hpc] at h
      cases mode with
      | reclaimAll => exact h
      | reclaimAllPossible => trivial
  | succNext mode epoch minEpoch i ch hpc =>
      unfold BackOk at h
      rw [hpc] at h
      cases mode with
      | reclaimAll => exact fun d hd => h d (List.mem_of_mem_tail hd)
      | reclaimAllPossible => trivial
  | _ => trivial

theorem back_reachIf {cfg : Config ι ν α} {s : Sys ι ν α} (h : Sys.ReachIf cfg BackCovers s)
    (t : ι) : BackOk (s.threads t) := by
  induction h generalizing t with
  | init => trivial
  | step _ hok hs ih =>
      obtain ⟨sh', th', hm, rfl⟩ := Sys.step_move hs
      exact Sys.forall_after (P := fun _ th => BackOk th) (hm.backOk (ih _) hok) (fun u _ => ih u) t

/-- **`reclaim_all` waits for the readers**, in every run in which it starts on a buffer whose newest epoch
    is at least every other one: no callback of a transaction that wrote a var runs while another thread is
    inside an attempt that was open when the transaction bumped the clock. -/
theorem reclaimAll_grace {cfg : Config ι ν α} {s : Sys ι ν α} (h : Sys.ReachIf cfg BackCovers s)
    {t : ι} {epoch minEpoch : Epoch} {i : Nat} {ch : Chunk (GpCallback ν α)} {cb : GpCallback ν α}
    (hpc : (s.threads t).pc = .succCallbacks .reclaimAll epoch minEpoch i)
    (hch : (s.threads t).td.succCallbacks.chunks.head? = some ch) (hcb : ch.callbacks[i]? = some cb) :
    ∀ u, u ≠ t → ¬ Exposed s t cb u := by
  intro u _
  have hb := back_reachIf h t
  unfold BackOk at hb
  rw [hpc] at hb
  exact ((scan_reach h.reach t).not_exposed (exposure_reach h.reach) hpc hch hcb
    (Or.inl (hb ch (List.mem_of_mem_head? hch))) u).2

/-! ## 3. Two runs -/

/-- The small machine with a larger buffer. -/
def wideConfig : Config Bool Bool Nat := { smallConfig with reclaimLimit := 8 }

/-- A thread commits, and the other one begins an attempt behind it. -/
def commitThenRead : List (Bool × Option (Request Bool Nat)) :=
  (false, some (.readWrite fun log => if log.length = 0 then .set true 8 else .ret)) ::
    List.replicate 17 (false, none) ++
  (true, some (.readOnly fun log => if log.length = 0 then .get true else .ret)) ::
    List.replicate 4 (true, none)

/-- The first thread runs `reclaim_all`, up to its first callback. -/
def thenReclaimAll (s : Sys Bool Bool Nat) : Option (Sys Bool Bool Nat) :=
  (s.step wideConfig false (some .reclaimAll)).bind (Sys.run wideConfig (List.replicate 3 (false, none)))

theorem commitThenRead_isSome :
    ((Sys.run wideConfig commitThenRead (.init wideConfig)).bind thenReclaimAll).isSome = true := by
  decide

/-- The thread that has begun behind the commit is in an attempt, but not exposed. -/
theorem reclaimAll_grace_commitThenRead :
    let s := ((Sys.run wideConfig commitThenRead (.init wideConfig)).bind thenReclaimAll).get
      commitThenRead_isSome
    (s.threads true).pc.isOpen = true ∧
      ∀ u, u ≠ false → ¬ Exposed s false ⟨.destroyDeallocate (.ptr 1), 1, some true⟩ u := by
  have hcov : ∀ s ∈ Sys.run wideConfig commitThenRead (.init wideConfig),
      BackCovers s false .reclaimAll := by
    show ∀ s ∈ Sys.run wideConfig commitThenRead (.init wideConfig),
      ∀ back ∈ (s.threads false).td.succCallbacks.backEpoch?,
        ∀ ch ∈ (s.threads false).td.succCallbacks.chunks, ch.epoch ≤ back
    decide
  obtain ⟨s1, h1, h2⟩ := Option.bind_eq_some_iff.mp (Option.some_get commitThenRead_isSome).symm
  obtain ⟨s2, hs, h3⟩ := Option.bind_eq_some_iff.mp h2
  have hr1 : Sys.ReachIf wideConfig BackCovers s1 := by
    refine Sys.ReachIf.init.run (fun m hm r hr s t => ?_) h1
    simp only [commitThenRead, List.mem_append, List.mem_cons, List.mem_replicate] at hm
    rcases hm with (rfl | ⟨_, rfl⟩) | rfl | ⟨_, rfl⟩ <;> cases hr <;> trivial
  have hr2 : Sys.ReachIf wideConfig BackCovers s2 :=
    .step hr1 (fun r hr => by cases hr; exact hcov s1 h1) hs
  have hr3 := hr2.run (fun m hm r hr s t => by rw [(List.mem_replicate.mp hm).2] at hr; cases hr) h3
  have hpc : ((((Sys.run wideConfig commitThenRead (.init wideConfig)).bind thenReclaimAll).get
      commitThenRead_isSome).threads false).pc = .succCallbacks .reclaimAll 0 1 0 := rfl
  exact ⟨by decide, reclaimAll_grace hr3 hpc rfl rfl⟩

/-- The first thread's newest chunk is that of a transaction that writes nothing. -/
def writeThenRegister : List (Bool × Option (Request Bool Nat)) :=
  (true, some (.readWrite fun log => if log.length = 0 then .set false 7 else .ret)) ::
    List.replicate 17 (true, none) ++
  (true, some (.readOnly fun log => if log.length = 0 then .get true else .ret)) ::
    List.replicate 4 (true, none) ++
  (false, some (.readWrite fun log => if log.length = 0 then .set true 8 else .ret)) ::
    List.replicate 17 (false, none) ++
  (false, some (.readWrite fun log =>
    if log.length = 0 then .sometimeSynchronizedAfter 0 else .ret)) :: List.replicate 6 (false, none)

theorem writeThenRegister_isSome :
    ((Sys.run wideConfig writeThenRegister (.init wideConfig)).bind thenReclaimAll).isSome = true := by
  decide

theorem writeThenRegister_exposed :
    Exposed (((Sys.run wideConfig writeThenRegister (.init wideConfig)).bind thenReclaimAll).get
      writeThenRegister_isSome) false ⟨.destroyDeallocate (.ptr 1), 1, some true⟩ true := by
  unfold Exposed
  decide

/-- **`reclaim_all` runs a callback beside a reader**: it has waited for epoch 0, and the other thread is in
    an attempt of version 1 that was open when the first chunk's transaction bumped the clock. It has loaded
    the storage the callback destroys. -/
theorem reclaimAll_beside_reader :
    ¬ ∀ s : Sys Bool Bool Nat, Sys.Reach wideConfig (fun _ => True) s →
      ∀ t epoch minEpoch i ch cb, (s.threads t).pc = .succCallbacks .reclaimAll epoch minEpoch i →
        (s.threads t).td.succCallbacks.chunks.head? = some ch → ch.callbacks[i]? = some cb →
        ∀ u, u ≠ t → ¬ Exposed s t cb u := by
  intro h
  obtain ⟨s1, h1, h2⟩ := Option.bind_eq_some_iff.mp (Option.some_get writeThenRegister_isSome).symm
  obtain ⟨s2, hs, h3⟩ := Option.bind_eq_some_iff.mp h2
  have hr := ((Sys.Reach.of_run (fun _ _ _ _ => trivial) h1).step (fun _ _ => trivial) hs).steps
    (Sys.Steps.of_run (fun _ _ _ _ => trivial) h3)
  exact h _ hr false 0 1 0 _ _ rfl rfl rfl true (by decide) writeThenRegister_exposed

end LockfreeStm
