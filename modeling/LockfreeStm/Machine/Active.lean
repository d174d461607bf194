/-
  File:      LockfreeStm/Machine/Active.lean
  Subject:   THE ANNOUNCED EPOCH: what `active` says about a thread, and what the place a thread
             stands at says about the operation it is in.

  * `Sys.step_move` -- a step of the system is a move of one thread; time passes.
  * `Active`, `active_reach` -- in every state reached the announced epoch of a thread is the
    version of its attempt while it is between access_lock and access_unlock, and `offState`
    otherwise; no version is above the clock; the clock is below `max_version`.
-/
import LockfreeStm.Machine.Views

namespace LockfreeStm

variable {ι ν α : Type}

/-! ## 1. Steps of the system -/

/-- The same memory at time `n`. -/
def Shared.atTime (sh : Shared ι ν α) (n : Nat) : Shared ι ν α :=
  { sh with hist := { sh.hist with now := n } }

namespace Shared

variable (sh : Shared ι ν α) (n : Nat)

@[simp] theorem clock_atTime : (sh.atTime n).clock = sh.clock := rfl
@[simp] theorem vars_atTime : (sh.atTime n).vars = sh.vars := rfl
@[simp] theorem active_atTime : (sh.atTime n).active = sh.active := rfl
@[simp] theorem cells_atTime : (sh.atTime n).cells = sh.cells := rfl
@[simp] theorem nextPtr_atTime : (sh.atTime n).nextPtr = sh.nextPtr := rfl
@[simp] theorem commits_atTime : (sh.atTime n).hist.commits = sh.hist.commits := rfl
@[simp] theorem reads_atTime : (sh.atTime n).hist.reads = sh.hist.reads := rfl
@[simp] theorem finished_atTime : (sh.atTime n).hist.finished = sh.hist.finished := rfl
@[simp] theorem destroyed_atTime : (sh.atTime n).hist.destroyed = sh.hist.destroyed := rfl
@[simp] theorem now_atTime : (sh.atTime n).hist.now = n := rfl

end Shared

variable [DecidableEq ι] [DecidableEq ν]

/-- The state after thread `t` has moved to `sh'` and `th'`. -/
def Sys.after (s : Sys ι ν α) (t : ι) (sh' : Shared ι ν α) (th' : Thread ι ν α) : Sys ι ν α :=
  ⟨sh'.atTime (s.shared.hist.now + 1), Function.update s.threads t th'⟩

omit [DecidableEq ν] in
@[simp] theorem Sys.shared_after (s : Sys ι ν α) (t : ι) (sh' : Shared ι ν α)
    (th' : Thread ι ν α) : (s.after t sh' th').shared = sh'.atTime (s.shared.hist.now + 1) := rfl

omit [DecidableEq ν] in
/-- The thread that moved. -/
@[simp] theorem Sys.threads_after_self (s : Sys ι ν α) (t : ι) (sh' : Shared ι ν α)
    (th' : Thread ι ν α) : (s.after t sh' th').threads t = th' := Function.update_self ..

omit [DecidableEq ν] in
/-- The threads that did not move. -/
@[simp] theorem Sys.threads_after_ne (s : Sys ι ν α) {t u : ι} (h : u ≠ t) (sh' : Shared ι ν α)
    (th' : Thread ι ν α) : (s.after t sh' th').threads u = s.threads u :=
  Function.update_of_ne h ..

omit [DecidableEq ν] in
/-- What holds of the thread that moved and of every other one holds of every thread. -/
theorem Sys.forall_after {s : Sys ι ν α} {t : ι} {sh' : Shared ι ν α} {th' : Thread ι ν α}
    {P : ι → Thread ι ν α → Prop} (ht : P t th') (hu : ∀ u, u ≠ t → P u (s.threads u)) :
    ∀ u, P u ((s.after t sh' th').threads u) := by
  intro u
  by_cases h : u = t
  · subst h; rwa [threads_after_self]
  · rw [threads_after_ne s h]; exact hu u h

/-- **A step of the system is a move of one thread.** -/
theorem Sys.step_move {cfg : Config ι ν α} {s s' : Sys ι ν α} {t : ι}
    {req : Option (Request ν α)} (h : s.step cfg t req = some s') :
    ∃ sh' th', Move cfg s.shared t (s.threads t) s.opened req sh' th' ∧ s' = s.after t sh' th' := by
  obtain ⟨⟨sh', th'⟩, hs, rfl⟩ := Option.map_eq_some_iff.mp h
  exact ⟨sh', th', threadStep_move hs, rfl⟩

/-- The induction over runs: an invariant of the initial state that every move preserves. -/
theorem Sys.Reach.induct {cfg : Config ι ν α} {ok : Request ν α → Prop} {P : Sys ι ν α → Prop}
    (hinit : P (.init cfg))
    (hstep : ∀ {s t req sh' th'}, Sys.Reach cfg ok s → P s → (∀ r ∈ req, ok r) →
      Move cfg s.shared t (s.threads t) s.opened req sh' th' → P (s.after t sh' th'))
    {s : Sys ι ν α} (h : Sys.Reach cfg ok s) : P s := by
  induction h with
  | init => exact hinit
  | step h hok hs ih =>
      obtain ⟨sh', th', hm, rfl⟩ := Sys.step_move hs
      exact hstep h ih hok hm

/-! ## 2. The invariant -/

/-- What the announced epochs, the versions and the clock satisfy. -/
structure Active (cfg : Config ι ν α) (s : Sys ι ν α) : Prop where
  clock_lt : s.shared.clock < maxVersion
  active : ∀ t, s.shared.active t =
    if (s.threads t).pc.isOpen then (s.threads t).version else offState
  version_le : ∀ t, (s.threads t).version ≤ s.shared.clock
  opAt : ∀ t, OpAt cfg (s.threads t) (s.threads t).pc

section Move

variable {cfg : Config ι ν α} {sh sh' : Shared ι ν α} {t : ι} {th th' : Thread ι ν α}
  {opened : ι → Option Nat} {req : Option (Request ν α)}

omit [DecidableEq ι] [DecidableEq ν] in
theorem PC.isOpen_of_inBody {pc : PC ι ν α} (h : pc.inBody = true) : pc.isOpen = true := by
  cases pc <;> first | rfl | cases h

omit [DecidableEq ι] [DecidableEq ν] in
@[simp] theorem clock_runAction (sh : Shared ι ν α) (a : Action α) :
    (sh.runAction a).clock = sh.clock := by cases a <;> rfl

omit [DecidableEq ι] [DecidableEq ν] in
@[simp] theorem active_runAction (sh : Shared ι ν α) (a : Action α) :
    (sh.runAction a).active = sh.active := by cases a <;> rfl

omit [DecidableEq ι] [DecidableEq ν] in
@[simp] theorem active_storeObject (sh : Shared ι ν α) (s : VarStorage α) (x : α) :
    (sh.storeObject s x).active = sh.active := by cases s <;> rfl

omit [DecidableEq ι] in
@[simp] theorem active_noteRead (sh : Shared ι ν α) (t : ι) (th : Thread ι ν α) (v : ν) (x : α) :
    (sh.noteRead t th v x).active = sh.active := by
  unfold Shared.noteRead
  split <;> rfl

/-- The clock never goes back. -/
theorem Move.clock_le (h : Move cfg sh t th opened req sh' th') : sh.clock ≤ sh'.clock := by
  cases h.effect with
  | quiet hs => exact hs.clock.ge
  | bump => exact Nat.le_add_right _ _
  | _ => exact Nat.le_refl _

theorem Move.clock_lt (h : Move cfg sh t th opened req sh' th') (hc : sh.clock < maxVersion) :
    sh'.clock < maxVersion := by
  cases h.effect with
  | quiet hs => exact hs.clock ▸ hc
  | bump _ hb =>
      show sh.clock + bumpSize < maxVersion
      exact Nat.add_lt_of_lt_sub hb
  | _ => exact hc

/-- A step announces for its own thread only. -/
theorem Move.active_ne (h : Move cfg sh t th opened req sh' th') {u : ι} (hu : u ≠ t) :
    sh'.active u = sh.active u := by
  cases h with
  | readReturns => simp
  | storePending => simp
  | failCallback => simp
  | succCallback => simp
  | _ => first | rfl | exact Function.update_of_ne hu ..

omit [DecidableEq ι] [DecidableEq ν] in
theorem reclaim_not_open (cfg : Config ι ν α) (th : Thread ι ν α) (e : Epoch) :
    (th.reclaim cfg e).pc.isOpen = false := by
  simp only [Thread.reclaim]
  split
  · split <;> rfl
  · rfl

omit [DecidableEq ι] [DecidableEq ν] in
theorem afterFailure_not_open (th : Thread ι ν α) (exn : Bool) :
    (afterFailure th exn).pc.isOpen = false := by
  unfold afterFailure
  split <;> rfl

omit [DecidableEq ι] [DecidableEq ν] in
@[simp] theorem version_reclaim (cfg : Config ι ν α) (th : Thread ι ν α) (e : Epoch) :
    (th.reclaim cfg e).version = th.version := by
  simp only [Thread.reclaim]
  split
  · split <;> rfl
  · rfl

omit [DecidableEq ι] [DecidableEq ν] in
@[simp] theorem version_afterFailure (th : Thread ι ν α) (exn : Bool) :
    (afterFailure th exn).version = th.version := by
  unfold afterFailure
  split <;> rfl

omit [DecidableEq ι] [DecidableEq ν] in
@[simp] theorem version_pushRead (th : Thread ι ν α) (path : ReadPath) (v : ν) :
    (th.pushRead path v).version = th.version := by
  unfold Thread.pushRead
  split <;> rfl

omit [DecidableEq ι] in
@[simp] theorem version_noteRead (th : Thread ι ν α) (v : ν) (x : α) :
    (th.noteRead v x).version = th.version := by
  unfold Thread.noteRead
  split <;> rfl

/-- The version of a thread changes where it reads the clock; a nested call copies it. -/
theorem Move.version (h : Move cfg sh t th opened req sh' th') :
    th'.version = th.version ∨ th.pc = .getClock ∧ th'.version = sh.clock ∨
      th.pc = .call ∧ th'.version = sh.active t := by
  cases h with
  | getClock hpc => exact Or.inr (Or.inl ⟨hpc, rfl⟩)
  | nestedAtomic hpc => exact Or.inr (Or.inr ⟨hpc, rfl⟩)
  | readReturns => exact Or.inl (by simp [Thread.opReturns])
  | success => exact Or.inl (version_reclaim ..)
  | failureReadOnly => exact Or.inl (version_afterFailure ..)
  | failDone => exact Or.inl (version_afterFailure ..)
  | _ => exact Or.inl rfl

omit [DecidableEq ι] [DecidableEq ν] in
@[simp] theorem att_reclaim (cfg : Config ι ν α) (th : Thread ι ν α) (e : Epoch) :
    (th.reclaim cfg e).att = th.att := by
  simp only [Thread.reclaim]
  split
  · split <;> rfl
  · rfl

omit [DecidableEq ι] [DecidableEq ν] in
@[simp] theorem att_afterFailure (th : Thread ι ν α) (exn : Bool) :
    (afterFailure th exn).att = th.att := by
  unfold afterFailure
  split <;> rfl

omit [DecidableEq ι] [DecidableEq ν] in
@[simp] theorem att_pushRead (th : Thread ι ν α) (path : ReadPath) (v : ν) :
    (th.pushRead path v).att = th.att := by
  unfold Thread.pushRead
  split <;> rfl

omit [DecidableEq ι] in
@[simp] theorem number_noteRead (th : Thread ι ν α) (v : ν) (x : α) :
    (th.noteRead v x).att.number = th.att.number := by
  unfold Thread.noteRead
  split <;> rfl

/-- A new attempt begins where the clock is read. -/
theorem Move.number (h : Move cfg sh t th opened req sh' th') :
    th.pc ≠ .getClock ∧ th'.att.number = th.att.number ∨
      th.pc = .getClock ∧ th'.att.number = th.att.number + 1 := by
  cases h with
  | getClock hpc => exact Or.inr ⟨hpc, rfl⟩
  | goto pc' hin => exact Or.inl ⟨fun h => by rw [h] at hin; exact Bool.noConfusion hin, rfl⟩
  | readReturns path v result hpc =>
      exact Or.inl ⟨by rw [hpc]; exact nofun, by simp [Thread.opReturns]⟩
  | success sync hpc =>
      refine Or.inl ⟨by rw [hpc]; exact nofun, ?_⟩
      rw [att_reclaim]
      rfl
  | failureReadOnly exn hpc =>
      exact Or.inl ⟨by rw [hpc]; exact nofun, by rw [att_afterFailure]⟩
  | failDone exn hpc =>
      refine Or.inl ⟨by rw [hpc]; exact nofun, ?_⟩
      rw [att_afterFailure]
      rfl
  | atomicPush v s hpc | atomicOverwrite v s i hpc =>
      exact Or.inl ⟨by rcases hpc with ⟨hpc, _⟩ | hpc <;> rw [hpc] <;> exact nofun, rfl⟩
  | lockInvalid i hi hpc =>
      exact Or.inl ⟨by rcases hpc with hpc | ⟨_, hpc⟩ <;> rw [hpc] <;> exact nofun, rfl⟩
  | _ => exact Or.inl ⟨by simp only [*]; exact nofun, rfl⟩

/-- A thread is open after the step with its version announced, or it is not open and has announced
    `offState`. -/
theorem Move.active_self (h : Move cfg sh t th opened req sh' th')
    (ha : sh.active t = if th.pc.isOpen then th.version else offState) :
    sh'.active t = if th'.pc.isOpen then th'.version else offState := by
  have keep : ∀ {sh' : Shared ι ν α} {th' : Thread ι ν α}, sh'.active = sh.active →
      th'.pc.isOpen = th.pc.isOpen → th'.version = th.version →
      sh'.active t = if th'.pc.isOpen then th'.version else offState :=
    fun e1 e2 e3 => by rw [e1, ha, e2, e3]
  cases h with
  | accessLock => simp [Shared.storeActive, Thread.goto, PC.isOpen]
  | goto pc' hin hout =>
      refine keep rfl ?_ rfl
      rw [PC.isOpen_of_inBody hin]
      rcases hout with h | ⟨_, rfl⟩ | rfl | ⟨rfl, _⟩
      · exact PC.isOpen_of_inBody (PC.inBody_of_isEntry h)
      all_goals rfl
  | reclaimNothing => exact ha
  | nestedAtomic => exact (if_pos rfl).symm
  | waitMore => exact ha
  | readReturns path v result hpc =>
      exact keep (active_noteRead ..) (by rw [hpc]; rfl) (by simp [Thread.opReturns])
  | storePending v x pending hpc => exact keep (active_storeObject ..) (by rw [hpc]; rfl) rfl
  | atomicPush v s hpc =>
      exact keep rfl (by rcases hpc with ⟨hpc, _⟩ | hpc <;> rw [hpc] <;> rfl) rfl
  | atomicOverwrite v s i hpc =>
      exact keep rfl (by rcases hpc with ⟨hpc, _⟩ | hpc <;> rw [hpc] <;> rfl) rfl
  | lockInvalid i hi hpc =>
      exact keep rfl (by rcases hpc with hpc | ⟨_, hpc⟩ <;> rw [hpc] <;> rfl) rfl
  | getClock hpc =>
      rw [hpc] at ha
      exact ha
  | successReadOnly => simp [Shared.storeActive, Thread.goto, PC.isOpen]
  | success syncEpoch =>
      rw [reclaim_not_open]
      exact Function.update_self ..
  | failureReadOnly exn =>
      rw [afterFailure_not_open]
      exact Function.update_self ..
  | failure => simp [Shared.storeActive, Thread.goto, PC.isOpen]
  | failDone exn hpc =>
      refine keep rfl ?_ (version_afterFailure ..)
      rw [afterFailure_not_open, hpc]
      rfl
  | failCallback exn left cb hpc => exact keep (active_runAction ..) (by rw [hpc]; rfl) rfl
  | succCallback mode epoch minEpoch i ch cb hpc =>
      exact keep (active_runAction ..) (by rw [hpc]; rfl) rfl
  | _ => exact keep rfl (by simp only [*]; rfl) rfl

/-- The place after the step says the truth about the body's operation. -/
theorem Move.opAt (h : Move cfg sh t th opened req sh' th') (ho : OpAt cfg th th.pc) :
    OpAt cfg th' th'.pc := by
  cases h with
  | reclaimNothing => exact ho
  | goto pc' hin hout hset hop =>
      have := hop ho
      revert this
      cases pc' <;> exact id
  | allocFast v x hpc hv =>
      rw [hpc] at ho
      exact ⟨ho.1, ⟨x, ho.2.1⟩, ho.2.2.1, ⟨_, rfl⟩, _, PodHashSet.entries_uncheckedPushBack ..⟩
  | readStorage path v hpc =>
      rw [hpc] at ho
      exact ho
  | slowStorage v x hpc =>
      rw [hpc] at ho
      exact ho
  | atomicPush v s hpc =>
      rcases hpc with ⟨_, hk, ⟨x, _, hx⟩, ht⟩ | hpc
      · exact ⟨hk, ⟨x, hx⟩, ht⟩
      · rw [hpc] at ho
        obtain ⟨hk, ⟨x, _, hx⟩, ht, _⟩ := ho
        exact ⟨hk, ⟨x, hx⟩, ht⟩
  | atomicOverwrite v s i hpc =>
      rcases hpc with ⟨_, hk, ⟨x, _, hx⟩, ht⟩ | hpc
      · exact ⟨hk, ⟨x, hx⟩, ht⟩
      · rw [hpc] at ho
        obtain ⟨hk, ⟨x, _, hx⟩, ht, _⟩ := ho
        exact ⟨hk, ⟨x, hx⟩, ht⟩
  | startCommit hpc =>
      rw [hpc] at ho
      exact fun _ => ho
  | allLocked i hpc | lockValid i e hpc | lock i e hpc | unlockLoad i last e hpc
  | unlock i last buf e hpc | validated i hpc | readValid i v hpc | readInvalid i hpc
  | store i e hpc | allStored i hpc | bump hpc | publish i syncEpoch e hpc =>
      rw [hpc] at ho
      exact fun _ => ho rfl
  | lockInvalid i hi hpc =>
      rcases hpc with hpc | ⟨_, hpc⟩
      all_goals
        rw [hpc] at ho
        exact fun _ => ho rfl
  | waitMore => exact ho
  | success syncEpoch hpc hk =>
      have hout := Thread.reclaim_outside cfg
        ((th.setTxState .none).clearReadWriteSets.clearFailCallbacks) syncEpoch
      simp only [Thread.reclaim] at hout ⊢
      split
      · split <;> (intro hc; cases hc)
      · intro hc; cases hc
  | failureReadOnly exn => unfold afterFailure; split <;> (intro hc; cases hc)
  | failDone exn => unfold afterFailure; split <;> (intro hc; cases hc)
  | _ => intro hc; cases hc

end Move

omit [DecidableEq ι] in
theorem active_init (cfg : Config ι ν α) : Active cfg (.init cfg) where
  clock_lt := show 0 < maxVersion by decide
  active _ := rfl
  version_le _ := Nat.le_refl _
  opAt _ := fun hc => by cases hc

/-- A step keeps the announced epochs right. -/
theorem Active.step {cfg : Config ι ν α} {s : Sys ι ν α} {t : ι} {req : Option (Request ν α)}
    {sh' : Shared ι ν α} {th' : Thread ι ν α} (h : Active cfg s)
    (hm : Move cfg s.shared t (s.threads t) s.opened req sh' th') :
    Active cfg (s.after t sh' th') where
  clock_lt := hm.clock_lt h.clock_lt
  active := Sys.forall_after (P := fun u th => sh'.active u = if th.pc.isOpen then th.version else offState)
    (hm.active_self (h.active t)) fun u hu => (hm.active_ne hu).trans (h.active u)
  version_le := by
    refine Sys.forall_after (P := fun _ th => th.version ≤ sh'.clock) ?_
      fun u _ => (h.version_le u).trans hm.clock_le
    rcases hm.version with e | ⟨_, e⟩ | ⟨hpc, e⟩
    · exact e ▸ (h.version_le t).trans hm.clock_le
    · exact e ▸ hm.clock_le
    · rw [e, h.active t, hpc]
      exact (h.version_le t).trans hm.clock_le
  opAt := Sys.forall_after (P := fun _ th => OpAt cfg th th.pc) (hm.opAt (h.opAt t))
    fun u _ => h.opAt u

/-- **In every state reached the announced epochs are right.** -/
theorem active_reach {cfg : Config ι ν α} {ok : Request ν α → Prop} {s : Sys ι ν α}
    (h : Sys.Reach cfg ok s) : Active cfg s :=
  h.induct (active_init cfg) fun _ ih _ hm => ih.step hm

namespace Active

variable {cfg : Config ι ν α} {s : Sys ι ν α}

omit [DecidableEq ι] in
/-- The version of a thread stays below the lock bit. -/
theorem version_lt (h : Active cfg s) (t : ι) : (s.threads t).version < lockBit :=
  lt_of_le_of_lt (h.version_le t) (h.clock_lt.trans maxVersion_lt)

omit [DecidableEq ι] in
/-- The announced epoch of an open thread. -/
theorem active_of_open (h : Active cfg s) {t : ι} (ho : (s.threads t).pc.isOpen = true) :
    s.shared.active t = (s.threads t).version := by
  rw [h.active t, if_pos ho]

/-- A nested call runs at the version of the outer one. -/
theorem version_eq (h : Active cfg s) {t : ι} {req : Option (Request ν α)} {sh' : Shared ι ν α}
    {th' : Thread ι ν α} (hm : Move cfg s.shared t (s.threads t) s.opened req sh' th')
    (hpc : (s.threads t).pc ≠ .getClock) : th'.version = (s.threads t).version := by
  rcases hm.version with e | ⟨e, _⟩ | ⟨e, e'⟩
  · exact e
  · exact absurd e hpc
  · rw [e', h.active_of_open (by rw [e]; rfl)]

end Active

end LockfreeStm
