/-
  File:      LockfreeStm/Machine/Views.lean
  Subject:   WHAT A STEP CAN DO TO SHARED MEMORY: the parts of a thread's write set that are locked,
             stored or being published, and every step classified by what it does to them.

  * `Thread.held`, `Thread.preStored`, `Thread.publishing` -- the entries of the write set whose var
    is locked by the thread; whose var holds the pending storage although the clock has not been
    bumped; whose var waits for its new version.
  * `Effect`, `Move.effect` -- a step locks a var, unlocks one after a failed commit, stores one,
    bumps the clock, publishes one, commits an empty write set, or leaves the vars, the clock and
    the commits alone. The invariants of the commit algorithm are proved from this list.
-/
import LockfreeStm.Machine.Moves

namespace LockfreeStm

variable {ι ν α : Type}

namespace Thread

/-- The entries of the write set. -/
def entries (th : Thread ι ν α) : List (WriteSetValueType ν (VarStorage α)) :=
  th.td.writeSet.entries

/-- The entries whose var the thread has locked and not yet unlocked. -/
def held (th : Thread ι ν α) : List (WriteSetValueType ν (VarStorage α)) :=
  match th.pc with
  | .lockLoad i => th.entries.take i
  | .lockCas i _ => th.entries.take i
  | .unlockLoad i last => (th.entries.take last).drop i
  | .unlockStore i last _ => (th.entries.take last).drop i
  | .validateReads _ => th.entries
  | .doWrites _ => th.entries
  | .bumpClock => th.entries
  | .publish i _ => th.entries.drop i
  | _ => []

/-- The entries `do_writes` has stored while the clock is not yet bumped. -/
def preStored (th : Thread ι ν α) : List (WriteSetValueType ν (VarStorage α)) :=
  match th.pc with
  | .doWrites i => th.entries.take i
  | .bumpClock => th.entries
  | _ => []

/-- The entries whose version is still to be published. -/
def publishing (th : Thread ι ν α) : List (WriteSetValueType ν (VarStorage α)) :=
  match th.pc with
  | .publish i _ => th.entries.drop i
  | _ => []

/-- The version `publish` stores. -/
def publishVersion (th : Thread ι ν α) : Epoch :=
  match th.pc with
  | .publish _ syncEpoch => syncEpoch + bumpSize
  | _ => 0

/-- The thread holds the lock of `v`. -/
def Holds (th : Thread ι ν α) (v : ν) : Prop := ∃ e ∈ th.held, e.destVar = v

/-- The thread has stored `v` and not bumped the clock. -/
def PreStored (th : Thread ι ν α) (v : ν) : Prop := ∃ e ∈ th.preStored, e.destVar = v

/-- The thread has bumped the clock and is still to publish `v`. -/
def Publishing (th : Thread ι ν α) (v : ν) : Prop := ∃ e ∈ th.publishing, e.destVar = v

theorem PreStored.holds {th : Thread ι ν α} {v : ν} (h : th.PreStored v) : th.Holds v := by
  obtain ⟨e, he, rfl⟩ := h
  refine ⟨e, ?_, rfl⟩
  unfold preStored at he
  unfold held
  split at he
  · rename_i i hpc
    rw [hpc]
    exact List.mem_of_mem_take he
  · rename_i hpc
    rw [hpc]
    exact he
  · cases he

theorem Publishing.holds {th : Thread ι ν α} {v : ν} (h : th.Publishing v) : th.Holds v := by
  obtain ⟨e, he, rfl⟩ := h
  refine ⟨e, ?_, rfl⟩
  unfold publishing at he
  unfold held
  split at he
  · rename_i hpc
    rw [hpc]
    exact he
  · cases he

/-- Outside the commit a thread has nothing locked, stored or to publish. -/
theorem views_of_outside {th : Thread ι ν α} (h : th.pc.inCommit = false) :
    th.held = [] ∧ th.preStored = [] ∧ th.publishing = [] := by
  unfold held preStored publishing
  cases hpc : th.pc <;> simp_all [PC.inCommit]

end Thread

/-- The views of a thread do not change. -/
structure SameViews (th th' : Thread ι ν α) : Prop where
  held : th'.held = th.held
  preStored : th'.preStored = th.preStored
  publishing : th'.publishing = th.publishing
  publishVersion : th'.publishing ≠ [] → th'.publishVersion = th.publishVersion

namespace SameViews

variable {th th' : Thread ι ν α}

theorem holds (h : SameViews th th') (v : ν) : th'.Holds v ↔ th.Holds v := by
  unfold Thread.Holds
  rw [h.held]

theorem stored (h : SameViews th th') (v : ν) : th'.PreStored v ↔ th.PreStored v := by
  unfold Thread.PreStored
  rw [h.preStored]

theorem publish (h : SameViews th th') (v : ν) : th'.Publishing v ↔ th.Publishing v := by
  unfold Thread.Publishing
  rw [h.publishing]

/-- Outside the commit a thread has no views to change. -/
theorem of_outside (h : th.pc.inCommit = false) (h' : th'.pc.inCommit = false) :
    SameViews th th' := by
  obtain ⟨e1, e2, e3⟩ := th.views_of_outside h
  obtain ⟨e1', e2', e3'⟩ := th'.views_of_outside h'
  exact ⟨by rw [e1, e1'], by rw [e2, e2'], by rw [e3, e3'], fun hne => absurd e3' hne⟩

/-- A step from place to place that leaves the three views alone. -/
theorem of_goto {pc' : PC ι ν α} (h1 : (th.goto pc').held = th.held)
    (h2 : (th.goto pc').preStored = th.preStored) (h3 : th.publishing = [])
    (h4 : (th.goto pc').publishing = []) : SameViews th (th.goto pc') :=
  ⟨h1, h2, by rw [h3, h4], fun hne => absurd h4 hne⟩

end SameViews

/-- The vars, the clock and the commits do not change. -/
structure SameVars (sh sh' : Shared ι ν α) : Prop where
  vars : sh'.vars = sh.vars
  clock : sh'.clock = sh.clock
  commits : sh'.hist.commits = sh.hist.commits

theorem SameVars.refl (sh : Shared ι ν α) : SameVars sh sh := ⟨rfl, rfl, rfl⟩

theorem Shared.sameVars_runAction (sh : Shared ι ν α) (a : Action α) :
    SameVars sh (sh.runAction a) := by
  cases a <;> exact ⟨rfl, rfl, rfl⟩

theorem Shared.sameVars_storeObject (sh : Shared ι ν α) (s : VarStorage α) (x : α) :
    SameVars sh (sh.storeObject s x) := by
  cases s <;> exact ⟨rfl, rfl, rfl⟩

section Effect

variable [DecidableEq ι] [DecidableEq ν]

omit [DecidableEq ι] in
theorem Shared.sameVars_noteRead (sh : Shared ι ν α) (t : ι) (th : Thread ι ν α) (v : ν) (x : α) :
    SameVars sh (sh.noteRead t th v x) := by
  unfold noteRead
  split <;> exact ⟨rfl, rfl, rfl⟩

/-- What a step of a thread does to the vars, the clock, the commits and the thread's views. -/
inductive Effect (sh : Shared ι ν α) (t : ι) (th : Thread ι ν α) (opened : ι → Option Nat) :
    Shared ι ν α → Thread ι ν α → Prop where
  | quiet {sh' th'} (hs : SameVars sh sh') (hv : SameViews th th') : Effect sh t th opened sh' th'
  | commitEmpty (hpc : th.pc = .tryCommit) (he : th.td.writeSet.entries = []) :
      Effect sh t th opened (sh.noteCommit (commitRecord sh t th 0 th.att.start opened))
        (th.goto (.txSuccess 0))
  | lock (i : Nat) (e : WriteSetValueType ν (VarStorage α))
      (hpc : th.pc = .lockCas i (sh.loadVersion e.destVar))
      (he : th.td.writeSet.entries[i]? = some e) :
      Effect sh t th opened (sh.storeVersion e.destVar (asLocked (sh.loadVersion e.destVar)))
        (th.goto (.lockLoad (i + 1)))
  | unlock (i last : Nat) (buf : Epoch) (e : WriteSetValueType ν (VarStorage α))
      (hpc : th.pc = .unlockStore i last buf) (he : th.td.writeSet.entries[i]? = some e) :
      Effect sh t th opened (sh.storeVersion e.destVar (flipLock buf))
        (th.goto (.unlockLoad (i + 1) last))
  | store (i : Nat) (e : WriteSetValueType ν (VarStorage α)) (hpc : th.pc = .doWrites i)
      (he : th.td.writeSet.entries[i]? = some e) :
      Effect sh t th opened (sh.storeStorage e.destVar e.pendingWrite) (th.goto (.doWrites (i + 1)))
  | bump (hpc : th.pc = .bumpClock) (hc : sh.clock < maxVersion - bumpSize) :
      Effect sh t th opened
        ({ sh with clock := sh.clock + bumpSize }.noteCommit
          (commitRecord { sh with clock := sh.clock + bumpSize } t th (sh.clock + bumpSize)
            th.att.point opened))
        (th.goto (.publish 0 sh.clock))
  | publish (i : Nat) (syncEpoch : Epoch) (e : WriteSetValueType ν (VarStorage α))
      (hpc : th.pc = .publish i syncEpoch) (he : th.td.writeSet.entries[i]? = some e) :
      Effect sh t th opened (sh.storeVersion e.destVar (syncEpoch + bumpSize))
        (th.goto (.publish (i + 1) syncEpoch))

omit [DecidableEq ι] [DecidableEq ν] in
@[simp] theorem pc_goto (th : Thread ι ν α) (pc : PC ι ν α) : (th.goto pc).pc = pc := rfl

omit [DecidableEq ι] [DecidableEq ν] in
@[simp] theorem pc_opReturns (th : Thread ι ν α) (r : Option α) : (th.opReturns r).pc = .call := rfl

omit [DecidableEq ι] [DecidableEq ν] in
theorem PC.inCommit_of_inBody {pc : PC ι ν α} (h : pc.inBody = true) : pc.inCommit = false := by
  cases pc <;> first | rfl | cases h

omit [DecidableEq ι] [DecidableEq ν] in
theorem Thread.reclaim_outside (cfg : Config ι ν α) (th : Thread ι ν α) (e : Epoch) :
    (th.reclaim cfg e).pc.inCommit = false := by
  simp only [Thread.reclaim]
  split
  · split <;> rfl
  · rfl

omit [DecidableEq ι] [DecidableEq ν] in
theorem afterFailure_outside (th : Thread ι ν α) (exn : Bool) :
    (afterFailure th exn).pc.inCommit = false := by
  unfold afterFailure
  split <;> rfl

/-- **Every move, classified by its effect.** -/
theorem Move.effect {cfg : Config ι ν α} {sh sh' : Shared ι ν α} {t : ι}
    {th th' : Thread ι ν α} {opened : ι → Option Nat} {req : Option (Request ν α)}
    (h : Move cfg sh t th opened req sh' th') : Effect sh t th opened sh' th' := by
  have out : ∀ {sh' : Shared ι ν α} {th' : Thread ι ν α}, SameVars sh sh' →
      th.pc.inCommit = false → th'.pc.inCommit = false → Effect sh t th opened sh' th' :=
    fun hs h h' => .quiet hs (.of_outside h h')
  cases h with
  | reclaimNothing hpc => exact out (.refl sh) (by rw [hpc]; rfl) (by rw [hpc]; rfl)
  | goto pc' hin hout =>
      refine out (.refl sh) (PC.inCommit_of_inBody hin) ?_
      rcases hout with h | ⟨_, rfl⟩ | rfl | ⟨rfl, _⟩
      · exact PC.inCommit_of_inBody (PC.inBody_of_isEntry h)
      all_goals rfl
  | readReturns path v result hpc =>
      exact out (Shared.sameVars_noteRead ..) (by rw [hpc]; rfl) rfl
  | storePending v x pending hpc =>
      exact out (Shared.sameVars_storeObject ..) (by rw [hpc]; rfl) rfl
  | atomicPush v s hpc =>
      exact out (.refl sh) (by rcases hpc with ⟨hpc, _⟩ | hpc <;> rw [hpc] <;> rfl) rfl
  | atomicOverwrite v s i hpc =>
      exact out (.refl sh) (by rcases hpc with ⟨hpc, _⟩ | hpc <;> rw [hpc] <;> rfl) rfl
  | commitEmpty hpc he => exact .commitEmpty hpc he
  | startCommit hpc he =>
      obtain ⟨e1, e2, e3⟩ := th.views_of_outside (by rw [hpc]; rfl)
      exact .quiet (.refl sh) ⟨by rw [e1]; rfl, by rw [e2]; rfl, by rw [e3]; rfl,
        fun hne => absurd rfl hne⟩
  | allLocked i hpc he =>
      have hall : th.entries.take i = th.entries :=
        List.take_of_length_le (List.getElem?_eq_none_iff.mp he)
      exact .quiet (.refl sh) ⟨by rw [Thread.held, Thread.held, hpc]; exact hall.symm,
        by simp [Thread.preStored, hpc], by simp [Thread.publishing, hpc],
        fun hne => absurd rfl hne⟩
  | lockValid i e hpc =>
      exact .quiet (.refl sh) (.of_goto (by simp [Thread.held, hpc, Thread.entries, Thread.goto])
        (by simp [Thread.preStored, hpc]) (by simp [Thread.publishing, hpc])
        (by simp [Thread.publishing]))
  | lockInvalid i hi hpc =>
      rcases hpc with hpc | ⟨buf, hpc⟩
      all_goals
        exact .quiet (.refl sh) (.of_goto (by simp [Thread.held, hpc, Thread.entries, Thread.goto])
          (by simp [Thread.preStored, hpc]) (by simp [Thread.publishing, hpc])
          (by simp [Thread.publishing]))
  | lock i e hpc he => exact .lock i e hpc he
  | unlockLoad i last e hpc =>
      exact .quiet (.refl sh) (.of_goto (by simp [Thread.held, hpc, Thread.entries, Thread.goto])
        (by simp [Thread.preStored, hpc]) (by simp [Thread.publishing, hpc])
        (by simp [Thread.publishing]))
  | unlockDone i last hpc hi =>
      have hnil : (th.entries.take last).drop i = [] :=
        List.drop_eq_nil_of_le (by rw [List.length_take]; omega)
      exact .quiet (.refl sh) (.of_goto (by simp [Thread.held, hpc, hnil])
        (by simp [Thread.preStored, hpc]) (by simp [Thread.publishing, hpc])
        (by simp [Thread.publishing]))
  | unlock i last buf e hpc he => exact .unlock i last buf e hpc he
  | validated i hpc =>
      exact .quiet (.refl sh) (.of_goto (by simp [Thread.held, hpc, Thread.entries, Thread.goto])
        (by simp [Thread.preStored, hpc]) (by simp [Thread.publishing, hpc])
        (by simp [Thread.publishing]))
  | readValid i v hpc =>
      exact .quiet (.refl sh) (.of_goto (by simp [Thread.held, hpc, Thread.entries, Thread.goto])
        (by simp [Thread.preStored, hpc]) (by simp [Thread.publishing, hpc])
        (by simp [Thread.publishing]))
  | readInvalid i hpc =>
      exact .quiet (.refl sh) (.of_goto (by simp [Thread.held, hpc, Thread.entries, Thread.goto])
        (by simp [Thread.preStored, hpc]) (by simp [Thread.publishing, hpc])
        (by simp [Thread.publishing]))
  | store i e hpc he => exact .store i e hpc he
  | allStored i hpc he =>
      have hall : th.entries.take i = th.entries :=
        List.take_of_length_le (List.getElem?_eq_none_iff.mp he)
      exact .quiet (.refl sh) (.of_goto (by simp [Thread.held, hpc, Thread.entries, Thread.goto])
        (by rw [Thread.preStored, Thread.preStored, hpc]; exact hall.symm)
        (by simp [Thread.publishing, hpc]) (by simp [Thread.publishing]))
  | bump hpc hc => exact .bump hpc hc
  | publish i syncEpoch e hpc he => exact .publish i syncEpoch e hpc he
  | published i syncEpoch hpc he =>
      have hnil : th.entries.drop i = [] :=
        List.drop_eq_nil_of_le (List.getElem?_eq_none_iff.mp he)
      exact .quiet (.refl sh) (.of_goto (by simp [Thread.held, hpc, hnil])
        (by simp [Thread.preStored, hpc]) (by simp [Thread.publishing, hpc, hnil])
        (by simp [Thread.publishing]))
  | success syncEpoch hpc =>
      exact out ⟨rfl, rfl, rfl⟩ (by rw [hpc]; rfl) (Thread.reclaim_outside ..)
  | failureReadOnly exn hpc =>
      exact out ⟨rfl, rfl, rfl⟩ (by rw [hpc]; rfl) (afterFailure_outside ..)
  | failCallback exn left cb hpc =>
      exact out (Shared.sameVars_runAction ..) (by rw [hpc]; rfl) rfl
  | failDone exn hpc => exact out (.refl sh) (by rw [hpc]; rfl) (afterFailure_outside ..)
  | waitMore mode epoch result u nodes hpc =>
      exact out (.refl sh) (by rw [hpc]; rfl) (by rw [hpc]; rfl)
  | succCallback mode epoch minEpoch i ch cb hpc =>
      exact out (Shared.sameVars_runAction ..) (by rw [hpc]; rfl) rfl
  | _ => exact out ⟨rfl, rfl, rfl⟩ (by simp only [*]; rfl) rfl

end Effect

end LockfreeStm
