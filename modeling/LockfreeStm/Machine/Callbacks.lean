/-
  File:      LockfreeStm/Machine/Callbacks.lean
  Subject:   WHAT THE CALLBACKS OF AN ATTEMPT CAPTURE: a set of a heap var registers one of each list.

  * `Registered`, `registered_reach` -- in every state reached, while an attempt runs, its fail
    callbacks destroy the pending objects of its write set, in their order, and its success callbacks
    the storages it has found in these vars.
  * `Captures` -- a found storage is the one the latest commit installed, unless that commit has
    overtaken the attempt or another thread has stored the var without having bumped the clock.
  * `Registered.overwritten` -- at the commit it is the storage the commit overwrites.

  The fast path of `rw_write` loads the current storage after its version check, the slow path before;
  neither looks again. The lock and the version check at the commit make both right.
-/
import LockfreeStm.Machine.Snapshot
import LockfreeStm.Machine.Atomicity
import LockfreeStm.Machine.WriteSets

namespace LockfreeStm

variable {ι ν α : Type}

/-! ## 1. Callbacks and entries -/

/-- The storage a callback destroys. -/
def GpCallback.destroys? (cb : GpCallback ν α) : Option (VarStorage α) :=
  match cb.action with
  | .destroyDeallocate s => some s
  | .user _ => none

/-- The storages a list of callbacks destroys. -/
def storages (cbs : List (GpCallback ν α)) : List (VarStorage α) := cbs.filterMap (·.destroys?)

/-- The callbacks that sets have registered. -/
def bySet (cbs : List (GpCallback ν α)) : List (GpCallback ν α) := cbs.filter (·.forVar.isSome)

/-- The storage is an object. -/
def VarStorage.isPtr : VarStorage α → Bool
  | .ptr _ => true
  | .raw _ => false

/-- The entries of heap vars. -/
def heapEntries (es : List (WriteSetValueType ν (VarStorage α))) :
    List (WriteSetValueType ν (VarStorage α)) := es.filter (·.pendingWrite.isPtr)

@[simp] theorem storages_nil : storages ([] : List (GpCallback ν α)) = [] := rfl

@[simp] theorem storages_append (cbs cbs' : List (GpCallback ν α)) :
    storages (cbs ++ cbs') = storages cbs ++ storages cbs' := List.filterMap_append

theorem mem_storages {cbs : List (GpCallback ν α)} {st : VarStorage α} :
    st ∈ storages cbs ↔ ∃ cb ∈ cbs, cb.action = .destroyDeallocate st := by
  rw [storages, List.mem_filterMap]
  refine exists_congr fun cb => and_congr_right fun _ => ?_
  unfold GpCallback.destroys?
  split <;> simp_all

@[simp] theorem bySet_append (cbs cbs' : List (GpCallback ν α)) :
    bySet (cbs ++ cbs') = bySet cbs ++ bySet cbs' := List.filter_append ..

@[simp] theorem heapEntries_append (es es' : List (WriteSetValueType ν (VarStorage α))) :
    heapEntries (es ++ es') = heapEntries es ++ heapEntries es' := List.filter_append ..

/-- Only the callbacks of sets destroy. -/
def Plain (cbs : List (GpCallback ν α)) : Prop := ∀ cb ∈ cbs, cb.forVar = none → cb.destroys? = none

theorem storages_bySet {cbs : List (GpCallback ν α)} (h : Plain cbs) :
    storages (bySet cbs) = storages cbs := by
  rw [storages, bySet, List.filterMap_filter]
  refine List.filterMap_congr fun cb hcb => ?_
  cases hv : cb.forVar with
  | none => simp [h cb hcb hv]
  | some v => simp

/-- The entries whose set has registered its callbacks: all but the one `rw_write` has just pushed. -/
def Thread.registered (th : Thread ι ν α) : List (WriteSetValueType ν (VarStorage α)) :=
  match th.pc with
  | .writeCurStorage _ _ => th.entries.dropLast
  | _ => th.entries

/-- The place behind the push of an entry whose callbacks are still to be registered. -/
def PC.isRegistering : PC ι ν α → Bool
  | .writeCurStorage _ _ => true
  | _ => false

/-- The place behind the load of the storage a set replaces. -/
def PC.isSlowSet : PC ι ν α → Bool
  | .writeSlowVersion _ _ _ => true
  | _ => false

theorem Thread.registered_eq {th : Thread ι ν α} (h : th.pc.isRegistering = false) :
    th.registered = th.entries := by
  unfold registered
  split
  · rename_i hpc
    rw [hpc] at h
    cases h
  · rfl

variable [DecidableEq ι] [DecidableEq ν]

/-- What a storage found in `v` is, as far as the attempt of thread `t` can tell. -/
def Captures (cfg : Config ι ν α) (s : Sys ι ν α) (t : ι) (v : ν) (st : VarStorage α) : Prop :=
  latestVersion s.shared.hist.commits v ≤ (s.threads t).version →
    (∀ u, u ≠ t → ¬ (s.threads u).PreStored v) → st = latestStorage cfg s.shared.hist.commits v

/-- The success callback of an entry. -/
def OfEntry (cfg : Config ι ν α) (s : Sys ι ν α) (t : ι) (cb : GpCallback ν α)
    (e : WriteSetValueType ν (VarStorage α)) : Prop :=
  cb.forVar = some e.destVar ∧ ∃ st, cb.action = .destroyDeallocate st ∧ Captures cfg s t e.destVar st

/-- What the callbacks of a running attempt of thread `t` capture. -/
structure Registered (cfg : Config ι ν α) (s : Sys ι ν α) (t : ι) (th : Thread ι ν α) : Prop where
  plain : Plain th.att.regFail ∧ Plain th.att.regSucc
  fails : List.Forall₂ (fun cb e => cb.action = .destroyDeallocate e.pendingWrite)
    (bySet th.att.regFail) (heapEntries th.registered)
  succs : List.Forall₂ (OfEntry cfg s t) (bySet th.att.regSucc) (heapEntries th.registered)
  loaded : ∀ v x cur, th.pc = .writeSlowVersion v x cur → Captures cfg s t v cur

/-! ## 2. The step -/

section Step

variable {cfg : Config ι ν α} {s : Sys ι ν α} {t : ι} {req : Option (Request ν α)}
  {sh' : Shared ι ν α} {th' : Thread ι ν α}

/-- A step of another thread: a var it has not stored is as it was, or has overtaken the attempt. -/
theorem Captures.step_ne {u : ι} {v : ν} {st : VarStorage α} (h : Captures cfg s u v st)
    (ha : Active cfg s) (hm : Effect s.shared t (s.threads t) s.opened sh' th') (hu : u ≠ t) :
    Captures cfg (s.after t sh' th') u v st := by
  intro hle hn
  rw [Sys.threads_after_ne s hu] at hle
  have ht := hn t hu.symm
  rw [Sys.threads_after_self] at ht
  rcases hm.unstored v ht with hlt | ⟨h1, _, h3⟩
  · exact absurd (hlt.trans_le hle) (Nat.not_lt_of_le (ha.version_le u))
  · rw [Sys.shared_after, Shared.commits_atTime, latestVersion_of_eq h3] at hle
    rw [Sys.shared_after, Shared.commits_atTime, latestStorage_of_eq h3]
    refine h hle fun w hw => ?_
    by_cases hwt : w = t
    · exact hwt ▸ h1
    · have := hn w hw
      rwa [Sys.threads_after_ne s hwt] at this

/-- A step of the thread itself that commits nothing. -/
theorem Captures.step_self {v : ν} {st : VarStorage α} (h : Captures cfg s t v st)
    (hc : sh'.hist.commits = s.shared.hist.commits) (hv : th'.version = (s.threads t).version) :
    Captures cfg (s.after t sh' th') t v st := by
  intro hle hn
  rw [Sys.threads_after_self, hv, Sys.shared_after, Shared.commits_atTime, hc] at hle
  rw [Sys.shared_after, Shared.commits_atTime, hc]
  refine h hle fun u hu => ?_
  have := hn u hu
  rwa [Sys.threads_after_ne s hu] at this

/-- The storage a set loads. -/
theorem Captures.load (hc : Commits cfg s) (hin : (s.threads t).pc.inCommit = false) (v : ν) :
    Captures cfg s t v (s.shared.loadStorage v) := by
  intro _ hn
  refine (hc.var v).storage fun u => ?_
  by_cases hu : u = t
  · rintro ⟨e, he, _⟩
    rw [hu, ((s.threads t).views_of_outside hin).2.1] at he
    cases he
  · exact hn u hu

/-- A step of another thread keeps what the callbacks capture. -/
theorem Registered.step_ne {u : ι} (h : Registered cfg s u (s.threads u)) (ha : Active cfg s)
    (hm : Effect s.shared t (s.threads t) s.opened sh' th') (hu : u ≠ t) :
    Registered cfg (s.after t sh' th') u (s.threads u) where
  plain := h.plain
  fails := h.fails
  succs := h.succs.imp fun _ _ ⟨h1, st, h2, h3⟩ => ⟨h1, st, h2, h3.step_ne ha hm hu⟩
  loaded v x cur hpc := (h.loaded v x cur hpc).step_ne ha hm hu

/-- The thread's own step: it registers a callback of each list for the entries it adds. -/
theorem Registered.extend (h : Registered cfg s t (s.threads t))
    (fails succs : List (GpCallback ν α)) (es : List (WriteSetValueType ν (VarStorage α)))
    (hc : sh'.hist.commits = s.shared.hist.commits) (hv : th'.version = (s.threads t).version)
    (hrf : th'.att.regFail = (s.threads t).att.regFail ++ fails)
    (hrs : th'.att.regSucc = (s.threads t).att.regSucc ++ succs)
    (hes : heapEntries th'.registered = heapEntries (s.threads t).registered ++ heapEntries es)
    (hp : Plain fails ∧ Plain succs)
    (hf : List.Forall₂ (fun cb e => cb.action = .destroyDeallocate e.pendingWrite) (bySet fails) (heapEntries es))
    (hs : List.Forall₂ (OfEntry cfg s t) (bySet succs) (heapEntries es))
    (hl : ∀ v x cur, th'.pc = .writeSlowVersion v x cur → Captures cfg s t v cur) :
    Registered cfg (s.after t sh' th') t th' := by
  have happ : ∀ {xs ys : List (GpCallback ν α)}, Plain xs → Plain ys → Plain (xs ++ ys) :=
    fun hx hy cb hcb => (List.mem_append.mp hcb).elim (hx cb) (hy cb)
  refine ⟨⟨hrf ▸ happ h.plain.1 hp.1, hrs ▸ happ h.plain.2 hp.2⟩, ?_, ?_, fun v x cur hpc =>
    (hl v x cur hpc).step_self hc hv⟩
  · rw [hrf, hes, bySet_append]
    exact List.rel_append h.fails hf
  · rw [hrs, hes, bySet_append]
    exact List.rel_append (h.succs.imp fun _ _ ⟨h1, st, h2, h3⟩ => ⟨h1, st, h2, h3.step_self hc hv⟩)
      (hs.imp fun _ _ ⟨h1, st, h2, h3⟩ => ⟨h1, st, h2, h3.step_self hc hv⟩)

/-- The thread's own step: it registers no callback for a new entry. -/
theorem Registered.keep (h : Registered cfg s t (s.threads t))
    (hc : sh'.hist.commits = s.shared.hist.commits) (hv : th'.version = (s.threads t).version)
    (hrf : th'.att.regFail = (s.threads t).att.regFail) (hrs : th'.att.regSucc = (s.threads t).att.regSucc)
    (hes : heapEntries th'.registered = heapEntries (s.threads t).registered)
    (hl : ∀ v x cur, th'.pc = .writeSlowVersion v x cur → Captures cfg s t v cur) :
    Registered cfg (s.after t sh' th') t th' := by
  have hp : Plain ([] : List (GpCallback ν α)) := fun _ hcb => absurd hcb List.not_mem_nil
  exact h.extend [] [] [] hc hv (by rw [hrf, List.append_nil])
    (by rw [hrs, List.append_nil]) (hes.trans (List.append_nil _).symm) ⟨hp, hp⟩
    .nil .nil hl

omit [DecidableEq ι] [DecidableEq ν] in
theorem heapEntries_setPending {ws : PodHashSet ν (VarStorage α)} (ht : TypedSet cfg ws) {i : Nat} {v : ν} {x : α}
    (hv : ∃ e, ws.entries[i]? = some e ∧ e.destVar = v) (hat : cfg.varType v = .atomic) :
    heapEntries (ws.setPending i (.raw x)).entries = heapEntries ws.entries := by
  obtain ⟨e, he, rfl⟩ := hv
  have hraw : e.pendingWrite.isPtr = false := by
    rcases ht.typed e (List.mem_of_getElem? he) with ⟨hh, _⟩ | ⟨_, y, hy⟩
    · rw [hat] at hh
      cases hh
    · rw [hy]
      rfl
  obtain ⟨hi, rfl⟩ := List.getElem?_eq_some_iff.mp he
  rw [PodHashSet.entries_setPending, heapEntries, heapEntries, List.modify_eq_take_cons_drop hi]
  conv_rhs => rw [← List.take_append_drop i ws.entries, List.drop_eq_getElem_cons hi]
  rw [List.filter_append, List.filter_append, List.filter_cons_of_neg (by simp [VarStorage.isPtr]),
    List.filter_cons_of_neg (by simp [hraw])]

omit [DecidableEq ι] [DecidableEq ν] in
theorem plain_user {th : Thread ι ν α} {id : Nat} : Plain [th.userCallback id] := by
  intro cb hcb _
  rw [List.mem_singleton.mp hcb]
  rfl

omit [DecidableEq ι] [DecidableEq ν] in
theorem plain_destroy {th : Thread ι ν α} {v : ν} {st : VarStorage α} :
    Plain [th.destroyCallback v st] := by
  intro cb hcb hn
  rw [List.mem_singleton.mp hcb] at hn
  cases hn

omit [DecidableEq ι] in
theorem regs_noteRead (th : Thread ι ν α) (v : ν) (x : α) :
    (th.noteRead v x).att.regFail = th.att.regFail ∧ (th.noteRead v x).att.regSucc = th.att.regSucc := by
  unfold Thread.noteRead
  split <;> exact ⟨rfl, rfl⟩

omit [DecidableEq ι] [DecidableEq ν] in
/-- The entry of an atomic var has no object. -/
theorem heapEntries_concat_raw {ws ws' : PodHashSet ν (VarStorage α)} {v : ν} {x : α}
    (h : ws'.entries = ws.entries ++ [⟨v, .raw x⟩]) : heapEntries ws'.entries = heapEntries ws.entries := by
  rw [h, heapEntries_append]
  exact List.append_nil _

omit [DecidableEq ι] [DecidableEq ν] in
theorem plain_nil : Plain ([] : List (GpCallback ν α)) := fun _ hcb => absurd hcb List.not_mem_nil

/-- When the attempt begins it has registered nothing, and its write set is empty. -/
theorem Registered.start (hb : Books (s.threads t)) (hpc : (s.threads t).pc = .accessLock) :
    Registered cfg (s.after t sh' ((s.threads t).goto .call)) t ((s.threads t).goto .call) := by
  obtain ⟨h1, h2, _⟩ := hb.attempt (by rw [hpc]; rfl)
  have hf := hb.fails (by rw [hpc]; rfl) (by rw [hpc]; rfl)
  obtain ⟨_, he, hw⟩ := hb.sets (by rw [hpc]; rfl)
  have hreg : ((s.threads t).goto .call).registered = [] := he
  rw [hf] at h1
  rw [hw] at h2
  have hrf : ((s.threads t).goto .call).att.regFail = [] := h1.symm
  have hrs : ((s.threads t).goto .call).att.regSucc = [] := h2.symm
  refine ⟨by rw [hrf, hrs]; exact ⟨plain_nil, plain_nil⟩, ?_, ?_, fun v x cur hpc => by cases hpc⟩
  · rw [hrf, hreg]
    exact .nil
  · rw [hrs, hreg]
    exact .nil

/-- A step that leaves the entries of objects and the callbacks alone. -/
theorem Registered.keepEntries (h : Registered cfg s t (s.threads t))
    (hc : sh'.hist.commits = s.shared.hist.commits) (hv : th'.version = (s.threads t).version)
    (hrf : th'.att.regFail = (s.threads t).att.regFail) (hrs : th'.att.regSucc = (s.threads t).att.regSucc)
    (hes : heapEntries th'.td.writeSet.entries = heapEntries (s.threads t).td.writeSet.entries)
    (hr : (s.threads t).pc.isRegistering = false) (hr' : th'.pc.isRegistering = false)
    (hl : th'.pc.isSlowSet = false) : Registered cfg (s.after t sh' th') t th' := by
  refine h.keep hc hv hrf hrs ?_ fun v x cur hpc => by rw [hpc] at hl; cases hl
  rw [Thread.registered_eq hr, Thread.registered_eq hr']
  exact hes

omit [DecidableEq ι] [DecidableEq ν] in
/-- A set that is about to register its callbacks does not just move on. -/
theorem not_registering_of_goto {th : Thread ι ν α} {pc' : PC ι ν α}
    (hset : th.pc.inSet = true → ∃ exn v, pc' = .txFailure exn ∧ th.pc = .atomicWriteSlowVersion v) :
    th.pc.isRegistering = false := by
  cases hpc : th.pc with
  | writeCurStorage v st =>
      obtain ⟨_, w, _, hw⟩ := hset (by rw [hpc]; rfl)
      rw [hpc] at hw
      cases hw
  | _ => rfl

omit [DecidableEq ι] [DecidableEq ν] in
theorem not_registering_of_out {th : Thread ι ν α} {pc' : PC ι ν α}
    (hout : pc'.isEntry = true ∨ (∃ exn, pc' = .txFailure exn) ∨ pc' = .tryCommit ∨
      pc' = .txSuccess 0 ∧ th.kind = .readOnly) : pc'.isRegistering = false ∧ pc'.isSlowSet = false := by
  rcases hout with h | ⟨_, rfl⟩ | rfl | ⟨rfl, _⟩
  · cases pc' <;> first | exact ⟨rfl, rfl⟩ | cases h
  all_goals exact ⟨rfl, rfl⟩

/-- The fast path of a set registers the callbacks of the entry it has pushed. -/
theorem Registered.curStorage (h : Registered cfg s t (s.threads t)) (hc : Commits cfg s)
    (hop : OpAt cfg (s.threads t) (s.threads t).pc) {v : ν} {st : VarStorage α}
    (hpc : (s.threads t).pc = .writeCurStorage v st) :
    Registered cfg (s.after t s.shared (writeCurStorageStep s.shared (s.threads t) v st)) t
      (writeCurStorageStep s.shared (s.threads t) v st) := by
  rw [hpc] at hop
  obtain ⟨_, _, _, ⟨p, rfl⟩, es, hes⟩ := hop
  have hreg : (s.threads t).registered = es := by
    rw [Thread.registered, hpc]
    show (s.threads t).td.writeSet.entries.dropLast = es
    rw [hes, List.dropLast_concat]
  refine h.extend [_] [_] [⟨v, .ptr p⟩] rfl rfl rfl rfl
    ?_ ⟨plain_destroy, plain_destroy⟩ (.cons rfl .nil)
    (.cons ⟨rfl, _, rfl, .load hc (by rw [hpc]; rfl) v⟩ .nil) fun _ _ _ h => by cases h
  rw [hreg, ← heapEntries_append]
  exact congrArg heapEntries hes

/-- The slow path of a set pushes its entry and registers the callbacks. -/
theorem Registered.allocSlow (h : Registered cfg s t (s.threads t)) {v : ν} {x : α} {cur : VarStorage α}
    (hpc : (s.threads t).pc = .writeSlowVersion v x cur) (hc : sh'.hist.commits = s.shared.hist.commits)
    (hth : th' = ((((s.threads t).setWriteSet ((s.threads t).td.writeSet.pushBack v (.ptr s.shared.nextPtr)
      (cfg.baseHash v))).sometimeSynchronizedAfter ((s.threads t).destroyCallback v cur)).afterFail
        ((s.threads t).destroyCallback v (.ptr s.shared.nextPtr))).opReturns none) :
    Registered cfg (s.after t sh' th') t th' := by
  subst hth
  refine h.extend [_] [_] [⟨v, .ptr s.shared.nextPtr⟩] hc rfl rfl rfl ?_
    ⟨plain_destroy, plain_destroy⟩ (.cons rfl .nil)
    (.cons ⟨rfl, _, rfl, h.loaded v x cur hpc⟩ .nil) fun _ _ _ h => by cases h
  rw [Thread.registered, Thread.registered, hpc, ← heapEntries_append]
  exact congrArg heapEntries (PodHashSet.entries_pushBack ..)

/-- **A step of a thread keeps what its own callbacks capture.** -/
theorem Registered.step (h : (s.threads t).pc.isPrivate = true → Registered cfg s t (s.threads t))
    (hb : Books (s.threads t)) (hc : Commits cfg s) (ha : Active cfg s)
    (ht : TypedSet cfg (s.threads t).td.writeSet)
    (hm : Move cfg s.shared t (s.threads t) s.opened req sh' th') (hp' : th'.pc.isPrivate = true) :
    Registered cfg (s.after t sh' th') t th' := by
  have hop := ha.opAt t
  have hver : (s.threads t).pc.isPrivate = true → th'.version = (s.threads t).version := fun hp =>
    ha.version_eq hm (by rintro e; rw [e] at hp; cases hp)
  -- a step that leaves the write set and the callbacks alone
  have keep : (s.threads t).pc.isPrivate = true → sh'.hist.commits = s.shared.hist.commits →
      th'.att.regFail = (s.threads t).att.regFail → th'.att.regSucc = (s.threads t).att.regSucc →
      heapEntries th'.td.writeSet.entries = heapEntries (s.threads t).td.writeSet.entries →
      (s.threads t).pc.isRegistering = false → th'.pc.isRegistering = false →
      th'.pc.isSlowSet = false → Registered cfg (s.after t sh' th') t th' :=
    fun hp hcom => (h hp).keepEntries hcom (hver hp)
  cases hm with
  | accessLock hpc => exact .start hb hpc
  | goto pc' hin hout hset =>
      obtain ⟨hr, hl⟩ := not_registering_of_out hout
      exact keep (PC.isPrivate_of_inBody hin) rfl rfl rfl rfl (not_registering_of_goto hset) hr hl
  | registerSucc id hpc =>
      refine (h (by rw [hpc]; rfl)).extend [] [_] [] rfl rfl
        (List.append_nil _).symm rfl ?_ ⟨plain_nil, plain_user⟩ .nil .nil fun _ _ _ hpc => by cases hpc
      rw [Thread.registered, Thread.registered, hpc]
      exact (List.append_nil _).symm
  | registerFail id hpc =>
      refine (h (by rw [hpc]; rfl)).extend [_] [] [] rfl rfl
        rfl (List.append_nil _).symm ?_ ⟨plain_user, plain_nil⟩ .nil .nil fun _ _ _ hpc => by cases hpc
      rw [Thread.registered, Thread.registered, hpc]
      exact (List.append_nil _).symm
  | readReturns path v st hpc =>
      have hreg := regs_noteRead ((s.threads t).pushRead path v) v (st.load s.shared.cells)
      rw [att_pushRead] at hreg
      refine keep (by rw [hpc]; rfl) (Shared.sameVars_noteRead ..).commits hreg.1 hreg.2 ?_
        (by rw [hpc]; rfl) rfl rfl
      rw [td_opReturns, td_noteRead, writeSet_pushRead]
  | allocFast v x hpc =>
      refine (h (by rw [hpc]; rfl)).keep rfl rfl rfl rfl ?_ fun _ _ _ h => by cases h
      rw [Thread.registered, Thread.registered, hpc]
      have hes := PodHashSet.entries_uncheckedPushBack (s.threads t).td.writeSet v (.ptr s.shared.nextPtr)
        (cfg.varHash v)
      exact congrArg heapEntries ((congrArg List.dropLast hes).trans List.dropLast_concat)
  | curStorage v st hpc => exact (h (by rw [hpc]; rfl)).curStorage hc hop hpc
  | slowStorage v x hpc =>
      refine (h (by rw [hpc]; rfl)).keep rfl rfl rfl rfl ?_ fun w y cur hpc' => ?_
      · rw [Thread.registered, Thread.registered, hpc]
        rfl
      · cases hpc'
        exact .load hc (by rw [hpc]; rfl) v
  | allocSlow v x cur hpc => exact (h (by rw [hpc]; rfl)).allocSlow hpc rfl rfl
  | storePending v x pending hpc =>
      exact keep (by rw [hpc]; rfl) (Shared.sameVars_storeObject ..).commits rfl rfl rfl
        (by rw [hpc]; rfl) rfl rfl
  | atomicFast v st hpc =>
      rw [hpc] at hop
      obtain ⟨_, ⟨x, rfl, _⟩, _⟩ := hop
      exact keep (by rw [hpc]; rfl) rfl rfl rfl (heapEntries_concat_raw (PodHashSet.entries_uncheckedPushBack ..))
        (by rw [hpc]; rfl) rfl rfl
  | atomicPush v st hpc =>
      obtain ⟨⟨x, rfl⟩, _⟩ := atomic_fits hop hpc
      exact keep (by rcases hpc with ⟨hpc, _⟩ | hpc <;> rw [hpc] <;> rfl) rfl rfl rfl
        (heapEntries_concat_raw (PodHashSet.entries_pushBack ..))
        (by rcases hpc with ⟨hpc, _⟩ | hpc <;> rw [hpc] <;> rfl) rfl rfl
  | atomicOverwrite v st i hpc hl =>
      obtain ⟨⟨x, rfl⟩, hat⟩ := atomic_fits hop hpc
      exact keep (by rcases hpc with ⟨hpc, _⟩ | hpc <;> rw [hpc] <;> rfl) rfl rfl rfl
        (heapEntries_setPending ht (PodHashSet.lookup_pendingWrite hl) hat)
        (by rcases hpc with ⟨hpc, _⟩ | hpc <;> rw [hpc] <;> rfl) rfl rfl
  | lockInvalid i hi hpc =>
      exact keep (by rcases hpc with hpc | ⟨_, hpc⟩ <;> rw [hpc] <;> rfl) rfl rfl rfl rfl
        (by rcases hpc with hpc | ⟨_, hpc⟩ <;> rw [hpc] <;> rfl) rfl rfl
  | reclaimNothing hpc | waitMore _ _ _ _ _ hpc =>
      rw [hpc] at hp'
      cases hp'
  | success sync => rw [PC.not_private_of_not_open (reclaim_not_open ..)] at hp'; cases hp'
  | failureReadOnly exn => cases exn <;> cases hp'
  | failDone exn => cases exn <;> cases hp'
  | _ => first
    | exact keep (by simp only [*]; rfl) rfl rfl rfl rfl (by simp only [*]; rfl) rfl rfl
    | cases hp'

end Step

/-- **In every state reached the callbacks of a running attempt are right.** -/
theorem registered_reach {cfg : Config ι ν α} {ok : Request ν α → Prop} {s : Sys ι ν α}
    (h : Sys.Reach cfg ok s) (t : ι) (hp : (s.threads t).pc.isPrivate = true) :
    Registered cfg s t (s.threads t) := by
  revert t
  refine h.induct (P := fun s => ∀ t, (s.threads t).pc.isPrivate = true → Registered cfg s t (s.threads t))
    (fun t hp => by cases hp) ?_
  intro s t req sh' th' hr ih _ hm
  refine Sys.forall_after (P := fun u th => th.pc.isPrivate = true → Registered cfg (s.after t sh' th') u th)
    ?_ fun u hu hp => (ih u hp).step_ne (active_reach hr) hm.effect hu
  exact Registered.step (ih t) (books_reach hr t) (commits_reach hr) (active_reach hr) (typed_reach hr t) hm

/-! ## 3. At the end of the attempt -/

omit [DecidableEq ν] in
/-- Callbacks that destroy a storage for each entry. -/
theorem storages_eq_map {es : List (WriteSetValueType ν (VarStorage α))} {cbs : List (GpCallback ν α)}
    {f : WriteSetValueType ν (VarStorage α) → VarStorage α}
    (h : List.Forall₂ (fun cb e => cb.action = .destroyDeallocate (f e)) cbs es) :
    storages cbs = es.map f := by
  induction h with
  | nil => rfl
  | cons hcb _ ih =>
      rw [storages, List.filterMap_cons, List.map_cons, ← ih]
      simp [GpCallback.destroys?, hcb, storages]

namespace Registered

variable {cfg : Config ι ν α} {s : Sys ι ν α} {t : ι}

omit [DecidableEq ι] in
/-- The fail callbacks destroy the pending objects. -/
theorem storages_fail (h : Registered cfg s t (s.threads t)) :
    storages (s.threads t).att.regFail = (heapEntries (s.threads t).registered).map (·.pendingWrite) := by
  rw [← storages_bySet h.plain.1]
  exact storages_eq_map h.fails

omit [DecidableEq ι] in
/-- **A thread that holds every lock of its write set: its success callbacks are those of the heap vars
    in it, and destroy the storages the latest commits installed there.** -/
theorem overwritten (h : Registered cfg s t (s.threads t)) (hl : Locks s) (hlk : Locked s (s.threads t))
    (hheld : (s.threads t).held = (s.threads t).entries) (hpub : (s.threads t).publishing = []) :
    List.Forall₂ (fun cb e => cb.forVar = some e.destVar ∧
        cb.action = .destroyDeallocate (latestStorage cfg s.shared.hist.commits e.destVar))
      (bySet (s.threads t).att.regSucc) (heapEntries (s.threads t).registered) := by
  have hsub : ∀ e ∈ heapEntries (s.threads t).registered, e ∈ (s.threads t).entries := by
    intro e he
    have hreg := List.mem_of_mem_filter he
    unfold Thread.registered at hreg
    split at hreg
    · exact List.dropLast_subset _ hreg
    · exact hreg
  refine List.forall₂_iff_zip.mpr ⟨h.succs.length_eq, fun {cb e} hz => ?_⟩
  obtain ⟨h1, st, h2, h3⟩ := (List.forall₂_iff_zip.mp h.succs).2 hz
  have hholds : (s.threads t).Holds e.destVar := ⟨e, hheld ▸ hsub e (List.of_mem_zip hz).2, rfl⟩
  have hle := hlk e.destVar hholds fun ⟨e', he', _⟩ => by
    rw [hpub] at he'
    cases he'
  have hst := h3 hle fun u hu hp => hu (hl.unique u t e.destVar hp.holds hholds)
  exact ⟨h1, hst ▸ h2⟩

omit [DecidableEq ι] in
theorem storages_succ (h : Registered cfg s t (s.threads t)) (hl : Locks s) (hlk : Locked s (s.threads t))
    (hheld : (s.threads t).held = (s.threads t).entries) (hpub : (s.threads t).publishing = []) :
    storages (s.threads t).att.regSucc = (heapEntries (s.threads t).registered).map
      fun e => latestStorage cfg s.shared.hist.commits e.destVar := by
  rw [← storages_bySet h.plain.2]
  exact storages_eq_map ((h.overwritten hl hlk hheld hpub).imp fun _ _ h => h.2)

end Registered

/-- A related partner on the other side. -/
theorem exists_of_mem_left {β γ : Type} {R : β → γ → Prop} {xs : List β} {ys : List γ}
    (h : List.Forall₂ R xs ys) {x : β} (hx : x ∈ xs) : ∃ y ∈ ys, R x y := by
  induction h with
  | nil => cases hx
  | cons hr _ ih =>
      rcases List.mem_cons.mp hx with rfl | hx
      · exact ⟨_, List.mem_cons_self, hr⟩
      · exact (ih hx).imp fun y hy => ⟨List.mem_cons_of_mem _ hy.1, hy.2⟩

/-- The storages the latest commits have installed are of their vars' kinds. -/
theorem fits_latestStorage {cfg : Config ι ν α} {ok : Request ν α → Prop} {s : Sys ι ν α}
    (h : Sys.Reach cfg ok s) (v : ν) : cfg.Fits v (latestStorage cfg s.shared.hist.commits v) := by
  have hcommits : ∀ c ∈ s.shared.hist.commits, ∀ w ∈ c.writes, cfg.Fits w.var w.storage := by
    refine h.induct (P := fun s => ∀ c ∈ s.shared.hist.commits, ∀ w ∈ c.writes, cfg.Fits w.var w.storage)
      (fun _ hc => absurd hc List.not_mem_nil) fun {s t req sh' th'} hr ih _ hm => ?_
    have new : ∀ {sh : Shared ι ν α} {version : Epoch} {point : Nat},
        ∀ w ∈ (commitRecord sh t (s.threads t) version point s.opened).writes, cfg.Fits w.var w.storage := by
      intro sh version point w hw
      obtain ⟨e, he, rfl⟩ := List.mem_map.mp hw
      exact (typed_reach hr t).typed e he
    show ∀ c ∈ sh'.hist.commits, _
    cases hm.effect with
    | quiet hs => rw [hs.commits]; exact ih
    | commitEmpty => exact List.forall_mem_cons.mpr ⟨new, ih⟩
    | bump => exact List.forall_mem_cons.mpr ⟨new, ih⟩
    | _ => exact ih
  cases hl : latest s.shared.hist.commits v with
  | none =>
      rw [latestStorage_of_none hl, Config.initStorage]
      unfold Config.Fits
      cases cfg.varType v with
      | heap => exact Or.inl ⟨rfl, _, rfl⟩
      | atomic => exact Or.inr ⟨rfl, _, rfl⟩
  | some cw =>
      obtain ⟨c, w⟩ := cw
      obtain ⟨hc, hput⟩ := WriteLog.mem_of_latest hl
      obtain ⟨hw, rfl⟩ := Commit.put_mem hput
      rw [latestStorage_of_some hl]
      exact hcommits c hc w hw

end LockfreeStm
