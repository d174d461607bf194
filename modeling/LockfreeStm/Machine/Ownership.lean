/-
  File:      LockfreeStm/Machine/Ownership.lean
  Subject:   CONSERVATION OF HEAP STORAGE: every object is at one place.

  The places are the vars (each with the object the latest commit installed there), the threads (with the
  objects they have to install or to destroy), and the graveyard. A thread answers for the pending objects
  of its running attempt; once the attempt has failed, for what its fail callbacks have still to destroy;
  once it has committed, for what its success callbacks have.

  * `Thread.left`, `Thread.garbage`, `ledger` -- what is where.
  * `GarbageStep`, `Move.garbage` -- a step allocates an object, destroys one, or commits: then the thread
    gives each var its pending object and takes the one it had.
  * `conserved_reach` -- in every state reached every allocated object is at exactly one place.
  * `storage_conserved` -- **the main result**.
-/
import LockfreeStm.Machine.Callbacks
import LockfreeStm.Library.Ledger

namespace LockfreeStm

variable {ι ν α : Type}

/-! ## 1. What is where -/

/-- The place where success callbacks run. -/
def PC.isRunning : PC ι ν α → Bool
  | .succCallbacks _ _ _ _ => true
  | _ => false

namespace Thread

/-- The chunks whose callbacks the thread has still to run. The working list of a committed transaction
    is the newest of them. -/
def left (th : Thread ι ν α) : List (Chunk (GpCallback ν α)) :=
  match th.pc with
  | .succCallbacks _ _ _ i =>
      match th.td.succCallbacks.chunks with
      | [] => []
      | ch :: rest => { ch with callbacks := ch.callbacks.drop i } :: rest
  | .publish _ syncEpoch | .txSuccess syncEpoch =>
      th.td.succCallbacks.chunks ++ [⟨syncEpoch, th.td.succCallbacks.working⟩]
  | _ => th.td.succCallbacks.chunks

/-- The fail callbacks the thread has still to run. -/
def failing (th : Thread ι ν α) : List (GpCallback ν α) :=
  match th.pc with
  | .failCallbacks _ left => th.td.failCallbacks.data.take left
  | _ => []

/-- The pending objects of an attempt that has not committed. -/
def pendingObjects (th : Thread ι ν α) : List (VarStorage α) :=
  if th.pc.isPrivate then (heapEntries th.entries).map (·.pendingWrite) else []

/-- The objects the thread answers for. -/
def garbage (th : Thread ι ν α) : List (VarStorage α) :=
  storages (th.left.flatMap (·.callbacks)) ++ storages th.failing ++ th.pendingObjects

/-- The callbacks in the queue. -/
def queued (th : Thread ι ν α) : List (GpCallback ν α) := th.td.succCallbacks.chunks.flatMap (·.callbacks)

theorem garbage_of_private {th : Thread ι ν α} (h : th.pc.isPrivate = true) :
    th.garbage = storages th.queued ++ (heapEntries th.entries).map (·.pendingWrite) := by
  unfold garbage left failing pendingObjects queued
  rw [if_pos h]
  cases hpc : th.pc <;> rw [hpc] at h <;> first | (cases h; done) | simp

/-- The places outside the attempts where a thread answers for the callbacks in its queue only. -/
theorem garbage_of_queued {th : Thread ι ν α}
    (h : th.pc.isOpen = false) (hf : th.pc.isFailing = false)
    (hs : th.pc.isRunning = false) : th.garbage = storages th.queued := by
  unfold garbage left failing pendingObjects queued
  cases hpc : th.pc <;> rw [hpc] at h hf hs <;>
    first
    | (cases h; done)
    | (cases hf; done)
    | (cases hs; done)
    | simp [PC.isPrivate, PC.isOpen]

theorem garbage_committed {th : Thread ι ν α} (h : th.pc.phase = .committed) :
    th.garbage = storages th.queued ++ storages th.td.succCallbacks.working := by
  unfold garbage left failing pendingObjects queued
  cases hpc : th.pc <;> rw [hpc] at h <;> first | (cases h; done) | simp [PC.isPrivate]

theorem garbage_failing {th : Thread ι ν α} {exn : Bool} {n : Nat} (h : th.pc = .failCallbacks exn n) :
    th.garbage = storages th.queued ++ storages (th.td.failCallbacks.data.take n) := by
  unfold garbage left failing pendingObjects queued
  simp [h, PC.isPrivate, PC.isOpen]

theorem garbage_running {th : Thread ι ν α} {mode : ReclaimMode} {e m : Epoch} {i : Nat}
    (h : th.pc = .succCallbacks mode e m i) {ch : Chunk (GpCallback ν α)}
    (hch : th.td.succCallbacks.chunks.head? = some ch) :
    th.garbage = storages (ch.callbacks.drop i) ++
      storages (th.td.succCallbacks.chunks.tail.flatMap (·.callbacks)) := by
  obtain ⟨rest, hq⟩ := List.head?_eq_some_iff.mp hch
  unfold garbage left failing pendingObjects
  simp [h, hq, PC.isPrivate, PC.isOpen]

/-- A thread that is about to run its first chunk answers for its queue. -/
theorem garbage_start {th : Thread ι ν α} {mode : ReclaimMode} {e m : Epoch}
    (h : th.pc = .succCallbacks mode e m 0) : th.garbage = storages th.queued := by
  unfold garbage left failing pendingObjects queued
  cases hq : th.td.succCallbacks.chunks <;> simp [h, PC.isPrivate, PC.isOpen]

end Thread

/-- The places an object can be at. -/
inductive Place (ι ν : Type) where
  | var (v : ν)
  | thread (t : ι)
  | destroyed
deriving DecidableEq

variable [DecidableEq ι] [DecidableEq ν]

/-- The objects at each place. -/
def ledger (cfg : Config ι ν α) (s : Sys ι ν α) : Place ι ν → List (VarStorage α)
  | .var v => if cfg.varType v = .heap then [latestStorage cfg s.shared.hist.commits v] else []
  | .thread t => (s.threads t).garbage
  | .destroyed => s.shared.hist.destroyed

/-- An object a heap var was constructed with, or one that has been allocated since. -/
def Allocated (cfg : Config ι ν α) (nextPtr : Ptr) (st : VarStorage α) : Prop :=
  ∃ p, st = .ptr p ∧ ((∃ v, cfg.varType v = .heap ∧ cfg.initPtr v = p) ∨ cfg.firstFree ≤ p ∧ p < nextPtr)

/-- Every allocated object is at exactly one place. -/
abbrev Conserved (cfg : Config ι ν α) (s : Sys ι ν α) : Prop :=
  Ledger.Conserved (ledger cfg s) (Allocated cfg s.shared.nextPtr)

/-! ## 2. What a step does -/

/-- What a step of thread `t` does to the objects. -/
inductive GarbageStep (cfg : Config ι ν α) (s : Sys ι ν α) (t : ι) (sh' : Shared ι ν α)
    (th' : Thread ι ν α) : Prop where
  | keep (hd : sh'.hist.destroyed = s.shared.hist.destroyed) (hn : sh'.nextPtr = s.shared.nextPtr)
      (hl : ∀ v, latestStorage cfg sh'.hist.commits v = latestStorage cfg s.shared.hist.commits v)
      (hg : th'.garbage = (s.threads t).garbage)
  | allocate (hd : sh'.hist.destroyed = s.shared.hist.destroyed)
      (hn : sh'.nextPtr = s.shared.nextPtr + 1) (hc : sh'.hist.commits = s.shared.hist.commits)
      (hg : th'.garbage = (s.threads t).garbage ++ [.ptr s.shared.nextPtr])
  | destroy (st : VarStorage α) (hd : sh'.hist.destroyed = st :: s.shared.hist.destroyed)
      (hn : sh'.nextPtr = s.shared.nextPtr) (hc : sh'.hist.commits = s.shared.hist.commits)
      (hg : (s.threads t).garbage.Perm (st :: th'.garbage))
  | commit (es : List (WriteSetValueType ν (VarStorage α))) (r : List (VarStorage α))
      (hd : sh'.hist.destroyed = s.shared.hist.destroyed) (hn : sh'.nextPtr = s.shared.nextPtr)
      (hnodup : (es.map (·.destVar)).Nodup) (hheap : ∀ e ∈ es, cfg.varType e.destVar = .heap)
      (hin : ∀ e ∈ es, latestStorage cfg sh'.hist.commits e.destVar = e.pendingWrite)
      (hout : ∀ v, cfg.varType v = .heap → v ∉ es.map (·.destVar) →
        latestStorage cfg sh'.hist.commits v = latestStorage cfg s.shared.hist.commits v)
      (hg : (s.threads t).garbage = r ++ es.map (·.pendingWrite))
      (hg' : th'.garbage = r ++ es.map fun e => latestStorage cfg s.shared.hist.commits e.destVar)

section Step

variable {cfg : Config ι ν α} {s : Sys ι ν α} {t : ι} {req : Option (Request ν α)}
  {sh' : Shared ι ν α} {th' : Thread ι ν α}

omit [DecidableEq ι] [DecidableEq ν] in
/-- The object the allocator hands out next. -/
theorem allocated_succ {n : Ptr} (hn : cfg.firstFree ≤ n) (st : VarStorage α) :
    Allocated cfg (n + 1) st ↔ Allocated cfg n st ∨ st = .ptr n := by
  constructor
  · rintro ⟨p, rfl, hv | ⟨hle, hlt⟩⟩
    · exact Or.inl ⟨p, rfl, Or.inl hv⟩
    · rcases Nat.lt_succ_iff_lt_or_eq.mp hlt with hlt | rfl
      · exact Or.inl ⟨p, rfl, Or.inr ⟨hle, hlt⟩⟩
      · exact Or.inr rfl
  · rintro (⟨p, rfl, hv | ⟨hle, hlt⟩⟩ | rfl)
    · exact ⟨p, rfl, Or.inl hv⟩
    · exact ⟨p, rfl, Or.inr ⟨hle, Nat.lt_succ_of_lt hlt⟩⟩
    · exact ⟨n, rfl, Or.inr ⟨hn, Nat.lt_succ_self n⟩⟩

omit [DecidableEq ι] [DecidableEq ν] in
theorem not_allocated {n : Ptr} (hn : cfg.firstFree ≤ n) : ¬ Allocated cfg n (.ptr n) := by
  rintro ⟨p, hp, ⟨v, _, hv⟩ | ⟨_, hlt⟩⟩ <;> cases hp
  · exact Nat.lt_irrefl _ ((hv ▸ cfg.initPtr_lt v).trans_le hn)
  · exact Nat.lt_irrefl _ hlt

/-- **A step keeps every object at one place.** -/
theorem Conserved.step (h : Conserved cfg s) (hfree : cfg.firstFree ≤ s.shared.nextPtr)
    (hg : GarbageStep cfg s t sh' th') : Conserved cfg (s.after t sh' th') := by
  have hthread : ∀ u, u ≠ t → ledger cfg (s.after t sh' th') (.thread u) = ledger cfg s (.thread u) :=
    fun u hu => by rw [ledger, ledger, Sys.threads_after_ne s hu]
  have hself : ledger cfg (s.after t sh' th') (.thread t) = th'.garbage := by
    rw [ledger, Sys.threads_after_self]
  have hvar : ∀ v, latestStorage cfg sh'.hist.commits v = latestStorage cfg s.shared.hist.commits v →
      ledger cfg (s.after t sh' th') (.var v) = ledger cfg s (.var v) := fun v hv => by
    rw [ledger, ledger, Sys.shared_after, Shared.commits_atTime, hv]
  cases hg with
  | keep hd hn hl hg =>
      rw [Conserved, Sys.shared_after, Shared.nextPtr_atTime, hn]
      refine h.congr fun a => .of_eq ?_
      cases a with
      | var v => exact hvar v (hl v)
      | thread u =>
          by_cases hu : u = t
          · rw [hu, hself, hg]
            rfl
          · exact hthread u hu
      | destroyed => exact hd
  | allocate hd hn hc hg =>
      refine h.fresh (a := .thread t) (x := .ptr s.shared.nextPtr) (not_allocated hfree) ?_
        (fun b hb => .of_eq ?_) fun st => ?_
      · rw [hself, hg]
        exact List.perm_append_singleton ..
      · cases b with
        | var v => exact hvar v (by rw [hc])
        | thread u => exact hthread u fun e => hb (e ▸ rfl)
        | destroyed => exact hd
      · rw [Sys.shared_after, Shared.nextPtr_atTime, hn]
        exact allocated_succ hfree st
  | destroy st hd hn hc hg =>
      rw [Conserved, Sys.shared_after, Shared.nextPtr_atTime, hn]
      refine h.move (a := .thread t) (b := .destroyed) (x := st) (fun h => by cases h) ?_ (.of_eq hd)
        fun a hat had => .of_eq ?_
      · rw [hself]
        exact hg
      · cases a with
        | var v => exact hvar v (by rw [hc])
        | thread u => exact hthread u fun e => hat (e ▸ rfl)
        | destroyed => exact absurd rfl had
  | commit es r hd hn hnodup hheap hin hout hg hg' =>
      rw [Conserved, Sys.shared_after, Shared.nextPtr_atTime, hn]
      let old := fun e : WriteSetValueType ν (VarStorage α) =>
        latestStorage cfg s.shared.hist.commits e.destVar
      have h1 : (es.map fun e => (Place.var (ι := ι) e.destVar, e.pendingWrite, old e)).map (·.1) =
          (es.map (·.destVar)).map .var := by rw [List.map_map, List.map_map]; rfl
      refine h.swaps (es.map fun e => (Place.var e.destVar, e.pendingWrite, old e)) (a := .thread t) (r := r)
        ?_ ?_ ?_ ?_ (fun w hw => ?_) fun a hat haw => ?_
      · rw [h1]
        exact hnodup.map fun v w e => by cases e; rfl
      · rw [h1]
        intro hmem
        obtain ⟨_, _, hmem⟩ := List.mem_map.mp hmem
        cases hmem
      · rw [List.map_map]
        exact (List.Perm.of_eq hg).trans List.perm_append_comm
      · rw [hself, List.map_map]
        exact (List.Perm.of_eq hg').trans List.perm_append_comm
      · obtain ⟨e, he, rfl⟩ := List.mem_map.mp hw
        refine ⟨if_pos (hheap e he), ?_⟩
        rw [ledger, if_pos (hheap e he), Sys.shared_after, Shared.commits_atTime, hin e he]
      · cases a with
        | var v =>
            by_cases hv : cfg.varType v = .heap
            · refine hvar v (hout v hv fun hm => haw ?_)
              rw [h1]
              exact List.mem_map_of_mem hm
            · rw [ledger, ledger, if_neg hv, if_neg hv]
        | thread u => exact hthread u fun e => hat (e ▸ rfl)
        | destroyed => exact hd

omit [DecidableEq ι] [DecidableEq ν] in
/-- An entry of an object is one of a heap var. -/
theorem heap_of_heapEntries {ws : PodHashSet ν (VarStorage α)} (ht : TypedSet cfg ws)
    {e : WriteSetValueType ν (VarStorage α)} :
    e ∈ heapEntries ws.entries ↔ e ∈ ws.entries ∧ cfg.varType e.destVar = .heap := by
  rw [heapEntries, List.mem_filter]
  refine and_congr_right fun he => ?_
  rcases ht.typed e he with ⟨hh, p, hp⟩ | ⟨ha, x, hx⟩
  · simp [hh, hp, VarStorage.isPtr]
  · simp [ha, hx, VarStorage.isPtr]

omit [DecidableEq ι] in
/-- The clock bump: every heap var gets its pending object, and the success callbacks what it had. -/
theorem garbage_bump (hb : Books (s.threads t)) (hreg : Registered cfg s t (s.threads t))
    (ht : TypedSet cfg (s.threads t).td.writeSet) (hl : Locks s) (hlk : Locked s (s.threads t))
    (hpc : (s.threads t).pc = .bumpClock) :
    GarbageStep cfg s t
      ({ s.shared with clock := s.shared.clock + bumpSize }.noteCommit
        (commitRecord { s.shared with clock := s.shared.clock + bumpSize } t (s.threads t)
          (s.shared.clock + bumpSize) (s.threads t).att.point s.opened))
      ((s.threads t).goto (.publish 0 s.shared.clock)) := by
  have hheld : (s.threads t).held = (s.threads t).entries := by rw [Thread.held, hpc]
  have hpub : (s.threads t).publishing = [] := by simp [Thread.publishing, hpc]
  have hnodup : ((s.threads t).entries.map (·.destVar)).Nodup := hheld ▸ hl.nodup t
  have hregd : (s.threads t).registered = (s.threads t).entries :=
    Thread.registered_eq (by rw [hpc]; rfl)
  obtain ⟨_, hw, _⟩ := hb.attempt (by rw [hpc]; rfl)
  have hsucc := hreg.storages_succ hl hlk hheld hpub
  rw [hregd] at hsucc
  refine .commit (heapEntries (s.threads t).entries) (storages (s.threads t).queued) rfl rfl
    (hnodup.sublist (List.filter_sublist.map _)) (fun e he => ((heap_of_heapEntries ht).mp he).2)
    (fun e he => ?_) (fun v hv hn => ?_) (Thread.garbage_of_private (by rw [hpc]; rfl)) ?_
  · have hm := ((heap_of_heapEntries ht).mp he).1
    obtain ⟨w, hput⟩ := commitRecord_put_of_mem { s.shared with clock := s.shared.clock + bumpSize } t
      (s.shared.clock + bumpSize) (s.threads t).att.point s.opened ⟨e, hm, rfl⟩
    obtain ⟨e', he', hev, hst⟩ := commitRecord_put hput
    obtain ⟨i, hi⟩ := List.mem_iff_getElem?.mp hm
    obtain ⟨j, hj⟩ := List.mem_iff_getElem?.mp he'
    obtain rfl := eq_of_destVar_eq hnodup hi hj hev.symm
    obtain rfl : e = e' := Option.some.inj (hi.symm.trans hj)
    exact (latestStorage_of_some (WriteLog.latest_cons_some hput)).trans hst
  · refine latestStorage_of_eq (WriteLog.latest_cons_none (WriteLog.not_writes.mp fun hw => hn ?_))
    obtain ⟨e, he, rfl⟩ := commitRecord_writes.mp hw
    exact List.mem_map_of_mem ((heap_of_heapEntries ht).mpr ⟨he, hv⟩)
  · rw [Thread.garbage_committed rfl, ← hsucc, ← hw]
    rfl

omit [DecidableEq ι] [DecidableEq ν] in
@[simp] theorem queued_goto (th : Thread ι ν α) (pc : PC ι ν α) : (th.goto pc).queued = th.queued := rfl

omit [DecidableEq ι] [DecidableEq ν] in
/-- Finalizing puts the working callbacks into the queue. -/
theorem queued_reclaim (th : Thread ι ν α) (e : Epoch) :
    storages (th.reclaim cfg e).queued = storages th.queued ++ storages th.td.succCallbacks.working := by
  have hq : (th.reclaim cfg e).td.succCallbacks.chunks =
      (th.td.succCallbacks.finalizeEpoch cfg.reclaimLimit e).1.chunks := by
    simp only [Thread.reclaim]
    split
    · split <;> rfl
    · rfl
  rw [Thread.queued, hq, EpochQueue.chunks_finalizeEpoch]
  cases hw : th.td.succCallbacks.working with
  | nil => simp [Thread.queued]
  | cons cb cbs => simp [Thread.queued]

omit [DecidableEq ι] [DecidableEq ν] in
theorem reclaim_not_running (th : Thread ι ν α) (e : Epoch) : (th.reclaim cfg e).pc.isRunning = false := by
  simp only [Thread.reclaim]
  split
  · split <;> rfl
  · rfl

omit [DecidableEq ι] [DecidableEq ν] in
theorem reclaim_not_failing (th : Thread ι ν α) (e : Epoch) : (th.reclaim cfg e).pc.isFailing = false := by
  simp only [Thread.reclaim]
  split
  · split <;> rfl
  · rfl

omit [DecidableEq ι] [DecidableEq ν] in
/-- Where the call goes after a failure: the queue is all the thread answers for. -/
theorem garbage_afterFailure (th : Thread ι ν α) (exn : Bool) :
    (afterFailure th exn).garbage = storages th.queued := by
  cases exn <;> exact Thread.garbage_of_queued rfl rfl rfl

omit [DecidableEq ι] in
/-- Running a callback destroys its storage, if it is not one of the user's. -/
theorem garbage_callback (cb : GpCallback ν α) {sh' : Shared ι ν α} (hsh : sh' = s.shared.runAction cb.action)
    (hg : (s.threads t).garbage.Perm (storages [cb] ++ th'.garbage))
    (hkeep : storages [cb] = [] → th'.garbage = (s.threads t).garbage) : GarbageStep cfg s t sh' th' := by
  subst hsh
  cases ha : cb.action with
  | destroyDeallocate st =>
      have hs : storages [cb] = [st] := by simp [storages, GpCallback.destroys?, ha]
      rw [hs] at hg
      exact .destroy st rfl rfl rfl hg
  | user id => exact .keep rfl rfl (fun _ => rfl) (hkeep (by simp [storages, GpCallback.destroys?, ha]))

omit [DecidableEq ι] in
/-- A step within the attempt that touches neither the objects nor the queue. -/
theorem garbage_within (hs : SameHeap s.shared sh') (hd : sh'.hist.destroyed = s.shared.hist.destroyed)
    (hp : (s.threads t).pc.isPrivate = true) (hp' : th'.pc.isPrivate = true)
    (hc : th'.td.succCallbacks.chunks = (s.threads t).td.succCallbacks.chunks)
    (he : heapEntries th'.td.writeSet.entries = heapEntries (s.threads t).td.writeSet.entries) :
    GarbageStep cfg s t sh' th' := by
  refine .keep hd hs.nextPtr (fun v => by rw [hs.commits]) ?_
  rw [Thread.garbage_of_private hp', Thread.garbage_of_private hp, Thread.queued, Thread.queued, hc]
  exact congrArg _ (congrArg _ he)

omit [DecidableEq ι] in
/-- A step of a thread that answers for its queue only. -/
theorem garbage_outside (h1 : (s.threads t).pc.isOpen = false) (h2 : (s.threads t).pc.isFailing = false)
    (h3 : (s.threads t).pc.isRunning = false) (hg : th'.garbage = storages (s.threads t).queued) :
    GarbageStep cfg s t s.shared th' :=
  .keep rfl rfl (fun _ => rfl) (hg.trans (Thread.garbage_of_queued h1 h2 h3).symm)

omit [DecidableEq ι] [DecidableEq ν] in
/-- A read_only call has an empty write set. -/
theorem garbage_readOnly (hb : Books (s.threads t)) (hp : (s.threads t).pc.isPrivate = true)
    (hk : (s.threads t).kind = .readOnly) : (s.threads t).garbage = storages (s.threads t).queued := by
  have he : (s.threads t).entries = [] := (hb.readOnly hk).2.1
  rw [Thread.garbage_of_private hp, he]
  exact List.append_nil _

/-- access_lock: the write set is empty. -/
theorem garbage_accessLock (hb : Books (s.threads t)) (hpc : (s.threads t).pc = .accessLock) :
    GarbageStep cfg s t (s.shared.storeActive t (s.threads t).version) ((s.threads t).goto .call) := by
  have he : (s.threads t).td.writeSet.entries = [] := (hb.sets (by rw [hpc]; rfl)).2.1
  refine .keep rfl rfl (fun _ => rfl) ?_
  rw [Thread.garbage_of_private rfl, @Thread.garbage_of_queued ι ν α (s.threads t) (by rw [hpc]; rfl)
    (by rw [hpc]; rfl) (by rw [hpc]; rfl)]
  show _ ++ (heapEntries (s.threads t).td.writeSet.entries).map _ = _
  rw [he]
  exact List.append_nil _

omit [DecidableEq ι] in
/-- The steps of the body that only move on. A read_only call that returns has committed. -/
theorem garbage_goto (hb : Books (s.threads t)) {pc' : PC ι ν α} (hin : (s.threads t).pc.inBody = true)
    (hout : pc'.isEntry = true ∨ (∃ exn, pc' = .txFailure exn) ∨ pc' = .tryCommit ∨
      pc' = .txSuccess 0 ∧ (s.threads t).kind = .readOnly) :
    GarbageStep cfg s t s.shared ((s.threads t).goto pc') := by
  have hp := PC.isPrivate_of_inBody hin
  rcases hout with h | ⟨_, rfl⟩ | rfl | ⟨rfl, hk⟩
  · exact garbage_within (.refl _) rfl hp (PC.isPrivate_of_inBody (PC.inBody_of_isEntry h)) rfl rfl
  · exact garbage_within (.refl _) rfl hp rfl rfl rfl
  · exact garbage_within (.refl _) rfl hp rfl rfl rfl
  · refine .keep rfl rfl (fun _ => rfl) ?_
    have hw : ((s.threads t).goto (.txSuccess 0)).td.succCallbacks.working = [] := (hb.readOnly hk).2.2.2
    rw [garbage_readOnly hb hp hk, Thread.garbage_committed rfl, hw]
    exact List.append_nil _

omit [DecidableEq ι] in
/-- A get. -/
theorem garbage_readReturns {path : ReadPath} {v : ν} {st : VarStorage α}
    (hpc : (s.threads t).pc = .readVersion path v st) :
    GarbageStep cfg s t (s.shared.noteRead t (s.threads t) v (st.load s.shared.cells))
      ((((s.threads t).pushRead path v).noteRead v (st.load s.shared.cells)).opReturns
        (some (st.load s.shared.cells))) := by
  refine garbage_within (Shared.sameHeap_noteRead ..) ?_ (by rw [hpc]; rfl) rfl ?_ ?_
  · unfold Shared.noteRead
    split <;> rfl
  · rw [td_opReturns, td_noteRead]
    unfold Thread.pushRead
    split <;> rfl
  · rw [td_opReturns, td_noteRead, writeSet_pushRead]

omit [DecidableEq ι] in
/-- A set that finds its var written for the first time makes an object: the fast path. -/
theorem garbage_allocFast {v : ν} {x : α} (hpc : (s.threads t).pc = .writeVersion v x) :
    GarbageStep cfg s t (s.shared.allocateConstruct x).1
      (((s.threads t).setWriteSet ((s.threads t).td.writeSet.uncheckedPushBack v (.ptr s.shared.nextPtr)
        (cfg.varHash v))).goto (.writeCurStorage v (.ptr s.shared.nextPtr))) := by
  refine .allocate rfl rfl rfl ?_
  rw [Thread.garbage_of_private rfl, @Thread.garbage_of_private ι ν α (s.threads t) (by rw [hpc]; rfl),
    List.append_assoc]
  refine congrArg _ ?_
  refine (congrArg (fun es => (heapEntries es).map _) (PodHashSet.entries_uncheckedPushBack ..)).trans ?_
  rw [heapEntries_append, List.map_append]
  rfl

omit [DecidableEq ι] in
/-- The same on the slow path, which registers its callbacks at once. -/
theorem garbage_allocSlow {v : ν} {x : α} {cur : VarStorage α}
    (hpc : (s.threads t).pc = .writeSlowVersion v x cur) :
    GarbageStep cfg s t (s.shared.allocateConstruct x).1
      (((((s.threads t).setWriteSet ((s.threads t).td.writeSet.pushBack v (.ptr s.shared.nextPtr)
        (cfg.baseHash v))).sometimeSynchronizedAfter ((s.threads t).destroyCallback v cur)).afterFail
          ((s.threads t).destroyCallback v (.ptr s.shared.nextPtr))).opReturns none) := by
  refine .allocate rfl rfl rfl ?_
  rw [Thread.garbage_of_private rfl, @Thread.garbage_of_private ι ν α (s.threads t) (by rw [hpc]; rfl),
    List.append_assoc]
  refine congr (congrArg _ (congrArg storages ?_)) ?_
  · exact congrArg (List.flatMap _) (EpochQueue.chunks_emplaceBack ..)
  · refine (congrArg (fun es => (heapEntries es).map _) (PodHashSet.entries_pushBack ..)).trans ?_
    rw [heapEntries_append, List.map_append]
    rfl

omit [DecidableEq ι] in
/-- A set of a pending object assigns to it. -/
theorem garbage_storePending {v : ν} {x : α} {pending : VarStorage α}
    (hpc : (s.threads t).pc = .writePendingVersion v x pending) :
    GarbageStep cfg s t (s.shared.storeObject pending x) ((s.threads t).opReturns none) := by
  refine .keep ?_ ?_ (fun v => ?_) ?_
  · cases pending <;> rfl
  · cases pending <;> rfl
  · rw [(Shared.sameVars_storeObject ..).commits]
  · rw [Thread.garbage_of_private rfl, @Thread.garbage_of_private ι ν α (s.threads t) (by rw [hpc]; rfl)]
    rfl

omit [DecidableEq ι] in
/-- The empty commit: no object is installed, no success callback has one. -/
theorem garbage_commitEmpty (hb : Books (s.threads t)) (hreg : Registered cfg s t (s.threads t))
    (hpc : (s.threads t).pc = .tryCommit) (he : (s.threads t).td.writeSet.entries = []) :
    GarbageStep cfg s t
      (s.shared.noteCommit (commitRecord s.shared t (s.threads t) 0 (s.threads t).att.start s.opened))
      ((s.threads t).goto (.txSuccess 0)) := by
  have hp : (s.threads t).pc.isPrivate = true := by rw [hpc]; rfl
  have he' : (s.threads t).entries = [] := he
  have hnil : bySet (s.threads t).att.regSucc = [] := by
    have h := hreg.succs
    rw [Thread.registered_eq (by rw [hpc]; rfl), he'] at h
    exact List.forall₂_nil_right_iff.mp h
  refine .keep rfl rfl (fun v => latestStorage_of_eq (WriteLog.latest_cons_none
    (Commit.put_of_empty (by simp [commitRecord, he]) v))) ?_
  rw [Thread.garbage_committed rfl, Thread.garbage_of_private hp, he']
  refine congrArg _ ?_
  show storages (s.threads t).td.succCallbacks.working = []
  rw [(hb.attempt (by rw [hpc]; rfl)).2.1, ← storages_bySet hreg.plain.2, hnil]
  rfl

/-- tx_success: the working callbacks go into the queue. A read_only call has none. -/
theorem garbage_success {sync : Epoch} (hpc : (s.threads t).pc = .txSuccess sync) :
    GarbageStep cfg s t ((s.shared.storeActive t offState).noteFinished t (s.threads t).att.number)
      ((((s.threads t).setTxState .none).clearReadWriteSets.clearFailCallbacks).reclaim cfg sync) := by
  refine .keep rfl rfl (fun _ => rfl) ?_
  rw [Thread.garbage_of_queued (reclaim_not_open ..) (reclaim_not_failing ..) (reclaim_not_running ..),
    queued_reclaim, @Thread.garbage_committed ι ν α (s.threads t) (by rw [hpc]; rfl)]
  rfl

theorem garbage_successReadOnly (hb : Books (s.threads t)) {sync : Epoch}
    (hpc : (s.threads t).pc = .txSuccess sync) (hk : (s.threads t).kind = .readOnly) :
    GarbageStep cfg s t (s.shared.storeActive t offState) (((s.threads t).setTxState .none).goto .idle) := by
  refine .keep rfl rfl (fun _ => rfl) ?_
  rw [Thread.garbage_of_queued rfl rfl rfl, @Thread.garbage_committed ι ν α (s.threads t) (by rw [hpc]; rfl),
    (hb.readOnly hk).2.2.2]
  exact (List.append_nil _).symm

/-- tx_failure: the fail callbacks have what the write set had. -/
theorem garbage_failure (hb : Books (s.threads t)) (hreg : Registered cfg s t (s.threads t)) {exn : Bool}
    (hpc : (s.threads t).pc = .txFailure exn) :
    GarbageStep cfg s t (s.shared.storeActive t offState)
      (((s.threads t).clearReadWriteSets.clearWorkingEpoch).goto
        (.failCallbacks exn (s.threads t).td.failCallbacks.data.length)) := by
  refine .keep rfl rfl (fun _ => rfl) ?_
  rw [Thread.garbage_failing rfl, Thread.garbage_of_private (by rw [hpc]; rfl)]
  refine congrArg _ ?_
  have hf := hreg.storages_fail
  rw [Thread.registered_eq (by rw [hpc]; rfl), ← (hb.attempt (by rw [hpc]; rfl)).1] at hf
  rw [← hf]
  exact congrArg storages List.take_length

omit [DecidableEq ι] in
/-- A fail callback runs: the last of those left. -/
theorem garbage_failCallback {exn : Bool} {left : Nat} {cb : GpCallback ν α}
    (hpc : (s.threads t).pc = .failCallbacks exn (left + 1))
    (hcb : (s.threads t).td.failCallbacks.data[left]? = some cb) :
    GarbageStep cfg s t (s.shared.runAction cb.action)
      (((s.threads t).runs cb).goto (.failCallbacks exn left)) := by
  have htake : (s.threads t).td.failCallbacks.data.take (left + 1) =
      (s.threads t).td.failCallbacks.data.take left ++ [cb] := by
    obtain ⟨hi, rfl⟩ := List.getElem?_eq_some_iff.mp hcb
    exact (List.take_concat_get' _ left hi).symm
  have hg := Thread.garbage_failing hpc
  rw [htake, storages_append, ← List.append_assoc] at hg
  have hg' : (((s.threads t).runs cb).goto (.failCallbacks exn left)).garbage =
      storages (s.threads t).queued ++ storages ((s.threads t).td.failCallbacks.data.take left) :=
    Thread.garbage_failing rfl
  refine garbage_callback cb rfl ?_ fun hnil => ?_
  · rw [hg, hg']
    exact List.perm_append_comm
  · rw [hg, hg', hnil, List.append_nil]

omit [DecidableEq ι] in
/-- A success callback runs: the next of the front chunk. -/
theorem garbage_succCallback {mode : ReclaimMode} {epoch minEpoch : Epoch} {i : Nat}
    {ch : Chunk (GpCallback ν α)} {cb : GpCallback ν α}
    (hpc : (s.threads t).pc = .succCallbacks mode epoch minEpoch i)
    (hch : (s.threads t).td.succCallbacks.chunks.head? = some ch) (hcb : ch.callbacks[i]? = some cb) :
    GarbageStep cfg s t (s.shared.runAction cb.action)
      (((s.threads t).runs cb).goto (.succCallbacks mode epoch minEpoch (i + 1))) := by
  have hdrop : ch.callbacks.drop i = cb :: ch.callbacks.drop (i + 1) := by
    obtain ⟨hi, rfl⟩ := List.getElem?_eq_some_iff.mp hcb
    exact List.drop_eq_getElem_cons hi
  have hg := Thread.garbage_running hpc hch
  have hg' : (((s.threads t).runs cb).goto (.succCallbacks mode epoch minEpoch (i + 1))).garbage =
      storages (ch.callbacks.drop (i + 1)) ++
        storages ((s.threads t).td.succCallbacks.chunks.tail.flatMap (·.callbacks)) :=
    Thread.garbage_running rfl hch
  have hcons : storages (cb :: ch.callbacks.drop (i + 1)) =
      storages [cb] ++ storages (ch.callbacks.drop (i + 1)) := storages_append [cb] _
  rw [hdrop, hcons, List.append_assoc] at hg
  refine garbage_callback cb rfl ?_ fun hnil => ?_
  · rw [hg, hg']
  · rw [hg, hg', hnil]
    rfl

omit [DecidableEq ι] in
/-- Past the last callback of the front chunk the thread answers for the chunks behind it. -/
theorem garbage_chunkDone {mode : ReclaimMode} {epoch minEpoch : Epoch} {i : Nat} {ch : Chunk (GpCallback ν α)}
    (hpc : (s.threads t).pc = .succCallbacks mode epoch minEpoch i)
    (hch : (s.threads t).td.succCallbacks.chunks.head? = some ch) (hcb : ch.callbacks[i]? = none)
    (hg : th'.garbage = storages ((s.threads t).td.succCallbacks.chunks.tail.flatMap (·.callbacks))) :
    GarbageStep cfg s t s.shared th' := by
  refine .keep rfl rfl (fun _ => rfl) ?_
  rw [Thread.garbage_running hpc hch, List.drop_eq_nil_of_le (List.getElem?_eq_none_iff.mp hcb), hg]
  rfl

/-- **Every move, classified by what it does to the objects.** -/
theorem Move.garbage (hb : Books (s.threads t))
    (hreg : (s.threads t).pc.isPrivate = true → Registered cfg s t (s.threads t))
    (ht : TypedSet cfg (s.threads t).td.writeSet) (hl : Locks s) (hlk : Locked s (s.threads t))
    (hop : OpAt cfg (s.threads t) (s.threads t).pc)
    (hm : Move cfg s.shared t (s.threads t) s.opened req sh' th') : GarbageStep cfg s t sh' th' := by
  cases hm with
  | reclaimNothing | waitMore => exact .keep rfl rfl (fun _ => rfl) rfl
  | enter k body hpc | reclaimAll ch hpc | getClock hpc | scanWait mode epoch result u nodes hpc
  | scanPass mode epoch result u nodes hpc | waitDone mode epoch result u nodes hpc =>
      exact garbage_outside (by rw [hpc]; rfl) (by rw [hpc]; rfl) (by rw [hpc]; rfl)
        (Thread.garbage_of_queued rfl rfl rfl)
  | scanned mode epoch result hpc =>
      exact garbage_outside (by rw [hpc]; rfl) (by rw [hpc]; rfl) (by rw [hpc]; rfl) (Thread.garbage_start rfl)
  | accessLock hpc => exact garbage_accessLock hb hpc
  | goto pc' hin hout => exact garbage_goto hb hin hout
  | registerSucc id hpc =>
      exact garbage_within (.refl _) rfl (by rw [hpc]; rfl) rfl (EpochQueue.chunks_emplaceBack ..) rfl
  | readReturns path v st hpc => exact garbage_readReturns hpc
  | allocFast v x hpc => exact garbage_allocFast hpc
  | curStorage v st hpc => exact garbage_within (.refl _) rfl (by rw [hpc]; rfl) rfl rfl rfl
  | allocSlow v x cur hpc => exact garbage_allocSlow hpc
  | storePending v x pending hpc => exact garbage_storePending hpc
  -- the entry of an atomic var has no object
  | atomicFast v st hpc =>
      rw [hpc] at hop
      obtain ⟨_, ⟨x, rfl, _⟩, _⟩ := hop
      exact garbage_within (.refl _) rfl (by rw [hpc]; rfl) rfl rfl
        (heapEntries_concat_raw (PodHashSet.entries_uncheckedPushBack ..))
  | atomicPush v st hpc =>
      obtain ⟨⟨x, rfl⟩, _⟩ := atomic_fits hop hpc
      exact garbage_within (.refl _) rfl (by rcases hpc with ⟨hpc, _⟩ | hpc <;> rw [hpc] <;> rfl) rfl rfl
        (heapEntries_concat_raw (PodHashSet.entries_pushBack ..))
  | atomicOverwrite v st i hpc hl =>
      obtain ⟨⟨x, rfl⟩, hat⟩ := atomic_fits hop hpc
      exact garbage_within (.refl _) rfl (by rcases hpc with ⟨hpc, _⟩ | hpc <;> rw [hpc] <;> rfl) rfl rfl
        (heapEntries_setPending ht (PodHashSet.lookup_pendingWrite hl) hat)
  | commitEmpty hpc he => exact garbage_commitEmpty hb (hreg (by rw [hpc]; rfl)) hpc he
  | startCommit hpc => exact garbage_within (.refl _) rfl (by rw [hpc]; rfl) rfl rfl rfl
  | lockInvalid i hi hpc =>
      exact garbage_within (.refl _) rfl (by rcases hpc with hpc | ⟨_, hpc⟩ <;> rw [hpc] <;> rfl) rfl rfl rfl
  | bump hpc => exact garbage_bump hb (hreg (by rw [hpc]; rfl)) ht hl hlk hpc
  | publish i sync e hpc | published i sync hpc =>
      refine .keep rfl rfl (fun _ => rfl) ?_
      rw [Thread.garbage_committed rfl, @Thread.garbage_committed ι ν α (s.threads t) (by rw [hpc]; rfl)]
      rfl
  | successReadOnly sync hpc hk => exact garbage_successReadOnly hb hpc hk
  | success sync hpc => exact garbage_success hpc
  | failureReadOnly exn hpc hk =>
      refine .keep rfl rfl (fun _ => rfl) ?_
      rw [garbage_afterFailure, garbage_readOnly hb (by rw [hpc]; rfl) hk]
  | failure exn hpc => exact garbage_failure hb (hreg (by rw [hpc]; rfl)) hpc
  | failCallback exn left cb hpc hcb => exact garbage_failCallback hpc hcb
  | failDone exn hpc =>
      refine .keep rfl rfl (fun _ => rfl) ?_
      rw [garbage_afterFailure, Thread.garbage_failing hpc]
      exact (List.append_nil _).symm
  | succCallback mode epoch minEpoch i ch cb hpc hch hcb => exact garbage_succCallback hpc hch hcb
  | succNext mode epoch minEpoch i ch hpc hch hcb =>
      exact garbage_chunkDone hpc hch hcb (Thread.garbage_start rfl)
  | succDone mode epoch minEpoch i ch hpc hch hcb =>
      exact garbage_chunkDone hpc hch hcb (Thread.garbage_of_queued rfl rfl rfl)
  | _ => exact garbage_within ⟨rfl, rfl, rfl⟩ rfl (by simp only [*]; rfl) rfl rfl rfl

end Step

omit [DecidableEq ι] in
theorem conserved_init (cfg : Config ι ν α) : Conserved cfg (.init cfg) := by
  have hvar : ∀ v st, st ∈ ledger cfg (.init cfg) (.var v) ↔ cfg.varType v = .heap ∧ st = .ptr (cfg.initPtr v) := by
    intro v st
    have hl : latestStorage cfg (Sys.init cfg).shared.hist.commits v = cfg.initStorage v := rfl
    rw [ledger, hl, Config.initStorage]
    cases cfg.varType v <;> simp
  have hthread : ∀ t, ledger cfg (.init cfg) (.thread t) = [] := fun _ => rfl
  refine ⟨fun a => ?_, fun a b st ha hb => ?_, fun st => ⟨?_, ?_⟩⟩
  · cases a with
    | var v =>
        rw [ledger]
        split
        · exact List.nodup_singleton _
        · exact List.nodup_nil
    | thread t => exact List.nodup_nil
    | destroyed => exact List.nodup_nil
  · cases a with
    | var v =>
        obtain ⟨_, rfl⟩ := (hvar v st).mp ha
        cases b with
        | var w =>
            obtain ⟨_, hw⟩ := (hvar w _).mp hb
            cases cfg.initPtr_inj v w (VarStorage.ptr.inj hw)
            rfl
        | thread t => cases hb
        | destroyed => cases hb
    | thread t => cases ha
    | destroyed => cases ha
  · rintro ⟨p, rfl, ⟨v, hv, rfl⟩ | ⟨hle, hlt⟩⟩
    · exact ⟨.var v, (hvar v _).mpr ⟨hv, rfl⟩⟩
    · exact absurd hlt (Nat.not_lt_of_le hle)
  · rintro ⟨a, ha⟩
    cases a with
    | var v =>
        obtain ⟨hv, rfl⟩ := (hvar v st).mp ha
        exact ⟨_, rfl, Or.inl ⟨v, hv, rfl⟩⟩
    | thread t => cases ha
    | destroyed => cases ha

/-- A step in a state reached, classified by what it does to the objects. -/
theorem Sys.Reach.garbageStep {cfg : Config ι ν α} {ok : Request ν α → Prop} {s : Sys ι ν α}
    (h : Sys.Reach cfg ok s) {t : ι} {req : Option (Request ν α)} {sh' : Shared ι ν α} {th' : Thread ι ν α}
    (hm : Move cfg s.shared t (s.threads t) s.opened req sh' th') : GarbageStep cfg s t sh' th' :=
  hm.garbage (books_reach h t) (registered_reach h t) (typed_reach h t) (locks_reach h) (locked_reach h t)
    ((active_reach h).opAt t)

/-- **In every state reached every allocated object is at exactly one place.** -/
theorem conserved_reach {cfg : Config ι ν α} {ok : Request ν α → Prop} {s : Sys ι ν α}
    (h : Sys.Reach cfg ok s) : Conserved cfg s :=
  h.induct (P := Conserved cfg) (conserved_init cfg) fun hr ih _ hm =>
    ih.step (heap_reach hr).free (hr.garbageStep hm)

/-! ## 3. The result -/

section Result

variable {cfg : Config ι ν α} {ok : Request ν α → Prop} {s : Sys ι ν α}

/-- What a var holds is what the latest commit installed, or the pending object of a thread that has not
    bumped the clock. -/
theorem loadStorage_cases (h : Sys.Reach cfg ok s) (v : ν) :
    s.shared.loadStorage v = latestStorage cfg s.shared.hist.commits v ∨
      ∃ t, ∃ e ∈ (s.threads t).entries, (s.threads t).pc.isPrivate = true ∧ e.destVar = v ∧
        s.shared.loadStorage v = e.pendingWrite := by
  by_cases hn : ∀ u, ¬ (s.threads u).PreStored v
  · exact Or.inl (((commits_reach h).var v).storage hn)
  · obtain ⟨t, ht⟩ := not_forall.mp hn
    obtain ⟨e, he, hev⟩ := not_not.mp ht
    have hst := ((commits_reach h).var v).preStored t e he hev
    refine Or.inr ⟨t, e, ?_, ?_, hev, hst⟩
    all_goals
      unfold Thread.preStored at he
      split at he
    · exact List.mem_of_mem_take he
    · exact he
    · cases he
    · rename_i hpc
      rw [hpc]
      rfl
    · rename_i hpc
      rw [hpc]
      rfl
    · cases he

/-- **What a var holds is an object no place but the var and a thread that has stored it answers for.** -/
theorem loadStorage_place (h : Sys.Reach cfg ok s) {v : ν} {p : Ptr} (hv : s.shared.loadStorage v = .ptr p) :
    VarStorage.ptr p ∈ ledger cfg s (.var v) ∨
      ∃ t, (s.threads t).pc.isPrivate = true ∧ VarStorage.ptr p ∈ (s.threads t).pendingObjects := by
  rcases loadStorage_cases h v with e | ⟨t, e, he, hp, rfl, hst⟩
  · refine Or.inl ?_
    rcases fits_latestStorage h v with ⟨hh, _⟩ | ⟨_, x, hx⟩
    · rw [ledger, if_pos hh, ← e, hv]
      exact List.mem_cons_self
    · rw [← e, hv] at hx
      cases hx
  · refine Or.inr ⟨t, hp, ?_⟩
    rw [Thread.pendingObjects, if_pos hp, ← hv, hst]
    refine List.mem_map_of_mem (List.mem_filter.mpr ⟨he, ?_⟩)
    rw [← hst, hv]
    rfl

/-- A thread's pending objects are none its callbacks destroy. -/
theorem pendingObjects_not_left (h : Sys.Reach cfg ok s) {t u : ι} {st : VarStorage α}
    (hp : st ∈ (s.threads t).pendingObjects) (hl : st ∈ storages ((s.threads u).left.flatMap (·.callbacks))) :
    False := by
  have hc := conserved_reach h
  have hpt : st ∈ ledger cfg s (.thread t) := List.mem_append_right _ hp
  have hlu : st ∈ ledger cfg s (.thread u) := List.mem_append_left _ (List.mem_append_left _ hl)
  cases hc.unique _ _ _ hpt hlu
  exact (List.nodup_append.mp (hc.nodup (.thread t))).2.2 st (List.mem_append_left _ hl) st hp rfl

/-- **What a var holds is none a success callback of a committed transaction destroys.** -/
theorem loadStorage_not_left (h : Sys.Reach cfg ok s) (v : ν) (u : ι) :
    s.shared.loadStorage v ∉ storages ((s.threads u).left.flatMap (·.callbacks)) := by
  intro hl
  have hlu : s.shared.loadStorage v ∈ ledger cfg s (.thread u) :=
    List.mem_append_left _ (List.mem_append_left _ hl)
  obtain ⟨p, hp, _⟩ := ((conserved_reach h).complete _).mpr ⟨_, hlu⟩
  rcases loadStorage_place h hp with hv | ⟨t, _, ht⟩
  · cases (conserved_reach h).unique _ _ _ hv (hp ▸ hlu)
  · exact pendingObjects_not_left h ht (hp ▸ hl)

/-- What a var holds has not been destroyed. -/
theorem loadStorage_not_destroyed (h : Sys.Reach cfg ok s) (v : ν) :
    s.shared.loadStorage v ∉ s.shared.hist.destroyed := by
  intro hd
  have hdl : s.shared.loadStorage v ∈ ledger cfg s .destroyed := hd
  obtain ⟨p, hp, _⟩ := ((conserved_reach h).complete _).mpr ⟨_, hdl⟩
  rw [hp] at hdl
  rcases loadStorage_place h hp with hv | ⟨t, _, ht⟩
  · cases (conserved_reach h).unique _ _ _ hv hdl
  · have htl : VarStorage.ptr p ∈ ledger cfg s (.thread t) := List.mem_append_right _ ht
    cases (conserved_reach h).unique _ _ _ htl hdl

/-- The storage a commit is about to overwrite is the one the success callback of its var captures. -/
theorem captured_overwritten (h : Sys.Reach cfg ok s) {t : ι} {i : Nat}
    {e : WriteSetValueType ν (VarStorage α)} (hpc : (s.threads t).pc = .doWrites i)
    (he : (s.threads t).td.writeSet.entries[i]? = some e) (hh : cfg.varType e.destVar = .heap) :
    (∃ cb ∈ (s.threads t).td.succCallbacks.working, cb.forVar = some e.destVar) ∧
      ∀ cb ∈ (s.threads t).td.succCallbacks.working, cb.forVar = some e.destVar →
        cb.action = .destroyDeallocate (s.shared.loadStorage e.destVar) := by
  have hp : (s.threads t).pc.isPrivate = true := by rw [hpc]; rfl
  have hheld : (s.threads t).held = (s.threads t).entries := by rw [Thread.held, hpc]
  have hnodup : ((s.threads t).entries.map (·.destVar)).Nodup := hheld ▸ (locks_reach h).nodup t
  have hholds : (s.threads t).Holds e.destVar := ⟨e, hheld ▸ List.mem_of_getElem? he, rfl⟩
  have hload : s.shared.loadStorage e.destVar = latestStorage cfg s.shared.hist.commits e.destVar := by
    refine ((commits_reach h).var e.destVar).storage fun u hu => ?_
    by_cases hut : u = t
    · -- the entries before `i` are of other vars
      subst hut
      obtain ⟨e', he', hev⟩ := hu
      rw [Thread.preStored, hpc] at he'
      obtain ⟨j, hj⟩ := List.mem_iff_getElem?.mp he'
      rw [List.getElem?_take] at hj
      split at hj
      · have hij := eq_of_destVar_eq hnodup hj he hev
        omega
      · cases hj
    · exact hut ((locks_reach h).unique u t _ hu.holds hholds)
  have hov := (registered_reach h t hp).overwritten (locks_reach h) (locked_reach h t) hheld
    (by simp [Thread.publishing, hpc])
  rw [Thread.registered_eq (by rw [hpc]; rfl)] at hov
  rw [((books_reach h t).attempt (by rw [hpc]; rfl)).2.1, hload]
  constructor
  · have hmem : e ∈ heapEntries (s.threads t).entries :=
      (heap_of_heapEntries (typed_reach h t)).mpr ⟨List.mem_of_getElem? he, hh⟩
    obtain ⟨cb, hcb, hv, _⟩ := exists_of_mem_left hov.flip hmem
    exact ⟨cb, List.mem_of_mem_filter hcb, hv⟩
  · intro cb hcb hv
    have hmem : cb ∈ bySet (s.threads t).att.regSucc := List.mem_filter.mpr ⟨hcb, by rw [hv]; rfl⟩
    obtain ⟨e', _, hv', ha⟩ := exists_of_mem_left hov hmem
    rw [hv] at hv'
    rw [Option.some.inj hv']
    exact ha

/-- The success callback at position `x.2` of the queue of thread `x.1` destroys the storage. -/
def Captured (s : Sys ι ν α) (st : VarStorage α) (x : ι × Nat) : Prop :=
  ∃ cb, (s.threads x.1).queued[x.2]? = some cb ∧ cb.action = .destroyDeallocate st

omit [DecidableEq ι] [DecidableEq ν] in
theorem Captured.mem {st : VarStorage α} {x : ι × Nat} (h : Captured s st x) :
    st ∈ storages (s.threads x.1).queued := by
  obtain ⟨cb, hcb, ha⟩ := h
  exact mem_storages.mpr ⟨cb, List.mem_of_getElem? hcb, ha⟩

omit [DecidableEq ν] in
/-- In a list of callbacks that destroys nothing twice a storage has one position. -/
theorem position_unique {cbs : List (GpCallback ν α)} (hn : (storages cbs).Nodup) {i j : Nat}
    {cb cb' : GpCallback ν α} {st : VarStorage α} (hi : cbs[i]? = some cb) (hj : cbs[j]? = some cb')
    (ha : cb.action = .destroyDeallocate st) (ha' : cb'.action = .destroyDeallocate st) : i = j := by
  have hd : ∀ {cb : GpCallback ν α}, cb.action = .destroyDeallocate st → cb.destroys? = some st :=
    fun ha => by rw [GpCallback.destroys?, ha]
  have hp := List.pairwise_iff_getElem.mp (List.pairwise_filterMap.mp hn)
  obtain ⟨hli, rfl⟩ := List.getElem?_eq_some_iff.mp hi
  obtain ⟨hlj, rfl⟩ := List.getElem?_eq_some_iff.mp hj
  rcases Nat.lt_trichotomy i j with hij | hij | hij
  · exact absurd rfl (hp i j hli hlj hij st (hd ha) st (hd ha'))
  · exact hij
  · exact absurd rfl (hp j i hlj hli hij st (hd ha') st (hd ha))

/-- **Conservation of heap storage.** No storage is destroyed twice, none that a var holds has been
    destroyed, and the storage a commit overwrites is the one the success callback of the var captures.
    When all threads are idle, an allocated object that has not been destroyed is held by exactly one
    var and captured by no success callback that has not run, or captured by exactly one of these and
    held by no var. -/
theorem storage_conserved (h : Sys.Reach cfg ok s) :
    s.shared.hist.destroyed.Nodup ∧
    (∀ v, s.shared.loadStorage v ∉ s.shared.hist.destroyed) ∧
    (∀ t i e, (s.threads t).pc = .doWrites i → (s.threads t).td.writeSet.entries[i]? = some e →
      cfg.varType e.destVar = .heap →
      (∃ cb ∈ (s.threads t).td.succCallbacks.working, cb.forVar = some e.destVar) ∧
      ∀ cb ∈ (s.threads t).td.succCallbacks.working, cb.forVar = some e.destVar →
        cb.action = .destroyDeallocate (s.shared.loadStorage e.destVar)) ∧
    ((∀ t, (s.threads t).pc = .idle) → ∀ st, Allocated cfg s.shared.nextPtr st →
      st ∉ s.shared.hist.destroyed →
      ((∃! v, s.shared.loadStorage v = st) ∧ ∀ x, ¬ Captured s st x) ∨
        ((∃! x, Captured s st x) ∧ ∀ v, s.shared.loadStorage v ≠ st)) := by
  have hc := conserved_reach h
  refine ⟨hc.nodup .destroyed, loadStorage_not_destroyed h, fun t i e => captured_overwritten h, ?_⟩
  intro hidle st hal hnd
  have hgarbage : ∀ t, (s.threads t).garbage = storages (s.threads t).queued := fun t =>
    Thread.garbage_of_queued (by rw [hidle]; rfl) (by rw [hidle]; rfl) (by rw [hidle]; rfl)
  have hcap : ∀ x, Captured s st x → st ∈ ledger cfg s (.thread x.1) := fun x hx => by
    rw [ledger, hgarbage]
    exact hx.mem
  obtain ⟨p, rfl, _⟩ := id hal
  have hload : ∀ v, s.shared.loadStorage v = .ptr p → VarStorage.ptr p ∈ ledger cfg s (.var v) := by
    intro v hv
    refine (loadStorage_place h hv).resolve_right ?_
    rintro ⟨t, hp, _⟩
    rw [hidle] at hp
    cases hp
  obtain ⟨a, ha⟩ := (hc.complete _).mp hal
  cases a with
  | var v =>
      refine Or.inl ⟨⟨v, ?_, fun w hw => ?_⟩, fun x hx => ?_⟩
      · have hv := ha
        rw [ledger] at hv
        split at hv
        · rw [List.mem_singleton.mp hv]
          refine ((commits_reach h).var v).storage fun u hu => ?_
          obtain ⟨e, he, _⟩ := hu
          rw [Thread.preStored, hidle] at he
          cases he
        · cases hv
      · cases hc.unique _ _ _ (hload w hw) ha
        rfl
      · cases hc.unique _ _ _ (hcap x hx) ha
  | thread t =>
      have hq := ha
      rw [ledger, hgarbage] at hq
      obtain ⟨cb, hcb, hact⟩ := mem_storages.mp hq
      obtain ⟨i, hi⟩ := List.mem_iff_getElem?.mp hcb
      refine Or.inr ⟨⟨(t, i), ⟨cb, hi, hact⟩, ?_⟩, fun v hv => ?_⟩
      · rintro ⟨u, j⟩ hx
        cases hc.unique _ _ _ (hcap _ hx) ha
        obtain ⟨cb', hj, hact'⟩ := hx
        have hn := hc.nodup (.thread u)
        rw [ledger, hgarbage] at hn
        rw [position_unique hn hi hj hact hact']
      · cases hc.unique _ _ _ (hload v hv) ha
  | destroyed => exact absurd ha hnd

end Result

/-- The set of the first thread has left the initial storage of the var to its success callback. -/
theorem storage_conserved_setThenGet :
    let s := (Sys.run smallConfig setThenGet (.init smallConfig)).get setThenGet_isSome
    ((s.threads false).queued.map (·.action) = [.destroyDeallocate (.ptr 1)] ∧
      s.shared.loadStorage true = .ptr 2) ∧
    s.shared.hist.destroyed.Nodup ∧
    (∀ v, s.shared.loadStorage v ∉ s.shared.hist.destroyed) ∧
    (∀ t i e, (s.threads t).pc = .doWrites i → (s.threads t).td.writeSet.entries[i]? = some e →
      smallConfig.varType e.destVar = .heap →
      (∃ cb ∈ (s.threads t).td.succCallbacks.working, cb.forVar = some e.destVar) ∧
      ∀ cb ∈ (s.threads t).td.succCallbacks.working, cb.forVar = some e.destVar →
        cb.action = .destroyDeallocate (s.shared.loadStorage e.destVar)) ∧
    ((∀ t, (s.threads t).pc = .idle) → ∀ st, Allocated smallConfig s.shared.nextPtr st →
      st ∉ s.shared.hist.destroyed →
      ((∃! v, s.shared.loadStorage v = st) ∧ ∀ x, ¬ Captured s st x) ∨
        ((∃! x, Captured s st x) ∧ ∀ v, s.shared.loadStorage v ≠ st)) := by
  have hr : Sys.Reach smallConfig (fun _ => True)
      ((Sys.run smallConfig setThenGet (.init smallConfig)).get setThenGet_isSome) :=
    .of_run (fun _ _ _ _ => trivial) (Option.some_get setThenGet_isSome).symm
  exact ⟨by decide, storage_conserved hr⟩

end LockfreeStm
