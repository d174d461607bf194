/-
  File:      LockfreeStm/Machine/Heap.lean
  Subject:   THE HEAP: a pending object belongs to one thread, a committed object never changes.

  * `Thread.Owns` -- the object is a pending write of a thread that has not committed it.
  * `Heap`, `heap_reach` -- in every state reached an object has at most one owner, and the objects
    of committed writes and the initial objects have none; they hold what they held when they were
    installed. `set` writes through a pending storage in place, so this is what keeps a value that
    a reader has found from changing under it.
-/
import LockfreeStm.Machine.Attempt

namespace LockfreeStm

variable {ι ν α : Type}

/-- The places where the entries of the write set are still the attempt's own. -/
def PC.isPrivate : PC ι ν α → Bool
  | .publish _ _ | .txSuccess _ => false
  | pc => pc.isOpen

namespace Thread

/-- The pending storages of a thread that has not committed them. -/
def pending (th : Thread ι ν α) : List (VarStorage α) :=
  if th.pc.isPrivate then th.td.writeSet.entries.map (·.pendingWrite) else []

/-- The object is a pending write of the thread. -/
def Owns (th : Thread ι ν α) (p : Ptr) : Prop := .ptr p ∈ th.pending

theorem pending_of_private {th : Thread ι ν α} (h : th.pc.isPrivate = true) :
    th.pending = th.td.writeSet.entries.map (·.pendingWrite) := if_pos h

theorem not_owns {th : Thread ι ν α} (h : th.pc.isPrivate = false) (p : Ptr) : ¬ th.Owns p := by
  rw [Owns, pending, h]
  exact List.not_mem_nil

theorem not_owns_of_empty {th : Thread ι ν α} (h : th.td.writeSet.entries = []) (p : Ptr) :
    ¬ th.Owns p := by
  rw [Owns, pending, h]
  split <;> exact List.not_mem_nil

/-- Owning depends on the write set and on the place only. -/
theorem owns_congr {th th' : Thread ι ν α} (h : th.pc.isPrivate = true)
    (h' : th'.pc.isPrivate = true)
    (he : th'.td.writeSet.entries = th.td.writeSet.entries) {p : Ptr} (ho : th'.Owns p) :
    th.Owns p := by
  rw [Owns, pending_of_private h', he] at ho
  rwa [Owns, pending_of_private h]

end Thread

theorem PC.isPrivate_of_inBody {pc : PC ι ν α} (h : pc.inBody = true) : pc.isPrivate = true := by
  cases pc <;> first | rfl | cases h

theorem PC.not_private_of_not_open {pc : PC ι ν α} (h : pc.isOpen = false) :
    pc.isPrivate = false := by
  cases pc <;> first | rfl | cases h

/-- What the heap satisfies. -/
structure Heap (cfg : Config ι ν α) (s : Sys ι ν α) : Prop where
  free : cfg.firstFree ≤ s.shared.nextPtr
  owned : ∀ t p, (s.threads t).Owns p → cfg.firstFree ≤ p ∧ p < s.shared.nextPtr
  unique : ∀ t u p, (s.threads t).Owns p → (s.threads u).Owns p → t = u
  value : ∀ c ∈ s.shared.hist.commits, ∀ w ∈ c.writes, w.storage.load s.shared.cells = w.value
  committed : ∀ c ∈ s.shared.hist.commits, ∀ w ∈ c.writes, ∀ p, w.storage = .ptr p →
    cfg.firstFree ≤ p ∧ p < s.shared.nextPtr ∧ ∀ t, ¬ (s.threads t).Owns p
  initial : ∀ p < cfg.firstFree, s.shared.cells p = cfg.initCells p

/-! ## 1. What a step does to the heap -/

/-- The heap and the commits do not change. -/
structure SameHeap (sh sh' : Shared ι ν α) : Prop where
  cells : sh'.cells = sh.cells
  nextPtr : sh'.nextPtr = sh.nextPtr
  commits : sh'.hist.commits = sh.hist.commits

theorem SameHeap.refl (sh : Shared ι ν α) : SameHeap sh sh := ⟨rfl, rfl, rfl⟩

/-- What a step of a thread does to the heap, to the commits and to what the thread owns. -/
inductive HeapEffect (sh : Shared ι ν α) (th : Thread ι ν α) :
    Shared ι ν α → Thread ι ν α → Prop where
  | keep {sh' th'} (hs : SameHeap sh sh') (ho : ∀ p, th'.Owns p → th.Owns p) :
      HeapEffect sh th sh' th'
  | allocate {th'} (x : α) (ho : ∀ p, th'.Owns p → th.Owns p ∨ p = sh.nextPtr) :
      HeapEffect sh th (sh.allocateConstruct x).1 th'
  | assign {th'} (p : Ptr) (x : α) (hp : th.Owns p) (ho : ∀ q, th'.Owns q → th.Owns q) :
      HeapEffect sh th (sh.storeObject (.ptr p) x) th'
  | commit {sh' th'} (c : Commit ι ν α) (hc : sh'.cells = sh.cells)
      (hn : sh'.nextPtr = sh.nextPtr) (hh : sh'.hist.commits = c :: sh.hist.commits)
      (hw : ∀ w ∈ c.writes, w.storage ∈ th.pending ∧ w.storage.load sh.cells = w.value)
      (ho : ∀ p, ¬ th'.Owns p) : HeapEffect sh th sh' th'

variable [DecidableEq ι] [DecidableEq ν]

omit [DecidableEq ι] [DecidableEq ν] in
theorem Shared.sameHeap_runAction (sh : Shared ι ν α) (a : Action α) :
    SameHeap sh (sh.runAction a) := by
  cases a <;> exact ⟨rfl, rfl, rfl⟩

omit [DecidableEq ι] in
theorem Shared.sameHeap_noteRead (sh : Shared ι ν α) (t : ι) (th : Thread ι ν α) (v : ν) (x : α) :
    SameHeap sh (sh.noteRead t th v x) := by
  unfold noteRead
  split <;> exact ⟨rfl, rfl, rfl⟩

omit [DecidableEq ι] [DecidableEq ν] in
/-- The writes of a commit record are the entries of the write set. -/
theorem writes_commitRecord {sh : Shared ι ν α} {t : ι} {th : Thread ι ν α} {version : Epoch}
    {point : Nat} {opened : ι → Option Nat} (h : th.pc.isPrivate = true) :
    ∀ w ∈ (commitRecord sh t th version point opened).writes,
      w.storage ∈ th.pending ∧ w.storage.load sh.cells = w.value := by
  intro w hw
  obtain ⟨e, he, rfl⟩ := List.mem_map.mp hw
  rw [Thread.pending_of_private h]
  exact ⟨List.mem_map_of_mem he, rfl⟩

omit [DecidableEq ι] in
@[simp] theorem td_noteRead (th : Thread ι ν α) (v : ν) (x : α) : (th.noteRead v x).td = th.td := by
  unfold Thread.noteRead
  split <;> rfl

omit [DecidableEq ι] [DecidableEq ν] in
@[simp] theorem td_opReturns (th : Thread ι ν α) (r : Option α) : (th.opReturns r).td = th.td := rfl

omit [DecidableEq ι] [DecidableEq ν] in
@[simp] theorem writeSet_pushRead (th : Thread ι ν α) (path : ReadPath) (v : ν) :
    (th.pushRead path v).td.writeSet = th.td.writeSet := by
  unfold Thread.pushRead
  split <;> rfl

omit [DecidableEq ν] in
/-- Overwriting a pending raw storage makes a thread own nothing new. -/
theorem mem_pending_setPending {ws : PodHashSet ν (VarStorage α)} {i : Nat} {x : α} {p : Ptr}
    (h : .ptr p ∈ (ws.setPending i (.raw x)).entries.map (·.pendingWrite)) :
    .ptr p ∈ ws.entries.map (·.pendingWrite) := by
  obtain ⟨e, he, hp⟩ := List.mem_map.mp h
  rw [PodHashSet.entries_setPending] at he
  obtain ⟨j, hj⟩ := List.mem_iff_getElem?.mp he
  rw [List.getElem?_modify] at hj
  split at hj
  · cases hg : ws.entries[j]? with
    | none => rw [hg] at hj; cases hj
    | some e' => rw [hg] at hj; cases hj; cases hp
  · rw [Option.map_eq_map, Option.map_id_fun', id] at hj
    exact List.mem_map.mpr ⟨e, List.mem_of_getElem? hj, hp⟩

/-- **Every move, classified by what it does to the heap.** -/
theorem Move.heap {cfg : Config ι ν α} {sh sh' : Shared ι ν α} {t : ι} {th th' : Thread ι ν α}
    {opened : ι → Option Nat} {req : Option (Request ν α)}
    (h : Move cfg sh t th opened req sh' th') (hb : Books th) (hop : OpAt cfg th th.pc) :
    HeapEffect sh th sh' th' := by
  have out : ∀ {sh' : Shared ι ν α} {th' : Thread ι ν α}, SameHeap sh sh' →
      th'.pc.isPrivate = false → HeapEffect sh th sh' th' :=
    fun hs h => .keep hs fun p ho => absurd ho (Thread.not_owns h p)
  have same : ∀ {sh' : Shared ι ν α} {th' : Thread ι ν α}, SameHeap sh sh' →
      th.pc.isPrivate = true → th'.pc.isPrivate = true →
      th'.td.writeSet.entries = th.td.writeSet.entries → HeapEffect sh th sh' th' :=
    fun hs h h' he => .keep hs fun p => Thread.owns_congr h h' he
  cases h with
  | reclaimNothing | waitMore => exact .keep (.refl sh) fun _ => id
  | accessLock hpc =>
      have he : (th.goto .call).td.writeSet.entries = [] := (hb.sets (by rw [hpc]; rfl)).2.1
      exact .keep ⟨rfl, rfl, rfl⟩ fun p ho => absurd ho (Thread.not_owns_of_empty he p)
  | goto pc' hin hout =>
      rcases hout with h | ⟨_, rfl⟩ | rfl | ⟨rfl, _⟩
      · exact same (.refl sh) (PC.isPrivate_of_inBody hin) (PC.isPrivate_of_inBody (PC.inBody_of_isEntry h)) rfl
      · exact same (.refl sh) (PC.isPrivate_of_inBody hin) rfl rfl
      · exact same (.refl sh) (PC.isPrivate_of_inBody hin) rfl rfl
      · exact out (.refl sh) rfl
  | readReturns path v result hpc =>
      exact same (Shared.sameHeap_noteRead ..) (by rw [hpc]; rfl) rfl
        (by simp [Thread.opReturns])
  | allocFast v x hpc =>
      refine .allocate x fun p ho => ?_
      rw [Thread.Owns, Thread.pending_of_private rfl] at ho
      rw [Thread.Owns, Thread.pending_of_private (by rw [hpc]; rfl)]
      simpa [Thread.setWriteSet, Thread.goto] using ho
  | allocSlow v x cur hpc =>
      refine .allocate x fun p ho => ?_
      rw [Thread.Owns, Thread.pending_of_private rfl] at ho
      rw [Thread.Owns, Thread.pending_of_private (by rw [hpc]; rfl)]
      simpa [Thread.setWriteSet, Thread.opReturns, Thread.afterFail,
        Thread.sometimeSynchronizedAfter] using ho
  | storePending v x pending hpc =>
      have hpr : th.pc.isPrivate = true := by rw [hpc]; rfl
      have hpr' : (th.opReturns none).pc.isPrivate = true := rfl
      have ho : ∀ p, (th.opReturns none).Owns p → th.Owns p := fun p =>
        Thread.owns_congr hpr hpr' rfl
      rw [hpc] at hop
      obtain ⟨_, _, _, i, _, he⟩ := hop
      obtain ⟨e, hg, rfl⟩ := Option.map_eq_some_iff.mp he
      cases hp : e.pendingWrite with
      | raw y => exact .keep ⟨rfl, rfl, rfl⟩ ho
      | ptr p =>
          refine .assign p x ?_ ho
          rw [Thread.Owns, Thread.pending_of_private hpr, ← hp]
          exact List.mem_map_of_mem (List.mem_of_getElem? hg)
  | atomicFast v s hpc =>
      rw [hpc] at hop
      obtain ⟨_, ⟨x, rfl, _⟩, _⟩ := hop
      refine .keep (.refl sh) fun p ho => ?_
      rw [Thread.Owns, Thread.pending_of_private rfl] at ho
      rw [Thread.Owns, Thread.pending_of_private (by rw [hpc]; rfl)]
      simpa [Thread.setWriteSet, Thread.opReturns] using ho
  | atomicPush v s hpc =>
      have hs : (∃ x, s = .raw x) ∧ th.pc.isPrivate = true := by
        rcases hpc with ⟨hpc, _, ⟨x, rfl, _⟩, _⟩ | hpc
        · exact ⟨⟨x, rfl⟩, by rw [hpc]; rfl⟩
        · rw [hpc] at hop ⊢
          obtain ⟨_, ⟨x, rfl, _⟩, _⟩ := hop
          exact ⟨⟨x, rfl⟩, rfl⟩
      obtain ⟨⟨x, rfl⟩, hpr⟩ := hs
      refine .keep (.refl sh) fun p ho => ?_
      rw [Thread.Owns, Thread.pending_of_private rfl] at ho
      rw [Thread.Owns, Thread.pending_of_private hpr]
      simpa [Thread.setWriteSet, Thread.goto] using ho
  | atomicOverwrite v s i hpc =>
      have hs : (∃ x, s = .raw x) ∧ th.pc.isPrivate = true := by
        rcases hpc with ⟨hpc, _, ⟨x, rfl, _⟩, _⟩ | hpc
        · exact ⟨⟨x, rfl⟩, by rw [hpc]; rfl⟩
        · rw [hpc] at hop ⊢
          obtain ⟨_, ⟨x, rfl, _⟩, _⟩ := hop
          exact ⟨⟨x, rfl⟩, rfl⟩
      obtain ⟨⟨x, rfl⟩, hpr⟩ := hs
      refine .keep (.refl sh) fun p ho => ?_
      rw [Thread.Owns, Thread.pending_of_private rfl] at ho
      rw [Thread.Owns, Thread.pending_of_private hpr]
      exact mem_pending_setPending ho
  | commitEmpty hpc =>
      exact .commit (commitRecord sh t th 0 th.att.start opened) rfl rfl rfl
        (writes_commitRecord (by rw [hpc]; rfl)) fun p => Thread.not_owns rfl p
  | bump hpc hc =>
      exact .commit (commitRecord { sh with clock := sh.clock + bumpSize } t th
        (sh.clock + bumpSize) th.att.point opened) rfl rfl rfl
        (writes_commitRecord (by rw [hpc]; rfl)) fun p => Thread.not_owns rfl p
  | lockInvalid i hi hpc =>
      exact same (.refl sh) (by rcases hpc with hpc | ⟨_, hpc⟩ <;> rw [hpc] <;> rfl) rfl rfl
  | success sync hpc =>
      exact out ⟨rfl, rfl, rfl⟩ (PC.not_private_of_not_open (reclaim_not_open ..))
  | failureReadOnly exn hpc =>
      exact out ⟨rfl, rfl, rfl⟩ (PC.not_private_of_not_open (afterFailure_not_open ..))
  | failCallback exn left cb hpc => exact out (Shared.sameHeap_runAction ..) rfl
  | failDone exn hpc =>
      exact out (.refl sh) (PC.not_private_of_not_open (afterFailure_not_open ..))
  | succCallback mode epoch minEpoch i ch cb hpc => exact out (Shared.sameHeap_runAction ..) rfl
  | _ => first
    | exact out ⟨rfl, rfl, rfl⟩ rfl
    | exact same ⟨rfl, rfl, rfl⟩ (by simp only [*]; rfl) rfl rfl

/-! ## 2. The invariant -/

section Step

variable {cfg : Config ι ν α} {s : Sys ι ν α} {t : ι} {sh' : Shared ι ν α} {th' : Thread ι ν α}

/-- A storage's object is where it was if no address the storage names was written to. -/
theorem load_update_of_ne {cells : Ptr → α} {q : Ptr} {x : α} {st : VarStorage α}
    (h : st ≠ .ptr q) : st.load (Function.update cells q x) = st.load cells := by
  cases st with
  | raw y => rfl
  | ptr p => exact Function.update_of_ne (fun hpq => h (congrArg VarStorage.ptr hpq)) ..

omit [DecidableEq ν] in
/-- The owners after a step that gives thread `t` nothing new. -/
theorem Heap.owns_after (ho : ∀ p, th'.Owns p → (s.threads t).Owns p) (u : ι) (p : Ptr)
    (hu : ((s.after t sh' th').threads u).Owns p) : (s.threads u).Owns p :=
  Sys.forall_after (P := fun u th => th.Owns p → (s.threads u).Owns p) (ho p) (fun _ _ => id) u hu

omit [DecidableEq ν] in
/-- A step that leaves the heap alone. -/
theorem Heap.keep (h : Heap cfg s) (hs : SameHeap s.shared sh')
    (ho : ∀ p, th'.Owns p → (s.threads t).Owns p) : Heap cfg (s.after t sh' th') where
  free := hs.nextPtr ▸ h.free
  owned u p hu := by
    rw [Sys.shared_after, Shared.nextPtr_atTime, hs.nextPtr]
    exact h.owned u p (Heap.owns_after ho u p hu)
  unique u w p hu hw := h.unique u w p (Heap.owns_after ho u p hu) (Heap.owns_after ho w p hw)
  value c hc w hw := by
    rw [Sys.shared_after, Shared.commits_atTime, hs.commits] at hc
    rw [Sys.shared_after, Shared.cells_atTime, hs.cells]
    exact h.value c hc w hw
  committed c hc w hw p hp := by
    rw [Sys.shared_after, Shared.commits_atTime, hs.commits] at hc
    rw [Sys.shared_after, Shared.nextPtr_atTime, hs.nextPtr]
    obtain ⟨h1, h2, h3⟩ := h.committed c hc w hw p hp
    exact ⟨h1, h2, fun u hu => h3 u (Heap.owns_after ho u p hu)⟩
  initial p hp := by
    rw [Sys.shared_after, Shared.cells_atTime, hs.cells]
    exact h.initial p hp

omit [DecidableEq ν] in
/-- An allocation: the object is new to everyone. -/
theorem Heap.allocate (h : Heap cfg s) (x : α)
    (ho : ∀ p, th'.Owns p → (s.threads t).Owns p ∨ p = s.shared.nextPtr) :
    Heap cfg (s.after t (s.shared.allocateConstruct x).1 th') := by
  -- an owner of an old object is an old owner, an owner of the new one is `t`
  have hown : ∀ u p, ((s.after t (s.shared.allocateConstruct x).1 th').threads u).Owns p →
      (s.threads u).Owns p ∨ u = t ∧ p = s.shared.nextPtr := by
    intro u p
    refine Sys.forall_after
      (P := fun u th => th.Owns p → (s.threads u).Owns p ∨ u = t ∧ p = s.shared.nextPtr)
      (fun hp => ?_) (fun _ _ => Or.inl) u
    exact (ho p hp).imp_right fun hn => ⟨rfl, hn⟩
  have hnew : ∀ u, ¬ (s.threads u).Owns s.shared.nextPtr := fun u hu =>
    Nat.lt_irrefl _ (h.owned u _ hu).2
  refine ⟨Nat.le_succ_of_le h.free, fun u p hu => ?_, fun u w p hu hw => ?_,
    fun c hc w hw => ?_, fun c hc w hw p hp => ?_, fun p hp => ?_⟩
  · rcases hown u p hu with hu | ⟨_, rfl⟩
    · exact ⟨(h.owned u p hu).1, Nat.lt_succ_of_lt (h.owned u p hu).2⟩
    · exact ⟨h.free, Nat.lt_succ_self _⟩
  · rcases hown u p hu with hu | ⟨rfl, rfl⟩
    · rcases hown w p hw with hw | ⟨_, rfl⟩
      · exact h.unique u w p hu hw
      · exact absurd hu (hnew u)
    · rcases hown w _ hw with hw | ⟨rfl, _⟩
      · exact absurd hw (hnew w)
      · rfl
  · refine (load_update_of_ne fun hp => ?_).trans (h.value c hc w hw)
    exact Nat.lt_irrefl _ (h.committed c hc w hw _ hp).2.1
  · obtain ⟨h1, h2, h3⟩ := h.committed c hc w hw p hp
    refine ⟨h1, Nat.lt_succ_of_lt h2, fun u hu => ?_⟩
    rcases hown u p hu with hu | ⟨_, rfl⟩
    · exact h3 u hu
    · exact Nat.lt_irrefl _ h2
  · exact (Function.update_of_ne (Nat.ne_of_lt (lt_of_lt_of_le hp h.free)) ..).trans (h.initial p hp)

omit [DecidableEq ν] in
/-- An assignment to an owned object touches neither a committed nor an initial one. -/
theorem Heap.assign (h : Heap cfg s) {q : Ptr} (x : α) (hq : (s.threads t).Owns q)
    (ho : ∀ p, th'.Owns p → (s.threads t).Owns p) :
    Heap cfg (s.after t (s.shared.storeObject (.ptr q) x) th') where
  free := h.free
  owned u p hu := h.owned u p (Heap.owns_after ho u p hu)
  unique u w p hu hw := h.unique u w p (Heap.owns_after ho u p hu) (Heap.owns_after ho w p hw)
  value c hc w hw := by
    refine (load_update_of_ne fun hp => ?_).trans (h.value c hc w hw)
    exact (h.committed c hc w hw q hp).2.2 t hq
  committed c hc w hw p hp := by
    obtain ⟨h1, h2, h3⟩ := h.committed c hc w hw p hp
    exact ⟨h1, h2, fun u hu => h3 u (Heap.owns_after ho u p hu)⟩
  initial p hp := by
    refine (Function.update_of_ne (fun e => ?_) ..).trans (h.initial p hp)
    exact Nat.not_lt_of_le (h.owned t q hq).1 (e ▸ hp)

omit [DecidableEq ν] in
/-- A commit: what the thread owned is now committed and has no owner. -/
theorem Heap.commit (h : Heap cfg s) {c : Commit ι ν α} (hc : sh'.cells = s.shared.cells)
    (hn : sh'.nextPtr = s.shared.nextPtr) (hh : sh'.hist.commits = c :: s.shared.hist.commits)
    (hw : ∀ w ∈ c.writes, w.storage ∈ (s.threads t).pending ∧
      w.storage.load s.shared.cells = w.value)
    (ho : ∀ p, ¬ th'.Owns p) : Heap cfg (s.after t sh' th') := by
  have hown : ∀ u p, ((s.after t sh' th').threads u).Owns p → u ≠ t ∧ (s.threads u).Owns p := by
    intro u p
    refine Sys.forall_after (P := fun u th => th.Owns p → u ≠ t ∧ (s.threads u).Owns p)
      (fun hp => absurd hp (ho p)) (fun u hu hp => ⟨hu, hp⟩) u
  refine ⟨hn ▸ h.free, fun u p hu => ?_, fun u w p hu hw => ?_, fun c' hc' w hw' => ?_,
    fun c' hc' w hw' p hp => ?_, fun p hp => ?_⟩
  · rw [Sys.shared_after, Shared.nextPtr_atTime, hn]
    exact h.owned u p (hown u p hu).2
  · exact h.unique u w p (hown u p hu).2 (hown w p hw).2
  · rw [Sys.shared_after, Shared.commits_atTime, hh, List.mem_cons] at hc'
    rw [Sys.shared_after, Shared.cells_atTime, hc]
    rcases hc' with rfl | hc'
    · exact (hw w hw').2
    · exact h.value c' hc' w hw'
  · rw [Sys.shared_after, Shared.commits_atTime, hh, List.mem_cons] at hc'
    rw [Sys.shared_after, Shared.nextPtr_atTime, hn]
    rcases hc' with rfl | hc'
    · have hpt : (s.threads t).Owns p := by
        rw [Thread.Owns, ← hp]
        exact (hw w hw').1
      exact ⟨(h.owned t p hpt).1, (h.owned t p hpt).2, fun u hu =>
        (hown u p hu).1 (h.unique u t p (hown u p hu).2 hpt)⟩
    · obtain ⟨h1, h2, h3⟩ := h.committed c' hc' w hw' p hp
      exact ⟨h1, h2, fun u hu => h3 u (hown u p hu).2⟩
  · rw [Sys.shared_after, Shared.cells_atTime, hc]
    exact h.initial p hp

omit [DecidableEq ν] in
/-- **A step keeps the heap right.** -/
theorem Heap.step (h : Heap cfg s) (hm : HeapEffect s.shared (s.threads t) sh' th') :
    Heap cfg (s.after t sh' th') := by
  cases hm with
  | keep hs ho => exact h.keep hs ho
  | allocate x ho => exact h.allocate x ho
  | assign p x hp ho => exact h.assign x hp ho
  | commit c hc hn hh hw ho => exact h.commit hc hn hh hw ho

end Step

/-- The thread's step, classified by what it does to the heap, in a state reached. -/
theorem Sys.Reach.heapEffect {cfg : Config ι ν α} {ok : Request ν α → Prop} {s : Sys ι ν α}
    (h : Sys.Reach cfg ok s) {t : ι} {req : Option (Request ν α)} {sh' : Shared ι ν α}
    {th' : Thread ι ν α} (hm : Move cfg s.shared t (s.threads t) s.opened req sh' th') :
    HeapEffect s.shared (s.threads t) sh' th' :=
  hm.heap (books_reach h t) ((active_reach h).opAt t)

/-- **In every state reached the heap is right.** -/
theorem heap_reach {cfg : Config ι ν α} {ok : Request ν α → Prop} {s : Sys ι ν α}
    (h : Sys.Reach cfg ok s) : Heap cfg s := by
  refine h.induct ?_ fun hr ih _ hm => ih.step (hr.heapEffect hm)
  have hn : ∀ t p, ¬ ((Sys.init cfg).threads t).Owns p := fun t p => Thread.not_owns rfl p
  exact ⟨Nat.le_refl _, fun t p ho => absurd ho (hn t p), fun t _ p ho => absurd ho (hn t p),
    fun _ hc => absurd hc List.not_mem_nil, fun _ hc => absurd hc List.not_mem_nil,
    fun _ _ => rfl⟩

end LockfreeStm
