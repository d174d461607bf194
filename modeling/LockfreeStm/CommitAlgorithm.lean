/-
  File:      LockfreeStm/CommitAlgorithm.lean
  Subject:   `commit_algorithm` RUN ALONE (detail/commit_algorithm.hpp): what `try_commit` does to
             the vars and to the clock when no other thread interferes.

  The machine of Machine/Step.lean cuts the same functions at their atomic accesses. Here they are
  whole, on any memory: the version_locks of the vars are arbitrary words, other threads may hold
  some of them, and the read set has any order and any duplicates.

  * `removeWritesFromReadsLoop_perm` -- the backward loop leaves the reads that are not written;
  * **`removeWritesFromReads_spec`** -- so does the one with the iterator, on the block;
  * `lockWrites_spec` -- all locks of the write set, or none;
  * **`tryCommit_spec`** -- the outcome of a commit, case by case.
-/
import LockfreeStm.Machine.Step
import LockfreeStm.PodVectorBlock

namespace LockfreeStm

open Blocks (Pointer Fault largestBlock)

variable {ν α : Type} [DecidableEq ν]

/-! ## 1. remove_writes_from_reads -/

namespace PodVector

variable {β : Type}

/-- Erasing slot `i` leaves the slots below it alone. -/
theorem unorderedErase_take {p : PodVector β} {i : Nat} (hi : i < p.data.length) :
    (p.unorderedErase i).data.take i = p.data.take i := by
  obtain ⟨xs, y, e⟩ : ∃ xs y, p.data = xs ++ [y] :=
    ⟨_, _, (List.dropLast_append_getLast (List.ne_nil_of_length_pos (Nat.zero_lt_of_lt hi))).symm⟩
  have he : (p.unorderedErase i).data = ((xs ++ [y]).set i y).dropLast := by
    simp [unorderedErase, e]
  rw [e, List.length_append, List.length_singleton] at hi
  rw [he, List.dropLast_eq_take, List.take_take, List.length_set, List.length_append,
    List.length_singleton, Nat.add_sub_cancel, Nat.min_eq_left (Nat.le_of_lt_succ hi),
    List.take_set_of_le (Nat.le_refl i), e]

/-- The slots from `i` on hold what they held, less the element of slot `i`. -/
theorem unorderedErase_drop_perm {p : PodVector β} {i : Nat} {x : β} (hx : p.data[i]? = some x) :
    ((p.unorderedErase i).data.drop i).Perm (p.data.drop (i + 1)) := by
  obtain ⟨hi, hget⟩ := List.getElem?_eq_some_iff.mp hx
  have hp := unorderedErase_perm hx
  rw [← List.take_append_drop i (p.unorderedErase i).data, unorderedErase_take hi] at hp
  have hd : p.data = p.data.take i ++ x :: p.data.drop (i + 1) := by
    rw [← hget, ← List.drop_eq_getElem_cons hi, List.take_append_drop]
  have hq : (p.data.take i ++ x :: p.data.drop (i + 1)).Perm
      (x :: (p.data.take i ++ (p.unorderedErase i).data.drop i)) := hd ▸ hp
  have hq' := (List.perm_middle.symm.trans hq).cons_inv
  exact ((List.perm_append_left_iff _).mp hq').symm

end PodVector

/-- The reads from slot `n` on have been looked at; the loop keeps, of the others, those that are
    not in the write set. -/
theorem removeWritesFromReadsLoop_perm (hash : ν → Hash) (ws : PodHashSet ν (VarStorage α)) :
    ∀ (n : Nat) (readSet : PodVector ν), n ≤ readSet.data.length →
      (removeWritesFromReadsLoop hash ws n readSet).data.Perm
        ((readSet.data.take n).filter (fun v => (ws.find hash v).isNone) ++ readSet.data.drop n)
  | 0, _, _ => .refl _
  | n + 1, readSet, hn => by
    have hget : readSet.data[n]? = some readSet.data[n] := List.getElem?_eq_getElem hn
    have htake : readSet.data.take (n + 1) = readSet.data.take n ++ [readSet.data[n]] :=
      (List.take_append_getElem hn).symm
    unfold removeWritesFromReadsLoop
    rw [hget]
    dsimp only
    by_cases hf : (ws.find hash readSet.data[n]).isSome
    · -- the last element takes the slot; it has been looked at before
      have hnone : (ws.find hash readSet.data[n]).isNone = false := by simpa using hf
      have hlen : n ≤ (readSet.unorderedErase n).data.length := by
        have := (PodVector.unorderedErase_perm hget).length_eq
        rw [List.length_cons] at this
        omega
      rw [if_pos hf, htake, List.filter_append, List.filter_singleton, hnone]
      refine (removeWritesFromReadsLoop_perm hash ws n _ hlen).trans ?_
      rw [PodVector.unorderedErase_take hn, cond_false, List.append_nil]
      exact (PodVector.unorderedErase_drop_perm hget).append_left _
    · have hnone : (ws.find hash readSet.data[n]).isNone = true := by simpa using hf
      rw [if_neg hf, htake, List.filter_append, List.filter_singleton, hnone, cond_true,
        List.append_assoc, List.singleton_append, ← List.drop_eq_getElem_cons hn]
      exact removeWritesFromReadsLoop_perm hash ws n readSet (Nat.le_of_succ_le hn)

/-- With a covering filter these are the reads of vars that are not written. -/
theorem mem_removeWritesFromReads {hash : ν → Hash} {ws : PodHashSet ν (VarStorage α)}
    (hc : ws.FilterCovers hash) {readSet : PodVector ν} {v : ν} :
    v ∈ (removeWritesFromReadsLoop hash ws readSet.data.length readSet).data ↔
      v ∈ readSet.data ∧ v ∉ ws.vars := by
  have hp := removeWritesFromReadsLoop_perm hash ws _ readSet (Nat.le_refl _)
  rw [List.take_length, List.drop_length, List.append_nil] at hp
  rw [hp.mem_iff, List.mem_filter, Option.isNone_iff_eq_none, PodHashSet.find_eq_none hc]

/-! ## 2. The loop over the block -/

/-- The element `*ptr`; there is nothing else to look at. -/
def PodVectorBlock.element {β : Type} (v : PodVectorBlock β) (ptr : Pointer) : Except Fault β := do
  if ← v.pointsInside ptr then v.heap.load ptr else throw .undefined

/-- The loop with its iterator; `none` is a loop that has not ended yet. -/
def removeWritesFromReadsFrom (hash : ν → Hash) (ws : PodHashSet ν (VarStorage α)) (begin : Pointer) :
    Nat → Pointer → PodVectorBlock ν → Except Fault (Option (PodVectorBlock ν))
  | 0, _, _ => .ok none
  | fuel + 1, readIter, readSet =>
    if readIter = begin then .ok (some readSet)
    else do
      let readIter ← readIter.pred
      if (ws.find hash (← readSet.element readIter)).isSome then
        removeWritesFromReadsFrom hash ws begin fuel readIter (← readSet.unorderedErase readIter)
      else removeWritesFromReadsFrom hash ws begin fuel readIter readSet

/-- `remove_writes_from_reads`. -/
def PodVectorBlock.removeWritesFromReads (hash : ν → Hash) (ws : PodHashSet ν (VarStorage α))
    (fuel : Nat) (readSet : PodVectorBlock ν) : Except Fault (Option (PodVectorBlock ν)) :=
  removeWritesFromReadsFrom hash ws readSet.begin_ fuel readSet.end_ readSet

/-- It is an element of the vector that is looked at. -/
theorem PodVectorBlock.Represents.element {β : Type} {v : PodVectorBlock β} {p : PodVector β}
    (h : v.Represents p) {i : Nat} (hi : i < p.data.length) :
    v.element (v.begin_.shift i) = .ok p.data[i] := by
  obtain ⟨slack, hcells, -⟩ := h.cells
  have hload : v.heap.load (v.begin_.shift i) = .ok p.data[i] := by
    refine Blocks.Heap.load_ok (p := v.begin_.shift i) hcells ?_
    rw [Pointer.shift_offset, h.begin_, Nat.zero_add, List.getElem?_append_left (by simpa using hi),
      List.getElem?_map, List.getElem?_eq_getElem hi]
    rfl
  simp only [PodVectorBlock.element, h.pointsInside, decide_eq_true hi, bind, Except.bind, if_true, hload]

/-- The iterator at slot `n` of the block is the loop with `n` elements left to look at. -/
theorem removeWritesFromReadsFrom_represents (hash : ν → Hash) (ws : PodHashSet ν (VarStorage α))
    {begin : Pointer} {v : PodVectorBlock ν} {p : PodVector ν} (n : Nat) (h : v.Represents p)
    (hbegin : v.begin_ = begin) (hn : n ≤ p.data.length) :
    ∃ v', v'.Represents (removeWritesFromReadsLoop hash ws n p) ∧ v.Becomes v' false ∧
      ∀ fuel, n < fuel →
        removeWritesFromReadsFrom hash ws begin fuel (begin.shift n) v = .ok (some v') := by
  induction n generalizing v p with
  | zero =>
    refine ⟨v, h, .stays rfl fun _ _ => rfl, fun fuel hf => ?_⟩
    obtain ⟨fuel, rfl⟩ := Nat.exists_eq_add_of_lt hf
    exact if_pos rfl
  | succ n ih =>
    have hn' : n < p.data.length := hn
    have hne : begin.shift (n + 1) ≠ begin := fun e => by
      have := (Pointer.mk.inj e).2
      omega
    have hpred : (begin.shift (n + 1)).pred = .ok (begin.shift n) := Pointer.pred_mk (Nat.succ_pos _)
    subst hbegin
    -- one pass looks at slot `n`
    have hpass : ∀ fuel, removeWritesFromReadsFrom hash ws v.begin_ (fuel + 1)
        (v.begin_.shift (n + 1)) v =
          if (ws.find hash p.data[n]).isSome = true then
            (v.unorderedErase (v.begin_.shift n)).bind fun v₁ =>
              removeWritesFromReadsFrom hash ws v.begin_ fuel (v.begin_.shift n) v₁
          else removeWritesFromReadsFrom hash ws v.begin_ fuel (v.begin_.shift n) v := fun fuel => by
      simp only [removeWritesFromReadsFrom, if_neg hne, hpred, h.element hn', bind, Except.bind]
    unfold removeWritesFromReadsLoop
    rw [List.getElem?_eq_getElem hn']
    dsimp only
    by_cases hf : (ws.find hash p.data[n]).isSome = true
    · -- the element moved into the slot has been looked at before
      obtain ⟨v₁, hv₁, hrep₁, hb₁⟩ := h.unorderedErase hn'
      have hbegin₁ : v₁.begin_ = v.begin_ := by
        cases hb₁ with
        | stays begin_ others => exact begin_
      have hlen := (PodVector.unorderedErase_perm (List.getElem?_eq_getElem hn')).length_eq
      rw [List.length_cons] at hlen
      obtain ⟨v₂, hrep₂, hb₂, hloop⟩ := ih hrep₁ hbegin₁ (by omega)
      rw [if_pos hf]
      refine ⟨v₂, hrep₂, hb₁.trans hb₂, fun fuel hfuel => ?_⟩
      obtain ⟨fuel, rfl⟩ := Nat.exists_eq_add_of_lt hfuel
      rw [hpass, if_pos hf, hv₁]
      exact hloop _ (by omega)
    · rw [if_neg hf]
      obtain ⟨v₂, hrep₂, hb₂, hloop⟩ := ih h rfl (Nat.le_of_lt hn')
      refine ⟨v₂, hrep₂, hb₂, fun fuel hfuel => ?_⟩
      obtain ⟨fuel, rfl⟩ := Nat.exists_eq_add_of_lt hfuel
      rw [hpass, if_neg hf]
      exact hloop _ (by omega)

/-- **The loop ends, looks at elements of the read set only, and leaves the reads of vars that are not
    written**, each as often as it was there. -/
theorem removeWritesFromReads_spec {hash : ν → Hash} {ws : PodHashSet ν (VarStorage α)}
    (hc : ws.FilterCovers hash) {readSet : PodVectorBlock ν} {p : PodVector ν}
    (h : readSet.Represents p) :
    ∃ readSet' p', readSet'.Represents p' ∧ readSet.Becomes readSet' false ∧
      p'.data.Perm (p.data.filter fun v => decide (v ∉ ws.vars)) ∧
      ∀ fuel, p.data.length < fuel →
        readSet.removeWritesFromReads hash ws fuel = .ok (some readSet') := by
  obtain ⟨readSet', hrep, hb, hloop⟩ :=
    removeWritesFromReadsFrom_represents hash ws p.data.length h rfl (Nat.le_refl _)
  refine ⟨readSet', _, hrep, hb, ?_, fun fuel hf => ?_⟩
  · have hp := removeWritesFromReadsLoop_perm hash ws _ p (Nat.le_refl _)
    rw [List.take_length, List.drop_length, List.append_nil] at hp
    refine hp.trans (List.Perm.of_eq (List.filter_congr fun v _ => ?_))
    rw [Bool.eq_iff_iff, Option.isNone_iff_eq_none, PodHashSet.find_eq_none hc, decide_eq_true_iff]
  · rw [PodVectorBlock.removeWritesFromReads, h.end_]
    exact hloop fuel hf

/-- The var 2 is read three times, and written. -/
theorem removeWritesFromReads_spec_duplicates :
    ∃ readSet readSet' : PodVectorBlock Nat, ∃ p', readSet.Represents ⟨[2, 1, 2, 2], startSize⟩ ∧
      readSet'.Represents p' ∧ p'.data = [1] ∧ ∀ fuel, 4 < fuel →
        readSet.removeWritesFromReads (fun _ => 1#64)
          (PodHashSet.empty.pushBack 2 (VarStorage.raw 7) 1#64) fuel = .ok (some readSet') := by
  obtain ⟨v₀, -, hrep₀, -⟩ := PodVectorBlock.Represents.construct (Blocks.Heap.nothing : Blocks.Heap Nat)
  have hroom : ∀ q : PodVector Nat, q.allocatesOnNextPush = false → (q.allocatesOnNextPush = true →
      true = true ∧ q.capacity * 2 ≤ largestBlock) := fun q h h' => absurd (h.symm.trans h') nofun
  obtain ⟨v₁, -, hrep₁, -⟩ := hrep₀.emplaceBack 2 (hroom _ rfl)
  obtain ⟨v₂, -, hrep₂, -⟩ := hrep₁.emplaceBack 1 (hroom _ rfl)
  obtain ⟨v₃, -, hrep₃, -⟩ := hrep₂.emplaceBack 2 (hroom _ rfl)
  obtain ⟨v₄, -, hrep₄, -⟩ := hrep₃.emplaceBack 2 (hroom _ rfl)
  have hcovers : (PodHashSet.empty.pushBack 2 (VarStorage.raw 7) 1#64 :
      PodHashSet Nat (VarStorage Nat)).FilterCovers (fun _ => 1#64) :=
    PodHashSet.filterCovers_pushBack PodHashSet.filterCovers_empty _ (by decide)
  obtain ⟨readSet', p', hrep', -, hperm, hloop⟩ := removeWritesFromReads_spec hcovers hrep₄
  exact ⟨v₄, readSet', p', hrep₄, hrep', List.perm_singleton.mp hperm, hloop⟩

/-! ## 3. The functions -/

/-- What `try_commit` works on: the clock, the vars, and the sets of the thread's `thread_data`. -/
structure CommitState (ν α : Type) where
  clock : Epoch
  vars : ν → VarBase α
  readSet : PodVector ν
  writeSet : PodHashSet ν (VarStorage α)

/-- An entry of the write set. -/
abbrev WriteEntry (ν α : Type) := WriteSetValueType ν (VarStorage α)

namespace CommitState

/-- `version_lock.load()`. -/
def loadVersion (s : CommitState ν α) (v : ν) : Epoch := (s.vars v).versionLock

/-- `version_lock.store(e)`. -/
def storeVersion (s : CommitState ν α) (v : ν) (e : Epoch) : CommitState ν α :=
  { s with vars := Function.update s.vars v { s.vars v with versionLock := e } }

/-- `version_lock.compare_exchange_strong(expected, desired)`. -/
def compareExchangeVersion (s : CommitState ν α) (v : ν) (expected desired : Epoch) :
    Bool × CommitState ν α :=
  if s.loadVersion v = expected then (true, s.storeVersion v desired) else (false, s)

/-- `storage.store(x)`. -/
def storeStorage (s : CommitState ν α) (v : ν) (x : VarStorage α) : CommitState ν α :=
  { s with vars := Function.update s.vars v { s.vars v with storage := x } }

/-- `read_write_valid` of a transaction with the version `rv`. -/
def readWriteValid (rv version : Epoch) : Bool := decide (version ≤ rv)

/-- `lock`. -/
def lock (s : CommitState ν α) (v : ν) (rv : Epoch) : Bool × CommitState ν α :=
  let versionBuf := s.loadVersion v
  if readWriteValid rv versionBuf then s.compareExchangeVersion v versionBuf (asLocked versionBuf)
  else (false, s)

/-- `unlock_as_version`. -/
def unlockAsVersion (s : CommitState ν α) (v : ν) (versionToSet : Epoch) : CommitState ν α :=
  s.storeVersion v versionToSet

/-- `unlock`. -/
def unlock (s : CommitState ν α) (v : ν) : CommitState ν α :=
  s.unlockAsVersion v (flipLock (s.loadVersion v))

/-- `unlock_write_set`, on the entries of its range. -/
def unlockWriteSet : CommitState ν α → List (WriteEntry ν α) → CommitState ν α
  | s, [] => s
  | s, e :: es => unlockWriteSet (s.unlock e.destVar) es

/-- `remove_writes_from_reads`. -/
def removeWritesFromReads (hash : ν → Hash) (s : CommitState ν α) : CommitState ν α :=
  { s with
    readSet := removeWritesFromReadsLoop hash s.writeSet s.readSet.data.length s.readSet }

/-- The loop of `lock_writes`: `begin` holds the entries before the iterator. -/
def lockWritesLoop (rv : Epoch) (begin : List (WriteEntry ν α)) :
    List (WriteEntry ν α) → CommitState ν α → Bool × CommitState ν α
  | [], s => (true, s)
  | e :: es, s =>
    match s.lock e.destVar rv with
    | (true, s') => lockWritesLoop rv (begin ++ [e]) es s'
    | (false, s') => (false, s'.unlockWriteSet begin)

/-- `lock_writes`. -/
def lockWrites (rv : Epoch) (s : CommitState ν α) : Bool × CommitState ν α :=
  lockWritesLoop rv [] s.writeSet.entries s

/-- The loop of `validate_reads`. -/
def validateReadsLoop (rv : Epoch) : List ν → CommitState ν α → Bool × CommitState ν α
  | [], s => (true, s)
  | v :: vs, s =>
    if readWriteValid rv (s.loadVersion v) then validateReadsLoop rv vs s
    else (false, s.unlockWriteSet s.writeSet.entries)

/-- `validate_reads`. -/
def validateReads (rv : Epoch) (s : CommitState ν α) : Bool × CommitState ν α :=
  validateReadsLoop rv s.readSet.data s

/-- `do_writes`. -/
def doWrites : List (WriteEntry ν α) → CommitState ν α → CommitState ν α
  | [], s => s
  | e :: es, s => doWrites es (s.storeStorage e.destVar e.pendingWrite)

/-- `publish`. -/
def publish (writeVersion : Epoch) : List (WriteEntry ν α) → CommitState ν α → CommitState ν α
  | [], s => s
  | e :: es, s => publish writeVersion es (s.unlockAsVersion e.destVar writeVersion)

/-- `fetch_and_bump_clock`: the previous version. -/
def fetchAndBumpClock (s : CommitState ν α) : Epoch × CommitState ν α :=
  (s.clock, { s with clock := s.clock + bumpSize })

/-- `slower_path`. -/
def slowerPath (rv : Epoch) (s : CommitState ν α) : Epoch × CommitState ν α :=
  match s.validateReads rv with
  | (false, s₁) => (commitFailed, s₁)
  | (true, s₁) =>
    let (syncEpoch, s₂) := (doWrites s₁.writeSet.entries s₁).fetchAndBumpClock
    (syncEpoch, publish (syncEpoch + bumpSize) s₂.writeSet.entries s₂)

/-- `slow_path`. -/
def slowPath (hash : ν → Hash) (rv : Epoch) (s : CommitState ν α) : Epoch × CommitState ν α :=
  match (s.removeWritesFromReads hash).lockWrites rv with
  | (false, s₁) => (commitFailed, s₁)
  | (true, s₁) => s₁.slowerPath rv

/-- `try_commit`: an empty write set synchronizes on the earliest epoch. -/
def tryCommit (hash : ν → Hash) (rv : Epoch) (s : CommitState ν α) : Epoch × CommitState ν α :=
  if s.writeSet.entries.isEmpty then (0, s) else s.slowPath hash rv

/-! ## 4. Locking and unlocking -/

/-- The vars `vs` locked, nothing else changed. -/
def locking (s : CommitState ν α) (vs : List ν) : CommitState ν α :=
  { s with
    vars := fun v =>
      if v ∈ vs then { s.vars v with versionLock := asLocked (s.loadVersion v) } else s.vars v }

variable {s : CommitState ν α} {rv : Epoch} {v : ν} {vs : List ν} {es begin : List (WriteEntry ν α)}

theorem storeVersion_vars {x : Epoch} : (s.storeVersion v x).vars =
    Function.update s.vars v { s.vars v with versionLock := x } := rfl

theorem storeStorage_vars {x : VarStorage α} : (s.storeStorage v x).vars =
    Function.update s.vars v { s.vars v with storage := x } := rfl

@[simp] theorem locking_nil (s : CommitState ν α) : s.locking [] = s := rfl

@[simp] theorem locking_writeSet : (s.locking vs).writeSet = s.writeSet := rfl

theorem locking_vars_of_notMem (h : v ∉ vs) : (s.locking vs).vars v = s.vars v := if_neg h

theorem locking_vars_of_mem (h : v ∈ vs) :
    (s.locking vs).vars v = { s.vars v with versionLock := asLocked (s.loadVersion v) } := if_pos h

theorem locking_loadVersion (h : v ∉ vs) : (s.locking vs).loadVersion v = s.loadVersion v := by
  rw [loadVersion, locking_vars_of_notMem h, loadVersion]

/-- `lock` takes a var that is not newer than `rv`, and leaves any other alone. -/
theorem lock_locking (h : v ∉ vs) :
    (s.locking vs).lock v rv =
      if s.loadVersion v ≤ rv then (true, s.locking (vs ++ [v])) else (false, s.locking vs) := by
  simp only [lock, readWriteValid, compareExchangeVersion, decide_eq_true_eq, if_true,
    locking_loadVersion h]
  have hstore : (s.locking vs).storeVersion v (asLocked (s.loadVersion v)) =
      s.locking (vs ++ [v]) := by
    simp only [storeVersion, locking, CommitState.mk.injEq, true_and, and_true]
    funext w
    by_cases hw : w = v
    · subst hw
      simp [h]
    · simp [hw]
  rw [hstore]

/-- `unlock` undoes the lock. -/
theorem unlock_locking (h : v ∉ vs) (hv : s.loadVersion v < lockBit) :
    (s.locking (v :: vs)).unlock v = s.locking vs := by
  have hload : (s.locking (v :: vs)).loadVersion v = asLocked (s.loadVersion v) := by
    rw [loadVersion, locking_vars_of_mem List.mem_cons_self]
  rw [unlock, hload, flipLock_asLocked hv]
  simp only [unlockAsVersion, storeVersion, locking, CommitState.mk.injEq, true_and, and_true]
  funext w
  by_cases hw : w = v
  · subst hw
    simp [h, loadVersion]
  · simp [hw]

/-- The rollback: unlocking what has been locked gives the memory back. -/
theorem unlockWriteSet_locking (hn : (es.map (·.destVar)).Nodup)
    (hv : ∀ e ∈ es, s.loadVersion e.destVar < lockBit) :
    (s.locking (es.map (·.destVar))).unlockWriteSet es = s := by
  induction es with
  | nil => rfl
  | cons e es ih =>
    rw [List.map_cons, List.nodup_cons] at hn
    rw [List.map_cons, unlockWriteSet, unlock_locking hn.1 (hv e List.mem_cons_self)]
    exact ih hn.2 fun e' he' => hv e' (List.mem_cons_of_mem _ he')

/-- The loop goes on while it can lock, and rolls back what it has when it cannot. -/
theorem lockWritesLoop_spec (hrv : rv < lockBit) (hn : ((begin ++ es).map (·.destVar)).Nodup)
    (hb : ∀ e ∈ begin, s.loadVersion e.destVar ≤ rv) :
    lockWritesLoop rv begin es (s.locking (begin.map (·.destVar))) =
      if ∀ e ∈ es, s.loadVersion e.destVar ≤ rv then
        (true, s.locking ((begin ++ es).map (·.destVar)))
      else (false, s) := by
  induction es generalizing begin with
  | nil => simp [lockWritesLoop]
  | cons e es ih =>
    have hnot : e.destVar ∉ begin.map (·.destVar) := by
      rw [List.map_append, List.map_cons, List.nodup_append] at hn
      exact fun h => hn.2.2 _ h _ List.mem_cons_self rfl
    rw [lockWritesLoop, lock_locking hnot]
    by_cases he : s.loadVersion e.destVar ≤ rv
    · rw [if_pos he]
      have hsnoc : begin ++ e :: es = (begin ++ [e]) ++ es := by simp
      have hmap : begin.map (·.destVar) ++ [e.destVar] = (begin ++ [e]).map (·.destVar) := by simp
      dsimp only
      rw [hmap, hsnoc, ih (hsnoc ▸ hn)]
      · simp only [List.forall_mem_cons, he, true_and]
      · intro e' he'
        rcases List.mem_append.mp he' with h | h
        · exact hb e' h
        · exact List.mem_singleton.mp h ▸ he
    · rw [if_neg he, if_neg fun h => he (h e List.mem_cons_self)]
      dsimp only
      rw [unlockWriteSet_locking]
      · rw [List.map_append] at hn
        exact (List.nodup_append.mp hn).1
      · exact fun e' he' => Nat.lt_of_le_of_lt (hb e' he') hrv

/-- **`lock_writes` takes every lock of the write set, or none.** -/
theorem lockWrites_spec (hrv : rv < lockBit) (hn : s.writeSet.vars.Nodup) :
    s.lockWrites rv =
      if ∀ v ∈ s.writeSet.vars, s.loadVersion v ≤ rv then (true, s.locking s.writeSet.vars)
      else (false, s) := by
  have h : lockWritesLoop rv [] s.writeSet.entries s =
      if ∀ e ∈ s.writeSet.entries, s.loadVersion e.destVar ≤ rv then
        (true, s.locking s.writeSet.vars)
      else (false, s) :=
    lockWritesLoop_spec hrv hn fun _ h => absurd h List.not_mem_nil
  rw [lockWrites, h]
  simp only [PodHashSet.vars, List.forall_mem_map]

theorem validateReadsLoop_spec :
    validateReadsLoop rv vs s =
      if ∀ v ∈ vs, s.loadVersion v ≤ rv then (true, s)
      else (false, s.unlockWriteSet s.writeSet.entries) := by
  induction vs with
  | nil => simp [validateReadsLoop]
  | cons v vs ih =>
    rw [validateReadsLoop, readWriteValid, ih]
    by_cases hv : s.loadVersion v ≤ rv
    · simp [hv]
    · simp [hv]

/-- Validation does not trip over the locks the transaction holds itself: the vars they are on are
    no longer in the read set. -/
theorem validateReads_locking (hrv : rv < lockBit) (hn : s.writeSet.vars.Nodup)
    (hw : ∀ v ∈ s.writeSet.vars, s.loadVersion v ≤ rv)
    (hr : ∀ v ∈ s.readSet.data, v ∉ s.writeSet.vars) :
    (s.locking s.writeSet.vars).validateReads rv =
      if ∀ v ∈ s.readSet.data, s.loadVersion v ≤ rv then (true, s.locking s.writeSet.vars)
      else (false, s) := by
  have hiff : (∀ v ∈ s.readSet.data, (s.locking s.writeSet.vars).loadVersion v ≤ rv) ↔
      ∀ v ∈ s.readSet.data, s.loadVersion v ≤ rv :=
    forall₂_congr fun v hv => by rw [locking_loadVersion (hr v hv)]
  have hun : (s.locking s.writeSet.vars).unlockWriteSet s.writeSet.entries = s :=
    unlockWriteSet_locking hn fun e he =>
      Nat.lt_of_le_of_lt (hw _ (List.mem_map_of_mem he)) hrv
  rw [validateReads, validateReadsLoop_spec, locking_writeSet, hun]
  exact if_congr hiff rfl rfl

/-! ## 5. Writing and publishing -/

theorem doWrites_frame (h : v ∉ es.map (·.destVar)) : (doWrites es s).vars v = s.vars v := by
  induction es generalizing s with
  | nil => rfl
  | cons e es ih =>
    rw [List.map_cons, List.mem_cons, not_or] at h
    rw [doWrites, ih h.2, storeStorage_vars, Function.update_of_ne h.1]

/-- Every var of the write set gets its pending write. -/
theorem doWrites_mem (hn : (es.map (·.destVar)).Nodup) {e : WriteEntry ν α} (he : e ∈ es) :
    (doWrites es s).vars e.destVar = { s.vars e.destVar with storage := e.pendingWrite } := by
  induction es generalizing s with
  | nil => cases he
  | cons d es ih =>
    rw [List.map_cons, List.nodup_cons] at hn
    rw [doWrites]
    rcases List.mem_cons.mp he with rfl | he
    · rw [doWrites_frame hn.1, storeStorage_vars, Function.update_self]
    · have hne : e.destVar ≠ d.destVar := fun h => hn.1 (h ▸ List.mem_map_of_mem he)
      rw [ih hn.2 he, storeStorage_vars, Function.update_of_ne hne]

theorem doWrites_clock : (doWrites es s).clock = s.clock := by
  induction es generalizing s with
  | nil => rfl
  | cons e es ih => exact ih

theorem doWrites_writeSet : (doWrites es s).writeSet = s.writeSet := by
  induction es generalizing s with
  | nil => rfl
  | cons e es ih => exact ih

theorem publish_clock {w : Epoch} : (publish w es s).clock = s.clock := by
  induction es generalizing s with
  | nil => rfl
  | cons e es ih => exact ih

theorem publish_frame {w : Epoch} (h : v ∉ es.map (·.destVar)) :
    (publish w es s).vars v = s.vars v := by
  induction es generalizing s with
  | nil => rfl
  | cons e es ih =>
    rw [List.map_cons, List.mem_cons, not_or] at h
    rw [publish, ih h.2, unlockAsVersion, storeVersion_vars, Function.update_of_ne h.1]

/-- Every var of the write set gets the version. -/
theorem publish_mem {w : Epoch} (hn : (es.map (·.destVar)).Nodup) (h : v ∈ es.map (·.destVar)) :
    (publish w es s).vars v = { s.vars v with versionLock := w } := by
  induction es generalizing s with
  | nil => cases h
  | cons e es ih =>
    rw [List.map_cons, List.nodup_cons] at hn
    rw [List.map_cons, List.mem_cons] at h
    rw [publish, unlockAsVersion]
    rcases h with rfl | h
    · rw [publish_frame hn.1, storeVersion_vars, Function.update_self]
    · have hne : v ≠ e.destVar := fun hv => hn.1 (hv ▸ h)
      rw [ih hn.2 h, storeVersion_vars, Function.update_of_ne hne]

/-! ## 6. try_commit -/

/-- Some var of the transaction is newer than `rv`, or locked. -/
def Stale (s : CommitState ν α) (rv : Epoch) : Prop :=
  (∃ v ∈ s.writeSet.vars, rv < s.loadVersion v) ∨
    ∃ v ∈ s.readSet.data, v ∉ s.writeSet.vars ∧ rv < s.loadVersion v

/-- `slower_path` once the reads are valid. -/
theorem slowerPath_eq (h : s.validateReads rv = (true, s)) :
    s.slowerPath rv = (s.clock, publish (s.clock + bumpSize) s.writeSet.entries
      (doWrites s.writeSet.entries s).fetchAndBumpClock.2) := by
  have hclk : (doWrites s.writeSet.entries s).fetchAndBumpClock.1 = s.clock := doWrites_clock
  have hws : (doWrites s.writeSet.entries s).fetchAndBumpClock.2.writeSet = s.writeSet :=
    doWrites_writeSet
  rw [slowerPath, h]
  dsimp only
  rw [hclk, hws]

/-- What a successful commit leaves. -/
structure Committed (s s' : CommitState ν α) : Prop where
  clock : s'.clock = s.clock + 1
  unlocked : locked (s.clock + 1) = false
  written : ∀ e ∈ s.writeSet.entries, s'.vars e.destVar = ⟨s.clock + 1, e.pendingWrite⟩
  others : ∀ v, v ∉ s.writeSet.vars → s'.vars v = s.vars v

/-- The last part of a commit, on the memory with the write set locked. -/
theorem committed_of_locking (hn : s.writeSet.vars.Nodup) (hclk : s.clock < maxVersion - bumpSize) :
    s.Committed (publish (s.clock + bumpSize) s.writeSet.entries
      ((doWrites s.writeSet.entries (s.locking s.writeSet.vars)).fetchAndBumpClock.2)) where
  clock := by
    rw [publish_clock, fetchAndBumpClock, doWrites_clock]
    rfl
  unlocked :=
    have hle : s.clock + 1 ≤ maxVersion := Nat.lt_of_lt_of_le hclk (Nat.sub_le ..)
    locked_of_lt (Nat.lt_of_le_of_lt hle maxVersion_lt)
  written e he := by
    rw [publish_mem hn (List.mem_map_of_mem he), fetchAndBumpClock, doWrites_mem hn he]
    rfl
  others v hv := by
    rw [publish_frame hv, fetchAndBumpClock, doWrites_frame hv, locking_vars_of_notMem hv]

/-- A commit that finds a stale var gives the memory back. -/
theorem slowPath_of_stale {hash : ν → Hash} (hc : s.writeSet.FilterCovers hash)
    (hn : s.writeSet.vars.Nodup) (hrv : rv < lockBit) (hst : s.Stale rv) :
    (s.slowPath hash rv).1 = commitFailed ∧ (s.slowPath hash rv).2.vars = s.vars ∧
      (s.slowPath hash rv).2.clock = s.clock := by
  have hlock : (s.removeWritesFromReads hash).lockWrites rv = _ := lockWrites_spec hrv hn
  rw [slowPath, hlock]
  split_ifs with hw
  · have hval := validateReads_locking (s := s.removeWritesFromReads hash) hrv hn hw fun v hv =>
      ((mem_removeWritesFromReads hc).mp hv).2
    rcases hst with ⟨v, hv, hlt⟩ | ⟨v, hv, hvw, hlt⟩
    · exact absurd (hw v hv) (Nat.not_le_of_lt hlt)
    · rw [if_neg fun h => Nat.not_le_of_lt hlt
        (h v ((mem_removeWritesFromReads hc).mpr ⟨hv, hvw⟩))] at hval
      dsimp only
      rw [slowerPath, hval]
      exact ⟨rfl, rfl, rfl⟩
  · exact ⟨rfl, rfl, rfl⟩

/-- A commit that finds none succeeds. -/
theorem slowPath_of_not_stale {hash : ν → Hash} (hc : s.writeSet.FilterCovers hash)
    (hn : s.writeSet.vars.Nodup) (hrv : rv < lockBit) (hclk : s.clock < maxVersion - bumpSize)
    (hst : ¬ s.Stale rv) :
    (s.slowPath hash rv).1 = s.clock ∧ s.Committed (s.slowPath hash rv).2 := by
  have hlock : (s.removeWritesFromReads hash).lockWrites rv = _ := lockWrites_spec hrv hn
  have hw : ∀ v ∈ (s.removeWritesFromReads hash).writeSet.vars,
      (s.removeWritesFromReads hash).loadVersion v ≤ rv := fun v hv =>
    Nat.le_of_not_lt fun hlt => hst (.inl ⟨v, hv, hlt⟩)
  have hval := validateReads_locking (s := s.removeWritesFromReads hash) hrv hn hw fun v hv =>
    ((mem_removeWritesFromReads hc).mp hv).2
  have hr : ∀ v ∈ (s.removeWritesFromReads hash).readSet.data,
      (s.removeWritesFromReads hash).loadVersion v ≤ rv := fun v hv =>
    have h := (mem_removeWritesFromReads hc).mp hv
    Nat.le_of_not_lt fun hlt => hst (.inr ⟨v, h.1, h.2, hlt⟩)
  rw [if_pos hr] at hval
  rw [slowPath, hlock, if_pos hw]
  have hcom := committed_of_locking (s := s.removeWritesFromReads hash) hn hclk
  dsimp only
  rw [slowerPath_eq hval]
  exact ⟨rfl, hcom.clock, hcom.unlocked, hcom.written, hcom.others⟩

/-- **`try_commit` meets its specification on every memory.** With nothing to write it returns 0 and
    touches nothing. Otherwise it fails exactly if a var of the transaction is newer than its
    version or locked, and leaves the memory as it was; or it returns the old clock value and leaves
    every written var with its pending write, at the new version and unlocked. -/
theorem tryCommit_spec {hash : ν → Hash} (hc : s.writeSet.FilterCovers hash)
    (hn : s.writeSet.vars.Nodup) (hrv : rv ≤ s.clock) (hclk : s.clock < maxVersion - bumpSize) :
    (s.writeSet.entries = [] → s.tryCommit hash rv = (0, s)) ∧
      (s.writeSet.entries ≠ [] →
        ((s.tryCommit hash rv).1 = commitFailed ↔ s.Stale rv) ∧
        (s.Stale rv → (s.tryCommit hash rv).2.vars = s.vars ∧
          (s.tryCommit hash rv).2.clock = s.clock) ∧
        (¬ s.Stale rv → (s.tryCommit hash rv).1 = s.clock ∧
          s.Committed (s.tryCommit hash rv).2)) := by
  have hclk' : s.clock < lockBit :=
    Nat.lt_trans (Nat.lt_of_lt_of_le hclk (Nat.sub_le ..)) maxVersion_lt
  have hrv' : rv < lockBit := Nat.lt_of_le_of_lt hrv hclk'
  refine ⟨fun he => ?_, fun he => ?_⟩
  · rw [tryCommit, he]
    rfl
  · have hslow : s.tryCommit hash rv = s.slowPath hash rv := by
      rw [tryCommit, if_neg fun h => he (List.isEmpty_iff.mp h)]
    rw [hslow]
    refine ⟨⟨fun h => ?_, fun h => (slowPath_of_stale hc hn hrv' h).1⟩,
      fun h => (slowPath_of_stale hc hn hrv' h).2, slowPath_of_not_stale hc hn hrv' hclk⟩
    -- a clock value is not `commit_failed`
    by_contra hst
    have hret := (slowPath_of_not_stale hc hn hrv' hclk hst).1
    exact Nat.ne_of_lt (Nat.lt_trans hclk' lockBit_lt_offState) (hret.symm.trans h)

/-- Var 0 is read twice and written, var 1 is read. -/
def overlap : CommitState Nat Nat where
  clock := 5
  vars := fun _ => ⟨3, .raw 7⟩
  readSet := ⟨[0, 1, 0], startSize⟩
  writeSet := PodHashSet.empty.pushBack 0 (.raw 9) 1#64

theorem tryCommit_spec_overlap :
    (overlap.tryCommit (fun _ => 1#64) 4).1 = 5 ∧
      overlap.Committed (overlap.tryCommit (fun _ => 1#64) 4).2 := by
  have hst : ¬ overlap.Stale 4 := by
    rintro (⟨v, -, h⟩ | ⟨v, -, -, h⟩)
    · exact absurd h (by decide : ¬ 4 < 3)
    · exact absurd h (by decide : ¬ 4 < 3)
  exact ((tryCommit_spec (PodHashSet.filterCovers_pushBack PodHashSet.filterCovers_empty _
    (by decide)) (by decide) (by decide) (by decide)).2 (by decide)).2.2 hst

end CommitState

end LockfreeStm
