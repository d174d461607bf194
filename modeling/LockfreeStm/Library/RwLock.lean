/-
  File:      LockfreeStm/Library/RwLock.lean
  Subject:   READER-WRITER LOCKS, as what they promise.

  A lock is the threads that have it for writing and those that have it for reading; that there is at
  most one writer, and no reader beside it, are fields, so a lock that breaks its promise cannot be
  built. An operation is `none` where the thread has to wait, or gives back what it does not have.
-/
import Mathlib.Data.Finset.Basic

namespace LockfreeStm

/-- Who has the lock. -/
@[ext] structure RwLock (τ : Type) where
  writers : Finset τ
  readers : Finset τ
  single : ∀ t ∈ writers, ∀ u ∈ writers, t = u
  exclusive : ∀ t ∈ writers, ∀ u ∈ readers, False

namespace RwLock

variable {τ : Type}

/-- Nobody has the lock. -/
def free : RwLock τ where
  writers := ∅
  readers := ∅
  single := by simp
  exclusive := by simp

variable [DecidableEq τ]

/-- The thread gets the lock for writing, when nobody has it. -/
def lock (l : RwLock τ) (t : τ) : Option (RwLock τ) :=
  if l.writers = ∅ ∧ l.readers = ∅ then some ⟨{t}, ∅, by simp, by simp⟩ else none

/-- The writer gives the lock back. -/
def unlock (l : RwLock τ) (t : τ) : Option (RwLock τ) :=
  if t ∈ l.writers then some ⟨∅, l.readers, by simp, by simp⟩ else none

/-- The thread gets the lock for reading, when nobody writes. -/
def lockShared (l : RwLock τ) (t : τ) : Option (RwLock τ) :=
  if h : l.writers = ∅ then some ⟨l.writers, insert t l.readers, l.single, by simp [h]⟩ else none

/-- A reader gives the lock back. -/
def unlockShared (l : RwLock τ) (t : τ) : Option (RwLock τ) :=
  if t ∈ l.readers then
    some ⟨l.writers, l.readers.erase t, l.single, fun v hv u hu =>
      l.exclusive v hv u (Finset.mem_of_mem_erase hu)⟩
  else none

variable {l l' : RwLock τ} {t : τ}

theorem mem_of_lock (h : l.lock t = some l') :
    (∀ u, u ∉ l.writers ∧ u ∉ l.readers) ∧ (∀ u, u ∈ l'.writers ↔ u = t) ∧ ∀ u, u ∉ l'.readers := by
  unfold lock at h
  split at h
  · rename_i hf
    cases h
    simp [hf.1, hf.2]
  · cases h

theorem lock_of_mem (hf : ∀ u, u ∉ l.writers ∧ u ∉ l.readers) (hw : ∀ u, u ∈ l'.writers ↔ u = t)
    (hr : ∀ u, u ∉ l'.readers) : l.lock t = some l' := by
  rw [lock, if_pos ⟨Finset.eq_empty_of_forall_notMem fun u => (hf u).1,
    Finset.eq_empty_of_forall_notMem fun u => (hf u).2⟩, Option.some_inj]
  refine RwLock.ext (Finset.ext fun u => ?_) (Finset.eq_empty_of_forall_notMem hr).symm
  rw [hw, Finset.mem_singleton]

theorem mem_of_unlock (h : l.unlock t = some l') :
    t ∈ l.writers ∧ (∀ u, u ∉ l'.writers) ∧ ∀ u, u ∈ l'.readers ↔ u ∈ l.readers := by
  unfold unlock at h
  split at h
  · cases h
    exact ⟨‹_›, by simp, fun _ => Iff.rfl⟩
  · cases h

theorem unlock_of_mem (ht : t ∈ l.writers) (hw : ∀ u, u ∉ l'.writers)
    (hr : ∀ u, u ∈ l'.readers ↔ u ∈ l.readers) : l.unlock t = some l' := by
  rw [unlock, if_pos ht, Option.some_inj]
  exact RwLock.ext (Finset.eq_empty_of_forall_notMem hw).symm (Finset.ext fun u => (hr u).symm)

theorem mem_of_lockShared (h : l.lockShared t = some l') :
    (∀ u, u ∉ l.writers) ∧ (∀ u, u ∉ l'.writers) ∧ ∀ u, u ∈ l'.readers ↔ u = t ∨ u ∈ l.readers := by
  unfold lockShared at h
  split at h
  · rename_i hf
    cases h
    simp [hf]
  · cases h

theorem lockShared_of_mem (hf : ∀ u, u ∉ l.writers) (hw : ∀ u, u ∉ l'.writers)
    (hr : ∀ u, u ∈ l'.readers ↔ u = t ∨ u ∈ l.readers) : l.lockShared t = some l' := by
  have hempty := Finset.eq_empty_of_forall_notMem hf
  rw [lockShared, dif_pos hempty, Option.some_inj]
  refine RwLock.ext (hempty.trans (Finset.eq_empty_of_forall_notMem hw).symm) (Finset.ext fun u => ?_)
  rw [hr, Finset.mem_insert]

theorem unlockShared_of_mem (ht : t ∈ l.readers) (hw : ∀ u, u ∈ l'.writers ↔ u ∈ l.writers)
    (hr : ∀ u, u ∈ l'.readers ↔ u ≠ t ∧ u ∈ l.readers) : l.unlockShared t = some l' := by
  rw [unlockShared, if_pos ht, Option.some_inj]
  refine RwLock.ext (Finset.ext fun u => (hw u).symm) (Finset.ext fun u => ?_)
  rw [hr, Finset.mem_erase]

end RwLock

end LockfreeStm
