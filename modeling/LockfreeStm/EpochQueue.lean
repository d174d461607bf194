/-
  File:      LockfreeStm/EpochQueue.lean
  Subject:   A queue of epochs: finalized chunks of callbacks, oldest first, and one working list.

  This is what `quiescence_buffer` is for, in its own terms: the success callbacks a transaction
  registers wait in a working list; a commit turns the list into a chunk under the epoch it
  synchronizes on; reclamation takes chunks from the front. The ring buffer of the source keeps
  one header slot for each chunk and one for the working list, and doubles its capacity when the
  last slot is taken: `size` and `capacity` count these slots, since `allocates_on_next_push` and
  the reclaim limit depend on them.
-/
import Mathlib.Algebra.BigOperators.Group.List.Basic
import Mathlib.Algebra.GroupWithZero.Nat

namespace LockfreeStm

/-- A finalized chunk: the epoch to synchronize on and the callbacks in registration order. -/
structure Chunk (κ : Type) where
  epoch : Nat
  callbacks : List κ
deriving DecidableEq

/-- The queue: chunks oldest first, the working list, and the slots of the buffer. -/
structure EpochQueue (κ : Type) where
  chunks : List (Chunk κ)
  working : List κ
  capacity : Nat
deriving DecidableEq

namespace EpochQueue

variable {κ : Type}

/-- The empty queue over a buffer of twice the reclaim limit. -/
def init (reclaimLimit : Nat) : EpochQueue κ := ⟨[], [], reclaimLimit * 2⟩

/-- Slots in use: a header and its callbacks for each chunk, and the same for the working list. -/
def size (q : EpochQueue κ) : Nat :=
  (q.chunks.map fun c => c.callbacks.length + 1).sum + (q.working.length + 1)

/-- Double the buffer once its last slot is taken. -/
def grow (q : EpochQueue κ) : EpochQueue κ :=
  if q.size = q.capacity then { q with capacity := q.capacity * 2 } else q

/-- No chunk and no working callback. -/
def isEmpty (q : EpochQueue κ) : Bool := q.chunks.isEmpty && q.working.isEmpty

/-- The next push takes the last slot. -/
def allocatesOnNextPush (q : EpochQueue κ) : Bool := q.size == q.capacity - 1

/-- Register a callback without looking at the capacity. -/
def uncheckedEmplaceBack (q : EpochQueue κ) (c : κ) : EpochQueue κ :=
  { q with working := q.working ++ [c] }

/-- Register a callback. -/
def emplaceBack (q : EpochQueue κ) (c : κ) : EpochQueue κ := (q.uncheckedEmplaceBack c).grow

/-- Drop the working list. -/
def clearWorkingEpoch (q : EpochQueue κ) : EpochQueue κ := { q with working := [] }

/-- Turn the working list into the newest chunk, unless it is empty. -/
def pushChunk (q : EpochQueue κ) (epoch : Nat) : EpochQueue κ :=
  { q with chunks := q.chunks ++ [⟨epoch, q.working⟩], working := [] }

/-- Finalize the working list; the answer says that the reclaim limit is reached. -/
def finalizeEpoch (q : EpochQueue κ) (limit epoch : Nat) : EpochQueue κ × Bool :=
  if q.working.isEmpty then (q, false)
  else ((q.pushChunk epoch).grow, decide (limit ≤ (q.pushChunk epoch).size))

/-- Drop the oldest chunk. -/
def popFront (q : EpochQueue κ) : EpochQueue κ := { q with chunks := q.chunks.tail }

/-- The oldest chunk's epoch. -/
def frontEpoch? (q : EpochQueue κ) : Option Nat := q.chunks.head?.map (·.epoch)

/-- The newest chunk's epoch. -/
def backEpoch? (q : EpochQueue κ) : Option Nat := q.chunks.getLast?.map (·.epoch)

@[simp] theorem chunks_grow (q : EpochQueue κ) : q.grow.chunks = q.chunks := by
  unfold grow; split <;> rfl

@[simp] theorem working_grow (q : EpochQueue κ) : q.grow.working = q.working := by
  unfold grow; split <;> rfl

@[simp] theorem chunks_emplaceBack (q : EpochQueue κ) (c : κ) :
    (q.emplaceBack c).chunks = q.chunks := by
  simp [emplaceBack, uncheckedEmplaceBack]

@[simp] theorem working_emplaceBack (q : EpochQueue κ) (c : κ) :
    (q.emplaceBack c).working = q.working ++ [c] := by
  simp [emplaceBack, uncheckedEmplaceBack]

@[simp] theorem chunks_uncheckedEmplaceBack (q : EpochQueue κ) (c : κ) :
    (q.uncheckedEmplaceBack c).chunks = q.chunks := rfl

@[simp] theorem working_uncheckedEmplaceBack (q : EpochQueue κ) (c : κ) :
    (q.uncheckedEmplaceBack c).working = q.working ++ [c] := rfl

@[simp] theorem chunks_clearWorkingEpoch (q : EpochQueue κ) :
    q.clearWorkingEpoch.chunks = q.chunks := rfl

@[simp] theorem working_clearWorkingEpoch (q : EpochQueue κ) :
    q.clearWorkingEpoch.working = [] := rfl

@[simp] theorem chunks_popFront (q : EpochQueue κ) : q.popFront.chunks = q.chunks.tail := rfl

@[simp] theorem working_popFront (q : EpochQueue κ) : q.popFront.working = q.working := rfl

@[simp] theorem working_finalizeEpoch (q : EpochQueue κ) (limit epoch : Nat) :
    (q.finalizeEpoch limit epoch).1.working = [] := by
  unfold finalizeEpoch
  split
  · simpa using ‹q.working.isEmpty = true›
  · simp [pushChunk]

/-- What finalizing does to the chunks. -/
theorem chunks_finalizeEpoch (q : EpochQueue κ) (limit epoch : Nat) :
    (q.finalizeEpoch limit epoch).1.chunks =
      if q.working.isEmpty then q.chunks else q.chunks ++ [⟨epoch, q.working⟩] := by
  unfold finalizeEpoch
  split <;> simp [pushChunk]

@[simp] theorem size_grow (q : EpochQueue κ) : q.grow.size = q.size := by
  unfold grow; split <;> rfl

/-- The answer of `finalize_epoch`: the slots in use have reached the limit. -/
theorem le_size_finalizeEpoch {q : EpochQueue κ} {limit epoch : Nat}
    (h : (q.finalizeEpoch limit epoch).2 = true) : limit ≤ (q.finalizeEpoch limit epoch).1.size := by
  unfold finalizeEpoch at h ⊢
  split at h
  · cases h
  · rw [if_neg ‹_›, size_grow]
    exact of_decide_eq_true h

end EpochQueue

end LockfreeStm
