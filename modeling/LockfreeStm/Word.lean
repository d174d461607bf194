/-
  File:      LockfreeStm/Word.lean
  Subject:   The words the library computes with: `epoch_t`, the lock bit of a version_lock and the
             clock's bounds (detail/thread_synchronization.hpp, detail/transaction_domain.hpp).

  An `epoch_t` is a 64-bit word, read here as the natural number it denotes. The functions below
  keep the source's bit operations; the lemmas say what they do on the words that occur: an
  unlocked version is below `lockBit`, a locked one at or above it.
-/
import Mathlib.Data.Nat.Bitwise

namespace LockfreeStm

/-- `uword`, where the code counts around its end. -/
abbrev UWord := BitVec 64

/-- `epoch_t`: an unsigned word of 64 bits. -/
abbrev Epoch := Nat

/-- `lock_bit`, the top bit of an `epoch_t`. -/
def lockBit : Epoch := 2 ^ 63

/-- `off_state = ~epoch_t(0)`: announced by a thread that is in no critical section. -/
def offState : Epoch := 2 ^ 64 - 1

/-- `commit_failed`, the value try_commit returns when it gives up. -/
def commitFailed : Epoch := offState

/-- `transaction_domain::bump_size`. -/
def bumpSize : Epoch := 1

/-- `transaction_domain::max_version`, every bit set but the lock bit. -/
def maxVersion : Epoch := 2 ^ 63 - 1

/-- `locked`. -/
def locked (version : Epoch) : Bool := version &&& lockBit != 0

/-- `as_locked`. -/
def asLocked (version : Epoch) : Epoch := version ||| lockBit

/-- The word `unlock` stores: the lock bit flipped. -/
def flipLock (version : Epoch) : Epoch := version ^^^ lockBit

theorem locked_of_lt {n : Epoch} (h : n < lockBit) : locked n = false := by
  have h63 : n.testBit 63 = false := Nat.testBit_lt_two_pow h
  have h0 : n &&& lockBit = 0 := by simp only [lockBit, Nat.and_two_pow, h63, Bool.toNat_false, Nat.zero_mul]
  rw [locked, h0]
  rfl

theorem asLocked_of_lt {n : Epoch} (h : n < lockBit) : asLocked n = n + lockBit := by
  have e := Nat.two_pow_add_eq_or_of_lt (i := 63) h 1
  rw [Nat.mul_one] at e
  rw [asLocked, Nat.or_comm, Nat.add_comm]
  exact e.symm

theorem asLocked_lt {n : Epoch} (h : n < lockBit) : lockBit ≤ asLocked n := by
  rw [asLocked_of_lt h]
  exact Nat.le_add_left _ _

theorem flipLock_asLocked {n : Epoch} (h : n < lockBit) : flipLock (asLocked n) = n := by
  have h63 : n.testBit 63 = false := Nat.testBit_lt_two_pow h
  refine Nat.eq_of_testBit_eq fun i => ?_
  simp only [flipLock, asLocked, lockBit, Nat.testBit_xor, Nat.testBit_or, Nat.testBit_two_pow]
  by_cases hi : 63 = i
  · subst hi; simp [h63]
  · simp [hi]

theorem locked_asLocked (n : Epoch) : locked (asLocked n) = true := by
  have h : (asLocked n &&& lockBit).testBit 63 = true := by
    simp only [asLocked, lockBit, Nat.testBit_and, Nat.testBit_or, Nat.testBit_two_pow_self,
      Bool.or_true, Bool.and_true]
  unfold locked
  rw [bne_iff_ne]
  intro e
  rw [e] at h
  simp at h

/-- The version below the lock bit: what a version_lock reads once its holder lets go. -/
def baseVersion (version : Epoch) : Epoch := if locked version then flipLock version else version

theorem baseVersion_of_lt {n : Epoch} (h : n < lockBit) : baseVersion n = n := by
  simp [baseVersion, locked_of_lt h]

theorem baseVersion_asLocked {n : Epoch} (h : n < lockBit) : baseVersion (asLocked n) = n := by
  simp [baseVersion, locked_asLocked, flipLock_asLocked h]

theorem maxVersion_lt : maxVersion < lockBit := by decide

theorem lockBit_lt_offState : lockBit < offState := by decide

end LockfreeStm
