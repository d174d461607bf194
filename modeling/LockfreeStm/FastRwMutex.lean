/-
  File:      LockfreeStm/FastRwMutex.lean
  Subject:   READERS AND WRITERS OF `fast_rw_mutex` EXCLUDE EACH OTHER (detail/fast_rw_mutex.hpp).

  The mutex is one word: the top bit is the writer's, the others count readers. A reader increments
  before it knows whether it may enter; one that finds the write bit set is counted until it has undone
  its increment. A writer sets the bit while readers are still inside and waits for the count to be 0.

  `RwPc` has one constructor for each place in front of an atomic access, `Rw.step` is one access of one
  thread. `compare_exchange_weak` may fail although the word is the expected one: that is the step's
  `spurious`. A failed assertion is the place `failed`.

  * `RwInv`, `rwInv_reach` -- the word is the number of counted readers, plus the write bit if a thread
    has set it; no two threads have set it; while a writer is inside no reader is.
  * `fast_rw_mutex_exclusion` -- **the main result**.
  * `RwInv.refines` -- to its callers the mutex is a `RwLock`.
-/
import LockfreeStm.Word
import LockfreeStm.Library.RwLock
import Mathlib.Data.Fintype.Card
import Mathlib.Algebra.BigOperators.Group.Finset.Basic
import Mathlib.Algebra.BigOperators.Group.Finset.Piecewise

namespace LockfreeStm

/-! ## 1. The code -/

/-- `write_bit`. -/
def writeBit : UWord := 1#64 <<< 63

/-- `read_mask`. -/
def readMask : UWord := ~~~writeBit

/-- `write_locked`. -/
def writeLocked (state : UWord) : Bool := state &&& writeBit != 0

/-- `read_locked`. -/
def readLocked (state : UWord) : Bool := state &&& readMask != 0

/-- Where a thread stands. -/
inductive RwPc where
  | idle
  -- lock_shared_slow_path: before the undoing decrement, the load, the compare-exchange, the assertion
  | undo
  | sharedLoad
  | sharedCas (readState : UWord)
  | sharedAssert
  /-- `lock_shared` has returned -/
  | reading
  -- request_write_lock: before the load and the compare-exchange; wait_for_readers: before the load
  | requestLoad
  | requestCas (prevReadCount : UWord)
  | waitForReaders
  /-- `lock` has returned -/
  | writing
  /-- an assertion has failed -/
  | failed
deriving DecidableEq

/-- What an idle thread calls. -/
inductive RwCall where
  | lockShared
  | lock
deriving DecidableEq

/-- The next access of a thread: the word and the thread's place after it. A thread inside a section
    leaves it. -/
def rwAccess (w : UWord) (call : RwCall) (spurious : Bool) : RwPc → UWord × RwPc
  | .idle => match call with
    | .lockShared => (w + 1, if writeLocked w then .undo else .reading)
    | .lock => if w = 0 ∧ spurious = false then (writeBit, .writing) else (w, .requestLoad)
  | .undo => (w - 1, .sharedLoad)
  | .sharedLoad => (w, if writeLocked w then .sharedLoad else .sharedCas w)
  | .sharedCas readState =>
      if w = readState ∧ spurious = false then (readState + 1, .sharedAssert) else (w, .sharedLoad)
  | .sharedAssert => (w, if readLocked w then .reading else .failed)
  | .reading => (w - 1, if readLocked w then .idle else .failed)
  | .requestLoad => (w, if writeLocked w then .requestLoad else .requestCas w)
  | .requestCas prev =>
      if w = prev ∧ spurious = false then
        (prev ||| writeBit, if readLocked prev then .waitForReaders else .writing)
      else (w, .requestLoad)
  | .waitForReaders => (w, if readLocked w then .waitForReaders else .writing)
  | .writing => (w &&& readMask, if writeLocked w then .idle else .failed)
  | .failed => (w, .failed)

/-- The mutex and its threads. -/
structure Rw (τ : Type) where
  readCount : UWord
  pc : τ → RwPc

namespace Rw

variable {τ : Type} [DecidableEq τ]

/-- Nobody has called anything. -/
def init : Rw τ := ⟨0, fun _ => .idle⟩

/-- One access of thread `t`. -/
def step (m : Rw τ) (t : τ) (call : RwCall) (spurious : Bool) : Rw τ :=
  let r := rwAccess m.readCount call spurious (m.pc t)
  ⟨r.1, Function.update m.pc t r.2⟩

@[simp] theorem readCount_step (m : Rw τ) (t : τ) (call : RwCall) (spurious : Bool) :
    (m.step t call spurious).readCount = (rwAccess m.readCount call spurious (m.pc t)).1 := rfl

@[simp] theorem pc_step_self (m : Rw τ) (t : τ) (call : RwCall) (spurious : Bool) :
    (m.step t call spurious).pc t = (rwAccess m.readCount call spurious (m.pc t)).2 :=
  Function.update_self ..

@[simp] theorem pc_step_ne (m : Rw τ) {t u : τ} (h : u ≠ t) (call : RwCall) (spurious : Bool) :
    (m.step t call spurious).pc u = m.pc u := Function.update_of_ne h ..

/-- **The states of the mutex**, in any interleaving. -/
inductive Reach : Rw τ → Prop where
  | init : Reach init
  | step {m : Rw τ} (h : Reach m) (t : τ) (call : RwCall) (spurious : Bool) :
      Reach (m.step t call spurious)

end Rw

/-! ## 2. Words -/

section Words

variable {w : UWord} {n : Nat}

theorem toNat_writeBit : writeBit.toNat = 2 ^ 63 := by decide

theorem toNat_and_readMask : (w &&& readMask).toNat = w.toNat % 2 ^ 63 := by
  rw [BitVec.toNat_and, show readMask.toNat = 2 ^ 63 - 1 by decide]
  exact Nat.and_two_pow_sub_one_eq_mod ..

/-- The count of a word below the write bit. -/
theorem readLocked_eq : readLocked w = decide (w.toNat % 2 ^ 63 ≠ 0) := by
  rw [readLocked, Bool.eq_iff_iff, bne_iff_ne, decide_eq_true_iff, ne_eq, ne_eq, BitVec.toNat_eq,
    toNat_and_readMask]
  rfl

theorem writeLocked_eq : writeLocked w = decide (2 ^ 63 ≤ w.toNat) := by
  have hw := w.isLt
  rw [writeLocked, Bool.eq_iff_iff, bne_iff_ne, decide_eq_true_iff, ne_eq, BitVec.toNat_eq,
    BitVec.toNat_and, toNat_writeBit, Nat.and_two_pow, Nat.testBit_eq_decide_div_mod_eq]
  by_cases h : 2 ^ 63 ≤ w.toNat
  · rw [show w.toNat / 2 ^ 63 % 2 = 1 by omega]
    exact iff_of_true (by decide) h
  · rw [show w.toNat / 2 ^ 63 % 2 = 0 by omega]
    exact iff_of_false (by decide) h

theorem toNat_or_writeBit (h : w.toNat < 2 ^ 63) : (w ||| writeBit).toNat = w.toNat + 2 ^ 63 := by
  rw [BitVec.toNat_or, toNat_writeBit]
  exact asLocked_of_lt h

end Words

/-! ## 3. One access -/

namespace RwPc

/-- The thread has a read section: `lock_shared` has counted it in. -/
def inside : RwPc → Bool
  | .sharedAssert | .reading => true
  | _ => false

/-- The thread is counted in the word: it has a read section, or is still to undo its increment. -/
def counted : RwPc → Bool
  | .undo => true
  | pc => pc.inside

/-- The thread has set the write bit. -/
def hasBit : RwPc → Bool
  | .waitForReaders | .writing => true
  | _ => false

/-- What a thread knows of a word it has loaded, and no assertion has failed. -/
def Ok : RwPc → Prop
  | .sharedCas w | .requestCas w => w.toNat < 2 ^ 63
  | .failed => False
  | _ => True

theorem counted_of_inside {pc : RwPc} (h : pc.inside = true) : pc.counted = true := by
  cases pc <;> first | rfl | cases h

end RwPc

/-- What an access does to the word and the place, where the word counts `c` readers and `b` writers. -/
structure RwAccess (c b : Nat) (w : UWord) (pc : RwPc) (w' : UWord) (pc' : RwPc) : Prop where
  ok : pc'.Ok
  word : w'.toNat + pc.counted.toNat + pc.hasBit.toNat * 2 ^ 63 =
    w.toNat + pc'.counted.toNat + pc'.hasBit.toNat * 2 ^ 63
  hasBit : pc'.hasBit = true → pc.hasBit = true ∨ b = 0
  writing : pc' = .writing → pc = .writing ∨ c = 0
  inside : pc'.inside = true → pc.inside = true ∨ b = 0

/-- **Every access**, by the place of the thread. -/
theorem rwAccess_spec {c b : Nat} {w : UWord} {pc : RwPc} (call : RwCall) (spurious : Bool)
    (hok : pc.Ok) (hw : w.toNat = c + b * 2 ^ 63) (hc : c < 2 ^ 63) (hb : b ≤ 1)
    (hroom : pc.counted = false → c + 1 < 2 ^ 63) (hcount : pc.counted = true → 1 ≤ c)
    (hbit : pc.hasBit = true → b = 1) :
    RwAccess c b w pc (rwAccess w call spurious pc).1 (rwAccess w call spurious pc).2 := by
  have hread : readLocked w = decide (c ≠ 0) := by
    rw [readLocked_eq, hw, Nat.add_mul_mod_self_right, Nat.mod_eq_of_lt hc]
  have hwrite : writeLocked w = decide (b ≠ 0) := by
    rw [writeLocked_eq, decide_eq_decide]
    omega
  have hsub : 1 ≤ c → (w - 1).toNat = w.toNat - 1 := fun h => by
    refine BitVec.toNat_sub_of_le (BitVec.le_def.mpr ?_)
    show 1 ≤ w.toNat
    omega
  have hadd : c + 1 < 2 ^ 63 → (w + 1).toNat = w.toNat + 1 := fun h => by
    rw [BitVec.toNat_add]
    refine Nat.mod_eq_of_lt ?_
    show w.toNat + 1 < 2 ^ 64
    omega
  cases pc with
  | idle =>
      have hroom := hroom rfl
      cases call with
      | lockShared =>
        simp only [rwAccess, hwrite, decide_eq_true_eq]
        split
        · exact ⟨trivial, by rw [hadd hroom]; rfl, nofun, nofun, nofun⟩
        · exact ⟨trivial, by rw [hadd hroom]; rfl, nofun, nofun, fun _ => Or.inr (by omega)⟩
      | lock =>
        simp only [rwAccess]
        split
        · rename_i h
          have hzero : w.toNat = 0 := by rw [h.1]; rfl
          have hset : writeBit.toNat + 0 + 0 * 2 ^ 63 = w.toNat + 0 + 1 * 2 ^ 63 := by
            rw [toNat_writeBit, hzero]
            omega
          exact ⟨trivial, hset, fun _ => Or.inr (by omega), fun _ => Or.inr (by omega), nofun⟩
        · exact ⟨trivial, rfl, nofun, nofun, nofun⟩
  | undo =>
      have hcount := hcount rfl
      have hundo : (w - 1).toNat + 1 + 0 * 2 ^ 63 = w.toNat + 0 + 0 * 2 ^ 63 := by
        rw [hsub hcount]
        omega
      exact ⟨trivial, hundo, nofun, nofun, nofun⟩
  | sharedLoad =>
      simp only [rwAccess, hwrite, decide_eq_true_eq]
      split
      · exact ⟨trivial, rfl, nofun, nofun, nofun⟩
      · refine ⟨?_, rfl, nofun, nofun, nofun⟩
        show w.toNat < 2 ^ 63
        omega
  | sharedCas r =>
      have hr : r.toNat < 2 ^ 63 := hok
      have hnext := hadd (hroom rfl)
      simp only [rwAccess]
      split
      · rename_i h
        obtain ⟨rfl, _⟩ := h
        exact ⟨trivial, by rw [hnext]; rfl, nofun, nofun, fun _ => Or.inr (by omega)⟩
      · exact ⟨trivial, rfl, nofun, nofun, nofun⟩
  | sharedAssert =>
      have hcount := hcount rfl
      simp only [rwAccess, hread, decide_eq_true_eq]
      rw [if_pos (by omega)]
      exact ⟨trivial, rfl, nofun, nofun, fun _ => Or.inl rfl⟩
  | reading =>
      have hcount := hcount rfl
      simp only [rwAccess, hread, decide_eq_true_eq]
      rw [if_pos (by omega)]
      have hundo : (w - 1).toNat + 1 + 0 * 2 ^ 63 = w.toNat + 0 + 0 * 2 ^ 63 := by
        rw [hsub hcount]
        omega
      exact ⟨trivial, hundo, nofun, nofun, nofun⟩
  | requestLoad =>
      simp only [rwAccess, hwrite, decide_eq_true_eq]
      split
      · exact ⟨trivial, rfl, nofun, nofun, nofun⟩
      · refine ⟨?_, rfl, nofun, nofun, nofun⟩
        show w.toNat < 2 ^ 63
        omega
  | requestCas r =>
      have hr : r.toNat < 2 ^ 63 := hok
      simp only [rwAccess]
      split
      · rename_i h
        obtain ⟨rfl, _⟩ := h
        have hset : (w ||| writeBit).toNat + 0 + 0 * 2 ^ 63 = w.toNat + 0 + 1 * 2 ^ 63 := by
          rw [toNat_or_writeBit hr]
          omega
        rw [hread]
        split
        · exact ⟨trivial, hset, fun _ => Or.inr (by omega), nofun, nofun⟩
        · rename_i h
          refine ⟨trivial, hset, fun _ => Or.inr (by omega), fun _ => Or.inr ?_, nofun⟩
          simpa using h
      · exact ⟨trivial, rfl, nofun, nofun, nofun⟩
  | waitForReaders =>
      simp only [rwAccess, hread, decide_eq_true_eq]
      split
      · exact ⟨trivial, rfl, fun _ => Or.inl rfl, nofun, nofun⟩
      · exact ⟨trivial, rfl, fun _ => Or.inl rfl, fun _ => Or.inr (by omega), nofun⟩
  | writing =>
      have hbit := hbit rfl
      simp only [rwAccess, hwrite, decide_eq_true_eq]
      rw [if_pos (by omega)]
      have hclear : (w &&& readMask).toNat + 0 + 1 * 2 ^ 63 = w.toNat + 0 + 0 * 2 ^ 63 := by
        rw [toNat_and_readMask]
        omega
      exact ⟨trivial, hclear, nofun, nofun, nofun⟩
  | failed => exact hok.elim

/-! ## 4. The invariant -/

namespace Rw

variable {τ : Type} [Fintype τ]

/-- The number of threads at places with `p`. -/
def count (m : Rw τ) (p : RwPc → Bool) : Nat := (Finset.univ.filter fun t => p (m.pc t) = true).card

/-- A move of one thread changes the number by that thread. -/
theorem count_step [DecidableEq τ] (m : Rw τ) (t : τ) (call : RwCall) (spurious : Bool)
    (p : RwPc → Bool) : (m.step t call spurious).count p + (p (m.pc t)).toNat =
      m.count p + (p ((m.step t call spurious).pc t)).toNat := by
  simp only [count, Finset.card_filter]
  rw [← Finset.add_sum_erase _ _ (Finset.mem_univ t), ← Finset.add_sum_erase Finset.univ
    (fun u => if p (m.pc u) = true then 1 else 0) (Finset.mem_univ t)]
  have hrest : ∑ u ∈ Finset.univ.erase t, (if p ((m.step t call spurious).pc u) = true then 1 else 0) =
      ∑ u ∈ Finset.univ.erase t, if p (m.pc u) = true then 1 else 0 :=
    Finset.sum_congr rfl fun u hu => by rw [pc_step_ne _ (Finset.ne_of_mem_erase hu)]
  rw [hrest]
  cases p (m.pc t) <;> cases p ((m.step t call spurious).pc t) <;> simp <;> omega

variable {m : Rw τ} {p : RwPc → Bool}

theorem count_pos {t : τ} (h : p (m.pc t) = true) : 1 ≤ m.count p :=
  Finset.card_pos.mpr ⟨t, by simpa using h⟩

theorem not_of_count_eq_zero (h : m.count p = 0) (t : τ) : p (m.pc t) = false := by
  by_contra hp
  have := count_pos (m := m) (p := p) (t := t) (by simpa using hp)
  omega

theorem count_le : m.count p ≤ Fintype.card τ := Finset.card_le_univ _

/-- A thread that is not counted leaves room for one. -/
theorem count_lt {t : τ} (h : p (m.pc t) = false) : m.count p < Fintype.card τ := by
  refine Finset.card_lt_univ_of_notMem (x := t) ?_
  simp [h]

theorem eq_of_count_le_one (h : m.count p ≤ 1) {t u : τ} (ht : p (m.pc t) = true)
    (hu : p (m.pc u) = true) : t = u :=
  Finset.card_le_one.mp h t (by simpa using ht) u (by simpa using hu)

end Rw

section Invariant

variable {τ : Type} [Fintype τ]

/-- What the word and the threads satisfy. -/
structure RwInv (m : Rw τ) : Prop where
  ok : ∀ t, (m.pc t).Ok
  word : m.readCount.toNat = m.count RwPc.counted + m.count RwPc.hasBit * 2 ^ 63
  one : m.count RwPc.hasBit ≤ 1
  exclusive : ∀ t u, m.pc t = .writing → (m.pc u).inside = false

theorem rwInv_init : RwInv (Rw.init : Rw τ) where
  ok _ := trivial
  word := by simp [Rw.count, Rw.init, RwPc.counted, RwPc.inside, RwPc.hasBit]
  one := by simp [Rw.count, Rw.init, RwPc.hasBit]
  exclusive _ _ h := by cases h

variable [DecidableEq τ]

omit [DecidableEq τ] in
/-- An access in a state in which the invariant holds. -/
theorem RwInv.access {m : Rw τ} (hcard : Fintype.card τ < 2 ^ 63) (h : RwInv m) (t : τ)
    (call : RwCall) (spurious : Bool) :
    RwAccess (m.count RwPc.counted) (m.count RwPc.hasBit) m.readCount (m.pc t)
      (rwAccess m.readCount call spurious (m.pc t)).1
      (rwAccess m.readCount call spurious (m.pc t)).2 :=
  rwAccess_spec call spurious (h.ok t) h.word (Rw.count_le.trans_lt hcard) h.one
    (fun ht => (Nat.succ_le_of_lt (Rw.count_lt ht)).trans_lt hcard) Rw.count_pos
    fun ht => le_antisymm h.one (Rw.count_pos ht)

/-- **An access of one thread keeps the invariant.** -/
theorem RwInv.step {m : Rw τ} (hcard : Fintype.card τ < 2 ^ 63) (h : RwInv m) (t : τ) (call : RwCall)
    (spurious : Bool) : RwInv (m.step t call spurious) := by
  have hacc := h.access hcard t call spurious
  have hcounted := m.count_step t call spurious RwPc.counted
  have hbits := m.count_step t call spurious RwPc.hasBit
  rw [Rw.pc_step_self] at hcounted hbits
  refine ⟨fun u => ?_, ?_, ?_, fun u v hu => ?_⟩
  · by_cases hut : u = t
    · subst hut
      rw [Rw.pc_step_self]
      exact hacc.ok
    · rw [Rw.pc_step_ne m hut]
      exact h.ok u
  · have hold := h.word
    have hnew := hacc.word
    rw [Rw.readCount_step]
    omega
  · have hone := h.one
    have hbit := hacc.hasBit
    cases hpc' : (rwAccess m.readCount call spurious (m.pc t)).2.hasBit with
    | false =>
      rw [hpc', Bool.toNat_false] at hbits
      omega
    | true =>
      rw [hpc', Bool.toNat_true] at hbits
      rcases hbit hpc' with hpc | hzero
      · rw [hpc, Bool.toNat_true] at hbits
        omega
      · omega
  · -- the thread that enters a section finds the other kind gone
    have inside_of_ne : ∀ {x}, x ≠ t → ((m.step t call spurious).pc x).inside = (m.pc x).inside :=
      fun hx => by rw [Rw.pc_step_ne m hx]
    by_cases hut : u = t
    · subst hut
      rw [Rw.pc_step_self] at hu
      by_cases hvt : v = u
      · rw [hvt, Rw.pc_step_self, hu]
        rfl
      · rw [inside_of_ne hvt]
        rcases hacc.writing hu with hw | hzero
        · exact h.exclusive u v hw
        · have hno := Rw.not_of_count_eq_zero hzero v
          cases hin : (m.pc v).inside with
          | false => rfl
          | true => rw [RwPc.counted_of_inside hin] at hno; cases hno
    · rw [Rw.pc_step_ne m hut] at hu
      by_cases hvt : v = t
      · subst hvt
        rw [Rw.pc_step_self]
        cases hin : (rwAccess m.readCount call spurious (m.pc v)).2.inside with
        | false => rfl
        | true =>
          rcases hacc.inside hin with hi | hzero
          · rw [h.exclusive u v hu] at hi
            cases hi
          · have hno := Rw.not_of_count_eq_zero hzero u
            rw [hu] at hno
            cases hno
      · rw [inside_of_ne hvt]
        exact h.exclusive u v hu

/-- **In every state reached the invariant holds.** -/
theorem rwInv_reach {m : Rw τ} (hcard : Fintype.card τ < 2 ^ 63) (h : Rw.Reach m) : RwInv m := by
  induction h with
  | init => exact rwInv_init
  | step _ t call spurious ih => exact ih.step hcard t call spurious

/-! ## 5. Exclusion -/

/-- A reader that has met a writer and has not undone its increment. -/
def RwPc.undoing (pc : RwPc) : Bool := decide (pc = .undo)

omit [DecidableEq τ] in
theorem Rw.count_counted (m : Rw τ) :
    m.count RwPc.counted = m.count RwPc.inside + m.count RwPc.undoing := by
  simp only [Rw.count, Finset.card_filter]
  rw [← Finset.sum_add_distrib]
  refine Finset.sum_congr rfl fun t _ => ?_
  cases m.pc t <;> rfl

/-- What the mutex promises. -/
structure RwSafe (m : Rw τ) : Prop where
  writers : ∀ t u, m.pc t = .writing → m.pc u = .writing → t = u
  readers : ∀ t u, m.pc t = .writing → (m.pc u).inside = false
  lowBits : m.readCount.toNat % 2 ^ 63 = m.count RwPc.inside + m.count RwPc.undoing
  noCarry : m.count RwPc.inside + m.count RwPc.undoing < 2 ^ 63
  topBit : writeLocked m.readCount = true ↔ ∃ t, (m.pc t).hasBit = true
  asserted : ∀ t, m.pc t ≠ .failed
  unlocked : (∀ t, m.pc t = .idle) → m.readCount = 0

/-- **`fast_rw_mutex` gives reader-writer exclusion**, in every interleaving of fewer than 2^63 threads:
    no writer is inside beside another thread, the low bits are exactly the readers inside and those that
    are still to undo their increment, and no assertion fails. -/
theorem fast_rw_mutex_exclusion (hcard : Fintype.card τ < 2 ^ 63) {m : Rw τ} (h : Rw.Reach m) :
    RwSafe m := by
  have hi := rwInv_reach hcard h
  have hlow : m.count RwPc.counted < 2 ^ 63 := Rw.count_le.trans_lt hcard
  have hone := hi.one
  have hword := hi.word
  refine ⟨fun t u ht hu => ?_, hi.exclusive, ?_, ?_, ?_, fun t hf => ?_, fun hidle => ?_⟩
  · exact Rw.eq_of_count_le_one hi.one (p := RwPc.hasBit) (by rw [ht]; rfl) (by rw [hu]; rfl)
  · rw [← Rw.count_counted, hi.word, Nat.add_mul_mod_self_right, Nat.mod_eq_of_lt hlow]
  · rwa [← Rw.count_counted]
  · rw [writeLocked_eq, decide_eq_true_eq]
    constructor
    · intro hge
      have hpos : 0 < m.count RwPc.hasBit := by omega
      obtain ⟨t, ht⟩ := Finset.card_pos.mp hpos
      exact ⟨t, (Finset.mem_filter.mp ht).2⟩
    · rintro ⟨t, ht⟩
      have hpos := Rw.count_pos ht
      omega
  · have hok := hi.ok t
    rw [hf] at hok
    exact hok
  · have hzero : ∀ p : RwPc → Bool, p .idle = false → m.count p = 0 := fun p hp => by
      simp [Rw.count, hidle, hp]
    rw [hzero _ rfl, hzero _ rfl] at hword
    exact BitVec.eq_of_toNat_eq hword

/-- A reader is inside and a writer has set the bit; a second reader has met it. -/
def writerWaits : Rw (Fin 3) :=
  (((Rw.init.step 0 .lockShared false).step 1 .lock false).step 1 .lock false).step 1 .lock false
    |>.step 2 .lockShared false

theorem fast_rw_mutex_exclusion_writerWaits :
    writerWaits.readCount = writeBit + 2 ∧ writerWaits.pc 1 = .waitForReaders ∧ RwSafe writerWaits :=
  ⟨by decide, by decide, fast_rw_mutex_exclusion (by decide)
    (((((Rw.Reach.init.step 0 .lockShared false).step 1 .lock false).step 1 .lock false).step 1 .lock
      false).step 2 .lockShared false)⟩

/-! ## 6. The lock the callers see -/

/-- The sections the threads are in. -/
def RwInv.sections {m : Rw τ} (h : RwInv m) : RwLock τ where
  writers := Finset.univ.filter fun t => m.pc t = .writing
  readers := Finset.univ.filter fun t => (m.pc t).inside = true
  single t ht u hu := by
    rw [Finset.mem_filter] at ht hu
    exact Rw.eq_of_count_le_one h.one (p := RwPc.hasBit) (by rw [ht.2]; rfl) (by rw [hu.2]; rfl)
  exclusive t ht u hu := by
    rw [Finset.mem_filter] at ht hu
    rw [h.exclusive t u ht.2] at hu
    exact Bool.false_ne_true hu.2

/-- What an access does to the section its thread is in. -/
inductive SectionChange (pc pc' : RwPc) : Prop where
  | stay (hin : pc'.inside = pc.inside) (hw : pc' = .writing ↔ pc = .writing)
  | enterShared (hin : pc.inside = false) (hin' : pc'.inside = true)
      (hw : pc ≠ .writing ∧ pc' ≠ .writing)
  | leaveShared (hin : pc.inside = true) (hin' : pc'.inside = false)
      (hw : pc ≠ .writing ∧ pc' ≠ .writing)
  | enter (hw : pc ≠ .writing) (hw' : pc' = .writing) (hin : pc.inside = false)
  | leave (hw : pc = .writing) (hw' : pc' ≠ .writing) (hin' : pc'.inside = false)

theorem rwAccess_sections (w : UWord) (call : RwCall) (spurious : Bool) (pc : RwPc) :
    SectionChange pc (rwAccess w call spurious pc).2 := by
  cases pc with
  | idle =>
      cases call with
      | lockShared =>
        simp only [rwAccess]
        split
        · exact .stay rfl (by decide)
        · exact .enterShared rfl rfl (by decide)
      | lock =>
        simp only [rwAccess]
        split
        · exact .enter (by decide) rfl rfl
        · exact .stay rfl (iff_of_false nofun nofun)
  | undo => exact .stay rfl (iff_of_false nofun nofun)
  | sharedLoad =>
      simp only [rwAccess]
      split <;> exact .stay rfl (iff_of_false nofun nofun)
  | sharedCas r =>
      simp only [rwAccess]
      split
      · exact .enterShared rfl rfl ⟨nofun, nofun⟩
      · exact .stay rfl (iff_of_false nofun nofun)
  | sharedAssert =>
      simp only [rwAccess]
      split
      · exact .stay rfl (by decide)
      · exact .leaveShared rfl rfl (by decide)
  | reading =>
      simp only [rwAccess]
      split <;> exact .leaveShared rfl rfl (by decide)
  | requestLoad =>
      simp only [rwAccess]
      split <;> exact .stay rfl (iff_of_false nofun nofun)
  | requestCas r =>
      simp only [rwAccess]
      split
      · split
        · exact .stay rfl (iff_of_false nofun nofun)
        · exact .enter nofun rfl rfl
      · exact .stay rfl (iff_of_false nofun nofun)
  | waitForReaders =>
      simp only [rwAccess]
      split
      · exact .stay rfl (by decide)
      · exact .enter (by decide) rfl rfl
  | writing =>
      simp only [rwAccess]
      split <;> exact .leave rfl (by decide) rfl
  | failed => exact .stay rfl (iff_of_false nofun nofun)

/-- **To its callers the mutex is a reader-writer lock**: an access of a thread changes nothing, or is
    one operation of the lock by that thread. -/
theorem RwInv.refines {m : Rw τ} (hcard : Fintype.card τ < 2 ^ 63) (h : RwInv m) (t : τ)
    (call : RwCall) (spurious : Bool) :
    let l := h.sections
    let l' := (h.step hcard t call spurious).sections
    l' = l ∨ l.lockShared t = some l' ∨ l.unlockShared t = some l' ∨ l.lock t = some l' ∨
      l.unlock t = some l' := by
  intro l l'
  have hw : ∀ u, u ∈ l.writers ↔ m.pc u = .writing := fun u => by simp [l, RwInv.sections]
  have hr : ∀ u, u ∈ l.readers ↔ (m.pc u).inside = true := fun u => by simp [l, RwInv.sections]
  have hw' : ∀ u, u ∈ l'.writers ↔ (m.step t call spurious).pc u = .writing := fun u => by
    simp [l', RwInv.sections]
  have hr' : ∀ u, u ∈ l'.readers ↔ ((m.step t call spurious).pc u).inside = true := fun u => by
    simp [l', RwInv.sections]
  have hacc := h.access hcard t call spurious
  have noWriter : m.count RwPc.hasBit = 0 → ∀ u, u ∉ l.writers := fun hzero u hu => by
    have hno := Rw.not_of_count_eq_zero hzero u
    rw [(hw u).mp hu] at hno
    cases hno
  have same : ∀ {u}, u ≠ t → (m.step t call spurious).pc u = m.pc u := fun hu => m.pc_step_ne hu ..
  have hself := m.pc_step_self t call spurious
  cases rwAccess_sections m.readCount call spurious (m.pc t) with
  | stay hin hwr =>
      refine Or.inl (RwLock.ext (Finset.ext fun u => ?_) (Finset.ext fun u => ?_))
      · rw [hw, hw']
        by_cases hu : u = t
        · rw [hu, hself, hwr]
        · rw [same hu]
      · rw [hr, hr']
        by_cases hu : u = t
        · rw [hu, hself, hin]
        · rw [same hu]
  | enterShared hin hin' hwr =>
      have hzero := (hacc.inside hin').resolve_left (by rw [hin]; exact Bool.false_ne_true)
      refine Or.inr (Or.inl (RwLock.lockShared_of_mem (noWriter hzero) (fun u => ?_) fun u => ?_))
      · rw [hw']
        by_cases hu : u = t
        · rw [hu, hself]
          exact hwr.2
        · rw [same hu, ← hw]
          exact noWriter hzero u
      · rw [hr, hr']
        by_cases hu : u = t
        · rw [hu, hself, hin']
          simp
        · rw [same hu]
          exact (or_iff_right hu).symm
  | leaveShared hin hin' hwr =>
      refine Or.inr (Or.inr (Or.inl (RwLock.unlockShared_of_mem ((hr t).mpr hin) (fun u => ?_)
        fun u => ?_)))
      · rw [hw, hw']
        by_cases hu : u = t
        · rw [hu, hself]
          exact iff_of_false hwr.2 hwr.1
        · rw [same hu]
      · rw [hr, hr']
        by_cases hu : u = t
        · rw [hu, hself, hin']
          simp
        · rw [same hu]
          exact (and_iff_right hu).symm
  | enter hwr hwr' hin =>
      have hzero : m.count RwPc.counted = 0 := (hacc.writing hwr').resolve_left hwr
      have hnone : ∀ u, u ∉ l.writers := by
        rcases hacc.hasBit (by rw [hwr']; rfl) with hbit | hb
        · intro u hu
          have hut := Rw.eq_of_count_le_one h.one (p := RwPc.hasBit) (t := u)
            (by rw [(hw u).mp hu]; rfl) hbit
          exact hwr (hut ▸ (hw u).mp hu)
        · exact noWriter hb
      have hno : ∀ u, (m.pc u).inside = false := fun u => by
        have := Rw.not_of_count_eq_zero hzero u
        cases hi : (m.pc u).inside with
        | false => rfl
        | true => rw [RwPc.counted_of_inside hi] at this; cases this
      refine Or.inr (Or.inr (Or.inr (Or.inl (RwLock.lock_of_mem (fun u => ⟨hnone u, ?_⟩) (fun u => ?_)
        fun u => ?_))))
      · rw [hr, hno u]
        exact Bool.false_ne_true
      · rw [hw']
        by_cases hu : u = t
        · rw [hu, hself]
          exact iff_of_true hwr' rfl
        · rw [same hu, ← hw]
          exact iff_of_false (hnone u) hu
      · rw [hr']
        by_cases hu : u = t
        · rw [hu, hself, hwr']
          exact Bool.false_ne_true
        · rw [same hu, hno u]
          exact Bool.false_ne_true
  | leave hwr hwr' hin' =>
      refine Or.inr (Or.inr (Or.inr (Or.inr (RwLock.unlock_of_mem ((hw t).mpr hwr) (fun u => ?_)
        fun u => ?_))))
      · rw [hw']
        by_cases hu : u = t
        · rw [hu, hself]
          exact hwr'
        · rw [same hu, ← hw]
          exact fun hu' => hu (l.single u hu' t ((hw t).mpr hwr))
      · rw [hr, hr']
        by_cases hu : u = t
        · rw [hu, hself, hin', hwr]
          rfl
        · rw [same hu]

end Invariant

end LockfreeStm
