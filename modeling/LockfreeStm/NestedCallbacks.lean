/-
  File:      LockfreeStm/NestedCallbacks.lean
  Subject:   SUCCESS CALLBACKS THAT RUN TRANSACTIONS.

  A success callback may run transactions of its thread, as the destructor behind `destroy_deallocate` does.
  They register callbacks in the buffer whose oldest chunk is being run: `do_first_epoch_callbacks` keeps the
  index it stands at in a local, and moves `ring_begin` behind its last callback only. If such a transaction
  brings the buffer to `ReclaimLimit`, its commit runs the same chunk again from its first callback on; if one
  of its attempts fills the buffer, `reserve_more` moves every element, the index stays, and the buffer in
  which the running closure lies is freed.

  One thread is modelled, over the ring buffer of the source: the functions of the reclaimer that have not
  returned are frames on a stack. What the other threads do to it, the minimum that
  `synchronize_min_epoch` returns, is an input of every step.

  * `Refines.commit` -- what a transaction does to the buffer, and when the buffer does not grow.
  * `Reclaimer.Inv`, `Inv.step` -- where no callback's transaction does one of the two, what has run and
    what is left are what has been registered, and every step costs.
  * `callbacks_run_once` -- **the main result**, for these runs.
  * `callbacks_run_twice`, `unregistered_runs`, `captured_freed` -- in others a callback runs twice, or a slot
    that holds none, or a running closure is freed.
-/
import LockfreeStm.QuiescenceRefinement

namespace LockfreeStm

variable {κ : Type}

/-! ## 1. Transactions over the buffer -/

/-- A transaction that has committed: what its aborted attempts have registered, what the last one has, and
    the epoch `try_commit` returns. -/
structure CommittedTx (κ : Type) where
  aborted : List (List κ)
  callbacks : List κ
  epoch : Epoch

/-- The callbacks of a transaction with their numbers, from `n` on. -/
def CommittedTx.numbered (tx : CommittedTx κ) (n : Nat) : CommittedTx (κ × Nat) where
  aborted := tx.aborted.map (·.zipIdx n)
  callbacks := tx.callbacks.zipIdx n
  epoch := tx.epoch

namespace QuiescenceBuffer

/-- `sometime_synchronized_after`, for every callback of an attempt. -/
def emplaceAll (b : QuiescenceBuffer κ) : List κ → Option (QuiescenceBuffer κ)
  | [] => some b
  | c :: cs => (b.emplaceBack c).bind (·.emplaceAll cs)

/-- The attempts that abort: `tx_failure` clears the working epoch. -/
def abortAll (b : QuiescenceBuffer κ) : List (List κ) → Option (QuiescenceBuffer κ)
  | [] => some b
  | cs :: rest => (b.emplaceAll cs).bind fun b => b.clearWorkingEpoch.bind (·.abortAll rest)

/-- A transaction from its start to `finalize_epoch` in `reclaim`. -/
def commit (reclaimLimit : UWord) (b : QuiescenceBuffer κ) (tx : CommittedTx κ) :
    Option (QuiescenceBuffer κ × Bool) :=
  if b.workingEpochEmpty then
    (b.abortAll tx.aborted).bind fun b =>
      (b.emplaceAll tx.callbacks).bind (·.finalizeEpoch reclaimLimit tx.epoch)
  else none

end QuiescenceBuffer

/-! ## 2. The reclaimer -/

/-- The loop around `do_succ_callbacks_front`. -/
inductive ReclaimLoop where
  | reclaimAll
  | reclaimAllPossible (minEpoch : Epoch)
deriving DecidableEq

/-- Its condition. -/
def ReclaimLoop.goesOn (b : QuiescenceBuffer κ) : ReclaimLoop → Option Bool
  | .reclaimAll => some (!b.empty)
  | .reclaimAllPossible minEpoch =>
      if b.empty then some false else b.frontEpoch.map fun e => decide (e < minEpoch)

/-- A call that has not returned. -/
inductive CallFrame (κ : Type) where
  /-- a callback, with the transactions it has still to run, and whether the buffer in which its closure lies
      has been freed: what the closure has captured is then gone -/
  | callback (left : List (CommittedTx κ)) (freed : Bool)
  /-- the loop of `do_first_epoch_callbacks`, at `cur_idx` -/
  | firstEpoch (curIdx endIdx curSize : UWord)
  /-- the loop of `reclaim_all` or `reclaim_all_possible` -/
  | reclaim (loop : ReclaimLoop)

/-- `reserve_more` frees the buffer. -/
def CallFrame.free : CallFrame κ → CallFrame κ
  | .callback left _ => .callback left true
  | f => f

/-- A thread: its buffer, the transactions it has still to run, the calls that have not returned, and, as
    history, the callbacks of its committed transactions and those that have run, in order. A callback
    carries the number it is registered under. -/
structure Reclaimer (κ : Type) where
  buffer : QuiescenceBuffer (κ × Nat)
  todo : List (CommittedTx κ)
  exited : Bool
  frames : List (CallFrame κ)
  registered : List (κ × Nat)
  ran : List (κ × Nat)

namespace Reclaimer

/-- A new thread. -/
def init (reclaimLimit : UWord) (txs : List (CommittedTx κ)) : Reclaimer κ :=
  ⟨.init reclaimLimit, txs, false, [], [], []⟩

/-- The head of `do_first_epoch_callbacks`. -/
def enterFirstEpoch (s : Reclaimer κ) : Option (Reclaimer κ) :=
  s.buffer.firstEpochSize.map fun curSize =>
    { s with frames := .firstEpoch (s.buffer.ringBegin + 1) (s.buffer.ringBegin + curSize) curSize :: s.frames }

/-- A transaction commits: `tx_success` and `reclaim`. -/
def commit (reclaimLimit : UWord) (minEpoch : Epoch) (s : Reclaimer κ) (tx : CommittedTx κ) :
    Option (Reclaimer κ) :=
  (s.buffer.commit reclaimLimit (tx.numbered s.registered.length)).bind fun (b, limitReached) =>
    let s := { s with
      buffer := b
      -- the capacity tells whether `reserve_more` has been called
      frames := if b.capacity = s.buffer.capacity then s.frames else s.frames.map .free
      registered := s.registered ++ tx.callbacks.zipIdx s.registered.length }
    if limitReached then
      -- `reclaim_slow_path`
      s.buffer.frontEpoch.bind fun _ =>
        { s with frames := .reclaim (.reclaimAllPossible minEpoch) :: s.frames }.enterFirstEpoch
    else some s

/-- One step of the thread, where callback `c` runs the transactions `prog c`. The destructor of its
    `thread_data` comes behind its transactions. -/
def step (prog : κ → List (CommittedTx κ)) (reclaimLimit : UWord) (minEpoch : Epoch) (s : Reclaimer κ) :
    Option (Reclaimer κ) :=
  match s.frames with
  | [] =>
      match s.todo with
      | tx :: rest => { s with todo := rest }.commit reclaimLimit minEpoch tx
      | [] =>
          if s.exited || !s.buffer.workingEpochEmpty then none
          else if s.buffer.empty then some { s with exited := true }
          else s.buffer.backEpoch.bind fun _ =>
            { s with exited := true, frames := [.reclaim .reclaimAll] }.enterFirstEpoch
  | .callback (tx :: left) freed :: rest =>
      { s with frames := .callback left freed :: rest }.commit reclaimLimit minEpoch tx
  | .callback [] _ :: rest => some { s with frames := rest }
  | .firstEpoch curIdx endIdx curSize :: rest =>
      if curIdx = endIdx then
        (s.buffer.dropFirstEpoch curIdx curSize).map fun b => { s with buffer := b, frames := rest }
      else
        (s.buffer.callback? (s.buffer.wrap curIdx)).map fun c =>
          { s with
            frames := .callback (prog c.1) false :: .firstEpoch (curIdx + 1) endIdx curSize :: rest
            ran := s.ran ++ [c] }
  | .reclaim loop :: rest =>
      (loop.goesOn s.buffer).bind fun more =>
        if more then s.enterFirstEpoch else some { s with frames := rest }

end Reclaimer

/-! ## 3. What a transaction does to the buffer -/

section Buffer

variable {b b' : QuiescenceBuffer κ} {q : EpochQueue κ} {limit : UWord}

/-- Two states of the buffer between which a transaction has run: the chunks are the same, and if the buffer
    has not grown, so is `ring_begin`. -/
structure SameFront (b : QuiescenceBuffer κ) (q : EpochQueue κ) (b' : QuiescenceBuffer κ) (q' : EpochQueue κ)
    (calm : Prop) : Prop where
  refines : Refines b' q'
  chunks : q'.chunks = q.chunks
  capacity_le : q.capacity ≤ q'.capacity
  capacity_eq : calm → q'.capacity = q.capacity
  ring : calm → b'.ringBegin = b.ringBegin

theorem SameFront.refl {calm : Prop} (h : Refines b q) : SameFront b q b q calm :=
  ⟨h, rfl, Nat.le_refl _, fun _ => rfl, fun _ => rfl⟩

theorem SameFront.trans {calm calm' calm'' : Prop} {b'' : QuiescenceBuffer κ} {q' q'' : EpochQueue κ}
    (h : SameFront b q b' q' calm) (h' : SameFront b' q' b'' q'' calm') (hc : calm'' → calm)
    (hc' : calm'' → calm') : SameFront b q b'' q'' calm'' where
  refines := h'.refines
  chunks := h'.chunks.trans h.chunks
  capacity_le := h.capacity_le.trans h'.capacity_le
  capacity_eq hcalm := (h'.capacity_eq (hc' hcalm)).trans (h.capacity_eq (hc hcalm))
  ring hcalm := (h'.ring (hc' hcalm)).trans (h.ring (hc hcalm))

theorem QuiescenceBuffer.ringBegin_store {i : UWord} {e : QuiescenceBufElem κ} (hb : b.store i e = some b') :
    b'.ringBegin = b.ringBegin := by
  unfold QuiescenceBuffer.store at hb
  split at hb
  · cases hb
    rfl
  · cases hb

/-- Where the buffer is not full `reserve_more` is not called. -/
theorem Represents.ringBegin_reserveIfFull (h : Represents b q) (hb : b.reserveIfFull = some b')
    (h' : Represents b' q.grow) (hlt : q.size < q.capacity) : b'.ringBegin = b.ringBegin := by
  unfold QuiescenceBuffer.reserveIfFull at hb
  split at hb
  · unfold QuiescenceBuffer.reserveMore at hb
    split at hb
    · rename_i hgrows
      -- the capacity has doubled, and it has not
      exfalso
      have hcap := h'.capacity
      rw [EpochQueue.grow, if_neg hlt.ne, ← h.capacity] at hcap
      cases hb
      simp only [Bool.and_eq_true, decide_eq_true_eq, BitVec.lt_def] at hgrows
      refine hgrows.2.ne ?_
      rw [← hcap, QuiescenceBuffer.capacity, BitVec.sub_add_cancel]
    · cases hb
  · cases hb
    rfl

theorem EpochQueue.size_uncheckedEmplaceBack (q : EpochQueue κ) (c : κ) :
    (q.uncheckedEmplaceBack c).size = q.size + 1 := by
  simp [EpochQueue.size, EpochQueue.uncheckedEmplaceBack, Nat.add_assoc]

/-- A queue that is full has less than half the words. -/
theorem EpochQueue.capacity_grow_lt {q : EpochQueue κ} (hcap : q.capacity < 2 ^ 64)
    (hsize : q.size < 2 ^ 63) : q.grow.capacity < 2 ^ 64 := by
  unfold EpochQueue.grow
  split
  · show q.capacity * 2 < 2 ^ 64
    omega
  · exact hcap

/-- `emplace_back`. -/
theorem Refines.emplaceBack (h : Refines b q) (c : κ) (hsize : q.size + 1 < 2 ^ 63) :
    ∃ b', b.emplaceBack c = some b' ∧
      SameFront b q b' (q.emplaceBack c) (q.size + 1 < q.capacity) := by
  obtain ⟨b1, hb1, h1⟩ := h.represents.construct h.room c
  have hs := q.size_uncheckedEmplaceBack c
  have hring : b1.ringBegin = b.ringBegin := by
    obtain ⟨b2, hs, rfl⟩ := Option.map_eq_some_iff.mp hb1
    have hr : b2.ringBegin = b.ringBegin := QuiescenceBuffer.ringBegin_store hs
    exact hr
  obtain ⟨b', hb', h', hlt⟩ := h1.reserveIfFull
    (EpochQueue.capacity_grow_lt h.represents.capacity_lt (by rw [hs]; exact hsize))
  refine ⟨b', by rw [QuiescenceBuffer.emplaceBack, hb1]; exact hb', h'.refines hlt, q.chunks_emplaceBack c,
    (q.uncheckedEmplaceBack c).capacity_grow_le, fun hcalm => ?_, fun hcalm => ?_⟩
  · rw [EpochQueue.emplaceBack, EpochQueue.grow, if_neg]
    · rfl
    · rw [hs]
      exact hcalm.ne
  · rw [← hring]
    refine h1.ringBegin_reserveIfFull hb' h' ?_
    rw [hs]
    exact hcalm

theorem EpochQueue.size_of_working {q q' : EpochQueue κ} {cs : List κ} (hc : q'.chunks = q.chunks)
    (hw : q'.working = q.working ++ cs) : q'.size = q.size + cs.length := by
  rw [EpochQueue.size, EpochQueue.size, hc, hw, List.length_append]
  omega

/-- The callbacks of an attempt. -/
theorem Refines.emplaceAll (h : Refines b q) (cs : List κ) (hsize : q.size + cs.length < 2 ^ 63) :
    ∃ b' q', b.emplaceAll cs = some b' ∧ q'.working = q.working ++ cs ∧
      SameFront b q b' q' (q.size + cs.length < q.capacity) := by
  induction cs generalizing b q with
  | nil => exact ⟨b, q, rfl, (List.append_nil _).symm, .refl h⟩
  | cons c cs ih =>
      rw [List.length_cons] at hsize
      obtain ⟨b1, hb1, h1⟩ := h.emplaceBack c (by omega)
      have hs1 : (q.emplaceBack c).size = q.size + 1 :=
        EpochQueue.size_of_working (q.chunks_emplaceBack c) (q.working_emplaceBack c)
      obtain ⟨b', q', hb', hw, h'⟩ := ih h1.refines (by omega)
      refine ⟨b', q', by rw [QuiescenceBuffer.emplaceAll, hb1]; exact hb', ?_, ?_⟩
      · rw [hw, EpochQueue.working_emplaceBack, List.append_assoc]
        rfl
      · refine h1.trans h' (fun hcalm => ?_) fun hcalm => ?_
        · rw [List.length_cons] at hcalm
          omega
        · rw [List.length_cons] at hcalm
          have hcap := h1.capacity_eq (by omega)
          omega

/-- The attempts that abort. -/
theorem Refines.abortAll (h : Refines b q) (hw : q.working = []) (aborted : List (List κ))
    (hsize : ∀ cs ∈ aborted, q.size + cs.length < 2 ^ 63) :
    ∃ b' q', b.abortAll aborted = some b' ∧ q'.working = [] ∧
      SameFront b q b' q' (∀ cs ∈ aborted, q.size + cs.length < q.capacity) := by
  induction aborted generalizing b q with
  | nil => exact ⟨b, q, rfl, hw, .refl h⟩
  | cons cs rest ih =>
      rw [List.forall_mem_cons] at hsize
      obtain ⟨b1, q1, hb1, hw1, h1⟩ := h.emplaceAll cs hsize.1
      obtain ⟨b2, hb2, h2, hlt2⟩ := h1.refines.represents.clearWorkingEpoch h1.refines.room
      have hring : b2.ringBegin = b1.ringBegin := by
        unfold QuiescenceBuffer.clearWorkingEpoch at hb2
        split at hb2
        · cases hb2
          rfl
        · cases hb2
      have hw2 : q1.clearWorkingEpoch.working = q.working ++ [] := by rw [hw]; rfl
      have hc2 : q1.clearWorkingEpoch.chunks = q.chunks := h1.chunks
      have hs : q1.clearWorkingEpoch.size = q.size := EpochQueue.size_of_working hc2 hw2
      have h12 : SameFront b q b2 q1.clearWorkingEpoch (q.size + cs.length < q.capacity) :=
        ⟨h2.refines hlt2, h1.chunks, h1.capacity_le, h1.capacity_eq, fun hc => hring.trans (h1.ring hc)⟩
      obtain ⟨b', q', hb', hw', h'⟩ := ih (h2.refines hlt2) rfl (by rw [hs]; exact hsize.2)
      refine ⟨b', q', by rw [QuiescenceBuffer.abortAll, hb1, Option.bind_some, hb2]; exact hb', hw', ?_⟩
      refine h12.trans h' (fun hcalm => hcalm cs List.mem_cons_self) fun hcalm d hd => ?_
      have hcap := h12.capacity_eq (hcalm cs List.mem_cons_self)
      have := hcalm d (List.mem_cons_of_mem _ hd)
      omega

theorem EpochQueue.size_pushChunk (q : EpochQueue κ) (e : Epoch) : (q.pushChunk e).size = q.size + 1 := by
  simp [EpochQueue.size, EpochQueue.pushChunk, Nat.add_assoc]

/-- Where the queue does not grow neither does the buffer. -/
theorem Represents.capacity_congr {b b' : QuiescenceBuffer κ} {q q' : EpochQueue κ} (h : Represents b q)
    (h' : Represents b' q') (he : q'.capacity = q.capacity) : b'.capacity = b.capacity :=
  BitVec.eq_of_toNat_eq (h'.capacity.trans (he.trans h.capacity.symm))

/-- `finalize_epoch` leaves `ring_begin` and the buffer alone where it takes no slot, or not the last one. -/
theorem Represents.ringBegin_finalizeEpoch (h : Represents b q) (hlt : q.size < q.capacity) {e : Epoch}
    {r : Bool} (hb : b.finalizeEpoch limit e = some (b', r))
    (h' : Represents b' (q.finalizeEpoch limit.toNat e).1)
    (hcalm : q.working = [] ∨ q.size + 1 < q.capacity) :
    b'.ringBegin = b.ringBegin ∧ (q.finalizeEpoch limit.toNat e).1.capacity = q.capacity := by
  unfold QuiescenceBuffer.finalizeEpoch at hb
  rw [h.workingEpochEmpty hlt] at hb
  cases hw : q.working.isEmpty with
  | true =>
      rw [hw, if_pos rfl] at hb
      cases hb
      exact ⟨rfl, by rw [EpochQueue.finalizeEpoch, hw]; rfl⟩
  | false =>
      have hne : q.working ≠ [] := by simpa using hw
      obtain ⟨b1, b2, hb1, hb2, h2⟩ := h.pushChunk hlt hne e
      rw [hw, if_neg Bool.false_ne_true] at hb
      split at hb
      · cases hb
      simp only [hb1, hb2, Option.bind_eq_bind, Option.bind_some] at hb
      obtain ⟨b3, hb3, hb⟩ := Option.bind_eq_some_iff.mp hb
      cases hb
      have hring1 : b1.ringBegin = b.ringBegin := by
        obtain ⟨_, _, hs⟩ := Option.bind_eq_some_iff.mp hb1
        exact QuiescenceBuffer.ringBegin_store hs
      have hring2 : b2.ringBegin = b1.ringBegin := by
        obtain ⟨b3, hs, rfl⟩ := Option.map_eq_some_iff.mp hb2
        have hr := QuiescenceBuffer.ringBegin_store hs
        exact hr
      have hgrow : (q.finalizeEpoch limit.toNat e).1 = (q.pushChunk e).grow := by
        rw [EpochQueue.finalizeEpoch, hw]
        rfl
      rw [hgrow] at h' ⊢
      have hroom : (q.pushChunk e).size < (q.pushChunk e).capacity := by
        rw [EpochQueue.size_pushChunk]
        exact hcalm.resolve_left hne
      refine ⟨((h2.ringBegin_reserveIfFull hb3 h' hroom).trans hring2).trans hring1, ?_⟩
      rw [EpochQueue.grow, if_neg hroom.ne]
      rfl

/-- What a transaction adds to the chunks. -/
def CommittedTx.chunks (tx : CommittedTx κ) : List (Chunk κ) :=
  if tx.callbacks.isEmpty then [] else [⟨tx.epoch, tx.callbacks⟩]

/-- Its commit brings the buffer to the limit. -/
def CommittedTx.reaches (limit : UWord) (size : Nat) (tx : CommittedTx κ) : Bool :=
  !tx.callbacks.isEmpty && decide (limit.toNat ≤ size + tx.callbacks.length + 1)

/-- None of its attempts takes the last slot. -/
def CommittedTx.Within (size capacity : Nat) (tx : CommittedTx κ) : Prop :=
  (∀ cs ∈ tx.aborted, size + cs.length < capacity) ∧
    (tx.callbacks = [] ∨ size + tx.callbacks.length + 1 < capacity)

/-- **What a transaction does to the buffer.** -/
theorem Refines.commit (limit : UWord) (h : Refines b q) (hw : q.working = []) {tx : CommittedTx κ}
    (hsize : ∀ cs ∈ tx.callbacks :: tx.aborted, q.size + cs.length + 1 < 2 ^ 63) :
    ∃ b' q', b.commit limit tx = some (b', tx.reaches limit q.size) ∧ Refines b' q' ∧ q'.working = [] ∧
      q'.chunks = q.chunks ++ tx.chunks ∧ q.capacity ≤ q'.capacity ∧
      (tx.Within q.size q.capacity → b'.ringBegin = b.ringBegin ∧ b'.capacity = b.capacity) := by
  rw [List.forall_mem_cons] at hsize
  obtain ⟨b1, q1, hb1, hw1, h1⟩ := h.abortAll hw tx.aborted fun cs hcs => Nat.lt_of_succ_lt (hsize.2 cs hcs)
  have hw1' : q1.working = q.working ++ [] := by rw [hw1, hw]; rfl
  have hs1 : q1.size = q.size := EpochQueue.size_of_working h1.chunks hw1'
  obtain ⟨b2, q2, hb2, hw2, h2⟩ := h1.refines.emplaceAll tx.callbacks (by rw [hs1]; omega)
  have hs2 : q2.size = q.size + tx.callbacks.length := by
    rw [EpochQueue.size_of_working h2.chunks hw2, hs1]
  rw [hw1, List.nil_append] at hw2
  have hchunks2 : q2.chunks = q.chunks := h2.chunks.trans h1.chunks
  have hcap : (q2.finalizeEpoch limit.toNat tx.epoch).1.capacity < 2 ^ 64 := by
    have hlt := h2.refines.represents.capacity_lt
    unfold EpochQueue.finalizeEpoch
    split
    · exact hlt
    · exact EpochQueue.capacity_grow_lt hlt (by rw [EpochQueue.size_pushChunk, hs2]; exact hsize.1)
  obtain ⟨b3, hb3, h3, hlt3⟩ := h2.refines.represents.finalizeEpoch h2.refines.room tx.epoch hcap
  refine ⟨b3, _, ?_, h3.refines hlt3, EpochQueue.working_finalizeEpoch .., ?_, ?_, fun hcalm => ?_⟩
  · rw [QuiescenceBuffer.commit, h.workingEpochEmpty, hw, List.isEmpty_nil, if_pos rfl, hb1, Option.bind_some, hb2,
      Option.bind_some, hb3, EpochQueue.finalizeEpoch, hw2, CommittedTx.reaches]
    cases tx.callbacks.isEmpty with
    | true => rfl
    | false => rw [if_neg Bool.false_ne_true, EpochQueue.size_pushChunk, hs2]; rfl
  · rw [EpochQueue.chunks_finalizeEpoch, hw2, hchunks2, CommittedTx.chunks]
    split
    · exact (List.append_nil _).symm
    · rfl
  · refine (h1.capacity_le.trans h2.capacity_le).trans ?_
    unfold EpochQueue.finalizeEpoch
    split
    · exact Nat.le_refl _
    · exact (q2.pushChunk tx.epoch).capacity_grow_le
  · have hcap1 := h1.capacity_eq hcalm.1
    have hroom : q1.size + tx.callbacks.length < q1.capacity := by
      rcases hcalm.2 with he | hlt
      · rw [he]
        exact h1.refines.room
      · omega
    have hcap2 := (h2.capacity_eq hroom).trans hcap1
    obtain ⟨hring, hcap3⟩ := h2.refines.represents.ringBegin_finalizeEpoch h2.refines.room hb3 h3
      (by rw [hw2, hs2, hcap2]; exact hcalm.2)
    exact ⟨hring.trans ((h2.ring hroom).trans (h1.ring hcalm.1)),
      h.represents.capacity_congr h3 (hcap3.trans hcap2)⟩

end Buffer

/-! ## 4. The condition, and the invariant -/

/-- The buffer an attempt needs is counted in a word, as `reserve_more` asserts. -/
def CommittedTx.Fits (size : Nat) (tx : CommittedTx κ) : Prop :=
  ∀ cs ∈ tx.callbacks :: tx.aborted, size + cs.length + 1 < 2 ^ 63

/-- Its commit stays below the limit, and none of its aborted attempts fills the buffer. -/
def CommittedTx.Quiet {κ' : Type} (limit : UWord) (b : QuiescenceBuffer κ') (tx : CommittedTx κ) : Prop :=
  (tx.callbacks = [] ∨ b.size.toNat + tx.callbacks.length + 1 < limit.toNat) ∧
    ∀ cs ∈ tx.aborted, b.size.toNat + cs.length < b.capacity.toNat

namespace Reclaimer

/-- **The condition**, on the state before a step: a callback's transaction is quiet. -/
def Calm (limit : UWord) (s : Reclaimer κ) : Prop :=
  match s.frames with
  | [] => ∀ tx ∈ s.todo.head?, tx.Fits s.buffer.size.toNat
  | .callback (tx :: _) _ :: _ => tx.Fits s.buffer.size.toNat ∧ tx.Quiet limit s.buffer
  | _ => True

/-- The states a thread with these transactions reaches by steps that are all taken where `P` holds. -/
inductive Reach (prog : κ → List (CommittedTx κ)) (limit : UWord) (P : Reclaimer κ → Prop)
    (txs : List (CommittedTx κ)) : Reclaimer κ → Prop where
  | init : Reach prog limit P txs (.init limit txs)
  | step {s s' : Reclaimer κ} {minEpoch : Epoch} (h : Reach prog limit P txs s) (hp : P s)
      (hs : s.step prog limit minEpoch = some s') : Reach prog limit P txs s'

/-- `n` such steps. -/
inductive Steps (prog : κ → List (CommittedTx κ)) (limit : UWord) (P : Reclaimer κ → Prop) :
    Nat → Reclaimer κ → Reclaimer κ → Prop where
  | refl (s : Reclaimer κ) : Steps prog limit P 0 s s
  | step {n : Nat} {s s' s'' : Reclaimer κ} {minEpoch : Epoch} (hp : P s)
      (hs : s.step prog limit minEpoch = some s') (h : Steps prog limit P n s' s'') :
      Steps prog limit P (n + 1) s s''

/-- The loop of `do_first_epoch_callbacks` behind `i` callbacks of the oldest chunk. -/
def frontLoop {κ' : Type} (b : QuiescenceBuffer κ') (ch : Chunk κ') (i : Nat) : CallFrame κ :=
  .firstEpoch (b.ringBegin + 1 + BitVec.ofNat 64 i) (b.ringBegin + BitVec.ofNat 64 ch.size)
    (BitVec.ofNat 64 ch.size)

/-- The calls that have not returned, when `i` callbacks of the oldest chunk have begun: no reclamation has
    begun inside another one, and what the running callback has captured is there. -/
inductive Calls {κ' : Type} (b : QuiescenceBuffer κ') (q : EpochQueue κ') : Nat → List (CallFrame κ) → Prop where
  | none : Calls b q 0 []
  | loop (l : ReclaimLoop) : Calls b q 0 [.reclaim l]
  | firstEpoch (l : ReclaimLoop) (ch : Chunk κ') (rest : List (Chunk κ')) (i : Nat)
      (hq : q.chunks = ch :: rest) (hi : i ≤ ch.callbacks.length) :
      Calls b q i [frontLoop b ch i, .reclaim l]
  | callback (txs : List (CommittedTx κ)) (l : ReclaimLoop) (ch : Chunk κ') (rest : List (Chunk κ')) (i : Nat)
      (hq : q.chunks = ch :: rest) (hi : i ≤ ch.callbacks.length) :
      Calls b q i [.callback txs false, frontLoop b ch i, .reclaim l]

/-- The callbacks that have not begun. -/
def left {κ' : Type} (q : EpochQueue κ') (i : Nat) : List κ' := (q.chunks.flatMap (·.callbacks)).drop i

/-- The ring buffer stands for the queue, and what has run and what is left are what has been registered. -/
structure Inv (limit : UWord) (s : Reclaimer κ) (q : EpochQueue (κ × Nat)) (i : Nat) : Prop where
  refines : Refines s.buffer q
  working : q.working = []
  capacity : limit.toNat * 2 ≤ q.capacity
  numbers : s.registered.map Prod.snd = List.range s.registered.length
  history : s.ran ++ left q i = s.registered
  calls : Calls s.buffer q i s.frames
  exited : s.exited = true → s.todo = []
  last : s.exited = true → q.chunks = [] ∨ .reclaim .reclaimAll ∈ s.frames

/-- The thread is gone. -/
def done (s : Reclaimer κ) : Bool := s.exited && s.frames.isEmpty

/-! ## 5. What is left to do -/

/-- **Finitely many in all if each callback is run once**: a callback stands for more calls than the
    transactions it runs and the callbacks they register. -/
def FinitelyMany (prog : κ → List (CommittedTx κ)) (total : κ → Nat) : Prop :=
  ∀ c, ((prog c).map fun tx => (tx.callbacks.map total).sum + 1).sum < total c

/-- What a transaction costs, where a callback costs 12 for each of the `total` calls it stands for. -/
def txCost (total : κ → Nat) (tx : CommittedTx κ) : Nat := 12 * (tx.callbacks.map total).sum + 10

/-- What the calls that have not returned cost. -/
def framesCost (total : κ → Nat) : List (CallFrame κ) → Nat
  | [] => 0
  | .callback txs _ :: rest => (txs.map (txCost total)).sum + 1 + framesCost total rest
  | .firstEpoch _ _ _ :: _ => 2
  | .reclaim _ :: _ => 3

/-- What the queue costs. -/
def queueCost (total : κ → Nat) (q : EpochQueue (κ × Nat)) (i : Nat) : Nat :=
  12 * ((left q i).map fun c => total c.1).sum + 4 * q.chunks.length

/-- A bound on the steps to come. -/
def cost (total : κ → Nat) (s : Reclaimer κ) (q : EpochQueue (κ × Nat)) (i : Nat) : Nat :=
  queueCost total q i + (s.todo.map (txCost total)).sum + 10 * (!s.exited).toNat +
    framesCost total s.frames

/-! ## 6. One step -/

section Left

variable {κ' : Type} {q q' : EpochQueue κ'} {ch : Chunk κ'} {rest : List (Chunk κ')} {i : Nat}

theorem left_front (hq : q.chunks = ch :: rest) (hi : i ≤ ch.callbacks.length) :
    left q i = ch.callbacks.drop i ++ rest.flatMap (·.callbacks) := by
  rw [left, hq, List.flatMap_cons, List.drop_append_of_le_length hi]

/-- The next callback begins. -/
theorem left_next (hq : q.chunks = ch :: rest) (hi : i < ch.callbacks.length) :
    left q i = ch.callbacks[i] :: left q (i + 1) := by
  rw [left_front hq hi.le, left_front hq hi, List.drop_eq_getElem_cons hi, List.cons_append]

/-- The oldest chunk is done. -/
theorem left_popFront (hq : q.chunks = ch :: rest) : left q ch.callbacks.length = left q.popFront 0 := by
  rw [left_front hq (Nat.le_refl _), List.drop_length, left, EpochQueue.chunks_popFront, hq]
  rfl

/-- A transaction has committed. -/
theorem left_commit {tx : CommittedTx κ'} (hq : q'.chunks = q.chunks ++ tx.chunks)
    (hi : i ≤ (q.chunks.flatMap (·.callbacks)).length) : left q' i = left q i ++ tx.callbacks := by
  have htx : tx.chunks.flatMap (·.callbacks) = tx.callbacks := by
    unfold CommittedTx.chunks
    split
    · rename_i he
      rw [List.isEmpty_iff.mp he]
      rfl
    · exact List.append_nil _
  rw [left, hq, List.flatMap_append, List.drop_append_of_le_length hi, htx, left]

end Left

section Step

variable {limit : UWord} {minEpoch : Epoch} {s : Reclaimer κ} {q : EpochQueue (κ × Nat)}
  {ch : Chunk (κ × Nat)} {rest : List (Chunk (κ × Nat))} {i : Nat}

theorem enterFirstEpoch_eq (h : Refines s.buffer q) (hw : q.working = []) (hq : q.chunks = ch :: rest) :
    s.enterFirstEpoch = some { s with frames := frontLoop s.buffer ch 0 :: s.frames } := by
  rw [enterFirstEpoch, h.represents.firstEpochSize h.room hq hw, Option.map_some, frontLoop, BitVec.ofNat_eq_ofNat,
    BitVec.add_zero]

theorem length_numbered (tx : CommittedTx κ) (n : Nat) : (tx.numbered n).callbacks.length = tx.callbacks.length :=
  List.length_zipIdx

theorem numbered_fits {tx : CommittedTx κ} {size n : Nat} (h : tx.Fits size) :
    ∀ cs ∈ (tx.numbered n).callbacks :: (tx.numbered n).aborted, size + cs.length + 1 < 2 ^ 63 := by
  rw [CommittedTx.Fits, List.forall_mem_cons] at h
  rw [List.forall_mem_cons, length_numbered]
  refine ⟨h.1, fun cs hcs => ?_⟩
  obtain ⟨ds, hds, rfl⟩ := List.mem_map.mp hcs
  rw [List.length_zipIdx]
  exact h.2 ds hds

theorem numbered_within {tx : CommittedTx κ} {size capacity n : Nat} (h : tx.Within size capacity) :
    (tx.numbered n).Within size capacity := by
  refine ⟨fun cs hcs => ?_, h.2.imp (fun he => ?_) fun hlt => ?_⟩
  · obtain ⟨ds, hds, rfl⟩ := List.mem_map.mp hcs
    rw [List.length_zipIdx]
    exact h.1 ds hds
  · exact List.length_eq_zero_iff.mp ((length_numbered tx n).trans (List.length_eq_zero_iff.mpr he))
  · rwa [length_numbered]

/-- The thread behind its commit. -/
def committed (s : Reclaimer κ) (b : QuiescenceBuffer (κ × Nat)) (tx : CommittedTx κ) : Reclaimer κ :=
  { s with buffer := b, registered := s.registered ++ tx.callbacks.zipIdx s.registered.length }

/-- The calls that have not returned, behind a commit that leaves the buffer `b`. -/
def framesBehind (s : Reclaimer κ) (b : QuiescenceBuffer (κ × Nat)) : List (CallFrame κ) :=
  if b.capacity = s.buffer.capacity then s.frames else s.frames.map .free

@[simp] theorem exited_committed (s : Reclaimer κ) (b : QuiescenceBuffer (κ × Nat)) (tx : CommittedTx κ) :
    (s.committed b tx).exited = s.exited := rfl

@[simp] theorem frames_committed (s : Reclaimer κ) (b : QuiescenceBuffer (κ × Nat)) (tx : CommittedTx κ) :
    (s.committed b tx).frames = s.frames := rfl

@[simp] theorem todo_committed (s : Reclaimer κ) (b : QuiescenceBuffer (κ × Nat)) (tx : CommittedTx κ) :
    (s.committed b tx).todo = s.todo := rfl

/-- A transaction that stays below the limit, and one that reaches it. -/
theorem commit_spec (limit : UWord) (minEpoch : Epoch) (h : Refines s.buffer q) (hw : q.working = [])
    {tx : CommittedTx κ} (hfits : tx.Fits s.buffer.size.toNat) :
    ∃ b' q', Refines b' q' ∧ q'.working = [] ∧
      q'.chunks = q.chunks ++ (tx.numbered s.registered.length).chunks ∧ q.capacity ≤ q'.capacity ∧
      (tx.Within q.size q.capacity → b'.ringBegin = s.buffer.ringBegin ∧ b'.capacity = s.buffer.capacity) ∧
      (tx.reaches limit q.size = false → s.commit limit minEpoch tx =
        some { s.committed b' tx with frames := s.framesBehind b' }) ∧
      (tx.reaches limit q.size = true → ∃ ch rest, q'.chunks = ch :: rest ∧
        s.commit limit minEpoch tx = some { s.committed b' tx with
          frames := frontLoop b' ch 0 :: .reclaim (.reclaimAllPossible minEpoch) :: s.framesBehind b' }) := by
  have hlen := length_numbered tx s.registered.length
  have hempty : (tx.numbered s.registered.length).callbacks.isEmpty = tx.callbacks.isEmpty := by
    rw [Bool.eq_iff_iff, List.isEmpty_iff_length_eq_zero, hlen, List.isEmpty_iff_length_eq_zero]
  have hreaches : (tx.numbered s.registered.length).reaches limit q.size = tx.reaches limit q.size := by
    rw [CommittedTx.reaches, CommittedTx.reaches, hlen, hempty]
  rw [h.represents.toNat_size h.room] at hfits
  obtain ⟨b', q', hb, hr, hw', hchunks, hcap, hring⟩ := h.commit limit hw
    (numbered_fits hfits)
  refine ⟨b', q', hr, hw', hchunks, hcap, fun hc => hring (numbered_within hc), fun hno => ?_,
    fun hyes => ?_⟩
  · rw [commit, hb, hreaches, hno]
    rfl
  · obtain ⟨ch, rest, hq⟩ := List.exists_cons_of_ne_nil (l := q'.chunks) (by
      rw [CommittedTx.reaches, ← hempty, Bool.and_eq_true, Bool.not_eq_true'] at hyes
      rw [hchunks, CommittedTx.chunks, hyes.1]
      simp)
    refine ⟨ch, rest, hq, ?_⟩
    have hfront : b'.frontEpoch = some ch.epoch := hr.frontEpoch _ (by rw [EpochQueue.frontEpoch?, hq]; rfl)
    rw [commit, hb, hreaches, hyes]
    show b'.frontEpoch.bind _ = _
    rw [hfront, Option.bind_some]
    exact enterFirstEpoch_eq (s := { s.committed b' tx with
      frames := .reclaim (.reclaimAllPossible minEpoch) :: s.framesBehind b' }) hr hw' hq

theorem Calls.le {κ' : Type} {b : QuiescenceBuffer κ'} {q : EpochQueue κ'} {i : Nat} {fs : List (CallFrame κ)}
    (h : Calls b q i fs) : i ≤ (q.chunks.flatMap (·.callbacks)).length := by
  cases h with
  | none | loop => exact Nat.zero_le _
  | firstEpoch l ch rest i hq hi | callback txs l ch rest i hq hi =>
      rw [hq, List.flatMap_cons, List.length_append]
      omega

/-- What the running callback has captured is there. -/
theorem Calls.not_freed {κ' : Type} {b : QuiescenceBuffer κ'} {q : EpochQueue κ'} {i : Nat}
    {fs : List (CallFrame κ)} (h : Calls b q i fs) {txs : List (CommittedTx κ)} :
    .callback txs true ∉ fs := by
  cases h <;> simp [frontLoop]

/-- Behind a commit what has run and what is left are what has been registered. -/
theorem Inv.committed (h : Inv limit s q i) {tx : CommittedTx κ} {b' : QuiescenceBuffer (κ × Nat)}
    {q' : EpochQueue (κ × Nat)} (hr : Refines b' q') (hw : q'.working = [])
    (hchunks : q'.chunks = q.chunks ++ (tx.numbered s.registered.length).chunks)
    (hcap : q.capacity ≤ q'.capacity) {todo : List (CommittedTx κ)} {frames : List (CallFrame κ)}
    (hcalls : Calls b' q' i frames) (hexited : s.exited = true → todo = [])
    (hlast : s.exited = true → q'.chunks = [] ∨ .reclaim .reclaimAll ∈ frames) :
    Inv limit { s.committed b' tx with todo := todo, frames := frames } q' i where
  refines := hr
  working := hw
  capacity := h.capacity.trans hcap
  numbers := by
    show (s.registered ++ tx.callbacks.zipIdx s.registered.length).map Prod.snd =
      List.range (s.registered ++ tx.callbacks.zipIdx s.registered.length).length
    rw [List.map_append, h.numbers, List.zipIdx_map_snd, List.length_append, List.length_zipIdx,
      List.range_eq_range', List.range_eq_range', ← List.range'_append_1, Nat.zero_add]
  history := by
    show s.ran ++ left q' i = s.registered ++ _
    rw [left_commit hchunks h.calls.le, ← List.append_assoc, h.history]
    rfl
  calls := hcalls
  exited := hexited
  last := hlast

/-- What a commit adds to the cost of the queue is less than the transaction costs. -/
theorem queueCost_commit {tx : CommittedTx κ} {n : Nat} {q' : EpochQueue (κ × Nat)} (total : κ → Nat)
    (hchunks : q'.chunks = q.chunks ++ (tx.numbered n).chunks)
    (hi : i ≤ (q.chunks.flatMap (·.callbacks)).length) :
    queueCost total q' i + 6 ≤ queueCost total q i + txCost total tx := by
  have hlen : (tx.numbered n).chunks.length ≤ 1 := by
    unfold CommittedTx.chunks
    split
    · exact Nat.zero_le _
    · exact Nat.le_refl _
  have hmap : (tx.callbacks.zipIdx n).map (fun c => total c.1) = tx.callbacks.map total := by
    calc (tx.callbacks.zipIdx n).map (fun c => total c.1)
        = ((tx.callbacks.zipIdx n).map Prod.fst).map total := by rw [List.map_map]; rfl
      _ = tx.callbacks.map total := by rw [List.zipIdx_map_fst]
  rw [queueCost, queueCost, left_commit hchunks hi, hchunks, List.map_append, List.sum_append_nat,
    List.length_append, txCost]
  show 12 * (_ + ((tx.callbacks.zipIdx n).map fun c => total c.1).sum) + _ + 6 ≤ _
  rw [hmap]
  omega

/-- The loops go on while there is a chunk, or a chunk of an earlier epoch. -/
theorem goesOn_spec (h : Refines s.buffer q) (hw : q.working = []) (l : ReclaimLoop) :
    l.goesOn s.buffer = some false ∧ (l = .reclaimAll → q.chunks = []) ∨
      l.goesOn s.buffer = some true ∧ ∃ ch rest, q.chunks = ch :: rest := by
  have hempty : s.buffer.empty = q.chunks.isEmpty := by
    rw [h.empty, EpochQueue.isEmpty, hw, List.isEmpty_nil, Bool.and_true]
  cases hq : q.chunks with
  | nil =>
      rw [hq] at hempty
      refine Or.inl ⟨?_, fun _ => rfl⟩
      cases l <;> simp only [ReclaimLoop.goesOn, hempty, List.isEmpty_nil, Bool.not_true, if_pos]
  | cons ch rest =>
      rw [hq] at hempty
      have hfront : s.buffer.frontEpoch = some ch.epoch :=
        h.frontEpoch _ (by rw [EpochQueue.frontEpoch?, hq]; rfl)
      cases l with
      | reclaimAll => exact Or.inr ⟨by rw [ReclaimLoop.goesOn, hempty]; rfl, ch, rest, rfl⟩
      | reclaimAllPossible m =>
          have hgoes : (ReclaimLoop.reclaimAllPossible m).goesOn s.buffer = some (decide (ch.epoch < m)) := by
            rw [ReclaimLoop.goesOn, hempty, hfront]
            rfl
          rw [hgoes]
          cases decide (ch.epoch < m) with
          | false => exact Or.inl ⟨rfl, fun hl => by cases hl⟩
          | true => exact Or.inr ⟨rfl, ch, rest, rfl⟩

/-- `cur_idx` has reached `end` behind the last callback. -/
theorem frontLoop_end {b : QuiescenceBuffer (κ × Nat)} (hi : i ≤ ch.callbacks.length) (hn : ch.size < 2 ^ 64) :
    b.ringBegin + 1 + BitVec.ofNat 64 i = b.ringBegin + BitVec.ofNat 64 ch.size ↔ i = ch.callbacks.length := by
  rw [Chunk.size] at hn ⊢
  constructor
  · intro he
    bv_omega
  · rintro rfl
    bv_omega

theorem frontLoop_next {b : QuiescenceBuffer (κ × Nat)} : (frontLoop b ch (i + 1) : CallFrame κ) =
    .firstEpoch (b.ringBegin + 1 + BitVec.ofNat 64 i + 1) (b.ringBegin + BitVec.ofNat 64 ch.size)
      (BitVec.ofNat 64 ch.size) := by
  rw [frontLoop, BitVec.ofNat_add, ← BitVec.add_assoc]
  rfl

/-- The loop reads the callbacks of the oldest chunk. -/
theorem frontCallback {b : QuiescenceBuffer (κ × Nat)} (h : Represents b q) (hq : q.chunks = ch :: rest)
    (hi : i < ch.callbacks.length) :
    b.callback? (b.wrap (b.ringBegin + 1 + BitVec.ofNat 64 i)) = some ch.callbacks[i] := by
  have hslot := (h.holds_front hq).slot (i := i) (x := .callback ch.callbacks[i])
    (by rw [List.getElem?_map, List.getElem?_eq_getElem hi, Option.map_some])
  have hpos : (b.wrap (b.ringBegin + 1 + BitVec.ofNat 64 i)).toNat =
      (b.ringBegin.toNat + 1 + i) % b.buffer.length := by
    have hi64 : i < 2 ^ 64 := by
      have := h.size_le
      have := h.capacity_lt
      have hsize := Represents.size_cons hq
      rw [Chunk.size] at hsize
      omega
    rw [h.wrap, h.length, toNat_add_mod h.dvd, BitVec.toNat_ofNat, Nat.mod_eq_of_lt hi64, Nat.add_mod,
      toNat_add_mod h.dvd, ← Nat.add_mod]
    rfl
  rw [QuiescenceBuffer.callback?, hpos, hslot]

variable {prog : κ → List (CommittedTx κ)} {total : κ → Nat}

/-- A step the thread makes towards its end. -/
def Advances (prog : κ → List (CommittedTx κ)) (limit : UWord) (minEpoch : Epoch) (total : κ → Nat)
    (s : Reclaimer κ) (q : EpochQueue (κ × Nat)) (i : Nat) : Prop :=
  ∃ s' q' i', s.step prog limit minEpoch = some s' ∧ Inv limit s' q' i' ∧
    cost total s' q' i' < cost total s q i

/-- Outside the callbacks the thread commits its next transaction. -/
theorem Inv.step_thread (h : Inv limit s q i) (hf : s.frames = []) {tx : CommittedTx κ}
    {todo : List (CommittedTx κ)} (ht : s.todo = tx :: todo) (hfits : tx.Fits s.buffer.size.toNat) :
    s.Advances prog limit minEpoch total q i := by
  have hc := h.calls
  rw [hf] at hc
  cases hc
  have hstep : s.step prog limit minEpoch = { s with todo := todo }.commit limit minEpoch tx := by
    simp only [Reclaimer.step, hf, ht]
  have hrunning : s.exited ≠ true := fun he => by
    have := h.exited he
    rw [ht] at this
    cases this
  obtain ⟨b', q', hr, hw', hchunks, hcap, _, hno, hyes⟩ :=
    commit_spec (s := { s with todo := todo }) limit minEpoch h.refines h.working hfits
  have hcost := queueCost_commit total hchunks h.calls.le
  have hnone : framesBehind { s with todo := todo } b' = [] := by simp [framesBehind, hf]
  rw [hnone] at hno hyes
  cases hreach : tx.reaches limit q.size with
  | false =>
      refine ⟨{ s.committed b' tx with todo := todo, frames := [] }, q', 0, hstep.trans (hno hreach),
        h.committed hr hw' hchunks hcap .none (absurd · hrunning) (absurd · hrunning), ?_⟩
      simp only [cost, exited_committed, hf, ht, framesCost, List.map_cons, List.sum_cons]
      omega
  | true =>
      obtain ⟨ch, rest, hq, he⟩ := hyes hreach
      refine ⟨{ s.committed b' tx with
        todo := todo
        frames := [frontLoop b' ch 0, .reclaim (.reclaimAllPossible minEpoch)] }, q', 0,
        hstep.trans he, h.committed hr hw' hchunks hcap (.firstEpoch _ ch rest 0 hq (Nat.zero_le _))
          (absurd · hrunning) (absurd · hrunning), ?_⟩
      · simp only [cost, exited_committed, hf, ht, framesCost, frontLoop, List.map_cons, List.sum_cons]
        omega

/-- The destructor runs `reclaim_all`. -/
theorem Inv.step_exit (h : Inv limit s q i) (hf : s.frames = []) (ht : s.todo = []) (he : s.exited = false) :
    s.Advances prog limit minEpoch total q i := by
  have hc := h.calls
  rw [hf] at hc
  cases hc
  have hwork : s.buffer.workingEpochEmpty = true := by
    rw [h.refines.workingEpochEmpty, h.working]
    rfl
  have hempty : s.buffer.empty = q.chunks.isEmpty := by
    rw [h.refines.empty, EpochQueue.isEmpty, h.working, List.isEmpty_nil, Bool.and_true]
  cases hq : q.chunks with
  | nil =>
      rw [hq] at hempty
      refine ⟨{ s with exited := true }, q, 0, ?_, ⟨h.refines, h.working, h.capacity, h.numbers, h.history,
        h.calls, fun _ => ht, fun _ => Or.inl hq⟩, ?_⟩
      · simp [Reclaimer.step, hf, ht, he, hwork, hempty]
      · simp only [cost, he]
        simp
  | cons ch rest =>
      rw [hq] at hempty
      obtain ⟨e, hback⟩ : ∃ e, q.backEpoch? = some e :=
        Option.isSome_iff_exists.mp (by simp [EpochQueue.backEpoch?, hq])
      have hb := h.refines.backEpoch e hback
      have henter := enterFirstEpoch_eq (s := { s with exited := true, frames := [.reclaim .reclaimAll] })
        h.refines h.working hq
      refine ⟨{ s with exited := true, frames := [frontLoop s.buffer ch 0, .reclaim .reclaimAll] }, q, 0, ?_,
        ⟨h.refines, h.working, h.capacity, h.numbers, h.history,
          .firstEpoch .reclaimAll ch rest 0 hq (Nat.zero_le _), fun _ => ht, fun _ => Or.inr (by simp)⟩, ?_⟩
      · simp only [ht] at henter
        simp [Reclaimer.step, hf, ht, he, hwork, hempty, hb, henter]
      · simp [cost, he, hf, framesCost, frontLoop]

/-- A callback commits its next transaction. -/
theorem Inv.step_callback (h : Inv limit s q i) {tx : CommittedTx κ} {txs : List (CommittedTx κ)}
    {freed : Bool} {fs : List (CallFrame κ)} (hf : s.frames = .callback (tx :: txs) freed :: fs)
    (hfits : tx.Fits s.buffer.size.toNat) (hquiet : tx.Quiet limit s.buffer) :
    s.Advances prog limit minEpoch total q i := by
  have hstep : s.step prog limit minEpoch =
      { s with frames := .callback txs freed :: fs }.commit limit minEpoch tx := by
    simp only [Reclaimer.step, hf]
  obtain ⟨b', q', hr, hw', hchunks, hcap, hring, hno, _⟩ :=
    commit_spec (s := { s with frames := .callback txs freed :: fs }) limit minEpoch h.refines h.working hfits
  obtain ⟨hbelow, hroom⟩ := hquiet
  have hb := h.refines.represents
  rw [hb.toNat_size h.refines.room] at hbelow hroom
  rw [hb.capacity] at hroom
  have hlimit := h.capacity
  have hreach : tx.reaches limit q.size = false := by
    rw [CommittedTx.reaches, Bool.and_eq_false_iff, Bool.not_eq_false', List.isEmpty_iff, decide_eq_false_iff_not]
    exact hbelow.imp_right Nat.not_le_of_lt
  obtain ⟨hsame, hgrow⟩ : b'.ringBegin = s.buffer.ringBegin ∧ b'.capacity = s.buffer.capacity :=
    hring ⟨hroom, hbelow.imp_right fun hlt => by omega⟩
  have hframes : framesBehind { s with frames := .callback txs freed :: fs } b' = .callback txs freed :: fs :=
    if_pos hgrow
  rw [hframes] at hno
  have hcost := queueCost_commit total hchunks h.calls.le
  have hc := h.calls
  rw [hf] at hc
  cases hc with
  | callback _ l ch rest _ hq hi =>
      have hfront : frontLoop s.buffer ch i = (frontLoop b' ch i : CallFrame κ) := by
        rw [frontLoop, frontLoop, hsame]
      refine ⟨{ s.committed b' tx with
        frames := [.callback txs false, frontLoop s.buffer ch i, .reclaim l] }, q', i, hstep.trans (hno hreach),
        h.committed hr hw' hchunks hcap ?_ h.exited fun he => ?_, ?_⟩
      · rw [hfront]
        exact .callback txs l ch _ i (by rw [hchunks, hq]; rfl) hi
      · have := h.last he
        simp only [hf, hq, reduceCtorEq, false_or, List.mem_cons] at this ⊢
        exact Or.inr this
      · simp only [cost, exited_committed, todo_committed, hf, framesCost, frontLoop, List.map_cons, List.sum_cons]
        omega

theorem sum_txCost_le (txs : List (CommittedTx κ)) :
    (txs.map (txCost total)).sum ≤ 12 * (txs.map fun tx => (tx.callbacks.map total).sum + 1).sum := by
  induction txs with
  | nil => exact Nat.zero_le _
  | cons tx txs ih =>
      simp only [List.map_cons, List.sum_cons, txCost] at ih ⊢
      omega

/-- The loop of `do_first_epoch_callbacks` runs its next callback, or drops the chunk. -/
theorem Inv.step_front (hprog : FinitelyMany prog total)
    (h : Inv limit s q i) {l : ReclaimLoop} (hf : s.frames = [frontLoop s.buffer ch i, .reclaim l])
    (hq : q.chunks = ch :: rest) (hi : i ≤ ch.callbacks.length) : s.Advances prog limit minEpoch total q i := by
  have hb := h.refines.represents
  have hsize := Represents.size_cons hq
  have hend : s.buffer.ringBegin + 1 + BitVec.ofNat 64 i = s.buffer.ringBegin + BitVec.ofNat 64 ch.size ↔
      i = ch.callbacks.length :=
    frontLoop_end hi (by have := hb.capacity_lt; have := h.refines.room; omega)
  by_cases hlast : i = ch.callbacks.length
  · obtain ⟨b', hdrop, hr, hlt⟩ := hb.dropFirstEpoch h.refines.room hq
    refine ⟨{ s with buffer := b', frames := [.reclaim l] }, q.popFront, 0, ?_,
      ⟨hr.refines hlt, h.working, h.capacity, h.numbers, ?_, .loop l, h.exited, fun he => ?_⟩, ?_⟩
    · simp only [Reclaimer.step, hf, frontLoop]
      rw [if_pos (hend.mpr hlast), hend.mpr hlast, hdrop]
      rfl
    · rw [← left_popFront hq, ← hlast]
      exact h.history
    · have := h.last he
      simp only [hf, hq, frontLoop, reduceCtorEq, false_or, List.mem_cons] at this
      exact Or.inr (List.mem_cons.mpr this)
    · simp only [cost, queueCost, ← left_popFront hq, ← hlast, EpochQueue.chunks_popFront, hq, hf, framesCost,
        frontLoop, List.tail_cons, List.length_cons]
      omega
  · have hi' : i < ch.callbacks.length := Nat.lt_of_le_of_ne hi hlast
    refine ⟨{ s with
      frames := [.callback (prog ch.callbacks[i].1) false, frontLoop s.buffer ch (i + 1), .reclaim l]
      ran := s.ran ++ [ch.callbacks[i]] }, q, i + 1, ?_,
      ⟨h.refines, h.working, h.capacity, h.numbers, ?_, .callback _ l ch rest (i + 1) hq hi', h.exited,
        fun he => ?_⟩, ?_⟩
    · simp only [Reclaimer.step, hf, frontLoop]
      rw [if_neg (hlast ∘ hend.mp), frontCallback hb hq hi', Option.map_some, ← frontLoop, frontLoop_next]
    · show (s.ran ++ [ch.callbacks[i]]) ++ left q (i + 1) = s.registered
      rw [List.append_assoc, List.singleton_append, ← left_next hq hi']
      exact h.history
    · have := h.last he
      simp only [hf, hq, frontLoop, reduceCtorEq, false_or, List.mem_cons] at this ⊢
      exact this
    · have hsum : ((prog ch.callbacks[i].1).map (txCost total)).sum ≤ _ := sum_txCost_le _
      have hlt := hprog ch.callbacks[i].1
      simp only [cost, queueCost, left_next hq hi', hf, framesCost, frontLoop, List.map_cons, List.sum_cons]
      omega

/-- **One step.** -/
theorem Inv.step (hprog : FinitelyMany prog total)
    (h : Inv limit s q i) (hcalm : s.Calm limit) (hd : s.done = false) :
    s.Advances prog limit minEpoch total q i := by
  unfold Calm at hcalm
  have hc := h.calls
  generalize hf : s.frames = fs at hc
  rw [hf] at hcalm
  cases hc with
  | none =>
      cases ht : s.todo with
      | nil =>
          refine h.step_exit hf ht ?_
          rw [done, hf] at hd
          simpa using hd
      | cons tx todo => exact h.step_thread hf ht (hcalm tx (by rw [ht]; rfl))
  | loop l =>
      have hsame : ∀ fs : List (CallFrame κ), Calls s.buffer q 0 fs →
          (q.chunks = [] ∨ .reclaim .reclaimAll ∈ s.frames → q.chunks = [] ∨ .reclaim .reclaimAll ∈ fs) →
          Inv limit { s with frames := fs } q 0 := fun fs hfs hlast =>
        ⟨h.refines, h.working, h.capacity, h.numbers, h.history, hfs, h.exited, fun he => hlast (h.last he)⟩
      rcases goesOn_spec h.refines h.working l with ⟨hgo, hall⟩ | ⟨hgo, ch, rest, hq⟩
      · refine ⟨{ s with frames := [] }, q, 0, ?_, hsame [] .none fun hlast => Or.inl ?_, ?_⟩
        · simp [Reclaimer.step, hf, hgo]
        · rw [hf, List.mem_singleton, CallFrame.reclaim.injEq] at hlast
          exact hlast.elim id fun hl => hall hl.symm
        · simp [cost, hf, framesCost]
      · refine ⟨{ s with frames := [frontLoop s.buffer ch 0, .reclaim l] }, q, 0, ?_,
          hsame _ (.firstEpoch l ch rest 0 hq (Nat.zero_le _))
            (Or.imp_right fun hm => List.mem_cons_of_mem _ (hf ▸ hm)), ?_⟩
        · simp only [Reclaimer.step, hf, hgo, Option.bind_some, if_true]
          rw [enterFirstEpoch_eq h.refines h.working hq, hf]
        · simp [cost, hf, framesCost, frontLoop]
  | firstEpoch l ch rest i hq hi =>
      exact h.step_front hprog hf hq hi
  | callback txs l ch rest i hq hi =>
      cases txs with
      | nil =>
          refine ⟨{ s with frames := [frontLoop s.buffer ch i, .reclaim l] }, q, i, ?_,
            ⟨h.refines, h.working, h.capacity, h.numbers, h.history, .firstEpoch l ch rest i hq hi, h.exited,
              fun he => ?_⟩, ?_⟩
          · simp [Reclaimer.step, hf]
          · have := h.last he
            simp only [hf, reduceCtorEq, false_or, List.mem_cons] at this ⊢
            exact this
          · simp [cost, hf, framesCost, frontLoop]
      | cons tx txs => exact h.step_callback hf hcalm.1 hcalm.2

end Step

/-! ## 7. Whole runs -/

section Run

variable {prog : κ → List (CommittedTx κ)} {limit : UWord} {txs : List (CommittedTx κ)} {s s' : Reclaimer κ}
  {total : κ → Nat}

theorem inv_init (hpow : isPowerOfTwo limit = true) (hfits : limit.toNat * 2 < 2 ^ 64) :
    Inv limit (init limit txs) (EpochQueue.init limit.toNat) 0 where
  refines := by
    have hpos := Nat.pos_of_isPowerOfTwo (isPowerOfTwo_iff.mp hpow)
    refine (Represents.init hpow hfits).refines ?_
    show 1 < limit.toNat * 2
    omega
  working := rfl
  capacity := Nat.le_refl _
  numbers := rfl
  history := rfl
  calls := .none
  exited he := by cases he
  last he := by cases he

/-- A thread that takes a step is not gone. -/
theorem Inv.not_done {q : EpochQueue (κ × Nat)} {i : Nat} {minEpoch : Epoch} (h : Inv limit s q i)
    (hs : s.step prog limit minEpoch = some s') : s.done = false := by
  cases hd : s.done with
  | false => rfl
  | true =>
      rw [done, Bool.and_eq_true, List.isEmpty_iff] at hd
      simp [Reclaimer.step, hd.2, h.exited hd.1, hd.1] at hs

/-- Every step costs. -/
theorem Steps.inv (hprog : FinitelyMany prog total) {n i : Nat} {q : EpochQueue (κ × Nat)}
    (h : Steps prog limit (Calm limit) n s s') (hinv : Inv limit s q i) :
    ∃ q' i', Inv limit s' q' i' ∧ n + cost total s' q' i' ≤ cost total s q i := by
  induction h generalizing q i with
  | refl s => exact ⟨q, i, hinv, (Nat.zero_add _).le⟩
  | @step n s s1 s2 m hp hs _ ih =>
      have hadv : s.Advances prog limit m total q i := hinv.step hprog hp (hinv.not_done hs)
      obtain ⟨s1', q1, i1, hs', hinv1, hlt⟩ := hadv
      cases hs.symm.trans hs'
      obtain ⟨q', i', h', hle⟩ := ih hinv1
      exact ⟨q', i', h', by omega⟩

theorem Reach.inv (hpow : isPowerOfTwo limit = true) (hfits : limit.toNat * 2 < 2 ^ 64)
    (hprog : FinitelyMany prog total) (h : Reach prog limit (Calm limit) txs s) : ∃ q i, Inv limit s q i := by
  induction h with
  | init => exact ⟨_, 0, inv_init hpow hfits⟩
  | step _ hp hs ih =>
      obtain ⟨q, i, hinv⟩ := ih
      obtain ⟨q', i', hinv', _⟩ := (Steps.step hp hs (.refl _)).inv hprog hinv
      exact ⟨q', i', hinv'⟩

/-- **Each registered callback runs once, in order, and reclamation terminates**, in every run in which no
    callback's transaction brings the buffer to the limit or fills it. The callbacks that have run are the first
    that have been registered, each under its own number; no assertion fails, no slot is read that holds no
    callback, and no running callback has lost what it has captured; and a bound on the steps to come is known.
    When the thread is gone every callback has run. -/
theorem callbacks_run_once (hpow : isPowerOfTwo limit = true) (hfits : limit.toNat * 2 < 2 ^ 64)
    (hprog : FinitelyMany prog total) (h : Reach prog limit (Calm limit) txs s) :
    s.ran <+: s.registered ∧ s.registered.map Prod.snd = List.range s.registered.length ∧
      (s.done = true → s.ran = s.registered) ∧ (∀ txs, .callback txs true ∉ s.frames) ∧
      (s.done = false → s.Calm limit → ∀ minEpoch, (s.step prog limit minEpoch).isSome = true) ∧
      ∃ bound, ∀ n s', Steps prog limit (Calm limit) n s s' → n ≤ bound := by
  obtain ⟨q, i, hinv⟩ := h.inv hpow hfits hprog
  refine ⟨⟨left q i, hinv.history⟩, hinv.numbers, fun hd => ?_, fun txs hm => ?_, fun hd hcalm minEpoch => ?_,
    cost total s q i, fun n s' hs => ?_⟩
  · rw [done, Bool.and_eq_true, List.isEmpty_iff] at hd
    have hq : q.chunks = [] := by
      refine (hinv.last hd.1).resolve_right ?_
      rw [hd.2]
      exact List.not_mem_nil
    rw [← hinv.history, left, hq, List.flatMap_nil, List.drop_nil, List.append_nil]
  · exact hinv.calls.not_freed hm
  · have hadv : s.Advances prog limit minEpoch total q i := hinv.step hprog hcalm hd
    obtain ⟨s', _, _, hs, _⟩ := hadv
    rw [hs]
    rfl
  · obtain ⟨_, _, _, hle⟩ := hs.inv hprog hinv
    omega

end Run

/-! ## 8. Four runs -/

instance decidableCalm [DecidableEq κ] (limit : UWord) : (s : Reclaimer κ) → Decidable (s.Calm limit)
  | ⟨b, todo, _, [], _, _⟩ => inferInstanceAs (Decidable (∀ tx ∈ todo.head?, ∀ cs ∈ tx.callbacks :: tx.aborted,
      b.size.toNat + cs.length + 1 < 2 ^ 63))
  | ⟨b, _, _, .callback (tx :: _) _ :: _, _, _⟩ => inferInstanceAs (Decidable (
      (∀ cs ∈ tx.callbacks :: tx.aborted, b.size.toNat + cs.length + 1 < 2 ^ 63) ∧
        (tx.callbacks = [] ∨ b.size.toNat + tx.callbacks.length + 1 < limit.toNat) ∧
          ∀ cs ∈ tx.aborted, b.size.toNat + cs.length < b.capacity.toNat))
  | ⟨_, _, _, .callback [] _ :: _, _, _⟩ | ⟨_, _, _, .firstEpoch _ _ _ :: _, _, _⟩
  | ⟨_, _, _, .reclaim _ :: _, _, _⟩ => .isTrue trivial

/-- `n` steps, where every wait returns this minimum and every step is taken where `p` holds. -/
def runWhere (prog : κ → List (CommittedTx κ)) (limit : UWord) (minEpoch : Epoch) (p : Reclaimer κ → Bool) :
    Nat → Reclaimer κ → Option (Reclaimer κ)
  | 0, s => some s
  | n + 1, s => if p s then (s.step prog limit minEpoch).bind (runWhere prog limit minEpoch p n) else none

theorem Reach.runWhere {prog : κ → List (CommittedTx κ)} {limit : UWord} {minEpoch : Epoch}
    {P : Reclaimer κ → Prop} {p : Reclaimer κ → Bool} {txs : List (CommittedTx κ)} {s s' : Reclaimer κ}
    {n : Nat} (hp : ∀ s, p s = true → P s) (h : Reach prog limit P txs s)
    (hr : Reclaimer.runWhere prog limit minEpoch p n s = some s') : Reach prog limit P txs s' := by
  induction n generalizing s with
  | zero =>
      cases hr
      exact h
  | succ n ih =>
      rw [Reclaimer.runWhere] at hr
      split at hr
      · obtain ⟨s1, hs, hr⟩ := Option.bind_eq_some_iff.mp hr
        exact ih (h.step (hp s ‹_›) hs) hr
      · cases hr

/-- The callback `true` runs a transaction that registers the callback `false`, which runs none. -/
def registersOne : Bool → List (CommittedTx Bool)
  | true => [⟨[], [false], 0⟩]
  | false => []

theorem registersOne_finite : FinitelyMany registersOne fun c => if c then 3 else 1 := by
  intro c
  cases c <;> decide

/-- A thread that commits one callback and exits, far below the limit. -/
theorem registersOne_isSome :
    (runWhere registersOne 8 0 (fun s => decide (s.Calm 8)) 11 (.init 8 [⟨[], [true], 0⟩])).isSome = true := by
  decide

/-- The two callbacks run, the second one registered by the first. -/
theorem callbacks_run_once_registersOne :
    let s := (runWhere registersOne 8 0 (fun s => decide (s.Calm 8)) 11 (.init 8 [⟨[], [true], 0⟩])).get
      registersOne_isSome
    s.done = true ∧ s.registered = [(true, 0), (false, 1)] ∧ s.ran = s.registered := by
  have hr : Reach registersOne 8 (Calm 8) [⟨[], [true], 0⟩]
      ((runWhere registersOne 8 0 (fun s => decide (s.Calm 8)) 11 (.init 8 [⟨[], [true], 0⟩])).get
        registersOne_isSome) :=
    Reach.init.runWhere (fun _ => of_decide_eq_true) (Option.some_get registersOne_isSome).symm
  exact ⟨by decide, by decide,
    (callbacks_run_once (by decide) (by decide) registersOne_finite hr).2.2.1 (by decide)⟩

theorem reclaimsAgain_isSome :
    (runWhere registersOne 4 0 (fun _ => true) 4 (.init 4 [⟨[], [true, false], 0⟩])).isSome = true := by
  decide

/-- **A callback runs twice**: its transaction commits while the buffer is at the limit, and the reclamation
    this begins starts with the callback that is running. -/
theorem callbacks_run_twice :
    ¬ ∀ (prog : Bool → List (CommittedTx Bool)) (total : Bool → Nat) (txs : List (CommittedTx Bool))
      (s : Reclaimer Bool), FinitelyMany prog total → Reach prog 4 (fun _ => True) txs s → s.ran.Nodup := by
  intro h
  have hr : Reach registersOne 4 (fun _ => True) [⟨[], [true, false], 0⟩]
      ((runWhere registersOne 4 0 (fun _ => true) 4 (.init 4 [⟨[], [true, false], 0⟩])).get reclaimsAgain_isSome) :=
    Reach.init.runWhere (fun _ _ => trivial) (Option.some_get reclaimsAgain_isSome).symm
  exact absurd (h _ _ _ _ registersOne_finite hr) (by decide)

/-- The callback 0 runs a transaction with an attempt that registers four callbacks and aborts. -/
def registersFour : Nat → List (CommittedTx Nat)
  | 0 => [⟨[[1, 1, 1, 1]], [], 0⟩]
  | _ => []

theorem registersFour_isSome :
    (runWhere registersFour 4 0 (fun _ => true) 12 (.init 4 [⟨[], [1, 1], 0⟩, ⟨[], [0, 2], 0⟩])).isSome = true := by
  decide

/-- **A slot is run that holds no registered callback**: the attempt fills the buffer while its oldest chunk,
    which begins behind the first slot, is run. What the callback 0 has captured is freed by then. -/
theorem unregistered_runs :
    ∃ s, Reach registersFour 4 (fun _ => True) [⟨[], [1, 1], 0⟩, ⟨[], [0, 2], 0⟩] s ∧
      ∃ c ∈ s.ran, c ∉ s.registered := by
  refine ⟨_, Reach.init.runWhere (fun _ _ => trivial) (Option.some_get registersFour_isSome).symm, ?_⟩
  decide

/-- **A running callback loses what it has captured**: the attempt fills a buffer that begins at its first slot,
    so the index of the loop stays right, but the closure lies in the buffer that is freed. -/
theorem captured_freed :
    ∃ s, Reach registersFour 4 (fun _ => True) [⟨[], [0, 2], 0⟩] s ∧ ∃ txs, .callback txs true ∈ s.frames := by
  have hrun : (runWhere registersFour 4 0 (fun _ => true) 3 (.init 4 [⟨[], [0, 2], 0⟩])).isSome = true := by decide
  refine ⟨_, Reach.init.runWhere (fun _ _ => trivial) (Option.some_get hrun).symm, [], ?_⟩
  exact List.mem_cons_self

end Reclaimer

end LockfreeStm
