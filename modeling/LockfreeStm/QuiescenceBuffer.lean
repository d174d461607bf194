/-
  File:      LockfreeStm/QuiescenceBuffer.lean
  Subject:   `quiescence_buffer`: the ring buffer of detail/quiescence_buffer.hpp, as the source computes it.

  The buffer is one array of elements that are headers or callbacks. Every chunk has a header in front
  of its callbacks, and so has the working epoch; the header of a chunk says how many elements it has and
  how many the chunk in front of it has. `ring_begin` is the header of the oldest chunk and `epoch_begin`
  that of the working epoch, both wrapped; `write_pos` is where the next element goes and is not wrapped.
  All positions are 64-bit words.

  A function is `none` where an assertion of the source fails, where it reads the member of the union that
  is not there or a field that has not been written, and where it leaves the array.
-/
import LockfreeStm.Word

namespace LockfreeStm

/-- `quiescence_header`; a new one has only its `prev_size`. -/
structure QuiescenceHeader where
  epoch : Option Epoch
  size : Option UWord
  prevSize : UWord
deriving DecidableEq

/-- `quiescence_buf_elem`, with the member that is there. -/
inductive QuiescenceBufElem (κ : Type) where
  | uninitialized
  | header (h : QuiescenceHeader)
  | callback (c : κ)
deriving DecidableEq

/-- `is_power_of_two`. -/
def isPowerOfTwo (u : UWord) : Bool := u != 0 && u &&& (u - 1) == 0

/-- `quiescence_buffer`. -/
structure QuiescenceBuffer (κ : Type) where
  writePos : UWord
  epochBegin : UWord
  ringBegin : UWord
  buffer : List (QuiescenceBufElem κ)
  lastValidIndex : UWord
deriving DecidableEq

namespace QuiescenceBuffer

variable {κ : Type}

/-! ## 1. Positions -/

section Positions

variable (b : QuiescenceBuffer κ)

/-- `capacity`. -/
def capacity : UWord := b.lastValidIndex + 1

/-- `wrap`. -/
def wrap (index : UWord) : UWord := index &&& (b.capacity - 1)

/-- `size`. -/
def size : UWord := b.wrap (b.writePos - b.ringBegin)

/-- `working_epoch_size`. -/
def workingEpochSize : UWord := b.wrap (b.writePos - b.epochBegin)

/-- `empty`. -/
def empty : Bool := b.size == 1

/-- `allocates_on_next_push`. -/
def allocatesOnNextPush : Bool := b.wrap (b.writePos - b.ringBegin) == b.lastValidIndex

/-- `working_epoch_empty`. -/
def workingEpochEmpty : Bool := b.workingEpochSize == 1

/-- `buffer[i].header`. -/
def header? (i : UWord) : Option QuiescenceHeader :=
  match b.buffer[i.toNat]? with
  | some (.header h) => some h
  | _ => none

/-- `buffer[i].callback`. -/
def callback? (i : UWord) : Option κ :=
  match b.buffer[i.toNat]? with
  | some (.callback c) => some c
  | _ => none

/-- The assignment to `buffer[i]`. -/
def store (i : UWord) (e : QuiescenceBufElem κ) : Option (QuiescenceBuffer κ) :=
  if i.toNat < b.buffer.length then some { b with buffer := b.buffer.set i.toNat e } else none

end Positions

/-! ## 2. Growing -/

/-- `reserve_more`: the elements are copied into a buffer of twice the size, the oldest chunk first. -/
def reserveMore (b : QuiescenceBuffer κ) : Option (QuiescenceBuffer κ) :=
  if isPowerOfTwo b.capacity && decide (b.capacity < b.capacity <<< 1) then
    some
      { epochBegin := b.wrap (b.epochBegin - b.ringBegin)
        writePos := b.capacity
        lastValidIndex := b.capacity <<< 1 - 1
        ringBegin := 0
        buffer := b.buffer.drop b.ringBegin.toNat ++ b.buffer.take b.ringBegin.toNat ++
          List.replicate b.capacity.toNat .uninitialized }
  else none

/-- The check behind every push that may take the last slot. -/
def reserveIfFull (b : QuiescenceBuffer κ) : Option (QuiescenceBuffer κ) :=
  if b.wrap b.writePos = b.ringBegin then b.reserveMore else some b

/-! ## 3. The working epoch -/

/-- The constructor. -/
def init (reclaimLimit : UWord) : QuiescenceBuffer κ where
  writePos := 1
  epochBegin := 0
  ringBegin := 0
  buffer := .header ⟨none, none, 0⟩ :: List.replicate ((reclaimLimit * 2).toNat - 1) .uninitialized
  lastValidIndex := reclaimLimit * 2 - 1

/-- A callback is constructed at `write_pos++`. -/
def construct (b : QuiescenceBuffer κ) (c : κ) : Option (QuiescenceBuffer κ) :=
  (b.store (b.wrap b.writePos) (.callback c)).map fun b => { b with writePos := b.writePos + 1 }

/-- `emplace_back`. -/
def emplaceBack (b : QuiescenceBuffer κ) (c : κ) : Option (QuiescenceBuffer κ) :=
  (b.construct c).bind reserveIfFull

/-- `unchecked_emplace_back`. -/
def uncheckedEmplaceBack (b : QuiescenceBuffer κ) (c : κ) : Option (QuiescenceBuffer κ) :=
  if b.allocatesOnNextPush then none else b.construct c

/-- `clear_working_epoch`. -/
def clearWorkingEpoch (b : QuiescenceBuffer κ) : Option (QuiescenceBuffer κ) :=
  if b.workingEpochSize ≤ b.size then some { b with writePos := b.epochBegin + 1 } else none

/-- The first half of `finalize_epoch`: the header of the working epoch gets its epoch and its size. -/
def closeEpoch (b : QuiescenceBuffer κ) (epoch : Epoch) : Option (QuiescenceBuffer κ) :=
  (b.header? b.epochBegin).bind fun h =>
    b.store b.epochBegin (.header { h with epoch := some epoch, size := some b.workingEpochSize })

/-- The second half: the next working epoch begins at `write_pos++`. -/
def openEpoch (b : QuiescenceBuffer κ) (prevSize : UWord) : Option (QuiescenceBuffer κ) :=
  let b' := { b with epochBegin := b.wrap b.writePos }
  (b'.store b'.epochBegin (.header ⟨none, none, prevSize⟩)).map fun b =>
    { b with writePos := b.writePos + 1 }

/-- `finalize_epoch`. -/
def finalizeEpoch (reclaimLimit : UWord) (b : QuiescenceBuffer κ) (epoch : Epoch) :
    Option (QuiescenceBuffer κ × Bool) :=
  if b.workingEpochEmpty then some (b, false)
  else if b.workingEpochSize ≤ 1 then none
  else do
    let b1 ← b.closeEpoch epoch
    let b2 ← b1.openEpoch b1.workingEpochSize
    let b3 ← b2.reserveIfFull
    return (b3, decide (reclaimLimit ≤ b3.size))

/-! ## 4. The oldest chunk -/

/-- The loop of `do_first_epoch_callbacks` at `cur_idx`, with `rounds` rounds to `end`: the callbacks it
    runs. -/
def callbacksFrom (b : QuiescenceBuffer κ) : (rounds : Nat) → (curIdx : UWord) → Option (List κ)
  | 0, _ => some []
  | rounds + 1, curIdx => do
      let c ← b.callback? (b.wrap curIdx)
      let cs ← b.callbacksFrom rounds (curIdx + 1)
      return c :: cs

/-- The assertions at the head of `do_first_epoch_callbacks`; the answer is the size of the oldest chunk. -/
def firstEpochSize (b : QuiescenceBuffer κ) : Option UWord := do
  let h ← b.header? b.ringBegin
  let size ← h.size
  if b.workingEpochEmpty && decide (1 < b.size) && decide (1 < size) && decide (size < b.size) then
    return size
  else none

/-- The assignment to `ring_begin` behind the loop, and the assertion on the next header. -/
def dropFirstEpoch (b : QuiescenceBuffer κ) (curIdx curSize : UWord) : Option (QuiescenceBuffer κ) :=
  let b' := { b with ringBegin := b.wrap curIdx }
  (b'.header? b'.ringBegin).bind fun h => if h.prevSize = curSize then some b' else none

/-- `do_first_epoch_callbacks`, with callbacks that do not touch the buffer. -/
def doFirstEpochCallbacks (b : QuiescenceBuffer κ) : Option (QuiescenceBuffer κ × List κ) := do
  let curSize ← b.firstEpochSize
  let cs ← b.callbacksFrom (curSize - 1).toNat (b.ringBegin + 1)
  let b' ← b.dropFirstEpoch (b.ringBegin + curSize) curSize
  return (b', cs)

/-- `back_epoch`. -/
def backEpoch (b : QuiescenceBuffer κ) : Option Epoch :=
  if b.empty then none
  else do
    let h ← b.header? b.epochBegin
    let h' ← b.header? (b.wrap (b.epochBegin - h.prevSize))
    h'.epoch

/-- `front_epoch`. -/
def frontEpoch (b : QuiescenceBuffer κ) : Option Epoch :=
  if b.empty then none else (b.header? b.ringBegin).bind (·.epoch)

end QuiescenceBuffer

end LockfreeStm
