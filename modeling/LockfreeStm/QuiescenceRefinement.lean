/-
  File:      LockfreeStm/QuiescenceRefinement.lean
  Subject:   THE RING BUFFER IS A QUEUE OF EPOCHS.

  `layout` writes a queue out as the elements the source keeps for it: each chunk behind its header, and
  behind them the header of the working epoch and the working callbacks. `Represents b q` says that the
  ring buffer `b` holds the layout of `q` from `ring_begin` on, around the end of the array, and where
  its three positions stand. Every operation of the source keeps this, with the same answer as the
  operation of the queue.

  * `Represents.emplaceBack`, `Represents.finalizeEpoch`, `Represents.doFirstEpochCallbacks`, … -- one
    lemma for each operation.
  * `quiescence_buffer_refines` -- **the main result**, over every sequence of operations.
-/
import LockfreeStm.EpochQueue
import LockfreeStm.QuiescenceBuffer
import LockfreeStm.Library.Ring

namespace LockfreeStm

/-! ## 1. Words modulo the capacity -/

section Words

variable {x y c : UWord} {n s : Nat}

theorem isPowerOfTwo_iff : isPowerOfTwo c = true ↔ c.toNat.isPowerOfTwo := by
  rw [← Nat.ne_zero_and_sub_one_eq_zero_iff_isPowerOfTwo, isPowerOfTwo, Bool.and_eq_true, bne_iff_ne,
    beq_iff_eq, ne_eq, BitVec.toNat_eq, BitVec.toNat_eq, BitVec.toNat_and]
  refine and_congr_right fun h => ?_
  have hc : 1 ≤ c := BitVec.le_def.mpr (Nat.one_le_iff_ne_zero.mpr h)
  rw [BitVec.toNat_sub_of_le hc]
  rfl

/-- Masking with a power of two less one is the remainder. -/
theorem toNat_and_sub_one (hc : c.toNat.isPowerOfTwo) : (x &&& (c - 1)).toNat = x.toNat % c.toNat := by
  have h1 : 1 ≤ c := BitVec.le_def.mpr (Nat.pos_of_isPowerOfTwo hc)
  obtain ⟨k, hk⟩ := hc
  rw [BitVec.toNat_and, BitVec.toNat_sub_of_le h1, hk]
  exact Nat.and_two_pow_sub_one_eq_mod ..

theorem toNat_add_mod (hn : n ∣ 2 ^ 64) : (x + y).toNat % n = (x.toNat + y.toNat) % n := by
  rw [BitVec.toNat_add, Nat.mod_mod_of_dvd _ hn]

/-- Subtracting what has been added. -/
theorem toNat_sub_mod (hn : n ∣ 2 ^ 64) (h : x.toNat % n = (y.toNat + s) % n) :
    (x - y).toNat % n = s % n := by
  have hy := y.isLt
  rw [BitVec.toNat_sub, Nat.mod_mod_of_dvd _ hn, Nat.add_mod, h, ← Nat.add_mod]
  obtain ⟨m, hm⟩ := hn
  rw [show 2 ^ 64 - y.toNat + (y.toNat + s) = s + n * m by omega, Nat.add_mul_mod_self_left]

end Words

/-! ## 2. The layout of a queue -/

section Layout

variable {κ : Type}

/-- The number of elements of a chunk, its header included. -/
def Chunk.size (ch : Chunk κ) : Nat := ch.callbacks.length + 1

/-- The elements of a finalized chunk, behind one of size `prev`. -/
def Chunk.elems (prev : UWord) (ch : Chunk κ) : List (QuiescenceBufElem κ) :=
  .header ⟨some ch.epoch, some (BitVec.ofNat 64 ch.size), prev⟩ :: ch.callbacks.map .callback

/-- The elements of finalized chunks. -/
def closed (prev : UWord) : List (Chunk κ) → List (QuiescenceBufElem κ)
  | [] => []
  | ch :: chunks => ch.elems prev ++ closed (BitVec.ofNat 64 ch.size) chunks

/-- The size the next header remembers. -/
def lastSize (prev : UWord) : List (Chunk κ) → UWord
  | [] => prev
  | ch :: chunks => lastSize (BitVec.ofNat 64 ch.size) chunks

/-- The elements of a queue. -/
def layout (prev : UWord) (chunks : List (Chunk κ)) (working : List κ) : List (QuiescenceBufElem κ) :=
  closed prev chunks ++ .header ⟨none, none, lastSize prev chunks⟩ :: working.map .callback

/-- The slots of the finalized chunks. -/
def EpochQueue.finalized (q : EpochQueue κ) : Nat := (q.chunks.map Chunk.size).sum

theorem EpochQueue.size_eq (q : EpochQueue κ) : q.size = q.finalized + q.working.length + 1 := rfl

variable (prev : UWord) (chunks : List (Chunk κ)) (ch : Chunk κ) (working : List κ)

@[simp] theorem length_elems : (ch.elems prev).length = ch.size := by
  simp [Chunk.elems, Chunk.size]

@[simp] theorem length_closed : (closed prev chunks).length = (chunks.map Chunk.size).sum := by
  induction chunks generalizing prev with
  | nil => rfl
  | cons ch chunks ih => simp [closed, ih]

theorem lastSize_concat : lastSize prev (chunks ++ [ch]) = BitVec.ofNat 64 ch.size := by
  induction chunks generalizing prev with
  | nil => rfl
  | cons d chunks ih => exact ih _

theorem closed_concat :
    closed prev (chunks ++ [ch]) = closed prev chunks ++ ch.elems (lastSize prev chunks) := by
  induction chunks generalizing prev with
  | nil => simp [closed, lastSize]
  | cons d chunks ih => simp [closed, lastSize, ih]

theorem length_layout (q : EpochQueue κ) : (layout prev q.chunks q.working).length = q.size := by
  simp [layout, EpochQueue.size_eq, EpochQueue.finalized, Nat.add_assoc]

/-- The oldest chunk stands first. -/
theorem layout_cons : layout prev (ch :: chunks) working =
    ch.elems prev ++ layout (BitVec.ofNat 64 ch.size) chunks working := by
  simp [layout, closed, lastSize]

/-- A finalized working list is followed by a new header. -/
theorem layout_concat (e : Nat) : layout prev (chunks ++ [⟨e, working⟩]) [] =
    (closed prev chunks ++ .header ⟨some e, some (BitVec.ofNat 64 (working.length + 1)),
      lastSize prev chunks⟩ :: working.map .callback) ++
      [.header ⟨none, none, BitVec.ofNat 64 (working.length + 1)⟩] := by
  simp [layout, closed_concat, lastSize_concat, Chunk.elems, Chunk.size]

end Layout

/-! ## 3. The representation -/

section Represents

variable {κ : Type}

/-- The ring buffer holds the queue; it may be full. -/
structure Represents (b : QuiescenceBuffer κ) (q : EpochQueue κ) : Prop where
  capacity : b.capacity.toNat = q.capacity
  pow : q.capacity.isPowerOfTwo
  length : b.buffer.length = q.capacity
  ring : b.ringBegin.toNat < q.capacity
  epochBegin : b.epochBegin.toNat = (b.ringBegin.toNat + q.finalized) % q.capacity
  writePos : b.writePos.toNat % q.capacity = (b.ringBegin.toNat + q.size) % q.capacity
  holds : ∃ prev, Ring.Holds b.buffer b.ringBegin.toNat (layout prev q.chunks q.working)
  chunks : ∀ ch ∈ q.chunks, ch.callbacks ≠ []

namespace Represents

variable {b : QuiescenceBuffer κ} {q : EpochQueue κ}

theorem pow' (h : Represents b q) : b.capacity.toNat.isPowerOfTwo := h.capacity ▸ h.pow

theorem capacity_lt (h : Represents b q) : q.capacity < 2 ^ 64 := h.capacity ▸ b.capacity.isLt

theorem capacity_pos (h : Represents b q) : 0 < q.capacity := Nat.pos_of_isPowerOfTwo h.pow

/-- The capacity divides the number of words. -/
theorem dvd (h : Represents b q) : q.capacity ∣ 2 ^ 64 := by
  have hlt := h.capacity_lt
  obtain ⟨k, hk⟩ := h.pow
  rw [hk] at hlt ⊢
  exact Nat.pow_dvd_pow 2 ((Nat.pow_lt_pow_iff_right (by decide)).mp hlt).le

theorem wrap (h : Represents b q) (i : UWord) : (b.wrap i).toNat = i.toNat % q.capacity := by
  rw [QuiescenceBuffer.wrap, toNat_and_sub_one h.pow', h.capacity]

theorem wrap_lt (h : Represents b q) (i : UWord) : (b.wrap i).toNat < q.capacity := by
  rw [h.wrap]
  exact Nat.mod_lt _ h.capacity_pos

theorem size_le (h : Represents b q) : q.size ≤ q.capacity := by
  obtain ⟨prev, hh⟩ := h.holds
  have := hh.fits
  rwa [length_layout, h.length] at this

theorem toNat_size (h : Represents b q) (hlt : q.size < q.capacity) : b.size.toNat = q.size := by
  rw [QuiescenceBuffer.size, h.wrap, toNat_sub_mod h.dvd h.writePos, Nat.mod_eq_of_lt hlt]

theorem writePos_eq (h : Represents b q) : b.writePos.toNat % q.capacity =
    (b.epochBegin.toNat + (q.working.length + 1)) % q.capacity := by
  rw [h.writePos, h.epochBegin, Nat.mod_add_mod, q.size_eq, Nat.add_assoc, Nat.add_assoc]

theorem toNat_workingEpochSize (h : Represents b q) (hlt : q.size < q.capacity) :
    b.workingEpochSize.toNat = q.working.length + 1 := by
  have hle : q.working.length + 1 ≤ q.size := by rw [q.size_eq]; omega
  rw [QuiescenceBuffer.workingEpochSize, h.wrap, toNat_sub_mod h.dvd h.writePos_eq,
    Nat.mod_eq_of_lt (hle.trans_lt hlt)]

theorem workingEpochEmpty (h : Represents b q) (hlt : q.size < q.capacity) :
    b.workingEpochEmpty = q.working.isEmpty := by
  rw [QuiescenceBuffer.workingEpochEmpty, Bool.eq_iff_iff, beq_iff_eq, BitVec.toNat_eq,
    h.toNat_workingEpochSize hlt, List.isEmpty_iff_length_eq_zero]
  show _ = 1 ↔ _
  omega

/-- An element of the layout, read from the array. -/
theorem get (h : Represents b q) {prev : UWord}
    (hh : Ring.Holds b.buffer b.ringBegin.toNat (layout prev q.chunks q.working)) {i : Nat}
    {e : QuiescenceBufElem κ} (he : (layout prev q.chunks q.working)[i]? = some e) {pos : UWord}
    (hpos : pos.toNat = (b.ringBegin.toNat + i) % q.capacity) : b.buffer[pos.toNat]? = some e := by
  rw [hpos, ← h.length]
  exact hh.slot he

/-- The header of the working epoch. -/
theorem header_epochBegin (h : Represents b q) {prev : UWord}
    (hh : Ring.Holds b.buffer b.ringBegin.toNat (layout prev q.chunks q.working)) :
    b.header? b.epochBegin = some ⟨none, none, lastSize prev q.chunks⟩ := by
  have he : (layout prev q.chunks q.working)[q.finalized]? =
      some (.header ⟨none, none, lastSize prev q.chunks⟩) := by
    rw [layout, List.getElem?_append_right (by rw [length_closed]; exact Nat.le_refl _), length_closed]
    simp [EpochQueue.finalized]
  rw [QuiescenceBuffer.header?, h.get hh he h.epochBegin]

/-! ## 4. The operations -/

/-- The constructor. -/
theorem init {limit : UWord} (hpow : isPowerOfTwo limit = true) (hcap : limit.toNat * 2 < 2 ^ 64) :
    Represents (QuiescenceBuffer.init limit) (EpochQueue.init limit.toNat : EpochQueue κ) := by
  have hp := isPowerOfTwo_iff.mp hpow
  have hpos := Nat.pos_of_isPowerOfTwo hp
  have hdouble : (limit * 2).toNat = limit.toNat * 2 := by
    rw [BitVec.toNat_mul]
    exact Nat.mod_eq_of_lt hcap
  refine ⟨?_, Nat.isPowerOfTwo_mul_two_of_isPowerOfTwo hp, ?_, Nat.mul_pos hpos (by decide), ?_, ?_,
    ⟨0, ?_⟩, fun ch hch => by cases hch⟩
  · show (limit * 2 - 1 + 1).toNat = _
    rw [BitVec.sub_add_cancel, hdouble]
    rfl
  · show (_ :: List.replicate ((limit * 2).toNat - 1) _).length = limit.toNat * 2
    rw [List.length_cons, List.length_replicate, hdouble]
    omega
  · exact (Nat.zero_mod _).symm
  · rfl
  · exact Ring.Holds.ofPrefix (l := [QuiescenceBufElem.header ⟨none, none, 0⟩])

/-- A callback is written into the slot behind the working list. -/
theorem construct (h : Represents b q) (hlt : q.size < q.capacity) (c : κ) :
    ∃ b', b.construct c = some b' ∧ Represents b' (q.uncheckedEmplaceBack c) := by
  have hw := h.wrap_lt b.writePos
  refine ⟨_, by rw [QuiescenceBuffer.construct, QuiescenceBuffer.store,
    if_pos (by rw [h.length]; exact hw), Option.map_some], ?_⟩
  obtain ⟨prev, hh⟩ := h.holds
  have hsize : (q.uncheckedEmplaceBack c).size = q.size + 1 := by
    simp [EpochQueue.size, EpochQueue.uncheckedEmplaceBack, Nat.add_assoc]
  have hpush := hh.push (x := .callback c) (by rw [length_layout, h.length]; exact hlt)
  refine ⟨h.capacity, h.pow, ?_, h.ring, h.epochBegin, ?_, ⟨prev, ?_⟩, h.chunks⟩
  · rw [List.length_set]
    exact h.length
  · show (b.writePos + 1).toNat % q.capacity = _
    rw [toNat_add_mod h.dvd, hsize, Nat.add_mod, h.writePos, ← Nat.add_mod]
    rfl
  · rw [length_layout, h.length, ← h.writePos, ← h.wrap] at hpush
    simpa [layout, EpochQueue.uncheckedEmplaceBack] using hpush

/-- `reserve_more` keeps the elements and doubles the capacity. -/
theorem reserveMore (h : Represents b q) (hfull : q.size = q.capacity)
    (hcap : q.capacity * 2 < 2 ^ 64) :
    ∃ b', b.reserveMore = some b' ∧ Represents b' { q with capacity := q.capacity * 2 } := by
  have hdouble : (b.capacity <<< 1).toNat = q.capacity * 2 := by
    rw [BitVec.toNat_shiftLeft, Nat.shiftLeft_eq, h.capacity]
    exact Nat.mod_eq_of_lt hcap
  have hpos := h.capacity_pos
  have hgrows : b.capacity < b.capacity <<< 1 := by
    rw [BitVec.lt_def, hdouble, h.capacity]
    omega
  have hfin : q.finalized < q.capacity := by
    rw [← hfull, q.size_eq]
    omega
  refine ⟨_, by rw [QuiescenceBuffer.reserveMore, if_pos]; simpa using ⟨isPowerOfTwo_iff.mpr h.pow', hgrows⟩, ?_⟩
  obtain ⟨prev, hh⟩ := h.holds
  have hrot := hh.rotate (r := List.replicate b.capacity.toNat .uninitialized)
    (by rw [h.length]; exact h.ring.le)
  refine ⟨?_, Nat.isPowerOfTwo_mul_two_of_isPowerOfTwo h.pow, ?_, ?_, ?_, ?_, ⟨prev, hrot⟩, h.chunks⟩
  · show (b.capacity <<< 1 - 1 + 1).toNat = _
    rw [BitVec.sub_add_cancel]
    exact hdouble
  · simp only [List.length_append, List.length_drop, List.length_take, List.length_replicate,
      h.length, h.capacity]
    have := h.ring
    omega
  · exact Nat.mul_pos hpos (by decide)
  · show (b.wrap (b.epochBegin - b.ringBegin)).toNat = (0 + q.finalized) % (q.capacity * 2)
    have hmod : b.epochBegin.toNat % q.capacity = (b.ringBegin.toNat + q.finalized) % q.capacity := by
      rw [h.epochBegin, Nat.mod_mod]
    rw [h.wrap, toNat_sub_mod h.dvd hmod, Nat.mod_eq_of_lt hfin, Nat.zero_add, Nat.mod_eq_of_lt]
    omega
  · show b.capacity.toNat % (q.capacity * 2) = (0 + q.size) % (q.capacity * 2)
    rw [h.capacity, hfull, Nat.zero_add]

/-- The check behind a push: the buffer grows when its last slot has been taken. -/
theorem reserveIfFull (h : Represents b q) (hcap : q.grow.capacity < 2 ^ 64) :
    ∃ b', b.reserveIfFull = some b' ∧ Represents b' q.grow ∧ q.grow.size < q.grow.capacity := by
  have hwrap : (b.wrap b.writePos).toNat = (b.ringBegin.toNat + q.size) % q.capacity := by
    rw [h.wrap, h.writePos]
  have hpos := h.capacity_pos
  unfold EpochQueue.grow at hcap ⊢
  split at hcap
  · rename_i hfull
    rw [if_pos hfull]
    obtain ⟨b', hb, hr⟩ := h.reserveMore hfull hcap
    refine ⟨b', ?_, hr, ?_⟩
    · rw [QuiescenceBuffer.reserveIfFull, if_pos, hb]
      rw [BitVec.toNat_eq, hwrap, hfull, Nat.add_mod_right, Nat.mod_eq_of_lt h.ring]
    · show q.size < q.capacity * 2
      omega
  · rename_i hfull
    have hlt := h.size_le.lt_of_ne hfull
    rw [if_neg hfull]
    refine ⟨b, ?_, h, hlt⟩
    rw [QuiescenceBuffer.reserveIfFull, if_neg]
    rw [BitVec.toNat_eq, hwrap]
    intro he
    have hzero : q.size = 0 :=
      Ring.index_inj hlt hpos (by rw [he, Nat.add_zero, Nat.mod_eq_of_lt h.ring])
    rw [q.size_eq] at hzero
    omega

/-- `emplace_back`. -/
theorem emplaceBack (h : Represents b q) (hlt : q.size < q.capacity) (c : κ)
    (hcap : (q.emplaceBack c).capacity < 2 ^ 64) :
    ∃ b', b.emplaceBack c = some b' ∧ Represents b' (q.emplaceBack c) ∧
      (q.emplaceBack c).size < (q.emplaceBack c).capacity := by
  obtain ⟨b1, hb1, h1⟩ := h.construct hlt c
  rw [QuiescenceBuffer.emplaceBack, hb1]
  exact h1.reserveIfFull hcap

theorem allocatesOnNextPush (h : Represents b q) (hlt : q.size < q.capacity) :
    b.allocatesOnNextPush = q.allocatesOnNextPush := by
  have hlast : b.lastValidIndex.toNat = q.capacity - 1 := by
    have hc := h.capacity
    have hpos := h.capacity_pos
    have hle : 1 ≤ b.capacity := BitVec.le_def.mpr (by rw [hc]; exact hpos)
    have he : b.lastValidIndex = b.capacity - 1 := (BitVec.add_sub_cancel ..).symm
    rw [he, BitVec.toNat_sub_of_le hle, hc]
    rfl
  rw [QuiescenceBuffer.allocatesOnNextPush, EpochQueue.allocatesOnNextPush, Bool.eq_iff_iff, beq_iff_eq,
    beq_iff_eq, BitVec.toNat_eq, hlast]
  show b.size.toNat = _ ↔ _
  rw [h.toNat_size hlt]

/-- `unchecked_emplace_back`, where the buffer does not grow. -/
theorem uncheckedEmplaceBack (h : Represents b q) (hlt : q.size < q.capacity) (c : κ)
    (hroom : q.allocatesOnNextPush = false) :
    ∃ b', b.uncheckedEmplaceBack c = some b' ∧ Represents b' (q.uncheckedEmplaceBack c) ∧
      (q.uncheckedEmplaceBack c).size < (q.uncheckedEmplaceBack c).capacity := by
  obtain ⟨b', hb, h'⟩ := h.construct hlt c
  refine ⟨b', ?_, h', ?_⟩
  · rw [QuiescenceBuffer.uncheckedEmplaceBack, h.allocatesOnNextPush hlt, hroom]
    exact hb
  · have hne : q.size ≠ q.capacity - 1 := by simpa [EpochQueue.allocatesOnNextPush] using hroom
    have hsize : (q.uncheckedEmplaceBack c).size = q.size + 1 := by
      simp [EpochQueue.size, EpochQueue.uncheckedEmplaceBack, Nat.add_assoc]
    show (q.uncheckedEmplaceBack c).size < q.capacity
    omega

/-- `clear_working_epoch`. -/
theorem clearWorkingEpoch (h : Represents b q) (hlt : q.size < q.capacity) :
    ∃ b', b.clearWorkingEpoch = some b' ∧ Represents b' q.clearWorkingEpoch ∧
      q.clearWorkingEpoch.size < q.clearWorkingEpoch.capacity := by
  have hle : b.workingEpochSize ≤ b.size := by
    rw [BitVec.le_def, h.toNat_workingEpochSize hlt, h.toNat_size hlt, q.size_eq]
    omega
  have hsize : q.clearWorkingEpoch.size = q.finalized + 1 := rfl
  refine ⟨_, by rw [QuiescenceBuffer.clearWorkingEpoch, if_pos hle], ?_, ?_⟩
  · obtain ⟨prev, hh⟩ := h.holds
    refine ⟨h.capacity, h.pow, h.length, h.ring, h.epochBegin, ?_, ⟨prev, ?_⟩, h.chunks⟩
    · show (b.epochBegin + 1).toNat % q.capacity = _
      rw [toNat_add_mod h.dvd, h.epochBegin, Nat.mod_add_mod, hsize, ← Nat.add_assoc]
      rfl
    · have hsplit : layout prev q.chunks q.working =
          layout prev q.chunks [] ++ q.working.map .callback := by
        simp [layout]
      rw [hsplit] at hh
      exact hh.left
  · rw [hsize]
    rw [q.size_eq] at hlt
    show q.finalized + 1 < q.capacity
    omega

/-- The working list becomes the newest chunk. -/
theorem pushChunk (h : Represents b q) (hlt : q.size < q.capacity) (hne : q.working ≠ []) (e : Epoch) :
    ∃ b1 b2, b.closeEpoch e = some b1 ∧ b1.openEpoch b1.workingEpochSize = some b2 ∧
      Represents b2 (q.pushChunk e) := by
  obtain ⟨prev, hh⟩ := h.holds
  have hbegin : b.epochBegin.toNat < b.buffer.length := by
    rw [h.epochBegin, h.length]
    exact Nat.mod_lt _ h.capacity_pos
  have hwrap := h.wrap_lt b.writePos
  have hwork : b.workingEpochSize = BitVec.ofNat 64 (q.working.length + 1) := by
    rw [← h.toNat_workingEpochSize hlt, BitVec.ofNat_toNat, BitVec.setWidth_eq]
  refine ⟨_, _, by rw [QuiescenceBuffer.closeEpoch, h.header_epochBegin hh, Option.bind_some,
    QuiescenceBuffer.store, if_pos hbegin], by
      rw [QuiescenceBuffer.openEpoch, QuiescenceBuffer.store, if_pos, Option.map_some]
      rw [List.length_set, h.length]
      exact hwrap, ?_⟩
  have hsize : (q.pushChunk e).size = q.size + 1 := by
    simp [EpochQueue.size, EpochQueue.pushChunk, Nat.add_assoc]
  have hfin : (q.pushChunk e).finalized = q.size := by
    simp [EpochQueue.finalized, EpochQueue.size_eq, EpochQueue.pushChunk, Chunk.size, Nat.add_assoc]
  refine ⟨h.capacity, h.pow, ?_, h.ring, ?_, ?_, ⟨prev, ?_⟩, ?_⟩
  · rw [List.length_set, List.length_set]
    exact h.length
  · show (b.wrap b.writePos).toNat = _
    rw [h.wrap, h.writePos, hfin]
    rfl
  · show (b.writePos + 1).toNat % q.capacity = _
    rw [toNat_add_mod h.dvd, hsize, Nat.add_mod, h.writePos, ← Nat.add_mod]
    rfl
  · have hclose := hh.set
      (x := .header ⟨some e, some b.workingEpochSize, lastSize prev q.chunks⟩)
    have hlen : (closed prev q.chunks ++
        (QuiescenceBufElem.header ⟨some e, some b.workingEpochSize, lastSize prev q.chunks⟩ ::
          q.working.map QuiescenceBufElem.callback)).length = q.size := by
      rw [← length_layout prev q, layout, List.length_append, List.length_append, List.length_cons,
        List.length_cons]
    have hopen := hclose.push (x := .header ⟨none, none, b.workingEpochSize⟩)
      (by rw [hlen, List.length_set, h.length]; exact hlt)
    rw [hlen, List.length_set, length_closed, h.length, ← h.writePos, ← h.wrap] at hopen
    have hindex := h.epochBegin
    rw [EpochQueue.finalized] at hindex
    rw [← hindex] at hopen
    show Ring.Holds _ _ (layout prev (q.chunks ++ [⟨e, q.working⟩]) [])
    rw [layout_concat, ← hwork]
    exact hopen
  · intro ch hch
    rcases List.mem_append.mp hch with hch | hch
    · exact h.chunks ch hch
    · rw [List.mem_singleton.mp hch]
      exact hne

/-- `finalize_epoch`. -/
theorem finalizeEpoch {limit : UWord} (h : Represents b q) (hlt : q.size < q.capacity) (e : Epoch)
    (hcap : (q.finalizeEpoch limit.toNat e).1.capacity < 2 ^ 64) :
    ∃ b', b.finalizeEpoch limit e = some (b', (q.finalizeEpoch limit.toNat e).2) ∧
      Represents b' (q.finalizeEpoch limit.toNat e).1 ∧
      (q.finalizeEpoch limit.toNat e).1.size < (q.finalizeEpoch limit.toNat e).1.capacity := by
  unfold EpochQueue.finalizeEpoch at hcap ⊢
  unfold QuiescenceBuffer.finalizeEpoch
  cases hempty : q.working.isEmpty with
  | true =>
    refine ⟨b, ?_, h, hlt⟩
    rw [if_pos ((h.workingEpochEmpty hlt).trans hempty)]
    rfl
  | false =>
    rw [hempty] at hcap
    have hne : q.working ≠ [] := by simpa using hempty
    obtain ⟨b1, b2, hb1, hb2, h2⟩ := h.pushChunk hlt hne e
    obtain ⟨b3, hb3, h3, hlt3⟩ := h2.reserveIfFull hcap
    refine ⟨b3, ?_, h3, hlt3⟩
    have hgt : ¬ b.workingEpochSize ≤ 1 := by
      rw [BitVec.le_def, h.toNat_workingEpochSize hlt]
      have := List.length_pos_iff.mpr hne
      show ¬ q.working.length + 1 ≤ 1
      omega
    have hanswer : (limit ≤ b3.size) ↔ limit.toNat ≤ (q.pushChunk e).size := by
      rw [BitVec.le_def, h3.toNat_size hlt3, EpochQueue.size_grow]
    rw [if_neg (by rw [h.workingEpochEmpty hlt, hempty]; decide), if_neg hgt, hb1, Option.bind_eq_bind,
      Option.bind_some, hb2, Option.bind_some, hb3]
    show some (b3, decide (limit ≤ b3.size)) = some (b3, decide _)
    rw [decide_eq_decide.mpr hanswer]

/-- The loop over a chunk that stands behind `curIdx`: an induction on the callbacks. -/
theorem callbacksFrom (h : Represents b q) (cs : List κ) {start : Nat} {curIdx : UWord}
    (hcur : curIdx.toNat % q.capacity = start % q.capacity)
    (hh : Ring.Holds b.buffer start (cs.map .callback)) :
    b.callbacksFrom cs.length curIdx = some cs := by
  induction cs generalizing start curIdx with
  | nil => rfl
  | cons c cs ih =>
    have hslot : b.buffer[(b.wrap curIdx).toNat]? = some (.callback c) := by
      rw [h.wrap, hcur, ← h.length]
      exact hh.slot (i := 0) rfl
    have hnext : (curIdx + 1).toNat % q.capacity = (start + 1) % q.capacity := by
      rw [toNat_add_mod h.dvd, Nat.add_mod, hcur, ← Nat.add_mod]
      rfl
    have hcons : Ring.Holds b.buffer start ([QuiescenceBufElem.callback c] ++ cs.map .callback) := hh
    have hrest := ih hnext hcons.right
    show (b.callback? (b.wrap curIdx)).bind (fun _ => _) = _
    rw [QuiescenceBuffer.callback?, hslot, Option.bind_some, hrest]
    rfl

/-- The header of the oldest chunk. -/
theorem header_ringBegin (h : Represents b q) {prev : UWord} {ch : Chunk κ} {chunks : List (Chunk κ)}
    (hh : Ring.Holds b.buffer b.ringBegin.toNat (layout prev q.chunks q.working))
    (hq : q.chunks = ch :: chunks) :
    b.header? b.ringBegin = some ⟨some ch.epoch, some (BitVec.ofNat 64 ch.size), prev⟩ := by
  have he : (layout prev q.chunks q.working)[0]? =
      some (.header ⟨some ch.epoch, some (BitVec.ofNat 64 ch.size), prev⟩) := by
    rw [hq]
    rfl
  rw [QuiescenceBuffer.header?, h.get hh he (by rw [Nat.add_zero, Nat.mod_eq_of_lt h.ring])]

section Front

variable {ch : Chunk κ} {chunks : List (Chunk κ)}

theorem size_cons (hq : q.chunks = ch :: chunks) : q.size = ch.size + q.popFront.size := by
  have hfin : q.finalized = ch.size + q.popFront.finalized := by
    simp [EpochQueue.finalized, EpochQueue.popFront, hq]
  rw [q.size_eq, q.popFront.size_eq, hfin, Nat.add_assoc, Nat.add_assoc]
  rfl

/-- The size of the oldest chunk is counted in a word. -/
theorem toNat_chunkSize (h : Represents b q) (hlt : q.size < q.capacity) (hq : q.chunks = ch :: chunks) :
    (BitVec.ofNat 64 ch.size).toNat = ch.size := by
  rw [BitVec.toNat_ofNat, Nat.mod_eq_of_lt]
  have := h.capacity_lt
  have := size_cons hq
  omega

/-- The assertions at the head of `do_first_epoch_callbacks`. -/
theorem firstEpochSize (h : Represents b q) (hlt : q.size < q.capacity) (hq : q.chunks = ch :: chunks)
    (hw : q.working = []) : b.firstEpochSize = some (BitVec.ofNat 64 ch.size) := by
  obtain ⟨prev, hh⟩ := h.holds
  have hne : ch.callbacks ≠ [] := h.chunks ch (hq ▸ List.mem_cons_self)
  have hsize := size_cons hq
  have hpop : 0 < q.popFront.size := by
    rw [q.popFront.size_eq]
    omega
  have hgt : 1 < ch.size := Nat.succ_lt_succ (List.length_pos_iff.mpr hne)
  have hone : (1 : UWord).toNat = 1 := rfl
  have hempty : b.workingEpochEmpty = true := by rw [h.workingEpochEmpty hlt, hw]; rfl
  rw [QuiescenceBuffer.firstEpochSize, h.header_ringBegin hh hq, Option.bind_eq_bind, Option.bind_some,
    Option.bind_eq_bind, Option.bind_some, hempty, if_pos]
  · rfl
  · simp only [Bool.true_and, Bool.and_eq_true, decide_eq_true_eq, BitVec.lt_def, hone,
      h.toNat_chunkSize hlt hq, h.toNat_size hlt]
    omega

/-- The callbacks of the oldest chunk stand behind its header. -/
theorem holds_front (h : Represents b q) (hq : q.chunks = ch :: chunks) :
    Ring.Holds b.buffer (b.ringBegin.toNat + 1) (ch.callbacks.map .callback) := by
  obtain ⟨prev, hh⟩ := h.holds
  rw [hq, layout_cons] at hh
  have helems : Ring.Holds b.buffer b.ringBegin.toNat
      ([.header ⟨some ch.epoch, some (BitVec.ofNat 64 ch.size), prev⟩] ++
        ch.callbacks.map .callback) := hh.left
  exact helems.right

/-- The assignment to `ring_begin` drops the oldest chunk. -/
theorem dropFirstEpoch (h : Represents b q) (hlt : q.size < q.capacity) (hq : q.chunks = ch :: chunks) :
    ∃ b', b.dropFirstEpoch (b.ringBegin + BitVec.ofNat 64 ch.size) (BitVec.ofNat 64 ch.size) = some b' ∧
      Represents b' q.popFront ∧ q.popFront.size < q.popFront.capacity := by
  obtain ⟨prev, hh⟩ := h.holds
  have hsize := size_cons hq
  have hfin : q.finalized = ch.size + q.popFront.finalized := by
    simp [EpochQueue.finalized, EpochQueue.popFront, hq]
  -- what follows the elements of the chunk
  rw [hq, layout_cons] at hh
  have hlayout := hh.right
  rw [length_elems] at hlayout
  have hbegin : (b.wrap (b.ringBegin + BitVec.ofNat 64 ch.size)).toNat =
      (b.ringBegin.toNat + ch.size) % q.capacity := by
    rw [h.wrap, toNat_add_mod h.dvd, h.toNat_chunkSize hlt hq]
  have hdrop : b.dropFirstEpoch (b.ringBegin + BitVec.ofNat 64 ch.size) (BitVec.ofNat 64 ch.size) =
      some { b with ringBegin := b.wrap (b.ringBegin + BitVec.ofNat 64 ch.size) } := by
    have hslot : ∃ h', (layout (BitVec.ofNat 64 ch.size) chunks q.working)[0]? = some (.header h') ∧
        h'.prevSize = BitVec.ofNat 64 ch.size := by
      cases chunks with
      | nil => exact ⟨_, rfl, rfl⟩
      | cons d chunks => exact ⟨_, rfl, rfl⟩
    obtain ⟨h', hget, hprev⟩ := hslot
    have hread : b.buffer[(b.wrap (b.ringBegin + BitVec.ofNat 64 ch.size)).toNat]? =
        some (.header h') := by
      rw [hbegin, ← h.length]
      exact hlayout.slot hget
    simp only [QuiescenceBuffer.dropFirstEpoch, QuiescenceBuffer.header?, hread, Option.bind_some,
      if_pos hprev]
  refine ⟨_, hdrop, ?_, ?_⟩
  · refine ⟨h.capacity, h.pow, h.length, h.wrap_lt _, ?_, ?_, ⟨BitVec.ofNat 64 ch.size, ?_⟩, ?_⟩
    · show b.epochBegin.toNat = ((b.wrap _).toNat + q.popFront.finalized) % q.capacity
      rw [hbegin, Nat.mod_add_mod, h.epochBegin, hfin, Nat.add_assoc]
    · show b.writePos.toNat % q.capacity = ((b.wrap _).toNat + q.popFront.size) % q.capacity
      rw [hbegin, Nat.mod_add_mod, h.writePos, hsize, Nat.add_assoc]
    · show Ring.Holds b.buffer (b.wrap _).toNat (layout _ q.chunks.tail q.working)
      rw [hq, hbegin, ← h.length]
      exact hlayout.congr (Nat.mod_mod ..)
    · exact fun d hd => h.chunks d (List.mem_of_mem_tail hd)
  · show q.popFront.size < q.capacity
    omega

/-- `do_first_epoch_callbacks` runs the oldest chunk and drops it. -/
theorem doFirstEpochCallbacks (h : Represents b q) (hlt : q.size < q.capacity)
    (hq : q.chunks = ch :: chunks) (hw : q.working = []) :
    ∃ b', b.doFirstEpochCallbacks = some (b', ch.callbacks) ∧ Represents b' q.popFront ∧
      q.popFront.size < q.popFront.capacity := by
  have hloop : b.callbacksFrom (BitVec.ofNat 64 ch.size - 1).toNat (b.ringBegin + 1) =
      some ch.callbacks := by
    have hrounds : (BitVec.ofNat 64 ch.size - 1).toNat = ch.callbacks.length := by
      have hword := h.toNat_chunkSize hlt hq
      rw [BitVec.toNat_sub_of_le (BitVec.le_def.mpr (by rw [hword]; exact Nat.le_add_left 1 _)), hword]
      rfl
    rw [hrounds]
    exact h.callbacksFrom ch.callbacks (toNat_add_mod h.dvd) (h.holds_front hq)
  obtain ⟨b', hdrop, h', hlt'⟩ := h.dropFirstEpoch hlt hq
  refine ⟨b', ?_, h', hlt'⟩
  rw [QuiescenceBuffer.doFirstEpochCallbacks, h.firstEpochSize hlt hq hw, Option.bind_eq_bind,
    Option.bind_some, hloop, Option.bind_eq_bind, Option.bind_some, hdrop]
  rfl

end Front

/-! ## 5. The observers -/

/-- `empty`: there is no chunk and no working callback. -/
theorem empty (h : Represents b q) (hlt : q.size < q.capacity) : b.empty = q.isEmpty := by
  have hzero : q.finalized = 0 ↔ q.chunks = [] := by
    constructor
    · intro hz
      cases hq : q.chunks with
      | nil => rfl
      | cons ch chunks => simp [EpochQueue.finalized, hq, Chunk.size] at hz
    · intro hz
      simp [EpochQueue.finalized, hz]
  rw [QuiescenceBuffer.empty, EpochQueue.isEmpty, Bool.eq_iff_iff, beq_iff_eq, BitVec.toNat_eq,
    h.toNat_size hlt, q.size_eq, Bool.and_eq_true, List.isEmpty_iff, List.isEmpty_iff, ← hzero,
    ← List.length_eq_zero_iff]
  show _ = 1 ↔ _
  omega

/-- With a chunk in it the buffer is not empty. -/
theorem empty_eq_false (h : Represents b q) (hlt : q.size < q.capacity) (hne : q.chunks ≠ []) :
    b.empty = false := by
  rw [h.empty hlt, EpochQueue.isEmpty, List.isEmpty_eq_false_iff.mpr hne, Bool.false_and]

/-- `front_epoch`. -/
theorem frontEpoch (h : Represents b q) (hlt : q.size < q.capacity) {e : Epoch}
    (he : q.frontEpoch? = some e) : b.frontEpoch = some e := by
  obtain ⟨prev, hh⟩ := h.holds
  cases hq : q.chunks with
  | nil => simp [EpochQueue.frontEpoch?, hq] at he
  | cons ch chunks =>
    have hne : q.chunks ≠ [] := by simp [hq]
    rw [QuiescenceBuffer.frontEpoch, h.empty_eq_false hlt hne, if_neg Bool.false_ne_true,
      h.header_ringBegin hh hq, Option.bind_some, ← he, EpochQueue.frontEpoch?, hq]
    rfl

/-- `back_epoch` walks back over the newest chunk. -/
theorem backEpoch (h : Represents b q) (hlt : q.size < q.capacity) {e : Epoch}
    (he : q.backEpoch? = some e) : b.backEpoch = some e := by
  obtain ⟨prev, hh⟩ := h.holds
  have hne : q.chunks ≠ [] := by
    intro hq
    simp [EpochQueue.backEpoch?, hq] at he
  obtain ⟨chunks, ch, hq⟩ : ∃ chunks ch, q.chunks = chunks ++ [ch] :=
    ⟨_, _, (List.dropLast_append_getLast hne).symm⟩
  have hepoch : ch.epoch = e := by simpa [EpochQueue.backEpoch?, hq] using he
  have hfin : q.finalized = (chunks.map Chunk.size).sum + ch.size := by
    simp [EpochQueue.finalized, hq]
  have hword : (BitVec.ofNat 64 ch.size).toNat = ch.size := by
    rw [BitVec.toNat_ofNat, Nat.mod_eq_of_lt]
    have := h.capacity_lt
    rw [q.size_eq] at hlt
    omega
  have hprev : lastSize prev q.chunks = BitVec.ofNat 64 ch.size := by rw [hq, lastSize_concat]
  have hindex : (b.wrap (b.epochBegin - BitVec.ofNat 64 ch.size)).toNat =
      (b.ringBegin.toNat + (chunks.map Chunk.size).sum) % q.capacity := by
    rw [h.wrap, toNat_sub_mod h.dvd (s := b.ringBegin.toNat + (chunks.map Chunk.size).sum)]
    rw [h.epochBegin, Nat.mod_mod, hfin, hword]
    congr 1
    omega
  have hslot : (layout prev q.chunks q.working)[(chunks.map Chunk.size).sum]? =
      some (.header ⟨some ch.epoch, some (BitVec.ofNat 64 ch.size), lastSize prev chunks⟩) := by
    rw [layout, hq, closed_concat, List.append_assoc, List.getElem?_append_right, length_closed,
      Nat.sub_self]
    · rfl
    · rw [length_closed]
  rw [QuiescenceBuffer.backEpoch, h.empty_eq_false hlt hne, if_neg Bool.false_ne_true,
    h.header_epochBegin hh, Option.bind_eq_bind, Option.bind_some, hprev]
  show (b.header? (b.wrap (b.epochBegin - BitVec.ofNat 64 ch.size))).bind _ = _
  rw [QuiescenceBuffer.header?, h.get hh hslot hindex, Option.bind_some, hepoch]

end Represents

end Represents

/-! ## 6. Sequences of operations -/

section Operations

variable {κ : Type}

/-- The operations that change the buffer. -/
inductive QuiescenceOp (κ : Type) where
  | emplaceBack (c : κ)
  | uncheckedEmplaceBack (c : κ)
  | clearWorkingEpoch
  | finalizeEpoch (epoch : Epoch)
  | doFirstEpochCallbacks
deriving DecidableEq

/-- What an operation answers: whether the reclaim limit is reached, and the callbacks it has run. -/
structure QuiescenceAnswer (κ : Type) where
  limitReached : Bool
  ran : List κ
deriving DecidableEq

/-- The answer of an operation that has none. -/
def QuiescenceAnswer.done : QuiescenceAnswer κ := ⟨false, []⟩

namespace QuiescenceBuffer

/-- What a caller has to check before an operation. -/
def admits (b : QuiescenceBuffer κ) : QuiescenceOp κ → Bool
  | .uncheckedEmplaceBack _ => !b.allocatesOnNextPush
  | .doFirstEpochCallbacks => b.workingEpochEmpty && !b.empty
  | _ => true

/-- One operation of the ring buffer. -/
def perform (reclaimLimit : UWord) (b : QuiescenceBuffer κ) :
    QuiescenceOp κ → Option (QuiescenceBuffer κ × QuiescenceAnswer κ)
  | .emplaceBack c => (b.emplaceBack c).map (·, .done)
  | .uncheckedEmplaceBack c => (b.uncheckedEmplaceBack c).map (·, .done)
  | .clearWorkingEpoch => b.clearWorkingEpoch.map (·, .done)
  | .finalizeEpoch e => (b.finalizeEpoch reclaimLimit e).map fun r => (r.1, ⟨r.2, []⟩)
  | .doFirstEpochCallbacks => b.doFirstEpochCallbacks.map fun r => (r.1, ⟨false, r.2⟩)

/-- A sequence of operations, with their answers. -/
def run (reclaimLimit : UWord) (b : QuiescenceBuffer κ) :
    List (QuiescenceOp κ) → Option (QuiescenceBuffer κ × List (QuiescenceAnswer κ))
  | [] => some (b, [])
  | op :: ops => do
      let r ← b.perform reclaimLimit op
      let rs ← r.1.run reclaimLimit ops
      return (rs.1, r.2 :: rs.2)

/-- The caller checks before every operation of the sequence. -/
def admitsAll (reclaimLimit : UWord) (b : QuiescenceBuffer κ) : List (QuiescenceOp κ) → Bool
  | [] => true
  | op :: ops => b.admits op && (b.perform reclaimLimit op).all fun r => r.1.admitsAll reclaimLimit ops

end QuiescenceBuffer

namespace EpochQueue

/-- One operation of the queue. -/
def perform (reclaimLimit : Nat) (q : EpochQueue κ) :
    QuiescenceOp κ → EpochQueue κ × QuiescenceAnswer κ
  | .emplaceBack c => (q.emplaceBack c, .done)
  | .uncheckedEmplaceBack c => (q.uncheckedEmplaceBack c, .done)
  | .clearWorkingEpoch => (q.clearWorkingEpoch, .done)
  | .finalizeEpoch e => ((q.finalizeEpoch reclaimLimit e).1, ⟨(q.finalizeEpoch reclaimLimit e).2, []⟩)
  | .doFirstEpochCallbacks => (q.popFront, ⟨false, q.chunks.head?.elim [] (·.callbacks)⟩)

/-- A sequence of operations, with their answers. -/
def run (reclaimLimit : Nat) (q : EpochQueue κ) :
    List (QuiescenceOp κ) → EpochQueue κ × List (QuiescenceAnswer κ)
  | [] => (q, [])
  | op :: ops =>
      let r := q.perform reclaimLimit op
      let rs := r.1.run reclaimLimit ops
      (rs.1, r.2 :: rs.2)

theorem capacity_grow_le (q : EpochQueue κ) : q.capacity ≤ q.grow.capacity := by
  unfold grow
  split
  · show q.capacity ≤ q.capacity * 2
    omega
  · exact Nat.le_refl _

/-- The buffer never shrinks. -/
theorem capacity_perform_le (limit : Nat) (q : EpochQueue κ) (op : QuiescenceOp κ) :
    q.capacity ≤ (q.perform limit op).1.capacity := by
  cases op with
  | emplaceBack c => exact (q.uncheckedEmplaceBack c).capacity_grow_le
  | uncheckedEmplaceBack c => exact Nat.le_refl _
  | clearWorkingEpoch => exact Nat.le_refl _
  | finalizeEpoch e =>
    show q.capacity ≤ (q.finalizeEpoch limit e).1.capacity
    unfold finalizeEpoch
    split
    · exact Nat.le_refl _
    · exact (q.pushChunk e).capacity_grow_le
  | doFirstEpochCallbacks => exact Nat.le_refl _

theorem capacity_run_le (limit : Nat) (q : EpochQueue κ) (ops : List (QuiescenceOp κ)) :
    q.capacity ≤ (q.run limit ops).1.capacity := by
  induction ops generalizing q with
  | nil => exact Nat.le_refl _
  | cons op ops ih => exact (q.capacity_perform_le limit op).trans (ih _)

end EpochQueue

/-- The ring buffer stands for the queue, with room for one more element, and answers for it. -/
structure Refines (b : QuiescenceBuffer κ) (q : EpochQueue κ) : Prop where
  represents : Represents b q
  room : q.size < q.capacity
  empty : b.empty = q.isEmpty
  workingEpochEmpty : b.workingEpochEmpty = q.working.isEmpty
  allocatesOnNextPush : b.allocatesOnNextPush = q.allocatesOnNextPush
  frontEpoch : ∀ e, q.frontEpoch? = some e → b.frontEpoch = some e
  backEpoch : ∀ e, q.backEpoch? = some e → b.backEpoch = some e

theorem Represents.refines {b : QuiescenceBuffer κ} {q : EpochQueue κ} (h : Represents b q)
    (hlt : q.size < q.capacity) : Refines b q :=
  ⟨h, hlt, h.empty hlt, h.workingEpochEmpty hlt, h.allocatesOnNextPush hlt,
    fun _ he => h.frontEpoch hlt he, fun _ he => h.backEpoch hlt he⟩

/-- One operation, in its cases. -/
theorem Refines.perform {b : QuiescenceBuffer κ} {q : EpochQueue κ} {limit : UWord}
    (h : Refines b q) {op : QuiescenceOp κ} (hadm : b.admits op = true)
    (hcap : (q.perform limit.toNat op).1.capacity < 2 ^ 64) :
    ∃ b', b.perform limit op = some (b', (q.perform limit.toNat op).2) ∧
      Refines b' (q.perform limit.toNat op).1 := by
  have hr := h.represents
  cases op with
  | emplaceBack c =>
    obtain ⟨b', hb, h', hlt⟩ := hr.emplaceBack h.room c hcap
    exact ⟨b', by rw [QuiescenceBuffer.perform, hb]; rfl, h'.refines hlt⟩
  | uncheckedEmplaceBack c =>
    have hroom : q.allocatesOnNextPush = false := by
      rw [← h.allocatesOnNextPush]
      simpa [QuiescenceBuffer.admits] using hadm
    obtain ⟨b', hb, h', hlt⟩ := hr.uncheckedEmplaceBack h.room c hroom
    exact ⟨b', by rw [QuiescenceBuffer.perform, hb]; rfl, h'.refines hlt⟩
  | clearWorkingEpoch =>
    obtain ⟨b', hb, h', hlt⟩ := hr.clearWorkingEpoch h.room
    exact ⟨b', by rw [QuiescenceBuffer.perform, hb]; rfl, h'.refines hlt⟩
  | finalizeEpoch e =>
    obtain ⟨b', hb, h', hlt⟩ := hr.finalizeEpoch h.room e hcap
    exact ⟨b', by rw [QuiescenceBuffer.perform, hb]; rfl, h'.refines hlt⟩
  | doFirstEpochCallbacks =>
    rw [QuiescenceBuffer.admits, h.workingEpochEmpty, h.empty, Bool.and_eq_true, List.isEmpty_iff,
      EpochQueue.isEmpty] at hadm
    obtain ⟨hw, hne⟩ := hadm
    cases hq : q.chunks with
    | nil => simp [hq, hw] at hne
    | cons ch chunks =>
      obtain ⟨b', hb, h', hlt⟩ := hr.doFirstEpochCallbacks h.room hq hw
      refine ⟨b', ?_, h'.refines hlt⟩
      rw [QuiescenceBuffer.perform, hb, EpochQueue.perform, hq]
      rfl

/-- A sequence of operations. -/
theorem Refines.run {b : QuiescenceBuffer κ} {q : EpochQueue κ} {limit : UWord}
    (h : Refines b q) {ops : List (QuiescenceOp κ)} (hadm : b.admitsAll limit ops = true)
    (hcap : (q.run limit.toNat ops).1.capacity < 2 ^ 64) :
    ∃ b', b.run limit ops = some (b', (q.run limit.toNat ops).2) ∧
      Refines b' (q.run limit.toNat ops).1 := by
  induction ops generalizing b q with
  | nil => exact ⟨b, rfl, h⟩
  | cons op ops ih =>
    have hle := ((q.perform limit.toNat op).1.capacity_run_le limit.toNat ops).trans_lt hcap
    rw [QuiescenceBuffer.admitsAll, Bool.and_eq_true] at hadm
    obtain ⟨b1, hb1, h1⟩ := h.perform hadm.1 hle
    rw [hb1] at hadm
    obtain ⟨b', hb', h'⟩ := ih h1 hadm.2 hcap
    refine ⟨b', ?_, h'⟩
    rw [QuiescenceBuffer.run, hb1, Option.bind_eq_bind, Option.bind_some, hb']
    rfl

/-- **The ring buffer refines a queue of epochs**, for every sequence of operations whose caller makes
    the checks the source asks for, as long as a buffer of the size needed can be counted in a word. -/
theorem quiescence_buffer_refines {limit : UWord} (hpow : isPowerOfTwo limit = true)
    (ops : List (QuiescenceOp κ)) (hadm : (QuiescenceBuffer.init limit).admitsAll limit ops = true)
    (hcap : ((EpochQueue.init limit.toNat).run limit.toNat ops).1.capacity < 2 ^ 64) :
    ∃ b, (QuiescenceBuffer.init limit).run limit ops =
        some (b, ((EpochQueue.init limit.toNat).run limit.toNat ops).2) ∧
      Refines b ((EpochQueue.init limit.toNat).run limit.toNat ops).1 := by
  have hle := ((EpochQueue.init limit.toNat).capacity_run_le limit.toNat ops).trans_lt hcap
  have hinit : Represents (QuiescenceBuffer.init limit) (EpochQueue.init limit.toNat : EpochQueue κ) :=
    Represents.init hpow hle
  have hpos := Nat.pos_of_isPowerOfTwo (isPowerOfTwo_iff.mp hpow)
  refine (hinit.refines ?_).run hadm hcap
  show 1 < limit.toNat * 2
  omega

/-- Eight slots: a cleared working list, a chunk across the end of the array, and a push that takes the
    last slot. -/
def eightSlots : List (QuiescenceOp Nat) :=
  [.emplaceBack 1, .emplaceBack 2, .finalizeEpoch 5, .emplaceBack 9, .clearWorkingEpoch,
    .uncheckedEmplaceBack 3, .finalizeEpoch 6, .doFirstEpochCallbacks, .emplaceBack 4, .emplaceBack 7,
    .finalizeEpoch 7, .emplaceBack 8, .emplaceBack 6, .finalizeEpoch 9, .doFirstEpochCallbacks,
    .doFirstEpochCallbacks]

theorem quiescence_buffer_refines_eightSlots :
    ∃ b, (QuiescenceBuffer.init 4).run 4 eightSlots =
        some (b, ((EpochQueue.init 4).run 4 eightSlots).2) ∧
      Refines b ⟨[⟨9, [8, 6]⟩], [], 16⟩ :=
  quiescence_buffer_refines (by decide) eightSlots (by decide) (by decide)

end Operations

end LockfreeStm
