/-
  File:      LockfreeStm/PodVectorBlock.lean
  Subject:   `pod_vector` (detail/pod_vector.hpp) AS THE SOURCE COMPUTES IT: three pointers into a block.

  `end_` is the slot of the next element, and `last_valid_address_` the last slot of the block. A push
  writes first and grows afterwards, so that one slot is always free. `pod_mallocator` ends the program
  when malloc fails; `granted` says whether it has something to give.

  Every access goes through the heap and is checked there; a failed assertion is `undefined`, too. The
  pointers are still compared and subtracted after their block has been freed, as in the source.

  * `PodVectorBlock.Represents` -- the block and the pointers of a `PodVector`, which has a free slot;
  * `Represents.perform` -- what a call does, or that it gets no memory;
  * **`podVector_spec`** -- a vector after any calls.
-/
import LockfreeStm.Library.Blocks
import LockfreeStm.PodVector
import LockfreeStm.Word

namespace LockfreeStm

open Blocks (Pointer Fault largestBlock)

/-- `pod_vector`, and the heap its block is in. -/
structure PodVectorBlock (α : Type) where
  heap : Blocks.Heap α
  end_ : Pointer
  begin_ : Pointer
  lastValidAddress_ : Pointer

namespace PodVectorBlock

variable {α : Type}

/-! ## 1. The functions -/

/-- The constructor. -/
def construct (heap : Blocks.Heap α) (granted : Bool) : Except Fault (PodVectorBlock α) := do
  let (end_, heap) ← heap.allocate granted startSize
  return ⟨heap, end_, end_, ← (end_.shift startSize).pred⟩

section Functions

variable (v : PodVectorBlock α)

/-- `empty`. -/
def empty : Bool := v.end_ == v.begin_

/-- `size`. -/
def size : Except Fault UWord := do
  return BitVec.ofNat 64 (← v.end_.distance v.begin_)

/-- `capacity`. -/
def capacity : Except Fault UWord := do
  return BitVec.ofNat 64 (← (v.lastValidAddress_.shift 1).distance v.begin_)

/-- `allocates_on_next_push`. -/
def allocatesOnNextPush : Bool := v.end_ == v.lastValidAddress_

/-- `capacity() << 1`. -/
def doubled : Except Fault UWord := do
  let capacity ← v.capacity
  return capacity <<< 1

/-- `reserve_more`. -/
def reserveMore (granted : Bool) : Except Fault (PodVectorBlock α) := do
  if (← v.size) < (← v.doubled) then
    let (newBegin, heap) ← v.heap.allocate granted (← v.doubled).toNat
    let heap ← Blocks.Heap.copy newBegin v.begin_ (← v.size).toNat heap
    let heap ← heap.deallocate v.begin_ (← v.capacity).toNat
    let v := { v with heap := heap }
    -- the members that are still the old ones say how many elements there are
    let v := { v with lastValidAddress_ := ← (newBegin.shift (← v.doubled).toNat).pred }
    let v := { v with end_ := newBegin.shift (← v.size).toNat }
    return { v with begin_ := newBegin }
  else throw .undefined

/-- `emplace_back`: the check for room comes after the element. -/
def emplaceBack (x : α) (granted : Bool) : Except Fault (PodVectorBlock α) := do
  let v := { v with heap := ← v.heap.write v.end_ (some x), end_ := v.end_.shift 1 }
  if ← v.lastValidAddress_.less v.end_ then v.reserveMore granted else return v

/-- `unchecked_emplace_back`. -/
def uncheckedEmplaceBack (x : α) : Except Fault (PodVectorBlock α) := do
  if v.allocatesOnNextPush then throw .undefined
  else return { v with heap := ← v.heap.write v.end_ (some x), end_ := v.end_.shift 1 }

/-- The pointer is to an element. -/
def pointsInside (ptr : Pointer) : Except Fault Bool := do
  return !(← ptr.less v.begin_) && (← ptr.less v.end_)

/-- `unordered_erase`. -/
def unorderedErase (ptr : Pointer) : Except Fault (PodVectorBlock α) := do
  if ← v.pointsInside ptr then
    let v := { v with end_ := ← v.end_.pred }
    return { v with heap := ← v.heap.write ptr (← v.heap.read v.end_) }
  else throw .undefined

/-- `clear`. -/
def clear : PodVectorBlock α := { v with end_ := v.begin_ }

/-- `shrink_to_fit`. -/
def shrinkToFit (granted : Bool) : Except Fault (PodVectorBlock α) := do
  let newCapacity := (← v.size) + 1
  if newCapacity ≠ (← v.capacity) then
    let (newBegin, heap) ← v.heap.allocate granted newCapacity.toNat
    let heap ← Blocks.Heap.copy newBegin v.begin_ (← v.size).toNat heap
    let heap ← heap.deallocate v.begin_ (← v.capacity).toNat
    let v := { v with heap := heap, lastValidAddress_ := ← (newBegin.shift newCapacity.toNat).pred }
    let v := { v with end_ := newBegin.shift (← v.size).toNat }
    return { v with begin_ := newBegin }
  else return v

/-- The destructor. -/
def destroy : Except Fault (Blocks.Heap α) := do
  if v.empty then v.heap.deallocate v.begin_ (← v.capacity).toNat else throw .undefined

end Functions

/-! ## 2. The block of a vector -/

/-- The block and the pointers of the vector `p`; the block may be full. -/
structure Owns (v : PodVectorBlock α) (p : PodVector α) : Prop where
  begin_ : v.begin_.offset = 0
  end_ : v.end_ = v.begin_.shift p.data.length
  last : v.lastValidAddress_.shift 1 = v.begin_.shift p.capacity
  cells : ∃ slack, v.heap.blocks v.begin_.block = some (p.data.map some ++ slack) ∧
    p.data.length + slack.length = p.capacity
  largest : p.capacity ≤ largestBlock

/-- There is a free slot. -/
structure Represents (v : PodVectorBlock α) (p : PodVector α) : Prop extends v.Owns p where
  room : p.data.length < p.capacity

/-- The vector's block is its only one beside those of `heap`. -/
structure Beside (v : PodVectorBlock α) (heap : Blocks.Heap α) : Prop where
  own : heap.blocks v.begin_.block = none
  others : ∀ b, b ≠ v.begin_.block → v.heap.blocks b = heap.blocks b

/-- The vector has gone to a new block, and its old one is given back. -/
structure Moves (v v' : PodVectorBlock α) : Prop where
  new : v.heap.blocks v'.begin_.block = none
  gone : v'.heap.blocks v.begin_.block = none
  others : ∀ b, b ≠ v'.begin_.block → b ≠ v.begin_.block → v'.heap.blocks b = v.heap.blocks b

section Owns

variable {v v' : PodVectorBlock α} {p : PodVector α} {heap heap₀ : Blocks.Heap α}

theorem toNat_ofNat_of_le {n : Nat} (h : n ≤ largestBlock) : (BitVec.ofNat 64 n).toNat = n := by
  rw [BitVec.toNat_ofNat]
  refine Nat.mod_eq_of_lt ?_
  unfold largestBlock at h
  omega

namespace Owns

theorem length_le (h : v.Owns p) : p.data.length ≤ p.capacity := by
  obtain ⟨slack, -, hlen⟩ := h.cells
  omega

theorem size (h : v.Owns p) : v.size = .ok (BitVec.ofNat 64 p.data.length) := by
  rw [PodVectorBlock.size, h.end_, Pointer.distance_shift]
  rfl

theorem capacity (h : v.Owns p) : v.capacity = .ok (BitVec.ofNat 64 p.capacity) := by
  rw [PodVectorBlock.capacity, h.last, Pointer.distance_shift]
  rfl

theorem doubled (h : v.Owns p) : v.doubled = .ok (BitVec.ofNat 64 (p.capacity * 2)) := by
  rw [PodVectorBlock.doubled, h.capacity]
  refine congrArg Except.ok (BitVec.eq_of_toNat_eq ?_)
  rw [BitVec.toNat_shiftLeft, BitVec.toNat_ofNat, BitVec.toNat_ofNat, Nat.shiftLeft_eq, Nat.pow_one,
    Nat.mod_mul_mod]

/-- Only the block of the vector matters. -/
theorem of_pointers {c : Nat} {b : Nat} {slack : List (Option α)}
    (hb : heap.blocks b = some (p.data.map some ++ slack)) (hlen : p.data.length + slack.length = c)
    (hc : 0 < c) (hl : c ≤ largestBlock) :
    Owns ⟨heap, ⟨b, p.data.length⟩, ⟨b, 0⟩, ⟨b, c - 1⟩⟩ ⟨p.data, c⟩ where
  begin_ := rfl
  end_ := by simp [Pointer.shift]
  last := by simp [Pointer.shift, Nat.sub_add_cancel hc]
  cells := ⟨slack, hb, hlen⟩
  largest := hl

/-- The elements go to a new block of `c` slots, and the old block is given back. -/
theorem move {c : Nat} (h : v.Owns p) (hp : p.data.length < c) (hl : c ≤ largestBlock) :
    ∃ b heap₁ heap₂ heap₃, v.heap.allocate true c = .ok (⟨b, 0⟩, heap₁) ∧
      Blocks.Heap.copy ⟨b, 0⟩ v.begin_ p.data.length heap₁ = .ok heap₂ ∧
      heap₂.deallocate v.begin_ p.capacity = .ok heap₃ ∧
      Represents ⟨heap₃, ⟨b, p.data.length⟩, ⟨b, 0⟩, ⟨b, c - 1⟩⟩ ⟨p.data, c⟩ ∧
      v.Moves ⟨heap₃, ⟨b, p.data.length⟩, ⟨b, 0⟩, ⟨b, c - 1⟩⟩ := by
  obtain ⟨slack, hcells, hlen⟩ := h.cells
  have hlen' : (p.data.map some ++ slack).length = p.capacity := by simpa using hlen
  have hne : v.begin_.block ≠ v.heap.next := Nat.ne_of_lt (Blocks.Heap.lt_next hcells)
  obtain ⟨heap₂, hcopy, -, hb₂⟩ := Blocks.Heap.copy_ok (h := v.heap.push (List.replicate c none))
    (p := ⟨v.heap.next, 0⟩) (q := v.begin_) (n := p.data.length)
    (Function.update_self ..) ((Function.update_of_ne hne ..).trans hcells) hne.symm
    (by simp only [List.length_replicate]; omega) (by rw [h.begin_, hlen']; omega)
  have hold : heap₂.blocks v.begin_.block = some (p.data.map some ++ slack) := by
    rw [hb₂, Function.update_of_ne hne]
    exact (Function.update_of_ne hne ..).trans hcells
  obtain ⟨heap₃, hfree, hb₃⟩ := Blocks.Heap.deallocate_ok hold h.begin_
  rw [hlen'] at hfree
  refine ⟨v.heap.next, _, heap₂, heap₃, Blocks.Heap.allocate_ok hl, hcopy, hfree, ⟨?_, hp⟩,
    v.heap.fresh _ (Nat.le_refl _), ?_, fun b' hb hv => ?_⟩
  · have hslots : heap₃.blocks v.heap.next =
        some (p.data.map some ++ List.replicate (c - p.data.length) none) := by
      rw [hb₃, Function.update_of_ne hne.symm, hb₂, Function.update_self, h.begin_]
      simp
    exact of_pointers hslots (by rw [List.length_replicate]; omega) (Nat.zero_lt_of_lt hp) hl
  · rw [hb₃]
    exact Function.update_self ..
  · rw [hb₃, Function.update_of_ne hv, hb₂, Function.update_of_ne hb]
    exact Function.update_of_ne hb ..

section ReserveMore

variable (h : v.Owns p) (hc : 0 < p.capacity)
include h hc

/-- The test of the assertion in `reserve_more`. -/
theorem size_lt_doubled :
    (BitVec.ofNat 64 (p.capacity * 2)).toNat = p.capacity * 2 ∧
      BitVec.ofNat 64 p.data.length < BitVec.ofNat 64 (p.capacity * 2) := by
  have hlen := h.length_le
  have hword : (BitVec.ofNat 64 (p.capacity * 2)).toNat = p.capacity * 2 := by
    have := h.largest
    rw [BitVec.toNat_ofNat]
    refine Nat.mod_eq_of_lt ?_
    unfold largestBlock at this
    omega
  refine ⟨hword, ?_⟩
  rw [BitVec.lt_def, toNat_ofNat_of_le (Nat.le_trans hlen h.largest), hword]
  omega

/-- `reserve_more` doubles the block. -/
theorem reserveMore (hl : p.capacity * 2 ≤ largestBlock) :
    ∃ v', v.reserveMore true = .ok v' ∧ v'.Represents p.reserveMore ∧ v.Moves v' := by
  have hlen := h.length_le
  have hsize := toNat_ofNat_of_le (Nat.le_trans hlen h.largest)
  obtain ⟨hword, hlt⟩ := h.size_lt_doubled hc
  obtain ⟨b, heap₁, heap₂, heap₃, halloc, hcopy, hfree, hrep, hmoves⟩ :=
    h.move (c := p.capacity * 2) (by omega) hl
  refine ⟨_, ?_, hrep, hmoves⟩
  have hdoubled : ∀ heap, (⟨heap, v.end_, v.begin_, v.lastValidAddress_⟩ :
      PodVectorBlock α).doubled = .ok (BitVec.ofNat 64 (p.capacity * 2)) := fun _ => h.doubled
  have hsize' : ∀ heap l, (⟨heap, v.end_, v.begin_, l⟩ : PodVectorBlock α).size =
      .ok (BitVec.ofNat 64 p.data.length) := fun _ _ => h.size
  simp only [PodVectorBlock.reserveMore, h.size, h.doubled, h.capacity, bind, Except.bind, pure,
    Except.pure, hlt, if_true, hword, halloc, hsize, hcopy, toNat_ofNat_of_le h.largest, hfree,
    hdoubled, hsize', Pointer.shift_start, Pointer.pred_mk (show 0 < p.capacity * 2 by omega)]

/-- `reserve_more` gets no memory. -/
theorem reserveMore_terminated {granted : Bool}
    (hg : ¬ (granted = true ∧ p.capacity * 2 ≤ largestBlock)) :
    v.reserveMore granted = .error .terminated := by
  obtain ⟨hword, hlt⟩ := h.size_lt_doubled hc
  simp only [PodVectorBlock.reserveMore, h.size, h.doubled, bind, Except.bind, hlt, if_true, hword,
    Blocks.Heap.allocate_terminated hg]

end ReserveMore

end Owns

end Owns

/-! ## 3. The calls -/

/-- A vector stays in its block, or it has moved to a new one. -/
inductive Becomes (v v' : PodVectorBlock α) : Bool → Prop where
  | stays (begin_ : v'.begin_ = v.begin_)
      (others : ∀ b, b ≠ v.begin_.block → v'.heap.blocks b = v.heap.blocks b) : Becomes v v' false
  | moves (h : v.Moves v') : Becomes v v' true

theorem Becomes.trans {v v' v'' : PodVectorBlock α} (h : v.Becomes v' false)
    (h' : v'.Becomes v'' false) : v.Becomes v'' false := by
  cases h with
  | stays begin_ others =>
    cases h' with
    | stays begin_' others' =>
      refine .stays (begin_'.trans begin_) fun b hb => ?_
      exact (others' b (begin_.symm ▸ hb)).trans (others b hb)

theorem Beside.becomes {v v' : PodVectorBlock α} {heap : Blocks.Heap α} {moved : Bool} (h : v.Beside heap)
    (hb : v.Becomes v' moved) : v'.Beside heap := by
  cases hb with
  | stays begin_ others =>
    refine ⟨begin_ ▸ h.own, fun b hb => ?_⟩
    rw [begin_] at hb
    exact (others b hb).trans (h.others b hb)
  | moves hm =>
    refine ⟨?_, fun b hb => ?_⟩
    · by_cases hold : v'.begin_.block = v.begin_.block
      · exact hold ▸ h.own
      · exact (h.others _ hold).symm.trans hm.new
    · by_cases hold : b = v.begin_.block
      · rw [hold, hm.gone, h.own]
      · exact (hm.others b hb hold).trans (h.others b hold)

namespace Represents

variable {v v' : PodVectorBlock α} {p : PodVector α} {heap : Blocks.Heap α}

/-- The pointers, once more. -/
theorem last_eq (h : v.Represents p) :
    v.lastValidAddress_ = ⟨v.begin_.block, p.capacity - 1⟩ := by
  obtain ⟨hb, ho⟩ := Pointer.mk.inj h.last
  rw [h.begin_, Nat.zero_add] at ho
  rw [← hb, ← ho, Nat.add_sub_cancel]

theorem end_eq (h : v.Represents p) : v.end_ = ⟨v.begin_.block, p.data.length⟩ := by
  rw [h.end_, Pointer.shift, h.begin_, Nat.zero_add]

/-- `allocates_on_next_push` is the test for the last free slot. -/
theorem allocatesOnNextPush (h : v.Represents p) :
    v.allocatesOnNextPush = p.allocatesOnNextPush := by
  rw [PodVectorBlock.allocatesOnNextPush, h.last_eq, h.end_eq, PodVector.allocatesOnNextPush,
    Bool.eq_iff_iff, beq_iff_eq, beq_iff_eq, Pointer.mk.injEq]
  exact and_iff_right rfl

/-- The write of a new element. -/
theorem write_end (h : v.Represents p) (x : α) : ∃ heap, v.heap.write v.end_ (some x) = .ok heap ∧
    Owns ⟨heap, v.end_.shift 1, v.begin_, v.lastValidAddress_⟩ (p.uncheckedEmplaceBack x) ∧
    ∀ b, b ≠ v.begin_.block → heap.blocks b = v.heap.blocks b := by
  obtain ⟨slack, hcells, hlen⟩ := h.cells
  have hroom := h.room
  obtain ⟨c, slack, rfl⟩ := List.exists_cons_of_ne_nil
    (List.ne_nil_of_length_pos (show 0 < slack.length by omega))
  obtain ⟨hblock, hoff⟩ := Pointer.mk.inj h.end_eq
  rw [List.length_cons] at hlen
  obtain ⟨heap, hw, -, hb⟩ := Blocks.Heap.write_ok (h := v.heap) (p := v.end_) (hblock ▸ hcells)
    (by rw [hoff, List.length_append, List.length_map, List.length_cons]; omega) (some x)
  rw [hblock] at hb
  refine ⟨heap, hw, ⟨h.begin_, ?_, h.last, ⟨slack, ?_, ?_⟩, h.largest⟩, fun b hne => ?_⟩
  · simp [h.end_, Pointer.shift, Nat.add_assoc]
  · rw [hb, Function.update_self, hoff]
    simp [List.set_append_right]
  · simp only [PodVector.data_uncheckedEmplaceBack, List.length_append, List.length_singleton]
    rw [Nat.add_assoc, Nat.add_comm 1]
    exact hlen
  · rw [hb, Function.update_of_ne hne]

/-- The constructor. -/
theorem construct (heap : Blocks.Heap α) : ∃ v, PodVectorBlock.construct heap true = .ok v ∧
    v.Represents .empty ∧ v.Beside heap := by
  have halloc := Blocks.Heap.allocate_ok (h := heap) (n := startSize) (by decide)
  refine ⟨⟨heap.push (List.replicate startSize none), ⟨heap.next, 0⟩, ⟨heap.next, 0⟩,
    ⟨heap.next, startSize - 1⟩⟩, ?_, ⟨?_, Nat.zero_lt_succ 1023⟩, ?_, ?_⟩
  · simp only [PodVectorBlock.construct, halloc, bind, Except.bind, pure, Except.pure,
      Pointer.shift_start, Pointer.pred_mk (show 0 < startSize by decide)]
  · have hslots : (heap.push (List.replicate startSize none)).blocks heap.next =
        some ((PodVector.empty : PodVector α).data.map some ++ List.replicate startSize none) :=
      Function.update_self ..
    exact Owns.of_pointers (p := .empty) hslots (by simp) (by decide) (by decide)
  · exact heap.fresh _ (Nat.le_refl _)
  · exact fun b hb => Function.update_of_ne hb ..

/-- `emplace_back` is the write, and the growth if that took the last free slot. -/
theorem emplaceBack_eq (h : v.Represents p) {x : α} (hw : v.heap.write v.end_ (some x) = .ok heap)
    (granted : Bool) : v.emplaceBack x granted =
      if p.allocatesOnNextPush then
        reserveMore ⟨heap, v.end_.shift 1, v.begin_, v.lastValidAddress_⟩ granted
      else .ok ⟨heap, v.end_.shift 1, v.begin_, v.lastValidAddress_⟩ := by
  have hroom := h.room
  have hless : v.lastValidAddress_.less (v.end_.shift 1) = .ok p.allocatesOnNextPush := by
    have hb : v.lastValidAddress_.block = (v.end_.shift 1).block := by
      rw [h.last_eq, h.end_eq, Pointer.shift_block]
    rw [Pointer.less_of_block hb, h.last_eq, h.end_eq]
    refine congrArg Except.ok (Bool.eq_iff_iff.mpr ?_)
    rw [decide_eq_true_iff, PodVector.allocatesOnNextPush_iff]
    show p.capacity - 1 < p.data.length + 1 ↔ _
    omega
  simp only [PodVectorBlock.emplaceBack, hw, bind, Except.bind, hless]
  rfl

theorem emplaceBack (h : v.Represents p) (x : α) {granted : Bool}
    (hg : p.allocatesOnNextPush = true → granted = true ∧ p.capacity * 2 ≤ largestBlock) :
    ∃ v', v.emplaceBack x granted = .ok v' ∧ v'.Represents (p.emplaceBack x) ∧
      v.Becomes v' p.allocatesOnNextPush := by
  obtain ⟨heap, hw, howns, hothers⟩ := h.write_end x
  have hroom := h.room
  rw [h.emplaceBack_eq hw]
  cases hp : p.allocatesOnNextPush with
  | true =>
    obtain ⟨rfl, hl⟩ := hg hp
    obtain ⟨v', hv', hrep, hnew, hgone, hrest⟩ := howns.reserveMore (Nat.zero_lt_of_lt hroom) hl
    rw [p.emplaceBack_of_full hp, if_pos rfl]
    obtain ⟨slack, hcells, -⟩ := howns.cells
    have hne : v'.begin_.block ≠ v.begin_.block := fun e => by
      cases (e ▸ hnew).symm.trans hcells
    exact ⟨v', hv', hrep, .moves ⟨(hothers _ hne).symm.trans hnew, hgone, fun b hb hold =>
      (hrest b hb hold).trans (hothers b hold)⟩⟩
  | false =>
    have hlen := mt PodVector.allocatesOnNextPush_iff.mpr (Bool.eq_false_iff.mp hp)
    rw [p.emplaceBack_of_room hp hroom]
    refine ⟨_, rfl, ⟨howns, ?_⟩, .stays rfl hothers⟩
    show (p.data ++ [x]).length < p.capacity
    rw [List.length_append, List.length_singleton]
    omega

theorem emplaceBack_terminated (h : v.Represents p) (x : α) {granted : Bool}
    (hp : p.allocatesOnNextPush = true)
    (hg : ¬ (granted = true ∧ p.capacity * 2 ≤ largestBlock)) :
    v.emplaceBack x granted = .error .terminated := by
  obtain ⟨heap, hw, howns, -⟩ := h.write_end x
  rw [h.emplaceBack_eq hw, if_pos hp]
  exact howns.reserveMore_terminated (Nat.zero_lt_of_lt h.room) hg

theorem uncheckedEmplaceBack (h : v.Represents p) (x : α) (hp : p.allocatesOnNextPush = false) :
    ∃ v', v.uncheckedEmplaceBack x = .ok v' ∧ v'.Represents (p.uncheckedEmplaceBack x) ∧
      v.Becomes v' false := by
  obtain ⟨heap, hw, howns, hothers⟩ := h.write_end x
  have hroom := h.room
  have hlen := mt PodVector.allocatesOnNextPush_iff.mpr (Bool.eq_false_iff.mp hp)
  refine ⟨_, ?_, ⟨howns, ?_⟩, .stays rfl hothers⟩
  · rw [PodVectorBlock.uncheckedEmplaceBack, h.allocatesOnNextPush, hp, if_neg Bool.false_ne_true, hw]
    rfl
  · show (p.data ++ [x]).length < p.capacity
    rw [List.length_append, List.length_singleton]
    omega

/-- A pointer to an element is inside, any other one into the block is not. -/
theorem pointsInside (h : v.Represents p) (i : Nat) :
    v.pointsInside (v.begin_.shift i) = .ok (decide (i < p.data.length)) := by
  have hbegin : (v.begin_.shift i).less v.begin_ = .ok false := by
    rw [Pointer.less_of_block (by rw [Pointer.shift_block]), h.begin_]
    rfl
  have hend : (v.begin_.shift i).less v.end_ = .ok (decide (i < p.data.length)) := by
    rw [Pointer.less_of_block (by rw [h.end_eq, Pointer.shift_block]), h.end_eq, Pointer.shift_offset,
      h.begin_, Nat.zero_add]
  simp only [PodVectorBlock.pointsInside, hbegin, hend, bind, Except.bind]
  rfl

/-- `unordered_erase` moves the last element to the erased place. -/
theorem unorderedErase (h : v.Represents p) {i : Nat} (hi : i < p.data.length) :
    ∃ v', v.unorderedErase (v.begin_.shift i) = .ok v' ∧ v'.Represents (p.unorderedErase i) ∧
      v.Becomes v' false := by
  obtain ⟨slack, hcells, hlen⟩ := h.cells
  obtain ⟨xs, y, e⟩ : ∃ xs y, p.data = xs ++ [y] :=
    ⟨_, _, (List.dropLast_append_getLast (List.ne_nil_of_length_pos (Nat.zero_lt_of_lt hi))).symm⟩
  have hxs : p.data.length = xs.length + 1 := by rw [e, List.length_append, List.length_singleton]
  have hin : v.pointsInside (v.begin_.shift i) = .ok true := by
    rw [h.pointsInside, decide_eq_true hi]
  have hpred : v.end_.pred = .ok ⟨v.begin_.block, xs.length⟩ := by
    rw [h.end_eq, hxs, Pointer.pred_mk (Nat.succ_pos _)]
    rfl
  have hread : v.heap.read ⟨v.begin_.block, xs.length⟩ = .ok (some y) :=
    Blocks.Heap.read_ok hcells (by simp [e])
  obtain ⟨heap, hw, -, hb⟩ := Blocks.Heap.write_ok (h := v.heap) (p := v.begin_.shift i) hcells
    (by rw [Pointer.shift_offset, h.begin_, List.length_append, List.length_map]; omega) (some y)
  rw [Pointer.shift_block, Pointer.shift_offset, h.begin_, Nat.zero_add] at hb
  have hdata : (p.unorderedErase i).data = ((xs ++ [y]).set i y).dropLast := by
    simp [PodVector.unorderedErase, e]
  have hcap : (p.unorderedErase i).capacity = p.capacity := by
    simp [PodVector.unorderedErase, e]
  have hlen' : (p.unorderedErase i).data.length = xs.length := by simp [hdata]
  refine ⟨⟨heap, ⟨v.begin_.block, xs.length⟩, v.begin_, v.lastValidAddress_⟩, ?_,
    ⟨⟨h.begin_, ?_, ?_, ?_, ?_⟩, ?_⟩, .stays rfl fun b hne => ?_⟩
  · simp only [PodVectorBlock.unorderedErase, hin, hpred, hread, hw, bind, Except.bind, if_true]
    rfl
  · rw [hlen', Pointer.shift, h.begin_, Nat.zero_add]
  · rw [hcap]
    exact h.last
  · -- the slot of the last element is free now
    have hne : (xs ++ [y]).set i y ≠ [] := by simp
    refine ⟨some (((xs ++ [y]).set i y).getLast hne) :: slack, ?_, ?_⟩
    · have hset : (p.data.map some ++ slack).set i (some y) =
          ((xs ++ [y]).set i y).map some ++ slack := by
        rw [List.set_append_left _ _ (by rwa [List.length_map]), List.map_set, e]
      rw [hb, Function.update_self, hset, hdata]
      refine congrArg some ?_
      calc ((xs ++ [y]).set i y).map some ++ slack
          = (((xs ++ [y]).set i y).dropLast ++ [((xs ++ [y]).set i y).getLast hne]).map some ++ slack := by
            rw [List.dropLast_append_getLast hne]
        _ = _ := by rw [List.map_append, List.append_assoc, List.map_singleton, List.singleton_append]
    · rw [hlen', hcap, List.length_cons]
      omega
  · rw [hcap]
    exact h.largest
  · have := h.room
    rw [hlen', hcap]
    omega
  · rw [hb, Function.update_of_ne hne]

theorem clear (h : v.Represents p) : v.clear.Represents p.clear ∧ v.Becomes v.clear false := by
  obtain ⟨slack, hcells, hlen⟩ := h.cells
  refine ⟨⟨⟨h.begin_, ?_, h.last, ⟨p.data.map some ++ slack, ?_, ?_⟩, h.largest⟩, ?_⟩,
    .stays rfl fun _ _ => rfl⟩
  · rfl
  · rw [PodVector.data_clear, List.map_nil, List.nil_append]
    exact hcells
  · rw [List.length_append, List.length_map]
    show 0 + _ = p.capacity
    omega
  · exact Nat.zero_lt_of_lt h.room

/-- `shrink_to_fit` asks for a block unless the vector has the right one. -/
theorem shrinkToFit_test (h : v.Represents p) :
    (BitVec.ofNat 64 p.data.length + 1).toNat = p.data.length + 1 ∧
      (BitVec.ofNat 64 p.data.length + 1 ≠ BitVec.ofNat 64 p.capacity ↔
        p.data.length + 1 ≠ p.capacity) := by
  have hword : (BitVec.ofNat 64 p.data.length + 1).toNat = p.data.length + 1 := by
    have hle : p.data.length + 1 ≤ largestBlock := Nat.le_trans h.room h.largest
    rw [← toNat_ofNat_of_le hle, BitVec.ofNat_add]
    rfl
  refine ⟨hword, not_congr ?_⟩
  rw [← BitVec.toNat_inj, hword, toNat_ofNat_of_le h.largest]

theorem shrinkToFit (h : v.Represents p) {granted : Bool}
    (hg : p.data.length + 1 ≠ p.capacity → granted = true) :
    ∃ v', v.shrinkToFit granted = .ok v' ∧ v'.Represents p.shrinkToFit ∧
      v.Becomes v' (p.data.length + 1 != p.capacity) := by
  have howns := h.toOwns
  obtain ⟨hword, htest⟩ := h.shrinkToFit_test
  by_cases hc : p.data.length + 1 = p.capacity
  · have htest := not_iff_not.mpr htest |>.mpr (not_not_intro hc)
    refine ⟨v, ?_, ?_, ?_⟩
    · simp only [PodVectorBlock.shrinkToFit, howns.size, howns.capacity, bind, Except.bind, htest,
        if_false]
      rfl
    · rwa [PodVector.shrinkToFit, hc]
    · rw [bne_eq_false_iff_eq.mpr hc]
      exact .stays rfl fun _ _ => rfl
  · obtain rfl := hg hc
    obtain ⟨b, heap₁, heap₂, heap₃, halloc, hcopy, hfree, hrep, hmoves⟩ :=
      howns.move (Nat.lt_succ_self _) (Nat.le_trans h.room h.largest)
    have hsize : ∀ heap l, (⟨heap, v.end_, v.begin_, l⟩ : PodVectorBlock α).size =
        .ok (BitVec.ofNat 64 p.data.length) := fun _ _ => howns.size
    have hlen := toNat_ofNat_of_le (Nat.le_trans (Nat.le_of_lt h.room) h.largest)
    refine ⟨_, ?_, hrep, bne_iff_ne.mpr hc ▸ .moves hmoves⟩
    simp only [PodVectorBlock.shrinkToFit, howns.size, howns.capacity, bind, Except.bind, pure,
      Except.pure, ne_eq, htest.mpr hc, not_false_eq_true, if_true, hword, halloc, hlen, hcopy,
      toNat_ofNat_of_le h.largest, hfree, hsize, Pointer.shift_start, Pointer.pred_mk (Nat.succ_pos _)]

theorem shrinkToFit_terminated (h : v.Represents p) (hc : p.data.length + 1 ≠ p.capacity) :
    v.shrinkToFit false = .error .terminated := by
  have howns := h.toOwns
  obtain ⟨hword, htest⟩ := h.shrinkToFit_test
  simp only [PodVectorBlock.shrinkToFit, howns.size, howns.capacity, bind, Except.bind, ne_eq,
    htest.mpr hc, not_false_eq_true, if_true, hword,
    Blocks.Heap.allocate_terminated (fun hg => Bool.false_ne_true hg.1)]

/-- The destructor of an empty vector gives the block back. -/
theorem destroy (h : v.Represents p) (hp : p.data = []) (hb : v.Beside heap) :
    ∃ heap', v.destroy = .ok heap' ∧ heap'.blocks = heap.blocks := by
  obtain ⟨slack, hcells, hlen⟩ := h.cells
  obtain ⟨heap', hfree, hblocks⟩ := Blocks.Heap.deallocate_ok hcells h.begin_
  have he : v.empty = true := by
    rw [PodVectorBlock.empty, h.end_, hp]
    exact beq_self_eq_true _
  refine ⟨heap', ?_, ?_⟩
  · simp only [PodVectorBlock.destroy, he, if_true, h.toOwns.capacity, bind, Except.bind,
      toNat_ofNat_of_le h.largest]
    rw [← hlen, ← List.length_map (f := some), ← List.length_append]
    exact hfree
  · rw [hblocks]
    funext b
    by_cases hb' : b = v.begin_.block
    · rw [hb', Function.update_self, hb.own]
    · rw [Function.update_of_ne hb', hb.others b hb']

end Represents

end PodVectorBlock

/-! ## 4. Any calls -/

/-- A call on a vector. -/
inductive VectorCall (α : Type) where
  | emplaceBack (x : α)
  | uncheckedEmplaceBack (x : α)
  | unorderedErase (i : Nat)
  | clear
  | shrinkToFit

section Calls

variable {α : Type}

def PodVectorBlock.perform (v : PodVectorBlock α) (granted : Bool) :
    VectorCall α → Except Fault (PodVectorBlock α)
  | .emplaceBack x => v.emplaceBack x granted
  | .uncheckedEmplaceBack x => v.uncheckedEmplaceBack x
  | .unorderedErase i => v.unorderedErase (v.begin_.shift i)
  | .clear => .ok v.clear
  | .shrinkToFit => v.shrinkToFit granted

def PodVector.perform (p : PodVector α) : VectorCall α → PodVector α
  | .emplaceBack x => p.emplaceBack x
  | .uncheckedEmplaceBack x => p.uncheckedEmplaceBack x
  | .unorderedErase i => p.unorderedErase i
  | .clear => p.clear
  | .shrinkToFit => p.shrinkToFit

/-- The call asks for a block. -/
def PodVector.reallocates (p : PodVector α) : VectorCall α → Bool
  | .emplaceBack _ => p.allocatesOnNextPush
  | .shrinkToFit => p.data.length + 1 != p.capacity
  | _ => false

/-- The call on a plain list. -/
def VectorCall.onList (xs : List α) : VectorCall α → List α
  | .emplaceBack x => xs ++ [x]
  | .uncheckedEmplaceBack x => xs ++ [x]
  | .unorderedErase i =>
    match xs.getLast? with
    | none => []
    | some y => (xs.set i y).dropLast
  | .clear => []
  | .shrinkToFit => xs

/-- What the callers see to: an unchecked push has room, and it is an element that is erased. -/
def VectorCall.Allowed (v : PodVectorBlock α) : VectorCall α → Prop
  | .uncheckedEmplaceBack _ => v.allocatesOnNextPush = false
  | .unorderedErase i => ∃ n, v.size = .ok n ∧ i < n.toNat
  | _ => True

/-- The vectors after allowed calls on a new one; the memory asked for was granted. -/
inductive VectorRuns (heap : Blocks.Heap α) : List (VectorCall α) → PodVectorBlock α → Prop
  | new {v : PodVectorBlock α} {granted : Bool}
      (h : PodVectorBlock.construct heap granted = .ok v) : VectorRuns heap [] v
  | call {calls : List (VectorCall α)} {v v' : PodVectorBlock α} {c : VectorCall α} {granted : Bool}
      (h : VectorRuns heap calls v) (hc : c.Allowed v) (hs : v.perform granted c = .ok v') :
      VectorRuns heap (calls ++ [c]) v'

variable {v v' : PodVectorBlock α} {p : PodVector α} {heap : Blocks.Heap α} {calls : List (VectorCall α)}

theorem PodVector.data_perform (p : PodVector α) (c : VectorCall α) :
    (p.perform c).data = c.onList p.data := by
  cases c with
  | emplaceBack x => exact p.data_emplaceBack x
  | uncheckedEmplaceBack x => rfl
  | unorderedErase i =>
    simp only [perform, unorderedErase, VectorCall.onList]
    cases h : p.data.getLast? with
    | none => exact List.getLast?_eq_none_iff.mp h
    | some y => rfl
  | clear => rfl
  | shrinkToFit => rfl

/-- **Each call does to the block what it does to the list**, if it gets the memory it asks for. -/
theorem PodVectorBlock.Represents.perform (h : v.Represents p) {c : VectorCall α} (hc : c.Allowed v)
    {granted : Bool}
    (hg : p.reallocates c = true → granted = true ∧ (p.perform c).capacity ≤ largestBlock) :
    ∃ v', v.perform granted c = .ok v' ∧ v'.Represents (p.perform c) ∧
      v.Becomes v' (p.reallocates c) := by
  cases c with
  | emplaceBack x =>
    refine h.emplaceBack x fun hp => ?_
    obtain ⟨hgr, hl⟩ := hg hp
    rw [PodVector.perform, p.emplaceBack_of_full hp] at hl
    exact ⟨hgr, hl⟩
  | uncheckedEmplaceBack x => exact h.uncheckedEmplaceBack x (h.allocatesOnNextPush.symm.trans hc)
  | unorderedErase i =>
    obtain ⟨n, hn, hi⟩ := hc
    refine h.unorderedErase ?_
    obtain rfl := Except.ok.inj (h.toOwns.size.symm.trans hn)
    rwa [toNat_ofNat_of_le (Nat.le_trans h.toOwns.length_le h.largest)] at hi
  | clear => exact ⟨_, rfl, h.clear⟩
  | shrinkToFit => exact h.shrinkToFit fun hne => (hg (bne_iff_ne.mpr hne)).1

/-- Without the memory it ends the program. -/
theorem PodVectorBlock.Represents.perform_terminated (h : v.Represents p) {c : VectorCall α}
    {granted : Bool} (hr : p.reallocates c = true)
    (hg : ¬ (granted = true ∧ (p.perform c).capacity ≤ largestBlock)) :
    v.perform granted c = .error .terminated := by
  cases c with
  | emplaceBack x =>
    refine h.emplaceBack_terminated x hr fun hg' => hg ?_
    rw [PodVector.perform, p.emplaceBack_of_full hr]
    exact hg'
  | shrinkToFit =>
    obtain rfl : granted = false := by
      by_contra hne
      exact hg ⟨Bool.eq_true_of_not_eq_false hne, Nat.le_trans h.room h.largest⟩
    exact h.shrinkToFit_terminated (bne_iff_ne.mp hr)
  | uncheckedEmplaceBack x => cases hr
  | unorderedErase i => cases hr
  | clear => cases hr

/-- One call, whether it gets memory or not. -/
theorem PodVectorBlock.Represents.perform_cases (h : v.Represents p) {c : VectorCall α}
    (hc : c.Allowed v) (granted : Bool) :
    v.perform granted c = .error .terminated ∨ ∃ v', v.perform granted c = .ok v' ∧
      v'.Represents (p.perform c) ∧ v.Becomes v' (p.reallocates c) := by
  by_cases hg : p.reallocates c = true → granted = true ∧ (p.perform c).capacity ≤ largestBlock
  · exact .inr (h.perform hc hg)
  · obtain ⟨hr, hg⟩ := Classical.not_imp.mp hg
    exact .inl (h.perform_terminated hr hg)

/-- All calls. -/
theorem VectorRuns.represents (h : VectorRuns heap calls v) :
    ∃ p, v.Represents p ∧ v.Beside heap ∧ p.data = calls.foldl VectorCall.onList [] := by
  induction h with
  | @new v granted hv =>
    obtain ⟨v', hv', hrep, hbeside⟩ := PodVectorBlock.Represents.construct heap
    obtain rfl : granted = true := by
      by_contra hne
      have hfail := Blocks.Heap.allocate_terminated (h := heap) (n := startSize) fun hg => hne hg.1
      rw [PodVectorBlock.construct, hfail] at hv
      cases hv
    obtain rfl := Except.ok.inj (hv'.symm.trans hv)
    exact ⟨.empty, hrep, hbeside, rfl⟩
  | @call calls v v' c granted hrun hc hs ih =>
    obtain ⟨p, hrep, hbeside, hdata⟩ := ih
    rcases hrep.perform_cases hc granted with hfail | ⟨v₁, hok, hrep', hbecomes⟩
    · cases hfail.symm.trans hs
    · obtain rfl := Except.ok.inj (hok.symm.trans hs)
      refine ⟨_, hrep', hbeside.becomes hbecomes, ?_⟩
      rw [p.data_perform, hdata, List.foldl_append, List.foldl_cons, List.foldl_nil]

/-- **A `pod_vector` after any calls.** Its block has the size `capacity` says and is its only one; one
    slot at least is free; the elements are those of a list under the same calls. No further call reads
    or writes outside of the block, and `emplace_back` asks for memory, and moves the vector, exactly if
    `allocates_on_next_push` has said so. -/
theorem podVector_spec (h : VectorRuns heap calls v) :
    ∃ capacity slack, v.size = .ok (BitVec.ofNat 64 (calls.foldl VectorCall.onList []).length) ∧
      v.capacity = .ok (BitVec.ofNat 64 capacity) ∧
      (calls.foldl VectorCall.onList []).length < capacity ∧ capacity ≤ largestBlock ∧
      v.begin_.offset = 0 ∧ v.heap.blocks v.begin_.block =
        some ((calls.foldl VectorCall.onList []).map some ++ slack) ∧
      (calls.foldl VectorCall.onList []).length + slack.length = capacity ∧
      v.Beside heap ∧
      (∀ (c : VectorCall α) granted, c.Allowed v → v.perform granted c ≠ .error .undefined) ∧
      (∀ x, v.emplaceBack x false = .error .terminated ↔ v.allocatesOnNextPush = true) ∧
      ∀ x granted v', v.emplaceBack x granted = .ok v' →
        (v'.begin_ ≠ v.begin_ ↔ v.allocatesOnNextPush = true) := by
  obtain ⟨p, hrep, hbeside, hdata⟩ := h.represents
  rw [← hdata]
  obtain ⟨slack, hcells, hlen⟩ := hrep.cells
  refine ⟨p.capacity, slack, hrep.toOwns.size, hrep.toOwns.capacity, hrep.room, hrep.largest,
    hrep.begin_, hcells, hlen, hbeside, fun c granted hc => ?_, fun x => ?_, fun x granted v' hv' => ?_⟩
  · rcases hrep.perform_cases hc granted with hfail | ⟨v', hok, -⟩
    · rw [hfail]
      exact fun e => by cases e
    · rw [hok]
      exact fun e => by cases e
  · rw [hrep.allocatesOnNextPush]
    constructor
    · intro hfail
      by_contra hp
      have hg : p.allocatesOnNextPush = true → false = true ∧ p.capacity * 2 ≤ largestBlock :=
        fun hp' => absurd hp' hp
      obtain ⟨v', hok, -⟩ := hrep.emplaceBack x hg
      cases hfail.symm.trans hok
    · exact fun hp => hrep.emplaceBack_terminated x hp fun hg => Bool.false_ne_true hg.1
  · rw [hrep.allocatesOnNextPush]
    rcases hrep.perform_cases (c := .emplaceBack x) trivial granted with hfail | ⟨v₁, hok, -, hb⟩
    · cases hfail.symm.trans hv'
    · obtain rfl : v₁ = v' := Except.ok.inj (hok.symm.trans hv')
      have hb : v.Becomes v₁ p.allocatesOnNextPush := hb
      cases hp : p.allocatesOnNextPush with
      | false =>
        rw [hp] at hb
        cases hb with
        | stays begin_ others => exact iff_of_false (fun hne => hne begin_) Bool.false_ne_true
      | true =>
        rw [hp] at hb
        cases hb with
        | moves hm =>
          refine iff_of_true (fun e => ?_) rfl
          cases (e ▸ hm.new).symm.trans hcells

end Calls

/-- An element, the block made to fit, and another one, which doubles it. -/
theorem podVector_spec_fitted :
    ∃ v : PodVectorBlock Nat, v.capacity = .ok 4 ∧ v.allocatesOnNextPush = false ∧
      VectorRuns Blocks.Heap.nothing [.emplaceBack 5, .shrinkToFit, .emplaceBack 6] v ∧
      ∃ capacity slack, v.size = .ok 2 ∧ v.capacity = .ok (BitVec.ofNat 64 capacity) ∧ 2 < capacity ∧
        v.heap.blocks v.begin_.block = some ([some 5, some 6] ++ slack) ∧
        2 + slack.length = capacity := by
  obtain ⟨v₀, hv₀, hrep₀, -⟩ := PodVectorBlock.Represents.construct (Blocks.Heap.nothing : Blocks.Heap Nat)
  obtain ⟨v₁, hv₁, hrep₁, -⟩ := hrep₀.perform (c := .emplaceBack 5) trivial
    fun _ => ⟨rfl, by decide⟩
  obtain ⟨v₂, hv₂, hrep₂, -⟩ := hrep₁.perform (c := .shrinkToFit) trivial
    fun _ => ⟨rfl, by decide⟩
  obtain ⟨v₃, hv₃, hrep₃, -⟩ := hrep₂.perform (c := .emplaceBack 6) trivial
    fun _ => ⟨rfl, by decide⟩
  have h₁ : VectorRuns Blocks.Heap.nothing [.emplaceBack 5] v₁ := .call (c := .emplaceBack 5) (.new hv₀) trivial hv₁
  have h₂ : VectorRuns Blocks.Heap.nothing [.emplaceBack 5, .shrinkToFit] v₂ :=
    h₁.call (c := .shrinkToFit) trivial hv₂
  have h : VectorRuns Blocks.Heap.nothing [.emplaceBack 5, .shrinkToFit, .emplaceBack 6] v₃ :=
    h₂.call (c := .emplaceBack 6) trivial hv₃
  obtain ⟨capacity, slack, hsize, hcap, hroom, -, -, hcells, hlen, -⟩ := podVector_spec h
  exact ⟨v₃, hrep₃.toOwns.capacity, hrep₃.allocatesOnNextPush, h, capacity, slack, hsize, hcap, hroom,
    hcells, hlen⟩

end LockfreeStm
