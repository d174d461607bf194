/-
  File:      LockfreeStm/Library/Blocks.lean
  Subject:   MEMORY AS BLOCKS OF CELLS, and pointers into them.

  A block is there from its allocation until it is given back; a pointer is a block and an offset. Pointers
  may be moved freely, but what is read or written has to be a cell of a block that is there, and only
  pointers into one block are compared or subtracted: everything else is `undefined`. An allocation may
  fail, and then the program is `terminated`.

  * `write_ok`, `copy_ok`, `allocate_ok`, `deallocate_ok` -- what each access does to the blocks.
-/
import Mathlib.Logic.Function.Basic
import Mathlib.Data.Nat.Bitwise
import Mathlib.Data.List.Basic

namespace LockfreeStm

namespace Blocks

/-- How a program over blocks stops early. -/
inductive Fault where
  | undefined
  | terminated
deriving DecidableEq

/-- The distance of two pointers is a signed word, so no block has more cells. -/
def largestBlock : Nat := 2 ^ 63 - 1

/-! ## 1. Pointers -/

structure Pointer where
  block : Nat
  offset : Nat
deriving DecidableEq

namespace Pointer

/-- `p + k`. -/
def shift (p : Pointer) (k : Nat) : Pointer := ⟨p.block, p.offset + k⟩

/-- `p - 1`. -/
def pred (p : Pointer) : Except Fault Pointer :=
  if 0 < p.offset then .ok ⟨p.block, p.offset - 1⟩ else .error .undefined

/-- `p - q`, where it is not negative. -/
def distance (p q : Pointer) : Except Fault Nat :=
  if p.block = q.block ∧ q.offset ≤ p.offset then .ok (p.offset - q.offset) else .error .undefined

/-- `p < q`. -/
def less (p q : Pointer) : Except Fault Bool :=
  if p.block = q.block then .ok (decide (p.offset < q.offset)) else .error .undefined

variable {b i : Nat}

@[simp] theorem shift_block (p : Pointer) (k : Nat) : (p.shift k).block = p.block := rfl
@[simp] theorem shift_offset (p : Pointer) (k : Nat) : (p.shift k).offset = p.offset + k := rfl

theorem shift_start (k : Nat) : shift ⟨b, 0⟩ k = ⟨b, k⟩ := by
  rw [shift, Nat.zero_add]

theorem pred_mk (h : 0 < i) : pred ⟨b, i⟩ = .ok ⟨b, i - 1⟩ := if_pos h

theorem distance_shift (p : Pointer) (k : Nat) : (p.shift k).distance p = .ok k := by
  rw [distance, shift_offset, Nat.add_sub_cancel_left, if_pos ⟨rfl, Nat.le_add_right _ _⟩]

theorem less_of_block {p q : Pointer} (h : p.block = q.block) :
    p.less q = .ok (decide (p.offset < q.offset)) := if_pos h

end Pointer

/-! ## 2. The heap -/

/-- The blocks that are there, each with its cells; a cell nobody has written is empty. -/
structure Heap (α : Type) where
  blocks : Nat → Option (List (Option α))
  next : Nat
  fresh : ∀ b, next ≤ b → blocks b = none

namespace Heap

variable {α : Type} {h h' : Heap α} {p q : Pointer} {cells cells' : List (Option α)}

/-- No block at all. -/
def nothing : Heap α := ⟨fun _ => none, 0, fun _ _ => rfl⟩

theorem lt_next {b : Nat} (hb : h.blocks b = some cells) : b < h.next := by
  by_contra hlt
  cases (h.fresh b (Nat.le_of_not_lt hlt)).symm.trans hb

/-- The heap with other cells in a block, or without it. -/
def put (h : Heap α) (b : Nat) (cells : Option (List (Option α))) (hb : b < h.next) : Heap α where
  blocks := Function.update h.blocks b cells
  next := h.next
  fresh c hc := by
    rw [Function.update_of_ne (Nat.ne_of_gt (Nat.lt_of_lt_of_le hb hc)), h.fresh c hc]

/-- The heap with another block. -/
def push (h : Heap α) (cells : List (Option α)) : Heap α where
  blocks := Function.update h.blocks h.next cells
  next := h.next + 1
  fresh b hb := by
    rw [Function.update_of_ne (Nat.ne_of_gt hb), h.fresh b (Nat.le_of_succ_le hb)]

/-- The cell `*p`. -/
def read (h : Heap α) (p : Pointer) : Except Fault (Option α) :=
  match h.blocks p.block with
  | none => .error .undefined
  | some cells =>
    match cells[p.offset]? with
    | none => .error .undefined
    | some c => .ok c

/-- The value of `*p`. -/
def load (h : Heap α) (p : Pointer) : Except Fault α :=
  match h.read p with
  | .error e => .error e
  | .ok none => .error .undefined
  | .ok (some x) => .ok x

/-- `*p = c`. -/
def write (h : Heap α) (p : Pointer) (c : Option α) : Except Fault (Heap α) :=
  match hp : h.blocks p.block with
  | none => .error .undefined
  | some cells =>
    if p.offset < cells.length then .ok (h.put p.block (cells.set p.offset c) (lt_next hp))
    else .error .undefined

/-- The first `n` cells from `src` on go to `dst`, one after the other. -/
def copy (dst src : Pointer) : Nat → Heap α → Except Fault (Heap α)
  | 0, h => .ok h
  | n + 1, h => do
    let c ← h.read src
    copy (dst.shift 1) (src.shift 1) n (← h.write dst c)

/-- A new block of `n` empty cells, if it is `granted`. -/
def allocate (h : Heap α) (granted : Bool) (n : Nat) : Except Fault (Pointer × Heap α) :=
  if granted && decide (n ≤ largestBlock) then .ok (⟨h.next, 0⟩, h.push (List.replicate n none))
  else .error .terminated

/-- The block of `n` cells that begins at `p` is given back. -/
def deallocate (h : Heap α) (p : Pointer) (n : Nat) : Except Fault (Heap α) :=
  match hp : h.blocks p.block with
  | none => .error .undefined
  | some cells =>
    if p.offset = 0 ∧ cells.length = n then .ok (h.put p.block none (lt_next hp))
    else .error .undefined

theorem read_ok {c : Option α} (hp : h.blocks p.block = some cells) (hc : cells[p.offset]? = some c) :
    h.read p = .ok c := by
  simp only [read, hp, hc]

theorem load_ok {x : α} (hp : h.blocks p.block = some cells)
    (hc : cells[p.offset]? = some (some x)) : h.load p = .ok x := by
  simp only [load, read_ok hp hc]

/-- A write changes one cell. -/
theorem write_ok (hp : h.blocks p.block = some cells) (ho : p.offset < cells.length)
    (c : Option α) : ∃ h', h.write p c = .ok h' ∧ h'.next = h.next ∧
      h'.blocks = Function.update h.blocks p.block (some (cells.set p.offset c)) := by
  refine ⟨h.put p.block (cells.set p.offset c) (lt_next hp), ?_, rfl, rfl⟩
  unfold write
  split
  · rename_i hn
    cases hp.symm.trans hn
  · rename_i cells' hs
    obtain rfl : cells = cells' := Option.some.inj (hp.symm.trans hs)
    rw [if_pos ho]

/-- A copy between two blocks changes the cells it goes to. -/
theorem copy_ok {n : Nat} (hd : h.blocks p.block = some cells)
    (hs : h.blocks q.block = some cells') (hne : p.block ≠ q.block)
    (hdn : p.offset + n ≤ cells.length) (hsn : q.offset + n ≤ cells'.length) :
    ∃ h', copy p q n h = .ok h' ∧ h'.next = h.next ∧
      h'.blocks = Function.update h.blocks p.block (some (cells.take p.offset ++
        (cells'.drop q.offset).take n ++ cells.drop (p.offset + n))) := by
  induction n generalizing h p q cells with
  | zero =>
    refine ⟨h, rfl, rfl, ?_⟩
    simp [← hd]
  | succ n ih =>
    have hq : q.offset < cells'.length := by omega
    have hp : p.offset < cells.length := by omega
    obtain ⟨h₁, hw, hn₁, hb₁⟩ := write_ok hd hp (cells'[q.offset])
    have hd₁ : h₁.blocks p.block = some (cells.set p.offset cells'[q.offset]) := by
      rw [hb₁, Function.update_self]
    have hs₁ : h₁.blocks q.block = some cells' := by
      rw [hb₁, Function.update_of_ne (Ne.symm hne), hs]
    obtain ⟨h₂, hc, hn₂, hb₂⟩ := ih (p := p.shift 1) (q := q.shift 1) hd₁ hs₁ hne
      (by rw [List.length_set, Pointer.shift_offset]; omega)
      (by rw [Pointer.shift_offset]; omega)
    refine ⟨h₂, ?_, hn₂.trans hn₁, ?_⟩
    · simp only [copy, read_ok hs (List.getElem?_eq_getElem hq), bind, Except.bind, hw]
      exact hc
    · -- the cell just written, and the rest
      have htake : (cells.set p.offset cells'[q.offset]).take (p.offset + 1) =
          cells.take p.offset ++ [cells'[q.offset]] := by
        rw [← List.take_append_getElem (by rwa [List.length_set]), List.take_set_of_le (Nat.le_refl _),
          List.getElem_set_self]
      have hdrop : (cells.set p.offset cells'[q.offset]).drop (p.offset + 1 + n) =
          cells.drop (p.offset + (n + 1)) := by
        rw [List.drop_set_of_lt (by omega), Nat.add_assoc, Nat.add_comm 1 n]
      have hsrc : (cells'.drop q.offset).take (n + 1) =
          cells'[q.offset] :: (cells'.drop (q.offset + 1)).take n := by
        rw [List.drop_eq_getElem_cons hq, List.take_succ_cons]
      rw [hb₂, hb₁, Pointer.shift_block, Function.update_idem, Pointer.shift_offset,
        Pointer.shift_offset, htake, hdrop, hsrc, List.append_assoc _ [_], List.singleton_append]

theorem allocate_ok {n : Nat} (hn : n ≤ largestBlock) :
    h.allocate true n = .ok (⟨h.next, 0⟩, h.push (List.replicate n none)) := by
  rw [allocate, Bool.true_and, decide_eq_true hn, if_pos rfl]

/-- An allocation that is not granted ends the program. -/
theorem allocate_terminated {n : Nat} {granted : Bool} (hg : ¬ (granted = true ∧ n ≤ largestBlock)) :
    h.allocate granted n = .error .terminated := by
  unfold allocate
  split
  · rename_i hg'
    rw [Bool.and_eq_true, decide_eq_true_eq] at hg'
    exact absurd hg' hg
  · rfl

theorem deallocate_ok (hp : h.blocks p.block = some cells) (ho : p.offset = 0) :
    ∃ h', h.deallocate p cells.length = .ok h' ∧
      h'.blocks = Function.update h.blocks p.block none := by
  refine ⟨h.put p.block none (lt_next hp), ?_, rfl⟩
  unfold deallocate
  split
  · rename_i hn
    cases hp.symm.trans hn
  · rename_i cells' hs
    obtain rfl : cells = cells' := Option.some.inj (hp.symm.trans hs)
    rw [if_pos ⟨ho, rfl⟩]

end Heap

end Blocks

end LockfreeStm
