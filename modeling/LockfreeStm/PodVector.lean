/-
  File:      LockfreeStm/PodVector.lean
  Subject:   `pod_vector` (detail/pod_vector.hpp) as the list of its elements and its capacity.

  The transaction's read set, write set and fail callbacks are pod_vectors. What the rest of the
  library sees of one is its elements in order, and `allocates_on_next_push`, which decides between
  a fast path and a slow path; so a vector is read here as its elements and its capacity, and the
  three pointers of the source are `begin_`, `begin_ + data.length` and `begin_ + capacity - 1`.
  PodVectorBlock.lean has the pointers, and the block.
-/
import Mathlib.Data.List.Basic

namespace LockfreeStm

/-- A `pod_vector`: the elements between `begin_` and `end_`, and the size of the block. -/
structure PodVector (α : Type) where
  data : List α
  capacity : Nat

/-- `start_size`. -/
def startSize : Nat := 1024

namespace PodVector

variable {α : Type}

/-- A new vector: no elements in a block of `start_size`. -/
def empty : PodVector α := ⟨[], startSize⟩

/-- `allocates_on_next_push`: `end_ == last_valid_address_`. -/
def allocatesOnNextPush (p : PodVector α) : Bool := p.data.length == p.capacity - 1

/-- `reserve_more` doubles the block. -/
def reserveMore (p : PodVector α) : PodVector α := ⟨p.data, p.capacity * 2⟩

/-- `unchecked_emplace_back`. -/
def uncheckedEmplaceBack (p : PodVector α) (x : α) : PodVector α := ⟨p.data ++ [x], p.capacity⟩

/-- `emplace_back`: the element is written first, then the block grows if no slot is left. -/
def emplaceBack (p : PodVector α) (x : α) : PodVector α :=
  let q := p.uncheckedEmplaceBack x
  if q.data.length > q.capacity - 1 then q.reserveMore else q

/-- `unordered_erase`: the last element is moved over the erased one. -/
def unorderedErase (p : PodVector α) (i : Nat) : PodVector α :=
  match p.data.getLast? with
  | none => p
  | some x => ⟨(p.data.set i x).dropLast, p.capacity⟩

/-- `clear`. -/
def clear (p : PodVector α) : PodVector α := ⟨[], p.capacity⟩

/-- `shrink_to_fit` leaves one free slot. -/
def shrinkToFit (p : PodVector α) : PodVector α := ⟨p.data, p.data.length + 1⟩

@[simp] theorem data_empty : (empty : PodVector α).data = [] := rfl

@[simp] theorem data_clear (p : PodVector α) : p.clear.data = [] := rfl

@[simp] theorem data_uncheckedEmplaceBack (p : PodVector α) (x : α) :
    (p.uncheckedEmplaceBack x).data = p.data ++ [x] := rfl

@[simp] theorem data_emplaceBack (p : PodVector α) (x : α) :
    (p.emplaceBack x).data = p.data ++ [x] := by
  simp only [emplaceBack]
  split <;> rfl

theorem allocatesOnNextPush_iff {p : PodVector α} :
    p.allocatesOnNextPush = true ↔ p.data.length = p.capacity - 1 := beq_iff_eq

/-- A push into the last free slot grows the block, any other one does not. -/
theorem emplaceBack_of_full {p : PodVector α} (h : p.allocatesOnNextPush = true) (x : α) :
    p.emplaceBack x = (p.uncheckedEmplaceBack x).reserveMore := by
  have hlen := allocatesOnNextPush_iff.mp h
  refine if_pos ?_
  rw [data_uncheckedEmplaceBack, List.length_append, List.length_singleton, hlen]
  exact Nat.lt_succ_self _

theorem emplaceBack_of_room {p : PodVector α} (h : p.allocatesOnNextPush = false)
    (hroom : p.data.length < p.capacity) (x : α) : p.emplaceBack x = p.uncheckedEmplaceBack x := by
  have hlen : ¬ p.data.length = p.capacity - 1 := fun e =>
    Bool.false_ne_true (h.symm.trans (allocatesOnNextPush_iff.mpr e))
  refine if_neg ?_
  rw [data_uncheckedEmplaceBack, List.length_append, List.length_singleton]
  show ¬ p.data.length + 1 > p.capacity - 1
  omega

/-- Erasing slot `i` takes its element out, once. -/
theorem unorderedErase_perm {p : PodVector α} {i : Nat} {x : α} (hx : p.data[i]? = some x) :
    p.data.Perm (x :: (p.unorderedErase i).data) := by
  obtain ⟨hi, hget⟩ := List.getElem?_eq_some_iff.mp hx
  obtain ⟨xs, y, e⟩ : ∃ xs y, p.data = xs ++ [y] :=
    ⟨_, _, (List.dropLast_append_getLast (List.ne_nil_of_mem (List.mem_of_getElem? hx))).symm⟩
  have he : (p.unorderedErase i).data = ((xs ++ [y]).set i y).dropLast := by
    simp [unorderedErase, e]
  rw [he, e]
  rw [e, List.length_append, List.length_singleton] at hi
  by_cases hil : i < xs.length
  · -- `y` moves into the slot of `x`
    have hxi : xs[i] = x := by
      rw [← hget]
      simp [e, hil]
    rw [List.set_append_left _ _ hil, List.dropLast_concat, List.set_eq_take_append_cons_drop,
      if_pos hil]
    calc xs ++ [y]
        = (xs.take i ++ x :: xs.drop (i + 1)) ++ [y] := by
          rw [← hxi, ← List.drop_eq_getElem_cons hil, List.take_append_drop]
      _ |>.Perm (y :: (xs.take i ++ x :: xs.drop (i + 1))) := List.perm_append_singleton ..
      _ |>.Perm (y :: x :: (xs.take i ++ xs.drop (i + 1))) := List.perm_middle.cons _
      _ |>.Perm (x :: y :: (xs.take i ++ xs.drop (i + 1))) := List.Perm.swap ..
      _ |>.Perm (x :: (xs.take i ++ y :: xs.drop (i + 1))) := List.perm_middle.symm.cons _
  · obtain rfl : i = xs.length := by omega
    have hyx : y = x := by
      rw [← hget]
      simp [e]
    rw [hyx, List.set_append_right _ _ (Nat.le_refl _), Nat.sub_self, List.set_cons_zero,
      List.dropLast_concat]
    exact List.perm_append_singleton ..

/-- Erasing slot `i` keeps every element that is not the erased one. -/
theorem mem_unorderedErase {p : PodVector α} {i : Nat} {x : α} (hx : x ∈ p.data)
    (hi : i < p.data.length) (hne : p.data[i] ≠ x) : x ∈ (p.unorderedErase i).data := by
  obtain ⟨xs, y, e⟩ : ∃ xs y, p.data = xs ++ [y] :=
    ⟨_, _, (List.dropLast_append_getLast (List.ne_nil_of_mem hx)).symm⟩
  have he : (p.unorderedErase i).data = ((xs ++ [y]).set i y).dropLast := by
    simp [unorderedErase, e]
  rw [he]
  rw [e, List.mem_append, List.mem_singleton] at hx
  have hlen : i < (xs ++ [y]).length := e ▸ hi
  have hne' : (xs ++ [y])[i] ≠ x := by
    have : (xs ++ [y])[i] = p.data[i] := by simp [e]
    rw [this]; exact hne
  by_cases hil : i < xs.length
  · rw [List.set_append_left _ _ hil, List.dropLast_concat]
    rw [List.getElem_append_left hil] at hne'
    rcases hx with hx | rfl
    · obtain ⟨j, hj, rfl⟩ := List.getElem_of_mem hx
      have hij : i ≠ j := by rintro rfl; exact hne' rfl
      exact List.mem_iff_getElem.mpr ⟨j, by simpa using hj, by simp [hij]⟩
    · exact List.mem_set hil x
  · have hie : i = xs.length := by simp at hlen; omega
    subst hie
    simp only [List.getElem_concat_length] at hne'
    simp only [List.set_append_right _ _ (Nat.le_refl _), Nat.sub_self, List.set_cons_zero,
      List.dropLast_concat]
    exact hx.resolve_right fun h => hne' h.symm

end PodVector

end LockfreeStm
