/-
  File:      LockfreeStm/Library/Ring.lean
  Subject:   LISTS AROUND THE END OF A BUFFER.

  `Holds buffer start l`: the list `l` stands in the buffer from slot `start` on, past the last slot from
  the first. The rules say what becomes of it when an element is written behind it or in it, when it is
  cut at either end, and when the buffer is copied into a larger one with `start` first.
-/
import Mathlib.Data.Nat.ModEq

namespace LockfreeStm

namespace Ring

variable {β : Type}

/-- The list stands in the buffer from slot `start` on. -/
structure Holds (buffer : List β) (start : Nat) (l : List β) : Prop where
  fits : l.length ≤ buffer.length
  slot : ∀ {i x}, l[i]? = some x → buffer[(start + i) % buffer.length]? = some x

/-- Slots at different distances from the start differ. -/
theorem index_inj {n start i j : Nat} (hi : i < n) (hj : j < n)
    (h : (start + i) % n = (start + j) % n) : i = j :=
  Nat.ModEq.eq_of_lt_of_lt (Nat.ModEq.add_left_cancel' start h) hi hj

namespace Holds

variable {buffer l l' r : List β} {start start' : Nat} {x y : β}

/-- A list at the beginning of the buffer. -/
theorem ofPrefix : Holds (l ++ r) 0 l where
  fits := by
    rw [List.length_append]
    omega
  slot {i x} hx := by
    have hi := (List.getElem?_eq_some_iff.mp hx).1
    rw [Nat.zero_add, Nat.mod_eq_of_lt (by rw [List.length_append]; omega),
      List.getElem?_append_left hi, hx]

/-- Only the slot the start denotes matters. -/
theorem congr (h : Holds buffer start l) (hs : start' % buffer.length = start % buffer.length) :
    Holds buffer start' l where
  fits := h.fits
  slot {i x} hx := by
    rw [Nat.ModEq.add_right i hs]
    exact h.slot hx

/-- The first part of the list. -/
theorem left (h : Holds buffer start (l ++ l')) : Holds buffer start l where
  fits := by
    have := h.fits
    rw [List.length_append] at this
    omega
  slot {i x} hx := by
    refine h.slot ?_
    rwa [List.getElem?_append_left (List.getElem?_eq_some_iff.mp hx).1]

/-- What follows the first part. -/
theorem right (h : Holds buffer start (l ++ l')) : Holds buffer (start + l.length) l' where
  fits := by
    have := h.fits
    rw [List.length_append] at this
    omega
  slot {i x} hx := by
    rw [Nat.add_assoc]
    refine h.slot ?_
    rwa [List.getElem?_append_right (Nat.le_add_right _ _), Nat.add_sub_cancel_left]

/-- What a write to a slot does to the others. -/
theorem getElem?_set_ne {i j : Nat} (hi : i < buffer.length) (hj : j < buffer.length) (hij : i ≠ j) :
    (buffer.set ((start + j) % buffer.length) x)[(start + i) % buffer.length]? =
      buffer[(start + i) % buffer.length]? :=
  List.getElem?_set_ne fun e => hij (index_inj hj hi e).symm

theorem getElem?_set_self {j : Nat} (hj : j < buffer.length) :
    (buffer.set ((start + j) % buffer.length) x)[(start + j) % buffer.length]? = some x :=
  List.getElem?_set_self (Nat.mod_lt _ (by omega))

/-- An element is written into the slot behind the list. -/
theorem push (h : Holds buffer start l) (hl : l.length < buffer.length) :
    Holds (buffer.set ((start + l.length) % buffer.length) x) start (l ++ [x]) where
  fits := by
    rw [List.length_append, List.length_set]
    exact hl
  slot {i y} hy := by
    rw [List.length_set]
    rcases Nat.lt_trichotomy i l.length with hi | rfl | hi
    · rw [List.getElem?_append_left hi] at hy
      rw [getElem?_set_ne (hi.trans hl) hl hi.ne]
      exact h.slot hy
    · rw [List.getElem?_concat_length] at hy
      rw [getElem?_set_self hl, hy]
    · rw [List.getElem?_eq_none (by rw [List.length_append]; exact hi)] at hy
      cases hy

/-- An element of the list is overwritten. -/
theorem set (h : Holds buffer start (l ++ y :: l')) :
    Holds (buffer.set ((start + l.length) % buffer.length) x) start (l ++ x :: l') where
  fits := by
    have := h.fits
    simpa using this
  slot {i z} hz := by
    have hl : l.length < buffer.length := by
      have := h.fits
      rw [List.length_append, List.length_cons] at this
      omega
    rw [List.length_set]
    by_cases hi : i = l.length
    · subst hi
      rw [List.getElem?_append_right (Nat.le_refl _), Nat.sub_self] at hz
      rw [getElem?_set_self hl]
      exact hz
    · have hz' : (l ++ y :: l')[i]? = some z := by
        rw [← hz]
        rcases Nat.lt_or_gt_of_ne hi with hi | hi
        · rw [List.getElem?_append_left hi, List.getElem?_append_left hi]
        · obtain ⟨k, rfl⟩ := Nat.exists_eq_add_of_lt hi
          rw [List.getElem?_append_right (by omega), List.getElem?_append_right (by omega)]
          simp [show l.length + k + 1 - l.length = k + 1 by omega]
      have hlt : i < buffer.length :=
        (List.getElem?_eq_some_iff.mp hz').1.trans_le h.fits
      rw [getElem?_set_ne hlt hl hi]
      exact h.slot hz'

/-- The buffer is copied into a larger one, from the start on and then from the first slot. -/
theorem rotate (h : Holds buffer start l) (hs : start ≤ buffer.length) :
    Holds (buffer.drop start ++ buffer.take start ++ r) 0 l where
  fits := by
    have := h.fits
    simp only [List.length_append, List.length_drop, List.length_take]
    omega
  slot {i x} hx := by
    have hi : i < buffer.length := (List.getElem?_eq_some_iff.mp hx).1.trans_le h.fits
    have hlen : (buffer.drop start ++ buffer.take start).length = buffer.length := by
      simp only [List.length_append, List.length_drop, List.length_take]
      omega
    have hmod : (0 + i) % (buffer.drop start ++ buffer.take start ++ r).length = i := by
      rw [Nat.zero_add, Nat.mod_eq_of_lt]
      rw [List.length_append, hlen]
      omega
    rw [hmod, List.getElem?_append_left (hlen ▸ hi), ← h.slot hx]
    by_cases hlt : start + i < buffer.length
    · rw [List.getElem?_append_left (by rw [List.length_drop]; omega), List.getElem?_drop,
        Nat.mod_eq_of_lt hlt]
    · have hwrap : (start + i) % buffer.length = start + i - buffer.length := by
        rw [Nat.mod_eq_sub_mod (by omega), Nat.mod_eq_of_lt (by omega)]
      rw [List.getElem?_append_right (by rw [List.length_drop]; omega), List.length_drop,
        List.getElem?_take_of_lt (by omega), hwrap]
      congr 1
      omega

end Holds

end Ring

end LockfreeStm
