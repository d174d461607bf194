/-
  File:      LockfreeStm/VarLayout.lean
  Subject:   Where a `var` and its `var_base` lie, and the one-bit address hash of the write set's
             filter (`dumb_reference_hash`, detail/pod_hash_set.hpp; detail/var_detail.hpp).

  `var_alloc_policy` derives from `alloc_wrapper<Alloc>` first and from `var_base` second. With an
  empty allocator that is not final the wrapper takes no room and the `var_base` lies at the var's
  own address; with a stateful or a final allocator it lies behind it, at a multiple of its
  alignment. `dumb_reference_hash` is a template: called with a `var<T, Alloc>&` it hashes the
  address of the var, called with a `var_base&` the address of the subobject.
-/
import Mathlib.Data.Nat.Bitwise

namespace LockfreeStm

/-- `hash_t`: one bit of a 64-bit filter. -/
abbrev Hash := BitVec 64

/-- The addresses of one `var<T, Alloc>`. -/
structure VarLayout where
  /-- the address of the `var<T, Alloc>` -/
  addr : Nat
  /-- `alignof(var<T, Alloc>)` -/
  align : Nat
  /-- the offset of the `var_base` subobject -/
  baseOffset : Nat

/-- The loop of `calcShift`: how often the alignment can be halved (an alignment fits in a word). -/
def calcShiftLoop : Nat → Nat → Nat → Nat
  | 0, _, l => l
  | fuel + 1, foo, l => if foo > 0 then calcShiftLoop fuel (foo >>> 1) (l + 1) else l

/-- `calcShift<T>`, on `alignof(T)`. -/
def calcShift (align : Nat) : Nat := calcShiftLoop 65 align 0 - 1

/-- `dumb_reference_hash<T>`, on `alignof(T)` and the address of the object. -/
def dumbReferenceHash (align addr : Nat) : Hash := 1#64 <<< ((addr >>> calcShift align) % 64)

/-- `alignof(var_base)`: twice the alignment of two words. -/
def varBaseAlign : Nat := 16

namespace VarLayout

/-- `dumb_reference_hash` of the var itself, as `rw_write` calls it. -/
def varHash (l : VarLayout) : Hash := dumbReferenceHash l.align l.addr

/-- `dumb_reference_hash` of the var's `var_base`, as every other caller calls it. -/
def baseHash (l : VarLayout) : Hash := dumbReferenceHash varBaseAlign (l.addr + l.baseOffset)

end VarLayout

theorem dumbReferenceHash_self (align addr : Nat) :
    dumbReferenceHash align addr &&& dumbReferenceHash align addr ≠ 0#64 := by
  intro h
  have hlt : (addr >>> calcShift align) % 64 < 64 := Nat.mod_lt _ (by decide)
  have hb := congrArg (fun w => w.getLsbD ((addr >>> calcShift align) % 64)) h
  simp [dumbReferenceHash, hlt] at hb

/-- Two hashes that differ have no bit in common. -/
theorem dumbReferenceHash_disjoint {a b c d : Nat}
    (h : dumbReferenceHash a b ≠ dumbReferenceHash c d) :
    dumbReferenceHash a b &&& dumbReferenceHash c d = 0#64 := by
  have hne : (b >>> calcShift a) % 64 ≠ (d >>> calcShift c) % 64 := fun e =>
    h (congrArg (1#64 <<< ·) e)
  refine BitVec.eq_of_getLsbD_eq fun i hi => ?_
  simp only [dumbReferenceHash, BitVec.getLsbD_and, BitVec.getLsbD_shiftLeft, BitVec.getLsbD_one,
    BitVec.getLsbD_zero, Bool.and_eq_false_imp, Bool.and_eq_true, decide_eq_true_eq]
  grind

/-- An empty allocator that is not final adds no alignment and no offset, and the two hashes of the
    var are one. -/
theorem VarLayout.varHash_eq_baseHash {l : VarLayout} (ha : l.align = varBaseAlign)
    (ho : l.baseOffset = 0) : l.varHash = l.baseHash := by
  simp [VarLayout.varHash, VarLayout.baseHash, ha, ho]

end LockfreeStm
