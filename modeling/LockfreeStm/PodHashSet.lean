/-
  File:      LockfreeStm/PodHashSet.lean
  Subject:   `pod_hash_set` over `write_set_value_type` (detail/pod_hash_set.hpp,
             detail/write_set_value_type.hpp, detail/write_set_lookup.hpp): the write set.

  The filter is one word: every push ors a one-bit hash into it, `clear` zeroes it. `find` and
  `lookup` answer "not there" without looking when the hash of the var is not in the filter. They
  hash the `var_base`; the pushes take the hash their caller computed, and `rw_write` computes it
  from the `var`. The hash function is a parameter here; `FilterCovers` says that the filter holds
  the hash of every entry, which is what makes the two agree.

  * **`run_answers`** -- `find` and `lookup` answer like a plain search.
  * **`run_writes`** -- the entries are the values last set, each var once.
-/
import LockfreeStm.PodVector
import LockfreeStm.VarLayout

namespace LockfreeStm

/-- `write_set_value_type`: the var to write and the storage to write into it. -/
structure WriteSetValueType (ν σ : Type) where
  destVar : ν
  pendingWrite : σ

/-- The write set: a filter in front of a pod_vector. -/
structure PodHashSet (ν σ : Type) where
  filter : Hash
  data : PodVector (WriteSetValueType ν σ)

/-- `write_set_lookup`: the place of the pending write, or the hash to push the var with. -/
inductive WriteSetLookup where
  | pendingWrite (i : Nat)
  | hash (h : Hash)

namespace PodHashSet

variable {ν σ : Type}

/-- A new write set. -/
def empty : PodHashSet ν σ := ⟨0#64, .empty⟩

/-- The entries in insertion order. -/
def entries (s : PodHashSet ν σ) : List (WriteSetValueType ν σ) := s.data.data

/-- The vars of the entries in insertion order. -/
def vars (s : PodHashSet ν σ) : List ν := s.entries.map (·.destVar)

/-- `clear`. -/
def clear (s : PodHashSet ν σ) : PodHashSet ν σ := ⟨0#64, s.data.clear⟩

/-- `allocates_on_next_push`. -/
def allocatesOnNextPush (s : PodHashSet ν σ) : Bool := s.data.allocatesOnNextPush

/-- `push_back`. -/
def pushBack (s : PodHashSet ν σ) (v : ν) (p : σ) (h : Hash) : PodHashSet ν σ :=
  ⟨s.filter ||| h, s.data.emplaceBack ⟨v, p⟩⟩

/-- `unchecked_push_back`. -/
def uncheckedPushBack (s : PodHashSet ν σ) (v : ν) (p : σ) (h : Hash) : PodHashSet ν σ :=
  ⟨s.filter ||| h, s.data.uncheckedEmplaceBack ⟨v, p⟩⟩

/-- The assignment `lookup.pending_write() = storage` through the place `i`. -/
def setPending (s : PodHashSet ν σ) (i : Nat) (p : σ) : PodHashSet ν σ :=
  ⟨s.filter, ⟨s.entries.modify i (fun e => { e with pendingWrite := p }), s.data.capacity⟩⟩

section Find

variable [DecidableEq ν] (hash : ν → Hash)

/-- `find_impl`: the first entry of the var, if there is one. -/
def findImpl (s : PodHashSet ν σ) (v : ν) : Option Nat := s.entries.findIdx? (·.destVar = v)

/-- `find`: the filter first, then the scan. -/
def find (s : PodHashSet ν σ) (v : ν) : Option Nat :=
  if s.filter &&& hash v = 0#64 then none else s.findImpl v

/-- `lookup`. -/
def lookup (s : PodHashSet ν σ) (v : ν) : WriteSetLookup :=
  if s.filter &&& hash v = 0#64 then .hash (hash v)
  else match s.findImpl v with
    | some i => .pendingWrite i
    | none => .hash (hash v)

end Find

/-- The filter holds the hash of every entry. -/
def FilterCovers (hash : ν → Hash) (s : PodHashSet ν σ) : Prop :=
  ∀ v ∈ s.vars, s.filter &&& hash v ≠ 0#64

@[simp] theorem entries_empty : (empty : PodHashSet ν σ).entries = [] := rfl

@[simp] theorem entries_clear (s : PodHashSet ν σ) : s.clear.entries = [] := rfl

@[simp] theorem entries_pushBack (s : PodHashSet ν σ) (v : ν) (p : σ) (h : Hash) :
    (s.pushBack v p h).entries = s.entries ++ [⟨v, p⟩] := by
  simp [entries, pushBack]

@[simp] theorem entries_uncheckedPushBack (s : PodHashSet ν σ) (v : ν) (p : σ) (h : Hash) :
    (s.uncheckedPushBack v p h).entries = s.entries ++ [⟨v, p⟩] := rfl

@[simp] theorem entries_setPending (s : PodHashSet ν σ) (i : Nat) (p : σ) :
    (s.setPending i p).entries = s.entries.modify i (fun e => { e with pendingWrite := p }) := rfl

@[simp] theorem vars_empty : (empty : PodHashSet ν σ).vars = [] := rfl

@[simp] theorem vars_clear (s : PodHashSet ν σ) : s.clear.vars = [] := rfl

@[simp] theorem vars_pushBack (s : PodHashSet ν σ) (v : ν) (p : σ) (h : Hash) :
    (s.pushBack v p h).vars = s.vars ++ [v] := by
  simp [vars]

@[simp] theorem vars_uncheckedPushBack (s : PodHashSet ν σ) (v : ν) (p : σ) (h : Hash) :
    (s.uncheckedPushBack v p h).vars = s.vars ++ [v] := by
  simp [vars]

/-- Overwriting a pending write changes no var. -/
@[simp] theorem vars_setPending (s : PodHashSet ν σ) (i : Nat) (p : σ) :
    (s.setPending i p).vars = s.vars := by
  refine List.ext_getElem? fun j => ?_
  simp only [vars, entries_setPending, List.getElem?_map, List.getElem?_modify]
  split <;> cases s.entries[j]? <;> rfl

section Find

variable [DecidableEq ν] {hash : ν → Hash}

theorem findImpl_eq_none {s : PodHashSet ν σ} {v : ν} : s.findImpl v = none ↔ v ∉ s.vars := by
  simp [findImpl, List.findIdx?_eq_none_iff, vars]

theorem findImpl_eq_some {s : PodHashSet ν σ} {v : ν} {i : Nat} (h : s.findImpl v = some i) :
    ∃ e, s.entries[i]? = some e ∧ e.destVar = v := by
  obtain ⟨hi, he, _⟩ := List.findIdx?_eq_some_iff_getElem.mp h
  exact ⟨_, List.getElem?_eq_getElem hi, by simpa using he⟩

theorem find_eq_some {s : PodHashSet ν σ} {v : ν} {i : Nat} (h : s.find hash v = some i) :
    ∃ e, s.entries[i]? = some e ∧ e.destVar = v := by
  unfold find at h
  split at h
  · cases h
  · exact findImpl_eq_some h

/-- **With a covering filter, `find` answers like the plain search.** -/
theorem find_eq_none {s : PodHashSet ν σ} (hc : s.FilterCovers hash) {v : ν} :
    s.find hash v = none ↔ v ∉ s.vars := by
  unfold find
  split
  · rename_i h0
    exact ⟨fun _ hv => hc v hv h0, fun _ => rfl⟩
  · exact findImpl_eq_none

theorem lookup_pendingWrite {s : PodHashSet ν σ} {v : ν} {i : Nat}
    (h : s.lookup hash v = .pendingWrite i) : ∃ e, s.entries[i]? = some e ∧ e.destVar = v := by
  unfold lookup at h
  split at h
  · cases h
  · split at h
    · cases h; exact findImpl_eq_some ‹_›
    · cases h

theorem lookup_hash {s : PodHashSet ν σ} {v : ν} {h : Hash} (hl : s.lookup hash v = .hash h) :
    h = hash v := by
  unfold lookup at hl
  split at hl
  · cases hl; rfl
  · split at hl <;> cases hl
    rfl

/-- **With a covering filter, a failed `lookup` means the var has no entry.** -/
theorem not_mem_of_lookup_hash {s : PodHashSet ν σ} (hc : s.FilterCovers hash) {v : ν} {h : Hash}
    (hl : s.lookup hash v = .hash h) : v ∉ s.vars := by
  unfold lookup at hl
  split at hl
  · rename_i h0
    exact fun hv => hc v hv h0
  · split at hl
    · cases hl
    · exact findImpl_eq_none.mp ‹_›

end Find

section Filter

variable {hash : ν → Hash}

theorem or_and_ne_zero_left {f h k : Hash} (hf : f &&& k ≠ 0#64) : (f ||| h) &&& k ≠ 0#64 := by
  intro e
  rw [BitVec.and_or_distrib_right] at e
  exact hf (BitVec.or_eq_zero_iff.mp e).1

theorem or_and_ne_zero_right {f h k : Hash} (hh : h &&& k ≠ 0#64) : (f ||| h) &&& k ≠ 0#64 := by
  rw [BitVec.or_comm]
  exact or_and_ne_zero_left hh

theorem filterCovers_empty : (empty : PodHashSet ν σ).FilterCovers hash :=
  fun _ hv => absurd hv List.not_mem_nil

theorem filterCovers_clear (s : PodHashSet ν σ) : s.clear.FilterCovers hash :=
  fun _ hv => absurd hv List.not_mem_nil

/-- A push with the hash of the var keeps the filter covering. -/
theorem filterCovers_pushBack {s : PodHashSet ν σ} (hc : s.FilterCovers hash) {v : ν} (p : σ)
    (hne : hash v &&& hash v ≠ 0#64) : (s.pushBack v p (hash v)).FilterCovers hash := by
  intro w hw
  rw [vars_pushBack, List.mem_append, List.mem_singleton] at hw
  rcases hw with hw | rfl
  · exact or_and_ne_zero_left (hc w hw)
  · exact or_and_ne_zero_right hne

theorem filterCovers_uncheckedPushBack {s : PodHashSet ν σ} (hc : s.FilterCovers hash) {v : ν}
    (p : σ) (hne : hash v &&& hash v ≠ 0#64) :
    (s.uncheckedPushBack v p (hash v)).FilterCovers hash := by
  intro w hw
  rw [vars_uncheckedPushBack, List.mem_append, List.mem_singleton] at hw
  rcases hw with hw | rfl
  · exact or_and_ne_zero_left (hc w hw)
  · exact or_and_ne_zero_right hne

theorem filterCovers_setPending {s : PodHashSet ν σ} (hc : s.FilterCovers hash) (i : Nat) (p : σ) :
    (s.setPending i p).FilterCovers hash := by
  intro w hw
  rw [vars_setPending] at hw
  exact hc w hw

/-- With the var's bit clear in a covering filter the var has no entry. -/
theorem not_mem_of_filter {s : PodHashSet ν σ} (hc : s.FilterCovers hash) {v : ν}
    (h : s.filter &&& hash v = 0#64) : v ∉ s.vars := fun hv => hc v hv h

end Filter

/-! ## Runs -/

/-- What is done to a write set. -/
inductive Op (ν σ : Type) where
  | pushBack (v : ν) (p : σ)
  | uncheckedPushBack (v : ν) (p : σ)
  | clear
  /-- an assignment through the pending write of entry `i` -/
  | overwrite (i : Nat) (p : σ)

/-- The pushes take the hash of the var pushed. -/
def apply (hash : ν → Hash) (s : PodHashSet ν σ) : Op ν σ → PodHashSet ν σ
  | .pushBack v p => s.pushBack v p (hash v)
  | .uncheckedPushBack v p => s.uncheckedPushBack v p (hash v)
  | .clear => s.clear
  | .overwrite i p => s.setPending i p

/-- A var that is pushed is not present: the pushes assert it. -/
def Allowed (s : PodHashSet ν σ) : Op ν σ → Prop
  | .pushBack v _ => v ∉ s.vars
  | .uncheckedPushBack v _ => v ∉ s.vars
  | .clear => True
  | .overwrite _ _ => True

/-- Every operation of the sequence is allowed when its turn comes. -/
def AllowedRun (hash : ν → Hash) (s : PodHashSet ν σ) : List (Op ν σ) → Prop
  | [] => True
  | op :: ops => s.Allowed op ∧ AllowedRun hash (s.apply hash op) ops

/-- One operation keeps the vars distinct and the filter covering. -/
theorem apply_covers {hash : ν → Hash} {s : PodHashSet ν σ}
    (hne : ∀ v, hash v &&& hash v ≠ 0#64) (hn : s.vars.Nodup)
    (hc : s.FilterCovers hash) {op : Op ν σ} (h : s.Allowed op) :
    (s.apply hash op).vars.Nodup ∧ (s.apply hash op).FilterCovers hash := by
  have hpush : ∀ v, v ∉ s.vars → (s.vars ++ [v]).Nodup := fun v hv =>
    List.nodup_append.mpr ⟨hn, List.pairwise_singleton _ v, fun w hw u hu e =>
      hv (List.mem_singleton.mp hu ▸ e ▸ hw)⟩
  cases op with
  | pushBack v p =>
    exact ⟨vars_pushBack s v p _ ▸ hpush v h, filterCovers_pushBack hc p (hne v)⟩
  | uncheckedPushBack v p =>
    exact ⟨vars_uncheckedPushBack s v p _ ▸ hpush v h, filterCovers_uncheckedPushBack hc p (hne v)⟩
  | clear => exact ⟨List.nodup_nil, filterCovers_clear s⟩
  | overwrite i p => exact ⟨(vars_setPending s i p).symm ▸ hn, filterCovers_setPending hc i p⟩

theorem run_covers {hash : ν → Hash} {s : PodHashSet ν σ}
    (hne : ∀ v, hash v &&& hash v ≠ 0#64) (ops : List (Op ν σ))
    (hn : s.vars.Nodup) (hc : s.FilterCovers hash) (h : AllowedRun hash s ops) :
    (ops.foldl (apply hash) s).vars.Nodup ∧ (ops.foldl (apply hash) s).FilterCovers hash := by
  induction ops generalizing s with
  | nil => exact ⟨hn, hc⟩
  | cons op ops ih =>
    obtain ⟨hn', hc'⟩ := apply_covers hne hn hc h.1
    exact ih hn' hc' h.2

/-- The write set answers like a plain search for the one entry of a var. -/
structure Answers [DecidableEq ν] (hash : ν → Hash) (s : PodHashSet ν σ) : Prop where
  nodup : s.vars.Nodup
  find_some : ∀ v i, s.find hash v = some i ↔ ∃ e, s.entries[i]? = some e ∧ e.destVar = v
  find_none : ∀ v, s.find hash v = none ↔ ∀ e ∈ s.entries, e.destVar ≠ v
  lookup_found : ∀ v i, s.lookup hash v = .pendingWrite i ↔ s.find hash v = some i
  lookup_missed : ∀ v, (∃ h, s.lookup hash v = .hash h) ↔ s.find hash v = none
  filter : ∀ v, s.filter &&& hash v = 0#64 → s.find hash v = none

section Run

variable [DecidableEq ν] {hash : ν → Hash} {s : PodHashSet ν σ}

theorem lookup_eq (s : PodHashSet ν σ) (v : ν) :
    s.lookup hash v = match s.find hash v with
      | some i => .pendingWrite i
      | none => .hash (hash v) := by
  unfold lookup find
  split <;> rfl

/-- A var has one entry only, so the first one is the one. -/
theorem findImpl_of_nodup (hn : s.vars.Nodup) {v : ν} {i : Nat} {e : WriteSetValueType ν σ}
    (he : s.entries[i]? = some e) (hv : e.destVar = v) : s.findImpl v = some i := by
  cases hf : s.findImpl v with
  | none =>
    have hmem : e.destVar ∈ s.vars := List.mem_map_of_mem (List.mem_of_getElem? he)
    exact absurd (hv ▸ hmem) (findImpl_eq_none.mp hf)
  | some j =>
    obtain ⟨e', he', hv'⟩ := findImpl_eq_some hf
    have hj : s.vars[j]? = some v := by rw [vars, List.getElem?_map, he', Option.map_some, hv']
    have hi : s.vars[i]? = some v := by rw [vars, List.getElem?_map, he, Option.map_some, hv]
    obtain ⟨hlt, -⟩ := List.getElem?_eq_some_iff.mp hj
    rw [(List.getElem?_inj hlt hn).mp (hj.trans hi.symm)]

/-- **A covering filter never hides an entry**: it is the plain search that answers. -/
theorem answers_of_covers (hn : s.vars.Nodup) (hc : s.FilterCovers hash) : s.Answers hash where
  nodup := hn
  find_some v i := by
    refine ⟨find_eq_some, fun ⟨e, he, hv⟩ => ?_⟩
    have hmem : v ∈ s.vars := hv ▸ List.mem_map_of_mem (List.mem_of_getElem? he)
    rw [find, if_neg (hc v hmem)]
    exact findImpl_of_nodup hn he hv
  find_none v := by
    rw [find_eq_none hc, vars]
    simp only [List.mem_map, not_exists, not_and, ne_eq]
  lookup_found v i := by
    rw [lookup_eq]
    cases s.find hash v <;> simp
  lookup_missed v := by
    rw [lookup_eq]
    cases s.find hash v <;> simp
  filter v h := by rw [find, if_pos h]

end Run

/-- The hash of the `var_base` at an address. -/
def addressHash (addr : Nat) : Hash := dumbReferenceHash varBaseAlign addr

/-- **The filtered write set answers like a plain search**, after every sequence of operations on
    vars at any addresses. A `lookup` that fails carries a hash other than zero; pushing the var
    with that hash keeps it so. -/
theorem run_answers (ops : List (Op Nat σ)) (h : AllowedRun addressHash empty ops) :
    let s := ops.foldl (apply addressHash) empty
    s.Answers addressHash ∧
      ∀ v h, s.lookup addressHash v = .hash h → h ≠ 0#64 ∧
        ∀ p, (s.pushBack v p h).Answers addressHash ∧
          (s.uncheckedPushBack v p h).Answers addressHash := by
  intro s
  have hne : ∀ v, addressHash v &&& addressHash v ≠ 0#64 := fun v => dumbReferenceHash_self _ v
  obtain ⟨hn, hc⟩ : s.vars.Nodup ∧ s.FilterCovers addressHash :=
    run_covers hne ops List.nodup_nil filterCovers_empty h
  refine ⟨answers_of_covers hn hc, fun v h hl => ?_⟩
  obtain rfl := lookup_hash hl
  have hv := not_mem_of_lookup_hash hc hl
  refine ⟨fun h0 => hne v (by rw [h0]; rfl), fun p => ⟨?_, ?_⟩⟩
  · have hp : s.Allowed (.pushBack v p) := hv
    obtain ⟨hn', hc'⟩ := apply_covers hne hn hc hp
    exact answers_of_covers hn' hc'
  · have hp : s.Allowed (.uncheckedPushBack v p) := hv
    obtain ⟨hn', hc'⟩ := apply_covers hne hn hc hp
    exact answers_of_covers hn' hc'

/-- Two vars whose addresses share a hash bit, the first one overwritten. -/
theorem run_answers_collision :
    let s := [Op.pushBack 16 10, .uncheckedPushBack 1040 20, .overwrite 0 30].foldl
      (apply addressHash) (empty : PodHashSet Nat Nat)
    s.Answers addressHash ∧
      ∀ v h, s.lookup addressHash v = .hash h → h ≠ 0#64 ∧
        ∀ p, (s.pushBack v p h).Answers addressHash ∧
          (s.uncheckedPushBack v p h).Answers addressHash :=
  run_answers _ ⟨List.not_mem_nil, by simp [Allowed, apply, vars_pushBack], trivial, trivial⟩

/-! ## What is in it -/

/-- What sets of atomic vars and the ends of attempts do to a write set; `valid` says whether the var passed
    the check of its version before the push. -/
inductive Write (ν σ : Type) where
  | set (v : ν) (p : σ) (valid : Bool)
  | clear

section Writes

variable [DecidableEq ν]

/-- `rw_atomic_write_base` and `rw_atomic_write_slow_path`, as far as they use the write set. -/
def atomicWrite (hash : ν → Hash) (s : PodHashSet ν σ) (v : ν) (p : σ) (valid : Bool) : PodHashSet ν σ :=
  if s.allocatesOnNextPush || s.filter &&& hash v != 0#64 || !valid then
    match s.lookup hash v with
    | .hash h => s.pushBack v p h
    | .pendingWrite i => s.setPending i p
  else s.uncheckedPushBack v p (hash v)

def write (hash : ν → Hash) (s : PodHashSet ν σ) : Write ν σ → PodHashSet ν σ
  | .set v p valid => s.atomicWrite hash v p valid
  | .clear => s.clear

/-- The pending write that `find` leads to. -/
def found (hash : ν → Hash) (s : PodHashSet ν σ) (v : ν) : Option σ :=
  (s.find hash v).bind fun i => (s.entries[i]?).map (·.pendingWrite)

/-- A write as it is meant: each var has what it was last set to. -/
def Write.onMap (m : ν → Option σ) : Write ν σ → ν → Option σ
  | .set v p _ => Function.update m v (some p)
  | .clear => fun _ => none

/-- The write set holds what the map says, each var once. -/
structure Holds (hash : ν → Hash) (s : PodHashSet ν σ) (m : ν → Option σ) : Prop where
  nodup : s.vars.Nodup
  covers : s.FilterCovers hash
  entries : ∀ v p, ⟨v, p⟩ ∈ s.entries ↔ m v = some p

variable {hash : ν → Hash} {s : PodHashSet ν σ} {m : ν → Option σ} {v : ν} {p : σ}

/-- What `find` leads to is what the map says. -/
theorem Holds.found (h : s.Holds hash m) (v : ν) : s.found hash v = m v := by
  have hans := answers_of_covers h.nodup h.covers
  cases hf : s.find hash v with
  | none =>
    have hnone : m v = none := by
      cases hm : m v with
      | none => rfl
      | some p => exact absurd rfl ((hans.find_none v).mp hf _ ((h.entries v p).mpr hm))
    rw [PodHashSet.found, hf, hnone]
    rfl
  | some i =>
    obtain ⟨e, he, rfl⟩ := (hans.find_some v i).mp hf
    rw [PodHashSet.found, hf, (h.entries _ _).mp (List.mem_of_getElem? he), Option.bind_some, he]
    rfl

/-- A push of a var that is not there. -/
theorem Holds.push {s' : PodHashSet ν σ} (h : s.Holds hash m) (hv : v ∉ s.vars)
    (hne : hash v &&& hash v ≠ 0#64) (hf : s'.filter = s.filter ||| hash v)
    (he : s'.entries = s.entries ++ [⟨v, p⟩]) : s'.Holds hash (Function.update m v (some p)) where
  nodup := by
    rw [PodHashSet.vars, he, List.map_append]
    refine List.nodup_append.mpr ⟨h.nodup, List.pairwise_singleton _ v, fun w hw u hu e => ?_⟩
    obtain rfl : u = v := List.mem_singleton.mp hu
    exact hv (e ▸ hw)
  covers w hw := by
    rw [PodHashSet.vars, he, List.map_append] at hw
    rw [hf]
    rcases List.mem_append.mp hw with hw | hw
    · exact or_and_ne_zero_left (h.covers w hw)
    · obtain rfl := List.mem_singleton.mp hw
      exact or_and_ne_zero_right hne
  entries w q := by
    have hmem : (⟨w, q⟩ : WriteSetValueType ν σ) ∈ s.entries ↔ m w = some q := h.entries w q
    rw [he, List.mem_append, List.mem_singleton, WriteSetValueType.mk.injEq]
    by_cases hw : w = v
    · subst hw
      rw [Function.update_self, Option.some.injEq, eq_comm (a := p)]
      have hno : (⟨w, q⟩ : WriteSetValueType ν σ) ∉ s.entries := fun hm => hv (List.mem_map_of_mem hm)
      simp [hno]
    · rw [Function.update_of_ne hw, ← hmem]
      simp [hw]

/-- What is there once a pending write is overwritten. -/
theorem mem_setPending {i : Nat} {e x : WriteSetValueType ν σ} (hn : s.vars.Nodup)
    (hi : s.entries[i]? = some e) :
    x ∈ (s.setPending i p).entries ↔ x = ⟨e.destVar, p⟩ ∨ x ∈ s.entries ∧ x.destVar ≠ e.destVar := by
  have hget : ∀ j, (s.setPending i p).entries[j]? = if i = j then some ⟨e.destVar, p⟩ else s.entries[j]? := by
    intro j
    rw [entries_setPending, List.getElem?_modify]
    by_cases hij : i = j
    · subst hij
      simp [hi]
    · simp [hij]
  rw [List.mem_iff_getElem?]
  constructor
  · rintro ⟨j, hj⟩
    rw [hget] at hj
    split at hj
    case isTrue => exact .inl (Option.some.inj hj).symm
    case isFalse hij =>
      refine .inr ⟨List.mem_of_getElem? hj, fun he => hij (Option.some.inj ?_)⟩
      exact (findImpl_of_nodup hn hi rfl).symm.trans (findImpl_of_nodup hn hj he)
  · rintro (rfl | ⟨hx, hne⟩)
    · exact ⟨i, by rw [hget, if_pos rfl]⟩
    · obtain ⟨j, hj⟩ := List.mem_iff_getElem?.mp hx
      refine ⟨j, ?_⟩
      rw [hget, if_neg, hj]
      rintro rfl
      exact hne (congrArg (·.destVar) (Option.some.inj (hj.symm.trans hi)))

/-- A pending write that is overwritten. -/
theorem Holds.setPending {i : Nat} {e : WriteSetValueType ν σ} (h : s.Holds hash m)
    (hi : s.entries[i]? = some e) : (s.setPending i p).Holds hash (Function.update m e.destVar (some p)) where
  nodup := (vars_setPending s i p).symm ▸ h.nodup
  covers := filterCovers_setPending h.covers i p
  entries w q := by
    rw [mem_setPending h.nodup hi, h.entries, WriteSetValueType.mk.injEq]
    by_cases hw : w = e.destVar
    · subst hw
      simp [eq_comm]
    · simp [hw]

/-- One write. -/
theorem Holds.write (h : s.Holds hash m) (hne : ∀ v, hash v &&& hash v ≠ 0#64) (op : Write ν σ) :
    (s.write hash op).Holds hash (op.onMap m) := by
  cases op with
  | clear =>
    exact ⟨List.nodup_nil, filterCovers_clear s, fun v p =>
      ⟨fun hm => absurd hm List.not_mem_nil, fun hm => by cases hm⟩⟩
  | set v p valid =>
    show (s.atomicWrite hash v p valid).Holds hash _
    unfold atomicWrite
    split
    · split
      case h_1 k hl =>
        obtain rfl := lookup_hash hl
        exact h.push (not_mem_of_lookup_hash h.covers hl) (hne v) rfl (entries_pushBack s v p _)
      case h_2 i hl =>
        obtain ⟨e, he, rfl⟩ := lookup_pendingWrite hl
        exact h.setPending he
    case isFalse hfast =>
      simp only [Bool.or_eq_true, bne_iff_ne, ne_eq, not_or, not_not] at hfast
      exact h.push (not_mem_of_filter h.covers hfast.1.2) (hne v) rfl (entries_uncheckedPushBack s v p _)

theorem Holds.writes (hne : ∀ v, hash v &&& hash v ≠ 0#64) (ops : List (Write ν σ)) (h : s.Holds hash m) :
    (ops.foldl (PodHashSet.write hash) s).Holds hash (ops.foldl Write.onMap m) := by
  induction ops generalizing s m with
  | nil => exact h
  | cons op ops ih => exact ih (h.write hne op)

end Writes

/-- **The write set holds what was set last**, after every sequence of sets of atomic vars at any addresses,
    checked and unchecked pushes and overwrites as they come, and of clears: `find` leads for each var to
    what it was last set to since the last clear, and that is all there is, each var once. -/
theorem run_writes (ops : List (Write Nat σ)) :
    let s := ops.foldl (write addressHash) empty
    (∀ v, s.found addressHash v = ops.foldl Write.onMap (fun _ => none) v) ∧ s.vars.Nodup ∧
      ∀ v p, ⟨v, p⟩ ∈ s.entries ↔ ops.foldl Write.onMap (fun _ => none) v = some p := by
  intro s
  have h : s.Holds addressHash (ops.foldl Write.onMap fun _ => none) :=
    Holds.writes (fun v => dumbReferenceHash_self _ v) ops
      ⟨List.nodup_nil, filterCovers_empty, fun v p =>
        ⟨fun hm => absurd hm List.not_mem_nil, fun hm => by cases hm⟩⟩
  exact ⟨h.found, h.nodup, h.entries⟩

end PodHashSet

end LockfreeStm
