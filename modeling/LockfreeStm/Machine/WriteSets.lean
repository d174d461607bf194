/-
  File:      LockfreeStm/Machine/WriteSets.lean
  Subject:   THE WRITE SETS: no object twice, and with empty allocators no var twice and a filter that
             holds the hash of every entry.

  * `TypedSet`, `typed_reach` -- an entry of a heap var holds an object, one of an atomic var the bytes
    themselves; no object is in two entries. So for every layout of the vars.
  * `TidySet`, `tidy_reach` -- where the hash `rw_write` computes from a heap var is the hash of its
    var_base (with empty allocators it is) the filter covers the entries, `find` and `lookup` answer
    like a plain search, and a var is pushed only when it is not there.
-/
import LockfreeStm.Machine.Heap

namespace LockfreeStm

variable {ι ν α : Type}

/-! ## 1. Typed entries -/

/-- A storage of the var's kind. -/
def Config.Fits (cfg : Config ι ν α) (v : ν) (st : VarStorage α) : Prop :=
  (cfg.varType v = .heap ∧ ∃ p, st = .ptr p) ∨ cfg.varType v = .atomic ∧ ∃ x, st = .raw x

/-- What the entries of a write set satisfy. -/
structure TypedSet (cfg : Config ι ν α) (ws : PodHashSet ν (VarStorage α)) : Prop where
  typed : ∀ e ∈ ws.entries, cfg.Fits e.destVar e.pendingWrite
  distinct : ws.entries.Pairwise fun e e' => ∀ p, e.pendingWrite = .ptr p → e'.pendingWrite ≠ .ptr p

namespace TypedSet

variable {cfg : Config ι ν α} {ws : PodHashSet ν (VarStorage α)}

theorem of_nil (h : ws.entries = []) : TypedSet cfg ws := by
  refine ⟨fun e he => ?_, ?_⟩
  · rw [h] at he
    cases he
  · rw [h]
    exact List.Pairwise.nil

/-- A push of a storage that is not there. -/
theorem push (h : TypedSet cfg ws) (ws' : PodHashSet ν (VarStorage α)) {v : ν} {st : VarStorage α}
    (he : ws'.entries = ws.entries ++ [⟨v, st⟩]) (ht : cfg.Fits v st)
    (hp : ∀ p, st = .ptr p → ∀ e ∈ ws.entries, e.pendingWrite ≠ .ptr p) : TypedSet cfg ws' := by
  refine ⟨fun e hm => ?_, ?_⟩
  · rw [he, List.mem_append, List.mem_singleton] at hm
    rcases hm with hm | rfl
    · exact h.typed e hm
    · exact ht
  · rw [he, List.pairwise_append]
    refine ⟨h.distinct, List.pairwise_singleton _ _, fun e hm e' hm' p hep => ?_⟩
    rw [List.mem_singleton] at hm'
    subst hm'
    exact fun hst => hp p hst e hm hep

/-- Overwriting the pending storage of an atomic var. -/
theorem setPending (h : TypedSet cfg ws) {i : Nat} {v : ν} {x : α}
    (hv : ∃ e, ws.entries[i]? = some e ∧ e.destVar = v) (ht : cfg.varType v = .atomic) :
    TypedSet cfg (ws.setPending i (.raw x)) := by
  refine ⟨fun e hm => ?_, ?_⟩
  · rw [PodHashSet.entries_setPending] at hm
    obtain ⟨j, hj⟩ := List.mem_iff_getElem?.mp hm
    rw [List.getElem?_modify] at hj
    split at hj
    · rename_i hij
      subst hij
      obtain ⟨e', he', rfl⟩ := hv
      rw [he'] at hj
      cases hj
      exact Or.inr ⟨ht, x, rfl⟩
    · rw [Option.map_eq_map, Option.map_id_fun', id] at hj
      exact h.typed e (List.mem_of_getElem? hj)
  · rw [PodHashSet.entries_setPending, List.pairwise_iff_getElem]
    intro j k hj hk hjk p
    rw [List.getElem_modify, List.getElem_modify]
    rw [List.length_modify] at hj hk
    have hd := (List.pairwise_iff_getElem.mp h.distinct) j k hj hk hjk p
    split
    · exact nofun
    · split
      · exact fun _ => nofun
      · exact hd

end TypedSet

section Typed

variable [DecidableEq ι] [DecidableEq ν]

omit [DecidableEq ι] [DecidableEq ν] in
/-- The write set is cleared where an attempt ends. -/
theorem writeSet_success (cfg : Config ι ν α) (th : Thread ι ν α) (sync : Epoch) :
    (((th.setTxState .none).clearReadWriteSets.clearFailCallbacks).reclaim cfg sync).td.writeSet =
      th.td.writeSet.clear := by
  simp only [Thread.reclaim]
  split
  · split <;> rfl
  · rfl

omit [DecidableEq ι] [DecidableEq ν] in
/-- A fresh object is in no write set. -/
theorem fresh_not_pending {sh : Shared ι ν α} {th : Thread ι ν α} (hown : ∀ p, th.Owns p → p < sh.nextPtr)
    (hpr : th.pc.isPrivate = true) {p : Ptr} (hp : (VarStorage.ptr sh.nextPtr : VarStorage α) = .ptr p)
    {e : WriteSetValueType ν (VarStorage α)} (he : e ∈ th.td.writeSet.entries) :
    e.pendingWrite ≠ .ptr p := by
  intro hep
  cases hp
  refine Nat.lt_irrefl _ (hown _ ?_)
  rw [Thread.Owns, Thread.pending_of_private hpr, ← hep]
  exact List.mem_map_of_mem he

omit [DecidableEq ι] in
/-- The slow path of a set of an atomic var: the storage and the kind of the var. -/
theorem atomic_fits {cfg : Config ι ν α} {th : Thread ι ν α} {v : ν} {s : VarStorage α}
    (hop : OpAt cfg th th.pc)
    (hpc : th.pc = .call ∧ th.kind = .readWrite ∧ (∃ x, s = .raw x ∧ th.body th.log = .set v x) ∧
      cfg.varType v = .atomic ∨ th.pc = .atomicWriteVersion v s) :
    (∃ x, s = .raw x) ∧ cfg.varType v = .atomic := by
  rcases hpc with ⟨_, _, ⟨x, rfl, _⟩, ht⟩ | hpc
  · exact ⟨⟨x, rfl⟩, ht⟩
  · rw [hpc] at hop
    obtain ⟨_, ⟨x, rfl, _⟩, ht, _⟩ := hop
    exact ⟨⟨x, rfl⟩, ht⟩

/-- **A step of a thread keeps its write set typed.** -/
theorem TypedSet.step {cfg : Config ι ν α} {sh sh' : Shared ι ν α} {t : ι} {th th' : Thread ι ν α}
    {opened : ι → Option Nat} {req : Option (Request ν α)}
    (h : TypedSet cfg th.td.writeSet) (hop : OpAt cfg th th.pc) (hown : ∀ p, th.Owns p → p < sh.nextPtr)
    (hm : Move cfg sh t th opened req sh' th') : TypedSet cfg th'.td.writeSet := by
  cases hm with
  | readReturns path v result =>
      rw [Thread.opReturns]
      simpa using h
  | allocFast v x hpc =>
      rw [hpc] at hop
      exact h.push (th.td.writeSet.uncheckedPushBack v _ _) (PodHashSet.entries_uncheckedPushBack ..)
        (Or.inl ⟨hop.2.2.1, _, rfl⟩) fun p hp e he => fresh_not_pending hown (by rw [hpc]; rfl) hp he
  | allocSlow v x cur hpc =>
      rw [hpc] at hop
      exact h.push (th.td.writeSet.pushBack v _ _) (PodHashSet.entries_pushBack ..)
        (Or.inl ⟨hop.2.2.1, _, rfl⟩) fun p hp e he => fresh_not_pending hown (by rw [hpc]; rfl) hp he
  | atomicFast v s hpc =>
      rw [hpc] at hop
      obtain ⟨_, ⟨x, rfl, _⟩, ht, _⟩ := hop
      exact h.push (th.td.writeSet.uncheckedPushBack v _ _) (PodHashSet.entries_uncheckedPushBack ..)
        (Or.inr ⟨ht, x, rfl⟩) (fun p hp => by cases hp)
  | atomicPush v s hpc =>
      obtain ⟨⟨x, rfl⟩, ht⟩ := atomic_fits hop hpc
      exact h.push (th.td.writeSet.pushBack v _ _) (PodHashSet.entries_pushBack ..)
        (Or.inr ⟨ht, x, rfl⟩) (fun p hp => by cases hp)
  | atomicOverwrite v s i hpc hl =>
      obtain ⟨⟨x, rfl⟩, ht⟩ := atomic_fits hop hpc
      exact h.setPending (PodHashSet.lookup_pendingWrite hl) ht
  | success sync =>
      rw [writeSet_success]
      exact .of_nil rfl
  | failureReadOnly exn => cases exn <;> exact h
  | failDone exn => cases exn <;> exact h
  | failure exn => exact .of_nil rfl
  | _ => exact h

/-- **In every state reached the write sets are typed.** -/
theorem typed_reach {cfg : Config ι ν α} {ok : Request ν α → Prop} {s : Sys ι ν α}
    (h : Sys.Reach cfg ok s) (t : ι) : TypedSet cfg (s.threads t).td.writeSet := by
  revert t
  refine h.induct (P := fun s => ∀ t, TypedSet cfg (s.threads t).td.writeSet) (fun t => .of_nil rfl) ?_
  intro s t req sh' th' hr ih _ hm
  exact Sys.forall_after (P := fun _ th => TypedSet cfg th.td.writeSet)
    ((ih t).step ((active_reach hr).opAt t) (fun p hp => ((heap_reach hr).owned t p hp).2) hm)
    fun u _ => ih u

end Typed

/-! ## 2. One hash for a var -/

/-- What the write set of a thread satisfies. -/
structure TidySet (cfg : Config ι ν α) (ws : PodHashSet ν (VarStorage α)) : Prop where
  covers : ws.FilterCovers cfg.baseHash
  nodup : ws.vars.Nodup

/-- What the write set of a thread satisfies. -/
abbrev Tidy (cfg : Config ι ν α) (th : Thread ι ν α) : Prop := TidySet cfg th.td.writeSet

/-- The heap overload of `rw_write` hashes a var like every other caller does. -/
def Config.HashesAgree (cfg : Config ι ν α) : Prop :=
  ∀ v, cfg.varType v = .heap → cfg.varHash v = cfg.baseHash v

theorem Config.EmptyAllocators.varHash_eq {cfg : Config ι ν α} (h : cfg.EmptyAllocators) (v : ν) :
    cfg.varHash v = cfg.baseHash v :=
  VarLayout.varHash_eq_baseHash (h v).1 (h v).2

theorem Config.EmptyAllocators.hashesAgree {cfg : Config ι ν α} (h : cfg.EmptyAllocators) :
    cfg.HashesAgree := fun v _ => h.varHash_eq v

namespace TidySet

variable {cfg : Config ι ν α} {ws : PodHashSet ν (VarStorage α)}

theorem empty : TidySet cfg (.empty : PodHashSet ν (VarStorage α)) :=
  ⟨PodHashSet.filterCovers_empty, List.nodup_nil⟩

theorem clear : TidySet cfg ws.clear := ⟨PodHashSet.filterCovers_clear ws, List.nodup_nil⟩

/-- A push of a var that is not there. -/
theorem push (h : TidySet cfg ws) (ws' : PodHashSet ν (VarStorage α)) {v : ν} {st : VarStorage α}
    (hc : ws'.FilterCovers cfg.baseHash) (he : ws'.entries = ws.entries ++ [⟨v, st⟩]) (hv : v ∉ ws.vars) :
    TidySet cfg ws' := by
  refine ⟨hc, ?_⟩
  rw [PodHashSet.vars, he, List.map_append, List.nodup_append]
  refine ⟨h.nodup, by simp, ?_⟩
  rintro w hw w' hw' rfl
  simp only [List.map_cons, List.map_nil, List.mem_singleton] at hw'
  exact hv (hw' ▸ hw)

theorem setPending (h : TidySet cfg ws) (i : Nat) (st : VarStorage α) :
    TidySet cfg (ws.setPending i st) :=
  ⟨PodHashSet.filterCovers_setPending h.covers i _, (PodHashSet.vars_setPending ..).symm ▸ h.nodup⟩

end TidySet

variable [DecidableEq ι] [DecidableEq ν]

/-- **A step of a thread keeps its write set tidy.** -/
theorem Tidy.step {cfg : Config ι ν α} {sh sh' : Shared ι ν α} {t : ι} {th th' : Thread ι ν α}
    {opened : ι → Option Nat} {req : Option (Request ν α)} (hag : cfg.HashesAgree)
    (h : Tidy cfg th) (hop : OpAt cfg th th.pc)
    (hm : Move cfg sh t th opened req sh' th') : Tidy cfg th' := by
  have hself : ∀ v, cfg.baseHash v &&& cfg.baseHash v ≠ 0#64 := fun v => dumbReferenceHash_self _ _
  cases hm with
  | readReturns path v result =>
      rw [Tidy, Thread.opReturns]
      simpa using h
  | allocFast v x hpc =>
      rw [hpc] at hop
      obtain ⟨_, _, hv, hf⟩ := hop
      rw [hag v hv] at hf
      refine h.push (th.td.writeSet.uncheckedPushBack v _ _) ?_
        (PodHashSet.entries_uncheckedPushBack ..) (PodHashSet.not_mem_of_filter h.covers hf)
      rw [hag v hv]
      exact PodHashSet.filterCovers_uncheckedPushBack h.covers _ (hself v)
  | allocSlow v x cur hpc =>
      rw [hpc] at hop
      obtain ⟨_, _, _, hl⟩ := hop
      exact h.push (th.td.writeSet.pushBack v _ _)
        (PodHashSet.filterCovers_pushBack h.covers _ (hself v)) (PodHashSet.entries_pushBack ..)
        (PodHashSet.not_mem_of_lookup_hash h.covers hl)
  | atomicFast v s hpc =>
      rw [hpc] at hop
      obtain ⟨_, _, _, hf⟩ := hop
      exact h.push (th.td.writeSet.uncheckedPushBack v _ _)
        (PodHashSet.filterCovers_uncheckedPushBack h.covers _ (hself v))
        (PodHashSet.entries_uncheckedPushBack ..) (PodHashSet.not_mem_of_filter h.covers hf)
  | atomicPush v s hpc hl =>
      exact h.push (th.td.writeSet.pushBack v _ _)
        (PodHashSet.filterCovers_pushBack h.covers _ (hself v)) (PodHashSet.entries_pushBack ..)
        (PodHashSet.not_mem_of_lookup_hash h.covers hl)
  | atomicOverwrite v s i hpc hl => exact h.setPending i s
  | success sync =>
      rw [Tidy, writeSet_success]
      exact .clear
  | failureReadOnly exn => cases exn <;> exact h
  | failDone exn => cases exn <;> exact h
  | failure exn => exact .clear
  | _ => exact h

/-- **In every state reached the write sets are tidy.** -/
theorem tidy_reach {cfg : Config ι ν α} {ok : Request ν α → Prop} {s : Sys ι ν α}
    (hag : cfg.HashesAgree) (h : Sys.Reach cfg ok s) (t : ι) : Tidy cfg (s.threads t) := by
  revert t
  refine h.induct (P := fun s => ∀ t, Tidy cfg (s.threads t)) (fun t => TidySet.empty) ?_
  intro s t req sh' th' hr ih _ hm
  exact Sys.forall_after (P := fun _ th => Tidy cfg th) ((ih t).step hag ((active_reach hr).opAt t) hm)
    fun u _ => ih u

end LockfreeStm
