/-
  File:      LockfreeStm/StmListRuns.lean
  Subject:   `lstm::list` over whole runs: who destroys a node.

  An attempt runs on the memory it saw when it began; it commits where what it got is still there, and it
  can be given up behind any of its operations. `emplace_front` makes its node before its transaction:
  outside of a transaction the node survives the failed attempts, inside of one `allocate_construct` has
  registered a fail callback. What becomes of the callbacks is what atomic_base.hpp does with the thread's
  lists of them (`World.pass`): a failure clears the success callbacks and runs the fail callbacks, a success
  clears these and hands over those. The callback of `clear` walks its chain later.

  * `newNodes`, `freed`, `Balanced` -- what the events of memory.hpp say of nodes;
  * `Owned` -- every node is in the list, in a chain that was handed over, with a call that has not
    committed, or deallocated;
  * `pass_failed_inv`, `pass_committed_inv`, `apply_inv`, `run_inv` -- an attempt, an event, and a run;
  * **`list_spec`** -- the list holds what was emplaced since the last clear, and every node is destroyed and
    deallocated once.
-/
import LockfreeStm.StmList
import LockfreeStm.Library.Ledger
import Mathlib.Data.List.InsertIdx
import Mathlib.Data.List.Perm.Basic

namespace LockfreeStm

namespace StmList

open AtomicBase

variable {ι α : Type}

/-! ## 1. Runs -/

/-- The system: the memory of the list, the blocks and what was done with them, each thread's
    `thread_data`, what its top-level `emplace_front` has made and with which value, and the success
    callbacks that were handed over. `contents` is history: what was emplaced since the last clear, newest
    first. -/
structure Sys (ι α : Type) where
  mem : Memory α
  heap : Memory.Heap
  td : ι → TlsData Var Unit Memory.Callback
  pending : ι → Option (Node × α)
  queued : List Memory.Callback
  gone : Bool
  contents : List α

/-- What a failed attempt leaves in memory: its plain stores. -/
def leave (a : Attempt α) (m : Memory α) : Memory α := fun v =>
  if v ∈ a.privates then a.view v else m v

/-- An event; `view` is the memory an attempt ran on, `version` the epoch it announced, and `n` the
    operations it had performed when it failed. -/
inductive Event (ι α : Type) where
  /-- a top-level `emplace_front` makes its node, or the value's constructor throws -/
  | construct (t : ι) (x : α) (throws : Bool)
  | failEmplace (t : ι) (version : Epoch) (view : Memory α) (n : Nat) (e : World.PassEnd)
  | commitEmplace (t : ι) (version : Epoch) (view : Memory α)
  /-- another transaction with calls on the list in it: a top-level clear, or a larger one -/
  | failAtomic (t : ι) (version : Epoch) (calls : List (Call α)) (view : Memory α) (n : Nat) (e : World.PassEnd)
  | commitAtomic (t : ι) (version : Epoch) (calls : List (Call α)) (view : Memory α)
  /-- one of the success callbacks runs -/
  | runCallback (i : Nat)
  /-- `~list` -/
  | destroyList

/-- The nodes a chain's destruction destroys and deallocates. -/
def sublistEvents (ns : List Node) : List Memory.Event :=
  ns.flatMap fun n => [.destroyed ⟨n, 0⟩, .deallocated n 1]

namespace Sys

/-- A new list. -/
def init (m : Memory α) : Sys ι α where
  mem := Function.update (Function.update m .head none) .size (0 : Nat)
  heap := ⟨0, [], 0, []⟩
  td := fun _ => .init
  pending := fun _ => none
  queued := []
  gone := false
  contents := []

/-- What is done with blocks outside of attempts. -/
def emit (s : Sys ι α) (events : List Memory.Event) : Sys ι α :=
  { s with heap := { s.heap with log := s.heap.log ++ events } }

/-- The nodes a chain's destruction visits: at most as many as there are blocks. -/
def walk (s : Sys ι α) (h : Option Node) : List Node :=
  (destroySublist s.mem s.heap.next h).getD []

/-- A success callback, when it is run. -/
def perform (s : Sys ι α) (c : Memory.Callback) : Sys ι α :=
  match c.action with
  | .container root => s.emit (sublistEvents (s.walk (some root)))
  | act => s.emit act.events

variable [DecidableEq ι]

/-- One pass through the loop of `slow_path`: the body asks the thread's `thread_data` for what it asks,
    and the pass ends with `e`. -/
def pass (s : Sys ι α) (t : ι) (version : Epoch) (p : Program α Unit) (view : Memory α)
    (e : World.PassEnd) : Sys ι α :=
  let a := p.outcome view
  let calls := a.retired.reverse
  let w : Memory.State Var Unit := ⟨s.td t, s.heap⟩
  let w' := w.pass Memory.perform .readWrite version (Memory.runBody calls) e
  { s with
    mem := if e = .committed then a.commit s.mem else leave a s.mem
    heap := w'.env
    td := Function.update s.td t w'.td
    queued := s.queued ++ if e = .committed then Memory.takenOver version calls w else [] }

/-- The `allocate_construct` of a top-level `emplace_front`. -/
def construct (trivial : Bool) (s : Sys ι α) (t : ι) (x : α) (throws : Bool) : Sys ι α :=
  let w := Memory.allocateConstruct .threadData trivial throws (⟨s.td t, s.heap⟩ : Memory.State Var Unit)
  let s' := { s with heap := w.env, td := Function.update s.td t w.td }
  if throws then s'
  else
    { s' with
      mem := ((constructNode s.heap.next x).outcome s.mem).commit s.mem
      pending := Function.update s.pending t (some (s.heap.next, x)) }

/-- An event, carried out. -/
def apply (trivial : Bool) (s : Sys ι α) : Event ι α → Sys ι α
  | .construct t x throws => s.construct trivial t x throws
  | .failEmplace t version view n e =>
    match s.pending t with
    | some (k, _) => s.pass t version ((emplaceFront k).first n) view e
    | none => s
  | .commitEmplace t version view =>
    match s.pending t with
    | some (k, x) =>
      { s.pass t version (emplaceFront k) view .committed with
        pending := Function.update s.pending t none
        contents := x :: s.contents }
    | none => s
  | .failAtomic t version calls view n e =>
    s.pass t version ((body trivial s.heap.next calls).first n) view e
  | .commitAtomic t version calls view =>
    { s.pass t version (body trivial s.heap.next calls) view .committed with
      contents := after calls s.contents }
  | .runCallback i =>
    match s.queued[i]? with
    | some c => { s.perform c with queued := s.queued.eraseIdx i }
    | none => s
  | .destroyList => { s.emit (sublistEvents (s.walk (s.mem .head))) with gone := true }

/-- What an attempt got from its view is what the memory holds. -/
def Valid (s : Sys ι α) (p : Program α Unit) (view : Memory α) : Prop :=
  ∀ v ∈ (p.outcome view).reads, s.mem v = view v

/-- When an event can happen. No exception escapes from the transaction of `emplace_front` itself. -/
def Allowed (trivial : Bool) (s : Sys ι α) : Event ι α → Prop
  | .construct t _ _ => s.gone = false ∧ s.pending t = none
  | .failEmplace t version _ _ e =>
    s.gone = false ∧ s.pending t ≠ none ∧ version ≠ offState ∧ (e = .commitFailed ∨ e = .txRetry)
  | .commitEmplace t version view =>
    s.gone = false ∧ version ≠ offState ∧ ∃ n x, s.pending t = some (n, x) ∧ s.Valid (emplaceFront n) view
  | .failAtomic _ version _ _ _ e => s.gone = false ∧ version ≠ offState ∧ e ≠ .committed
  | .commitAtomic _ version calls view =>
    s.gone = false ∧ version ≠ offState ∧ s.Valid (body trivial s.heap.next calls) view
  | .runCallback i => i < s.queued.length
  | .destroyList => s.gone = false ∧ ∀ t, s.pending t = none

/-- The events of a run, one after the other. -/
def run (trivial : Bool) (s : Sys ι α) (events : List (Event ι α)) : Sys ι α := events.foldl (apply trivial) s

/-- Each event of the run can happen when it does. -/
def AllowedRun (trivial : Bool) (s : Sys ι α) : List (Event ι α) → Prop
  | [] => True
  | e :: es => s.Allowed trivial e ∧ (s.apply trivial e).AllowedRun trivial es

end Sys

/-! ## 2. What the events say of nodes -/

/-- The node was constructed. -/
def Built (trivial : Bool) (log : List Memory.Event) (n : Node) : Prop :=
  Memory.Event.constructed ⟨n, 0⟩ trivial ∈ log

instance (trivial : Bool) (log : List Memory.Event) (n : Node) : Decidable (Built trivial log n) :=
  inferInstanceAs (Decidable (_ ∈ log))

/-- The node that an event deallocates. -/
def freedBy : Memory.Event → Option Node
  | .deallocated n 1 => some n
  | _ => none

/-- The nodes that were deallocated, in order. -/
def freed (log : List Memory.Event) : List Node := log.filterMap freedBy

/-- What is deallocated was destroyed as often, as far as there is something to destroy. -/
def Balanced (trivial : Bool) (log : List Memory.Event) : Prop :=
  ∀ n, log.count (.destroyed ⟨n, 0⟩) ≤ (freed log).count n ∧
    (trivial = false → log.count (.destroyed ⟨n, 0⟩) = (freed log).count n)

/-- The nodes that calls on the `thread_data` make; `next` is the number of the next block. -/
def newNodes : Node → List Memory.Call → List Node
  | _, [] => []
  | next, c :: cs =>
    (match c with
      | .take _ (.allocateConstruct _ false) => [next]
      | _ => []) ++ newNodes (next + c.blocks) cs

section Events

variable {trivial : Bool} {log log' : List Memory.Event} {next n : Node} {calls : List Memory.Call}

theorem freed_append : freed (log ++ log') = freed log ++ freed log' := List.filterMap_append

theorem count_freed : (freed log).count n = log.count (.deallocated n 1) := by
  induction log with
  | nil => rfl
  | cons x log ih =>
    have hcons : freed (x :: log) = (freedBy x).toList ++ freed log := by
      unfold freed
      cases h : freedBy x <;> simp [h]
    rw [hcons, List.count_append, ih, List.count_cons, Nat.add_comm]
    congr 1
    cases x with
    | deallocated b count =>
      by_cases hc : count = 1
      · subst hc
        simp [freedBy, List.count_cons]
      · simp [freedBy, hc]
    | allocated b count => simp [freedBy]
    | constructed a b => simp [freedBy]
    | destroyed a => simp [freedBy]

theorem Balanced.append (h : Balanced trivial log) (h' : Balanced trivial log') :
    Balanced trivial (log ++ log') := by
  intro n
  rw [freed_append, List.count_append, List.count_append]
  exact ⟨Nat.add_le_add (h n).1 (h' n).1, fun ht => congrArg₂ _ ((h n).2 ht) ((h' n).2 ht)⟩

/-- A body frees nothing itself. -/
theorem freed_bodyEvents : freed (Memory.bodyEvents next calls) = [] := by
  refine List.filterMap_eq_nil_iff.mpr fun x hx => ?_
  have htakes := Memory.bodyEvents_takes x hx
  cases x with
  | allocated | constructed => rfl
  | destroyed | deallocated => exact htakes.elim

theorem Balanced.bodyEvents : Balanced trivial (Memory.bodyEvents next calls) := by
  have hzero : ∀ n, (Memory.bodyEvents next calls).count (.destroyed ⟨n, 0⟩) = 0 := fun n =>
    List.count_eq_zero_of_not_mem fun hm => Memory.bodyEvents_takes _ hm
  intro n
  rw [hzero, freed_bodyEvents]
  exact ⟨Nat.le_refl 0, fun _ => rfl⟩

theorem freed_sublistEvents (ns : List Node) : freed (sublistEvents ns) = ns := by
  induction ns with
  | nil => rfl
  | cons n ns ih =>
    have hcons : sublistEvents (n :: ns) = [.destroyed ⟨n, 0⟩, .deallocated n 1] ++ sublistEvents ns := rfl
    rw [hcons, freed_append, ih]
    rfl

theorem Balanced.destroyDeallocate (n : Node) : Balanced trivial [.destroyed ⟨n, 0⟩, .deallocated n 1] := by
  intro k
  have hk : [Memory.Event.destroyed ⟨n, 0⟩, .deallocated n 1].count (.destroyed ⟨k, 0⟩) = [n].count k := by
    simp [List.count_cons]
  exact ⟨hk.le, fun _ => hk⟩

theorem Balanced.sublistEvents (ns : List Node) : Balanced trivial (sublistEvents ns) := by
  induction ns with
  | nil => exact fun _ => ⟨Nat.le_refl 0, fun _ => rfl⟩
  | cons n ns ih => exact (Balanced.destroyDeallocate n).append ih

/-- What is undone by a call's own fail callback. -/
theorem Balanced.undone_node (trivial : Bool) (n : Node) :
    freed (Memory.undone [if trivial then .deallocate n 1 else .destroyDeallocate n]) = [n] ∧
      Balanced trivial (Memory.undone [if trivial then .deallocate n 1 else .destroyDeallocate n]) := by
  cases trivial with
  | false => exact ⟨rfl, .destroyDeallocate n⟩
  | true =>
    refine ⟨rfl, fun k => ⟨?_, fun h => by cases h⟩⟩
    have hzero : (Memory.undone [.deallocate n 1]).count (.destroyed ⟨k, 0⟩) = 0 := by
      simp [Memory.undone, Memory.Action.events]
    exact hzero.le.trans (Nat.zero_le _)

/-- **The calls of a body and their fail callbacks**: what is built is numbered upwards, and the callbacks
    deallocate it backwards. -/
theorem newNodes_spec (next : Node) (h : ∀ c ∈ calls, Asked trivial c) :
    (∀ n, Built trivial (Memory.bodyEvents next calls) n ↔ n ∈ newNodes next calls) ∧
      freed (Memory.undone (Memory.bodyActions next calls)) = (newNodes next calls).reverse ∧
      Balanced trivial (Memory.undone (Memory.bodyActions next calls)) ∧
      (newNodes next calls).Nodup ∧
      ∀ n ∈ newNodes next calls, next ≤ n ∧ n < next + Memory.bodyBlocks calls := by
  induction calls generalizing next with
  | nil =>
    refine ⟨fun n => ?_, rfl, fun _ => ⟨Nat.le_refl 0, fun _ => rfl⟩, .nil, fun n hn => absurd hn List.not_mem_nil⟩
    exact ⟨fun hn => absurd hn List.not_mem_nil, fun hn => absurd hn List.not_mem_nil⟩
  | cons c cs ih =>
    rw [List.forall_mem_cons] at h
    rcases h.1 with ⟨throws, rfl⟩ | ⟨root, rfl⟩
    · obtain ⟨hb, hf, hbal, hnd, hbd⟩ := ih (next + 1) h.2
      have hbound : ∀ n ∈ newNodes (next + 1) cs, next ≤ n ∧ n < next + (1 + Memory.bodyBlocks cs) := fun n hn =>
        ⟨Nat.le_of_succ_le (hbd n hn).1, (hbd n hn).2.trans_eq (Nat.add_assoc ..)⟩
      cases throws with
      | true =>
        refine ⟨fun n => ?_, hf, hbal, hnd, hbound⟩
        exact (List.mem_cons.trans (or_iff_right Memory.Event.noConfusion)).trans (hb n)
      | false =>
        obtain ⟨hfn, hbaln⟩ := Balanced.undone_node trivial next
        have hundo : Memory.undone (Memory.bodyActions next
            (.take .threadData (.allocateConstruct trivial false) :: cs)) =
            Memory.undone (Memory.bodyActions (next + 1) cs) ++
              Memory.undone [if trivial then .deallocate next 1 else .destroyDeallocate next] :=
          Memory.undone_append
        have hnew : newNodes next (.take .threadData (.allocateConstruct trivial false) :: cs) =
            next :: newNodes (next + 1) cs := rfl
        rw [hundo, hnew, freed_append, hf, hfn, List.reverse_cons]
        refine ⟨fun n => ?_, rfl, hbal.append hbaln, ?_, List.forall_mem_cons.mpr ⟨⟨Nat.le_refl _, ?_⟩, hbound⟩⟩
        · rw [List.mem_cons, ← hb n]
          show Memory.Event.constructed ⟨n, 0⟩ trivial ∈ Memory.Event.allocated next 1 ::
            .constructed ⟨next, 0⟩ trivial :: Memory.bodyEvents (next + 1) cs ↔ _
          simp [Built]
        · exact List.nodup_cons.mpr ⟨fun hn => Nat.not_succ_le_self _ (hbd next hn).1, hnd⟩
        · exact Nat.lt_add_of_pos_right (Nat.lt_of_lt_of_le Nat.one_pos (Nat.le_add_right 1 _))
    · obtain ⟨hb, hf, hbal, hnd, hbd⟩ := ih next h.2
      refine ⟨hb, hf, hbal, hnd, fun n hn => ⟨(hbd n hn).1, ?_⟩⟩
      have hblocks : Memory.bodyBlocks (.sometimeSynchronizedAfter root :: cs) = Memory.bodyBlocks cs :=
        Nat.zero_add _
      exact hblocks ▸ (hbd n hn).2

end Events

/-! ## 3. Owners -/

/-- Where a node can be: in the list, in a chain that was handed over, with a top-level
    `emplace_front` that has not committed, or deallocated. -/
inductive Place (ι : Type) where
  | list
  | queue
  | thread (t : ι)
  | freed
deriving DecidableEq

/-- The nodes of each place. -/
def places (nodes : List Node) (chains : List (Node × List Node)) (pending : ι → Option (Node × α))
    (log : List Memory.Event) : Place ι → List Node
  | .list => nodes
  | .queue => chains.flatMap (·.2)
  | .thread t => (pending t).toList.map (·.1)
  | .freed => freed log

/-- **Every node that was built is in one place**, the chains that were handed over are still chains,
    and a node that waits for its commit is as it was made. -/
structure Owned (trivial : Bool) (m : Memory α) (next : Node) (log : List Memory.Event)
    (pending : ι → Option (Node × α)) (nodes : List Node) (chains : List (Node × List Node)) : Prop where
  ledger : Ledger.Conserved (places nodes chains pending log) (Built trivial log)
  bound : ∀ n, Built trivial log n → n < next
  chain : ∀ c ∈ chains, Chain m (some c.1) c.2
  pending : ∀ t n x, pending t = some (n, x) → m (.value n) = x ∧ m (.prev n) = none

section Owned

variable {trivial : Bool} {m m' : Memory α} {next n : Node} {log : List Memory.Event}
  {pending : ι → Option (Node × α)} {nodes : List Node} {chains : List (Node × List Node)}
  {calls : List Memory.Call} {xs : List α} {t : ι} {x : α}

theorem Owned.lt_of_list (h : Owned trivial m next log pending nodes chains) {k : Node}
    (hk : k ∈ nodes) : k < next := h.bound k ((h.ledger.complete k).mpr ⟨.list, hk⟩)

theorem Owned.lt_of_chain (h : Owned trivial m next log pending nodes chains)
    {c : Node × List Node} (hc : c ∈ chains) {k : Node} (hk : k ∈ c.2) : k < next :=
  h.bound k ((h.ledger.complete k).mpr ⟨.queue, List.mem_flatMap.mpr ⟨c, hc, hk⟩⟩)

theorem Owned.mem_thread (h : pending t = some (n, x)) :
    n ∈ places nodes chains pending log (.thread t) := by
  simp [places, h]

theorem Owned.lt_of_pending (h : Owned trivial m next log pending nodes chains)
    (hp : pending t = some (n, x)) : n < next :=
  h.bound n ((h.ledger.complete n).mpr ⟨.thread t, Owned.mem_thread hp⟩)

/-- A node that waits for its commit is not in the list, nor in a chain. -/
theorem Owned.not_list (h : Owned trivial m next log pending nodes chains)
    (hp : pending t = some (n, x)) : n ∉ nodes := by
  intro hn
  cases h.ledger.unique (.thread t) .list n (Owned.mem_thread hp) hn

theorem Owned.not_chain (h : Owned trivial m next log pending nodes chains)
    (hp : pending t = some (n, x)) {c : Node × List Node} (hc : c ∈ chains) : n ∉ c.2 := by
  intro hn
  cases h.ledger.unique (.thread t) .queue n (Owned.mem_thread hp)
    (List.mem_flatMap.mpr ⟨c, hc, hn⟩)

/-- Another memory, with the same chains and waiting nodes. -/
theorem Owned.congr (h : Owned trivial m next log pending nodes chains)
    (hc : ∀ c ∈ chains, ∀ k ∈ c.2, m' (.next k) = m (.next k))
    (hp : ∀ t n x, pending t = some (n, x) →
      m' (.value n) = m (.value n) ∧ m' (.prev n) = m (.prev n)) :
    Owned trivial m' next log pending nodes chains where
  ledger := h.ledger
  bound := h.bound
  chain c hcm := (h.chain c hcm).congr (hc c hcm)
  pending t n x ht := by
    obtain ⟨hv, hprev⟩ := hp t n x ht
    rw [hv, hprev]
    exact h.pending t n x ht

/-- Memory that differs in new nodes only. -/
theorem Owned.congr_new (h : Owned trivial m next log pending nodes chains)
    (hm : ∀ v, ¬ OfNew next v → m' v = m v) : Owned trivial m' next log pending nodes chains := by
  refine h.congr (fun c hc k hk => hm _ ?_) fun t n x ht => ⟨hm _ ?_, hm _ ?_⟩
  · exact Nat.not_le_of_lt (h.lt_of_chain hc hk)
  · exact Nat.not_le_of_lt (h.lt_of_pending ht)
  · exact Nat.not_le_of_lt (h.lt_of_pending ht)

theorem Owned.holds_new (h : Owned trivial m next log pending nodes chains) (hl : Holds m nodes xs)
    (hm : ∀ v, ¬ OfNew next v → m' v = m v) : Holds m' nodes xs := by
  refine hl.congr (hm _ id) (hm _ id) fun k hk => ⟨hm _ ?_, hm _ ?_, hm _ ?_⟩ <;>
    exact Nat.not_le_of_lt (h.lt_of_list hk)

theorem constructed_of_old {v : Var} (hv : ¬ OfNew n v) : constructed m n x v = m v := by
  have hne : ∀ w, OfNew n w → v ≠ w := fun w hw e => hv (e ▸ hw)
  rw [constructed, Function.update_of_ne (hne (.next n) (Nat.le_refl n)),
    Function.update_of_ne (hne (.prev n) (Nat.le_refl n)),
    Function.update_of_ne (hne (.value n) (Nat.le_refl n))]

theorem constructed_value : constructed m n x (.value n) = x := by
  simp [constructed]

theorem constructed_prev : constructed m n x (.prev n) = none := by
  simp [constructed]

/-- What `allocate_construct` does for a node. -/
def newNodeEvents (trivial : Bool) (n : Node) : List Memory.Event := [.allocated n 1, .constructed ⟨n, 0⟩ trivial]

theorem built_newNode {k : Node} :
    Built trivial (log ++ newNodeEvents trivial n) k ↔ Built trivial log k ∨ k = n := by
  simp [Built, newNodeEvents]

theorem freed_newNode : freed (log ++ newNodeEvents trivial n) = freed log := by
  rw [freed_append]
  exact List.append_nil _

theorem Owned.not_built (h : Owned trivial m next log pending nodes chains) : ¬ Built trivial log next :=
  fun hb => Nat.lt_irrefl next (h.bound next hb)

theorem Owned.bound_newNode (h : Owned trivial m next log pending nodes chains) {k : Node}
    (hk : Built trivial (log ++ newNodeEvents trivial next) k) : k < next + 1 := by
  rcases built_newNode.mp hk with hk | rfl
  · exact Nat.lt_succ_of_lt (h.bound k hk)
  · exact Nat.lt_succ_self k

/-- A block whose constructor throws is nobody's. -/
theorem Owned.allocated (h : Owned trivial m next log pending nodes chains) :
    Owned trivial m (next + 1) (log ++ [.allocated next 1]) pending nodes chains := by
  have hb : ∀ k, Built trivial (log ++ [.allocated next 1]) k ↔ Built trivial log k := by simp [Built]
  have hf : freed (log ++ [.allocated next 1]) = freed log := by
    rw [freed_append]
    exact List.append_nil _
  refine ⟨?_, fun k hk => Nat.lt_succ_of_lt (h.bound k ((hb k).mp hk)), h.chain, h.pending⟩
  have hc : Ledger.Conserved (places nodes chains pending (log ++ [.allocated next 1])) (Built trivial log) :=
    h.ledger.congr fun p => by cases p <;> simp [places, hf]
  exact ⟨hc.nodup, hc.unique, fun k => (hb k).trans (hc.complete k)⟩

/-- A node is made for a top-level `emplace_front`. -/
theorem Owned.construct [DecidableEq ι] (h : Owned trivial m next log pending nodes chains)
    (ht : pending t = none) :
    Owned trivial (constructed m next x) (next + 1) (log ++ newNodeEvents trivial next)
      (Function.update pending t (some (next, x))) nodes chains where
  ledger := by
    refine h.ledger.fresh (a := .thread t) h.not_built ?_ (fun b hb => ?_) fun y => built_newNode
    · simp [places, ht]
    · cases b with
      | thread u =>
        have hu : u ≠ t := fun e => hb (e ▸ rfl)
        simp [places, hu]
      | list => exact .refl _
      | queue => exact .refl _
      | freed => exact .of_eq freed_newNode
  bound k := h.bound_newNode
  chain := (h.congr_new fun v hv => constructed_of_old hv).chain
  pending := by
    intro u k y hu
    by_cases hut : u = t
    · subst hut
      rw [Function.update_self] at hu
      cases hu
      exact ⟨constructed_value, constructed_prev⟩
    · rw [Function.update_of_ne hut] at hu
      exact (h.congr_new fun v hv => constructed_of_old hv).pending u k y hu

/-- The head of the list is one of its nodes. -/
theorem Holds.head_mem (hl : Holds m nodes xs) {k : Node} (hk : m .head = some k) : k ∈ nodes := by
  have hc := hl.chain
  cases nodes with
  | nil => exact absurd (hk.symm.trans hc) (Option.some_ne_none k)
  | cons j js =>
    have hj : m .head = some j := hc.1
    exact Option.some.inj (hk.symm.trans hj) ▸ List.mem_cons_self

/-- Emplacing leaves the other places' nodes alone. -/
theorem Owned.emplaced_congr (h : Owned trivial m next log pending nodes chains)
    (hl : Holds m nodes xs) (hn : ∀ c ∈ chains, n ∉ c.2) :
    Owned trivial (emplaced m n) next log pending nodes chains := by
  refine h.congr (fun c hc k hk => ?_) fun u k y hu => ⟨emplaced_value m n k, ?_⟩
  · rw [emplaced_next, if_neg fun e : k = n => hn c hc (e ▸ hk)]
  · rw [emplaced_prev, if_neg fun e => h.not_list hu (hl.head_mem e)]

/-- **The transaction of a top-level `emplace_front` commits.** -/
theorem Owned.commitEmplace [DecidableEq ι] (h : Owned trivial m next log pending nodes chains)
    (hl : Holds m nodes xs) (ht : pending t = some (n, x)) :
    Owned trivial (emplaced m n) next log (Function.update pending t none) (n :: nodes) chains ∧
      Holds (emplaced m n) (n :: nodes) (x :: xs) := by
  obtain ⟨hv, hp⟩ := h.pending t n x ht
  have hcongr := h.emplaced_congr hl fun c hc => h.not_chain ht hc
  refine ⟨⟨?_, h.bound, hcongr.chain, fun u k y hu => ?_⟩,
    hl.emplace (h.ledger.nodup .list) (h.not_list ht) hp hv⟩
  · refine h.ledger.move (a := .thread t) (b := .list) (x := n) (by simp) ?_ (.refl _)
      fun c hc hc' => ?_
    · simp [places, ht]
    · cases c with
      | thread u =>
        have hu : u ≠ t := fun e => hc (e ▸ rfl)
        simp [places, hu]
      | list => exact absurd rfl hc'
      | queue => exact .refl _
      | freed => exact .refl _
  · by_cases hut : u = t
    · subst hut
      rw [Function.update_self] at hu
      cases hu
    · rw [Function.update_of_ne hut] at hu
      exact hcongr.pending u k y hu

/-- **An `emplace_front` inside of a transaction.** -/
theorem Owned.emplace (h : Owned trivial m next log pending nodes chains) (hl : Holds m nodes xs) :
    Owned trivial (emplaced (constructed m next x) next) (next + 1) (log ++ newNodeEvents trivial next)
        pending (next :: nodes) chains ∧
      Holds (emplaced (constructed m next x) next) (next :: nodes) (x :: xs) := by
  have hold : ∀ v, ¬ OfNew next v → constructed m next x v = m v := fun v hv => constructed_of_old hv
  have h₁ := h.congr_new hold
  have hl₁ := h.holds_new hl hold
  have hn : next ∉ nodes := fun hm => Nat.lt_irrefl _ (h.lt_of_list hm)
  have hcongr := h₁.emplaced_congr (n := next) hl₁ fun c hc hm =>
    Nat.lt_irrefl _ (h.lt_of_chain hc hm)
  refine ⟨⟨?_, fun k => h.bound_newNode, hcongr.chain, hcongr.pending⟩,
    hl₁.emplace (h.ledger.nodup .list) hn constructed_prev constructed_value⟩
  refine h.ledger.fresh (a := .list) h.not_built (.refl _) (fun b hb => ?_) fun y => built_newNode
  cases b with
  | list => exact absurd rfl hb
  | thread u => exact .refl _
  | queue => exact .refl _
  | freed => exact .of_eq freed_newNode

/-- The chain a clear hands over: that of the list, unless it is empty. -/
def handedOver (m : Memory α) (nodes : List Node) : List (Node × List Node) :=
  (m .head).toList.map fun root => (root, nodes)

/-- **A `clear`**: the list's chain is handed over. -/
theorem Owned.clear [DecidableEq ι] (h : Owned trivial m next log pending nodes chains) (hl : Holds m nodes xs) :
    Owned trivial (cleared m) next log pending [] (chains ++ handedOver m nodes) := by
  have hm : ∀ v, v ≠ .head → v ≠ .size → cleared m v = m v := by
    intro v hh hs
    rw [cleared, Function.update_of_ne hh, Function.update_of_ne hs]
  have hcongr : Owned trivial (cleared m) next log pending nodes chains :=
    h.congr (fun c _ k _ => hm _ Var.noConfusion Var.noConfusion)
      fun u k y _ => ⟨hm _ Var.noConfusion Var.noConfusion, hm _ Var.noConfusion Var.noConfusion⟩
  refine ⟨?_, h.bound, fun c hc => ?_, hcongr.pending⟩
  · refine h.ledger.moves (a := .list) (b := .queue) (by simp) (.of_eq (List.append_nil nodes).symm) ?_
      fun c hc hc' => ?_
    · have hchain := hl.chain
      cases nodes with
      | nil =>
        have hnone : m .head = none := hchain
        simp [places, handedOver, hnone]
      | cons k ks =>
        have hk : m .head = some k := hchain.1
        simp only [places, handedOver, hk, Option.toList_some, List.map_cons, List.map_nil,
          List.flatMap_append, List.flatMap_singleton]
        exact List.perm_append_comm
    · cases c with
      | list => exact absurd rfl hc
      | queue => exact absurd rfl hc'
      | thread u => exact .refl _
      | freed => exact .refl _
  · rcases List.mem_append.mp hc with hc | hc
    · exact hcongr.chain c hc
    · obtain ⟨root, hroot, rfl⟩ := List.mem_map.mp hc
      have hroot : m .head = some root := Option.mem_toList.mp hroot
      exact (hroot ▸ hl.chain).congr fun k _ => hm _ Var.noConfusion Var.noConfusion

/-- What a chain's callback does when it is run. -/
def chainAction (c : Node × List Node) : Memory.Action := .container c.1

/-- **The calls of a transaction**, one after the other. -/
theorem Owned.body [DecidableEq ι] (cs : List (Call α)) (h : Owned trivial m next log pending nodes chains)
    (hl : Holds m nodes xs) :
    ∃ nodes' chains',
      Owned trivial (bodyMemory next cs m) (next + Memory.bodyBlocks (bodyAsks trivial next cs m))
        (log ++ Memory.bodyEvents next (bodyAsks trivial next cs m)) pending nodes' chains' ∧
      Holds (bodyMemory next cs m) nodes' (after cs xs) ∧
      chains'.map chainAction = chains.map chainAction ++
        (bodyAsks trivial next cs m).filterMap Memory.Call.laterAction := by
  induction cs generalizing m next log nodes chains xs with
  | nil => exact ⟨nodes, chains, (List.append_nil log).symm ▸ h, hl, (List.append_nil _).symm⟩
  | cons c cs ih =>
    cases c with
    | emplaceFront x =>
      obtain ⟨h₁, hl₁⟩ := h.emplace (x := x) hl
      obtain ⟨nodes', chains', h', hl', hq⟩ := ih h₁ hl₁
      rw [List.append_assoc, Nat.add_assoc] at h'
      exact ⟨nodes', chains', h', hl', hq⟩
    | emplaceThrows =>
      obtain ⟨nodes', chains', h', hl', hq⟩ := ih h.allocated hl
      rw [List.append_assoc, Nat.add_assoc] at h'
      exact ⟨nodes', chains', h', hl', hq⟩
    | clear =>
      obtain ⟨nodes', chains', h', hl', hq⟩ := ih (h.clear hl) (Holds.clear m)
      rw [List.map_append, List.append_assoc] at hq
      -- a clear makes no events, and hands over the chain of the list if there is one
      cases hh : m .head with
      | none =>
        have hasks : bodyAsks trivial next (.clear :: cs) m = bodyAsks trivial next cs (cleared m) := by
          rw [bodyAsks, hh]
          rfl
        rw [handedOver, hh] at hq
        rw [hasks]
        exact ⟨nodes', chains', h', hl', hq⟩
      | some root =>
        have hasks : bodyAsks trivial next (.clear :: cs) m =
            .sometimeSynchronizedAfter root :: bodyAsks trivial next cs (cleared m) := by
          rw [bodyAsks, hh]
          rfl
        have hblocks : Memory.bodyBlocks (.sometimeSynchronizedAfter root :: bodyAsks trivial next cs (cleared m)) =
            Memory.bodyBlocks (bodyAsks trivial next cs (cleared m)) := Nat.zero_add _
        rw [handedOver, hh] at hq
        rw [hasks, hblocks]
        exact ⟨nodes', chains', h', hl', hq⟩

/-- **The nodes of a failed attempt** are built, and deallocated by its fail callbacks. -/
theorem Owned.failed [DecidableEq ι] (h : Owned trivial m next log pending nodes chains)
    (ha : ∀ c ∈ calls, Asked trivial c) :
    Owned trivial m (next + Memory.bodyBlocks calls) (log ++ (Memory.bodyEvents next calls ++
      Memory.undone (Memory.bodyActions next calls))) pending nodes chains := by
  obtain ⟨hb, hf, -, hnd, hbd⟩ := newNodes_spec next ha
  have hbuilt : ∀ n, Built trivial (log ++ (Memory.bodyEvents next calls ++
      Memory.undone (Memory.bodyActions next calls))) n ↔
      Built trivial log n ∨ n ∈ (newNodes next calls).reverse := by
    intro n
    have hundo : Memory.Event.constructed ⟨n, 0⟩ trivial ∉ Memory.undone (Memory.bodyActions next calls) :=
      fun hm => Memory.undone_not_takes _ hm True.intro
    rw [List.mem_reverse, ← hb n]
    simp only [Built, List.mem_append, hundo, or_false]
  have hfreed : freed (log ++ (Memory.bodyEvents next calls ++
      Memory.undone (Memory.bodyActions next calls))) = freed log ++ (newNodes next calls).reverse := by
    rw [freed_append, freed_append, freed_bodyEvents, hf]
    rfl
  refine ⟨?_, fun n hn => ?_, h.chain, h.pending⟩
  · refine h.ledger.freshes (a := .freed) (List.nodup_reverse.mpr hnd) (fun y hy hm => ?_) ?_ (fun b hne => ?_)
      hbuilt
    · exact Nat.not_lt_of_le (hbd y (List.mem_reverse.mp hy)).1 (h.bound y hm)
    · exact (List.Perm.of_eq hfreed).trans List.perm_append_comm
    · cases b with
      | freed => exact absurd rfl hne
      | list => exact .refl _
      | queue => exact .refl _
      | thread t => exact .refl _
  · rcases (hbuilt n).mp hn with hn | hn
    · exact Nat.lt_add_right _ (h.bound n hn)
    · exact (hbd n (List.mem_reverse.mp hn)).2

/-- What `destroy_deallocate_sublist` does. -/
theorem built_sublist {ns : List Node} :
    Built trivial (log ++ sublistEvents ns) n ↔ Built trivial log n := by
  have hno : Memory.Event.constructed ⟨n, 0⟩ trivial ∉ sublistEvents ns := by
    simp [sublistEvents]
  simp only [Built, List.mem_append, hno, or_false]

/-- A chain that was handed over is destroyed. -/
theorem Owned.runCallback [DecidableEq ι] (h : Owned trivial m next log pending nodes chains) {i : Nat}
    {c : Node × List Node} (hi : chains[i]? = some c) :
    Owned trivial m next (log ++ sublistEvents c.2) pending nodes (chains.eraseIdx i) := by
  obtain ⟨hlt, hget⟩ := List.getElem?_eq_some_iff.mp hi
  have hperm : (c :: chains.eraseIdx i).Perm chains := hget ▸ List.getElem_cons_eraseIdx_perm hlt
  refine ⟨?_, fun n hn => h.bound n (built_sublist.mp hn), fun d hd => h.chain d (List.mem_of_mem_eraseIdx hd),
    h.pending⟩
  have hc : Ledger.Conserved (places nodes (chains.eraseIdx i) pending (log ++ sublistEvents c.2))
      (Built trivial log) := by
    refine h.ledger.moves (a := .queue) (b := .freed) (by simp) (hperm.symm.flatMap_right _) ?_ fun b hb hb' => ?_
    · show (freed (log ++ sublistEvents c.2)).Perm (c.2 ++ freed log)
      rw [freed_append, freed_sublistEvents]
      exact List.perm_append_comm
    · cases b with
      | queue => exact absurd rfl hb
      | freed => exact absurd rfl hb'
      | list => exact .refl _
      | thread t => exact .refl _
  exact ⟨hc.nodup, hc.unique, fun n => built_sublist.trans (hc.complete n)⟩

/-- The list's own chain is destroyed. -/
theorem Owned.destroyList [DecidableEq ι] (h : Owned trivial m next log pending nodes chains) :
    Owned trivial m next (log ++ sublistEvents nodes) pending [] chains := by
  refine ⟨?_, fun n hn => h.bound n (built_sublist.mp hn), h.chain, h.pending⟩
  have hc : Ledger.Conserved (places [] chains pending (log ++ sublistEvents nodes)) (Built trivial log) := by
    refine h.ledger.moves (a := .list) (b := .freed) (by simp) (.of_eq (List.append_nil nodes).symm) ?_
      fun b hb hb' => ?_
    · show (freed (log ++ sublistEvents nodes)).Perm (nodes ++ freed log)
      rw [freed_append, freed_sublistEvents]
      exact List.perm_append_comm
    · cases b with
      | list => exact absurd rfl hb
      | freed => exact absurd rfl hb'
      | queue => exact .refl _
      | thread t => exact .refl _
  exact ⟨hc.nodup, hc.unique, fun n => built_sublist.trans (hc.complete n)⟩

theorem sublist_flatMap {c : Node × List Node} (hc : c ∈ chains) :
    c.2.Sublist (chains.flatMap (·.2)) := by
  obtain ⟨ds, es, rfl⟩ := List.append_of_mem hc
  rw [List.flatMap_append, List.flatMap_cons]
  exact (List.sublist_append_left _ _).trans (List.sublist_append_right _ _)

/-- A chain is no longer than there are blocks. -/
theorem Owned.length_le (h : Owned trivial m next log pending nodes chains) {ns : List Node}
    {p : Place ι} (hp : ns.Sublist (places nodes chains pending log p)) : ns.length ≤ next := by
  have hnd : ns.Nodup := (h.ledger.nodup p).sublist hp
  have hsub : ns ⊆ List.range next := fun k hk =>
    List.mem_range.mpr (h.bound k ((h.ledger.complete k).mpr ⟨p, hp.subset hk⟩))
  have hle := List.Nodup.length_le_of_subset hnd hsub
  rwa [List.length_range] at hle

end Owned

/-! ## 4. Over a run -/

/-- A thread outside of attempts. -/
structure Idle (td : TlsData Var Unit Memory.Callback) : Prop where
  start : td.validStartState = true
  outside : td.inCriticalSection = false

namespace Sys

variable {trivial : Bool} {s : Sys ι α} {t : ι} {version : Epoch} {p : Program α Unit} {view : Memory α}
  {e : World.PassEnd}

/-- The invariant of a run. -/
structure Inv (trivial : Bool) (s : Sys ι α) : Prop where
  idle : ∀ t, Idle (s.td t)
  balanced : Balanced trivial s.heap.log
  shape : ∃ nodes chains, Owned trivial s.mem s.heap.next s.heap.log s.pending nodes chains ∧
    s.queued.map (·.action) = chains.map chainAction ∧ (s.gone = false → Holds s.mem nodes s.contents) ∧
    (s.gone = true → nodes = [] ∧ ∀ t, s.pending t = none)

theorem init_inv (m : Memory α) : (init m : Sys ι α).Inv trivial := by
  refine ⟨fun t => ⟨rfl, rfl⟩, fun n => ⟨Nat.le_refl 0, fun _ => rfl⟩, [], [], ⟨⟨fun p => ?_, fun p q k hk => ?_,
    fun k => ?_⟩, fun k hk => absurd hk List.not_mem_nil, fun _ h => absurd h List.not_mem_nil,
    fun _ _ _ h => (by cases h)⟩, rfl, fun _ => ⟨?_, ?_, rfl, True.intro⟩, fun h => (by cases h)⟩
  · cases p <;> exact .nil
  · cases p <;> cases hk
  · refine ⟨fun h => absurd h List.not_mem_nil, fun ⟨p, hp⟩ => ?_⟩
    cases p <;> cases hp
  · show (init m : Sys ι α).mem .head = none
    simp [init]
  · show (init m : Sys ι α).mem .size = 0
    simp [init]

/-- What a chain's callback destroys when it is run. -/
theorem perform_chain {c : Memory.Callback} {d : Node × List Node} (hc : c.action = chainAction d)
    (hw : s.walk (some d.1) = d.2) : s.perform c = s.emit (sublistEvents d.2) := by
  rw [perform, hc, ← hw]
  rfl

variable [DecidableEq ι]

theorem idle_update {td : ι → TlsData Var Unit Memory.Callback} {td' : TlsData Var Unit Memory.Callback}
    (h : ∀ u, Idle (td u)) (h' : Idle td') (u : ι) : Idle (Function.update td t td' u) := by
  by_cases hu : u = t
  · subst hu
    rw [Function.update_self]
    exact h'
  · rw [Function.update_of_ne hu]
    exact h u

theorem pass_mem : (s.pass t version p view e).mem =
    if e = .committed then (p.outcome view).commit s.mem else leave (p.outcome view) s.mem := rfl

theorem pass_queued : (s.pass t version p view e).queued = s.queued ++ if e = .committed then
    Memory.takenOver version (p.outcome view).retired.reverse (⟨s.td t, s.heap⟩ : Memory.State Var Unit)
  else [] := rfl

/-- **An attempt that fails**, wherever it was given up: its nodes are gone and its chains are dropped. -/
theorem pass_failed_inv (h : s.Inv trivial) (hv : version ≠ offState) (he : e ≠ .committed)
    (ha : ∀ c ∈ (p.outcome view).retired, Asked trivial c)
    (hm : ∀ nodes chains, Owned trivial s.mem s.heap.next s.heap.log s.pending nodes chains →
      Owned trivial (leave (p.outcome view) s.mem) s.heap.next s.heap.log s.pending nodes chains ∧
        (Holds s.mem nodes s.contents → Holds (leave (p.outcome view) s.mem) nodes s.contents)) :
    (s.pass t version p view e).Inv trivial := by
  obtain ⟨nodes, chains, ho, hq, hl, hg⟩ := h.shape
  obtain ⟨ho', hl'⟩ := hm nodes chains ho
  have ha' : ∀ c ∈ (p.outcome view).retired.reverse, Asked trivial c := fun c hc => ha c (List.mem_reverse.mp hc)
  obtain ⟨hstart, hcrit, hnext, hlog⟩ := Memory.pass_failed_eq (p.outcome view).retired.reverse
    (show (⟨s.td t, s.heap⟩ : Memory.State Var Unit).td.validStartState = true from (h.idle t).start) hv he
  obtain ⟨-, -, hbal, -⟩ := newNodes_spec s.heap.next ha'
  refine ⟨idle_update h.idle ⟨hstart, hcrit⟩, ?_, nodes, chains, ?_, ?_, ?_, hg⟩
  · rw [pass, hlog]
    exact h.balanced.append (Balanced.bodyEvents.append hbal)
  · rw [pass_mem, if_neg he, pass, hnext, hlog]
    exact ho'.failed ha'
  · rw [pass_queued, if_neg he, List.append_nil]
    exact hq
  · rw [pass_mem, if_neg he]
    exact fun hlive => hl' (hl hlive)

/-- **An attempt that commits**: its nodes stay, and its chains are handed over. -/
theorem pass_committed_spec (h : s.Inv trivial) (hv : version ≠ offState)
    {f : Memory α → Memory α} {g : Memory α → List Memory.Call}
    (hdoes : ∀ a : Attempt α, Does p a (f a.view) (g a.view)) (hvalid : s.Valid p view) :
    (∀ u, Idle ((s.pass t version p view .committed).td u)) ∧
      Balanced trivial (s.pass t version p view .committed).heap.log ∧
      (s.pass t version p view .committed).mem = f s.mem ∧
      (s.pass t version p view .committed).heap.next = s.heap.next + Memory.bodyBlocks (g s.mem) ∧
      (s.pass t version p view .committed).heap.log =
        s.heap.log ++ Memory.bodyEvents s.heap.next (g s.mem) ∧
      (s.pass t version p view .committed).queued.map (·.action) =
        s.queued.map (·.action) ++ (g s.mem).filterMap Memory.Call.laterAction := by
  obtain ⟨hmem, hret⟩ := Does.commit hdoes hvalid
  obtain ⟨hstart, hcrit, hnext, hlog⟩ :=
    Memory.pass_committed ⟨s.td t, s.heap⟩ (p.outcome view).retired.reverse hv
  have htaken := Memory.takenOver_eq (p.outcome view).retired.reverse
    (show (⟨s.td t, s.heap⟩ : Memory.State Var Unit).td.validStartState = true from (h.idle t).start) hv
  rw [hret] at hnext hlog
  refine ⟨idle_update h.idle ⟨hstart, hcrit⟩, ?_, ?_, ?_, ?_, ?_⟩
  · rw [pass, hret, hlog]
    exact h.balanced.append .bodyEvents
  · rw [pass_mem, if_pos rfl, hmem]
  · rw [pass, hret, hnext]
  · rw [pass, hret, hlog]
  · rw [pass_queued, if_pos rfl, htaken, hret, List.map_append, Memory.bodyLater_actions]

/-- The node of a top-level `emplace_front` is made outside of a critical section: nothing is registered
    for it. -/
theorem construct_inv (h : s.Inv trivial) (hlive : s.gone = false) (ht : s.pending t = none) (x : α)
    (throws : Bool) : (s.construct trivial t x throws).Inv trivial := by
  obtain ⟨nodes, chains, ho, hq, hl, -⟩ := h.shape
  have hw := Memory.allocateConstruct_outside (w := (⟨s.td t, s.heap⟩ : Memory.State Var Unit)) trivial throws
    (h.idle t).outside
  have hidle := idle_update (t := t) h.idle (h.idle t)
  have hgone : ∀ {q : Prop}, s.gone = true → q := fun hg => absurd (hlive.symm.trans hg) Bool.false_ne_true
  have hbal : ∀ throws, Balanced trivial ((Memory.Taking.allocateConstruct trivial throws).events s.heap.next) := by
    intro throws
    have hb : Balanced trivial (Memory.bodyEvents s.heap.next
        [.take .threadData (.allocateConstruct trivial throws)]) := .bodyEvents
    have hone : Memory.bodyEvents s.heap.next [.take .threadData (.allocateConstruct trivial throws)] =
        (Memory.Taking.allocateConstruct trivial throws).events s.heap.next := List.append_nil _
    exact hone ▸ hb
  unfold construct
  rw [hw]
  cases throws with
  | true =>
    exact ⟨hidle, h.balanced.append (hbal true), nodes, chains, ho.allocated, hq, hl, hgone⟩
  | false =>
    have hmem : ((constructNode s.heap.next x).outcome s.mem).commit s.mem = constructed s.mem s.heap.next x :=
      (Does.commit (f := fun m => constructed m s.heap.next x) (g := fun _ => [])
        (fun a => constructNode_run s.heap.next x a) fun _ _ => rfl).1
    have hnew : Owned trivial (((constructNode s.heap.next x).outcome s.mem).commit s.mem) (s.heap.next + 1)
        (s.heap.log ++ newNodeEvents trivial s.heap.next)
        (Function.update s.pending t (some (s.heap.next, x))) nodes chains := by
      rw [hmem]
      exact ho.construct ht
    refine ⟨hidle, h.balanced.append (hbal false), nodes, chains, hnew, hq, fun _ => ?_, hgone⟩
    show Holds (((constructNode s.heap.next x).outcome s.mem).commit s.mem) nodes s.contents
    rw [hmem]
    exact ho.holds_new (hl hlive) fun v hv => constructed_of_old hv

/-- An attempt at a top-level `emplace_front` that fails leaves its node as it was made. -/
theorem failEmplace_inv (h : s.Inv trivial) {k : Node} {x : α} (ht : s.pending t = some (k, x))
    (hv : version ≠ offState) (he : e ≠ .committed) (n : Nat) :
    (s.pass t version ((emplaceFront k).first n) view e).Inv trivial := by
  have hmarks : ((emplaceFront k : Program α Unit).first n).Marks (· = .next k) (Asked trivial) :=
    emplaceFront_marks.first n
  obtain ⟨hpriv, hret⟩ := hmarks.outcome view
  have hmem : ∀ v, v ≠ .next k → leave (((emplaceFront k).first n).outcome view) s.mem v = s.mem v :=
    fun v hne => if_neg fun hm => hne (hpriv v hm)
  refine pass_failed_inv h hv he hret fun nodes chains ho => ⟨?_, fun hl => ?_⟩
  · refine ho.congr (fun c hc j hj => hmem _ ?_) fun u j y _ =>
      ⟨hmem _ Var.noConfusion, hmem _ Var.noConfusion⟩
    exact fun e => ho.not_chain ht hc (Var.next.inj e ▸ hj)
  · refine hl.congr (hmem _ Var.noConfusion) (hmem _ Var.noConfusion) fun j hj =>
      ⟨hmem _ Var.noConfusion, hmem _ Var.noConfusion, hmem _ ?_⟩
    exact fun e => ho.not_list ht (Var.next.inj e ▸ hj)

/-- An attempt at a larger transaction that fails has stored into new nodes only. -/
theorem failAtomic_inv (h : s.Inv trivial) (hv : version ≠ offState) (he : e ≠ .committed)
    (calls : List (Call α)) (n : Nat) :
    (s.pass t version ((body trivial s.heap.next calls).first n) view e).Inv trivial := by
  obtain ⟨hpriv, hret⟩ := ((body_marks calls s.heap.next).first n).outcome view
  have hmem : ∀ v, ¬ OfNew s.heap.next v →
      leave (((body trivial s.heap.next calls).first n).outcome view) s.mem v = s.mem v :=
    fun v hold => if_neg fun hm => hold (hpriv v hm)
  exact pass_failed_inv h hv he hret fun nodes chains ho => ⟨ho.congr_new hmem, fun hl => ho.holds_new hl hmem⟩

/-- **One event.** -/
theorem apply_inv {e : Event ι α} (h : s.Inv trivial) (ha : s.Allowed trivial e) :
    (s.apply trivial e).Inv trivial := by
  have hgone : s.gone = false → ∀ {q : Prop}, s.gone = true → q := fun hlive _ hg =>
    absurd (hlive.symm.trans hg) Bool.false_ne_true
  cases e with
  | construct t x throws => exact construct_inv h ha.1 ha.2 x throws
  | failEmplace t version view n e =>
    obtain ⟨-, ht, hv, he⟩ := ha
    obtain ⟨⟨k, x⟩, ht⟩ := Option.ne_none_iff_exists'.mp ht
    rw [apply, ht]
    exact failEmplace_inv h ht hv (by rcases he with rfl | rfl <;> decide) n
  | commitEmplace t version view =>
    obtain ⟨hlive, hv, n, x, ht, hvalid⟩ := ha
    obtain ⟨nodes, chains, ho, hq, hl, -⟩ := h.shape
    obtain ⟨hidle, hbal, hmem, hnext, hlog, hqueued⟩ := pass_committed_spec (t := t) h hv
      (f := fun m => emplaced m n) (g := fun _ => []) (fun a => emplaceFront_run n a) hvalid
    obtain ⟨ho', hl'⟩ := ho.commitEmplace (hl hlive) ht
    rw [apply, ht]
    refine ⟨hidle, hbal, n :: nodes, chains, ?_, ?_, fun _ => ?_, hgone hlive⟩
    · show Owned trivial (s.pass t version (emplaceFront n) view .committed).mem _ _ _ _ _
      rw [hmem, hnext, hlog]
      exact (List.append_nil s.heap.log).symm ▸ ho'
    · exact hqueued.trans ((List.append_nil _).trans hq)
    · show Holds (s.pass t version (emplaceFront n) view .committed).mem _ _
      rw [hmem]
      exact hl'
  | failAtomic t version calls view n e => exact failAtomic_inv h ha.2.1 ha.2.2 calls n
  | commitAtomic t version calls view =>
    obtain ⟨hlive, hv, hvalid⟩ := ha
    obtain ⟨nodes, chains, ho, hq, hl, -⟩ := h.shape
    obtain ⟨hidle, hbal, hmem, hnext, hlog, hqueued⟩ := pass_committed_spec (t := t) h hv
      (f := bodyMemory s.heap.next calls) (g := bodyAsks trivial s.heap.next calls)
      (fun a => body_run calls s.heap.next a) hvalid
    obtain ⟨nodes', chains', ho', hl', hq'⟩ := ho.body calls (hl hlive)
    rw [apply]
    refine ⟨hidle, hbal, nodes', chains', ?_, ?_, fun _ => ?_, hgone hlive⟩
    · show Owned trivial (s.pass t version (body trivial s.heap.next calls) view .committed).mem _ _ _ _ _
      rw [hmem, hnext, hlog]
      exact ho'
    · exact hqueued.trans ((congrArg (· ++ _) hq).trans hq'.symm)
    · show Holds (s.pass t version (body trivial s.heap.next calls) view .committed).mem _ _
      rw [hmem]
      exact hl'
  | runCallback i =>
    obtain ⟨nodes, chains, ho, hq, hl, hg⟩ := h.shape
    have hlt : i < s.queued.length := ha
    have hlen : i < chains.length := by
      have hlengths := congrArg List.length hq
      rw [List.length_map, List.length_map] at hlengths
      exact hlengths ▸ hlt
    have hi : chains[i]? = some chains[i] := List.getElem?_eq_getElem hlen
    have haction : (s.queued[i]).action = chainAction chains[i] := by
      have hget := congrArg (·[i]?) hq
      simpa [hlt, hlen] using hget
    have hwalk : s.walk (some chains[i].1) = chains[i].2 := by
      rw [walk, destroySublist_spec (ho.chain _ (List.getElem_mem hlen)), Option.getD_some]
      exact ho.length_le (p := .queue) (sublist_flatMap (List.getElem_mem hlen))
    rw [apply, List.getElem?_eq_getElem hlt]
    dsimp only
    rw [perform_chain haction hwalk]
    refine ⟨h.idle, h.balanced.append (.sublistEvents _), nodes, chains.eraseIdx i, ho.runCallback hi, ?_, hl, hg⟩
    show (s.queued.eraseIdx i).map _ = _
    rw [← List.eraseIdx_map, hq, List.eraseIdx_map]
  | destroyList =>
    obtain ⟨nodes, chains, ho, hq, hl, -⟩ := h.shape
    obtain ⟨hlive, hpend⟩ := ha
    have hwalk : s.walk (s.mem .head) = nodes := by
      rw [walk, destroySublist_spec (hl hlive).chain, Option.getD_some]
      exact ho.length_le (p := .list) (List.Sublist.refl _)
    rw [apply, hwalk]
    exact ⟨h.idle, h.balanced.append (.sublistEvents _), [], chains, ho.destroyList, hq, fun h => (by cases h),
      fun _ => ⟨rfl, hpend⟩⟩

/-- **A run.** -/
theorem run_inv {events : List (Event ι α)} (h : s.Inv trivial) (ha : s.AllowedRun trivial events) :
    (s.run trivial events).Inv trivial := by
  induction events generalizing s with
  | nil => exact h
  | cons e es ih => exact ih (apply_inv h ha.1) ha.2

end Sys

/-- **The list keeps its shape and frees its nodes once.** After every run, as long as the list is
    there: the chain from the head has `size_` nodes, they hold what was emplaced since the last
    clear, each node's `prev_` is the one before it, and all of them were built and none destroyed or
    deallocated. No node is ever destroyed or deallocated twice; once the list is destroyed and the
    callbacks have run, each that was built was deallocated once, and destroyed once as far as there is
    something to destroy. -/
theorem list_spec [DecidableEq ι] (trivial : Bool) (m : Memory α) {events : List (Event ι α)}
    (ha : (Sys.init m).AllowedRun trivial events) :
    let s := (Sys.init m).run trivial events
    (s.gone = false →
      ∃ nodes, Holds s.mem nodes s.contents ∧ nodes.Nodup ∧ ∀ n ∈ nodes, Built trivial s.heap.log n ∧
        .destroyed ⟨n, 0⟩ ∉ s.heap.log ∧ .deallocated n 1 ∉ s.heap.log) ∧
    (∀ n, s.heap.log.count (.destroyed ⟨n, 0⟩) ≤ 1 ∧ s.heap.log.count (.deallocated n 1) ≤ 1) ∧
    (s.gone = true → s.queued = [] → ∀ n,
      s.heap.log.count (.deallocated n 1) = (if Built trivial s.heap.log n then 1 else 0) ∧
      (trivial = false → s.heap.log.count (.destroyed ⟨n, 0⟩) = if Built trivial s.heap.log n then 1 else 0)) := by
  intro s
  have hinv := Sys.run_inv (Sys.init_inv m) ha
  obtain ⟨nodes, chains, ho, hq, hl, hg⟩ := hinv.shape
  have hcount : ∀ n, s.heap.log.count (.destroyed ⟨n, 0⟩) ≤ s.heap.log.count (.deallocated n 1) ∧
      (trivial = false → s.heap.log.count (.destroyed ⟨n, 0⟩) = s.heap.log.count (.deallocated n 1)) := fun n => by
    rw [← count_freed]
    exact hinv.balanced n
  have hle : ∀ n, s.heap.log.count (.deallocated n 1) ≤ 1 := fun n => by
    rw [← count_freed]
    exact List.nodup_iff_count_le_one.mp (ho.ledger.nodup .freed) n
  refine ⟨fun hlive => ⟨nodes, hl hlive, ho.ledger.nodup .list, fun n hn => ?_⟩,
    fun n => ⟨(hcount n).1.trans (hle n), hle n⟩, fun hgone hempty n => ?_⟩
  · have hzero : s.heap.log.count (.deallocated n 1) = 0 := by
      rw [← count_freed]
      refine List.count_eq_zero_of_not_mem fun hf => ?_
      cases ho.ledger.unique .list .freed n hn hf
    refine ⟨(ho.ledger.complete n).mpr ⟨.list, hn⟩, ?_, List.count_eq_zero.mp hzero⟩
    exact List.count_eq_zero.mp (Nat.le_zero.mp (hzero ▸ (hcount n).1))
  · obtain ⟨hnodes, hpend⟩ := hg hgone
    have hchains : chains = [] := List.map_eq_nil_iff.mp (hq.symm.trans (congrArg (List.map _) hempty))
    -- nothing is anywhere else
    have hmem : n ∈ freed s.heap.log ↔ Built trivial s.heap.log n := by
      refine ⟨fun hn => (ho.ledger.complete n).mpr ⟨.freed, hn⟩, fun hn => ?_⟩
      obtain ⟨p, hp⟩ := (ho.ledger.complete n).mp hn
      cases p with
      | freed => exact hp
      | list =>
        have hp : n ∈ nodes := hp
        rw [hnodes] at hp
        cases hp
      | queue =>
        rw [hchains] at hp
        cases hp
      | thread t =>
        rw [places, hpend t] at hp
        cases hp
    have hdealloc : s.heap.log.count (.deallocated n 1) = if Built trivial s.heap.log n then 1 else 0 := by
      rw [← count_freed]
      by_cases hn : Built trivial s.heap.log n
      · rw [if_pos hn]
        exact List.count_eq_one_of_mem (ho.ledger.nodup .freed) (hmem.mpr hn)
      · rw [if_neg hn]
        exact List.count_eq_zero_of_not_mem fun h => hn (hmem.mp h)
    exact ⟨hdealloc, fun ht => ((hcount n).2 ht).trans hdealloc⟩

/-- A memory with this head and this size. -/
def viewOf (head : Option Node) (size : Nat) : Memory Nat
  | .head => head
  | .size => size
  | .value _ => 0
  | .prev _ => none
  | .next _ => none

/-- A node is emplaced in the second attempt; a larger transaction is given up behind its first call; another
    one clears, emplaces, clears and emplaces; all is destroyed. -/
def clearTwice : List (Event Bool Nat) :=
  [.construct false 5 false, .failEmplace false 3 (viewOf (some 7) 3) 2 .commitFailed,
    .commitEmplace false 4 (viewOf none 0),
    .failAtomic true 5 [.emplaceFront 6, .emplaceThrows] (viewOf none 0) 20 .exception,
    .commitAtomic true 6 [.clear, .emplaceFront 7, .clear, .emplaceFront 8] (viewOf (some 0) 1),
    .runCallback 1, .destroyList, .runCallback 0]

theorem clearTwice_allowed : (Sys.init (viewOf none 0)).AllowedRun false clearTwice := by
  have hview : ∀ (p : Program Nat Unit) (view m : Memory Nat) (vs : List Var),
      (p.outcome view).reads = vs → (∀ v ∈ vs, m v = view v) →
      ∀ v ∈ (p.outcome view).reads, m v = view v := fun _ _ _ _ h hv => h ▸ hv
  refine ⟨⟨rfl, rfl⟩, ⟨rfl, Option.some_ne_none _, by decide, .inl rfl⟩, ⟨rfl, by decide, 0, 5, rfl, ?_⟩,
    ⟨rfl, by decide, by decide⟩, ⟨rfl, by decide, ?_⟩, ?_, ?_, ?_, True.intro⟩
  · refine hview _ _ _ [.size, .head] rfl ?_
    intro v hv
    simp only [List.mem_cons, List.not_mem_nil, or_false] at hv
    rcases hv with rfl | rfl <;> rfl
  · refine hview _ _ _ [.size, .head, .head, .size, .head, .head] rfl ?_
    intro v hv
    simp only [List.mem_cons, List.not_mem_nil, or_false] at hv
    rcases hv with rfl | rfl | rfl | rfl | rfl | rfl <;> rfl
  · exact (by decide : 1 < 2)
  · exact ⟨rfl, fun t => by cases t <;> rfl⟩
  · exact (by decide : 0 < 1)

theorem list_spec_clearTwice :
    ∃ s : Sys Bool Nat, (Sys.init (viewOf none 0)).run false clearTwice = s ∧ s.gone = true ∧
      s.queued = [] ∧ s.heap.next = 5 ∧
      s.heap.log.count (.destroyed ⟨0, 0⟩) = 1 ∧ s.heap.log.count (.destroyed ⟨1, 0⟩) = 1 ∧
      ∀ n, s.heap.log.count (.deallocated n 1) = if Built false s.heap.log n then 1 else 0 :=
  ⟨_, rfl, rfl, rfl, rfl, by decide, by decide,
    fun n => ((list_spec false (viewOf none 0) clearTwice_allowed).2.2 rfl rfl n).1⟩

end StmList

end LockfreeStm
