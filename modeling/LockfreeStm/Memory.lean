/-
  File:      LockfreeStm/Memory.lean
  Subject:   memory.hpp: `allocate`, `construct`, `allocate_construct` and their counterparts, and
             what a failed attempt gives back.

  A block is named by the number of its allocation, an object by the element of a block it lives
  in. Every overload that takes something registers a fail callback that gives it back, the
  thread_data overloads only inside a critical section; the overloads that give something back
  only put it off until the commit. A constructor may throw, and the body may catch that.

  * `runBody_spec` -- a body's events, and the callbacks it registers;
  * `pass_failed` -- a failed attempt is its body's events and then its callbacks backwards;
  * `pass_committed`, `takenOver_eq` -- a committed one is its events, and hands over what was put off;
  * **`givesBack_iff`** -- when a failed attempt gives back all it took.
-/
import LockfreeStm.AtomicBase

namespace LockfreeStm

namespace Memory

open AtomicBase

/-! ## 1. Events and callbacks -/

/-- An element of a block. -/
structure Address where
  block : Nat
  index : Nat
deriving DecidableEq

/-- What an allocator's traits are asked to do; `trivial` says that the destructor is. -/
inductive Event where
  | allocated (block count : Nat)
  | constructed (a : Address) (trivial : Bool)
  | destroyed (a : Address)
  | deallocated (block count : Nat)
deriving DecidableEq

/-- The callbacks memory.hpp makes, and those of a container's own. -/
inductive Action where
  | deallocate (block count : Nat)
  | destroy (a : Address)
  | destroyDeallocate (block : Nat)
  /-- for what can be reached from the block; what that is, the container says when it runs it -/
  | container (block : Nat)
deriving DecidableEq

/-- What a callback does when it is run. -/
def Action.events : Action → List Event
  | .deallocate block count => [.deallocated block count]
  | .destroy a => [.destroyed a]
  | .destroyDeallocate block => [.destroyed ⟨block, 0⟩, .deallocated block 1]
  | .container _ => []

/-- A callback; the serial number tells registrations apart. -/
structure Callback where
  serial : Nat
  action : Action
deriving DecidableEq

/-- Memory: the number of the next block, and what was done; as history the number of callbacks
    made and those that were run. -/
structure Heap where
  next : Nat
  log : List Event
  serial : Nat
  ran : List Callback

variable {ν α : Type}

/-- A thread over memory. -/
abbrev State (ν α : Type) := World ν α Callback Heap

/-- Running a callback. -/
def perform (c : Callback) (w : State ν α) : State ν α :=
  { w with env := { w.env with log := w.env.log ++ c.action.events, ran := w.env.ran ++ [c] } }

/-- A call of the allocator's traits that takes effect. -/
def emit (e : Event) (w : State ν α) : State ν α :=
  { w with env := { w.env with log := w.env.log ++ [e] } }

/-- `AllocTraits::allocate(alloc, count)`. -/
def newBlock (count : Nat) (w : State ν α) : State ν α :=
  emit (.allocated w.env.next count) { w with env := { w.env with next := w.env.next + 1 } }

/-! ## 2. memory.hpp -/

/-- Which of its overloads a function is called by. -/
inductive Overload where
  | transaction
  | threadData
deriving DecidableEq

/-- A new callback. -/
def makeCallback (act : Action) (w : State ν α) : Callback × State ν α :=
  (⟨w.env.serial, act⟩, { w with env := { w.env with serial := w.env.serial + 1 } })

/-- `after_fail`; the thread_data overloads register in a critical section only. -/
def register (o : Overload) (act : Action) (w : State ν α) : State ν α :=
  if o = .transaction ∨ w.td.inCriticalSection = true then
    let (c, w) := makeCallback act w
    w.onTd fun td => td.afterFail c
  else w

/-- `allocate`, with a count or without one. -/
def allocate (o : Overload) (count : Nat) (w : State ν α) : State ν α :=
  register o (.deallocate w.env.next count) (newBlock count w)

/-- `construct`. -/
def construct (o : Overload) (a : Address) (trivial throws : Bool) (w : State ν α) : State ν α :=
  if throws then w
  else
    let w := emit (.constructed a trivial) w
    if trivial then w else register o (.destroy a) w

/-- `allocate_construct`: no handler stands around the construction. -/
def allocateConstruct (o : Overload) (trivial throws : Bool) (w : State ν α) : State ν α :=
  let result := w.env.next
  let w := newBlock 1 w
  if throws then w
  else
    let w := emit (.constructed ⟨result, 0⟩ trivial) w
    register o (if trivial then .deallocate result 1 else .destroyDeallocate result) w

/-- `sometime_synchronized_after`. -/
def later (act : Action) (w : State ν α) : State ν α :=
  let (c, w) := makeCallback act w
  w.onTd fun td => td.sometimeSynchronizedAfter c

/-- `deallocate`, with a count or without one. -/
def deallocate (block count : Nat) (w : State ν α) : State ν α := later (.deallocate block count) w

/-- `destroy`. -/
def destroy (a : Address) (trivial : Bool) (w : State ν α) : State ν α :=
  if trivial then w else later (.destroy a) w

/-- `destroy_deallocate`. -/
def destroyDeallocate (block : Nat) (trivial : Bool) (w : State ν α) : State ν α :=
  later (if trivial then .deallocate block 1 else .destroyDeallocate block) w

/-! ## 3. Bodies -/

/-- A call that takes something, and whether the constructor it runs throws. -/
inductive Taking where
  | allocate (count : Nat)
  | construct (a : Address) (trivial throws : Bool)
  | allocateConstruct (trivial throws : Bool)
deriving DecidableEq

/-- A call of a body. An allocation that fails does nothing and is no call. -/
inductive Call where
  | take (o : Overload) (t : Taking)
  | deallocate (block count : Nat)
  | destroy (a : Address) (trivial : Bool)
  | destroyDeallocate (block : Nat) (trivial : Bool)
  /-- with a callback of the container's own -/
  | sometimeSynchronizedAfter (block : Nat)
deriving DecidableEq

def Taking.run (o : Overload) : Taking → State ν α → State ν α
  | .allocate count => Memory.allocate o count
  | .construct a trivial throws => Memory.construct o a trivial throws
  | .allocateConstruct trivial throws => Memory.allocateConstruct o trivial throws

def Call.run : Call → State ν α → State ν α
  | .take o t => t.run o
  | .deallocate block count => Memory.deallocate block count
  | .destroy a trivial => Memory.destroy a trivial
  | .destroyDeallocate block trivial => Memory.destroyDeallocate block trivial
  | .sometimeSynchronizedAfter block => later (.container block)

/-- The calls a body makes, in their order. -/
def runBody (calls : List Call) (w : State ν α) : State ν α := calls.foldl (fun w c => c.run w) w

/-- The blocks a call takes, when `next` is the number of the next one. -/
def Taking.blocks : Taking → Nat
  | .allocate _ => 1
  | .construct .. => 0
  | .allocateConstruct .. => 1

/-- The events of a call. -/
def Taking.events (next : Nat) : Taking → List Event
  | .allocate count => [.allocated next count]
  | .construct a trivial throws => if throws then [] else [.constructed a trivial]
  | .allocateConstruct trivial throws =>
    .allocated next 1 :: if throws then [] else [.constructed ⟨next, 0⟩ trivial]

/-- The fail callback of a call. -/
def Taking.action (next : Nat) : Taking → Option Action
  | .allocate count => some (.deallocate next count)
  | .construct a trivial throws => if throws || trivial then none else some (.destroy a)
  | .allocateConstruct trivial throws =>
    if throws then none
    else some (if trivial then .deallocate next 1 else .destroyDeallocate next)

/-- What `sometime_synchronized_after` is given by a call. -/
def Call.laterAction : Call → Option Action
  | .take .. => none
  | .deallocate block count => some (.deallocate block count)
  | .destroy a trivial => if trivial then none else some (.destroy a)
  | .destroyDeallocate block trivial =>
    some (if trivial then .deallocate block 1 else .destroyDeallocate block)
  | .sometimeSynchronizedAfter block => some (.container block)

def Call.blocks : Call → Nat
  | .take _ t => t.blocks
  | _ => 0

def Call.events (next : Nat) : Call → List Event
  | .take _ t => t.events next
  | _ => []

def Call.action (next : Nat) : Call → Option Action
  | .take _ t => t.action next
  | _ => none

/-- The fail callback a call registers, as the one with this number. -/
def Call.failCallbacks (next serial : Nat) (c : Call) : List Callback :=
  (c.action next).toList.map fun act => ⟨serial, act⟩

/-- What a call puts off until the commit. -/
def Call.laterCallbacks (serial : Nat) (c : Call) : List Callback :=
  c.laterAction.toList.map fun act => ⟨serial, act⟩

/-- The callbacks a call makes. -/
def Call.serials (next : Nat) (c : Call) : Nat :=
  (c.action next).toList.length + c.laterAction.toList.length

/-- The events of a body. -/
def bodyEvents : Nat → List Call → List Event
  | _, [] => []
  | next, c :: cs => c.events next ++ bodyEvents (next + c.blocks) cs

/-- What the fail callbacks of a body do, in the order they are registered in. -/
def bodyActions : Nat → List Call → List Action
  | _, [] => []
  | next, c :: cs => (c.action next).toList ++ bodyActions (next + c.blocks) cs

/-- The fail callbacks of a body. -/
def bodyCallbacks : Nat → Nat → List Call → List Callback
  | _, _, [] => []
  | next, serial, c :: cs =>
    c.failCallbacks next serial ++ bodyCallbacks (next + c.blocks) (serial + c.serials next) cs

/-- What a body puts off until the commit. -/
def bodyLater : Nat → Nat → List Call → List Callback
  | _, _, [] => []
  | next, serial, c :: cs =>
    c.laterCallbacks serial ++ bodyLater (next + c.blocks) (serial + c.serials next) cs

theorem bodyCallbacks_actions (next serial : Nat) (calls : List Call) :
    (bodyCallbacks next serial calls).map (·.action) = bodyActions next calls := by
  induction calls generalizing next serial with
  | nil => rfl
  | cons c cs ih =>
    rw [bodyCallbacks, bodyActions, List.map_append, ih, Call.failCallbacks, List.map_map]
    exact congrArg (· ++ _) (List.map_id _)

theorem bodyLater_actions (next serial : Nat) (calls : List Call) :
    (bodyLater next serial calls).map (·.action) = calls.filterMap Call.laterAction := by
  induction calls generalizing next serial with
  | nil => rfl
  | cons c cs ih =>
    rw [bodyLater, List.map_append, ih, Call.laterCallbacks, List.map_map]
    cases h : c.laterAction with
    | none => simp [h]
    | some act => simp [h]

theorem bodyLater_eq_nil (next serial : Nat) {calls : List Call} (h : ∀ c ∈ calls, c.laterAction = none) :
    bodyLater next serial calls = [] := by
  rw [← List.map_eq_nil_iff, bodyLater_actions]
  exact List.filterMap_eq_nil_iff.mpr h

section Spec

variable {w : State ν α}

theorem register_eq {o : Overload} {act : Action} (h : w.td.inCriticalSection = true) :
    register o act w =
      ⟨{ w.td with failCallbacks := w.td.failCallbacks ++ [⟨w.env.serial, act⟩] },
        { w.env with serial := w.env.serial + 1 }⟩ := by
  rw [register, if_pos (.inr h)]
  rfl

/-- Outside of a critical section the thread_data overload registers nothing. -/
theorem allocateConstruct_outside (trivial throws : Bool) (h : w.td.inCriticalSection = false) :
    allocateConstruct .threadData trivial throws w =
      ⟨w.td, { w.env with
        next := w.env.next + 1
        log := w.env.log ++ (Taking.allocateConstruct trivial throws).events w.env.next }⟩ := by
  have hno : ¬ (Overload.threadData = .transaction ∨ w.td.inCriticalSection = true) := by simp [h]
  cases throws with
  | true => simp [allocateConstruct, newBlock, emit, Taking.events]
  | false => simp [allocateConstruct, register, newBlock, emit, Taking.events, h]

/-- **One call**: its events, its callback, and nothing else. -/
theorem Call.run_eq (c : Call) (h : w.td.inCriticalSection = true) :
    c.run w =
      ⟨{ w.td with
          failCallbacks := w.td.failCallbacks ++ c.failCallbacks w.env.next w.env.serial
          workingEpoch := w.td.workingEpoch ++ c.laterCallbacks w.env.serial },
        { w.env with
          next := w.env.next + c.blocks
          log := w.env.log ++ c.events w.env.next
          serial := w.env.serial + c.serials w.env.next }⟩ := by
  have hreg : ∀ {o : Overload} {act : Action} {env : Heap},
      register o act ⟨w.td, env⟩ =
        ⟨{ w.td with failCallbacks := w.td.failCallbacks ++ [⟨env.serial, act⟩] },
          { env with serial := env.serial + 1 }⟩ := register_eq h
  cases c with
  | take o t =>
    cases t with
    | allocate count =>
      simp [Call.run, Taking.run, Memory.allocate, newBlock, emit, hreg, Call.failCallbacks,
        Call.laterCallbacks, Call.serials, Call.action, Call.laterAction, Call.blocks, Call.events,
        Taking.action, Taking.blocks, Taking.events]
    | construct a trivial throws =>
      cases throws <;> cases trivial <;>
        simp [Call.run, Taking.run, Memory.construct, emit, hreg, Call.failCallbacks,
          Call.laterCallbacks, Call.serials, Call.action, Call.laterAction, Call.blocks, Call.events, Taking.action,
          Taking.blocks, Taking.events]
    | allocateConstruct trivial throws =>
      cases throws <;> cases trivial <;>
        simp [Call.run, Taking.run, Memory.allocateConstruct, newBlock, emit, hreg,
          Call.failCallbacks, Call.laterCallbacks, Call.serials, Call.action, Call.laterAction, Call.blocks,
          Call.events, Taking.action, Taking.blocks, Taking.events]
  | deallocate block count =>
    simp [Call.run, Memory.deallocate, later, makeCallback, World.onTd,
      TlsData.sometimeSynchronizedAfter, Call.failCallbacks, Call.laterCallbacks, Call.serials,
      Call.action, Call.laterAction, Call.blocks, Call.events]
  | destroy a trivial =>
    cases trivial <;>
      simp [Call.run, Memory.destroy, later, makeCallback, World.onTd,
        TlsData.sometimeSynchronizedAfter, Call.failCallbacks, Call.laterCallbacks, Call.serials,
        Call.action, Call.laterAction, Call.blocks, Call.events]
  | destroyDeallocate block trivial =>
    cases trivial <;>
      simp [Call.run, Memory.destroyDeallocate, later, makeCallback, World.onTd,
        TlsData.sometimeSynchronizedAfter, Call.failCallbacks, Call.laterCallbacks, Call.serials,
        Call.action, Call.laterAction, Call.blocks, Call.events]
  | sometimeSynchronizedAfter block =>
    simp [Call.run, later, makeCallback, World.onTd, TlsData.sometimeSynchronizedAfter, Call.failCallbacks,
      Call.laterCallbacks, Call.serials, Call.action, Call.laterAction, Call.blocks, Call.events]

/-- The number of blocks a body takes. -/
def bodyBlocks (calls : List Call) : Nat := (calls.map Call.blocks).sum

/-- The number of callbacks it makes. -/
def bodySerials : Nat → List Call → Nat
  | _, [] => 0
  | next, c :: cs => c.serials next + bodySerials (next + c.blocks) cs

/-- **A body**: its events, its callbacks, and nothing else. -/
theorem runBody_spec (calls : List Call) (h : w.td.inCriticalSection = true) :
    runBody calls w =
      ⟨{ w.td with
          failCallbacks := w.td.failCallbacks ++ bodyCallbacks w.env.next w.env.serial calls
          workingEpoch := w.td.workingEpoch ++ bodyLater w.env.next w.env.serial calls },
        { w.env with
          next := w.env.next + bodyBlocks calls
          log := w.env.log ++ bodyEvents w.env.next calls
          serial := w.env.serial + bodySerials w.env.next calls }⟩ := by
  induction calls generalizing w with
  | nil => simp [runBody, bodyCallbacks, bodyLater, bodyBlocks, bodyEvents, bodySerials]
  | cons c cs ih =>
    have hrun := c.run_eq h
    have hcs : (c.run w).td.inCriticalSection = true := by rw [hrun]; exact h
    have hbody := ih hcs
    have hcons : runBody (c :: cs) w = runBody cs (c.run w) := rfl
    rw [hcons, hbody, hrun]
    simp only [bodyCallbacks, bodyLater, bodyBlocks, bodyEvents, bodySerials, List.append_assoc,
      List.map_cons, List.sum_cons, Nat.add_assoc]

end Spec

/-! ## 4. Attempts -/

theorem foldl_perform (cs : List Callback) (w : State ν α) :
    cs.foldl (fun w c => perform c w) w =
      { w with env := { w.env with
          log := w.env.log ++ cs.flatMap (·.action.events), ran := w.env.ran ++ cs } } := by
  induction cs generalizing w with
  | nil => simp
  | cons c cs ih =>
    rw [List.foldl_cons, ih]
    simp [perform]

/-- The events that do away with something: those of the callbacks, backwards. -/
def undone (acts : List Action) : List Event := acts.reverse.flatMap Action.events

variable {w : State ν α} {version : Epoch} {calls : List Call} {e : World.PassEnd}

theorem validStartState_lists (hs : w.td.validStartState = true) :
    w.td.failCallbacks = [] ∧ w.td.workingEpoch = [] := by
  simp only [TlsData.validStartState, Bool.and_eq_true, List.isEmpty_iff] at hs
  exact ⟨hs.1.2, hs.2⟩

theorem inCriticalSection_accessLock (w : State ν α) (hv : version ≠ offState) :
    (w.onTd fun td => td.accessLock version).td.inCriticalSection = true := by
  simpa [World.onTd, TlsData.inCriticalSection, TlsData.accessLock] using hv

/-- What a failure makes of the thread and of memory. -/
theorem pass_failed_eq (calls : List Call) (hs : w.td.validStartState = true) (hv : version ≠ offState)
    (he : e ≠ .committed) :
    (w.pass perform .readWrite version (runBody calls) e).td.validStartState = true ∧
      (w.pass perform .readWrite version (runBody calls) e).td.inCriticalSection = false ∧
      (w.pass perform .readWrite version (runBody calls) e).env.next = w.env.next + bodyBlocks calls ∧
      (w.pass perform .readWrite version (runBody calls) e).env.log =
        w.env.log ++ (bodyEvents w.env.next calls ++ undone (bodyActions w.env.next calls)) := by
  obtain ⟨hfc, -⟩ := validStartState_lists hs
  have hbody := runBody_spec calls (inCriticalSection_accessLock w hv)
  have hundo : ((bodyCallbacks w.env.next w.env.serial calls).reverse.flatMap
      (·.action.events)) = undone (bodyActions w.env.next calls) := by
    rw [undone, ← bodyCallbacks_actions w.env.next w.env.serial, ← List.map_reverse,
      List.flatMap_map]
  have hfail : ∀ w', w' = (runBody calls (w.onTd fun td =>
      td.accessLock version)).txFailureNoBackoff perform .readWrite →
      w'.td.validStartState = true ∧ w'.td.inCriticalSection = false ∧
        w'.env.next = w.env.next + bodyBlocks calls ∧ w'.env.log =
        w.env.log ++ (bodyEvents w.env.next calls ++ undone (bodyActions w.env.next calls)) := by
    intro w' hw
    rw [hbody, World.txFailureNoBackoff, if_pos (by decide), World.doFailCallbacks, foldl_perform] at hw
    subst hw
    refine ⟨rfl, rfl, rfl, ?_⟩
    simp only [World.onTd, TlsData.accessLock, TlsData.accessUnlock, TlsData.clearReadWriteSets,
      TlsData.clearWorkingEpoch, hfc, List.nil_append, hundo, List.append_assoc]
  cases e with
  | committed => exact absurd rfl he
  | commitFailed => exact hfail _ rfl
  | txRetry => exact hfail _ rfl
  | exception =>
    -- `tx_state` is all that an escaping exception changes besides
    obtain ⟨hstart, hcrit, hnext, hlog⟩ := hfail _ rfl
    exact ⟨hstart, hcrit, hnext, hlog⟩

/-- **A failed attempt is its body's events and then its callbacks backwards.** -/
theorem pass_failed (hs : w.td.validStartState = true) (hv : version ≠ offState)
    (he : e ≠ .committed) :
    (w.pass perform .readWrite version (runBody calls) e).env.log =
      w.env.log ++ (bodyEvents w.env.next calls ++ undone (bodyActions w.env.next calls)) :=
  (pass_failed_eq calls hs hv he).2.2.2

/-- **A committed attempt is its body's events**; its fail callbacks are cleared and not run. -/
theorem pass_committed (w : State ν α) (calls : List Call) (hv : version ≠ offState) :
    (w.pass perform .readWrite version (runBody calls) .committed).td.validStartState = true ∧
      (w.pass perform .readWrite version (runBody calls) .committed).td.inCriticalSection = false ∧
      (w.pass perform .readWrite version (runBody calls) .committed).env.next =
        w.env.next + bodyBlocks calls ∧
      (w.pass perform .readWrite version (runBody calls) .committed).env.log =
        w.env.log ++ bodyEvents w.env.next calls := by
  have hk : TxKind.readWrite ≠ .readOnly := by decide
  rw [World.pass, World.finish, World.txSuccess, runBody_spec calls (inCriticalSection_accessLock w hv),
    if_pos hk]
  exact ⟨rfl, rfl, rfl, rfl⟩

/-- What `reclaim` takes over when the attempt commits: the working epoch as the body has left it. -/
def takenOver (version : Epoch) (calls : List Call) (w : State ν α) : List Callback :=
  (runBody calls (w.onTd fun td => td.accessLock version)).td.workingEpoch

theorem takenOver_eq (calls : List Call) (hs : w.td.validStartState = true) (hv : version ≠ offState) :
    takenOver version calls w = bodyLater w.env.next w.env.serial calls := by
  rw [takenOver, runBody_spec calls (inCriticalSection_accessLock w hv)]
  exact congrArg (· ++ _) (validStartState_lists hs).2

/-- The blocks a throwing constructor leaves behind: no callback knows of them. -/
def Call.leaks : Call → Bool
  | .take _ (.allocateConstruct _ throws) => throws
  | _ => false

def leaked : Nat → List Call → List Event
  | _, [] => []
  | next, c :: cs =>
    (if c.leaks then [.allocated next 1] else []) ++ leaked (next + c.blocks) cs

/-- A body constructs in blocks that exist. -/
def Allowed : Nat → List Call → Prop
  | _, [] => True
  | next, c :: cs =>
    (∀ o a trivial throws, c = .take o (.construct a trivial throws) → a.block < next) ∧
      Allowed (next + c.blocks) cs

/-- **The attempt with these events gave back what it took.** -/
structure GivesBack (log : List Event) : Prop where
  /-- what was allocated, and nothing else, was deallocated, once -/
  blocks : ∀ block count, log.count (.deallocated block count) =
    if .allocated block count ∈ log then 1 else 0
  /-- an address was destroyed as often as an object with a destructor was constructed there -/
  objects : ∀ a, log.count (.destroyed a) = log.count (.constructed a false)
  /-- nothing is destroyed in a block that was deallocated -/
  order : log.Pairwise fun x y => ∀ a count, x = .deallocated a.block count → y ≠ .destroyed a

/-- An event of a body. -/
def Event.Takes : Event → Prop
  | .allocated .. => True
  | .constructed .. => True
  | _ => False

theorem Call.events_takes {c : Call} {next : Nat} : ∀ x ∈ c.events next, x.Takes := by
  intro x hx
  cases c with
  | take o t =>
    cases t with
    | allocate count =>
      obtain rfl := List.mem_singleton.mp hx
      trivial
    | construct a trivial throws =>
      cases throws with
      | true => cases hx
      | false => obtain rfl := List.mem_singleton.mp hx; trivial
    | allocateConstruct trivial throws =>
      rcases List.mem_cons.mp hx with rfl | hx
      · trivial
      · cases throws with
        | true => cases hx
        | false => obtain rfl := List.mem_singleton.mp hx; trivial
  | deallocate block count => cases hx
  | destroy a trivial => cases hx
  | destroyDeallocate block trivial => cases hx
  | sometimeSynchronizedAfter block => cases hx

theorem bodyEvents_takes {next : Nat} {calls : List Call} :
    ∀ x ∈ bodyEvents next calls, x.Takes := by
  induction calls generalizing next with
  | nil => intro x hx; cases hx
  | cons c cs ih =>
    intro x hx
    rcases List.mem_append.mp hx with hx | hx
    · exact Call.events_takes x hx
    · exact ih x hx

theorem undone_not_takes {acts : List Action} : ∀ x ∈ undone acts, ¬ x.Takes := by
  intro x hx ht
  obtain ⟨act, -, hx⟩ := List.mem_flatMap.mp hx
  cases act with
  | deallocate block count => obtain rfl := List.mem_singleton.mp hx; exact ht
  | destroy a => obtain rfl := List.mem_singleton.mp hx; exact ht
  | destroyDeallocate block =>
    simp only [Action.events, List.mem_cons, List.not_mem_nil, or_false] at hx
    rcases hx with rfl | rfl <;> exact ht
  | container block => cases hx

theorem count_undone {acts : List Action} {x : Event} :
    (undone acts).count x = (acts.flatMap Action.events).count x :=
  ((List.reverse_perm acts).flatMap_right Action.events).count_eq x

/-- **The books of a body**: each block taken has its callback or is leaked. -/
theorem count_allocated {next : Nat} {calls : List Call} {block count : Nat} :
    (bodyEvents next calls).count (.allocated block count) =
      ((bodyActions next calls).flatMap Action.events).count (.deallocated block count) +
        (leaked next calls).count (.allocated block count) := by
  induction calls generalizing next with
  | nil => rfl
  | cons c cs ih =>
    have hc : (c.events next).count (.allocated block count) =
        ((c.action next).toList.flatMap Action.events).count (.deallocated block count) +
          (if c.leaks then [Event.allocated next 1] else []).count (.allocated block count) := by
      cases c with
      | take o t =>
        cases t with
        | allocate n =>
          simp [Call.events, Taking.events, Call.action, Taking.action, Call.leaks, Action.events,
            List.count_singleton]
        | construct a trivial throws =>
          cases throws <;> cases trivial <;>
            simp [Call.events, Taking.events, Call.action, Taking.action, Call.leaks, Action.events]
        | allocateConstruct trivial throws =>
          cases throws <;> cases trivial <;>
            simp [Call.events, Taking.events, Call.action, Taking.action, Call.leaks,
              Action.events, List.count_cons]
      | deallocate block count => rfl
      | destroy a trivial => rfl
      | destroyDeallocate block trivial => rfl
      | sometimeSynchronizedAfter block => rfl
    rw [bodyEvents, bodyActions, leaked, List.flatMap_append, List.count_append, List.count_append,
      List.count_append, hc, ih]
    omega

/-- Each object with a destructor has its callback. -/
theorem count_constructed {next : Nat} {calls : List Call} {a : Address} :
    (bodyEvents next calls).count (.constructed a false) =
      ((bodyActions next calls).flatMap Action.events).count (.destroyed a) := by
  induction calls generalizing next with
  | nil => rfl
  | cons c cs ih =>
    have hc : (c.events next).count (.constructed a false) =
        ((c.action next).toList.flatMap Action.events).count (.destroyed a) := by
      cases c with
      | take o t =>
        cases t with
        | allocate n =>
          simp [Call.events, Taking.events, Call.action, Taking.action, Action.events]
        | construct b trivial throws =>
          cases throws <;> cases trivial <;>
            simp [Call.events, Taking.events, Call.action, Taking.action, Action.events,
              List.count_singleton]
        | allocateConstruct trivial throws =>
          cases throws <;> cases trivial <;>
            simp [Call.events, Taking.events, Call.action, Taking.action, Action.events,
              List.count_cons]
      | deallocate block count => rfl
      | destroy b trivial => rfl
      | destroyDeallocate block trivial => rfl
      | sometimeSynchronizedAfter block => rfl
    rw [bodyEvents, bodyActions, List.flatMap_append, List.count_append, List.count_append, hc, ih]

/-- A body's blocks are new. -/
theorem le_of_allocated {next : Nat} {calls : List Call} {block count : Nat}
    (h : .allocated block count ∈ bodyEvents next calls) : next ≤ block := by
  induction calls generalizing next with
  | nil => cases h
  | cons c cs ih =>
    rcases List.mem_append.mp h with h | h
    · cases c with
      | take o t =>
        cases t with
        | allocate n => cases List.mem_singleton.mp h; exact Nat.le_refl _
        | construct a trivial throws => cases throws <;> simp [Call.events, Taking.events] at h
        | allocateConstruct trivial throws =>
          cases throws <;> simp [Call.events, Taking.events] at h <;> omega
      | deallocate b n => cases h
      | destroy a trivial => cases h
      | destroyDeallocate b trivial => cases h
      | sometimeSynchronizedAfter b => cases h
    · have := ih h
      omega

/-- No two blocks have one number. -/
theorem count_allocated_le (next : Nat) (calls : List Call) (block count : Nat) :
    (bodyEvents next calls).count (.allocated block count) ≤ 1 := by
  induction calls generalizing next with
  | nil => exact Nat.zero_le _
  | cons c cs ih =>
    have hrest : block < next + c.blocks →
        (bodyEvents (next + c.blocks) cs).count (.allocated block count) = 0 := by
      intro hlt
      refine List.count_eq_zero_of_not_mem fun hm => ?_
      exact absurd (le_of_allocated hm) (Nat.not_le_of_lt hlt)
    have hc : (c.events next).count (.allocated block count) ≤ 1 ∧
        ((c.events next).count (.allocated block count) ≠ 0 → block < next + c.blocks) := by
      cases c with
      | take o t =>
        cases t with
        | allocate n =>
          by_cases hb : next = block ∧ n = count <;>
            simp [Call.events, Taking.events, Call.blocks, Taking.blocks, hb]
        | construct a trivial throws =>
          cases throws <;> simp [Call.events, Taking.events, Call.blocks, Taking.blocks]
        | allocateConstruct trivial throws =>
          by_cases hb : next = block ∧ 1 = count <;> cases throws <;>
            simp [Call.events, Taking.events, Call.blocks, Taking.blocks, hb] <;> omega
      | deallocate b n => exact ⟨Nat.zero_le _, fun h => absurd rfl h⟩
      | destroy a trivial => exact ⟨Nat.zero_le _, fun h => absurd rfl h⟩
      | destroyDeallocate b trivial => exact ⟨Nat.zero_le _, fun h => absurd rfl h⟩
      | sometimeSynchronizedAfter b => exact ⟨Nat.zero_le _, fun h => absurd rfl h⟩
    rw [bodyEvents, List.count_append]
    by_cases h0 : (c.events next).count (.allocated block count) = 0
    · rw [h0, Nat.zero_add]
      exact ih _
    · rw [hrest (hc.2 h0)]
      exact hc.1

theorem undone_append {xs ys : List Action} : undone (xs ++ ys) = undone ys ++ undone xs := by
  rw [undone, List.reverse_append, List.flatMap_append]
  rfl

theorem mem_undone {acts : List Action} {x : Event} :
    x ∈ undone acts ↔ ∃ act ∈ acts, x ∈ act.events := by
  rw [undone, List.mem_flatMap]
  simp only [List.mem_reverse]

/-- A call gives back its own block, and destroys in blocks that exist. -/
theorem Call.undone_bounds {c : Call} {next : Nat} {x : Event}
    (ha : ∀ o a trivial throws, c = .take o (.construct a trivial throws) → a.block < next)
    (h : x ∈ undone (c.action next).toList) :
    (∀ block count, x = .deallocated block count → next ≤ block) ∧
      (∀ a, x = .destroyed a → a.block < next + c.blocks) := by
  obtain ⟨act, hact, hx⟩ := mem_undone.mp h
  have hact : c.action next = some act := Option.mem_toList.mp hact
  cases c with
  | take o t =>
    cases t with
    | allocate n =>
      cases hact
      obtain rfl := List.mem_singleton.mp hx
      exact ⟨fun _ _ e => (by cases e; exact Nat.le_refl _), fun _ e => by cases e⟩
    | construct a trivial throws =>
      cases throws <;> cases trivial <;> cases hact
      obtain rfl := List.mem_singleton.mp hx
      exact ⟨fun _ _ e => (by cases e), fun _ e => by cases e; exact ha o a false false rfl⟩
    | allocateConstruct trivial throws =>
      cases throws <;> cases trivial <;> cases hact
      · rcases List.mem_cons.mp hx with rfl | hx
        · exact ⟨fun _ _ e => (by cases e), fun _ e => by cases e; exact Nat.lt_succ_self _⟩
        · obtain rfl := List.mem_singleton.mp hx
          exact ⟨fun _ _ e => (by cases e; exact Nat.le_refl _), fun _ e => by cases e⟩
      · obtain rfl := List.mem_singleton.mp hx
        exact ⟨fun _ _ e => (by cases e; exact Nat.le_refl _), fun _ e => by cases e⟩
  | deallocate block count => cases hact
  | destroy a trivial => cases hact
  | destroyDeallocate block trivial => cases hact
  | sometimeSynchronizedAfter block => cases hact

theorem le_of_deallocated {next : Nat} {calls : List Call} (ha : Allowed next calls)
    {block count : Nat} (h : .deallocated block count ∈ undone (bodyActions next calls)) :
    next ≤ block := by
  induction calls generalizing next with
  | nil => cases h
  | cons c cs ih =>
    rw [bodyActions, undone_append] at h
    rcases List.mem_append.mp h with h | h
    · have := ih ha.2 h
      omega
    · exact (Call.undone_bounds ha.1 h).1 block count rfl

/-- **Run backwards, the callbacks destroy an object before they free its block**: a block taken
    later cannot be the one an object registered before lives in. -/
theorem undone_order {next : Nat} {calls : List Call} (ha : Allowed next calls) :
    (undone (bodyActions next calls)).Pairwise fun x y =>
      ∀ a count, x = .deallocated a.block count → y ≠ .destroyed a := by
  induction calls generalizing next with
  | nil => exact .nil
  | cons c cs ih =>
    rw [bodyActions, undone_append, List.pairwise_append]
    refine ⟨ih ha.2, ?_, ?_⟩
    · -- one callback
      cases hact : c.action next with
      | none => exact .nil
      | some act =>
        cases act with
        | deallocate block count => exact List.pairwise_singleton _ _
        | destroy a => exact List.pairwise_singleton _ _
        | destroyDeallocate block =>
          refine List.pairwise_pair.mpr fun a count h => ?_
          cases h
        | container block => exact .nil
    · intro x hx y hy a count hxe hye
      subst hxe
      have hle := le_of_deallocated ha.2 hx
      have hlt := (Call.undone_bounds ha.1 hy).2 a hye
      omega

/-- The events of an attempt that failed. -/
def eventsSince (w w' : State ν α) : List Event := w'.env.log.drop w.env.log.length

theorem leaked_eq_nil (next : Nat) {calls : List Call} :
    leaked next calls = [] ↔ ∀ c ∈ calls, c.leaks = false := by
  induction calls generalizing next with
  | nil => simp [leaked]
  | cons c cs ih =>
    rw [leaked, List.append_eq_nil_iff, ih, List.forall_mem_cons]
    cases c.leaks <;> simp

theorem allocated_of_leaked {next : Nat} {calls : List Call} :
    ∀ x ∈ leaked next calls, ∃ block count, x = .allocated block count := by
  induction calls generalizing next with
  | nil => intro x hx; cases hx
  | cons c cs ih =>
    intro x hx
    rcases List.mem_append.mp hx with hx | hx
    · split at hx
      · exact ⟨next, 1, List.mem_singleton.mp hx⟩
      · cases hx
    · exact ih x hx

/-- **When a failed attempt gives back all it took**: exactly if no constructor run by an
    `allocate_construct` threw. -/
theorem givesBack_iff (hs : w.td.validStartState = true) (hv : version ≠ offState)
    (ha : Allowed w.env.next calls) (he : e ≠ .committed) :
    GivesBack (eventsSince w (w.pass perform .readWrite version (runBody calls) e)) ↔
      ∀ c ∈ calls, c.leaks = false := by
  let n := w.env.next
  have hlog : eventsSince w (w.pass perform .readWrite version (runBody calls) e) =
      bodyEvents n calls ++ undone (bodyActions n calls) := by
    rw [eventsSince, pass_failed hs hv he, List.drop_left]
  have hbody : ∀ {x : Event}, ¬ x.Takes → (bodyEvents n calls).count x = 0 := fun hx =>
    List.count_eq_zero_of_not_mem fun hm => hx (bodyEvents_takes _ hm)
  have hundo : ∀ {x : Event}, x.Takes → (undone (bodyActions n calls)).count x = 0 := fun hx =>
    List.count_eq_zero_of_not_mem fun hm => undone_not_takes _ hm hx
  have halloc : ∀ block count, (bodyEvents n calls).count (.allocated block count) =
      (undone (bodyActions n calls)).count (.deallocated block count) +
        (leaked n calls).count (.allocated block count) := by
    intro block count
    rw [count_undone]
    exact count_allocated
  -- the two sides of the books of blocks, over the whole attempt
  have hmem : ∀ block count, (if Event.allocated block count ∈ bodyEvents n calls ++
      undone (bodyActions n calls) then 1 else 0) =
        (bodyEvents n calls).count (.allocated block count) := by
    intro block count
    have hle := count_allocated_le n calls block count
    by_cases hm : Event.allocated block count ∈ bodyEvents n calls
    · have hpos := List.count_pos_iff.mpr hm
      rw [if_pos (List.mem_append_left _ hm)]
      omega
    · rw [if_neg, List.count_eq_zero_of_not_mem hm]
      intro h
      rcases List.mem_append.mp h with h | h
      · exact hm h
      · exact undone_not_takes _ h trivial
  rw [hlog, ← leaked_eq_nil n]
  constructor
  · intro h
    refine List.eq_nil_iff_forall_not_mem.mpr fun x hx => ?_
    obtain ⟨block, count, rfl⟩ := allocated_of_leaked x hx
    have hb := h.blocks block count
    rw [hmem, List.count_append, hbody (x := .deallocated block count) id] at hb
    have := halloc block count
    have hpos := List.count_pos_iff.mpr hx
    omega
  · intro hl
    refine ⟨fun block count => ?_, fun a => ?_, ?_⟩
    · rw [hmem, List.count_append, hbody (x := .deallocated block count) id, halloc, hl]
      simp
    · rw [List.count_append, List.count_append, hbody (x := .destroyed a) id,
        hundo (x := .constructed a false) trivial, count_undone, count_constructed, Nat.zero_add,
        Nat.add_zero]
    · refine List.pairwise_append.mpr ⟨?_, undone_order ha, ?_⟩
      · refine List.pairwise_of_forall_mem_list fun x hx y _ a count hxe => ?_
        subst hxe
        exact absurd (bodyEvents_takes _ hx) id
      · intro x hx y _ a count hxe
        subst hxe
        exact absurd (bodyEvents_takes _ hx) id

/-- A new thread over new memory. -/
def initial : State Nat Nat := ⟨.init, ⟨0, [], 0, []⟩⟩

/-- Allocate three elements, construct the second one, and put off its destruction. -/
def takesThree : List Call :=
  [.take .transaction (.allocate 3), .take .threadData (.construct ⟨0, 1⟩ false false),
    .destroy ⟨0, 1⟩ false]

/-- An aborted attempt with that body. -/
theorem givesBack_iff_aborted :
    GivesBack (eventsSince initial
      (initial.pass perform .readWrite 5 (runBody takesThree) .txRetry)) ↔
      ∀ c ∈ takesThree, c.leaks = false :=
  givesBack_iff rfl (by decide)
    ⟨fun _ _ _ _ h => (by cases h), fun _ _ _ _ h => (by cases h; exact Nat.one_pos),
      fun _ _ _ _ h => (by cases h), trivial⟩ (by decide)

/-- The block of an object whose constructor throws is never deallocated. -/
theorem allocateConstruct_leaks :
    ¬ GivesBack (eventsSince initial (initial.pass perform .readWrite 5
      (runBody [.take .transaction (.allocateConstruct false true)]) .exception)) := by
  intro h
  exact absurd (h.blocks 0 1) (by decide)

end Memory

end LockfreeStm
