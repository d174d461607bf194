/-
  File:      LockfreeStm/ThreadSynchronization.lean
  Subject:   THE LIST OF THE THREADS' NODES IS NEVER SCANNED WHILE IT CHANGES, AND FORGETS NO THREAD
             (`thread_synchronization_node` of detail/thread_synchronization.hpp).

  Every thread has a node in a global list. A thread that synchronizes locks only its own node, for
  reading, and walks the list; a constructor or destructor locks the list and then every node in it,
  for writing. The constructor locks its own node before the list and gives it back with the others,
  the destructor the other way round.

  `Registry.step` is one access of one thread: a lock taken or given back, one entry of the list looked
  at, one change of the list. A mutex is a `RwLock`; giving back a lock one does not have leads to
  `failed`. `taken` and `released` are history: the locks that the running or last constructor or
  destructor of a thread has locked and unlocked, in order.

  * `RegistryInv`, `registryInv_reach` -- who holds what at each place, and who is in the list.
  * `thread_registry_safe` -- **the main result**.
-/
import LockfreeStm.Word
import LockfreeStm.PodVector
import LockfreeStm.Library.RwLock
import Mathlib.Logic.Function.Basic
import Mathlib.Data.List.Perm.Basic
import Mathlib.Data.List.Nodup

namespace LockfreeStm

/-! ## 1. The code -/

/-- Who calls `lock_all` and `unlock_all`. -/
inductive NodeCall where
  | constructor
  | destructor
deriving DecidableEq

/-- Where the thread of a node stands. -/
inductive NodePc (τ : Type) where
  /-- the node is not constructed, or destroyed -/
  | absent
  /-- the constructor, before `mut.lock()` -/
  | lockOwn
  -- lock_all: before the lock of the list, and at entry `i` of the list
  | lockList (call : NodeCall)
  | lockAll (call : NodeCall) (i : Nat)
  /-- the constructor, in `nodes.emplace_back(this)` -/
  | emplaceBack
  -- the destructor: the loop that looks for the node, and `nodes.unordered_erase(&node)`
  | find (i : Nat)
  | unorderedErase (i : Nat)
  -- unlock_all: at entry `i` of the list, and before the unlock of the list
  | unlockAll (call : NodeCall) (i : Nat)
  | unlockList (call : NodeCall)
  /-- the destructor, before `mut.unlock()` -/
  | unlockOwn
  /-- the constructor has returned -/
  | live
  -- synchronize_min_epoch
  | lockShared (epoch : Epoch)
  | waitMinEpoch (epoch : Epoch) (i : Nat) (result : Epoch)
  | waitOnEpoch (epoch : Epoch) (node : τ) (i : Nat) (result : Epoch)
  | unlockShared
  /-- a lock has been given back that the thread did not have -/
  | failed
deriving DecidableEq

/-- What the thread of a node may call. -/
inductive NodeRequest where
  | construct
  | destruct
  | accessLock (epoch : Epoch)
  | accessUnlock
  | synchronizeMinEpoch (epoch : Epoch)
deriving DecidableEq

/-- The list, the mutexes and the threads. `none` names the mutex of the list. -/
structure Registry (τ : Type) where
  nodes : PodVector τ
  mutex : Option τ → RwLock τ
  active : τ → Epoch
  pc : τ → NodePc τ
  taken : τ → List (Option τ)
  released : τ → List (Option τ)

namespace Registry

variable {τ : Type} [DecidableEq τ]

/-- No node yet. -/
def init : Registry τ where
  nodes := .empty
  mutex _ := .free
  active _ := offState
  pc _ := .absent
  taken _ := []
  released _ := []

/-- The thread goes to `pc'`. -/
def goto (s : Registry τ) (t : τ) (pc' : NodePc τ) : Registry τ :=
  { s with pc := Function.update s.pc t pc' }

/-- `lock()`, which waits until the mutex is free. -/
def lock (s : Registry τ) (t : τ) (m : Option τ) (pc' : NodePc τ) : Option (Registry τ) :=
  ((s.mutex m).lock t).map fun l =>
    { s with
      mutex := Function.update s.mutex m l
      taken := Function.update s.taken t (s.taken t ++ [m])
      pc := Function.update s.pc t pc' }

/-- `unlock()`. -/
def unlock (s : Registry τ) (t : τ) (m : Option τ) (pc' : NodePc τ) : Registry τ :=
  match (s.mutex m).unlock t with
  | none => s.goto t .failed
  | some l =>
      { s with
        mutex := Function.update s.mutex m l
        released := Function.update s.released t (s.released t ++ [m])
        pc := Function.update s.pc t pc' }

/-- A constructor or destructor begins: it has locked nothing yet. -/
def beginCall (s : Registry τ) (t : τ) (pc' : NodePc τ) : Registry τ :=
  { s with
    pc := Function.update s.pc t pc'
    taken := Function.update s.taken t []
    released := Function.update s.released t [] }

/-- The store to `active`. -/
def storeActive (s : Registry τ) (t : τ) (e : Epoch) : Registry τ :=
  { s with active := Function.update s.active t e }

/-- What a thread does outside a call. A failed assertion on the epochs is `none`. -/
def request (s : Registry τ) (t : τ) : NodePc τ → NodeRequest → Option (Registry τ)
  | .absent, .construct => some ((s.storeActive t offState).beginCall t .lockOwn)
  | .live, .destruct =>
      if s.active t = offState then some (s.beginCall t (.lockList .destructor)) else none
  | .live, .accessLock e =>
      if s.active t = offState ∧ e ≠ offState then some (s.storeActive t e) else none
  | .live, .accessUnlock => if s.active t ≠ offState then some (s.storeActive t offState) else none
  | .live, .synchronizeMinEpoch e =>
      if s.active t = offState ∧ e ≠ offState then some (s.goto t (.lockShared e)) else none
  | _, _ => none

/-- One access of thread `t`. -/
def step (s : Registry τ) (t : τ) (req : NodeRequest) : Option (Registry τ) :=
  match s.pc t with
  | .lockOwn => s.lock t (some t) (.lockList .constructor)
  | .lockList call => s.lock t none (.lockAll call 0)
  | .lockAll call i =>
      match s.nodes.data[i]?, call with
      | some n, _ => s.lock t (some n) (.lockAll call (i + 1))
      | none, .constructor => some (s.goto t .emplaceBack)
      | none, .destructor => some (s.goto t (.find 0))
  | .emplaceBack =>
      some ({ s with nodes := s.nodes.emplaceBack t }.goto t (.unlockAll .constructor 0))
  | .find i =>
      match s.nodes.data[i]? with
      | some n => some (s.goto t (if n = t then .unorderedErase i else .find (i + 1)))
      | none => some (s.goto t (.unlockAll .destructor 0))
  | .unorderedErase i =>
      some ({ s with nodes := s.nodes.unorderedErase i }.goto t (.unlockAll .destructor 0))
  | .unlockAll call i =>
      match s.nodes.data[i]? with
      | some n => some (s.unlock t (some n) (.unlockAll call (i + 1)))
      | none => some (s.goto t (.unlockList call))
  | .unlockList .constructor => some (s.unlock t none .live)
  | .unlockList .destructor => some (s.unlock t none .unlockOwn)
  | .unlockOwn => some (s.unlock t (some t) .absent)
  | .lockShared e => ((s.mutex (some t)).lockShared t).map fun l =>
      { s with mutex := Function.update s.mutex (some t) l }.goto t (.waitMinEpoch e 0 offState)
  | .waitMinEpoch e i result =>
      match s.nodes.data[i]? with
      | some n => some (s.goto t (if s.active n ≤ e then .waitOnEpoch e n i result
          else .waitMinEpoch e (i + 1) (min (s.active n) result)))
      | none => some (s.goto t .unlockShared)
  | .waitOnEpoch e n i result =>
      some (s.goto t (if s.active n ≤ e then .waitOnEpoch e n i result
        else .waitMinEpoch e (i + 1) result))
  | .unlockShared =>
      match (s.mutex (some t)).unlockShared t with
      | none => some (s.goto t .failed)
      | some l => some ({ s with mutex := Function.update s.mutex (some t) l }.goto t .live)
  | .failed => none
  | .absent => s.request t .absent req
  | .live => s.request t .live req

/-- **The states of the list**, in any interleaving. -/
inductive Reach : Registry τ → Prop where
  | init : Reach init
  | step {s s' : Registry τ} {t : τ} {req : NodeRequest} (h : Reach s) (hs : s.step t req = some s') :
      Reach s'

/-- A schedule: which thread moves next, and what it calls if it is in no call. -/
def run : List (τ × NodeRequest) → Registry τ → Option (Registry τ)
  | [], s => some s
  | (t, req) :: rest, s => (s.step t req).bind (run rest)

theorem Reach.of_run {schedule : List (τ × NodeRequest)} {s s' : Registry τ} (h : Reach s)
    (hs : run schedule s = some s') : Reach s' := by
  induction schedule generalizing s with
  | nil =>
    cases hs
    exact h
  | cons m rest ih =>
    obtain ⟨s1, h1, h2⟩ := Option.bind_eq_some_iff.mp hs
    exact ih (h.step h1) h2

end Registry

/-! ## 2. Who holds what, and who is in the list -/

namespace NodePc

variable {τ : Type}

/-- The locks a thread has for writing: its own, that of the list, and those of a part of the list. -/
def held (nodes : List τ) (t : τ) : NodePc τ → List (Option τ)
  | .lockList .constructor => [some t]
  | .lockAll .constructor i => some t :: none :: (nodes.take i).map some
  | .lockAll .destructor i => none :: (nodes.take i).map some
  | .emplaceBack => some t :: none :: nodes.map some
  | .find _ | .unorderedErase _ => none :: nodes.map some
  | .unlockAll .constructor i => none :: (nodes.drop i).map some
  | .unlockAll .destructor i => some t :: none :: (nodes.drop i).map some
  | .unlockList .constructor => [none]
  | .unlockList .destructor => [some t, none]
  | .unlockOwn => [some t]
  | _ => []

/-- The node is in the list. -/
def member : NodePc τ → Bool
  | .lockList .destructor | .lockAll .destructor _ | .find _ | .unorderedErase _
  | .unlockAll .constructor _ | .unlockList .constructor | .live | .lockShared _
  | .waitMinEpoch _ _ _ | .waitOnEpoch _ _ _ _ | .unlockShared => true
  | _ => false

/-- The thread has its own lock for reading. -/
def sharing : NodePc τ → Bool
  | .waitMinEpoch _ _ _ | .waitOnEpoch _ _ _ _ | .unlockShared => true
  | _ => false

/-- The thread has given nothing back yet. -/
def locking : NodePc τ → Bool
  | .lockOwn | .lockList _ | .lockAll _ _ | .emplaceBack | .find _ | .unorderedErase _ => true
  | _ => false

/-- The walk of `wait_min_epoch` through the list. -/
def scanning : NodePc τ → Bool
  | .waitMinEpoch _ _ _ | .waitOnEpoch _ _ _ _ => true
  | _ => false

/-- The list is being changed. -/
def modifying : NodePc τ → Bool
  | .emplaceBack | .unorderedErase _ => true
  | _ => false

/-- The constructor has returned and the destructor has not been entered. -/
def constructed : NodePc τ → Bool
  | .live | .lockShared _ | .waitMinEpoch _ _ _ | .waitOnEpoch _ _ _ _ | .unlockShared => true
  | _ => false

/-- Neither a constructor nor a destructor is running. -/
def outside : NodePc τ → Bool
  | .absent => true
  | pc => pc.constructed

/-- The loop of the destructor has not passed the node. -/
def Ok (nodes : List τ) (t : τ) : NodePc τ → Prop
  | .find i => t ∉ nodes.take i
  | .unorderedErase i => nodes[i]? = some t
  | .failed => False
  | _ => True

end NodePc

/-- What holds of one thread. -/
structure NodeInv {τ : Type} (s : Registry τ) (t : τ) : Prop where
  writers : ∀ m, t ∈ (s.mutex m).writers ↔ m ∈ (s.pc t).held s.nodes.data t
  readers : ∀ m, t ∈ (s.mutex m).readers ↔ m = some t ∧ (s.pc t).sharing = true
  balance : (s.taken t).Perm (s.released t ++ (s.pc t).held s.nodes.data t)
  takenOnce : (s.taken t).Nodup
  nothingReleased : (s.pc t).locking = true → s.released t = []
  member : t ∈ s.nodes.data ↔ (s.pc t).member = true
  ok : (s.pc t).Ok s.nodes.data t

/-- What holds of all. -/
structure RegistryInv {τ : Type} (s : Registry τ) : Prop where
  node : ∀ t, NodeInv s t
  nodup : s.nodes.data.Nodup

theorem registryInv_init {τ : Type} : RegistryInv (Registry.init : Registry τ) where
  node t :=
    { writers := fun m => by simp [Registry.init, RwLock.free, NodePc.held]
      readers := fun m => by simp [Registry.init, RwLock.free, NodePc.sharing]
      balance := List.Perm.refl _
      takenOnce := List.nodup_nil
      nothingReleased := fun _ => rfl
      member := by simp [Registry.init, NodePc.member]
      ok := trivial }
  nodup := List.nodup_nil

/-! ## 3. A step, for the other threads -/

section Step

variable {τ : Type} {s s' : Registry τ} {t u : τ}

/-- A thread that does not hold the list holds the same locks whatever the list is. -/
theorem NodePc.held_congr {pc : NodePc τ} {nodes : List τ} (h : none ∉ pc.held nodes u)
    (nodes' : List τ) : pc.held nodes' u = pc.held nodes u := by
  cases pc with
  | lockList call => cases call <;> rfl
  | lockAll call i => cases call <;> simp [NodePc.held] at h
  | emplaceBack => simp [NodePc.held] at h
  | find i => simp [NodePc.held] at h
  | unorderedErase i => simp [NodePc.held] at h
  | unlockAll call i => cases call <;> simp [NodePc.held] at h
  | unlockList call => cases call <;> rfl
  | _ => rfl

/-- A thread at a place that speaks about the list holds the list. -/
theorem NodePc.ok_congr {pc : NodePc τ} {nodes : List τ} (h : none ∉ pc.held nodes u)
    (hok : pc.Ok nodes u) (nodes' : List τ) : pc.Ok nodes' u := by
  cases pc with
  | find i => simp [NodePc.held] at h
  | unorderedErase i => simp [NodePc.held] at h
  | failed => exact hok
  | _ => trivial

/-- What a step of another thread may change. -/
structure Unmoved (s s' : Registry τ) (u : τ) : Prop where
  pc : s'.pc u = s.pc u
  taken : s'.taken u = s.taken u
  released : s'.released u = s.released u
  writers : ∀ m, u ∈ (s'.mutex m).writers ↔ u ∈ (s.mutex m).writers
  readers : ∀ m, u ∈ (s'.mutex m).readers ↔ u ∈ (s.mutex m).readers
  nodes : s'.nodes = s.nodes ∨
    u ∉ (s.mutex none).writers ∧ (u ∈ s'.nodes.data ↔ u ∈ s.nodes.data)

theorem NodeInv.unmoved (h : NodeInv s u) (hu : Unmoved s s' u) : NodeInv s' u := by
  have hheld : (s.pc u).held s'.nodes.data u = (s.pc u).held s.nodes.data u := by
    rcases hu.nodes with e | ⟨hn, _⟩
    · rw [e]
    · exact NodePc.held_congr (fun hm => hn ((h.writers none).mpr hm)) _
  constructor <;> simp only [hu.pc, hu.taken, hu.released, hu.writers, hu.readers, hheld]
  · exact h.writers
  · exact h.readers
  · exact h.balance
  · exact h.takenOnce
  · exact h.nothingReleased
  · rcases hu.nodes with e | ⟨_, hm⟩
    · rw [e]
      exact h.member
    · rw [hm]
      exact h.member
  · rcases hu.nodes with e | ⟨hn, _⟩
    · rw [e]
      exact h.ok
    · exact NodePc.ok_congr (fun hm => hn ((h.writers none).mpr hm)) h.ok _

end Step

/-! ## 4. A step, for the thread that takes it -/

section Step

variable {τ : Type} [DecidableEq τ] {s s' : Registry τ} {t : τ} {m : Option τ} {pc' : NodePc τ}

omit [DecidableEq τ] in
theorem NodeInv.held_nodup (h : NodeInv s t) : ((s.pc t).held s.nodes.data t).Nodup :=
  (List.nodup_append.mp (h.balance.nodup_iff.mp h.takenOnce)).2.1

theorem mem_update_iff {P : RwLock τ → Prop} {l : RwLock τ} {m' : Option τ} :
    P (Function.update s.mutex m l m') ↔ m' = m ∧ P l ∨ m' ≠ m ∧ P (s.mutex m') := by
  by_cases hm : m' = m
  · subst hm
    simp
  · simp [hm]

/-- The thread takes a lock that is free. -/
theorem RegistryInv.lock (h : RegistryInv s) (hs : s.lock t m pc' = some s')
    (hheld : (pc'.held s.nodes.data t).Perm (m :: (s.pc t).held s.nodes.data t))
    (hshare : (s.pc t).sharing = false ∧ pc'.sharing = false) (hmember : pc'.member = (s.pc t).member)
    (hlocking : (s.pc t).locking = true) (hok : pc'.Ok s.nodes.data t) : RegistryInv s' := by
  obtain ⟨l, hl, rfl⟩ := Option.map_eq_some_iff.mp hs
  obtain ⟨hfree, hw, hr⟩ := RwLock.mem_of_lock hl
  have ht := h.node t
  have hreleased := ht.nothingReleased hlocking
  refine ⟨fun u => ?_, h.nodup⟩
  by_cases hu : u = t
  · subst hu
    have hnot : m ∉ (s.pc u).held s.nodes.data u := fun hm => (hfree u).1 ((ht.writers m).mpr hm)
    have hbal := ht.balance
    constructor <;> simp only [Function.update_self]
    · intro m'
      rw [mem_update_iff (P := fun l => u ∈ l.writers), hheld.mem_iff, List.mem_cons, ht.writers, hw]
      by_cases hm : m' = m
      · simp [hm]
      · simp [hm]
    · intro m'
      rw [mem_update_iff (P := fun l => u ∈ l.readers), ht.readers, hshare.1, hshare.2]
      simp [hr]
    · rw [hreleased, List.nil_append] at hbal ⊢
      exact (hbal.append_right [m]).trans ((List.perm_append_singleton m _).trans hheld.symm)
    · rw [hreleased, List.nil_append] at hbal
      refine List.nodup_append.mpr ⟨ht.takenOnce, List.nodup_singleton m, ?_⟩
      rintro a ha b hb rfl
      rw [List.mem_singleton] at hb
      subst hb
      exact hnot (hbal.mem_iff.mp ha)
    · exact fun _ => hreleased
    · rw [hmember]
      exact ht.member
    · exact hok
  · refine (h.node u).unmoved ⟨?_, ?_, rfl, fun m' => ?_, fun m' => ?_, Or.inl rfl⟩
    · exact Function.update_of_ne hu ..
    · exact Function.update_of_ne hu ..
    · rw [mem_update_iff (P := fun l => u ∈ l.writers)]
      by_cases hm : m' = m
      · subst hm
        simp [hw, hu, (hfree u).1]
      · simp [hm]
    · rw [mem_update_iff (P := fun l => u ∈ l.readers)]
      by_cases hm : m' = m
      · subst hm
        simp [hr, (hfree u).2]
      · simp [hm]

/-- The thread gives back a lock, which it has. -/
theorem RegistryInv.unlock (h : RegistryInv s)
    (hheld : ((s.pc t).held s.nodes.data t).Perm (m :: pc'.held s.nodes.data t))
    (hshare : (s.pc t).sharing = false ∧ pc'.sharing = false) (hmember : pc'.member = (s.pc t).member)
    (hlocking : pc'.locking = false) (hok : pc'.Ok s.nodes.data t) :
    RegistryInv (s.unlock t m pc') := by
  have ht := h.node t
  have hin : t ∈ (s.mutex m).writers := (ht.writers m).mpr (hheld.mem_iff.mpr List.mem_cons_self)
  obtain ⟨l, hl⟩ : ∃ l, (s.mutex m).unlock t = some l := ⟨_, by rw [RwLock.unlock, if_pos hin]⟩
  obtain ⟨_, hw, hr⟩ := RwLock.mem_of_unlock hl
  rw [Registry.unlock, hl]
  refine ⟨fun u => ?_, h.nodup⟩
  by_cases hu : u = t
  · subst hu
    have hnodup := hheld.nodup_iff.mp ht.held_nodup
    have hnot : m ∉ pc'.held s.nodes.data u := (List.nodup_cons.mp hnodup).1
    constructor <;> simp only [Function.update_self]
    · intro m'
      rw [mem_update_iff (P := fun l => u ∈ l.writers), ht.writers, hheld.mem_iff, List.mem_cons]
      by_cases hm : m' = m
      · subst hm
        simp [hw, hnot]
      · simp [hm]
    · intro m'
      rw [mem_update_iff (P := fun l => u ∈ l.readers), hr, ht.readers, ht.readers, hshare.1, hshare.2]
      simp
    · refine ht.balance.trans ?_
      rw [List.append_assoc, List.singleton_append]
      exact hheld.append_left _
    · exact ht.takenOnce
    · rw [hlocking]
      exact fun hf => by cases hf
    · rw [hmember]
      exact ht.member
    · exact hok
  · refine (h.node u).unmoved ⟨?_, rfl, ?_, fun m' => ?_, fun m' => ?_, Or.inl rfl⟩
    · exact Function.update_of_ne hu ..
    · exact Function.update_of_ne hu ..
    · rw [mem_update_iff (P := fun l => u ∈ l.writers)]
      by_cases hm : m' = m
      · subst hm
        have hne : u ∉ (s.mutex m').writers := fun hu' => hu ((s.mutex m').single u hu' t hin)
        simp [hw, hne]
      · simp [hm]
    · rw [mem_update_iff (P := fun l => u ∈ l.readers)]
      by_cases hm : m' = m
      · subst hm
        simp [hr]
      · simp [hm]

/-- The thread moves on with the locks it has; if it has the list it may change it. -/
theorem RegistryInv.move (h : RegistryInv s) {nodes' : PodVector τ}
    (hnodes : nodes' = s.nodes ∨ none ∈ (s.pc t).held s.nodes.data t ∧
      ∀ u, u ≠ t → (u ∈ nodes'.data ↔ u ∈ s.nodes.data))
    (hheld : ((s.pc t).held s.nodes.data t).Perm (pc'.held nodes'.data t))
    (hshare : pc'.sharing = (s.pc t).sharing) (hmember : t ∈ nodes'.data ↔ pc'.member = true)
    (hlocking : pc'.locking = true → (s.pc t).locking = true) (hnodup : nodes'.data.Nodup)
    (hok : pc'.Ok nodes'.data t) : RegistryInv ({ s with nodes := nodes' }.goto t pc') := by
  have ht := h.node t
  refine ⟨fun u => ?_, hnodup⟩
  by_cases hu : u = t
  · subst hu
    constructor <;> simp only [Registry.goto, Function.update_self]
    · exact fun m => (ht.writers m).trans hheld.mem_iff
    · rw [hshare]
      exact ht.readers
    · exact ht.balance.trans (hheld.append_left _)
    · exact ht.takenOnce
    · exact fun hl => ht.nothingReleased (hlocking hl)
    · exact hmember
    · exact hok
  · refine (h.node u).unmoved ⟨?_, rfl, rfl, fun _ => Iff.rfl, fun _ => Iff.rfl, ?_⟩
    · exact Function.update_of_ne hu ..
    · refine hnodes.imp id fun hn => ⟨fun hu' => hu ?_, hn.2 u hu⟩
      exact (s.mutex none).single u hu' t ((ht.writers none).mpr hn.1)

/-- The thread moves on, and the list stays as it is. -/
theorem RegistryInv.goto (h : RegistryInv s)
    (hheld : ((s.pc t).held s.nodes.data t).Perm (pc'.held s.nodes.data t))
    (hshare : pc'.sharing = (s.pc t).sharing) (hmember : pc'.member = (s.pc t).member)
    (hlocking : pc'.locking = true → (s.pc t).locking = true) (hok : pc'.Ok s.nodes.data t) :
    RegistryInv (s.goto t pc') :=
  h.move (Or.inl rfl) hheld hshare (by rw [hmember]; exact (h.node t).member) hlocking h.nodup hok

/-- A constructor or destructor begins. -/
theorem RegistryInv.beginCall (h : RegistryInv s) (hheld : (s.pc t).held s.nodes.data t = [])
    (hheld' : pc'.held s.nodes.data t = [])
    (hshare : (s.pc t).sharing = false ∧ pc'.sharing = false) (hmember : pc'.member = (s.pc t).member)
    (hok : pc'.Ok s.nodes.data t) : RegistryInv (s.beginCall t pc') := by
  have ht := h.node t
  refine ⟨fun u => ?_, h.nodup⟩
  by_cases hu : u = t
  · subst hu
    constructor <;> simp only [Registry.beginCall, Function.update_self]
    · rw [hheld', ← hheld]
      exact ht.writers
    · rw [hshare.2, ← hshare.1]
      exact ht.readers
    · rw [hheld']
      exact List.Perm.refl _
    · exact List.nodup_nil
    · exact fun _ => trivial
    · rw [hmember]
      exact ht.member
    · exact hok
  · refine (h.node u).unmoved ⟨?_, ?_, ?_, fun _ => Iff.rfl, fun _ => Iff.rfl, Or.inl rfl⟩
    all_goals exact Function.update_of_ne hu ..

theorem RegistryInv.storeActive (h : RegistryInv s) (t : τ) (e : Epoch) :
    RegistryInv (s.storeActive t e) :=
  ⟨fun u => (h.node u).unmoved ⟨rfl, rfl, rfl, fun _ => Iff.rfl, fun _ => Iff.rfl, Or.inl rfl⟩,
    h.nodup⟩

/-- The thread takes its own lock for reading, or gives it back. -/
theorem RegistryInv.share (h : RegistryInv s) {l : RwLock τ} (shared : Bool)
    (hw : ∀ u, u ∈ l.writers ↔ u ∈ (s.mutex (some t)).writers)
    (hr : ∀ u, u ∈ l.readers ↔ u = t ∧ shared = true ∨ u ≠ t ∧ u ∈ (s.mutex (some t)).readers)
    (hheld : (s.pc t).held s.nodes.data t = [] ∧ pc'.held s.nodes.data t = [])
    (hshare : pc'.sharing = shared) (hmember : pc'.member = (s.pc t).member)
    (hlocking : pc'.locking = false) (hok : pc'.Ok s.nodes.data t) :
    RegistryInv ({ s with mutex := Function.update s.mutex (some t) l }.goto t pc') := by
  have ht := h.node t
  refine ⟨fun u => ?_, h.nodup⟩
  have hwriters : ∀ m', u ∈ (Function.update s.mutex (some t) l m').writers ↔
      u ∈ (s.mutex m').writers := by
    intro m'
    rw [mem_update_iff (P := fun l => u ∈ l.writers)]
    by_cases hm : m' = some t
    · subst hm
      simp [hw]
    · simp [hm]
  by_cases hu : u = t
  · subst hu
    constructor <;> simp only [Registry.goto, Function.update_self, hwriters]
    · rw [hheld.2, ← hheld.1]
      exact ht.writers
    · intro m'
      rw [mem_update_iff (P := fun l => u ∈ l.readers), hr, ht.readers, ht.readers, hshare]
      by_cases hm : m' = some u
      · simp [hm]
      · simp [hm]
    · rw [hheld.2, ← hheld.1]
      exact ht.balance
    · exact ht.takenOnce
    · rw [hlocking]
      exact fun hf => by cases hf
    · rw [hmember]
      exact ht.member
    · exact hok
  · refine (h.node u).unmoved ⟨?_, rfl, rfl, hwriters, fun m' => ?_, Or.inl rfl⟩
    · exact Function.update_of_ne hu ..
    · show u ∈ (Function.update s.mutex (some t) l m').readers ↔ _
      rw [mem_update_iff (P := fun l => u ∈ l.readers)]
      by_cases hm : m' = some t
      · subst hm
        simp [hr, hu]
      · simp [hm]

end Step

/-! ## 5. The invariant -/

section Lists

variable {τ : Type}

/-- Entry `i` is the next one of the part behind `i`. -/
theorem map_drop_eq_cons {l : List τ} {i : Nat} {n : τ} (h : l[i]? = some n) :
    (l.drop i).map some = some n :: (l.drop (i + 1)).map some := by
  obtain ⟨hi, rfl⟩ := List.getElem?_eq_some_iff.mp h
  rw [List.drop_eq_getElem_cons hi, List.map_cons]

theorem map_take_perm {l : List τ} {i : Nat} {n : τ} (h : l[i]? = some n) :
    ((l.take (i + 1)).map some).Perm (some n :: (l.take i).map some) := by
  obtain ⟨hi, rfl⟩ := List.getElem?_eq_some_iff.mp h
  rw [List.take_succ_eq_append_getElem hi, List.map_append]
  exact List.perm_append_singleton ..

theorem take_eq_self {l : List τ} {i : Nat} (h : l[i]? = none) : l.take i = l :=
  List.take_of_length_le (List.getElem?_eq_none_iff.mp h)

theorem drop_eq_nil {l : List τ} {i : Nat} (h : l[i]? = none) : l.drop i = [] :=
  List.drop_eq_nil_of_le (List.getElem?_eq_none_iff.mp h)

end Lists

section Invariant

variable {τ : Type} [DecidableEq τ] {s s' : Registry τ} {t : τ}

/-- The calls of a thread that is in none. -/
theorem RegistryInv.request (h : RegistryInv s) {req : NodeRequest} {pc : NodePc τ} (hpc : s.pc t = pc)
    (hs : s.request t pc req = some s') : RegistryInv s' := by
  unfold Registry.request at hs
  split at hs
  · cases hs
    have hpc' : ((s.storeActive t offState).pc t) = .absent := hpc
    refine (h.storeActive t offState).beginCall ?_ rfl ?_ ?_ trivial <;> rw [hpc'] <;>
      first | rfl | exact ⟨rfl, rfl⟩
  · split at hs
    · cases hs
      refine h.beginCall ?_ rfl ?_ ?_ trivial <;> rw [hpc] <;> first | rfl | exact ⟨rfl, rfl⟩
    · cases hs
  · split at hs
    · cases hs
      exact h.storeActive t _
    · cases hs
  · split at hs
    · cases hs
      exact h.storeActive t _
    · cases hs
  · split at hs
    · cases hs
      refine h.goto ?_ ?_ ?_ ?_ trivial <;> rw [hpc] <;> first | rfl | exact fun hf => hf
    · cases hs
  · cases hs

/-- The walk through the list that gives the locks back. -/
theorem RegistryInv.unlockAll (h : RegistryInv s) {call : NodeCall} {i : Nat}
    (hpc : s.pc t = .unlockAll call i) {n : τ} (hn : s.nodes.data[i]? = some n) :
    RegistryInv (s.unlock t (some n) (.unlockAll call (i + 1))) := by
  refine h.unlock ?_ ?_ ?_ rfl trivial <;> rw [hpc]
  · cases call with
    | constructor =>
      show (none :: (s.nodes.data.drop i).map some).Perm _
      rw [map_drop_eq_cons hn]
      exact List.Perm.swap ..
    | destructor =>
      show (some t :: none :: (s.nodes.data.drop i).map some).Perm _
      rw [map_drop_eq_cons hn]
      exact ((List.Perm.swap ..).cons _).trans (List.Perm.swap ..)
  · exact ⟨rfl, rfl⟩
  · cases call <;> rfl

/-- The walk that takes the locks. -/
theorem RegistryInv.lockAll (h : RegistryInv s) {call : NodeCall} {i : Nat}
    (hpc : s.pc t = .lockAll call i) {n : τ} (hn : s.nodes.data[i]? = some n)
    (hs : s.lock t (some n) (.lockAll call (i + 1)) = some s') : RegistryInv s' := by
  refine h.lock hs ?_ ?_ ?_ ?_ trivial <;> rw [hpc]
  · cases call with
    | constructor =>
      exact (((map_take_perm hn).cons _).cons _).trans
        (((List.Perm.swap ..).cons _).trans (List.Perm.swap ..))
    | destructor => exact ((map_take_perm hn).cons _).trans (List.Perm.swap ..)
  · exact ⟨rfl, rfl⟩
  · cases call <;> rfl
  · rfl

/-- The constructor puts its node behind the others. -/
theorem RegistryInv.emplaceBack (h : RegistryInv s) (hpc : s.pc t = .emplaceBack) :
    RegistryInv ({ s with nodes := s.nodes.emplaceBack t }.goto t (.unlockAll .constructor 0)) := by
  have hnot : t ∉ s.nodes.data := by
    rw [(h.node t).member, hpc]
    exact Bool.false_ne_true
  refine h.move (Or.inr ⟨?_, fun u hu => ?_⟩) ?_ ?_ ?_ (fun hf => by cases hf) ?_ trivial
  · rw [hpc]
    exact List.mem_cons_of_mem _ List.mem_cons_self
  · simp [hu]
  · rw [hpc]
    show (some t :: none :: s.nodes.data.map some).Perm (none :: (s.nodes.emplaceBack t).data.map some)
    rw [PodVector.data_emplaceBack, List.map_append]
    refine (List.Perm.swap ..).trans (List.Perm.cons _ ?_)
    exact (List.perm_append_singleton ..).symm
  · rw [hpc]
    rfl
  · simp [NodePc.member]
  · rw [PodVector.data_emplaceBack]
    refine List.nodup_append.mpr ⟨h.nodup, List.nodup_singleton t, ?_⟩
    rintro a ha b hb rfl
    rw [List.mem_singleton] at hb
    exact hnot (hb ▸ ha)

/-- The destructor takes its node out of the list. -/
theorem RegistryInv.unorderedErase (h : RegistryInv s) {i : Nat} (hpc : s.pc t = .unorderedErase i) :
    RegistryInv ({ s with nodes := s.nodes.unorderedErase i }.goto t (.unlockAll .destructor 0)) := by
  have hslot : s.nodes.data[i]? = some t := by
    have hok := (h.node t).ok
    rw [hpc] at hok
    exact hok
  have hperm := PodVector.unorderedErase_perm hslot
  have hnodup := hperm.nodup_iff.mp h.nodup
  refine h.move (Or.inr ⟨?_, fun u hu => ?_⟩) ?_ ?_ ?_ (fun hf => by cases hf)
    (List.nodup_cons.mp hnodup).2 trivial
  · rw [hpc]
    exact List.mem_cons_self
  · rw [hperm.mem_iff, List.mem_cons]
    exact (or_iff_right hu).symm
  · rw [hpc]
    exact ((hperm.map some).cons none).trans (List.Perm.swap ..)
  · rw [hpc]
    rfl
  · exact iff_of_false (List.nodup_cons.mp hnodup).1 Bool.false_ne_true

/-- The destructor looks at entry `i`. -/
theorem RegistryInv.find (h : RegistryInv s) {i : Nat} (hpc : s.pc t = .find i) {n : τ}
    (hn : s.nodes.data[i]? = some n) :
    RegistryInv (s.goto t (if n = t then .unorderedErase i else .find (i + 1))) := by
  have hok := (h.node t).ok
  rw [hpc] at hok
  by_cases hnt : n = t
  · rw [if_pos hnt]
    refine h.goto ?_ ?_ ?_ ?_ ?_
    · rw [hpc]
      rfl
    · rw [hpc]
      rfl
    · rw [hpc]
      rfl
    · rw [hpc]
      exact id
    · rw [hnt] at hn
      exact hn
  · rw [if_neg hnt]
    refine h.goto ?_ ?_ ?_ ?_ ?_
    · rw [hpc]
      rfl
    · rw [hpc]
      rfl
    · rw [hpc]
      rfl
    · rw [hpc]
      exact id
    · obtain ⟨hi, rfl⟩ := List.getElem?_eq_some_iff.mp hn
      show t ∉ s.nodes.data.take (i + 1)
      rw [List.take_succ_eq_append_getElem hi, List.mem_append, List.mem_singleton]
      exact fun hm => hm.elim hok fun e => hnt e.symm

/-- **A step of one thread keeps the invariant.** -/
theorem RegistryInv.step (h : RegistryInv s) {req : NodeRequest} (hs : s.step t req = some s') :
    RegistryInv s' := by
  have ht := h.node t
  unfold Registry.step at hs
  split at hs
  case h_1 hpc =>
    exact h.lock hs (by rw [hpc]; rfl) (by rw [hpc]; exact ⟨rfl, rfl⟩) (by rw [hpc]; rfl)
      (by rw [hpc]; rfl) trivial
  case h_2 call hpc =>
    refine h.lock hs ?_ ?_ ?_ ?_ trivial <;> rw [hpc]
    · cases call
      · exact List.Perm.swap ..
      · rfl
    · exact ⟨rfl, rfl⟩
    · cases call <;> rfl
    · rfl
  case h_3 call i hpc =>
    split at hs
    · exact h.lockAll hpc ‹_› hs
    · rename_i hn
      cases hs
      refine h.goto ?_ ?_ ?_ ?_ trivial <;> rw [hpc]
      · show (some t :: none :: (s.nodes.data.take i).map some).Perm _
        rw [take_eq_self hn]
        rfl
      · rfl
      · rfl
      · exact id
    · rename_i hn
      cases hs
      refine h.goto ?_ ?_ ?_ ?_ ?_ <;> try rw [hpc]
      · show (none :: (s.nodes.data.take i).map some).Perm _
        rw [take_eq_self hn]
        rfl
      · rfl
      · rfl
      · exact id
      · exact List.not_mem_nil
  case h_4 hpc =>
    cases hs
    exact h.emplaceBack hpc
  case h_5 i hpc =>
    split at hs
    · cases hs
      exact h.find hpc ‹_›
    · -- the loop would have met the node before
      rename_i hn
      have hok := ht.ok
      rw [hpc] at hok
      have hmem := ht.member
      rw [hpc] at hmem
      have hin : t ∈ s.nodes.data := hmem.mpr rfl
      have hnot : t ∉ s.nodes.data.take i := hok
      rw [take_eq_self hn] at hnot
      exact absurd hin hnot
  case h_6 i hpc =>
    cases hs
    exact h.unorderedErase hpc
  case h_7 call i hpc =>
    split at hs
    · cases hs
      exact h.unlockAll hpc ‹_›
    · rename_i hn
      cases hs
      refine h.goto ?_ ?_ ?_ (fun hf => by cases hf) trivial <;> rw [hpc]
      · cases call with
        | constructor =>
          show (none :: (s.nodes.data.drop i).map some).Perm _
          rw [drop_eq_nil hn]
          rfl
        | destructor =>
          show (some t :: none :: (s.nodes.data.drop i).map some).Perm _
          rw [drop_eq_nil hn]
          rfl
      · rfl
      · cases call <;> rfl
  case h_8 hpc =>
    cases hs
    exact h.unlock (by rw [hpc]; rfl) (by rw [hpc]; exact ⟨rfl, rfl⟩) (by rw [hpc]; rfl) rfl trivial
  case h_9 hpc =>
    cases hs
    exact h.unlock (by rw [hpc]; exact List.Perm.swap ..) (by rw [hpc]; exact ⟨rfl, rfl⟩)
      (by rw [hpc]; rfl) rfl trivial
  case h_10 hpc =>
    cases hs
    exact h.unlock (by rw [hpc]; rfl) (by rw [hpc]; exact ⟨rfl, rfl⟩) (by rw [hpc]; rfl) rfl trivial
  case h_11 e hpc =>
    obtain ⟨l, hl, rfl⟩ := Option.map_eq_some_iff.mp hs
    obtain ⟨hno, hw, hr⟩ := RwLock.mem_of_lockShared hl
    refine h.share true (fun u => iff_of_false (hw u) (hno u)) (fun u => ?_)
      (by rw [hpc]; exact ⟨rfl, rfl⟩) rfl (by rw [hpc]; rfl) rfl trivial
    rw [hr]
    by_cases hu : u = t <;> simp [hu]
  case h_12 e i result hpc =>
    split at hs
    · cases hs
      split
      all_goals
        refine h.goto ?_ ?_ ?_ (fun hf => by cases hf) trivial <;> rw [hpc] <;> rfl
    · cases hs
      refine h.goto ?_ ?_ ?_ (fun hf => by cases hf) trivial <;> rw [hpc] <;> rfl
  case h_13 e n i result hpc =>
    cases hs
    split
    all_goals
      refine h.goto ?_ ?_ ?_ (fun hf => by cases hf) trivial <;> rw [hpc] <;> rfl
  case h_14 hpc =>
    have hin : t ∈ (s.mutex (some t)).readers := by
      rw [ht.readers, hpc]
      exact ⟨rfl, rfl⟩
    rw [RwLock.unlockShared, if_pos hin] at hs
    cases hs
    refine h.share false (fun _ => Iff.rfl) (fun u => ?_)
      (by rw [hpc]; exact ⟨rfl, rfl⟩) rfl (by rw [hpc]; rfl) rfl trivial
    rw [Finset.mem_erase]
    simp
  case h_15 => cases hs
  case h_16 hpc => exact h.request hpc hs
  case h_17 hpc => exact h.request hpc hs

/-- **In every state reached the invariant holds.** -/
theorem registryInv_reach (h : Registry.Reach s) : RegistryInv s := by
  induction h with
  | init => exact registryInv_init
  | step _ hs ih => exact ih.step hs

/-! ## 6. The registry is safe -/

/-- What the list promises to those who walk it. -/
structure RegistrySafe (s : Registry τ) : Prop where
  noOverlap : ∀ t u, (s.pc t).scanning = true → (s.pc u).modifying = true → False
  oneModifier : ∀ t u, (s.pc t).modifying = true → (s.pc u).modifying = true → t = u
  writeLocked : ∀ u, (s.pc u).modifying = true → ∀ n, n ∈ s.nodes.data ∨ n = u →
    u ∈ (s.mutex (some n)).writers
  asserted : ∀ t, s.pc t ≠ .failed
  releasedOnce : ∀ t, (s.pc t).outside = true → (s.taken t).Nodup ∧
    (s.released t).Perm (s.taken t) ∧ ∀ m, t ∉ (s.mutex m).writers
  listed : ∀ n, (s.pc n).constructed = true → s.nodes.data.count n = 1
  forgotten : ∀ n, s.pc n = .absent → n ∉ s.nodes.data

omit [DecidableEq τ] in
/-- Who changes the list has the list and every node. -/
theorem NodeInv.of_modifying {u : τ} (h : NodeInv s u) (hm : (s.pc u).modifying = true) :
    u ∈ (s.mutex none).writers ∧
      ∀ n, n ∈ s.nodes.data ∨ n = u → u ∈ (s.mutex (some n)).writers := by
  rw [h.writers]
  simp only [h.writers]
  have hmember := h.member
  cases hpc : s.pc u <;> rw [hpc] at hm hmember <;> try cases hm
  case emplaceBack =>
    refine ⟨List.mem_cons_of_mem _ List.mem_cons_self, fun n hn => ?_⟩
    rcases hn with hn | rfl
    · exact List.mem_cons_of_mem _ (List.mem_cons_of_mem _ (List.mem_map_of_mem hn))
    · exact List.mem_cons_self
  case unorderedErase i =>
    refine ⟨List.mem_cons_self, fun n hn => List.mem_cons_of_mem _ (List.mem_map_of_mem ?_)⟩
    rcases hn with hn | rfl
    · exact hn
    · exact hmember.mpr rfl

omit [DecidableEq τ] in
theorem NodePc.held_of_outside {pc : NodePc τ} (h : pc.outside = true) (nodes : List τ) (t : τ) :
    pc.held nodes t = [] := by
  cases pc <;> first | rfl | cases h

omit [DecidableEq τ] in
theorem NodePc.member_of_constructed {pc : NodePc τ} (h : pc.constructed = true) :
    pc.member = true := by
  cases pc <;> first | rfl | cases h

omit [DecidableEq τ] in
theorem NodePc.of_scanning {pc : NodePc τ} (h : pc.scanning = true) :
    pc.sharing = true ∧ pc.member = true := by
  cases pc <;> first | exact ⟨rfl, rfl⟩ | cases h

/-- The list is not scanned while it changes: the scanner's node is in it, and is locked for writing by the
    one that changes it. -/
theorem not_scanning_while_modifying (h : Registry.Reach s) {t u : τ} (ht : (s.pc t).scanning = true)
    (hu : (s.pc u).modifying = true) : False := by
  have hi := registryInv_reach h
  obtain ⟨hshare, hmember⟩ := NodePc.of_scanning ht
  have hin := (hi.node t).member.mpr hmember
  have hread : t ∈ (s.mutex (some t)).readers := ((hi.node t).readers _).mpr ⟨rfl, hshare⟩
  exact (s.mutex (some t)).exclusive u (((hi.node u).of_modifying hu).2 t (Or.inl hin)) t hread

/-- **The list of the nodes is never scanned while it changes, and forgets no thread**: in any
    interleaving of constructors, destructors and scans of any number of threads. -/
theorem thread_registry_safe (h : Registry.Reach s) : RegistrySafe s := by
  have hi := registryInv_reach h
  refine ⟨fun t u ht hu => not_scanning_while_modifying h ht hu, fun t u ht hu => ?_,
    fun u hu => ((hi.node u).of_modifying hu).2, fun t hf => ?_, fun t ht => ?_, fun n hn => ?_, fun n hn => ?_⟩
  · exact (s.mutex none).single t ((hi.node t).of_modifying ht).1 u ((hi.node u).of_modifying hu).1
  · have hok := (hi.node t).ok
    rw [hf] at hok
    exact hok
  · have hheld := NodePc.held_of_outside ht s.nodes.data t
    have hbal := (hi.node t).balance
    rw [hheld, List.append_nil] at hbal
    refine ⟨(hi.node t).takenOnce, hbal.symm, fun m => ?_⟩
    rw [(hi.node t).writers, hheld]
    exact List.not_mem_nil
  · exact List.count_eq_one_of_mem hi.nodup ((hi.node n).member.mpr (NodePc.member_of_constructed hn))
  · rw [(hi.node n).member, hn]
    exact Bool.false_ne_true

end Invariant

/-- Node 0 is constructed and scans while the constructor of node 1 waits for its mutex. -/
def scanBesideConstructor : Registry Nat :=
  (Registry.run (List.replicate 8 (0, .construct) ++
    [(0, .synchronizeMinEpoch 3), (0, .construct), (1, .construct), (1, .construct), (1, .construct)])
    .init).get (by decide)

theorem thread_registry_safe_scanBesideConstructor :
    scanBesideConstructor.pc 0 = .waitMinEpoch 3 0 offState ∧
      scanBesideConstructor.pc 1 = .lockAll .constructor 0 ∧ RegistrySafe scanBesideConstructor :=
  ⟨by decide, by decide, thread_registry_safe (Registry.Reach.init.of_run (Option.some_get _).symm)⟩

end LockfreeStm
