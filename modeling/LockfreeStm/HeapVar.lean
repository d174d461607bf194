/-
  File:      LockfreeStm/HeapVar.lean
  Subject:   The storages of heap vars (detail/var_detail.hpp `allocate_construct`,
             `destroy_deallocate`, `~var_alloc_policy`) under constructions that throw.

  A storage comes from a constructor of `var` or from the first `set` of a var in an attempt. The
  new storage of a `set` belongs to the attempt's fail callback; a commit gives it to the var, and
  the storage the var had to the success callback. Threads are interleaved call by call; whether a
  `set` finds the var in the write set is left open, since a var found by another hash than it was
  entered with is entered twice (and then never locked twice).

  * `Books.fresh`, `Books.destroy` -- a storage is constructed, a storage is destroyed;
  * `apply_inv` -- what one call preserves, and `run_inv` what a run does;
  * **`clean_iff`** -- a storage is destroyed that was not constructed exactly in the runs in which
    a construction throws.
-/
import LockfreeStm.Word
import LockfreeStm.Library.Ledger

namespace LockfreeStm

namespace HeapVar

/-! ## 1. Vars, attempts, threads -/

/-- A storage: the object an allocator made room for. -/
abbrev Storage := Nat

/-- What `alloc_traits` is asked to do. -/
inductive Event where
  | allocated (p : Storage)
  | constructed (p : Storage)
  | destroyed (p : Storage)
  | deallocated (p : Storage)
deriving DecidableEq

/-- A construction of a `T`: one that is noexcept, one that may throw and does not, and one that
    throws. -/
inductive Construction where
  | nothrow
  | completes
  | throws
deriving DecidableEq

/-- `var_base`. -/
structure VarBase where
  version : Epoch
  storage : Storage

/-- An entry of the write set, with the storage its success callback destroys; that of its fail
    callback is the pending write. -/
structure Write where
  destVar : Nat
  newStorage : Storage
  curStorage : Storage

/-- A read_write attempt. -/
structure Attempt where
  version : Epoch
  writes : List Write

/-- A thread: the attempt it is in, and the storages its queued success callbacks destroy. -/
structure Thread where
  attempt : Option Attempt
  queued : List Storage

/-- The system: vars are numbered in the order they are made in, storages likewise. -/
structure Sys (ι : Type) where
  clock : Epoch
  nextVar : Nat
  vars : Nat → Option VarBase
  threads : ι → Thread
  next : Storage
  log : List Event

variable {ι : Type} [DecidableEq ι]

/-- Before any var is made. -/
def Sys.init : Sys ι := ⟨1, 0, fun _ => none, fun _ => ⟨none, []⟩, 0, []⟩

namespace Sys

/-! ## 2. var_detail.hpp -/

/-- A call of `alloc_traits` that takes effect. -/
def emit (s : Sys ι) (e : Event) : Sys ι := { s with log := s.log ++ [e] }

/-- `destroy_deallocate`. -/
def destroyDeallocate (s : Sys ι) (p : Storage) : Sys ι :=
  (s.emit (.destroyed p)).emit (.deallocated p)

/-- `allocate_construct`: `none` where the exception goes on. -/
def allocateConstruct (s : Sys ι) (c : Construction) : Sys ι × Option Storage :=
  let ptr := s.next
  let s := { s with next := s.next + 1 }.emit (.allocated ptr)
  match c with
  | .nothrow => (s.emit (.constructed ptr), some ptr)
  | .completes => (s.emit (.constructed ptr), some ptr)
  | .throws => (s.destroyDeallocate ptr, none)

/-! ## 3. transaction_base.hpp and commit_algorithm.hpp -/

/-- A thread's attempt is replaced. -/
def setAttempt (s : Sys ι) (t : ι) (a : Option Attempt) : Sys ι :=
  { s with threads := Function.update s.threads t { s.threads t with attempt := a } }

/-- `rw_write`, where the fast path is taken. -/
def rwWrite (s : Sys ι) (t : ι) (v : Nat) (c : Construction) : Sys ι :=
  match (s.threads t).attempt, s.vars v with
  | some a, some _ =>
    match s.allocateConstruct c with
    | (s, none) => s
    | (s, some newStorage) =>
      match s.vars v with
      | some x =>
        s.setAttempt t (some { a with writes := a.writes ++ [⟨v, newStorage, x.storage⟩] })
      | none => s
  | _, _ => s

/-- `rw_write_slow_path`, for a var that is not found: it loads the storage first. -/
def rwWriteSlowPath (s : Sys ι) (t : ι) (v : Nat) (c : Construction) : Sys ι :=
  match (s.threads t).attempt, s.vars v with
  | some a, some x =>
    let curStorage := x.storage
    match s.allocateConstruct c with
    | (s, none) => s
    | (s, some newStorage) =>
      s.setAttempt t (some { a with writes := a.writes ++ [⟨v, newStorage, curStorage⟩] })
  | _, _ => s

/-- `lock_writes`: a var that is locked already is newer than any version. -/
def lockWrites (s : Sys ι) (rv : Epoch) : List Nat → List Write → Bool
  | _, [] => true
  | locked, w :: ws =>
    (s.vars w.destVar).any (fun x => decide (x.version ≤ rv)) && !locked.contains w.destVar &&
      lockWrites s rv (locked ++ [w.destVar]) ws

/-- `do_writes` and `publish`. -/
def doWrites (vars : Nat → Option VarBase) (version : Epoch) : List Write → Nat → Option VarBase
  | [] => vars
  | w :: ws => doWrites (Function.update vars w.destVar (some ⟨version, w.newStorage⟩)) version ws

/-- `do_fail_callbacks`: the pending writes of the attempt, the last one first. -/
def doFailCallbacks (s : Sys ι) : List Write → Sys ι
  | [] => s
  | w :: ws => (doFailCallbacks s ws).destroyDeallocate w.newStorage

/-- The attempt of a thread ends unsuccessfully. -/
def txFailure (s : Sys ι) (t : ι) : Sys ι :=
  match (s.threads t).attempt with
  | some a => (s.doFailCallbacks a.writes).setAttempt t none
  | none => s

/-- `try_commit` and `tx_success`; other threads may have invalidated a read. -/
def tryCommit (s : Sys ι) (t : ι) (readsValid : Bool) : Sys ι :=
  match (s.threads t).attempt with
  | some a =>
    if s.lockWrites a.version [] a.writes && readsValid then
      { s with
        clock := s.clock + bumpSize
        vars := doWrites s.vars (s.clock + bumpSize) a.writes
        threads := Function.update s.threads t
          ⟨none, (s.threads t).queued ++ a.writes.map (·.curStorage)⟩ }
    else s.txFailure t
  | none => s

/-! ## 4. Runs -/

/-- A call. -/
inductive Call (ι : Type) where
  /-- a constructor of `var` -/
  | newVar (c : Construction)
  /-- a pass of `slow_path` begins -/
  | begin (t : ι)
  /-- `set` on the fast path -/
  | set (t : ι) (v : Nat) (c : Construction)
  /-- `set` on the slow path, of a var that is not found in the write set -/
  | setSlow (t : ι) (v : Nat) (c : Construction)
  /-- `set` of a var that is found: an assignment to the pending object -/
  | setAgain (t : ι) (v : Nat)
  | commit (t : ι) (readsValid : Bool)
  /-- `tx_retry` or another exception ends the attempt -/
  | abort (t : ι)
  /-- the thread runs its first queued success callback -/
  | runCallback (t : ι)
  /-- `~var` -/
  | destroyVar (v : Nat)

/-- A call, carried out. -/
def apply (s : Sys ι) : Call ι → Sys ι
  | .newVar c =>
    match s.allocateConstruct c with
    | (s, some p) =>
      { s with vars := Function.update s.vars s.nextVar (some ⟨0, p⟩), nextVar := s.nextVar + 1 }
    | (s, none) => s
  | .begin t => s.setAttempt t (some ⟨s.clock, []⟩)
  | .set t v c => s.rwWrite t v c
  | .setSlow t v c => s.rwWriteSlowPath t v c
  | .setAgain _ _ => s
  | .commit t readsValid => s.tryCommit t readsValid
  | .abort t => s.txFailure t
  | .runCallback t =>
    match (s.threads t).queued with
    | p :: ps =>
      { s.destroyDeallocate p with
        threads := Function.update s.threads t { s.threads t with queued := ps } }
    | [] => s
  | .destroyVar v =>
    match s.vars v with
    | some x => { s.destroyDeallocate x.storage with vars := Function.update s.vars v none }
    | none => s

/-- A `set` gets to its construction: the attempt is open, the var exists and `rw_valid` holds. -/
def Writable (s : Sys ι) (t : ι) (v : Nat) : Prop :=
  ∃ a x, (s.threads t).attempt = some a ∧ s.vars v = some x ∧ x.version ≤ a.version

/-- When a call can be made: a `set` that is not valid is an abort, and a var is destroyed while no
    open attempt has written it. -/
def Allowed (s : Sys ι) : Call ι → Prop
  | .newVar _ => True
  | .begin t => (s.threads t).attempt = none
  | .set t v _ => s.Writable t v
  | .setSlow t v _ => s.Writable t v
  | .setAgain t v => ∃ a, (s.threads t).attempt = some a ∧ v ∈ a.writes.map (·.destVar)
  | .commit t _ => (s.threads t).attempt ≠ none
  | .abort t => (s.threads t).attempt ≠ none
  | .runCallback t => (s.threads t).queued ≠ []
  | .destroyVar v => s.vars v ≠ none ∧
      ∀ t a, (s.threads t).attempt = some a → v ∉ a.writes.map (·.destVar)

/-- The calls of a run, one after the other. -/
def run (s : Sys ι) (calls : List (Call ι)) : Sys ι := calls.foldl apply s

/-- Each call of the run can be made when it is. -/
def AllowedRun (s : Sys ι) : List (Call ι) → Prop
  | [] => True
  | c :: cs => s.Allowed c ∧ (s.apply c).AllowedRun cs

/-- The construction a call makes throws. -/
def Call.throws : Call ι → Bool
  | .newVar c => c == .throws
  | .set _ _ c => c == .throws
  | .setSlow _ _ c => c == .throws
  | _ => false

/-- All vars are gone and all callbacks have run. -/
def Quiet (s : Sys ι) : Prop :=
  (∀ v, s.vars v = none) ∧ ∀ t, (s.threads t).attempt = none ∧ (s.threads t).queued = []

/-- A storage is destroyed only after it was constructed, at most once and before it is
    deallocated. -/
def DestroysConstructed (log : List Event) : Prop :=
  ∀ l₁ l₂ p, log = l₁ ++ .destroyed p :: l₂ →
    .constructed p ∈ l₁ ∧ .destroyed p ∉ l₁ ∧ .deallocated p ∉ l₁

/-- **Heap storage is destroyed only if it was constructed, and all of it is given back.** -/
structure Clean (s : Sys ι) : Prop where
  destroys : DestroysConstructed s.log
  deallocates : s.Quiet → ∀ p, .allocated p ∈ s.log → s.log.count (.deallocated p) = 1

end Sys

open Sys

/-! ## 5. The books -/

/-- Who will destroy a storage: a var, or a thread by one of its callbacks. -/
inductive Owner (ι : Type) where
  | var (v : Nat)
  | thread (t : ι)
deriving DecidableEq

/-- What was deallocated. -/
def gone (log : List Event) : List Storage :=
  log.filterMap fun
    | .deallocated p => some p
    | _ => none

/-- Where the storages are: with an owner, or deallocated. -/
def places (log : List Event) (L : Owner ι → List Storage) : Option (Owner ι) → List Storage
  | none => gone log
  | some o => L o

/-- **The books are in order**: every storage has one owner or is gone, and what happened to it
    happened in the right order. -/
structure Books (next : Storage) (log : List Event) (L : Owner ι → List Storage) : Prop where
  ledger : Ledger.Conserved (places log L) (· < next)
  destroys : DestroysConstructed log
  allocated : ∀ p, .allocated p ∈ log ↔ p < next
  constructed : ∀ p, .constructed p ∈ log ↔ p < next
  destroyed : ∀ p, .destroyed p ∈ log ↔ .deallocated p ∈ log

theorem mem_gone {log : List Event} {p : Storage} : p ∈ gone log ↔ .deallocated p ∈ log := by
  rw [gone, List.mem_filterMap]
  constructor
  · intro ⟨e, he, hp⟩
    cases e <;> cases hp
    exact he
  · exact fun h => ⟨_, h, rfl⟩

theorem gone_append (log log' : List Event) : gone (log ++ log') = gone log ++ gone log' :=
  List.filterMap_append ..

theorem count_gone {log : List Event} {p : Storage} :
    (gone log).count p = log.count (.deallocated p) := by
  induction log with
  | nil => rfl
  | cons e log ih =>
    cases e with
    | deallocated q =>
      have hg : gone (.deallocated q :: log) = q :: gone log := rfl
      rw [hg, List.count_cons, List.count_cons, ih]
      simp
    | allocated q => rw [List.count_cons_of_ne (by simp), ← ih]; rfl
    | constructed q => rw [List.count_cons_of_ne (by simp), ← ih]; rfl
    | destroyed q => rw [List.count_cons_of_ne (by simp), ← ih]; rfl

/-- A log is right if its beginning is and its last event is right. -/
theorem Sys.DestroysConstructed.snoc {log : List Event} {e : Event} (h : DestroysConstructed log)
    (he : ∀ p, e = .destroyed p →
      .constructed p ∈ log ∧ .destroyed p ∉ log ∧ .deallocated p ∉ log) :
    DestroysConstructed (log ++ [e]) := by
  intro l₁ l₂ p heq
  rcases List.eq_nil_or_concat l₂ with rfl | ⟨l₂, x, rfl⟩
  · obtain ⟨rfl, hlast⟩ := List.append_inj' heq rfl
    exact he p (List.cons_eq_cons.mp hlast).1
  · rw [List.concat_eq_append, ← List.cons_append, ← List.append_assoc] at heq
    exact h l₁ l₂ p (List.append_inj' heq rfl).1

theorem Sys.DestroysConstructed.of_append {log log' : List Event}
    (h : DestroysConstructed (log ++ log')) : DestroysConstructed log := by
  intro l₁ l₂ p heq
  exact h l₁ (l₂ ++ log') p (by rw [heq, List.append_assoc, List.cons_append])

section Books

variable {next : Storage} {log : List Event} {L L' : Owner ι → List Storage} {o : Owner ι}

omit [DecidableEq ι] in
theorem Books.congr (h : Books next log L) (hp : ∀ o, (L' o).Perm (L o)) : Books next log L' :=
  { h with
    ledger := h.ledger.congr fun a => by
      cases a with
      | none => exact .refl _
      | some o => exact hp o }

omit [DecidableEq ι] in
/-- **A storage is allocated and constructed**, for the owner `o`. -/
theorem Books.fresh (h : Books next log L) (ho : (L' o).Perm (next :: L o))
    (hne : ∀ o', o' ≠ o → (L' o').Perm (L o')) :
    Books (next + 1) ((log ++ [.allocated next]) ++ [.constructed next]) L' := by
  have hgone : gone ((log ++ [.allocated next]) ++ [.constructed next]) = gone log := by
    rw [gone_append, gone_append]
    simp [gone]
  refine ⟨?_, ?_, fun p => ?_, fun p => ?_, fun p => ?_⟩
  · refine h.ledger.fresh (Nat.lt_irrefl next) (a := some o) ho (fun b hb => ?_)
      fun p => Nat.lt_succ_iff_lt_or_eq
    · cases b with
      | none =>
        show (gone _).Perm (gone log)
        rw [hgone]
      | some o' => exact hne o' fun e => hb (congrArg some e)
  · exact (h.destroys.snoc fun p e => by cases e).snoc fun p e => by cases e
  · rw [Nat.lt_succ_iff_lt_or_eq]
    simp [h.allocated]
  · rw [Nat.lt_succ_iff_lt_or_eq]
    simp [h.constructed]
  · simp [h.destroyed]

omit [DecidableEq ι] in
/-- **A storage is destroyed and deallocated** by its owner `o`. -/
theorem Books.destroy {p : Storage} (h : Books next log L) (ho : (L o).Perm (p :: L' o))
    (hne : ∀ o', o' ≠ o → (L' o').Perm (L o')) :
    Books next ((log ++ [.destroyed p]) ++ [.deallocated p]) L' := by
  have hmem : p ∈ L o := ho.mem_iff.mpr List.mem_cons_self
  have hlt : p < next := (h.ledger.complete p).mpr ⟨some o, hmem⟩
  have hnot : .deallocated p ∉ log := fun hm =>
    absurd (h.ledger.unique (some o) none p hmem (mem_gone.mpr hm)) (Option.some_ne_none o)
  refine ⟨?_, ?_, fun q => ?_, fun q => ?_, fun q => ?_⟩
  · refine h.ledger.move (a := some o) (b := none) (Option.some_ne_none o) ho ?_ fun b hb hb' => ?_
    · show (gone _).Perm (p :: gone log)
      rw [gone_append, gone_append]
      simp only [gone, List.filterMap_cons, List.filterMap_nil, List.append_nil]
      exact List.perm_append_singleton p _
    · cases b with
      | none => exact absurd rfl hb'
      | some o' => exact hne o' fun e => hb (congrArg some e)
  · refine (h.destroys.snoc fun q e => ?_).snoc fun q e => by cases e
    cases e
    exact ⟨(h.constructed p).mpr hlt, fun hm => hnot ((h.destroyed p).mp hm), hnot⟩
  · simp [h.allocated]
  · simp [h.constructed]
  · simp [h.destroyed]

/-- Several storages of one owner are destroyed, the last one first. -/
theorem Books.destroyAll {ws : List Write} {r : List Storage} {log' : List Event}
    (h : Books next log L) (hlog : log' = log ++ ws.reverse.flatMap fun w =>
      [.destroyed w.newStorage, .deallocated w.newStorage])
    (ho : (L o).Perm (ws.map (·.newStorage) ++ r)) (ho' : (L' o).Perm r)
    (hne : ∀ o', o' ≠ o → (L' o').Perm (L o')) : Books next log' L' := by
  induction ws generalizing log' r L' with
  | nil =>
    rw [List.reverse_nil, List.flatMap_nil, List.append_nil] at hlog
    subst hlog
    refine h.congr fun o' => ?_
    by_cases hoo : o' = o
    · subst hoo
      exact ho'.trans ho.symm
    · exact hne o' hoo
  | cons w ws ih =>
    rw [List.reverse_cons, List.flatMap_append, ← List.append_assoc] at hlog
    subst hlog
    have hmid : (L o).Perm (ws.map (·.newStorage) ++ w.newStorage :: r) :=
      ho.trans List.perm_middle.symm
    let mid : Owner ι → List Storage := fun o' => if o' = o then w.newStorage :: r else L o'
    have hmids : mid o = w.newStorage :: r := if_pos rfl
    have hmidne : ∀ o', o' ≠ o → mid o' = L o' := fun o' hoo => if_neg hoo
    have hbooks : Books next _ mid := ih rfl hmid (.of_eq hmids) fun o' hoo => .of_eq (hmidne o' hoo)
    have hdone : Books next _ L' := hbooks.destroy (p := w.newStorage) (o := o)
      (hmids ▸ ho'.symm.cons _) fun o' hoo => hmidne o' hoo ▸ hne o' hoo
    simpa using hdone

end Books

/-! ## 6. What one call preserves -/

namespace Sys

variable {s : Sys ι} {t : ι} {v : Nat} {c : Construction}

/-- The pending writes of a thread's attempt. -/
def writesOf (s : Sys ι) (t : ι) : List Write :=
  match (s.threads t).attempt with
  | some a => a.writes
  | none => []

/-- The storages of each owner. -/
def owned (s : Sys ι) : Owner ι → List Storage
  | .var v => (s.vars v).toList.map (·.storage)
  | .thread t => (s.writesOf t).map (·.newStorage) ++ (s.threads t).queued

/-- The state of a run in which no construction has thrown. -/
structure Inv (s : Sys ι) : Prop where
  books : Books s.next s.log s.owned
  /-- a var that its attempt could still lock has the storage the success callback is to destroy -/
  current : ∀ t a w x, (s.threads t).attempt = some a → w ∈ a.writes →
    s.vars w.destVar = some x → x.version ≤ a.version → x.storage = w.curStorage
  alive : ∀ t a w, (s.threads t).attempt = some a → w ∈ a.writes → s.vars w.destVar ≠ none
  versions : ∀ t a, (s.threads t).attempt = some a → a.version ≤ s.clock
  fresh : ∀ v, s.nextVar ≤ v → s.vars v = none

omit [DecidableEq ι] in
theorem writesOf_some {a : Attempt} (h : (s.threads t).attempt = some a) :
    s.writesOf t = a.writes := by
  rw [writesOf, h]

omit [DecidableEq ι] in
theorem writesOf_none (h : (s.threads t).attempt = none) : s.writesOf t = [] := by
  rw [writesOf, h]

omit [DecidableEq ι] in
theorem init_inv : (init : Sys ι).Inv where
  books := by
    refine ⟨⟨fun a => ?_, fun a b x ha => ?_, fun x => ?_⟩, fun l₁ l₂ p h => ?_, ?_, ?_, ?_⟩
    · rcases a with _ | (v | t) <;> exact .nil
    · rcases a with _ | (v | t) <;> cases ha
    · refine ⟨fun h => absurd h (Nat.not_lt_zero x), fun ⟨a, ha⟩ => ?_⟩
      rcases a with _ | (v | t) <;> cases ha
    · exact absurd h (List.append_ne_nil_of_right_ne_nil _ (List.cons_ne_nil _ _)).symm
    · exact fun p => ⟨fun h => (by cases h), fun h => absurd h (Nat.not_lt_zero p)⟩
    · exact fun p => ⟨fun h => (by cases h), fun h => absurd h (Nat.not_lt_zero p)⟩
    · exact fun p => ⟨fun h => (by cases h), fun h => (by cases h)⟩
  current := fun _ _ _ _ h => (by cases h)
  alive := fun _ _ _ h => (by cases h)
  versions := fun _ _ h => (by cases h)
  fresh := fun _ _ => rfl

omit [DecidableEq ι] in
/-- A construction that does not throw. -/
theorem allocateConstruct_of_ne (hc : c ≠ .throws) :
    s.allocateConstruct c =
      ({ s with
          next := s.next + 1
          log := (s.log ++ [.allocated s.next]) ++ [.constructed s.next] }, some s.next) := by
  cases c with
  | throws => exact absurd rfl hc
  | nothrow => rfl
  | completes => rfl

omit [DecidableEq ι] in
/-- One that throws: its storage is destroyed all the same. -/
theorem allocateConstruct_throws :
    s.allocateConstruct .throws =
      ({ s with
          next := s.next + 1
          log := ((s.log ++ [.allocated s.next]) ++ [.destroyed s.next]) ++
            [.deallocated s.next] }, none) := rfl

/-- The two paths of `rw_write` do the same. -/
theorem rwWriteSlowPath_eq : s.rwWriteSlowPath t v c = s.rwWrite t v c := by
  unfold rwWriteSlowPath rwWrite
  cases (s.threads t).attempt with
  | none => rfl
  | some a =>
    cases hv : s.vars v with
    | none => rfl
    | some x => cases c <;> simp [allocateConstruct, emit, destroyDeallocate, hv]

/-- The thread's attempt is replaced: what owns what. -/
theorem owned_setAttempt (s : Sys ι) (t : ι) (a : Option Attempt) (o : Owner ι)
    (ho : o ≠ .thread t) : (s.setAttempt t a).owned o = s.owned o := by
  cases o with
  | var v => rfl
  | thread u =>
    have hu : u ≠ t := fun e => ho (e ▸ rfl)
    simp [owned, writesOf, setAttempt, hu]

theorem owned_setAttempt_some (s : Sys ι) (t : ι) (a : Attempt) :
    (s.setAttempt t (some a)).owned (.thread t) =
      a.writes.map (·.newStorage) ++ (s.threads t).queued := by
  simp [owned, writesOf, setAttempt]

theorem owned_setAttempt_none (s : Sys ι) (t : ι) :
    (s.setAttempt t none).owned (.thread t) = (s.threads t).queued := by
  simp [owned, writesOf, setAttempt]

/-- A new var. -/
theorem newVar_inv (h : s.Inv) (hc : c ≠ .throws) : (s.apply (.newVar c)).Inv := by
  rw [apply, allocateConstruct_of_ne hc]
  have hnone : s.vars s.nextVar = none := h.fresh _ (Nat.le_refl _)
  have hne : ∀ v, s.vars v ≠ none → v ≠ s.nextVar := fun v hv e => hv (e ▸ hnone)
  refine ⟨?_, fun t a w x ha hw hx => ?_, fun t a w ha hw => ?_, h.versions, fun v hv => ?_⟩
  · refine h.books.fresh (o := .var s.nextVar) ?_ fun o ho => ?_
    · simp [owned, hnone]
    · cases o with
      | var v =>
        have hv : v ≠ s.nextVar := fun e => ho (e ▸ rfl)
        simp [owned, hv]
      | thread t => exact .refl _
  · have hw' := hne _ (h.alive t a w ha hw)
    dsimp only at hx
    rw [Function.update_of_ne hw'] at hx
    exact h.current t a w x ha hw hx
  · have hw' := hne _ (h.alive t a w ha hw)
    dsimp only
    rw [Function.update_of_ne hw']
    exact h.alive t a w ha hw
  · dsimp only at hv ⊢
    rw [Function.update_of_ne (Nat.ne_of_gt hv)]
    exact h.fresh v (Nat.le_of_succ_le hv)

/-- A pass begins. -/
theorem begin_inv (h : s.Inv) (ht : (s.threads t).attempt = none) : (s.apply (.begin t)).Inv := by
  have hthreads : ∀ u a, ((s.apply (.begin t)).threads u).attempt = some a →
      u = t ∧ a = ⟨s.clock, []⟩ ∨ (s.threads u).attempt = some a := by
    intro u a ha
    by_cases hu : u = t
    · subst hu
      simp only [apply, setAttempt, Function.update_self, Option.some.injEq] at ha
      exact .inl ⟨rfl, ha.symm⟩
    · simp only [apply, setAttempt, Function.update_of_ne hu] at ha
      exact .inr ha
  refine ⟨h.books.congr fun o => ?_, fun u a w x ha hw => ?_, fun u a w ha hw => ?_,
    fun u a ha => ?_, h.fresh⟩
  · by_cases ho : o = .thread t
    · subst ho
      refine .of_eq ((owned_setAttempt_some s t _).trans ?_)
      rw [owned, writesOf_none ht]
    · exact .of_eq (owned_setAttempt s t _ o ho)
  · rcases hthreads u a ha with ⟨-, rfl⟩ | ha
    · cases hw
    · exact h.current u a w x ha hw
  · rcases hthreads u a ha with ⟨-, rfl⟩ | ha
    · cases hw
    · exact h.alive u a w ha hw
  · rcases hthreads u a ha with ⟨-, rfl⟩ | ha
    · exact Nat.le_refl _
    · exact h.versions u a ha

/-- The first `set` of a var, or one that does not find it. -/
theorem rwWrite_inv (h : s.Inv) (hw : s.Writable t v) (hc : c ≠ .throws) :
    (s.rwWrite t v c).Inv := by
  obtain ⟨a, x, ha, hx, -⟩ := hw
  have heq : s.rwWrite t v c =
      { s.setAttempt t (some { a with writes := a.writes ++ [⟨v, s.next, x.storage⟩] }) with
        next := s.next + 1
        log := (s.log ++ [.allocated s.next]) ++ [.constructed s.next] } := by
    unfold rwWrite
    rw [ha, hx]
    dsimp only
    rw [allocateConstruct_of_ne hc]
    dsimp only
    rw [hx]
    rfl
  have hthreads : ∀ u b, ((s.rwWrite t v c).threads u).attempt = some b →
      u = t ∧ b = { a with writes := a.writes ++ [⟨v, s.next, x.storage⟩] } ∨
        (s.threads u).attempt = some b := by
    intro u b hb
    rw [heq] at hb
    by_cases hu : u = t
    · subst hu
      simp only [setAttempt, Function.update_self, Option.some.injEq] at hb
      exact .inl ⟨rfl, hb.symm⟩
    · simp only [setAttempt, Function.update_of_ne hu] at hb
      exact .inr hb
  refine ⟨?_, fun u b w y hb hw hy hle => ?_, fun u b w hb hw => ?_, fun u b hb => ?_, ?_⟩
  · rw [heq]
    refine h.books.fresh (o := .thread t) ?_ fun o ho => .of_eq (owned_setAttempt s t _ o ho)
    refine (List.Perm.of_eq (owned_setAttempt_some s t _)).trans ?_
    rw [owned, writesOf_some ha]
    simp only [List.map_append, List.map_cons, List.map_nil, List.append_assoc, List.singleton_append]
    exact List.perm_middle
  · rw [heq] at hy
    rcases hthreads u b hb with ⟨rfl, rfl⟩ | hb
    · rcases List.mem_append.mp hw with hw | hw
      · exact h.current u a w y ha hw hy hle
      · rw [List.mem_singleton.mp hw] at hy ⊢
        exact (congrArg VarBase.storage (Option.some.inj (hx.symm.trans hy))).symm
    · exact h.current u b w y hb hw hy hle
  · rw [heq]
    rcases hthreads u b hb with ⟨rfl, rfl⟩ | hb
    · rcases List.mem_append.mp hw with hw | hw
      · exact h.alive u a w ha hw
      · rw [List.mem_singleton.mp hw]
        exact hx ▸ Option.some_ne_none x
    · exact h.alive u b w hb hw
  · rw [heq]
    rcases hthreads u b hb with ⟨rfl, rfl⟩ | hb
    · exact h.versions u a ha
    · exact h.versions u b hb
  · rw [heq]
    exact h.fresh

omit [DecidableEq ι] in
/-- The fail callbacks of an attempt do to memory what they do, and nothing else. -/
theorem doFailCallbacks_eq (ws : List Write) :
    s.doFailCallbacks ws = { s with
      log := s.log ++ ws.reverse.flatMap fun w =>
        [.destroyed w.newStorage, .deallocated w.newStorage] } := by
  induction ws with
  | nil => simp [doFailCallbacks]
  | cons w ws ih =>
    rw [doFailCallbacks, ih, List.reverse_cons, List.flatMap_append]
    simp [destroyDeallocate, emit]

/-- The attempt of a thread is over: the other threads' attempts are those there were. -/
theorem attempt_of_setAttempt_none {u : ι} {a : Attempt}
    (h : ((s.setAttempt t none).threads u).attempt = some a) :
    u ≠ t ∧ (s.threads u).attempt = some a := by
  by_cases hu : u = t
  · subst hu
    simp [setAttempt] at h
  · simp only [setAttempt, Function.update_of_ne hu] at h
    exact ⟨hu, h⟩

/-- An attempt fails. -/
theorem txFailure_inv (h : s.Inv) (ht : (s.threads t).attempt ≠ none) : (s.txFailure t).Inv := by
  obtain ⟨a, ha⟩ := Option.ne_none_iff_exists'.mp ht
  have heq : s.txFailure t = { s.setAttempt t none with
      log := s.log ++ a.writes.reverse.flatMap fun w =>
        [.destroyed w.newStorage, .deallocated w.newStorage] } := by
    rw [txFailure, ha]
    dsimp only
    rw [doFailCallbacks_eq]
    rfl
  rw [heq]
  refine ⟨?_, fun u b w x hb hw hx hle => ?_, fun u b w hb hw => ?_, fun u b hb => ?_, h.fresh⟩
  · refine h.books.destroyAll (o := .thread t) rfl (.of_eq ?_)
      (.of_eq (owned_setAttempt_none s t)) fun o ho => .of_eq (owned_setAttempt s t _ o ho)
    rw [owned, writesOf_some ha]
  · exact h.current u b w x (attempt_of_setAttempt_none hb).2 hw hx hle
  · exact h.alive u b w (attempt_of_setAttempt_none hb).2 hw
  · exact h.versions u b (attempt_of_setAttempt_none hb).2

theorem doWrites_of_notMem {vars : Nat → Option VarBase} {version : Epoch} {ws : List Write}
    (h : v ∉ ws.map (·.destVar)) : doWrites vars version ws v = vars v := by
  induction ws generalizing vars with
  | nil => rfl
  | cons w ws ih =>
    rw [List.map_cons, List.mem_cons, not_or] at h
    rw [doWrites, ih h.2, Function.update_of_ne h.1]

theorem doWrites_of_mem {vars : Nat → Option VarBase} {version : Epoch} {ws : List Write}
    (hn : (ws.map (·.destVar)).Nodup) {w : Write} (hw : w ∈ ws) :
    doWrites vars version ws w.destVar = some ⟨version, w.newStorage⟩ := by
  induction ws generalizing vars with
  | nil => cases hw
  | cons w' ws ih =>
    rw [List.map_cons, List.nodup_cons] at hn
    rcases List.mem_cons.mp hw with rfl | hw
    · rw [doWrites, doWrites_of_notMem hn.1, Function.update_self]
    · exact ih hn.2 hw

omit [DecidableEq ι] in
/-- All locks of the write set: no var is in it twice, and each is as old as the attempt. -/
theorem lockWrites_spec {rv : Epoch} {locked : List Nat} {ws : List Write}
    (h : s.lockWrites rv locked ws = true) :
    (ws.map (·.destVar)).Nodup ∧ (∀ w ∈ ws, w.destVar ∉ locked) ∧
      ∀ w ∈ ws, ∃ x, s.vars w.destVar = some x ∧ x.version ≤ rv := by
  induction ws generalizing locked with
  | nil => exact ⟨.nil, fun _ hw => (by cases hw), fun _ hw => (by cases hw)⟩
  | cons w ws ih =>
    rw [lockWrites, Bool.and_eq_true, Bool.and_eq_true, Option.any_eq_true] at h
    obtain ⟨⟨⟨x, hx, hle⟩, hnot⟩, hrest⟩ := h
    obtain ⟨hn, hlocked, hvalid⟩ := ih hrest
    have hnot : w.destVar ∉ locked := by simpa using hnot
    refine ⟨?_, ?_, ?_⟩
    · rw [List.map_cons, List.nodup_cons]
      refine ⟨fun hm => ?_, hn⟩
      obtain ⟨w', hw', he⟩ := List.mem_map.mp hm
      exact hlocked w' hw' (List.mem_append_right _ (List.mem_singleton.mpr he))
    · intro w' hw' hm
      rcases List.mem_cons.mp hw' with rfl | hw'
      · exact hnot hm
      · exact hlocked w' hw' (List.mem_append_left _ hm)
    · intro w' hw'
      rcases List.mem_cons.mp hw' with rfl | hw'
      · exact ⟨x, hx, of_decide_eq_true hle⟩
      · exact hvalid w' hw'

/-- **A commit swaps storages**: each var gets the new one, the thread's callbacks the old one. -/
theorem tryCommit_inv (h : s.Inv) {readsValid : Bool} (ht : (s.threads t).attempt ≠ none) :
    (s.tryCommit t readsValid).Inv := by
  obtain ⟨a, ha⟩ := Option.ne_none_iff_exists'.mp ht
  unfold tryCommit
  rw [ha]
  dsimp only
  by_cases hlock : (s.lockWrites a.version [] a.writes && readsValid) = true
  · rw [if_pos hlock]
    obtain ⟨hn, -, hvalid⟩ := lockWrites_spec (Bool.and_eq_true _ _ ▸ hlock).1
    have hold : ∀ w ∈ a.writes, (s.vars w.destVar).toList.map (·.storage) = [w.curStorage] := by
      intro w hw
      obtain ⟨x, hx, hle⟩ := hvalid w hw
      rw [hx, ← h.current t a w x ha hw hx hle]
      rfl
    have hthreads : ∀ {u b}, ((Function.update s.threads t ⟨none, (s.threads t).queued ++
        a.writes.map (·.curStorage)⟩) u).attempt = some b → (s.threads u).attempt = some b := by
      intro u b hb
      by_cases hu : u = t
      · subst hu
        rw [Function.update_self] at hb
        cases hb
      · rwa [Function.update_of_ne hu] at hb
    refine ⟨{ h.books with ledger := ?_ }, fun u b w x hb hw hx hle => ?_, fun u b w hb hw => ?_,
      fun u b hb => ?_, fun v hv => ?_⟩
    · refine h.books.ledger.swaps (a := some (.thread t)) (r := (s.threads t).queued)
        (a.writes.map fun w => (some (.var w.destVar), w.newStorage, w.curStorage)) ?_ ?_ ?_ ?_ ?_ ?_
      · rw [List.map_map]
        have hvar : Function.Injective fun v : Nat => some (Owner.var v : Owner ι) :=
          fun v v' e => Owner.var.inj (Option.some.inj e)
        have := hn.map hvar
        rwa [List.map_map] at this
      · simp
      · refine .of_eq ?_
        rw [List.map_map, places, owned, writesOf_some ha]
        rfl
      · rw [List.map_map, places, owned]
        simp only [writesOf, Function.update_self, List.map_nil, List.nil_append]
        exact List.perm_append_comm
      · intro p hp
        obtain ⟨w, hw, rfl⟩ := List.mem_map.mp hp
        refine ⟨hold w hw, ?_⟩
        rw [places, owned]
        dsimp only
        rw [doWrites_of_mem hn hw]
        rfl
      · intro b hb hbw
        rw [List.map_map] at hbw
        cases b with
        | none => rfl
        | some o =>
          cases o with
          | var v =>
            have hv : v ∉ a.writes.map (·.destVar) := fun hm => hbw (by
              obtain ⟨w, hw, rfl⟩ := List.mem_map.mp hm
              exact List.mem_map.mpr ⟨w, hw, rfl⟩)
            simp only [places, owned]
            rw [doWrites_of_notMem hv]
          | thread u =>
            have hu : u ≠ t := fun e => hb (e ▸ rfl)
            simp only [places, owned, writesOf]
            rw [Function.update_of_ne hu]
    · -- the vars this commit wrote are newer than every open attempt
      have hb := hthreads hb
      by_cases hm : w.destVar ∈ a.writes.map (·.destVar)
      · obtain ⟨w', hw', he⟩ := List.mem_map.mp hm
        have hnew := (doWrites_of_mem hn hw').symm.trans (he ▸ hx)
        cases hnew
        exact absurd hle (Nat.not_le_of_lt (Nat.lt_succ_of_le (h.versions u b hb)))
      · dsimp only at hx
        rw [doWrites_of_notMem hm] at hx
        exact h.current u b w x hb hw hx hle
    · have hb := hthreads hb
      by_cases hm : w.destVar ∈ a.writes.map (·.destVar)
      · obtain ⟨w', hw', he⟩ := List.mem_map.mp hm
        dsimp only
        rw [← he, doWrites_of_mem hn hw']
        exact Option.some_ne_none _
      · dsimp only
        rw [doWrites_of_notMem hm]
        exact h.alive u b w hb hw
    · exact Nat.le_succ_of_le (h.versions u b (hthreads hb))
    · have hm : v ∉ a.writes.map (·.destVar) := by
        intro hm
        obtain ⟨w, hw, rfl⟩ := List.mem_map.mp hm
        exact h.alive t a w ha hw (h.fresh _ hv)
      dsimp only
      rw [doWrites_of_notMem hm]
      exact h.fresh v hv
  · rw [if_neg hlock]
    exact txFailure_inv h ht

/-- A queued callback runs. -/
theorem runCallback_inv (h : s.Inv) (ht : (s.threads t).queued ≠ []) :
    (s.apply (.runCallback t)).Inv := by
  obtain ⟨p, ps, hq⟩ := List.exists_cons_of_ne_nil ht
  have hattempt : ∀ u, (Function.update s.threads t { s.threads t with queued := ps } u).attempt =
      (s.threads u).attempt := by
    intro u
    by_cases hu : u = t
    · subst hu
      rw [Function.update_self]
    · rw [Function.update_of_ne hu]
  rw [apply, hq]
  dsimp only
  refine ⟨?_, fun u a w x ha hw hx hle => ?_, fun u a w ha hw => ?_, fun u a ha => ?_, h.fresh⟩
  · refine h.books.destroy (o := .thread t) ?_ fun o ho => ?_
    · simp only [owned, writesOf, Function.update_self, hq]
      exact List.perm_middle
    · cases o with
      | var v => exact .refl _
      | thread u =>
        have hu : u ≠ t := fun e => ho (e ▸ rfl)
        simp only [owned, writesOf, Function.update_of_ne hu]
        exact .refl _
  · exact h.current u a w x ((hattempt u).symm.trans ha) hw hx hle
  · exact h.alive u a w ((hattempt u).symm.trans ha) hw
  · exact h.versions u a ((hattempt u).symm.trans ha)

/-- A var is destroyed. -/
theorem destroyVar_inv (h : s.Inv) (hv : s.vars v ≠ none)
    (hfree : ∀ t a, (s.threads t).attempt = some a → v ∉ a.writes.map (·.destVar)) :
    (s.apply (.destroyVar v)).Inv := by
  obtain ⟨x, hx⟩ := Option.ne_none_iff_exists'.mp hv
  have hne : ∀ u a w, (s.threads u).attempt = some a → w ∈ a.writes → w.destVar ≠ v :=
    fun u a w ha hw e => hfree u a ha (List.mem_map.mpr ⟨w, hw, e⟩)
  rw [apply, hx]
  dsimp only
  refine ⟨?_, fun u a w y ha hw hy => ?_, fun u a w ha hw => ?_, h.versions, fun v' hv' => ?_⟩
  · refine h.books.destroy (o := .var v) ?_ fun o ho => ?_
    · simp [owned, hx]
    · cases o with
      | var v' =>
        have hv' : v' ≠ v := fun e => ho (e ▸ rfl)
        simp only [owned, Function.update_of_ne hv']
        exact .refl _
      | thread u => exact .refl _
  · dsimp only at hy
    rw [Function.update_of_ne (hne u a w ha hw)] at hy
    exact h.current u a w y ha hw hy
  · dsimp only
    rw [Function.update_of_ne (hne u a w ha hw)]
    exact h.alive u a w ha hw
  · dsimp only
    by_cases e : v' = v
    · rw [e, Function.update_self]
    · rw [Function.update_of_ne e]
      exact h.fresh v' hv'

/-- **One call without a throwing construction.** -/
theorem apply_inv {call : Call ι} (h : s.Inv) (ha : s.Allowed call) (hc : call.throws = false) :
    (s.apply call).Inv := by
  cases call with
  | newVar c => exact newVar_inv h (ne_of_beq_false hc)
  | begin t => exact begin_inv h ha
  | set t v c => exact rwWrite_inv h ha (ne_of_beq_false hc)
  | setSlow t v c =>
    rw [apply, rwWriteSlowPath_eq]
    exact rwWrite_inv h ha (ne_of_beq_false hc)
  | setAgain t v => exact h
  | commit t readsValid => exact tryCommit_inv h ha
  | abort t => exact txFailure_inv h ha
  | runCallback t => exact runCallback_inv h ha
  | destroyVar v => exact destroyVar_inv h ha.1 ha.2

/-- **A run without a throwing construction.** -/
theorem run_inv {calls : List (Call ι)} (h : s.Inv) (ha : s.AllowedRun calls)
    (hc : ∀ call ∈ calls, call.throws = false) : (s.run calls).Inv := by
  induction calls generalizing s with
  | nil => exact h
  | cons call calls ih =>
    exact ih (apply_inv h ha.1 (hc call List.mem_cons_self)) ha.2
      fun d hd => hc d (List.mem_cons_of_mem _ hd)

/-! ## 7. Throwing constructions -/

/-- No storage is constructed before it is allocated. -/
def Ahead (s : Sys ι) : Prop := ∀ p, .constructed p ∈ s.log → p < s.next

/-- **What a call adds to the log**, whatever its construction does: a storage is constructed only
    as the next one. -/
theorem apply_log (s : Sys ι) (call : Call ι) : ∃ new, (s.apply call).log = s.log ++ new ∧
    s.next ≤ (s.apply call).next ∧
      ∀ p, .constructed p ∈ new → p = s.next ∧ s.next < (s.apply call).next := by
  have hset : ∀ t v c, ∃ new, (s.rwWrite t v c).log = s.log ++ new ∧
      s.next ≤ (s.rwWrite t v c).next ∧
        ∀ p, .constructed p ∈ new → p = s.next ∧ s.next < (s.rwWrite t v c).next := by
    intro t v c
    have hnone : ∃ new, s.log = s.log ++ new ∧ s.next ≤ s.next ∧
        ∀ p, .constructed p ∈ new → p = s.next ∧ s.next < s.next :=
      ⟨[], (List.append_nil _).symm, Nat.le_refl _, fun p hp => (by cases hp)⟩
    unfold rwWrite
    cases ha : (s.threads t).attempt with
    | none => exact hnone
    | some a =>
      cases hv : s.vars v with
      | none => exact hnone
      | some x =>
        dsimp only
        by_cases hc : c = .throws
        · subst hc
          rw [allocateConstruct_throws]
          refine ⟨[.allocated s.next, .destroyed s.next, .deallocated s.next], by simp,
            Nat.le_succ _, fun p hp => by simp at hp⟩
        · rw [allocateConstruct_of_ne hc]
          dsimp only
          rw [hv]
          refine ⟨[.allocated s.next, .constructed s.next], by simp [setAttempt],
            Nat.le_succ _, fun p hp => ?_⟩
          have : p = s.next := by simpa using hp
          exact ⟨this, Nat.lt_succ_self _⟩
  have hquiet : ∀ {s' : Sys ι} (ps : List Write), s'.log = s.log ++ ps.reverse.flatMap (fun w =>
      [.destroyed w.newStorage, .deallocated w.newStorage]) → s'.next = s.next →
        ∃ new, s'.log = s.log ++ new ∧ s.next ≤ s'.next ∧
          ∀ p, .constructed p ∈ new → p = s.next ∧ s.next < s'.next := by
    intro s' ps hlog hnext
    exact ⟨_, hlog, Nat.le_of_eq hnext.symm, fun p hp => by simp at hp⟩
  have hfail : ∀ t, ∃ new, (s.txFailure t).log = s.log ++ new ∧ s.next ≤ (s.txFailure t).next ∧
      ∀ p, .constructed p ∈ new → p = s.next ∧ s.next < (s.txFailure t).next := by
    intro t
    unfold txFailure
    cases (s.threads t).attempt with
    | none => exact hquiet [] (by simp) rfl
    | some a =>
      dsimp only
      rw [doFailCallbacks_eq]
      exact hquiet a.writes rfl rfl
  have hsame : ∀ {s' : Sys ι}, s'.log = s.log → s'.next = s.next →
      ∃ new, s'.log = s.log ++ new ∧ s.next ≤ s'.next ∧
        ∀ p, .constructed p ∈ new → p = s.next ∧ s.next < s'.next :=
    fun hlog hnext => hquiet [] (by simpa using hlog) hnext
  cases call with
  | newVar c =>
    rw [apply]
    by_cases hc : c = .throws
    · subst hc
      rw [allocateConstruct_throws]
      exact ⟨[.allocated s.next, .destroyed s.next, .deallocated s.next], by simp, Nat.le_succ _,
        fun p hp => by simp at hp⟩
    · rw [allocateConstruct_of_ne hc]
      refine ⟨[.allocated s.next, .constructed s.next], by simp, Nat.le_succ _, fun p hp => ?_⟩
      have : p = s.next := by simpa using hp
      exact ⟨this, Nat.lt_succ_self _⟩
  | begin t => exact hsame rfl rfl
  | set t v c => exact hset t v c
  | setSlow t v c =>
    rw [apply, rwWriteSlowPath_eq]
    exact hset t v c
  | setAgain t v => exact hsame rfl rfl
  | commit t readsValid =>
    rw [apply]
    unfold tryCommit
    cases (s.threads t).attempt with
    | none => exact hsame rfl rfl
    | some a =>
      dsimp only
      split
      · exact hsame rfl rfl
      · exact hfail t
  | abort t => exact hfail t
  | runCallback t =>
    rw [apply]
    cases (s.threads t).queued with
    | nil => exact hsame rfl rfl
    | cons p ps => exact hquiet [⟨0, p, 0⟩] (by simp [destroyDeallocate, emit]) rfl
  | destroyVar v =>
    rw [apply]
    cases s.vars v with
    | none => exact hsame rfl rfl
    | some x => exact hquiet [⟨0, x.storage, 0⟩] (by simp [destroyDeallocate, emit]) rfl

theorem apply_ahead (h : s.Ahead) (call : Call ι) : (s.apply call).Ahead := by
  intro p hp
  obtain ⟨new, hlog, hle, hnew⟩ := apply_log s call
  rw [hlog, List.mem_append] at hp
  rcases hp with hp | hp
  · exact Nat.lt_of_lt_of_le (h p hp) hle
  · obtain ⟨rfl, hlt⟩ := hnew p hp
    exact hlt

theorem run_log (s : Sys ι) (calls : List (Call ι)) : ∃ new, (s.run calls).log = s.log ++ new := by
  induction calls generalizing s with
  | nil => exact ⟨[], (List.append_nil _).symm⟩
  | cons call calls ih =>
    obtain ⟨new, hnew, -⟩ := apply_log s call
    obtain ⟨new', hnew'⟩ := ih (s.apply call)
    exact ⟨new ++ new', hnew'.trans (by rw [hnew, List.append_assoc])⟩

/-- **A throwing construction has its storage destroyed, which was not constructed.** -/
theorem apply_throws {call : Call ι} (h : s.Ahead) (ha : s.Allowed call)
    (hc : call.throws = true) : ¬ DestroysConstructed (s.apply call).log := by
  have hlog : (s.apply call).log =
      (s.log ++ [.allocated s.next]) ++ .destroyed s.next :: [.deallocated s.next] := by
    have hset : ∀ t v, s.Writable t v → (s.rwWrite t v .throws).log =
        (s.log ++ [.allocated s.next]) ++ .destroyed s.next :: [.deallocated s.next] := by
      intro t v ⟨a, x, ha, hx, _⟩
      unfold rwWrite
      rw [ha, hx]
      dsimp only
      rw [allocateConstruct_throws]
      simp
    cases call with
    | newVar c =>
      obtain rfl := eq_of_beq hc
      rw [apply, allocateConstruct_throws]
      simp
    | set t v c =>
      obtain rfl := eq_of_beq hc
      exact hset t v ha
    | setSlow t v c =>
      obtain rfl := eq_of_beq hc
      rw [apply, rwWriteSlowPath_eq]
      exact hset t v ha
    | begin t => cases hc
    | setAgain t v => cases hc
    | commit t readsValid => cases hc
    | abort t => cases hc
    | runCallback t => cases hc
    | destroyVar v => cases hc
  intro hd
  have hm := (hd _ _ _ hlog).1
  rw [List.mem_append, List.mem_singleton] at hm
  rcases hm with hm | hm
  · exact absurd (h _ hm) (Nat.lt_irrefl _)
  · cases hm

/-- A run in which a construction throws. -/
theorem run_throws {calls : List (Call ι)} (h : s.Ahead) (ha : s.AllowedRun calls)
    (hc : ∃ call ∈ calls, call.throws = true) : ¬ DestroysConstructed (s.run calls).log := by
  induction calls generalizing s with
  | nil =>
    obtain ⟨call, hcall, -⟩ := hc
    cases hcall
  | cons call calls ih =>
    by_cases hcall : call.throws = true
    · intro hd
      obtain ⟨new, hnew⟩ := run_log (s.apply call) calls
      have hd : DestroysConstructed ((s.apply call).log ++ new) := hnew ▸ hd
      exact apply_throws h ha.1 hcall hd.of_append
    · refine ih (apply_ahead h call) ha.2 ?_
      obtain ⟨d, hd, hdt⟩ := hc
      rcases List.mem_cons.mp hd with rfl | hd
      · exact absurd hdt hcall
      · exact ⟨d, hd, hdt⟩

omit [DecidableEq ι] in
/-- When all vars are gone and all callbacks have run, all storages are gone. -/
theorem Inv.clean (h : s.Inv) : s.Clean where
  destroys := h.books.destroys
  deallocates := by
    intro hq p hp
    obtain ⟨o, ho⟩ := (h.books.ledger.complete p).mp ((h.books.allocated p).mp hp)
    have hgone : p ∈ gone s.log := by
      cases o with
      | none => exact ho
      | some o =>
        cases o with
        | var v => simp [places, owned, hq.1 v] at ho
        | thread t => simp [places, owned, writesOf, (hq.2 t).1, (hq.2 t).2] at ho
    rw [← count_gone]
    exact List.count_eq_one_of_mem (h.books.ledger.nodup none) hgone

end Sys

/-- **When heap storage is destroyed only if it was constructed**, and all of it is given back: in
    a run exactly if no construction of the run throws. -/
theorem clean_iff {calls : List (Call ι)} (ha : (init : Sys ι).AllowedRun calls) :
    (init.run calls).Clean ↔ ∀ call ∈ calls, call.throws = false := by
  constructor
  · intro h call hcall
    by_contra hc
    exact run_throws (fun p hp => (by cases hp)) ha
      ⟨call, hcall, Bool.eq_true_of_not_eq_false hc⟩ h.destroys
  · exact fun h => (run_inv init_inv ha h).clean

/-- A var is made, set in an attempt that is aborted and in one that commits, and destroyed. -/
def setTwice : List (Call Unit) :=
  [.newVar .nothrow, .begin (), .set () 0 .completes, .abort (), .begin (), .setSlow () 0 .nothrow,
    .setAgain () 0, .commit () true, .destroyVar 0, .runCallback ()]

theorem clean_iff_setTwice :
    (init.run setTwice).Clean ↔ ∀ call ∈ setTwice, call.throws = false := by
  refine clean_iff ⟨trivial, rfl, ⟨_, _, rfl, rfl, by decide⟩, Option.some_ne_none _, rfl,
    ⟨_, _, rfl, rfl, by decide⟩, ⟨_, rfl, by decide⟩, Option.some_ne_none _,
    ⟨Option.some_ne_none _, fun t a h => ?_⟩, List.cons_ne_nil _ _, trivial⟩
  cases h

/-- The storage of a var whose constructor throws is destroyed. -/
theorem throwing_constructor : ¬ ((init : Sys Unit).run [.newVar .throws]).Clean := by
  intro h
  exact absurd (h.destroys [.allocated 0] [.deallocated 0] 0 rfl).1 (by decide)

end HeapVar

end LockfreeStm
