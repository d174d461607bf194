/-
  File:      LockfreeStm/StmList.lean
  Subject:   `lstm::list` (containers/list.hpp): `emplace_front` and `clear`, top-level or nested in
             larger transactions.

  The bodies are programs over the vars of the list; with `retire` they hand out what they ask of the
  thread's `thread_data`, in order: to make a node, and to run a callback after the commit.

  * `emplaceFront_run`, `clear_run`, `body_run` -- what the bodies do to the memory;
  * `body_marks` -- what they can leave behind wherever they are given up;
  * `Holds`, `Holds.emplace`, `Holds.clear` -- a list that holds given values, and what the calls make
    of it;
  * `destroySublist_spec` -- the walk over a chain ends, and has visited the chain.
-/
import LockfreeStm.Library.Optimistic
import LockfreeStm.Memory

namespace LockfreeStm

namespace StmList

/-! ## 1. The list -/

/-- A node. -/
abbrev Node := Nat

/-- The vars of a list and of its nodes. -/
inductive Var where
  | head
  | size
  | value (n : Node)
  | prev (n : Node)
  | next (n : Node)
deriving DecidableEq

/-- What a var holds. -/
@[reducible] def Content (α : Type) : Var → Type
  | .head => Option Node
  | .size => Nat
  | .value _ => α
  | .prev _ => Option Node
  | .next _ => Option Node

/-- The memory of a list. -/
abbrev Memory (α : Type) := Optimistic.Memory (Content α)

/-- A body; what it retires are its calls on the `thread_data`. -/
abbrev Program (α : Type) := Optimistic.Program (Content α) Memory.Call Empty

/-- An attempt at one. -/
abbrev Attempt (α : Type) := Optimistic.Attempt (Content α) Memory.Call

variable {α : Type}

/-- `head.get`. -/
def getHead : Program α (Option Node) := .get .head .ret

/-- `size_.get`. -/
def getSize : Program α Nat := .get .size .ret

/-- `var::set`. -/
def set (v : Var) (x : Content α v) : Program α Unit := .set v x (.ret ())

/-- `var::unsafe_set`, and the constructors of a node's vars. -/
def unsafeSet (v : Var) (x : Content α v) : Program α Unit := .unsafeSet v x (.ret ())

/-- A call on the `thread_data`. -/
def ask (c : Memory.Call) : Program α Unit := .retire c (.ret ())

/-- `sometime_synchronized_after` with a `destroy_deallocate_sublist`. -/
def retireSublist (root : Node) : Program α Unit := ask (.sometimeSynchronizedAfter root)

/-- `allocate_construct` of a node; `trivial` says whether the destructor of nodes is. -/
def allocateNode (trivial throws : Bool) : Program α Unit :=
  ask (.take .threadData (.allocateConstruct trivial throws))

/-- The constructor of `list_node_`: `prev_` and `next_` start out null. -/
def constructNode (n : Node) (x : α) : Program α Unit := do
  unsafeSet (.value n) x
  unsafeSet (.prev n) none
  unsafeSet (.next n) none

/-- `clear`. -/
def clear : Program α Unit := do
  set .size (0 : Nat)
  let root ← getHead
  set .head none
  match root with
  | some root => retireSublist root
  | none => pure ()

/-- The transaction of `emplace_front`, for the node `newHead`. -/
def emplaceFront (newHead : Node) : Program α Unit := do
  let head ← getHead
  unsafeSet (.next newHead) head
  match head with
  | some head => set (.prev head) (some newHead)
  | none => pure ()
  let size ← getSize
  set .size (size + 1)
  set .head (some newHead)

/-- `size`. -/
def size : Program α Nat := getSize

/-- A call on the list inside of a transaction. -/
inductive Call (α : Type) where
  | emplaceFront (x : α)
  /-- an `emplace_front` whose value's constructor throws; the caller catches that -/
  | emplaceThrows
  | clear

/-- A transaction that makes these calls; `n` is the first block it allocates. -/
def body (trivial : Bool) : Node → List (Call α) → Program α Unit
  | _, [] => pure ()
  | n, .emplaceFront x :: cs => do
    allocateNode trivial false
    constructNode n x
    emplaceFront n
    body trivial (n + 1) cs
  | n, .emplaceThrows :: cs => do
    allocateNode trivial true
    body trivial (n + 1) cs
  | n, .clear :: cs => do
    clear
    body trivial n cs

/-- What the list is to hold after such calls. -/
def after : List (Call α) → List α → List α
  | [], xs => xs
  | .emplaceFront x :: cs, xs => after cs (x :: xs)
  | .emplaceThrows :: cs, xs => after cs xs
  | .clear :: cs, _ => after cs []

/-- `destroy_deallocate_sublist`: the nodes it destroys, one after the other; `none` if there are
    more than `fuel` of them. -/
def destroySublist (m : Memory α) : Nat → Option Node → Option (List Node)
  | _, none => some []
  | 0, some _ => none
  | fuel + 1, some n => (destroySublist m fuel (m (.next n))).map (n :: ·)

/-! ## 2. What the bodies do -/

open Optimistic

/-- Memory after a node's construction. -/
def constructed (m : Memory α) (n : Node) (x : α) : Memory α :=
  Function.update (Function.update (Function.update m (.value n) x) (.prev n) none) (.next n) none

/-- Memory after the transaction of `emplace_front`. -/
def emplaced (m : Memory α) (n : Node) : Memory α :=
  let m₁ : Memory α := Function.update m (.next n) (m .head)
  let m₂ : Memory α :=
    match m .head with
    | some h => Function.update m₁ (.prev h) (some n)
    | none => m₁
  Function.update (Function.update m₂ .size (m .size + 1 : Nat)) .head (some n)

/-- Memory after `clear`. -/
def cleared (m : Memory α) : Memory α :=
  Function.update (Function.update m .size (0 : Nat)) .head none

/-- Memory after a body. -/
def bodyMemory : Node → List (Call α) → Memory α → Memory α
  | _, [], m => m
  | n, .emplaceFront x :: cs, m => bodyMemory (n + 1) cs (emplaced (constructed m n x) n)
  | n, .emplaceThrows :: cs, m => bodyMemory (n + 1) cs m
  | n, .clear :: cs, m => bodyMemory n cs (cleared m)

/-- What a body asks of the `thread_data`. -/
def bodyAsks (trivial : Bool) : Node → List (Call α) → Memory α → List Memory.Call
  | _, [], _ => []
  | n, .emplaceFront x :: cs, m =>
    .take .threadData (.allocateConstruct trivial false) ::
      bodyAsks trivial (n + 1) cs (emplaced (constructed m n x) n)
  | n, .emplaceThrows :: cs, m =>
    .take .threadData (.allocateConstruct trivial true) :: bodyAsks trivial (n + 1) cs m
  | n, .clear :: cs, m =>
    (m .head).toList.map .sometimeSynchronizedAfter ++ bodyAsks trivial n cs (cleared m)

/-- A var of a node from number `n` on. -/
def OfNew (n : Node) : Var → Prop
  | .value k => n ≤ k
  | .prev k => n ≤ k
  | .next k => n ≤ k
  | _ => False

/-- The calls that bodies make on the `thread_data`. -/
def Asked (trivial : Bool) (c : Memory.Call) : Prop :=
  (∃ throws, c = .take .threadData (.allocateConstruct trivial throws)) ∨
    ∃ root, c = .sometimeSynchronizedAfter root

/-- What a body does to an attempt: memory and calls on the `thread_data`, and it gets tracked only. -/
structure Does (p : Program α Unit) (s : Attempt α) (m : Memory α) (asks : List Memory.Call) : Prop where
  runs : ∃ s', p.run s = .ok ((), s') ∧ s'.view = m ∧ s'.retired = asks.reverse ++ s.retired ∧
    s'.untracked = s.untracked

variable {m m' : Memory α} {asks asks' : List Memory.Call} {p q : Program α Unit} {s : Attempt α}
  {trivial : Bool} {n : Node} {x : α}

theorem Does.seq (hp : Does p s m asks) (hq : ∀ s' : Attempt α, s'.view = m → Does q s' m' asks') :
    Does (p >>= fun _ => q) s m' (asks ++ asks') := by
  obtain ⟨s₁, hrun, hview, hret, hunt⟩ := hp.runs
  obtain ⟨s₂, hrun', hview', hret', hunt'⟩ := (hq s₁ hview).runs
  refine ⟨s₂, (Program.run_bind_ok hrun).trans hrun', hview', ?_, hunt'.trans hunt⟩
  rw [hret', hret, List.reverse_append, List.append_assoc]

theorem ask_run (c : Memory.Call) (s : Attempt α) : Does (ask c) s s.view [c] := ⟨_, rfl, rfl, rfl, rfl⟩

theorem constructNode_run (n : Node) (x : α) (s : Attempt α) :
    Does (constructNode n x) s (constructed s.view n x) [] := ⟨_, rfl, rfl, rfl, rfl⟩

/-- **The transaction of `emplace_front`.** -/
theorem emplaceFront_run (n : Node) (s : Attempt α) :
    Does (emplaceFront n) s (emplaced s.view n) [] := by
  cases hh : s.view .head with
  | none =>
    refine ⟨(((((s.read .head).store (.next n) none).read .size).write .size
      (s.view .size + 1 : Nat)).write .head (some n)), ?_, ?_, rfl, rfl⟩
    · simp [emplaceFront, getHead, getSize, set, unsafeSet, Bind.bind, Program.bind, Program.run, hh]
    · simp [emplaced, hh]
  | some h =>
    refine ⟨((((((s.read .head).store (.next n) (some h)).write (.prev h) (some n)).read
      .size).write .size (s.view .size + 1 : Nat)).write .head (some n)), ?_, ?_, rfl, rfl⟩
    · simp [emplaceFront, getHead, getSize, set, unsafeSet, Bind.bind, Program.bind, Program.run, hh]
    · simp [emplaced, hh]

/-- **`clear`.** -/
theorem clear_run (s : Attempt α) :
    Does clear s (cleared s.view) ((s.view .head).toList.map .sometimeSynchronizedAfter) := by
  cases hh : s.view .head with
  | none =>
    refine ⟨((s.write .size (0 : Nat)).read .head).write .head none, ?_, rfl, rfl, rfl⟩
    simp [clear, getHead, set, Bind.bind, Program.bind, Program.run, hh, Pure.pure]
  | some h =>
    refine ⟨(((s.write .size (0 : Nat)).read .head).write .head none).retire
      (.sometimeSynchronizedAfter h), ?_, rfl, rfl, rfl⟩
    simp [clear, getHead, set, retireSublist, ask, Bind.bind, Program.bind, Program.run, hh]

/-- **A transaction with calls on the list.** -/
theorem body_run (cs : List (Call α)) (n : Node) (s : Attempt α) :
    Does (body trivial n cs) s (bodyMemory n cs s.view) (bodyAsks trivial n cs s.view) := by
  induction cs generalizing n s with
  | nil => exact ⟨s, rfl, rfl, rfl, rfl⟩
  | cons c cs ih =>
    cases c with
    | emplaceFront x =>
      refine (ask_run _ s).seq fun s₀ h₀ => (constructNode_run n x s₀).seq fun s₁ h₁ => ?_
      rw [h₀] at h₁
      refine (emplaceFront_run n s₁).seq fun s₂ h₂ => ?_
      have hrest := ih (n + 1) s₂
      rw [h₂, h₁] at hrest
      exact hrest
    | emplaceThrows => exact (ask_run _ s).seq fun s₁ h₁ => h₁ ▸ ih (n + 1) s₁
    | clear =>
      refine (clear_run s).seq fun s₁ h₁ => ?_
      have hrest := ih n s₁
      rw [h₁] at hrest
      exact hrest

/-- What such an attempt commits is what its body does to the memory it commits on. -/
theorem Does.commit {view : Memory α} {f : Memory α → Memory α} {g : Memory α → List Memory.Call}
    (h : ∀ s : Attempt α, Does p s (f s.view) (g s.view))
    (hv : ∀ v ∈ (p.outcome view).reads, m v = view v) :
    (p.outcome view).commit m = f m ∧ (p.outcome view).retired.reverse = g m := by
  obtain ⟨s₁, hrun, -, -, hunt⟩ := (h (.start view)).runs
  have hout : p.outcome view = s₁ := by rw [Program.outcome, Program.attempt, hrun]
  rw [hout] at hv ⊢
  obtain ⟨s', hre, hview, hret⟩ := Program.commit_eq_rerun hrun hunt hv
  obtain ⟨s₂, hrun₂, hview₂, hret₂, -⟩ := (h (.start m)).runs
  have hs : s' = s₂ := (Prod.mk.inj (Except.ok.inj (hre.symm.trans hrun₂))).2
  refine ⟨hview.symm.trans (hs ▸ hview₂), ?_⟩
  rw [← hret, hs, hret₂]
  simp

theorem constructNode_marks : (constructNode n x).Marks (OfNew n) (Asked trivial) :=
  ⟨Nat.le_refl n, Nat.le_refl n, Nat.le_refl n, True.intro⟩

theorem emplaceFront_marks : (emplaceFront n : Program α Unit).Marks (· = .next n) (Asked trivial) := by
  intro head
  refine ⟨rfl, ?_⟩
  cases head with
  | none => exact fun _ => True.intro
  | some h => exact fun _ => True.intro

theorem clear_marks (own : Var → Prop) : (clear : Program α Unit).Marks own (Asked trivial) := by
  intro head
  cases head with
  | none => exact True.intro
  | some root => exact ⟨.inr ⟨root, rfl⟩, True.intro⟩

/-- **Wherever it is given up**, such a transaction has stored into new nodes only. -/
theorem body_marks (cs : List (Call α)) (n : Node) :
    (body trivial n cs).Marks (OfNew n) (Asked trivial) := by
  induction cs generalizing n with
  | nil => exact True.intro
  | cons c cs ih =>
    have hrest : (body trivial (n + 1) cs).Marks (OfNew n) (Asked trivial) := by
      refine (ih (n + 1)).mono fun v hv => ?_
      cases v with
      | head | size => exact hv
      | value k | prev k | next k => exact Nat.le_of_succ_le hv
    cases c with
    | emplaceFront x =>
      refine ⟨.inl ⟨false, rfl⟩, constructNode_marks.bind fun _ => ?_⟩
      exact (emplaceFront_marks.mono fun v hv => hv ▸ Nat.le_refl n).bind fun _ => hrest
    | emplaceThrows => exact ⟨.inl ⟨true, rfl⟩, hrest⟩
    | clear => exact (clear_marks _).bind fun _ => ih n

/-! ## 3. Chains -/

/-- The nodes from `h` on, by `next_`. -/
def Chain (m : Memory α) : Option Node → List Node → Prop
  | h, [] => h = none
  | h, n :: ns => h = some n ∧ Chain m (m (.next n)) ns

/-- Each node's `prev_` is the one before it. -/
def Linked (m : Memory α) : Option Node → List Node → Prop
  | _, [] => True
  | p, n :: ns => m (.prev n) = p ∧ Linked m (some n) ns

theorem Chain.congr {m m' : Memory α} {h : Option Node} {ns : List Node} (hc : Chain m h ns)
    (he : ∀ n ∈ ns, m' (.next n) = m (.next n)) : Chain m' h ns := by
  induction ns generalizing h with
  | nil => exact hc
  | cons n ns ih =>
    refine ⟨hc.1, ?_⟩
    rw [he n List.mem_cons_self]
    exact ih hc.2 fun k hk => he k (List.mem_cons_of_mem _ hk)

theorem Linked.congr {m m' : Memory α} {p : Option Node} {ns : List Node} (hl : Linked m p ns)
    (he : ∀ n ∈ ns, m' (.prev n) = m (.prev n)) : Linked m' p ns := by
  induction ns generalizing p with
  | nil => trivial
  | cons n ns ih =>
    refine ⟨(he n List.mem_cons_self).trans hl.1, ?_⟩
    exact ih hl.2 fun k hk => he k (List.mem_cons_of_mem _ hk)

/-- **The walk over a chain ends**, with enough fuel, and has visited the chain. -/
theorem destroySublist_spec {m : Memory α} {h : Option Node} {ns : List Node} {fuel : Nat}
    (hc : Chain m h ns) (hf : ns.length ≤ fuel) : destroySublist m fuel h = some ns := by
  induction ns generalizing h fuel with
  | nil =>
    rw [hc]
    cases fuel <;> rfl
  | cons n ns ih =>
    obtain ⟨fuel, rfl⟩ := Nat.exists_eq_add_of_le' hf
    rw [hc.1]
    show (destroySublist m (fuel + ns.length) (m (.next n))).map (n :: ·) = _
    rw [ih hc.2 (Nat.le_add_left _ _)]
    rfl

/-- **The list holds `contents`**, in these nodes. -/
structure Holds (m : Memory α) (nodes : List Node) (contents : List α) : Prop where
  chain : Chain m (m .head) nodes
  size : m .size = nodes.length
  values : nodes.map (fun n => m (.value n)) = contents
  prev : Linked m none nodes

theorem Holds.congr {m m' : Memory α} {nodes : List Node} {xs : List α} (h : Holds m nodes xs)
    (hh : m' .head = m .head) (hs : m' .size = m .size)
    (hv : ∀ n ∈ nodes, m' (.value n) = m (.value n) ∧ m' (.prev n) = m (.prev n) ∧
      m' (.next n) = m (.next n)) : Holds m' nodes xs where
  chain := hh ▸ h.chain.congr fun n hn => (hv n hn).2.2
  size := hs.trans h.size
  values := (List.map_congr_left fun n hn => (hv n hn).1).trans h.values
  prev := h.prev.congr fun n hn => (hv n hn).2.1

theorem emplaced_head (m : Memory α) (n : Node) : emplaced m n .head = some n := by
  simp [emplaced]

theorem emplaced_size (m : Memory α) (n : Node) : emplaced m n .size = m .size + 1 := by
  simp [emplaced]

theorem emplaced_value (m : Memory α) (n k : Node) :
    emplaced m n (.value k) = m (.value k) := by
  unfold emplaced
  cases m .head <;> simp

theorem emplaced_next (m : Memory α) (n k : Node) :
    emplaced m n (.next k) = if k = n then m .head else m (.next k) := by
  unfold emplaced
  by_cases hk : k = n
  · subst hk
    cases m .head <;> simp
  · cases m .head <;> simp [hk]

theorem emplaced_prev (m : Memory α) (n k : Node) :
    emplaced m n (.prev k) = if m .head = some k then some n else m (.prev k) := by
  unfold emplaced
  cases hh : m .head with
  | none => simp
  | some h =>
    by_cases hk : k = h
    · subst hk
      simp
    · have : h ≠ k := fun e => hk e.symm
      simp [hk, this]

/-- **A new node in front.** -/
theorem Holds.emplace {m : Memory α} {nodes : List Node} {xs : List α} {n : Node} {x : α}
    (h : Holds m nodes xs) (hd : nodes.Nodup) (hn : n ∉ nodes) (hp : m (.prev n) = none)
    (hx : m (.value n) = x) : Holds (emplaced m n) (n :: nodes) (x :: xs) where
  chain := by
    refine ⟨emplaced_head m n, ?_⟩
    rw [emplaced_next, if_pos rfl]
    refine h.chain.congr fun k hk => ?_
    rw [emplaced_next, if_neg fun e : k = n => hn (e ▸ hk)]
  size := by
    rw [emplaced_size, h.size]
    rfl
  values := by
    rw [List.map_cons, emplaced_value, hx, ← h.values]
    exact congrArg (x :: ·) (List.map_congr_left fun k _ => emplaced_value m n k)
  prev := by
    have hc := h.chain
    have hl := h.prev
    cases nodes with
    | nil =>
      refine ⟨?_, trivial⟩
      have hnone : m .head = none := hc
      rw [emplaced_prev, hnone, if_neg (Option.some_ne_none n).symm, hp]
    | cons k ks =>
      have hk : m .head = some k := hc.1
      rw [List.nodup_cons] at hd
      refine ⟨?_, ?_, hl.2.congr fun j hj => ?_⟩
      · rw [emplaced_prev, hk, if_neg, hp]
        exact fun e => hn (Option.some.inj e ▸ List.mem_cons_self)
      · rw [emplaced_prev, if_pos hk]
      · rw [emplaced_prev, hk, if_neg]
        exact fun e => hd.1 (Option.some.inj e ▸ hj)

/-- The list is empty. -/
theorem Holds.clear (m : Memory α) : Holds (cleared m) [] [] := by
  refine ⟨?_, ?_, rfl, trivial⟩
  · show cleared m .head = none
    simp [cleared]
  · show cleared m .size = 0
    simp [cleared]

/-- `size` returns the number of values. -/
theorem size_run {m : Memory α} {nodes : List Node} {xs : List α} (h : Holds m nodes xs) :
    ∃ s' : Attempt α, size.run (.start m) = .ok (xs.length, s') := by
  have hlen : m .size = xs.length := by rw [h.size, ← h.values, List.length_map]
  exact ⟨Attempt.read (.start m) .size, congrArg (fun k => Except.ok (k, _)) hlen⟩

end StmList

end LockfreeStm
