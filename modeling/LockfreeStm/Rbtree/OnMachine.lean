/-
  File:      LockfreeStm/Rbtree/OnMachine.lean
  Subject:   THE RED-BLACK TREE ON THE MACHINE: any threads that call `emplace` and `erase_one`, in any order
             of their steps.

  The calls are bodies of the machine: a node and its links are vars like any others, and what the machine
  does with them is what the history of optimistic transactions says. An `erase_one` that finds nothing
  leaves the tree alone, and is left out of the history of the tree.

  * `insertCase1_converges` to `eraseOne_converges` -- the loops of the tree approximate programs without fuel.
  * `encoding`, `Operation.program`, `newNodes` -- the calls, and the node that an `emplace` constructs.
  * `calls_history`, `TreeLeft`, `treeLeft_of_history` -- the history of the tree.
  * `tree_on_machine` -- **the main result**: behind every beginning of the commits the tree is valid.
  * `tree_never_stops` -- no attempt, also one that will abort, dereferences a null pointer or runs for ever.
-/
import LockfreeStm.Machine.TypedPrograms
import LockfreeStm.Rbtree.ManyOperations

namespace LockfreeStm

namespace Rbtree

open Histories (after)
open Optimistic (Converges Returns)
open Optimistic.Program (Agree)

variable {Ptr Key Value : Type} [DecidableEq Ptr]

/-! ## 1. More fuel changes nothing -/

section Fuel

variable {compare : Key → Key → Bool} {d fuel fuel' : Nat}

theorem insertCase3_agree {case1 case1' : Ptr → Program Ptr Key Value Unit}
    (h : ∀ n, Agree d (case1 n) (case1' n)) (n : Ptr) :
    Agree d (insertCase3 case1 n) (insertCase3 case1' n) :=
  .behind _ fun _ => .behind _ fun _ => .ite
    (.behind _ fun _ => .behind _ fun _ => .behind _ fun _ => .behind _ fun _ => .behind _ fun _ =>
      .behind _ fun _ => .behind _ fun g => .behind _ fun _ => h g)
    (.refl ..)

theorem insertCase1_converges (n : Ptr) :
    Converges (fun fuel => insertCase1 fuel n : Nat → Program Ptr Key Value Unit) := by
  refine .loop (fun n fuel => insertCase1 fuel n) (fun fuel fuel' next n => ?_) n
  refine Agree.behind_get (Var.parent n) fun _ => .ite (.refl ..) ?_
  exact .behind _ fun _ => .behind _ fun _ => .behind _ fun c => .ite (insertCase3_agree next n) (.refl ..)

omit [DecidableEq Ptr] in
theorem descend_converges (key : Key) (parent : Option Ptr) (cur : Link Ptr) :
    Converges (fun fuel => descend compare key fuel parent cur :
      Nat → Program Ptr Key Value (Option Ptr × Link Ptr)) := by
  refine .loop (fun (i : Option Ptr × Link Ptr) fuel => descend compare key fuel i.1 i.2)
    (fun fuel fuel' next i => ?_) (parent, cur)
  refine Agree.behind_untrackedGet (Var.link i.2) fun nextParent => ?_
  cases nextParent with
  | none => exact .refl ..
  | some nextParent => exact .behind _ fun _ => next (some nextParent, _)

theorem emplace_converges (n : Ptr) (key : Key) (value : Value) :
    Converges fun fuel => emplace compare fuel n key value := by
  intro fuel fuel' hf
  exact .behind _ fun _ => .behind _ fun _ => .bind (descend_converges _ _ _ fuel fuel' hf) fun _ =>
    .behind _ fun _ => .behind _ fun _ => .behind _ fun _ => .behind _ fun _ =>
      insertCase1_converges n fuel fuel' hf

theorem deleteCase3_agree {case1 case1' : Option Ptr → Option Ptr → Program Ptr Key Value Unit}
    (h : ∀ parent n, Agree d (case1 parent n) (case1' parent n)) (parent : Ptr) (n : Option Ptr) :
    Agree d (deleteCase3 case1 parent n) (deleteCase3 case1' parent n) :=
  .behind _ fun _ => .behind _ fun _ => .ite
    (.behind _ fun _ => .behind _ fun _ => .behind _ fun pp => h pp (some parent)) (.refl ..)

theorem deleteCase1_converges (parent n : Option Ptr) :
    Converges (fun fuel => deleteCase1 fuel parent n : Nat → Program Ptr Key Value Unit) := by
  refine .loop (fun (i : Option Ptr × Option Ptr) fuel => deleteCase1 fuel i.1 i.2)
    (fun fuel fuel' next i => ?_) (parent, n)
  obtain ⟨parent, n⟩ := i
  cases parent with
  | none => exact .refl ..
  | some parent =>
    have case3 := deleteCase3_agree fun parent n => next (parent, n)
    refine Agree.get (Var.child .left parent) fun _ => .behind _ fun _ => .behind _ fun _ => ?_
    exact .ite (.behind _ fun _ => .behind _ fun _ => .behind _ fun _ => .behind _ fun _ => case3 parent n)
      (case3 parent n)

omit [DecidableEq Ptr] in
theorem minNode_converges (current : Ptr) :
    Converges (fun fuel => minNode fuel current : Nat → Program Ptr Key Value Ptr) := by
  refine .loop (fun current fuel => minNode fuel current) (fun fuel fuel' turn current => ?_) current
  refine Agree.behind_get (Var.child .left current) fun next => ?_
  cases next with
  | none => exact .refl ..
  | some next => exact turn next

theorem deleteOneChild_converges (n : Ptr) :
    Converges (fun fuel => deleteOneChild fuel n : Nat → Program Ptr Key Value Unit) := by
  intro fuel fuel' hf
  have rebalance : ∀ child, Agree fuel (rebalance fuel n child : Program Ptr Key Value Unit)
      (rebalance fuel' n child) := fun child =>
    .behind _ fun _ => .ite (.behind _ fun _ => .ite (.refl ..) (.behind _ fun parent =>
      deleteCase1_converges parent child fuel fuel' hf)) (.refl ..)
  exact .behind _ fun _ => .ite
    (.behind _ fun child => .behind _ fun _ => .bind (rebalance child) fun _ => .refl ..)
    (.behind _ fun child => .behind _ fun _ => .bind (rebalance child) fun _ => .refl ..)

theorem eraseImpl_converges (toErase : Ptr) :
    Converges (fun fuel => eraseImpl fuel toErase : Nat → Program Ptr Key Value Unit) := by
  intro fuel fuel' hf
  refine .behind _ fun _ => .ite ?_ (deleteOneChild_converges toErase fuel fuel' hf)
  refine .behind _ fun _ => .behind _ fun right => .bind (minNode_converges right fuel fuel' hf) fun temp => ?_
  exact .behind _ fun _ => .behind _ fun _ => .behind _ fun _ => .behind _ fun _ =>
    deleteOneChild_converges temp fuel fuel' hf

omit [DecidableEq Ptr] in
theorem findFrom_converges (u : Key) (cur : Option Ptr) :
    Converges (fun fuel => findFrom compare u fuel cur : Nat → Program Ptr Key Value (Option Ptr)) := by
  refine .loop (fun cur fuel => findFrom compare u fuel cur) (fun fuel fuel' next cur => ?_) cur
  cases cur with
  | none => exact .refl ..
  | some cur =>
    refine Agree.behind_untrackedGet (Var.key cur) fun curKey => .ite ?_ (.ite ?_ (.refl ..))
    · exact .behind _ fun _ => next _
    · exact .behind _ fun _ => next _

theorem eraseOne_converges (key : Key) :
    Converges (fun fuel => eraseOne compare fuel key : Nat → Program Ptr Key Value Bool) := by
  intro fuel fuel' hf
  have find : Agree fuel (find compare fuel key : Program Ptr Key Value (Option Ptr)) (find compare fuel' key) :=
    .behind _ fun cur => findFrom_converges key cur fuel fuel' hf
  refine .bind find fun toErase => ?_
  cases toErase with
  | none => exact .refl ..
  | some toErase => exact .bind (eraseImpl_converges toErase fuel fuel' hf) fun _ => .refl ..

end Fuel

/-! ## 2. The calls as bodies -/

/-- The word in a var. -/
inductive Cell (Ptr Key Value : Type) where
  | ptr (p : Option Ptr)
  | color (c : Color)
  | key (k : Key)
  | value (x : Value)

variable [Inhabited Key] [Inhabited Value]

/-- The words for the contents of the vars; `callback` is the one that destroys the node. -/
def encoding (callback : Ptr → Nat) : Encoding (Content Ptr Key Value) Ptr (Cell Ptr Key Value) where
  encode
    | .link _, p => .ptr p
    | .parent _, p => .ptr p
    | .color _, c => .color c
    | .key _, k => .key k
    | .value _, x => .value x
  decode
    | .link _, .ptr p => p
    | .link _, _ => none
    | .parent _, .ptr p => p
    | .parent _, _ => none
    | .color _, .color c => c
    | .color _, _ => .red
    | .key _, .key k => k
    | .key _, _ => default
    | .value _, .value x => x
    | .value _, _ => default
  decode_encode v x := by cases v <;> rfl
  callback := callback

/-- The program of a call; an `emplace` has no result. -/
def Operation.program (compare : Key → Key → Bool) :
    Operation Ptr Key Value → Nat → Program Ptr Key Value Bool
  | .emplace n key value, fuel => do
    Rbtree.emplace compare fuel n key value
    pure true
  | .eraseOne key, fuel => Rbtree.eraseOne compare fuel key

/-- The node that the body constructs first. -/
def newNodes (body : Body (Var Ptr) (Cell Ptr Key Value)) : List Ptr :=
  match body [] with
  | .set (.key n) _ => [n]
  | _ => []

variable {compare : Key → Key → Bool} {callback : Ptr → Nat} {op : Operation Ptr Key Value}
  {m : Memory Ptr Key Value} {t : Tree Ptr Key Value} {s : Attempt Ptr Key Value} {b : Bool}

omit [Inhabited Key] [Inhabited Value] in
theorem program_converges (op : Operation Ptr Key Value) : Converges (op.program compare) := by
  intro fuel fuel' hf
  cases op with
  | emplace n key value => exact .bind (emplace_converges n key value fuel fuel' hf) fun _ => .refl ..
  | eraseOne key => exact eraseOne_converges key fuel fuel' hf

theorem newNodes_body (op : Operation Ptr Key Value) :
    newNodes ((encoding callback).body (op.program compare)) = op.nodes := by
  cases op <;> rfl

omit [Inhabited Key] [Inhabited Value] in
/-- `find` reads untracked, and nothing else. -/
theorem findFrom_run {key : Key} {fuel : Nat} {cur o : Option Ptr} {s s' : Attempt Ptr Key Value}
    (h : (findFrom compare key fuel cur).run s = .ok (o, s')) : ∃ us, s' = s.readAllUntracked us := by
  induction fuel generalizing cur s with
  | zero => cases h
  | succ fuel ih =>
    cases cur with
    | none =>
      cases h
      exact ⟨[], rfl⟩
    | some p =>
      rw [run_findFrom_succ] at h
      split at h
      · obtain ⟨us, rfl⟩ := ih h
        exact ⟨_, Optimistic.Attempt.readAllUntracked_readAllUntracked ..⟩
      · split at h
        · obtain ⟨us, rfl⟩ := ih h
          exact ⟨_, Optimistic.Attempt.readAllUntracked_readAllUntracked ..⟩
        · cases h
          exact ⟨_, rfl⟩

omit [Inhabited Key] [Inhabited Value] in
/-- An `emplace` that runs has found something to do. -/
theorem run_program_emplace {fuel : Nat} {n : Ptr} {key : Key} {value : Value} {s s' : Attempt Ptr Key Value}
    (h : ((Operation.emplace n key value).program compare fuel).run s = .ok (b, s')) :
    b = true ∧ (emplace compare fuel n key value).run s = .ok ((), s') := by
  obtain ⟨_, s₁, hrun, hpure⟩ := Optimistic.Program.run_bind_eq_ok h
  cases hpure
  exact ⟨rfl, hrun⟩

omit [Inhabited Key] [Inhabited Value] in
/-- A call that finds nothing to do has read untracked, and nothing else. -/
theorem attempt_of_not_found (h : Returns (op.program compare) m false s) :
    ∃ us, s = (Optimistic.Attempt.start m).readAllUntracked us := by
  obtain ⟨fuel, h⟩ := h
  have h := h fuel (Nat.le_refl fuel)
  cases op with
  | emplace n key value => cases (run_program_emplace h).1
  | eraseOne key =>
    obtain ⟨o, s', hfind, hrest⟩ := Optimistic.Program.run_bind_eq_ok h
    obtain ⟨us, rfl⟩ := findFrom_run (s := (Optimistic.Attempt.start m).readUntracked .root) hfind
    cases o with
    | none =>
      cases hrest
      exact ⟨us ++ [.root], by simp [Optimistic.Attempt.readAllUntracked, Optimistic.Attempt.readUntracked]⟩
    | some p =>
      obtain ⟨a, s', -, hpure⟩ := Optimistic.Program.run_bind_eq_ok hrest
      cases hpure

omit [Inhabited Key] [Inhabited Value] in
/-- `delete_one_child` hands a node over. -/
theorem deleteOneChild_retires (fuel : Nat) (n : Ptr) :
    (deleteOneChild fuel n : Program Ptr Key Value Unit).Ends fun _ s => s.retired ≠ [] := by
  have last : (destroyDeallocate n : Program Ptr Key Value Unit).Ends fun _ s => s.retired ≠ [] := by
    intro s _ s' h
    cases h
    exact List.cons_ne_nil n s.retired
  exact .behind _ fun _ => .ite
    (.behind _ fun _ => .behind _ fun _ => .behind _ fun _ => last)
    (.behind _ fun _ => .behind _ fun _ => .behind _ fun _ => last)

omit [Inhabited Key] [Inhabited Value] in
theorem eraseImpl_retires (fuel : Nat) (n : Ptr) :
    (eraseImpl fuel n : Program Ptr Key Value Unit).Ends fun _ s => s.retired ≠ [] := by
  refine .behind _ fun _ => .ite ?_ (deleteOneChild_retires fuel n)
  refine .behind _ fun _ => .behind _ fun _ => .behind _ fun temp => ?_
  exact .behind _ fun _ => .behind _ fun _ => .behind _ fun _ => .behind _ fun _ =>
    deleteOneChild_retires fuel temp

omit [Inhabited Key] [Inhabited Value] in
/-- A call that has done something has constructed a node, or handed one over. -/
theorem retires_of_found (h : Returns (op.program compare) m true s) : op.isEmplace = true ∨ s.retired ≠ [] := by
  cases op with
  | emplace n key value => exact .inl rfl
  | eraseOne key =>
    obtain ⟨fuel, h⟩ := h
    obtain ⟨o, s', -, hrest⟩ := Optimistic.Program.run_bind_eq_ok (h fuel (Nat.le_refl fuel))
    cases o with
    | none => cases hrest
    | some p =>
      obtain ⟨a, s', herase, hpure⟩ := Optimistic.Program.run_bind_eq_ok hrest
      cases hpure
      exact .inr (eraseImpl_retires fuel p _ _ _ herase)

omit [Inhabited Key] [Inhabited Value] in
/-- A call that has done something is one of the history of the tree. -/
theorem began_of_program (h : Returns (op.program compare) m true s) : Call.Began compare ⟨op, s⟩ m := by
  cases op with
  | emplace n key value =>
    obtain ⟨enough, h⟩ := h
    exact ⟨enough, fun fuel hf => (run_program_emplace (h fuel hf)).2⟩
  | eraseOne key => exact h

omit [Inhabited Key] [Inhabited Value] in
/-- **On a valid tree every call returns.** -/
theorem exists_returns (ho : StrictWeak compare) (h : Valid compare m t) (hn : ∀ n ∈ op.nodes, n ∉ t.ptrs) :
    ∃ b s, Returns (op.program compare) m b s := by
  cases op with
  | emplace n key value =>
    obtain ⟨s, -, -, ⟨enough, hret⟩, -⟩ := emplace_spec ho h (hn n List.mem_cons_self) key value
    exact ⟨true, s, enough, fun fuel hf => Optimistic.Program.run_bind_ok (hret fuel hf)⟩
  | eraseOne key =>
    rcases eraseOne_spec ho h key with ⟨us, -, hret⟩ | ⟨us, x, -, -, -, s', t', p, -, hret, -⟩
    · exact ⟨_, _, hret⟩
    · exact ⟨_, _, hret⟩

/-! ## 3. The history of the tree -/

section Machine

variable {ι : Type} [DecidableEq ι]

/-- The new nodes of a commit. -/
def commitNodes (c : Commit ι (Var Ptr) (Cell Ptr Key Value)) : List Ptr := newNodes c.body

/-- What may be called: `emplace` and `erase_one`, and anything in a read_only transaction. -/
abbrev TreeRequest (compare : Key → Key → Bool) (callback : Ptr → Nat) :
    Request (Var Ptr) (Cell Ptr Key Value) → Prop :=
  Request.OfPrograms (encoding callback) (Operation.program compare)

abbrev TreeRan (ι Ptr Key Value : Type) :=
  Ran ι (Operation Ptr Key Value) Bool (Cell Ptr Key Value) (Content Ptr Key Value) Ptr

/-- The call that has committed. -/
def toCall (r : TreeRan ι Ptr Key Value) : Call Ptr Key Value := ⟨r.call, r.attempt⟩

/-- The calls that have found something to do. -/
def calls (runs : List (TreeRan ι Ptr Key Value)) : List (Call Ptr Key Value) :=
  (runs.filter Ran.result).map toCall

variable {cfg : Config ι (Var Ptr) (Cell Ptr Key Value)} {runs : List (TreeRan ι Ptr Key Value)}

omit [DecidableEq ι] [Inhabited Key] [Inhabited Value] in
theorem result_of_emplace {r : TreeRan ι Ptr Key Value} (hb : r.Began (Operation.program compare) m)
    (hr : r.result = false) : r.call.nodes = [] := by
  obtain ⟨commit, call, result, attempt⟩ := r
  cases call with
  | emplace n key value =>
    obtain ⟨fuel, h⟩ := hb
    exact absurd (hr.symm.trans (run_program_emplace (h fuel (Nat.le_refl fuel))).1) Bool.false_ne_true
  | eraseOne key => rfl

omit [DecidableEq ι] in
/-- The calls that have found something make all the nodes. -/
theorem allocated_calls (hof : ∀ r ∈ runs, r.Of (encoding callback) (Operation.program compare))
    (hb : ∀ r ∈ runs, ∃ m, r.Began (Operation.program compare) m) :
    allocated (calls runs) = (runs.map Ran.commit).flatMap commitNodes := by
  induction runs with
  | nil => rfl
  | cons r runs ih =>
    have hr := hof r List.mem_cons_self
    obtain ⟨m, hm⟩ := hb r List.mem_cons_self
    have hnodes : commitNodes r.commit = r.call.nodes := by
      rw [commitNodes, hr.body, newNodes_body]
    rw [List.map_cons, List.flatMap_cons, hnodes, ← ih (fun r h => hof r (List.mem_cons_of_mem _ h))
      fun r h => hb r (List.mem_cons_of_mem _ h)]
    cases hres : r.result with
    | true =>
      rw [calls, List.filter_cons_of_pos hres]
      rfl
    | false =>
      rw [calls, List.filter_cons_of_neg (by rw [hres]; exact Bool.false_ne_true), result_of_emplace hm hres]
      rfl

omit [DecidableEq Ptr] [Inhabited Key] [Inhabited Value] in
theorem nodes_of_isEmplace (h : op.isEmplace = true) : op.nodes ≠ [] := by
  cases op with
  | emplace n key value => exact List.cons_ne_nil n []
  | eraseOne key => cases h

omit [DecidableEq Ptr] [Inhabited Key] [Inhabited Value] in
theorem nodes_of_not_isEmplace (h : ¬ op.isEmplace = true) : op.nodes = [] := by
  cases op with
  | emplace n key value => exact absurd rfl h
  | eraseOne key => rfl

/-- What has been called while an `emplace` was running: no `erase_one` has erased a node. -/
def NoEraseDuringEmplace (commits : List (Commit ι (Var Ptr) (Cell Ptr Key Value))) : Prop :=
  ∀ c ∈ commits, ∀ d ∈ commits, commitNodes c ≠ [] → commitNodes d = [] → handedOver d.body d.log ≠ [] →
    d.point < c.start ∨ c.point < d.point

instance (commits : List (Commit ι (Var Ptr) (Cell Ptr Key Value))) : Decidable (NoEraseDuringEmplace commits) :=
  inferInstanceAs (Decidable (∀ c ∈ commits, ∀ d ∈ commits, _))

omit [DecidableEq ι] [Inhabited Key] [Inhabited Value] in
/-- A call that has found nothing leaves every memory as it is. -/
theorem leave_of_not_found {r : TreeRan ι Ptr Key Value} (hb : r.Began (Operation.program compare) m)
    (hres : r.result = false) (m' : Memory Ptr Key Value) : r.leave m' = m' := by
  rw [Ran.Began, hres] at hb
  obtain ⟨us, hs⟩ := attempt_of_not_found hb
  rw [Ran.leave, hs]
  funext v
  exact if_neg (by rintro (h | h) <;> cases h)

omit [DecidableEq ι] in
theorem writes_of_not_found {r : TreeRan ι Ptr Key Value}
    (hof : r.Of (encoding callback) (Operation.program compare)) (hb : r.Began (Operation.program compare) m)
    (hres : r.result = false) : r.commit.writes = [] := by
  rw [Ran.Began, hres] at hb
  obtain ⟨us, hs⟩ := attempt_of_not_found hb
  refine List.eq_nil_iff_forall_not_mem.mpr fun w hw => ?_
  have hset := (hof.writes w.var).mpr (Commit.writes_iff.mpr ⟨w, hw, rfl⟩)
  rw [hs] at hset
  rcases hset with h | h <;> cases h

omit [DecidableEq ι] in
/-- **The calls that have found something are a history** of calls of the tree. -/
theorem calls_history (hof : ∀ r ∈ runs, r.Of (encoding callback) (Operation.program compare))
    (hsep : NoEraseDuringEmplace (runs.map Ran.commit))
    (hh : Histories.History Ran.leave (Ran.Began (Operation.program compare)) Ran.Passes m runs) :
    Histories.History Call.commit (Call.Began compare) Call.Passes m (calls runs) := by
  refine (hh.filter (p := Ran.result) fun r hr hres m' => ?_).map toCall (fun _ _ => rfl) (fun r hr m' hb => ?_)
    fun d hd c hc hp => ?_
  · obtain ⟨m₀, hb⟩ := hh.began_of_mem hr
    exact leave_of_not_found hb hres m'
  · rw [Ran.Began, (List.mem_filter.mp hr).2] at hb
    exact began_of_program hb
  · obtain ⟨hd, hdres⟩ := List.mem_filter.mp hd
    obtain ⟨hc, -⟩ := List.mem_filter.mp hc
    obtain ⟨hval, hstart, hpoint⟩ := hp
    refine ⟨fun v hv => hval v (List.mem_append_left _ hv), fun hce => ?_⟩
    have nodes : ∀ r ∈ runs, commitNodes r.commit = r.call.nodes := fun r hr => by
      rw [commitNodes, (hof r hr).body, newNodes_body]
    obtain ⟨m₀, hb⟩ := hh.began_of_mem hd
    rw [Ran.Began, hdres] at hb
    by_contra hno
    -- an `erase_one` has erased a node in between
    have hret := (retires_of_found hb).resolve_left hno
    refine (hsep _ (List.mem_map_of_mem hc) _ (List.mem_map_of_mem hd) ?_ ?_ fun hnil => hret ?_).elim
      (Nat.not_lt_of_le hstart) (Nat.not_lt_of_le hpoint)
    · rw [nodes c hc]
      exact nodes_of_isEmplace hce
    · rw [nodes d hd]
      exact nodes_of_not_isEmplace hno
    · rw [(hof d hd).recorded.retired.symm] at hnil
      exact List.map_eq_nil_iff.mp (List.reverse_eq_nil_iff.mp hnil)

/-! ## 4. The tree in every state -/

/-- What the commits, in their order, have left of the tree `t`: a valid tree, whose pairs are those of `t` as
    the calls that have written something have edited them, one after the other; every node is in it or handed
    over, none twice. -/
def TreeLeft (compare : Key → Key → Bool) (callback : Ptr → Nat) (t : Tree Ptr Key Value)
    (commits : List (Commit ι (Var Ptr) (Cell Ptr Key Value))) (m : Memory Ptr Key Value) : Prop :=
  ∃ t' found ops gone, Valid compare m t' ∧
    found.Sublist commits ∧ (∀ c ∈ commits, c.writes ≠ [] → c ∈ found) ∧
    List.Forall₂ (fun c op => c.body = (encoding callback).body (Operation.program compare op)) found ops ∧
    Edits compare ops t.pairs t'.pairs ∧
    (t'.ptrs ++ gone).Perm (t.ptrs ++ commits.flatMap commitNodes) ∧ (t'.ptrs ++ gone).Nodup ∧
    (gone.map callback).Perm (commits.flatMap fun c => handedOver c.body c.log)

omit [DecidableEq ι] in
/-- What the calls hand over they have registered. -/
theorem retired_calls (hof : ∀ r ∈ runs, r.Of (encoding callback) (Operation.program compare))
    (hb : ∀ r ∈ runs, ∃ m, r.Began (Operation.program compare) m) :
    ((retired (calls runs)).map callback).Perm
      ((runs.map Ran.commit).flatMap fun c => handedOver c.body c.log) := by
  induction runs with
  | nil => exact .nil
  | cons r runs ih =>
    have hr := (hof r List.mem_cons_self).recorded.retired
    obtain ⟨m, hm⟩ := hb r List.mem_cons_self
    have ih := ih (fun r h => hof r (List.mem_cons_of_mem _ h)) fun r h => hb r (List.mem_cons_of_mem _ h)
    rw [List.map_cons, List.flatMap_cons, ← hr]
    cases hres : r.result with
    | true =>
      rw [calls, List.filter_cons_of_pos hres, List.map_cons, retired, List.flatMap_cons, List.map_append]
      exact (List.reverse_perm _).symm.append ih
    | false =>
      rw [Ran.Began, hres] at hm
      obtain ⟨us, hs⟩ := attempt_of_not_found hm
      rw [calls, List.filter_cons_of_neg (by rw [hres]; exact Bool.false_ne_true), hs]
      exact ih

omit [DecidableEq ι] in
/-- **The history of the tree**: behind every beginning of the calls the tree is valid. -/
theorem treeLeft_of_history (ho : StrictWeak compare) (h : Valid compare m t)
    (hof : ∀ r ∈ runs, r.Of (encoding callback) (Operation.program compare))
    (hnew : (t.ptrs ++ (runs.map Ran.commit).flatMap commitNodes).Nodup)
    (hsep : NoEraseDuringEmplace (runs.map Ran.commit))
    (hh : Histories.History Ran.leave (Ran.Began (Operation.program compare)) Ran.Passes m runs)
    {front back : List (TreeRan ι Ptr Key Value)} (e : runs = front ++ back) :
    TreeLeft compare callback t (front.map Ran.commit) (after Ran.leave m front) := by
  have hb : ∀ r ∈ runs, ∃ m, r.Began (Operation.program compare) m := fun r hr => hh.began_of_mem hr
  have hnew' : (t.ptrs ++ allocated (calls runs)).Nodup := by rwa [allocated_calls hof hb]
  have hcalls : calls runs = calls front ++ calls back := by
    rw [e, calls, List.filter_append, List.map_append, calls, calls]
  obtain ⟨-, hI⟩ := (calls_history hof hsep hh).serial (movable ho h hnew')
  have hof' : ∀ r ∈ front, r.Of (encoding callback) (Operation.program compare) := fun r hr =>
    hof r (e ▸ List.mem_append_left _ hr)
  have hb' : ∀ r ∈ front, ∃ m, r.Began (Operation.program compare) m := fun r hr =>
    hb r (e ▸ List.mem_append_left _ hr)
  have hmem : after Call.commit m (calls front) = after Ran.leave m front := by
    rw [calls, Histories.after_map (fun r m => (rfl : Call.commit (toCall r) m = Ran.leave r m))]
    exact Histories.after_filter (fun r hr hres => leave_of_not_found (hb' r hr).choose_spec hres) m
  obtain ⟨t', hval, hedits, hnodes⟩ := hI (calls front) (calls back) hcalls
  rw [hmem] at hval
  rw [allocated_calls hof' hb'] at hnodes
  refine ⟨t', (front.filter Ran.result).map Ran.commit, (calls front).map Call.op, retired (calls front), hval,
    List.filter_sublist.map _, fun c hc hw => ?_, ?_, hedits, hnodes, hnodes.nodup_iff.mpr ?_,
    retired_calls hof' hb'⟩
  · obtain ⟨r, hr, rfl⟩ := List.mem_map.mp hc
    refine List.mem_map_of_mem (List.mem_filter.mpr ⟨hr, ?_⟩)
    by_contra hres
    exact hw (writes_of_not_found (hof' r hr) (hb' r hr).choose_spec (Bool.not_eq_true _ ▸ hres))
  · rw [calls, List.map_map, List.forall₂_map_left_iff, List.forall₂_map_right_iff, List.forall₂_same]
    exact fun r hr => (hof' r (List.mem_filter.mp hr).1).body
  · rw [e, List.map_append, List.flatMap_append, ← List.append_assoc] at hnew
    exact (List.nodup_append'.mp hnew).1

section Result

variable {ok : Request (Var Ptr) (Cell Ptr Key Value) → Prop} {s : Sys ι (Var Ptr) (Cell Ptr Key Value)}
  {order : List (Commit ι (Var Ptr) (Cell Ptr Key Value))}

/-- Behind every beginning of the order of the commits. -/
theorem treeLeft_of_takesEffect (ho : StrictWeak compare) (hag : cfg.HashesAgree)
    (h0 : Valid compare ((encoding callback).memory cfg.initValue) t)
    (hok : ∀ r, ok r → TreeRequest compare callback r) (h : Sys.Reach cfg ok s)
    (hnew : (t.ptrs ++ s.shared.hist.commits.flatMap commitNodes).Nodup)
    (hsep : NoEraseDuringEmplace s.shared.hist.commits) (hord : TakesEffect s order)
    {front back : List (Commit ι (Var Ptr) (Cell Ptr Key Value))} (e : order = front ++ back) :
    TreeLeft compare callback t front ((encoding callback).memory (leaves cfg front)) := by
  obtain ⟨runs, rfl, hof, hhist⟩ := hord.exists_runs hag program_converges hok h (List.append_nil order).symm
  obtain ⟨front, back, rfl, rfl, -⟩ := List.map_eq_append_iff.mp e
  rw [← after_leave (fun r hr => hof r (List.mem_append_left back hr)) cfg.initValue]
  refine treeLeft_of_history ho h0 hof ?_ (fun c hc d hd => ?_) hhist rfl
  · exact ((hord.perm.flatMap_right commitNodes).append_left t.ptrs).nodup_iff.mpr hnew
  · exact hsep c (hord.perm.mem_iff.mp hc) d (hord.perm.mem_iff.mp hd)

/-- **No call dereferences a null pointer**, runs into an assertion or gets lost in a loop, not even in an attempt
    that will abort since its tree has changed meanwhile: on what some beginning of the commits' order leaves the
    call, run alone, returns; the attempt has performed at most as many operations as this run does, and when
    it has performed all of them it has returned. -/
theorem tree_never_stops (ho : StrictWeak compare) (hag : cfg.HashesAgree)
    (h0 : Valid compare ((encoding callback).memory cfg.initValue) t)
    (hok : ∀ r, ok r → TreeRequest compare callback r) (h : Sys.Reach cfg ok s)
    (hnew : (t.ptrs ++ s.shared.hist.commits.flatMap commitNodes).Nodup)
    (hsep : NoEraseDuringEmplace s.shared.hist.commits) {u : ι} (hk : (s.threads u).kind = .readWrite)
    (hg : (s.threads u).pc.goesOn = true)
    (hown : ∀ n ∈ newNodes (s.threads u).body, n ∉ t.ptrs ++ s.shared.hist.commits.flatMap commitNodes) :
    (s.threads u).body (s.threads u).log ≠ .throw ∧
    ∃ order, TakesEffect s order ∧ OfPrefix s order (s.threads u) fun earlier => ∃ op b s₁,
      (s.threads u).body = (encoding callback).body (Operation.program compare op) ∧
      Returns (op.program compare) ((encoding callback).memory (leaves cfg earlier)) b s₁ ∧
      (s.threads u).log.length ≤ s₁.operations ∧
      ((s.threads u).log.length = s₁.operations → (s.threads u).body (s.threads u).log = .ret) := by
  obtain ⟨order, hord⟩ := exists_takesEffect s
  have hends : OfPrefix s order (s.threads u) fun earlier => ∃ op b s₁,
      (s.threads u).body = (encoding callback).body (Operation.program compare op) ∧
      Returns (op.program compare) ((encoding callback).memory (leaves cfg earlier)) b s₁ ∧
      (s.threads u).body (s.threads u).log ≠ .throw ∧ (s.threads u).log.length ≤ s₁.operations ∧
      ((s.threads u).log.length = s₁.operations → (s.threads u).body (s.threads u).log = .ret) := by
    refine (hord.running hag program_converges hok h hk hg).imp fun earlier later e => ?_
    rintro ⟨op, s', hbody, hrec, hrun⟩
    obtain ⟨t', -, -, gone, hval, -, -, -, -, hnodes, -⟩ :=
      treeLeft_of_takesEffect ho hag h0 hok h hnew hsep hord e
    -- the new node is in no tree that the attempt can see
    have hn : ∀ n ∈ op.nodes, n ∉ t'.ptrs := fun n hn hm => by
      rw [hbody, newNodes_body] at hown
      refine hown n hn (List.mem_append.mpr ?_)
      refine (List.mem_append.mp (hnodes.mem_iff.mp (List.mem_append_left gone hm))).imp_right fun hm => ?_
      obtain ⟨c, hc, hnc⟩ := List.mem_flatMap.mp hm
      exact List.mem_flatMap.mpr ⟨c, hord.perm.mem_iff.mp (e ▸ List.mem_append_left later hc), hnc⟩
    obtain ⟨b, s₁, hret⟩ := exists_returns ho hval hn
    refine ⟨op, b, s₁, hbody, hret, ?_⟩
    rw [hbody]
    exact hrec.returns (program_converges op) hrun hret
  obtain ⟨earlier, later, e, ⟨op, b, s₁, hbody, hret, hne, hops⟩, hrest⟩ := hends
  exact ⟨hne, order, hord, earlier, later, e, ⟨op, b, s₁, hbody, hret, hops⟩, hrest⟩

end Result

end Machine

/-- The vars of a tree of two nodes, numbered. -/
def varNumber : Var Bool → Nat
  | .link .root => 0
  | .link (.child .left n) => 1 + n.toNat
  | .link (.child .right n) => 3 + n.toNat
  | .parent n => 5 + n.toNat
  | .color n => 7 + n.toNat
  | .key n => 9 + n.toNat
  | .value n => 11 + n.toNat

def varOfNumber : Nat → Var Bool
  | 0 => .root
  | 1 => .child .left false
  | 2 => .child .left true
  | 3 => .child .right false
  | 4 => .child .right true
  | 5 => .parent false
  | 6 => .parent true
  | 7 => .color false
  | 8 => .color true
  | 9 => .key false
  | 10 => .key true
  | 11 => .value false
  | _ => .value true

theorem varNumber_spec (v : Var Bool) : varOfNumber (varNumber v) = v ∧ varNumber v < 13 := by
  rcases v with (_ | ⟨_ | _, _ | _⟩) | (_ | _) | (_ | _) | (_ | _) | (_ | _) <;> exact ⟨rfl, by decide⟩

theorem varNumber_inj (v w : Var Bool) (h : varNumber v = varNumber w) : v = w :=
  (varNumber_spec v).1.symm.trans ((congrArg varOfNumber h).trans (varNumber_spec w).1)

/-- Two threads, and an empty tree. -/
def treeConfig : Config Bool (Var Bool) (Cell Bool Nat Nat) where
  varType _ := .atomic
  layout v := ⟨16 * varNumber v, 16, 0⟩
  initPtr := varNumber
  initPtr_inj := varNumber_inj
  firstFree := 13
  initPtr_lt v := (varNumber_spec v).2
  initCells _ := .ptr none
  initRaw v := (encoding Bool.toNat).encode v (emptyMemory v)
  nodes := smallConfig.nodes
  nodes_complete := smallConfig.nodes_complete
  reclaimLimit := 4

theorem treeConfig_hashesAgree : treeConfig.HashesAgree :=
  Config.EmptyAllocators.hashesAgree fun _ => ⟨rfl, rfl⟩

theorem treeConfig_valid :
    Valid less ((encoding Bool.toNat).memory treeConfig.initValue) (.nil : Tree Bool Nat Nat) where
  represents := ⟨rfl, trivial, List.nodup_nil⟩
  sorted := List.Pairwise.nil
  balanced := ⟨rfl, trivial, 0, rfl⟩

def treeCall (op : Operation Bool Nat Nat) : Request (Var Bool) (Cell Bool Nat Nat) :=
  .readWrite ((encoding Bool.toNat).body (op.program less))

/-- One thread emplaces a node, the other one is about to erase it, or has. -/
def grown (steps : Nat) : List (Bool × Option (Request (Var Bool) (Cell Bool Nat Nat))) :=
  (true, some (treeCall (.emplace true 5 50))) :: List.replicate 66 (true, none) ++
  (false, some (treeCall (.eraseOne 5))) :: List.replicate steps (false, none)

theorem grown_reach (steps : Nat) (h : (Sys.run treeConfig (grown steps) (.init treeConfig)).isSome = true) :
    Sys.Reach treeConfig (TreeRequest less Bool.toNat)
      ((Sys.run treeConfig (grown steps) (.init treeConfig)).get h) := by
  refine .of_run (fun m hm r hr => ?_) (Option.some_get h).symm
  simp only [grown, List.cons_append, List.mem_cons, List.mem_append, List.mem_replicate] at hm
  rcases hm with rfl | ⟨_, rfl⟩ | rfl | ⟨_, rfl⟩ <;> cases hr <;> exact ⟨_, rfl⟩

/-- The one that erases is behind its search. -/
theorem grown_isSome_erasing : (Sys.run treeConfig (grown 12) (.init treeConfig)).isSome = true := by decide

theorem tree_never_stops_grown :
    let s := (Sys.run treeConfig (grown 12) (.init treeConfig)).get grown_isSome_erasing
    (s.threads false).log.length = 3 ∧ (s.threads false).body (s.threads false).log ≠ .throw ∧
    ∃ order, TakesEffect s order ∧ OfPrefix s order (s.threads false) fun earlier => ∃ op b s₁,
      (s.threads false).body = (encoding Bool.toNat).body (Operation.program less op) ∧
      Returns (op.program less) ((encoding Bool.toNat).memory (leaves treeConfig earlier)) b s₁ ∧
      (s.threads false).log.length ≤ s₁.operations ∧
      ((s.threads false).log.length = s₁.operations → (s.threads false).body (s.threads false).log = .ret) :=
  ⟨by decide, tree_never_stops less_strictWeak treeConfig_hashesAgree treeConfig_valid (fun _ => id)
    (grown_reach 12 grown_isSome_erasing) (by decide) (by decide) (by decide) (by decide) (by decide)⟩

end Rbtree

end LockfreeStm
