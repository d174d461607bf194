/-
  File:      LockfreeStm/Rbtree/ManyOperations.lean
  Subject:   ANY NUMBER OF CONCURRENT `emplace` AND `erase_one`, as a history of optimistic transactions.

  Every call ran on what some beginning of the history has left, and validates behind all that has committed
  since. It is moved past these one by one. An `emplace` keeps its gap behind another `emplace`, but not
  behind every `erase_one`; so no `erase_one` may commit between an `emplace` and the tree it began on. An
  `erase_one` that has found a node may be moved past everything: its victim stays where it is.

  * `Call`, `Call.Began`, `Call.Passes` -- the transactions of such a history.
  * `Edits` -- what the calls do to the pairs of the tree, in their order.
  * `Call.leaves` -- one call, run on a valid tree.
  * `emplace_behind`, `eraseImpl_behind` -- one call moved past another one.
  * `operations_serial` -- **the main result**; `newNode_untouched` -- nobody writes into another's new node.
-/
import LockfreeStm.Library.History
import LockfreeStm.Rbtree.NegativeErase
import Mathlib.Data.List.Flatten

namespace LockfreeStm

namespace Rbtree

open Optimistic (Returns)
open Histories (History SerialHistory Movable after)
open scoped List

variable {Ptr Key Value : Type}

/-! ## 1. Calls -/

/-- The node the allocator hands out. -/
def Operation.nodes : Operation Ptr Key Value → List Ptr
  | .emplace n _ _ => [n]
  | .eraseOne _ => []

def Operation.isEmplace : Operation Ptr Key Value → Bool
  | .emplace _ _ _ => true
  | .eraseOne _ => false

/-- A call that has committed, and the attempt in which it has. -/
structure Call (Ptr Key Value : Type) where
  op : Operation Ptr Key Value
  attempt : Attempt Ptr Key Value

/-- What the calls do to the pairs of a tree: `emplace` puts its pair behind those it does not go before,
    `erase_one` takes out one pair of an equivalent key. -/
inductive Edits (compare : Key → Key → Bool) :
    List (Operation Ptr Key Value) → List (Key × Value) → List (Key × Value) → Prop where
  | nil (l : List (Key × Value)) : Edits compare [] l l
  | emplace {ops : List (Operation Ptr Key Value)} {l l' : List (Key × Value)} (n : Ptr) (key : Key)
      (value : Value) (h : Edits compare ops l l') :
      Edits compare (ops ++ [.emplace n key value]) l (insertBefore (fun e => compare key e.1) (key, value) l')
  | eraseOne {ops : List (Operation Ptr Key Value)} {l front back : List (Key × Value)} (key : Key)
      (e : Key × Value) (he : Equivalent compare key e.1) (h : Edits compare ops l (front ++ e :: back)) :
      Edits compare (ops ++ [.eraseOne key]) l (front ++ back)

theorem insertBefore_perm {α : Type} (b : α → Bool) (y : α) (l : List α) :
    (insertBefore b y l).Perm (y :: l) := by
  refine List.perm_middle.trans (.cons y ?_)
  exact List.perm_append_comm.trans (List.filter_append_perm b l)

variable [DecidableEq Ptr] {compare : Key → Key → Bool} {m m₂ : Memory Ptr Key Value}
  {t t' t₂ : Tree Ptr Key Value} {n n₁ n₂ : Ptr} {key key₁ key₂ : Key} {value value₁ value₂ : Value}
  {s s₁ s₂ : Attempt Ptr Key Value} {c d : Call Ptr Key Value}

/-- The memory after the commit. -/
def Call.commit (c : Call Ptr Key Value) (m : Memory Ptr Key Value) : Memory Ptr Key Value :=
  c.attempt.commit m

/-- The call, made on the memory `m`, ends in the attempt; an `erase_one` has found a node. -/
def Call.Began (compare : Key → Key → Bool) (c : Call Ptr Key Value) (m : Memory Ptr Key Value) : Prop :=
  match c.op with
  | .emplace n key value => Returns (fun fuel => Rbtree.emplace compare fuel n key value) m () c.attempt
  | .eraseOne key => Returns (fun fuel => Rbtree.eraseOne compare fuel key) m true c.attempt

/-- What the attempt has tracked, written and handed over the call does on the memory `m` as well: the whole
    `emplace`, or `erase_impl` of some node of an equivalent key. -/
def Call.Runs (compare : Key → Key → Bool) (c : Call Ptr Key Value) (m : Memory Ptr Key Value) : Prop :=
  match c.op with
  | .emplace n key value =>
    ∃ us, Returns (fun fuel => Rbtree.emplace compare fuel n key value) m () (c.attempt.moved m us)
  | .eraseOne key => ∃ (t : Tree Ptr Key Value) (x : Ptr × Key × Value) (us us' : List (Var Ptr)),
    Represents m t ∧ x ∈ t.cells ∧ Equivalent compare key x.2.1 ∧ ∀ fuel, t.cells.length < fuel →
      (eraseImpl fuel x.1).run ((Optimistic.Attempt.start m).readAllUntracked us) =
        .ok ((), c.attempt.moved m us')

/-- `d` has committed since `c` began: `c` validates behind it, and if it is an `emplace`, so is `d`. -/
def Call.Passes (d c : Call Ptr Key Value) : Prop :=
  c.attempt.Validates d.attempt.writes ∧ (c.op.isEmplace = true → d.op.isEmplace = true)

/-! ## 2. One call -/

/-- An attempt moved to another memory commits the same. -/
theorem moved_commit (s : Attempt Ptr Key Value) (m m₂ : Memory Ptr Key Value) (us : List (Var Ptr)) :
    (s.moved m us).commit m₂ = s.commit m₂ := by
  funext v
  simp only [Optimistic.Attempt.moved, Optimistic.Attempt.rebase, Optimistic.Attempt.commit]
  split <;> rfl

theorem moved_moved (s : Attempt Ptr Key Value) (m m₂ : Memory Ptr Key Value) (us us₂ : List (Var Ptr)) :
    (s.moved m us).moved m₂ us₂ = s.moved m₂ us₂ := by
  have h := moved_commit s m m₂ us
  simp only [Optimistic.Attempt.moved, Optimistic.Attempt.rebase] at h ⊢
  rw [h]

/-- On the memory it ran on, it is what it was. -/
theorem moved_self {α : Type} {p : Nat → Program Ptr Key Value α} {a : α} (h : Returns p m a s) :
    s.moved m s.untracked = s := by
  simp only [Optimistic.Attempt.moved, Optimistic.Attempt.rebase, h.commit_self]

/-- What a moved attempt leaves. -/
theorem After.of_moved {us : List (Var Ptr)} (h : After compare m t t₂ (s.moved m us)) :
    After compare m t t₂ s where
  valid := moved_commit s m m us ▸ h.valid
  fate x hx := by
    cases h.fate x hx with
    | stays h => exact .stays h
    | unlinked one link => exact .unlinked one link
    | assigned two key => exact .assigned two key
  retired := h.retired
  frame v hw ho := by
    rw [← moved_commit s m m us]
    exact h.frame v hw ho

/-- A call runs on the memory it began on. -/
theorem Call.Began.runs (ho : StrictWeak compare) (h : Valid compare m t) (hc : c.Began compare m) :
    c.Runs compare m := by
  obtain ⟨op, s⟩ := c
  cases op with
  | emplace n key value =>
    exact ⟨s.untracked, by rw [moved_self hc]; exact hc⟩
  | eraseOne key =>
    rcases eraseOne_spec ho h key with ⟨us, -, hret⟩ | ⟨us, x, hx, heq, -, s', t', p, hrun, hret, -⟩
    · cases (hc.unique hret).1
    · obtain ⟨-, rfl⟩ := hc.unique hret
      exact ⟨t, x, us, s.untracked, h.represents, hx, heq, by rw [moved_self hc]; exact hrun⟩

/-- **One call on a valid tree**: what it leaves, what it does to the pairs, and where its nodes are. -/
theorem Call.leaves (ho : StrictWeak compare) (h : Valid compare m t) (hn : ∀ n ∈ c.op.nodes, n ∉ t.ptrs)
    (hc : c.Runs compare m) : ∃ t₂, After compare m t t₂ c.attempt ∧
      (∀ ops l, Edits compare ops l t.pairs → Edits compare (ops ++ [c.op]) l t₂.pairs) ∧
      (t₂.ptrs ++ c.attempt.retired).Perm (t.ptrs ++ c.op.nodes) := by
  obtain ⟨op, s⟩ := c
  cases op with
  | emplace n key value =>
    obtain ⟨us, hret⟩ := hc
    have hn : n ∉ t.ptrs := hn n List.mem_cons_self
    obtain ⟨t₂, haft⟩ := (Operation.emplace n key value).after ho h ⟨hn, hret⟩
    obtain ⟨t₃, hval, hcells⟩ := emplace_leaves ho h hn hret
    obtain rfl := hval.represents.unique haft.valid.represents
    obtain ⟨s', -, -, hret', -, hretired, -⟩ := emplace_spec ho h hn key value
    obtain ⟨-, rfl⟩ := hret.unique hret'
    refine ⟨t₂, haft.of_moved, fun ops l hops => ?_, ?_⟩
    · rw [Tree.pairs, hcells, map_insertBefore (fun c => c.2) (fun e => compare key e.1) (n, key, value)]
      exact hops.emplace n key value
    · have hretired : s.retired = [] := hretired
      rw [hretired, List.append_nil, Tree.ptrs, hcells]
      refine ((insertBefore_perm _ _ _).map _).trans ?_
      exact (List.perm_append_singleton n t.ptrs).symm
  | eraseOne key =>
    obtain ⟨t₁, x, us, us', hrep, hx, heq, hrun⟩ := hc
    obtain rfl := hrep.unique h.represents
    have hx' := List.mem_map_of_mem (f := fun c => c.1) hx
    obtain ⟨s', t₂, p, hrun', hrep₂, hbal₂, hretired, hunl, hlink⟩ := eraseImpl_spec
      (s := (Optimistic.Attempt.start m).readAllUntracked us) hrep h.balanced hx'
    have hlt := Nat.lt_succ_self t.cells.length
    obtain rfl : s.moved m us' = s' := congrArg Prod.snd (Except.ok.inj ((hrun _ hlt).symm.trans (hrun' _ hlt)))
    obtain ⟨-, hpriv⟩ := eraseImpl_footprint hrep hx' (hrun _ hlt)
    have hep := hunl.erasedPair hrep.nodup hx rfl
    have hretired : s.retired = [p] := hretired
    have hval₂ : Valid compare (s.commit m) t₂ := by
      refine ⟨?_, hep.sorted h.sorted, hbal₂⟩
      exact hrep₂
    refine ⟨t₂, ⟨hval₂, fun y hy => ?_, fun q hq => ?_, fun v hw _ => ?_⟩, fun ops l hops => ?_, ?_⟩
    · cases hunl.fate hlink hy with
      | stays h => exact .stays h
      | unlinked one link => exact .unlinked one link
      | assigned two key => exact .assigned two key
    · rw [hretired, List.mem_singleton] at hq
      exact hq ▸ (List.nodup_cons.mp (hep.ptrs.nodup_iff.mp hrep.nodup)).1
    · exact Optimistic.Attempt.commit_of_notMem hw (hpriv v)
    · obtain ⟨front, back, ht, ht₂⟩ := hep.pairs
      rw [ht₂]
      exact (ht ▸ hops).eraseOne key x.2 heq
    · rw [hretired]
      exact (List.perm_append_singleton p t₂.ptrs).trans (hep.ptrs.symm.trans (.of_eq (List.append_nil _).symm))

/-- A call writes vars of the tree and of its new node, and stores directly into the latter only. -/
theorem Call.written (ho : StrictWeak compare) (h : Valid compare m t) (hn : ∀ n ∈ c.op.nodes, n ∉ t.ptrs)
    (hc : c.Runs compare m) :
    (∀ v ∈ c.attempt.writes ++ c.attempt.privates, ∀ p, v.owner = some p → p ∈ t.ptrs ++ c.op.nodes) ∧
      ∀ v ∈ c.attempt.privates, ∃ n ∈ c.op.nodes, v.owner = some n := by
  obtain ⟨op, s⟩ := c
  cases op with
  | emplace n key value =>
    obtain ⟨us, hret⟩ := hc
    have hn : n ∉ t.ptrs := hn n List.mem_cons_self
    obtain ⟨C, rfl, hg⟩ : ∃ C, plug C .nil = t ∧ Gap compare key C :=
      exists_gap (C := []) ho h.sorted (⟨nofun, nofun⟩ : Gap compare key [])
    refine ⟨fun v hv p hp => ?_, fun v hv => ⟨n, List.mem_cons_self, ?_⟩⟩
    · rcases emplace_written h.represents hn hg hret v hv p hp with rfl | hp
      · exact List.mem_append_right _ List.mem_cons_self
      · exact List.mem_append_left _ hp
    · exact (emplace_footprint h.represents hn hg hret).2 v hv
  | eraseOne key =>
    obtain ⟨t₁, x, us, us', hrep, hx, heq, hrun⟩ := hc
    obtain rfl := hrep.unique h.represents
    have hx' := List.mem_map_of_mem (f := fun c => c.1) hx
    have hrun := hrun _ (Nat.lt_succ_self t.cells.length)
    have hpriv : ∀ v, v ∉ s.privates := (eraseImpl_footprint hrep hx' hrun).2
    refine ⟨fun v hv p hp => List.mem_append_left _ ?_, fun v hv => absurd hv (hpriv v)⟩
    exact eraseImpl_written hrep hx' hrun v ((List.mem_append.mp hv).resolve_right (hpriv v)) p hp

/-! ## 3. One call moved past another one -/

/-- **`emplace` behind an `emplace`** that began on the same tree: its gap is at the same link. -/
theorem emplace_behind (ho : StrictWeak compare) (h : Valid compare m t) (hn₁ : n₁ ∉ t.ptrs) (hn₂ : n₂ ∉ t.ptrs)
    (hne : n₁ ≠ n₂) (h₁ : Returns (fun fuel => emplace compare fuel n₁ key₁ value₁) m () s₁)
    (h₂ : Returns (fun fuel => emplace compare fuel n₂ key₂ value₂) m () s₂) (hv : s₁.Validates s₂.writes) :
    ∃ us, Returns (fun fuel => emplace compare fuel n₁ key₁ value₁) (s₂.commit m) ()
      (s₁.moved (s₂.commit m) us) := by
  obtain ⟨t₂, haft⟩ := (Operation.emplace n₂ key₂ value₂).after ho h ⟨hn₂, h₂⟩
  obtain ⟨s', t', D, hret, hval, -, hD, hgD, hc⟩ := emplace_spec ho h hn₂ key₂ value₂
  obtain ⟨-, rfl⟩ := h₂.unique hret
  rw [← h₂.commit_self] at hval
  obtain rfl := hval.represents.unique haft.valid.represents
  obtain ⟨C, rfl, hg⟩ : ∃ C, plug C .nil = t ∧ Gap compare key₁ C :=
    exists_gap (C := []) ho h.sorted (⟨nofun, nofun⟩ : Gap compare key₁ [])
  have hrep := h.represents
  -- the other one has set another link
  obtain ⟨-, hw₁⟩ := emplace_tracks hrep hn₁ hg h₁
  obtain ⟨-, hw₂⟩ := emplace_tracks (hD ▸ hrep) (hD ▸ hn₂) hgD h₂
  have hslot : slot C ≠ slot D := fun e => (hv _ hw₂).2 (e ▸ hw₁)
  have hin : ∀ p, (Var.link (slot C)).owner = some p → p ∈ (plug C (.nil : Tree Ptr Key Value)).ptrs := by
    rw [slot_owner_eq_top]
    exact top_inside
  have hmem : ∀ q, q ∈ t₂.ptrs ↔ q = n₂ ∨ q ∈ (plug C (.nil : Tree Ptr Key Value)).ptrs := fun q => by
    rw [hD, ptrs_plug_nil, Tree.ptrs, hc]
    simp [frontPtrs, backPtrs, or_left_comm]
  have hnull : s₂.commit m (.link (slot C)) = none :=
    (haft.frame _ (fun e => (hv _ e).2 hw₁) hin).trans hrep.at_hole.1
  obtain ⟨C₂, rfl, hslot₂⟩ := haft.valid.represents.exists_null_hole hnull fun p hp =>
    (hmem p).mpr (.inr (hin p hp))
  have hg₂ := gap_after_emplace ho hrep hg hD hgD hslot haft.valid.represents hc hslot₂
  obtain ⟨hread, -⟩ := emplace_footprint hrep hn₁ hg h₁
  refine emplace_moved hrep hn₁ hg h₁ haft.valid.represents (fun e => ((hmem _).mp e).elim hne hn₁) hg₂ hslot₂
    fun v hvr => ?_
  by_cases hown : v.owner = some n₁
  · exact .inl hown
  · refine .inr (haft.frame v (fun e => (hv v e).1 hvr) fun p hp => ?_)
    exact (hread v hvr p hp).resolve_left fun e => hown (e ▸ hp)

/-- **`erase_impl` behind another call**: its victim is still there with its key. -/
theorem eraseImpl_behind (h : Valid compare m t) {x : Ptr × Key × Value} {us : List (Var Ptr)}
    (hx : x ∈ t.cells) (hrun : ∀ fuel, t.cells.length < fuel →
      (eraseImpl fuel x.1).run ((Optimistic.Attempt.start m).readAllUntracked us) = .ok ((), s₁))
    (haft : After compare m t t₂ s₂) (hv : s₁.Validates s₂.writes) (us₂ : List (Var Ptr)) :
    x ∈ t₂.cells ∧ ∀ fuel, t₂.cells.length < fuel →
      (eraseImpl fuel x.1).run ((Optimistic.Attempt.start (s₂.commit m)).readAllUntracked us₂) =
        .ok ((), s₁.moved (s₂.commit m) us₂) := by
  have hrep := h.represents
  have hx' := List.mem_map_of_mem (f := fun c => c.1) hx
  have hlt := Nat.lt_succ_self t.cells.length
  obtain ⟨s', t', p, hrun', -, -, -, hunl, hlink⟩ := eraseImpl_spec
    (s := (Optimistic.Attempt.start m).readAllUntracked us) hrep h.balanced hx'
  obtain rfl : s₁ = s' := congrArg Prod.snd (Except.ok.inj ((hrun _ hlt).symm.trans (hrun' _ hlt)))
  have hx₂ := eraseOne_victim hrep hx rfl hunl hlink (haft.fate x hx) hv
  obtain ⟨hfoot, -⟩ := eraseImpl_footprint hrep hx' (hrun _ hlt)
  have hread : ∀ v ∈ s₁.reads, s₂.commit m v = m v := fun v hvr =>
    haft.frame v (fun hw => (hv v hw).1 hvr) (hfoot v hvr)
  obtain ⟨s₃, -, -, hrun₃, -⟩ := eraseImpl_spec
    (s := (Optimistic.Attempt.start (s₂.commit m)).readAllUntracked us₂) haft.valid.represents
    haft.valid.balanced (List.mem_map_of_mem (f := fun c => c.1) hx₂)
  -- as much fuel as either tree needs
  have e := (eraseImpl_moved hrep hx' (hrun _ (Nat.lt_of_lt_of_le hlt (Nat.le_max_left _ (t₂.cells.length + 1))))
    hread us₂).symm.trans
      (hrun₃ _ (Nat.lt_of_lt_of_le (Nat.lt_succ_self _) (Nat.le_max_right (t.cells.length + 1) _)))
  obtain rfl : s₁.moved (s₂.commit m) us₂ = s₃ := congrArg Prod.snd (Except.ok.inj e)
  exact ⟨hx₂, hrun₃⟩

/-- **One call moved past another one** that it validates behind. -/
theorem Call.Runs.behind (ho : StrictWeak compare) (h : Valid compare m t) (hn : (d.op.nodes ++ c.op.nodes).Nodup)
    (hnew : ∀ n ∈ d.op.nodes ++ c.op.nodes, n ∉ t.ptrs) (hc : c.Runs compare m) (hd : d.Runs compare m)
    (hp : d.Passes c) : c.Runs compare (d.commit m) := by
  obtain ⟨t₂, haft, -, -⟩ := Call.leaves ho h (fun n hm => hnew n (List.mem_append_left _ hm)) hd
  obtain ⟨op₁, s₁⟩ := c
  obtain ⟨op₂, s₂⟩ := d
  obtain ⟨hv, hpass⟩ := hp
  cases op₁ with
  | emplace n₁ key₁ value₁ =>
    cases op₂ with
    | emplace n₂ key₂ value₂ =>
      obtain ⟨us₁, h₁⟩ := hc
      obtain ⟨us₂, h₂⟩ := hd
      have hne : n₁ ≠ n₂ := by
        rintro rfl
        exact (List.nodup_cons.mp hn).1 List.mem_cons_self
      obtain ⟨us, hret⟩ := emplace_behind ho h (hnew n₁ (List.mem_cons_of_mem _ List.mem_cons_self))
        (hnew n₂ List.mem_cons_self) hne h₁ h₂ hv
      rw [moved_commit, moved_moved] at hret
      exact ⟨us, hret⟩
    | eraseOne key => cases hpass rfl
  | eraseOne key =>
    obtain ⟨t₁, x, us, us', hrep, hx, heq, hrun⟩ := hc
    obtain rfl := hrep.unique h.represents
    obtain ⟨hx₂, hrun₂⟩ := eraseImpl_behind h hx hrun haft hv []
    rw [moved_moved] at hrun₂
    exact ⟨t₂, x, [], [], haft.valid.represents, hx₂, heq, hrun₂⟩

/-! ## 4. All of them -/

variable {order : List (Call Ptr Key Value)}

/-- The nodes that the calls were handed, and those they handed over. -/
def allocated (calls : List (Call Ptr Key Value)) : List Ptr := calls.flatMap fun c => c.op.nodes
def retired (calls : List (Call Ptr Key Value)) : List Ptr := calls.flatMap fun c => c.attempt.retired

/-- What the calls have left of the tree `t`: a valid tree, its pairs as they have edited them, and every node
    either in it or handed over. -/
def Leaves (compare : Key → Key → Bool) (t : Tree Ptr Key Value) (calls : List (Call Ptr Key Value))
    (m : Memory Ptr Key Value) : Prop :=
  ∃ t', Valid compare m t' ∧ Edits compare (calls.map Call.op) t.pairs t'.pairs ∧
    (t'.ptrs ++ retired calls).Perm (t.ptrs ++ allocated calls)

omit [DecidableEq Ptr] in
theorem allocated_concat (calls : List (Call Ptr Key Value)) (c : Call Ptr Key Value) :
    allocated (calls ++ [c]) = allocated calls ++ c.op.nodes := by
  simp [allocated]

omit [DecidableEq Ptr] in
theorem retired_concat (calls : List (Call Ptr Key Value)) (c : Call Ptr Key Value) :
    retired (calls ++ [c]) = retired calls ++ c.attempt.retired := by
  simp [retired]

omit [DecidableEq Ptr] in
/-- The nodes of calls to come are in no tree yet. -/
theorem not_mem_of_allocated {done rest : List (Call Ptr Key Value)}
    (hnew : (t.ptrs ++ allocated (done ++ rest)).Nodup)
    (hnodes : (t'.ptrs ++ retired done).Perm (t.ptrs ++ allocated done)) (hn : n ∈ allocated rest) :
    n ∉ t'.ptrs := by
  intro hm
  rw [allocated, List.flatMap_append, ← List.append_assoc] at hnew
  exact List.disjoint_of_nodup_append hnew (hnodes.mem_iff.mp (List.mem_append_left _ hm)) hn

/-- One more call. -/
theorem Leaves.concat (ho : StrictWeak compare) {done : List (Call Ptr Key Value)} (hm : Leaves compare t done m)
    (hn : ∀ t' : Tree Ptr Key Value, (t'.ptrs ++ retired done).Perm (t.ptrs ++ allocated done) →
      ∀ n ∈ c.op.nodes, n ∉ t'.ptrs) (hc : c.Runs compare m) : Leaves compare t (done ++ [c]) (c.commit m) := by
  obtain ⟨t₁, hval, hedits, hnodes⟩ := hm
  obtain ⟨t₂, haft, hedit, hnodes₂⟩ := Call.leaves ho hval (hn t₁ hnodes) hc
  refine ⟨t₂, haft.valid, ?_, ?_⟩
  · rw [List.map_append]
    exact hedit _ _ hedits
  · rw [retired_concat, allocated_concat, ← List.append_assoc, ← List.append_assoc]
    calc t₂.ptrs ++ retired done ++ c.attempt.retired
      _ ~ t₂.ptrs ++ c.attempt.retired ++ retired done := by
          rw [List.append_assoc, List.append_assoc]
          exact List.perm_append_comm.append_left _
      _ ~ t₁.ptrs ++ c.op.nodes ++ retired done := hnodes₂.append_right _
      _ ~ t₁.ptrs ++ retired done ++ c.op.nodes := by
          rw [List.append_assoc, List.append_assoc]
          exact List.perm_append_comm.append_left _
      _ ~ t.ptrs ++ allocated done ++ c.op.nodes := hnodes.append_right _

/-- The calls of such a history can be moved. -/
theorem movable (ho : StrictWeak compare) (h : Valid compare m t) (hnew : (t.ptrs ++ allocated order).Nodup) :
    Movable Call.commit (Call.Began compare) (Call.Runs compare) Call.Passes (Leaves compare t) m order where
  start := ⟨t, h, .nil _, .refl _⟩
  enter done c rest e hc hI hbegan := by
    obtain ⟨t₁, hval, -⟩ := hI
    exact hbegan.runs ho hval
  step done c rest e hI hc := by
    refine Leaves.concat ho hI (fun t' hnodes n hn => ?_) hc
    exact not_mem_of_allocated (e ▸ hnew) hnodes (List.mem_append_left _ hn)
  move done d rest c e hc hI hd hruns hp := by
    obtain ⟨t₁, hval, -, hnodes⟩ := hI
    have hsub : (d.op.nodes ++ c.op.nodes).Sublist (allocated (d :: rest)) := by
      have := ((List.singleton_sublist.mpr hc).cons_cons d).flatMap fun c => c.op.nodes
      simpa [allocated] using this
    refine hruns.behind ho hval ?_ (fun n hn => ?_) hd hp
    · rw [e, allocated, List.flatMap_append] at hnew
      exact hsub.nodup (List.nodup_append'.mp (List.nodup_append'.mp hnew).2.1).2.1
    · exact not_mem_of_allocated (e ▸ hnew) hnodes (hsub.subset hn)

/-- **Any number of concurrent calls.** Take calls of `emplace`, each with a new node, and of `erase_one` that
    have each begun on what some beginning of the history had left of a valid tree, and validate behind all
    that has committed since; no `erase_one` has between an `emplace` and the tree it began on. Then every
    call has done what it does where it has committed, and behind every beginning of the history the tree is
    valid, holds the pairs that the calls, one after the other, make of the initial ones, and no node is lost,
    or handed over twice, or handed over and still in the tree. -/
theorem operations_serial (ho : StrictWeak compare) (h : Valid compare m t)
    (hnew : (t.ptrs ++ allocated order).Nodup)
    (hh : History Call.commit (Call.Began compare) Call.Passes m order) :
    SerialHistory Call.commit (Call.Runs compare) m order ∧
    ∀ front back, order = front ++ back → ∃ t', Valid compare (after Call.commit m front) t' ∧
      Edits compare (front.map Call.op) t.pairs t'.pairs ∧
      (t'.ptrs ++ retired front).Perm (t.ptrs ++ allocated front) ∧ (t'.ptrs ++ retired front).Nodup := by
  obtain ⟨hserial, hI⟩ := hh.serial (movable ho h hnew)
  refine ⟨hserial, fun front back e => ?_⟩
  obtain ⟨t', hval, hedits, hnodes⟩ := hI front back e
  refine ⟨t', hval, hedits, hnodes, hnodes.nodup_iff.mpr ?_⟩
  rw [e, allocated, List.flatMap_append, ← List.append_assoc] at hnew
  exact (List.nodup_append'.mp hnew).1

/-- **Nobody else writes into a node that is not linked yet**: so in such a history a call that sets the vars of
    its new node, instead of storing into them, validates behind the same calls. -/
theorem newNode_untouched (ho : StrictWeak compare) (h : Valid compare m t)
    (hnew : (t.ptrs ++ allocated order).Nodup)
    (hh : History Call.commit (Call.Began compare) Call.Passes m order)
    {front mid back : List (Call Ptr Key Value)} (e : order = front ++ d :: mid ++ c :: back)
    {s : Attempt Ptr Key Value} (hs : c.attempt.AsSets s) :
    s.Validates (d.attempt.writes ++ d.attempt.privates) ↔
      c.attempt.Validates (d.attempt.writes ++ d.attempt.privates) := by
  rw [hs.validates_iff, and_iff_left_iff_imp]
  rintro - v hv hpriv
  obtain ⟨hserial, hI⟩ := hh.serial (movable ho h hnew)
  have ed : order = front ++ d :: (mid ++ c :: back) := by rw [e, List.append_assoc, List.cons_append]
  obtain ⟨t₁, hval₁, -, hnodes₁⟩ := hI front _ ed
  obtain ⟨t₂, hval₂, -, hnodes₂⟩ := hI (front ++ d :: mid) _ e
  -- the node of `c` is in no tree before `c`, and none of `d`
  obtain ⟨n, hn, hown⟩ := (Call.written ho hval₂
    (fun n hn => not_mem_of_allocated (e ▸ hnew) hnodes₂ (List.mem_append_left _ hn))
    (hserial _ _ _ e)).2 v hpriv
  have hin := (Call.written ho hval₁
    (fun n hn => not_mem_of_allocated (ed ▸ hnew) hnodes₁ (List.mem_append_left _ hn))
    (hserial _ _ _ ed)).1 v hv n hown
  have hbefore : n ∈ t.ptrs ++ allocated (front ++ [d]) := by
    rw [allocated_concat, ← List.append_assoc]
    refine (List.mem_append.mp hin).elim (fun hm => List.mem_append_left _ ?_) (List.mem_append_right _)
    exact hnodes₁.mem_iff.mp (List.mem_append_left _ hm)
  have e' : order = (front ++ [d]) ++ (mid ++ c :: back) := by rw [ed]; simp
  rw [e', allocated, List.flatMap_append, ← List.append_assoc] at hnew
  refine List.disjoint_of_nodup_append hnew hbefore (List.mem_flatMap.mpr ⟨c, ?_, hn⟩)
  exact List.mem_append_right _ List.mem_cons_self

/-- Two nodes are emplaced into the tree at once, and one is erased again while the other one commits. -/
def emplaceSeven : Call Nat Nat Nat := ⟨.emplace 7 7 70, (emplace less 9 7 7 70).outcome (memoryOf threeNodes)⟩
def emplaceOne : Call Nat Nat Nat := ⟨.emplace 1 1 10, (emplace less 9 1 1 10).outcome (memoryOf threeNodes)⟩
def eraseSeven : Call Nat Nat Nat :=
  ⟨.eraseOne 7, (eraseOne less 9 7).outcome (emplaceSeven.commit (memoryOf threeNodes))⟩

theorem threeCalls_history : History Call.commit (Call.Began less) Call.Passes (memoryOf threeNodes)
    ([emplaceSeven] ++ [emplaceOne] ++ [eraseSeven]) := by
  have hseven : emplaceSeven.Began less (memoryOf threeNodes) := ⟨9, fun fuel hf => by
    obtain ⟨f, rfl⟩ := Nat.exists_eq_add_of_le' hf
    rfl⟩
  have hone : emplaceOne.Began less (memoryOf threeNodes) := ⟨9, fun fuel hf => by
    obtain ⟨f, rfl⟩ := Nat.exists_eq_add_of_le' hf
    rfl⟩
  have herase : eraseSeven.Began less (emplaceSeven.commit (memoryOf threeNodes)) := ⟨9, fun fuel hf => by
    obtain ⟨f, rfl⟩ := Nat.exists_eq_add_of_le' hf
    rfl⟩
  have h₁ : History Call.commit (Call.Began less) Call.Passes (memoryOf threeNodes) ([] ++ [] ++ [emplaceSeven]) :=
    .concat .nil hseven nofun
  have h₂ : History Call.commit (Call.Began less) Call.Passes (memoryOf threeNodes)
      ([] ++ [emplaceSeven] ++ [emplaceOne]) :=
    .concat h₁ hone (List.forall_mem_singleton.mpr ⟨by decide, fun _ => rfl⟩)
  exact .concat h₂ herase (List.forall_mem_singleton.mpr ⟨by decide, nofun⟩)

theorem operations_serial_threeCalls :
    SerialHistory Call.commit (Call.Runs less) (memoryOf threeNodes)
      ([emplaceSeven] ++ [emplaceOne] ++ [eraseSeven]) ∧
    ∀ front back, [emplaceSeven] ++ [emplaceOne] ++ [eraseSeven] = front ++ back →
      ∃ t', Valid less (after Call.commit (memoryOf threeNodes) front) t' ∧
        Edits less (front.map Call.op) threeNodes.pairs t'.pairs ∧
        (t'.ptrs ++ retired front).Perm (threeNodes.ptrs ++ allocated front) ∧ (t'.ptrs ++ retired front).Nodup :=
  operations_serial less_strictWeak threeNodes_valid (by decide) threeCalls_history

end Rbtree

end LockfreeStm
