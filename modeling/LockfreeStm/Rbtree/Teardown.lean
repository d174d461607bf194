/-
  File:      LockfreeStm/Rbtree/Teardown.lean
  Subject:   `destroy_deallocate_subtree` (containers/rbtree.hpp): which nodes it frees.

  The loop runs without recursion and without a stack. While the root has a left child it frees the
  leftmost node and hangs the right subtree of that node's parent in its place. The leftmost node
  itself may have a right child; nothing leads to that child any more.

  * `Tree.prune` -- what is left of a tree when the right subtrees of such nodes are taken away;
  * `destroyDeallocateSubtree_spec` -- exactly the nodes of the pruned tree are freed, once each, and
    none is touched afterwards;
  * **`freesAll_iff`** -- so all are freed if and only if every node with a right child has a left one.
-/
import LockfreeStm.Rbtree.Emplace
import LockfreeStm.Rbtree.Erase

namespace LockfreeStm

namespace Rbtree

open Optimistic (Returns)

variable {Ptr Key Value : Type} [DecidableEq Ptr]

/-! ## 1. The code -/

/-- What must not happen to a node. -/
inductive Fault (Ptr : Type) where
  | useAfterFree (p : Ptr)
  | doubleFree (p : Ptr)
  | outOfFuel
deriving DecidableEq

/-- The memory, and the nodes that have been destroyed and deallocated, the last one first. -/
structure Teardown (Ptr Key Value : Type) where
  memory : Memory Ptr Key Value
  freed : List Ptr

namespace Teardown

/-- `unsafe_get` of `left_` or `right_`. -/
def unsafeGet (s : Teardown Ptr Key Value) (d : Side) (p : Ptr) :
    Except (Fault Ptr) (Option Ptr) :=
  if p ∈ s.freed then .error (.useAfterFree p) else .ok (s.memory (.child d p))

/-- `unsafe_set` of `left_` or `right_`. -/
def unsafeSet (s : Teardown Ptr Key Value) (d : Side) (p : Ptr) (o : Option Ptr) :
    Except (Fault Ptr) (Teardown Ptr Key Value) :=
  if p ∈ s.freed then .error (.useAfterFree p)
  else .ok { s with memory := Function.update s.memory (.child d p) o }

/-- `alloc_traits::destroy` and `alloc_traits::deallocate`. -/
def destroyDeallocate (s : Teardown Ptr Key Value) (p : Ptr) :
    Except (Fault Ptr) (Teardown Ptr Key Value) :=
  if p ∈ s.freed then .error (.doubleFree p) else .ok { s with freed := p :: s.freed }

/-- The inner loop: the leftmost node and its parent. -/
def leftmost (s : Teardown Ptr Key Value) : Nat → Ptr → Ptr → Except (Fault Ptr) (Ptr × Ptr)
  | 0, _, _ => .error .outOfFuel
  | fuel + 1, parent, leaf => do
    match ← s.unsafeGet .left leaf with
    | none => return (parent, leaf)
    | some l => s.leftmost fuel leaf l

/-- `destroy_deallocate_subtree`. -/
def destroyDeallocateSubtree : Nat → Teardown Ptr Key Value → Ptr →
    Except (Fault Ptr) (Teardown Ptr Key Value)
  | 0, _, _ => .error .outOfFuel
  | fuel + 1, s, node => do
    match ← s.unsafeGet .left node with
    | none => s.destroyDeallocate node
    | some l =>
      let (parent, leaf) ← s.leftmost fuel node l
      let r ← s.unsafeGet .right parent
      let s ← s.unsafeSet .left parent r
      let s ← s.unsafeSet .right parent none
      let s ← s.destroyDeallocate leaf
      destroyDeallocateSubtree fuel s node

end Teardown

/-! ## 2. What is freed -/

namespace Tree

/-- The tree without the right subtrees of nodes that have no left one. -/
def prune : Tree Ptr Key Value → Tree Ptr Key Value
  | nil => nil
  | node n nil _ => node n nil nil
  | node n (node q l x) r => node n (node q l x).prune r.prune

/-- Every node with a right child has a left one. -/
def LeftFirst : Tree Ptr Key Value → Prop
  | nil => True
  | node _ l r => (l = nil → r = nil) ∧ l.LeftFirst ∧ r.LeftFirst

variable {t : Tree Ptr Key Value}

omit [DecidableEq Ptr] in
theorem length_ptrs (t : Tree Ptr Key Value) : t.ptrs.length = t.cells.length := List.length_map _

omit [DecidableEq Ptr] in
theorem prune_of_leftFirst (h : t.LeftFirst) : t.prune = t := by
  induction t with
  | nil => rfl
  | node n l r ihl ihr =>
    cases l with
    | nil => rw [prune, h.1 rfl]
    | node q a b => rw [prune, ihl h.2.1, ihr h.2.2]

omit [DecidableEq Ptr] in
theorem prune_length_le (t : Tree Ptr Key Value) : t.prune.cells.length ≤ t.cells.length := by
  induction t with
  | nil => exact Nat.le_refl _
  | node n l r ihl ihr =>
    cases l with
    | nil => simp [prune, cells]
    | node q a b =>
      rw [prune, cells, cells]
      simp only [List.length_append, List.length_cons]
      omega

omit [DecidableEq Ptr] in
/-- Pruning loses a node unless there is nothing to prune. -/
theorem leftFirst_of_prune_length (h : t.prune.cells.length = t.cells.length) : t.LeftFirst := by
  induction t with
  | nil => trivial
  | node n l r ihl ihr =>
    cases l with
    | nil =>
      cases r with
      | nil => exact ⟨fun _ => rfl, trivial, trivial⟩
      | node q a b => simp [prune, cells] at h
    | node q a b =>
      have hl := prune_length_le (node q a b)
      have hr := prune_length_le r
      rw [prune, cells, cells] at h
      simp only [List.length_append, List.length_cons] at h
      exact ⟨fun e => (by cases e), ihl (by omega), ihr (by omega)⟩

omit [DecidableEq Ptr] in
/-- A root that keeps one subtree only, on the left. -/
theorem prune_ptrs_perm (n : Node Ptr Key Value) (r : Tree Ptr Key Value) :
    (node n r nil).prune.ptrs.Perm (n.ptr :: r.prune.ptrs) := by
  cases r with
  | nil => exact .refl _
  | node q a b => simp [prune, ptrs, cells, List.perm_append_singleton]

end Tree

/-! ## 3. One round of the loop -/

namespace Teardown

variable {m : Memory Ptr Key Value} {par : Option Ptr} {n q : Node Ptr Key Value}
  {t l r x : Tree Ptr Key Value} {freed : List Ptr} {p : Ptr}

theorem unsafeGet_ok {s : Teardown Ptr Key Value} (h : p ∉ s.freed) (d : Side) :
    s.unsafeGet d p = .ok (s.memory (.child d p)) := if_neg h

theorem unsafeSet_ok {s : Teardown Ptr Key Value} (h : p ∉ s.freed) (d : Side) (o : Option Ptr) :
    s.unsafeSet d p o = .ok { s with memory := Function.update s.memory (.child d p) o } := if_neg h

theorem destroyDeallocate_ok {s : Teardown Ptr Key Value} (h : p ∉ s.freed) :
    s.destroyDeallocate p = .ok { s with freed := p :: s.freed } := if_neg h

/-- The right subtree of `parent` hung in the place of the left one. -/
def rehang (m : Memory Ptr Key Value) (parent : Ptr) : Memory Ptr Key Value :=
  Function.update (Function.update m (.child .left parent) (m (.child .right parent)))
    (.child .right parent) none

theorem rehang_of_ne {v : Var Ptr} (h : v.owner ≠ some p) : rehang m p v = m v := by
  have hne : ∀ d, v ≠ .child d p := fun d e => h (by rw [e]; rfl)
  rw [rehang, Function.update_of_ne (hne _), Function.update_of_ne (hne _)]

theorem rehang_left : rehang m p (.child .left p) = m (.child .right p) := by
  rw [rehang, Function.update_of_ne (by simp), Function.update_self]

theorem rehang_right : rehang m p (.child .right p) = none := Function.update_self ..

theorem rehang_in (h : n.In m par) : n.In (rehang m p) par where
  parent := by rw [rehang, Function.update_of_ne (by simp), Function.update_of_ne (by simp), h.parent]
  color := by rw [rehang, Function.update_of_ne (by simp), Function.update_of_ne (by simp), h.color]
  key := by rw [rehang, Function.update_of_ne (by simp), Function.update_of_ne (by simp), h.key]
  value := by rw [rehang, Function.update_of_ne (by simp), Function.update_of_ne (by simp), h.value]

/-- A tree without the node stays as it is. -/
theorem rehang_holds (h : Holds m par t) (hp : p ∉ t.ptrs) : Holds (rehang m p) par t :=
  h.congr fun _ _ hv hq => rehang_of_ne fun e =>
    hp (Option.some.inj (hv.symm.trans e) ▸ hq)

/-- What one round makes of the tree `t`: it frees `leaf`, and `lost` is not in the tree any more. -/
structure Sheds (m : Memory Ptr Key Value) (par : Option Ptr) (t : Tree Ptr Key Value)
    (parent leaf : Ptr) (t' : Tree Ptr Key Value) (lost : List Ptr) : Prop where
  holds : Holds (rehang m parent) par t'
  root : t'.root = t.root
  perm : t.ptrs.Perm (leaf :: (t'.ptrs ++ lost))
  prune : t.prune.ptrs.Perm (leaf :: t'.prune.ptrs)
  parent : parent ∈ t'.ptrs

theorem leftmost_succ {fuel : Nat} {parent leaf : Ptr} (h : leaf ∉ freed) :
    (Teardown.mk m freed).leftmost (fuel + 1) parent leaf =
      match m (.child .left leaf) with
      | none => .ok (parent, leaf)
      | some l => (Teardown.mk m freed).leftmost fuel leaf l := by
  rw [leftmost, unsafeGet_ok (s := Teardown.mk m freed) h]
  dsimp only [bind, Except.bind]
  cases m (.child .left leaf) <;> rfl

/-- The leftmost node is the left child of the root. -/
theorem sheds_here (h : Holds m par (.node n (.node q .nil x) r))
    (hn : n.ptr ∉ r.ptrs) :
    Sheds m par (.node n (.node q .nil x) r) n.ptr q.ptr (.node n r .nil) x.ptrs where
  holds := ⟨rehang_in h.1, rehang_left.trans h.2.2.1, rehang_right,
    rehang_holds h.2.2.2.2 hn, trivial⟩
  root := rfl
  perm := by
    refine (Tree.ptrs_join_perm .left n (.node q .nil x) r).trans ?_
    refine .trans ?_ (.cons _ ((Tree.ptrs_join_perm .left n r .nil).symm.append_right _))
    have hqx : (Tree.node q .nil x).ptrs = q.ptr :: x.ptrs := rfl
    rw [hqx, Tree.ptrs_nil, List.append_nil, List.cons_append, List.cons_append]
    exact .trans (.swap ..) (.cons _ (.cons _ List.perm_append_comm))
  prune := .cons _ (Tree.prune_ptrs_perm n r).symm
  parent := (Tree.mem_ptrs_join .left ..).mpr (.inl rfl)

/-- The leftmost node is further down. -/
theorem Sheds.node {parent leaf : Ptr} {t' : Tree Ptr Key Value} {lost : List Ptr}
    (hs : Sheds m (some n.ptr) (.node q l x) parent leaf t' lost)
    (h : Holds m par (.node n (.node q l x) r))
    (hn : (Tree.node n (.node q l x) r).ptrs.Nodup) :
    Sheds m par (.node n (.node q l x) r) parent leaf (.node n t' r) lost := by
  have hnd := (Tree.ptrs_join_perm .left n (.node q l x) r).nodup_iff.mp hn
  rw [List.nodup_cons, List.mem_append, not_or, List.nodup_append'] at hnd
  obtain ⟨⟨hnl, -⟩, -, -, hdis⟩ := hnd
  obtain ⟨hin, hlink, hright, -, hhr⟩ := h
  have hparent : parent ∈ (Tree.node q l x).ptrs :=
    hs.perm.mem_iff.mpr (List.mem_cons_of_mem _ (List.mem_append_left _ hs.parent))
  have hne : n.ptr ≠ parent := fun e => hnl (e ▸ hparent)
  have hout : ∀ v : Var Ptr, v.owner = some n.ptr → v.owner ≠ some parent :=
    fun v hv e => hne (Option.some.inj (hv.symm.trans e))
  obtain ⟨q', a, b, rfl, hq'⟩ := Tree.exists_join hs.root .left
  have hperm : (Tree.node n (.join .left q' a b) r).ptrs.Perm
      (n.ptr :: ((Tree.join .left q' a b).ptrs ++ r.ptrs)) := Tree.ptrs_join_perm .left ..
  refine ⟨⟨rehang_in hin, ?_, ?_, hs.holds, ?_⟩, rfl, ?_, ?_, ?_⟩
  · rw [rehang_of_ne (hout _ rfl), hlink, hs.root]
  · rw [rehang_of_ne (hout _ rfl), hright]
  · exact rehang_holds hhr (hdis hparent)
  · refine (Tree.ptrs_join_perm .left n (.node q l x) r).trans ?_
    refine ((hs.perm.append_right r.ptrs).cons n.ptr).trans ?_
    rw [List.cons_append]
    refine (List.Perm.swap ..).trans (.cons _ ?_)
    have hperm' := hperm.append_right lost
    rw [List.cons_append] at hperm'
    refine .trans (.cons _ ?_) hperm'.symm
    rw [List.append_assoc, List.append_assoc]
    exact List.perm_append_comm.append_left _
  · have hl := Tree.ptrs_join_perm .left n (Tree.node q l x).prune r.prune
    have hr := Tree.ptrs_join_perm .left n (Tree.join .left q' a b).prune r.prune
    refine hl.trans (.trans ((hs.prune.append_right _).cons _) ?_)
    rw [List.cons_append]
    exact (List.Perm.swap ..).trans (.cons _ hr.symm)
  · exact (Tree.mem_ptrs_join .left ..).mpr (.inr (.inl hs.parent))

/-- The inner loop finds the leftmost node, and its parent. -/
theorem leftmost_spec (h : Holds m par (.node n (.node q l x) r))
    (hn : (Tree.node n (.node q l x) r).ptrs.Nodup)
    (hf : ∀ p ∈ (Tree.node n (.node q l x) r).ptrs, p ∉ freed) :
    ∃ parent leaf t' lost, Sheds m par (.node n (.node q l x) r) parent leaf t' lost ∧
      ∀ fuel, l.cells.length < fuel →
        (Teardown.mk m freed).leftmost fuel n.ptr q.ptr = .ok (parent, leaf) := by
  induction l generalizing n q x r par with
  | nil =>
    have hnd := (Tree.ptrs_join_perm .left n (.node q .nil x) r).nodup_iff.mp hn
    rw [List.nodup_cons, List.mem_append, not_or] at hnd
    refine ⟨n.ptr, q.ptr, .node n r .nil, x.ptrs, sheds_here h hnd.1.2, fun fuel hfuel => ?_⟩
    have hq : q.ptr ∉ freed := hf q.ptr ((Tree.mem_ptrs_join .left ..).mpr
      (.inr (.inl ((Tree.mem_ptrs_join .left ..).mpr (.inl rfl)))))
    obtain ⟨fuel, rfl⟩ := Nat.exists_eq_add_of_le' (Nat.succ_le_of_lt hfuel)
    rw [Nat.succ_eq_add_one, ← Nat.add_assoc, leftmost_succ hq,
      show m (.child .left q.ptr) = none from h.2.2.2.1.2.1]
  | node q' l' x' ih _ =>
    have hsub : (Tree.node q (.node q' l' x') x).ptrs.Sublist
        (Tree.node n (.node q (.node q' l' x') x) r).ptrs :=
      (List.sublist_append_left ..).map _
    obtain ⟨parent, leaf, t', lost, hs, hrun⟩ := ih h.2.2.2.1 (hn.sublist hsub)
      fun p hp => hf p (hsub.subset hp)
    refine ⟨parent, leaf, .node n t' r, lost, hs.node h hn, fun fuel hfuel => ?_⟩
    have hq : q.ptr ∉ freed := hf q.ptr ((Tree.mem_ptrs_join .left ..).mpr
      (.inr (.inl ((Tree.mem_ptrs_join .left ..).mpr (.inl rfl)))))
    obtain ⟨fuel, rfl⟩ := Nat.exists_eq_add_of_le' (Nat.one_le_of_lt hfuel)
    rw [leftmost_succ hq, show m (.child .left q.ptr) = some q'.ptr from h.2.2.2.1.2.1]
    refine hrun fuel ?_
    simp only [Tree.cells, List.length_append, List.length_cons] at hfuel
    omega

/-! ## 4. The whole loop -/

theorem destroyDeallocateSubtree_leaf {fuel : Nat} (h : m (.child .left p) = none) (hf : p ∉ freed) :
    destroyDeallocateSubtree (fuel + 1) ⟨m, freed⟩ p = .ok ⟨m, p :: freed⟩ := by
  rw [destroyDeallocateSubtree, unsafeGet_ok (s := Teardown.mk m freed) hf]
  dsimp only [bind, Except.bind]
  rw [h]
  exact destroyDeallocate_ok (s := Teardown.mk m freed) hf

theorem destroyDeallocateSubtree_round {fuel : Nat} {l parent leaf : Ptr}
    (h : m (.child .left p) = some l) (hf : p ∉ freed) (hparent : parent ∉ freed)
    (hleaf : leaf ∉ freed)
    (hl : (Teardown.mk m freed).leftmost fuel p l = .ok (parent, leaf)) :
    destroyDeallocateSubtree (fuel + 1) ⟨m, freed⟩ p =
      destroyDeallocateSubtree fuel ⟨rehang m parent, leaf :: freed⟩ p := by
  rw [destroyDeallocateSubtree, unsafeGet_ok (s := Teardown.mk m freed) hf]
  dsimp only [bind, Except.bind]
  rw [h]
  simp only [hl, unsafeGet_ok (s := Teardown.mk m freed) hparent,
    unsafeSet_ok (s := Teardown.mk m freed) hparent]
  rw [unsafeSet_ok (by exact hparent)]
  dsimp only
  rw [destroyDeallocate_ok (by exact hleaf)]
  rfl

/-- **The nodes of the pruned tree are freed, once each**, and none is touched after that. -/
theorem destroyDeallocateSubtree_spec (h : Holds m par t) (hn : t.ptrs.Nodup)
    (hp : t.root = some p) (hf : ∀ q ∈ t.ptrs, q ∉ freed) :
    ∃ m' freed', freed'.Perm (t.prune.ptrs ++ freed) ∧
      ∀ fuel, t.cells.length < fuel →
        destroyDeallocateSubtree fuel ⟨m, freed⟩ p = .ok ⟨m', freed'⟩ := by
  induction hlen : t.cells.length using Nat.strongRecOn generalizing m t freed with
  | ind len ih =>
    obtain ⟨n, l, r, rfl, rfl⟩ := Tree.exists_join hp .left
    have hnf : n.ptr ∉ freed := hf _ (Tree.mem_ptrs_of_root hp)
    cases l with
    | nil =>
      refine ⟨m, n.ptr :: freed, .refl _, fun fuel hfuel => ?_⟩
      obtain ⟨fuel, rfl⟩ := Nat.exists_eq_add_of_le' (Nat.one_le_of_lt hfuel)
      exact destroyDeallocateSubtree_leaf h.2.1 hnf
    | node q a b =>
      obtain ⟨parent, leaf, t', lost, hs, hrun⟩ := leftmost_spec h hn hf
      have hlt : t'.cells.length < len := by
        have := hs.perm.length_eq
        rw [List.length_cons, List.length_append, Tree.length_ptrs, Tree.length_ptrs] at this
        rw [← hlen]
        exact Nat.lt_of_lt_of_le (Nat.lt_succ_of_le (Nat.le_add_right ..)) (Nat.le_of_eq this.symm)
      have hnd := hs.perm.nodup_iff.mp hn
      rw [List.nodup_cons, List.mem_append, not_or] at hnd
      have hmem : ∀ p ∈ t'.ptrs, p ∈ (Tree.join .left n (.node q a b) r).ptrs := fun p hp =>
        hs.perm.mem_iff.mpr (List.mem_cons_of_mem _ (List.mem_append_left _ hp))
      have hleaf : leaf ∉ freed := hf leaf (hs.perm.mem_iff.mpr List.mem_cons_self)
      have hf' : ∀ p ∈ t'.ptrs, p ∉ leaf :: freed := fun p hp hpf =>
        (List.mem_cons.mp hpf).elim (fun e => hnd.1.1 (e ▸ hp)) (hf p (hmem p hp))
      obtain ⟨m', freed', hperm, hrun'⟩ := ih _ hlt hs.holds hnd.2.of_append_left
        (hs.root.trans hp) hf' rfl
      refine ⟨m', freed', hperm.trans ?_, fun fuel hfuel => ?_⟩
      · exact List.perm_middle.trans (hs.prune.symm.append_right freed)
      · obtain ⟨fuel, rfl⟩ := Nat.exists_eq_add_of_le' (Nat.one_le_of_lt hfuel)
        have hlenJ : (Tree.join .left n (.node q a b) r).cells.length = len := hlen
        have ha : a.cells.length < fuel := by
          simp only [Tree.join, Tree.cells, List.length_append, List.length_cons] at hlenJ
          omega
        rw [destroyDeallocateSubtree_round h.2.1 hnf (hf _ (hmem _ hs.parent)) hleaf (hrun fuel ha)]
        exact hrun' fuel (by omega)

/-- Tearing the tree down from its root ends, frees every node of it exactly once and touches none
    that it has freed. -/
def FreesAll (m : Memory Ptr Key Value) (t : Tree Ptr Key Value) (p : Ptr) : Prop :=
  ∃ enough m' freed, freed.Perm t.ptrs ∧
    ∀ fuel, enough ≤ fuel → destroyDeallocateSubtree fuel ⟨m, []⟩ p = .ok ⟨m', freed⟩

/-- **All nodes are freed if and only if every node with a right child has a left one.** The
    destructor runs on the memory `m` of the tree; the callback of `clear` runs later, when other
    vars may hold something else. -/
theorem freesAll_iff {m' : Memory Ptr Key Value} (h : Represents m t) (hp : t.root = some p)
    (hm : ∀ v q, v.owner = some q → q ∈ t.ptrs → m' v = m v) : FreesAll m' t p ↔ t.LeftFirst := by
  have hnone : ∀ q ∈ t.ptrs, q ∉ ([] : List Ptr) := fun _ _ => List.not_mem_nil
  obtain ⟨m₁, freed₁, hperm₁, hrun₁⟩ :=
    destroyDeallocateSubtree_spec (h.holds.congr hm) h.nodup hp hnone
  rw [List.append_nil] at hperm₁
  refine ⟨fun ⟨enough, m₂, freed₂, hperm₂, hrun₂⟩ => ?_, fun hl => ?_⟩
  · have hrun := (hrun₁ (max enough (t.cells.length + 1)) (Nat.le_max_right ..)).symm.trans
      (hrun₂ _ (Nat.le_max_left ..))
    have hfreed : freed₁ = freed₂ := congrArg Teardown.freed (Except.ok.inj hrun)
    refine Tree.leftFirst_of_prune_length ?_
    rw [← Tree.length_ptrs, ← Tree.length_ptrs]
    exact (hperm₁.symm.trans (hfreed ▸ hperm₂)).length_eq
  · refine ⟨t.cells.length + 1, m₁, freed₁, ?_, fun fuel hf => hrun₁ fuel hf⟩
    rw [Tree.prune_of_leftFirst hl] at hperm₁
    exact hperm₁

theorem freesAll_iff_threeNodes :
    FreesAll (memoryOf threeNodes) threeNodes 4 ↔ threeNodes.LeftFirst :=
  freesAll_iff threeNodes_valid.represents rfl fun _ _ _ _ => rfl

end Teardown

/-! ## 5. Trees built by the operations -/

omit [DecidableEq Ptr] in
/-- A memory holds one tree only. -/
theorem Holds.unique {m : Memory Ptr Key Value} {par : Option Ptr} {t t' : Tree Ptr Key Value}
    (h : Holds m par t) (h' : Holds m par t') (hr : t'.root = t.root) : t' = t := by
  induction t generalizing par t' with
  | nil => exact Tree.eq_nil_of_root hr
  | node n l r ihl ihr =>
    cases t' with
    | nil => cases hr
    | node n' l' r' =>
      have hp : n'.ptr = n.ptr := Option.some.inj hr
      obtain ⟨hi, hl, hr, hhl, hhr⟩ := h
      obtain ⟨hi', hl', hr', hhl', hhr'⟩ := h'
      rw [hp] at hl' hr' hhl' hhr'
      have hn : n' = n := by
        have hc := hi'.color
        have hk := hi'.key
        have hv := hi'.value
        rw [hp, hi.color] at hc
        rw [hp, hi.key] at hk
        rw [hp, hi.value] at hv
        cases n
        cases n'
        cases hp
        cases hc
        cases hk
        cases hv
        rfl
      rw [hn, ihl hhl hhl' (hl'.symm.trans hl), ihr hhr hhr' (hr'.symm.trans hr)]

omit [DecidableEq Ptr] in
theorem Represents.unique {m : Memory Ptr Key Value} {t t' : Tree Ptr Key Value}
    (h : Represents m t) (h' : Represents m t') : t' = t :=
  h.holds.unique h'.holds (h'.root.symm.trans h.root)

/-- The states of a tree that `emplace` and `erase_one` lead to. -/
inductive Reached (compare : Key → Key → Bool) : Memory Ptr Key Value → Prop
  | empty {m : Memory Ptr Key Value} (h : m .root = none) : Reached compare m
  | emplace {m : Memory Ptr Key Value} {s : Attempt Ptr Key Value} {n : Ptr} {key : Key}
      {value : Value} (h : Reached compare m) (hn : ∀ t, Represents m t → n ∉ t.ptrs)
      (hs : Returns (fun fuel => emplace compare fuel n key value) m () s) : Reached compare s.view
  | eraseOne {m : Memory Ptr Key Value} {s : Attempt Ptr Key Value} {key : Key} {found : Bool}
      (h : Reached compare m)
      (hs : Returns (fun fuel => eraseOne compare fuel key) m found s) : Reached compare s.view

/-- They are valid. -/
theorem reached_valid {compare : Key → Key → Bool} (ho : StrictWeak compare)
    {m : Memory Ptr Key Value} (h : Reached compare m) : ∃ t, Valid compare m t := by
  induction h with
  | empty h => exact ⟨.nil, ⟨h, trivial, List.nodup_nil⟩, List.Pairwise.nil, rfl, trivial, 0, rfl⟩
  | emplace _ hn hs ih =>
    obtain ⟨t, ht⟩ := ih
    obtain ⟨s', t', C, hs', hv, -⟩ := emplace_spec ho ht (hn t ht.represents) _ _
    exact ⟨t', (hs.unique hs').2 ▸ hv⟩
  | eraseOne _ hs ih =>
    obtain ⟨t, ht⟩ := ih
    rcases eraseOne_spec ho ht _ with ⟨us, -, hs'⟩ | ⟨us, x, -, -, -, s', t', p, -, hs', hv, -⟩
    · exact ⟨t, (hs.unique hs').2 ▸ ht⟩
    · exact ⟨t', (hs.unique hs').2 ▸ hv⟩

/-- The tree after `emplace(1, 10)`, and after `emplace(2, 20)`. -/
def afterOne : Memory Nat Nat Nat := ((emplace less 9 1 1 10).outcome emptyMemory).view
def afterTwo : Memory Nat Nat Nat := ((emplace less 9 2 2 20).outcome afterOne).view

/-- A black root without a left child. -/
def oneTwo : Tree Nat Nat Nat := .node ⟨1, .black, 1, 10⟩ .nil (.node ⟨2, .red, 2, 20⟩ .nil .nil)

theorem afterOne_represents :
    Represents afterOne (.node ⟨1, .black, 1, 10⟩ .nil .nil) where
  root := rfl
  holds := ⟨⟨rfl, rfl, rfl, rfl⟩, rfl, rfl, trivial, trivial⟩
  nodup := by decide

theorem afterTwo_represents : Represents afterTwo oneTwo where
  root := rfl
  holds := ⟨⟨rfl, rfl, rfl, rfl⟩, rfl, rfl, trivial, ⟨rfl, rfl, rfl, rfl⟩, rfl, rfl, trivial, trivial⟩
  nodup := by decide

theorem afterTwo_reached : Reached less afterTwo := by
  have hret₁ : Returns (fun fuel => emplace less fuel 1 1 10) emptyMemory ()
      ((emplace less 9 1 1 10).outcome emptyMemory) := ⟨9, fun fuel hf => by
    obtain ⟨f, rfl⟩ := Nat.exists_eq_add_of_le' hf
    rfl⟩
  have hret₂ : Returns (fun fuel => emplace less fuel 2 2 20) afterOne ()
      ((emplace less 9 2 2 20).outcome afterOne) := ⟨9, fun fuel hf => by
    obtain ⟨f, rfl⟩ := Nat.exists_eq_add_of_le' hf
    rfl⟩
  have hempty : Represents (emptyMemory : Memory Nat Nat Nat) .nil := ⟨rfl, trivial, List.nodup_nil⟩
  refine .emplace (.emplace (.empty rfl) (fun t ht => ?_) hret₁) (fun t ht => ?_) hret₂
  · rw [hempty.unique ht]
    exact List.not_mem_nil
  · rw [afterOne_represents.unique ht]
    decide

/-- **Node 2 is lost**: after two insertions the teardown frees the root and nothing else. -/
theorem afterTwo_leaks : Reached less afterTwo ∧ Represents afterTwo oneTwo ∧
    ¬ Teardown.FreesAll afterTwo oneTwo 1 := by
  refine ⟨afterTwo_reached, afterTwo_represents, fun ⟨enough, m', freed, hperm, hrun⟩ => ?_⟩
  have hret : Except.ok (⟨afterTwo, [1]⟩ : Teardown Nat Nat Nat) =
      (Except.ok ⟨m', freed⟩ : Except (Fault Nat) _) := hrun (enough + 1) (Nat.le_succ _)
  have hfreed : [1] = freed := congrArg Teardown.freed (Except.ok.inj hret)
  rw [← hfreed] at hperm
  exact absurd hperm.length_eq (by decide)

end Rbtree

end LockfreeStm
