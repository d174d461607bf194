/-
  File:      LockfreeStm/Rbtree/Rerun.lean
  Subject:   THE SAME OPERATION ON A NEWER TREE.

  After its search an operation depends on its tracked reads only. So if another transaction has
  committed since and these have not changed, what the operation commits is what it would do now,
  provided that its search would now end at the same place.
-/
import LockfreeStm.Rbtree.Emplace
import LockfreeStm.Rbtree.Footprint

namespace LockfreeStm

namespace Rbtree

open Optimistic (Returns)

variable {Ptr Key Value : Type} [DecidableEq Ptr] {compare : Key → Key → Bool}
  {s : Attempt Ptr Key Value} {m m₂ : Memory Ptr Key Value} {C C₂ : Context Ptr Key Value}
  {t : Tree Ptr Key Value} {n : Ptr} {key : Key} {value : Value}

/-! ## 1. Trees are closed -/

omit [DecidableEq Ptr] in
/-- The pointers stored in the nodes of a tree lead to its nodes. -/
theorem Represents.closed (h : Represents m t) (own : Option Ptr) {v : Var Ptr}
    (hv : (region (fun p => p ∈ t.ptrs) own :
      Optimistic.Region (Content Ptr Key Value)).vars v) :
    (region (fun p => p ∈ t.ptrs) own).closed v (m v) := by
  cases v with
  | link l =>
    cases l with
    | root =>
      show Inside _ (m .root)
      rw [h.root]
      exact root_inside
    | child d p =>
      obtain ⟨C, q, l, r, rfl, rfl⟩ := exists_hole_of_mem (hv p rfl)
      obtain ⟨-, hl, hr, -⟩ := h.at_hole.2
      have hmem : ∀ p, p ∈ l.ptrs ∨ p ∈ r.ptrs → p ∈ (plug C (.node q l r)).ptrs := fun p hp =>
        mem_ptrs_plug ((Tree.mem_ptrs_join .left q l r).mpr (.inr hp))
      cases d with
      | left => exact fun p hp => hmem p (.inl (root_inside p (hl.symm.trans hp)))
      | right => exact fun p hp => hmem p (.inr (root_inside p (hr.symm.trans hp)))
  | parent p =>
    obtain ⟨C, q, l, r, rfl, rfl⟩ := exists_hole_of_mem (hv p rfl)
    show Inside _ (m (.parent q.ptr))
    rw [h.at_hole.2.1.parent]
    exact top_inside
  | color p => trivial
  | key p => trivial
  | value p => trivial

/-- So they do with a new node beside the tree. -/
theorem constructed_closed (h : Represents s.view t) (hn : n ∉ t.ptrs) (own : Option Ptr)
    {v : Var Ptr}
    (hv : (region (fun p => p = n ∨ p ∈ t.ptrs) own :
      Optimistic.Region (Content Ptr Key Value)).vars v) :
    (region (fun p => p = n ∨ p ∈ t.ptrs) own).closed v ((constructed s n key value).view v) := by
  by_cases hvn : v.owner = some n
  · have hnew : IsNew (constructed s n key value).view n key value := constructed_isNew
    cases v with
    | link l =>
      cases l with
      | root => cases hvn
      | child d p =>
        obtain rfl : p = n := Option.some.inj hvn
        show Inside _ ((constructed s p key value).view (.child d p))
        cases d with
        | left => exact hnew.left ▸ inside_none
        | right => exact hnew.right ▸ inside_none
    | parent p =>
      obtain rfl : p = n := Option.some.inj hvn
      show Inside _ ((constructed s p key value).view (.parent p))
      simp [constructed]
    | color p => trivial
    | key p => trivial
    | value p => trivial
  · have hrep : Represents (constructed s n key value).view t := constructed_represents h hn
    have hc := hrep.closed own (v := v) fun p hp => (hv p hp).resolve_left fun e => hvn (e ▸ hp)
    have hmono : ∀ {o : Option Ptr}, Inside (fun p => p ∈ t.ptrs) o →
        Inside (fun p => p = n ∨ p ∈ t.ptrs) o := fun ho p hp => .inr (ho p hp)
    cases v with
    | link l => exact hmono hc
    | parent p => exact hmono hc
    | color p => trivial
    | key p => trivial
    | value p => trivial

/-! ## 2. `emplace` -/

theorem owner_of_mem_constructed {v : Var Ptr}
    (hv : v ∈ (constructed (.start m) n key value : Attempt Ptr Key Value).privates) :
    v.owner = some n := by
  simp only [constructed, Optimistic.Attempt.store_privates, Optimistic.Attempt.start_privates,
    List.mem_cons, List.not_mem_nil, or_false] at hv
  rcases hv with rfl | rfl | rfl | rfl | rfl | rfl <;> rfl

theorem mem_constructed {v : Var Ptr} (hv : v.owner = some n) :
    v ∈ (constructed (.start m) n key value : Attempt Ptr Key Value).privates := by
  cases v with
  | link l =>
    cases l with
    | root => cases hv
    | child d p =>
      obtain rfl : p = n := Option.some.inj hv
      cases d <;> simp [constructed]
  | parent p => simp [constructed, Option.some.inj hv]
  | color p => simp [constructed, Option.some.inj hv]
  | key p => simp [constructed, Option.some.inj hv]
  | value p => simp [constructed, Option.some.inj hv]

/-- The node is constructed in the same way on every memory. -/
theorem constructed_moved (us us₂ : List (Var Ptr)) :
    ((constructed (.start m) n key value).readAllUntracked us).moved m₂ us₂ =
      (constructed (.start m₂) n key value).readAllUntracked us₂ := by
  refine Optimistic.Attempt.moved_eq (s := constructed (.start m) n key value) ?_ rfl
  simp only [constructed, ← Optimistic.Attempt.rebase_store, Optimistic.Attempt.start_rebase]

section Emplace

variable (h : Represents m (plug C .nil)) (hn : n ∉ (plug C (.nil : Tree Ptr Key Value)).ptrs)
  (hg : Gap compare key C)
  (hs : Returns (fun fuel => emplace compare fuel n key value) m () s)
include h hn hg hs

/-- An `emplace` that ends is the search and `pushAt`, which stays among the nodes of the tree and
    the new one. -/
theorem emplace_stays : ∃ us enough, C.length < enough ∧
    (∀ fuel, enough ≤ fuel → (pushAt fuel n (top C) (slot C)).run
        ((constructed (.start m) n key value).readAllUntracked us) = .ok ((), s)) ∧
      (region (fun p => p = n ∨ p ∈ (plug C (.nil : Tree Ptr Key Value)).ptrs) (some n)).Stays
        ((constructed (.start m) n key value).readAllUntracked us) s := by
  obtain ⟨us, hrun⟩ := run_emplace h hn hg value
  obtain ⟨enough, hs⟩ := hs
  have hpush : ∀ fuel, max (C.length + 1) enough ≤ fuel → (pushAt fuel n (top C) (slot C)).run
        ((constructed (.start m) n key value).readAllUntracked us) = .ok ((), s) := fun fuel hf =>
    (hrun fuel (Nat.lt_of_succ_le (Nat.le_trans (Nat.le_max_left ..) hf))).symm.trans
      (hs fuel (Nat.le_trans (Nat.le_max_right ..) hf))
  have htop : Inside (fun p => p = n ∨ p ∈ (plug C (.nil : Tree Ptr Key Value)).ptrs) (top C) :=
    fun p hp => .inr (top_inside p hp)
  have hconf : Confined _ (some n)
      (pushAt (max (C.length + 1) enough) n (top C) (slot C) : Program Ptr Key Value _) _ :=
    confined_pushAt (.inl rfl) htop (by rw [slot_owner_eq_top]; exact htop)
  refine ⟨us, max (C.length + 1) enough, Nat.le_max_left .., hpush, ?_⟩
  refine (Optimistic.Region.Within.run hconf ?_ (hpush _ (Nat.le_refl _))).1
  exact fun v hv => constructed_closed (s := .start m) h hn (some n) hv

/-- `emplace` reads vars of the tree and of the new node, and stores directly into the latter. -/
theorem emplace_footprint :
    (∀ v ∈ s.reads, ∀ p, v.owner = some p → p = n ∨ p ∈ (plug C (.nil : Tree Ptr Key Value)).ptrs) ∧
      ∀ v ∈ s.privates, v.owner = some n := by
  obtain ⟨us, -, -, -, hstays⟩ := emplace_stays h hn hg hs
  refine ⟨fun v hv => (hstays.reads v hv).resolve_left List.not_mem_nil, fun v hv => ?_⟩
  exact (hstays.privates v hv).elim owner_of_mem_constructed fun e => e.2

/-- What it writes is of the tree and of the new node. -/
theorem emplace_written : ∀ v ∈ s.writes ++ s.privates, ∀ p, v.owner = some p →
    p = n ∨ p ∈ (plug C (.nil : Tree Ptr Key Value)).ptrs := by
  obtain ⟨us, -, -, -, hstays⟩ := emplace_stays h hn hg hs
  intro v hv p hp
  rcases List.mem_append.mp hv with hv | hv
  · exact (hstays.writes v hv).resolve_left List.not_mem_nil p hp
  · have hown := (emplace_footprint h hn hg hs).2 v hv
    exact .inl (Option.some.inj (hp.symm.trans hown))

/-- It reads the root and sets the null link it has found. -/
theorem emplace_tracks : .root ∈ s.reads ∧ .link (slot C) ∈ s.writes := by
  obtain ⟨us, enough, -, hpush, -⟩ := emplace_stays h hn hg hs
  obtain ⟨rs, hrun⟩ := run_pushAt
    ((constructed (.start m) n key value).readAllUntracked us) n C
  have hgrow := Optimistic.Program.run_grows ((hrun enough).symm.trans (hpush enough (Nat.le_refl _)))
  refine ⟨hgrow.reads ?_, hgrow.writes List.mem_cons_self⟩
  simp [linked]

/-- **`emplace` on a newer tree**, whose gap for the key is at the same link. -/
theorem emplace_moved (h₂ : Represents m₂ (plug C₂ .nil))
    (hn₂ : n ∉ (plug C₂ (.nil : Tree Ptr Key Value)).ptrs) (hg₂ : Gap compare key C₂)
    (hslot : slot C₂ = slot C) (hread : ∀ v ∈ s.reads, v.owner = some n ∨ m₂ v = m v) :
    ∃ us, Returns (fun fuel => emplace compare fuel n key value) m₂ () (s.moved m₂ us) := by
  obtain ⟨us, enough, hlen, hpush, -⟩ := emplace_stays h hn hg hs
  obtain ⟨us₂, hrun⟩ := run_emplace h₂ hn₂ hg₂ value
  have htop : top C₂ = top C := by rw [← slot_owner_eq_top, hslot, slot_owner_eq_top]
  have hin : Inside (fun p => p = n ∨ p ∈ (plug C (.nil : Tree Ptr Key Value)).ptrs) (top C) :=
    fun p hp => .inr (top_inside p hp)
  have hnew : (constructed (.start m) n key value : Attempt Ptr Key Value).Over m :=
    Optimistic.Program.attempt_over (p := construct n key value) run_construct
  have hover : ((constructed (.start m) n key value).readAllUntracked us).Over m := hnew
  refine ⟨us₂, max (C₂.length + 1) enough, fun fuel hf => ?_⟩
  have hfuel := hpush fuel (Nat.le_trans (Nat.le_max_right ..) hf)
  rw [hrun fuel (Nat.lt_of_succ_le (Nat.le_trans (Nat.le_max_left ..) hf)), htop, hslot,
    ← constructed_moved (m := m) us us₂]
  have hconf : Confined _ (some n) (pushAt fuel n (top C) (slot C) : Program Ptr Key Value _) _ :=
    confined_pushAt (.inl rfl) hin (by rw [slot_owner_eq_top]; exact hin)
  refine Optimistic.Region.Within.run_moved hconf ?_ hfuel hover (fun v hv => ?_) us₂
  · exact fun v hv => constructed_closed (s := .start m) h hn (some n) hv
  · exact (hread v hv).imp_left mem_constructed

end Emplace

/-! ## 3. `erase_impl` -/

section EraseImpl

variable {e : Ptr} {fuel : Nat} {us : List (Var Ptr)} (h : Represents m t) (he : e ∈ t.ptrs)
  (hs : (eraseImpl fuel e).run ((Optimistic.Attempt.start m).readAllUntracked us) = .ok ((), s))
include h he hs

/-- `erase_impl` reads vars of the tree, and stores into none directly. -/
theorem eraseImpl_footprint :
    (∀ v ∈ s.reads, ∀ p, v.owner = some p → p ∈ t.ptrs) ∧ ∀ v, v ∉ s.privates := by
  have hconf : Confined (fun p => p ∈ t.ptrs) none (eraseImpl fuel e : Program Ptr Key Value _) _ :=
    confined_eraseImpl fuel he
  have hstays := (Optimistic.Region.Within.run hconf (fun v hv => h.closed none hv) hs).1
  refine ⟨fun v hv => (hstays.reads v hv).resolve_left List.not_mem_nil, fun v hv => ?_⟩
  exact (hstays.privates v hv).elim List.not_mem_nil fun hown => hown.1 hown.2

/-- What it writes is of the tree. -/
theorem eraseImpl_written : ∀ v ∈ s.writes, ∀ p, v.owner = some p → p ∈ t.ptrs := by
  have hconf : Confined (fun p => p ∈ t.ptrs) none (eraseImpl fuel e : Program Ptr Key Value _) _ :=
    confined_eraseImpl fuel he
  have hstays := (Optimistic.Region.Within.run hconf (fun v hv => h.closed none hv) hs).1
  exact fun v hv => (hstays.writes v hv).resolve_left List.not_mem_nil

/-- **`erase_impl` of the same node of a newer tree.** -/
theorem eraseImpl_moved (hread : ∀ v ∈ s.reads, m₂ v = m v) (us₂ : List (Var Ptr)) :
    (eraseImpl fuel e).run ((Optimistic.Attempt.start m₂).readAllUntracked us₂) =
      .ok ((), s.moved m₂ us₂) := by
  have hconf : Confined (fun p => p ∈ t.ptrs) none (eraseImpl fuel e : Program Ptr Key Value _) _ :=
    confined_eraseImpl fuel he
  have hstart : (Optimistic.Attempt.start m : Attempt Ptr Key Value).Over m :=
    Optimistic.Attempt.start_over m
  have hover : ((Optimistic.Attempt.start m).readAllUntracked us : Attempt Ptr Key Value).Over m :=
    hstart
  have hmoved : ((Optimistic.Attempt.start m).readAllUntracked us : Attempt Ptr Key Value).moved m₂
      us₂ = (Optimistic.Attempt.start m₂).readAllUntracked us₂ :=
    Optimistic.Attempt.moved_eq (s := Optimistic.Attempt.start m) Optimistic.Attempt.start_rebase rfl
  rw [← hmoved]
  exact Optimistic.Region.Within.run_moved hconf (fun v hv => h.closed none hv) hs hover
    (fun v hv => .inr (hread v hv)) us₂

end EraseImpl

end Rbtree

end LockfreeStm
