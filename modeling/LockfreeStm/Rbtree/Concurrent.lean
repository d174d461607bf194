/-
  File:      LockfreeStm/Rbtree/Concurrent.lean
  Subject:   TWO TRANSACTIONS ON ONE SNAPSHOT.

  Both operations run on the same committed tree; the second one commits first, and the first one
  passes its validation. Its commit must then look as if it had run after the other one.

  The search of the first operation is not validated. What pins down its place is the null link it
  sets, or the node it erases: `before_mono` compares the two trees around such a link.

  Main result: **`emplace_emplace`**.
-/
import LockfreeStm.Rbtree.Rerun

namespace LockfreeStm

namespace Rbtree

open Optimistic (Returns)

variable {Ptr Key Value : Type} [DecidableEq Ptr] {compare : Key → Key → Bool}
  {m m₂ : Memory Ptr Key Value} {C C₁ C₂ D : Context Ptr Key Value} {t t₂ : Tree Ptr Key Value}
  {n n₁ n₂ : Ptr} {key key₁ key₂ : Key} {value value₁ value₂ : Value}

/-! ## 1. The same link in two trees -/

section Lists

variable {α : Type} {l₁ l₂ r₁ r₂ : List α} {a b : α}

/-- What stands before `b` in a part of the list stands before it in the list. -/
theorem mem_left_of_sublist (h : (l₁ ++ b :: r₁).Sublist (l₂ ++ b :: r₂))
    (hn : (l₂ ++ b :: r₂).Nodup) (ha : a ∈ l₁) : a ∈ l₂ := by
  have hab : [a, b].Sublist (l₂ ++ b :: r₂) := by
    refine List.Sublist.trans ?_ h
    exact (List.singleton_sublist.mpr ha).append ((List.nil_sublist _).cons_cons b)
  rw [List.nodup_append', List.nodup_cons] at hn
  obtain ⟨x, y, hxy, hx, hy⟩ := List.sublist_append_iff.mp hab
  cases x with
  | nil =>
    obtain rfl : [a, b] = y := hxy
    exact absurd (List.singleton_sublist.mp hy.of_cons_cons) hn.2.1.1
  | cons c x =>
    obtain rfl : a = c := (List.cons.inj hxy).1
    exact hx.subset List.mem_cons_self

theorem mem_right_of_sublist (h : (l₁ ++ b :: r₁).Sublist (l₂ ++ b :: r₂))
    (hn : (l₂ ++ b :: r₂).Nodup) (ha : a ∈ r₁) : a ∈ r₂ := by
  have hba : [b, a].Sublist (l₂ ++ b :: r₂) := by
    refine List.Sublist.trans ?_ h
    exact (List.nil_sublist l₁).append ((List.singleton_sublist.mpr ha).cons_cons b)
  rw [List.nodup_append'] at hn
  obtain ⟨x, y, hxy, hx, hy⟩ := List.sublist_append_iff.mp hba
  cases x with
  | nil =>
    obtain rfl : [b, a] = y := hxy
    exact List.singleton_sublist.mp hy.of_cons_cons
  | cons c x =>
    obtain rfl : b = c := (List.cons.inj hxy).1
    exact (hn.2.2 (hx.subset List.mem_cons_self) List.mem_cons_self).elim

end Lists

/-- The nodes before the hole, and those behind it. -/
def frontPtrs (C : Context Ptr Key Value) : List Ptr := (before C).map fun c => c.1
def backPtrs (C : Context Ptr Key Value) : List Ptr := (behind C).map fun c => c.1

omit [DecidableEq Ptr] in
theorem ptrs_plug_nil (C : Context Ptr Key Value) :
    (plug C (.nil : Tree Ptr Key Value)).ptrs = frontPtrs C ++ backPtrs C := by
  rw [ptrs_plug, Tree.ptrs_nil, List.append_nil]
  rfl

omit [DecidableEq Ptr] in
/-- One null link in two trees, the nodes of one among those of the other in the same order: what
    stands before it, and what stands behind it, stays there. -/
theorem before_mono (hslot : slot C₁ = slot C₂)
    (hsub : (plug C₁ (.nil : Tree Ptr Key Value)).ptrs.Sublist
      (plug C₂ (.nil : Tree Ptr Key Value)).ptrs)
    (hn : (plug C₂ (.nil : Tree Ptr Key Value)).ptrs.Nodup) :
    frontPtrs C₁ ⊆ frontPtrs C₂ ∧ backPtrs C₁ ⊆ backPtrs C₂ := by
  rw [ptrs_plug_nil, ptrs_plug_nil] at hsub
  rw [ptrs_plug_nil] at hn
  cases C₁ with
  | nil => exact ⟨List.nil_subset _, List.nil_subset _⟩
  | cons f₁ D₁ =>
    cases C₂ with
    | nil => cases hslot
    | cons f₂ D₂ =>
      obtain ⟨d, p₁, w₁⟩ := f₁
      obtain ⟨d₂, p₂, w₂⟩ := f₂
      obtain ⟨rfl, hp⟩ := Link.child.inj hslot
      replace hp : p₁.ptr = p₂.ptr := hp
      cases d with
      | left =>
        have hfront : ∀ (p : Node Ptr Key Value) w D, frontPtrs (⟨.left, p, w⟩ :: D) = frontPtrs D :=
          fun _ _ _ => rfl
        have hback : ∀ (p : Node Ptr Key Value) w D, backPtrs (⟨.left, p, w⟩ :: D) =
            p.ptr :: (w.ptrs ++ backPtrs D) := fun p w D => by
          simp [backPtrs, behind, Tree.ptrs]
        rw [hfront, hback, hfront, hback, hp] at hsub
        rw [hfront, hback] at hn
        rw [hfront, hback, hfront, hback, hp]
        exact ⟨fun a ha => mem_left_of_sublist hsub hn ha,
          List.cons_subset_cons _ fun a ha => mem_right_of_sublist hsub hn ha⟩
      | right =>
        have hfront : ∀ (p : Node Ptr Key Value) w D, frontPtrs (⟨.right, p, w⟩ :: D) =
            (frontPtrs D ++ w.ptrs) ++ [p.ptr] := fun p w D => by
          simp [frontPtrs, before, Tree.ptrs]
        have hback : ∀ (p : Node Ptr Key Value) w D, backPtrs (⟨.right, p, w⟩ :: D) = backPtrs D :=
          fun _ _ _ => rfl
        rw [hfront, hback, hfront, hback, hp, ← List.append_cons, ← List.append_cons] at hsub
        rw [hfront, hback, ← List.append_cons] at hn
        rw [hfront, hback, hfront, hback, hp]
        refine ⟨fun a ha => ?_, fun a ha => mem_right_of_sublist hsub hn ha⟩
        rw [List.mem_append] at ha ⊢
        exact ha.imp_left fun ha => mem_left_of_sublist hsub hn ha

/-! ## 2. Gaps, by the keys in memory -/

omit [DecidableEq Ptr] in
theorem Represents.key_of_mem (h : Represents m t) {x : Ptr × Key × Value} (hx : x ∈ t.cells) :
    m (.key x.1) = x.2.1 ∧ m (.value x.1) = x.2.2 := by
  obtain ⟨C, q, l, r, rfl, rfl⟩ := exists_hole hx
  exact ⟨h.at_hole.2.1.key, h.at_hole.2.1.value⟩

omit [DecidableEq Ptr] in
theorem gap_iff (h : Represents m (plug C .nil)) : Gap compare key C ↔
    (∀ q ∈ frontPtrs C, compare key (m (.key q)) = false) ∧
      ∀ q ∈ backPtrs C, compare key (m (.key q)) = true := by
  have hkey : ∀ x, x ∈ before C ∨ x ∈ behind C → m (.key x.1) = x.2.1 := fun x hx =>
    (h.key_of_mem (by rwa [cells_plug_nil, List.mem_append])).1
  constructor
  · intro hg
    refine ⟨fun q hq => ?_, fun q hq => ?_⟩
    · obtain ⟨x, hx, rfl⟩ := List.mem_map.mp hq
      rw [hkey x (.inl hx)]
      exact hg.before x hx
    · obtain ⟨x, hx, rfl⟩ := List.mem_map.mp hq
      rw [hkey x (.inr hx)]
      exact hg.behind x hx
  · rintro ⟨hf, hb⟩
    refine ⟨fun x hx => ?_, fun x hx => ?_⟩
    · rw [← hkey x (.inl hx)]
      exact hf _ (List.mem_map_of_mem hx)
    · rw [← hkey x (.inr hx)]
      exact hb _ (List.mem_map_of_mem hx)

/-- A key has one gap. -/
theorem Gap.slot_unique (hg₁ : Gap compare key C₁) (hg₂ : Gap compare key C₂)
    (h : plug C₁ (.nil : Tree Ptr Key Value) = plug C₂ .nil) (hm : Represents m (plug C₁ .nil)) :
    slot C₁ = slot C₂ := by
  have hrun := fun (C : Context Ptr Key Value) (hg : Gap compare key C)
      (hm : Represents m (plug C .nil)) =>
    run_descend (C := C) (D := []) (by rwa [List.append_nil]) (by rwa [List.append_nil])
  obtain ⟨us₁, h₁⟩ := hrun C₁ hg₁ hm
  obtain ⟨us₂, h₂⟩ := hrun C₂ hg₂ (h ▸ hm)
  have e := (h₁ (.start m) (C₁.length + C₂.length + 1) rfl (by omega)).symm.trans
    (h₂ (.start m) (C₁.length + C₂.length + 1) rfl (by omega))
  simpa using congrArg (fun r => r.1.2) (Except.ok.inj e)

omit [DecidableEq Ptr] in
/-- A null link of a node of the tree is a hole. -/
theorem Represents.exists_null_hole (h : Represents m t) {l : Link Ptr} (hl : m (.link l) = none)
    (ho : Inside (fun p => p ∈ t.ptrs) (Var.link l).owner) :
    ∃ C, t = plug C .nil ∧ slot C = l := by
  cases l with
  | root =>
    obtain rfl := Tree.eq_nil_of_root (h.root.symm.trans hl)
    exact ⟨[], rfl, rfl⟩
  | child d p =>
    obtain ⟨C, q, a, b, rfl, rfl⟩ := exists_hole_of_mem (ho p rfl)
    obtain ⟨-, ha, hb, -⟩ := h.at_hole.2
    cases d with
    | left =>
      obtain rfl := Tree.eq_nil_of_root (ha.symm.trans hl)
      exact ⟨⟨.left, q, b⟩ :: C, rfl, rfl⟩
    | right =>
      obtain rfl := Tree.eq_nil_of_root (hb.symm.trans hl)
      exact ⟨⟨.right, q, a⟩ :: C, rfl, rfl⟩

/-! ## 3. Two insertions -/

/-- A gap is still one after another key has gone into a gap of its own. -/
theorem gap_after_emplace (ho : StrictWeak compare) (h : Represents m (plug C .nil))
    (hg : Gap compare key₁ C) (hD : plug C (.nil : Tree Ptr Key Value) = plug D .nil)
    (hgD : Gap compare key₂ D) (hslot : slot C ≠ slot D) (h₂ : Represents m₂ (plug C₂ .nil))
    (hc : (plug C₂ (.nil : Tree Ptr Key Value)).cells =
      before D ++ (n₂, key₂, value₂) :: behind D) (hslot₂ : slot C₂ = slot C) :
    Gap compare key₁ C₂ := by
  have hptrs : (plug C (.nil : Tree Ptr Key Value)).ptrs = frontPtrs D ++ backPtrs D :=
    hD ▸ ptrs_plug_nil D
  have hptrs₂ : (plug C₂ (.nil : Tree Ptr Key Value)).ptrs = frontPtrs D ++ n₂ :: backPtrs D := by
    simp [Tree.ptrs, hc, frontPtrs, backPtrs]
  have hsub : (plug C (.nil : Tree Ptr Key Value)).ptrs.Sublist
      (plug C₂ (.nil : Tree Ptr Key Value)).ptrs := by
    rw [hptrs, hptrs₂]
    exact (List.sublist_cons_self ..).append_left _
  obtain ⟨hfront, hback⟩ := before_mono hslot₂.symm hsub h₂.nodup
  have hnd : (frontPtrs C₂ ++ backPtrs C₂).Nodup := ptrs_plug_nil C₂ ▸ h₂.nodup
  have hnew : ∀ q ∈ (plug C₂ (.nil : Tree Ptr Key Value)).ptrs,
      q = n₂ ∨ q ∈ frontPtrs C ∨ q ∈ backPtrs C := by
    intro q hq
    rw [← List.mem_append, ← ptrs_plug_nil, hptrs]
    rw [hptrs₂] at hq
    simpa [or_left_comm] using hq
  -- the keys in memory
  have hcell : ∀ x ∈ before D ++ behind D, m₂ (.key x.1) = m (.key x.1) := by
    intro x hx
    have hx₂ : x ∈ (plug C₂ (.nil : Tree Ptr Key Value)).cells := by
      rw [hc]
      exact ((List.sublist_cons_self ..).append_left _).subset hx
    rw [(h₂.key_of_mem hx₂).1, (h.key_of_mem (by rwa [hD, cells_plug_nil])).1]
  have hkey : ∀ q ∈ frontPtrs C ++ backPtrs C, m₂ (.key q) = m (.key q) := by
    intro q hq
    rw [← ptrs_plug_nil, hptrs, frontPtrs, backPtrs, ← List.map_append] at hq
    obtain ⟨x, hx, rfl⟩ := List.mem_map.mp hq
    exact hcell x hx
  have hkey₂ : m₂ (.key n₂) = key₂ := (h₂.key_of_mem (x := (n₂, key₂, value₂)) (by simp [hc])).1
  -- the other key does not belong here
  have hnot : ¬ Gap compare key₂ C := fun hgap => hslot (hgap.slot_unique hgD hD h)
  rw [gap_iff h] at hg hnot
  rw [gap_iff (hD ▸ h)] at hgD
  refine (gap_iff h₂).mpr ⟨fun q hq => ?_, fun q hq => ?_⟩
  · have hqm : q ∈ (plug C₂ (.nil : Tree Ptr Key Value)).ptrs := by
      rw [ptrs_plug_nil]
      exact List.mem_append_left _ hq
    rcases hnew q hqm with rfl | hqf | hqb
    · rw [hkey₂]
      by_contra hlt
      rw [Bool.not_eq_false] at hlt
      refine hnot ⟨fun p hp => ?_, fun p hp => hgD.2 p ?_⟩
      · by_contra hgt
        rw [Bool.not_eq_false] at hgt
        exact absurd ((ho.lt_trans hlt hgt).symm.trans (hg.1 p hp)) (by decide)
      · have hqp : [q, p].Sublist (frontPtrs D ++ q :: backPtrs D) := by
          rw [← hptrs₂, ptrs_plug_nil]
          exact (List.singleton_sublist.mpr hq).append (List.singleton_sublist.mpr (hback hp))
        exact mem_right_of_sublist (List.nil_append [q, p] ▸ hqp) (hptrs₂ ▸ h₂.nodup)
          (List.mem_singleton_self p)
    · rw [hkey q (List.mem_append_left _ hqf)]
      exact hg.1 q hqf
    · exact absurd (hback hqb) (List.disjoint_of_nodup_append hnd hq)
  · have hqm : q ∈ (plug C₂ (.nil : Tree Ptr Key Value)).ptrs := by
      rw [ptrs_plug_nil]
      exact List.mem_append_right _ hq
    rcases hnew q hqm with rfl | hqf | hqb
    · rw [hkey₂]
      by_contra hlt
      rw [Bool.not_eq_true] at hlt
      refine hnot ⟨fun p hp => hgD.1 p ?_, fun p hp => ho.lt_of_le_of_lt hlt (hg.2 p hp)⟩
      have hpq : ([p] ++ q :: []).Sublist (frontPtrs D ++ q :: backPtrs D) := by
        rw [← hptrs₂, ptrs_plug_nil]
        exact (List.singleton_sublist.mpr (hfront hp)).append (List.singleton_sublist.mpr hq)
      exact mem_left_of_sublist hpq (hptrs₂ ▸ h₂.nodup) (List.mem_singleton_self p)
    · exact absurd (hfront hqf) fun e => List.disjoint_of_nodup_append hnd e hq
    · rw [hkey q (List.mem_append_right _ hqb)]
      exact hg.2 q hqb

/-- **Two insertions that both commit compose as if serial.** What `emplace` of `key₁` commits after
    that of `key₂`, both having run on the same tree, is exactly what it would do afresh. -/
theorem emplace_emplace (ho : StrictWeak compare) (h : Valid compare m t) (hn₁ : n₁ ∉ t.ptrs)
    (hn₂ : n₂ ∉ t.ptrs) (hne : n₁ ≠ n₂) {s₁ s₂ : Attempt Ptr Key Value}
    (h₁ : Returns (fun fuel => emplace compare fuel n₁ key₁ value₁) m () s₁)
    (h₂ : Returns (fun fuel => emplace compare fuel n₂ key₂ value₂) m () s₂)
    (hv : s₁.Validates s₂.writes) :
    ∃ s, Returns (fun fuel => emplace compare fuel n₁ key₁ value₁) (s₂.commit m) () s ∧
      s.view = s₁.commit (s₂.commit m) := by
  obtain ⟨s₂', t₂, D, h₂', hval₂, -, rfl, hgD, hc⟩ := emplace_spec ho h hn₂ key₂ value₂
  obtain ⟨-, rfl⟩ := h₂.unique h₂'
  obtain ⟨C, hctx, hg⟩ := exists_gap (C := []) ho h.sorted (⟨nofun, nofun⟩ : Gap compare key₁ [])
  replace hctx : plug C (.nil : Tree Ptr Key Value) = plug D .nil := hctx
  have hrep : Represents m (plug C .nil) := hctx ▸ h.represents
  rw [← hctx] at hn₁
  -- the second insertion has set another link
  obtain ⟨-, hw₁⟩ := emplace_tracks hrep hn₁ hg h₁
  obtain ⟨-, hw₂⟩ := emplace_tracks h.represents hn₂ hgD h₂
  have hslot : slot C ≠ slot D := fun e => (hv _ hw₂).2 (e ▸ hw₁)
  obtain ⟨-, hpriv₂⟩ := emplace_footprint h.represents hn₂ hgD h₂
  have hsame : ∀ v, v ∉ s₂.writes → v.owner ≠ some n₂ → s₂.commit m v = m v := fun v hw ho =>
    Optimistic.Attempt.commit_of_notMem hw fun hp => ho (hpriv₂ v hp)
  rw [← h₂.commit_self] at hval₂
  have hmem₂ : ∀ q, q ∈ t₂.ptrs ↔ q = n₂ ∨ q ∈ (plug D (.nil : Tree Ptr Key Value)).ptrs := by
    intro q
    rw [Tree.ptrs, hc, ptrs_plug_nil]
    simp [frontPtrs, backPtrs, or_left_comm]
  have hin : Inside (fun p => p ∈ (plug D (.nil : Tree Ptr Key Value)).ptrs) (top C) :=
    hctx ▸ top_inside
  have hnull : s₂.commit m (.link (slot C)) = none := by
    rw [hsame _ (fun e => (hv _ e).2 hw₁) ?_]
    · exact hrep.at_hole.1
    · rw [slot_owner_eq_top]
      exact fun e => hn₂ (hin n₂ e)
  obtain ⟨C₂, rfl, hslot₂⟩ := hval₂.represents.exists_null_hole hnull
    (by rw [slot_owner_eq_top]; exact fun p hp => (hmem₂ p).mpr (.inr (hin p hp)))
  have hg₂ := gap_after_emplace ho hrep hg hctx hgD hslot hval₂.represents hc hslot₂
  obtain ⟨hread₁, -⟩ := emplace_footprint hrep hn₁ hg h₁
  have hread : ∀ v ∈ s₁.reads, v.owner = some n₁ ∨ s₂.commit m v = m v := by
    intro v hvr
    by_cases hown : v.owner = some n₁
    · exact .inl hown
    · refine .inr (hsame v (fun e => (hv v e).1 hvr) fun e => ?_)
      exact (hread₁ v hvr n₂ e).elim (fun e => hne e.symm) fun hm => hn₂ (hctx ▸ hm)
  obtain ⟨us, hret⟩ := emplace_moved hrep hn₁ hg h₁ hval₂.represents
    (fun e => ((hmem₂ _).mp e).elim hne (hctx ▸ hn₁)) hg₂ hslot₂ hread
  exact ⟨_, hret, rfl⟩

/-- One key goes below the left child of the root, the other one below the right child. -/
theorem emplace_emplace_sides :
    ∃ s, Returns (fun fuel => emplace less fuel 1 1 10)
        (((emplace less 9 7 7 70).outcome (memoryOf threeNodes)).commit (memoryOf threeNodes)) () s ∧
      s.view = ((emplace less 9 1 1 10).outcome (memoryOf threeNodes)).commit
        (((emplace less 9 7 7 70).outcome (memoryOf threeNodes)).commit (memoryOf threeNodes)) := by
  refine emplace_emplace less_strictWeak threeNodes_valid (by decide) (by decide) (by decide)
    ⟨9, fun fuel hf => ?_⟩ (⟨9, fun fuel hf => ?_⟩ :
      Returns (fun fuel => emplace less fuel 7 7 70) (memoryOf threeNodes) () _) (by decide)
  · obtain ⟨f, rfl⟩ := Nat.exists_eq_add_of_le' hf
    rfl
  · obtain ⟨f, rfl⟩ := Nat.exists_eq_add_of_le' hf
    rfl

end Rbtree

end LockfreeStm
