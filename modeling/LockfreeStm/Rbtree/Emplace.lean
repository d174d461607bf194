/-
  File:      LockfreeStm/Rbtree/Emplace.lean
  Subject:   `emplace` IS CORRECT.

  The loop of `push_impl` ends at the null link with every key before it not greater and every key
  behind it greater than the new one (`run_descend`). The new red node goes there, and the fix-up
  makes the tree balanced again.

  Main result: **`emplace_correct`**.
-/
import LockfreeStm.Rbtree.Insert
import LockfreeStm.Rbtree.Valid
import Mathlib.Data.List.Induction

namespace LockfreeStm

namespace Rbtree

variable {Ptr Key Value : Type} [DecidableEq Ptr] {compare : Key → Key → Bool}
  {s : Attempt Ptr Key Value} {m : Memory Ptr Key Value} {C : Context Ptr Key Value}
  {t : Tree Ptr Key Value} {n : Ptr} {key : Key} {value : Value}

/-! ## 1. The descent -/

/-- The null link where the key goes: what stands before it is not greater, what stands behind it
    is. -/
structure Gap (compare : Key → Key → Bool) (key : Key) (C : Context Ptr Key Value) : Prop where
  before : ∀ c ∈ before C, compare key c.2.1 = false
  behind : ∀ c ∈ behind C, compare key c.2.1 = true

omit [DecidableEq Ptr] in
theorem Tree.Sorted.at_hole (h : (plug C t).Sorted compare) : t.Sorted compare := by
  rw [Tree.Sorted, cells_plug] at h
  exact (List.pairwise_append.mp (List.pairwise_append.mp h).1).2.1

omit [DecidableEq Ptr] in
/-- Every key has a gap. -/
theorem exists_gap (ho : StrictWeak compare) (hs : (plug C t).Sorted compare)
    (hg : Gap compare key C) : ∃ C', plug C' .nil = plug C t ∧ Gap compare key C' := by
  induction t generalizing C with
  | nil => exact ⟨C, rfl, hg⟩
  | node q l r ihl ihr =>
    have hsq := hs.at_hole
    simp only [Tree.Sorted, Tree.cells, List.pairwise_append, List.pairwise_cons,
      List.mem_cons] at hsq
    obtain ⟨-, ⟨hqr, -⟩, hlq⟩ := hsq
    by_cases hc : compare key q.key = true
    · -- smaller than the node, so than everything behind it
      refine ihl (C := ⟨.left, q, r⟩ :: C) hs ⟨hg.before, fun c hcm => ?_⟩
      simp only [behind, List.cons_append, List.mem_cons, List.mem_append] at hcm
      rcases hcm with rfl | hcr | hcb
      · exact hc
      · exact ho.lt_of_lt_of_le hc (hqr c hcr)
      · exact hg.behind c hcb
    · -- not smaller than the node, nor than anything before it
      rw [Bool.not_eq_true] at hc
      refine ihr (C := ⟨.right, q, l⟩ :: C) hs ⟨fun c hcm => ?_, hg.behind⟩
      simp only [before, List.mem_append, List.mem_singleton] at hcm
      rcases hcm with (hcb | hcl) | rfl
      · exact hg.before c hcb
      · exact ho.le_trans (hlq c hcl _ (.inl rfl)) hc
      · exact hc

/-- One round of the loop. -/
theorem run_descend_succ {q : Ptr} {parent : Option Ptr} {cur : Link Ptr} {fuel : Nat}
    (hl : s.view (.link cur) = some q) :
    (descend compare key (fuel + 1) parent cur).run s =
      (descend compare key fuel (some q)
        (if compare key (s.view (.key q)) then .child .left q else .child .right q)).run
        (s.readAllUntracked [.key q, .link cur]) := by
  simp only [descend, run_untrackedLink_bind, hl, run_untrackedKey_bind,
    Optimistic.Attempt.readUntracked_view]
  rfl

omit [DecidableEq Ptr] in
/-- The key is smaller than the nodes the path leaves to the left, and than no other. -/
theorem Gap.compare_frame {D : Context Ptr Key Value} {f : Frame Ptr Key Value}
    (hg : Gap compare key (C ++ f :: D)) : compare key f.node.key = true ↔ f.side = .left := by
  cases hs : f.side with
  | left =>
    refine iff_of_true (hg.behind (f.node.ptr, f.node.key, f.node.value) ?_) rfl
    simp [behind_append, Rbtree.behind, hs]
  | right =>
    refine iff_of_false (fun e => ?_) (by decide)
    have := hg.before (f.node.ptr, f.node.key, f.node.value) (by simp [before_append, Rbtree.before, hs])
    exact absurd (e.symm.trans this) (by decide)

/-- The loop of `push_impl` goes to the gap of the key. -/
theorem run_descend {D : Context Ptr Key Value} (h : Represents m (plug (C ++ D) .nil))
    (hg : Gap compare key (C ++ D)) :
    ∃ us, ∀ (s : Attempt Ptr Key Value) fuel, s.view = m → C.length < fuel →
      (descend compare key fuel (top D) (slot D)).run s =
        .ok ((top (C ++ D), slot (C ++ D)), s.readAllUntracked us) := by
  induction C using List.reverseRecOn generalizing D with
  | nil =>
    refine ⟨[.link (slot D)], fun s fuel hv hf => ?_⟩
    cases fuel with
    | zero => omega
    | succ fuel =>
      simp only [descend, run_untrackedLink_bind, hv, (Represents.at_hole (C := D) h).1]
      rfl
  | append_singleton C f ih =>
    rw [List.append_assoc, List.singleton_append] at h hg ⊢
    obtain ⟨us, hrun⟩ := ih h hg
    have hf : Represents m (plug D (f.fill (plug C .nil))) := by
      rw [plug_append] at h
      exact h
    have hlink : m (.link (slot D)) = some f.node.ptr := hf.at_hole.1.trans (Tree.root_join ..)
    have hkey : m (.key f.node.ptr) = f.node.key := (Represents.frame hf).1.key
    refine ⟨us ++ [.key f.node.ptr, .link (slot D)], fun s fuel hv hfuel => ?_⟩
    rw [List.length_append, List.length_singleton] at hfuel
    cases fuel with
    | zero => omega
    | succ fuel =>
      have hside : (if compare key f.node.key = true then Link.child .left f.node.ptr
          else .child .right f.node.ptr) = slot (f :: D) := by
        have hc := hg.compare_frame
        cases hs : f.side with
        | left => rw [if_pos (hc.mpr hs), slot, hs]
        | right => rw [if_neg (fun e => absurd ((hc.mp e).symm.trans hs) (by decide)), slot, hs]
      rw [run_descend_succ (by rw [hv, hlink]), hv, hkey, hside]
      refine (hrun (s.readAllUntracked [.key f.node.ptr, .link (slot D)]) fuel hv (by omega)).trans ?_
      rw [Optimistic.Attempt.readAllUntracked_readAllUntracked]

/-! ## 2. The new node -/

/-- A private var of a node outside the tree. -/
theorem Represents.update_outside {v : Var Ptr} {x : Content Ptr Key Value v}
    (h : Represents m t) (hv : v.owner = some n) (hn : n ∉ t.ptrs) :
    Represents (Function.update m v x) t where
  root := by
    rw [Function.update_of_ne (fun e => ?_), h.root]
    rw [← e] at hv
    cases hv
  holds := (holds_update_of_owner hv hn).mpr h.holds
  nodup := h.nodup

/-- A node outside the tree, constructed. -/
def constructed (s : Attempt Ptr Key Value) (n : Ptr) (key : Key) (value : Value) :
    Attempt Ptr Key Value :=
  (((((s.store (.key n) key).store (.value n) value).store (.parent n) none).store (.child .left n)
    none).store (.child .right n) none).store (.color n) .red

theorem run_construct : (construct n key value).run s = .ok ((), constructed s n key value) := rfl

/-- The vars of a node that its constructor has set, but for the parent. -/
structure IsNew (m : Memory Ptr Key Value) (n : Ptr) (key : Key) (value : Value) : Prop where
  key : m (.key n) = key
  value : m (.value n) = value
  left : m (.child .left n) = none
  right : m (.child .right n) = none
  color : m (.color n) = .red

theorem constructed_isNew : IsNew (constructed s n key value).view n key value := by
  constructor <;> simp [constructed]

theorem constructed_represents (h : Represents s.view t) (hn : n ∉ t.ptrs) :
    Represents (constructed s n key value).view t := by
  have h₁ := ((h.update_outside (v := .key n) (x := key) rfl hn).update_outside (v := .value n)
    (x := value) rfl hn).update_outside (v := .parent n) (x := none) rfl hn
  exact ((h₁.update_outside (v := .child .left n) (x := none) rfl hn).update_outside
    (v := .child .right n) (x := none) rfl hn).update_outside (v := .color n) (x := .red) rfl hn

/-- The gets for the sake of validation only look. -/
theorem looks_trackParent (root parent : Option Ptr) : (trackParent root parent).Looks m () := by
  cases parent with
  | none => exact .pure _
  | some p =>
    simp only [trackParent]
    split
    · exact .pure _
    · refine looks_getKey.bind (looks_getLink.bind (looks_getLink.bind (looks_getParent.bind ?_)))
      cases hpp : m (.parent p) with
      | none => exact .pure _
      | some q =>
        show (if some q = root then _ else _ : Program Ptr Key Value Unit).Looks m ()
        split
        · exact .pure _
        · exact looks_getLink.bind (looks_getLink.bind (.pure _))

/-- The new node, as a tree. -/
def newTree (n : Ptr) (key : Key) (value : Value) : Tree Ptr Key Value :=
  .join .left ⟨n, .red, key, value⟩ .nil .nil

omit [DecidableEq Ptr] in
theorem cells_plug_newTree (C : Context Ptr Key Value) :
    (plug C (newTree n key value)).cells = before C ++ (n, key, value) :: behind C := by
  simp [cells_plug, newTree, Tree.join, Tree.cells]

omit [DecidableEq Ptr] in
theorem cells_plug_nil (C : Context Ptr Key Value) :
    (plug C .nil).cells = before C ++ behind C := by
  simp [cells_plug]

/-- The attempt after the node has been linked in. -/
def linked (s : Attempt Ptr Key Value) (n : Ptr) (C : Context Ptr Key Value) :
    Attempt Ptr Key Value :=
  (s.store (.parent n) (top C)).write (.link (slot C)) (some n)

theorem linked_represents (h : Represents s.view (plug C .nil))
    (hn : n ∉ (plug C (.nil : Tree Ptr Key Value)).ptrs) (hnew : IsNew s.view n key value) :
    Represents (linked s n C).view (plug C (newTree n key value)) := by
  have hs := slot_ne_child hn
  refine Represents.replace (h.update_outside (v := .parent n) (x := top C) rfl hn)
    ChangedAt.refl.update_link (Function.update_self ..) ?_ ?_
  · rw [newTree, holds_join, Node.in_iff]
    simp [linked, Holds, (hs _).symm, Side.other, hnew.key, hnew.value, hnew.left, hnew.right,
      hnew.color]
  · rw [Tree.ptrs, cells_plug_newTree, List.map_append, List.map_cons]
    rw [Tree.ptrs, cells_plug_nil, List.map_append] at hn
    refine (List.perm_middle.nodup_iff).mpr (List.nodup_cons.mpr ⟨hn, ?_⟩)
    have hnd := h.nodup
    rwa [Tree.ptrs, cells_plug_nil, List.map_append] at hnd

/-- `push_impl` reads the root and what surrounds the gap, links the node in, and goes on with the
    fix-up. -/
theorem run_pushAt (s : Attempt Ptr Key Value) (n : Ptr) (C : Context Ptr Key Value) :
    ∃ rs, ∀ fuel, (pushAt fuel n (top C) (slot C)).run s =
      (insertCase1 fuel n).run (linked ((s.read .root).readAll rs) n C) := by
  obtain ⟨rs, htrack⟩ :=
    (looks_trackParent (m := (s.read .root).view) (s.view .root) (top C)).run_bind
  refine ⟨rs, fun fuel => ?_⟩
  simp only [pushAt, run_getLink_bind, htrack]
  rfl

/-- What `push_impl` does once it has found the gap. -/
theorem pushAt_repairs (h : Represents s.view (plug C .nil))
    (hb : Balanced (plug C (.nil : Tree Ptr Key Value)))
    (hn : n ∉ (plug C (.nil : Tree Ptr Key Value)).ptrs) (hnew : IsNew s.view n key value) :
    ∃ s' t', (∀ fuel, C.length < fuel →
        (pushAt fuel n (top C) (slot C)).run s = .ok ((), s')) ∧
      Repairs s s' (plug C (newTree n key value)) t' := by
  obtain ⟨rs, hpush⟩ := run_pushAt s n C
  obtain ⟨s', t', hs', hrep⟩ := insertCase1_repairs
    (s := linked ((s.read .root).readAll rs) n C) (linked_represents h hn hnew)
    (Tree.root_join ..) hb rfl ((blackHeight_join_red rfl).mpr ⟨rfl, rfl⟩)
    ((noRedRed_join_red rfl).mpr ⟨⟨rfl, rfl⟩, trivial, trivial⟩) (Tree.color_join ..)
  refine ⟨s', t', fun fuel hf => ?_, hrep.represents, hrep.cells, hrep.balanced, hrep.retired, hrep.keeps⟩
  rw [hpush, hs' fuel hf]

/-! ## 3. The whole operation -/

omit [DecidableEq Ptr] in
/-- Putting a cell into its gap keeps the keys in order. -/
theorem sorted_of_gap (ho : StrictWeak compare) (hg : Gap compare key C)
    (hs : (plug C (.nil : Tree Ptr Key Value)).Sorted compare) {t' : Tree Ptr Key Value}
    (hc : t'.cells = before C ++ (n, key, value) :: behind C) : t'.Sorted compare := by
  rw [Tree.Sorted, cells_plug_nil, List.pairwise_append] at hs
  obtain ⟨hb, ha, hba⟩ := hs
  rw [Tree.Sorted, hc, List.pairwise_append, List.pairwise_cons]
  refine ⟨hb, ⟨fun c hcm => ?_, ha⟩, fun c hcm e he => ?_⟩
  · by_contra hlt
    rw [Bool.not_eq_false] at hlt
    have := ho.lt_trans (hg.behind c hcm) hlt
    rw [ho.irrefl] at this
    cases this
  · rcases List.mem_cons.mp he with rfl | he
    · exact hg.before c hcm
    · exact hba c hcm e he

/-- `emplace` constructs the node, looks for the gap, and goes on there. -/
theorem run_emplace (h : Represents m (plug C .nil))
    (hn : n ∉ (plug C (.nil : Tree Ptr Key Value)).ptrs) (hg : Gap compare key C) (value : Value) :
    ∃ us, ∀ fuel, C.length < fuel → (emplace compare fuel n key value).attempt m =
      (pushAt fuel n (top C) (slot C)).run
        ((constructed (.start m) n key value).readAllUntracked us) := by
  have hm : Represents (constructed (.start m) n key value).view (plug (C ++ []) .nil) := by
    rw [List.append_nil]
    exact constructed_represents h hn
  obtain ⟨us, hrun⟩ := run_descend (C := C) (D := []) hm (by rwa [List.append_nil])
  rw [List.append_nil] at hrun
  refine ⟨us ++ [.key n], fun fuel hf => ?_⟩
  simp only [Optimistic.Program.attempt, emplace, Optimistic.Program.run_bind_ok run_construct,
    pushImpl, run_unsafeKey_bind, constructed_isNew.key]
  refine (Optimistic.Program.run_bind_ok (hrun ((constructed (.start m) n key value).readUntracked
    (.key n)) fuel rfl hf)).trans ?_
  rw [← Optimistic.Attempt.readAllUntracked_readAllUntracked]
  rfl

/-- `emplace` on a valid tree, node by node: the new cell goes into the gap of its key. -/
theorem emplace_spec (ho : StrictWeak compare) (h : Valid compare m t) (hn : n ∉ t.ptrs)
    (key : Key) (value : Value) :
    ∃ s t' C, Optimistic.Returns (fun fuel => emplace compare fuel n key value) m () s ∧
      Valid compare s.view t' ∧ s.retired = [] ∧ t = plug C .nil ∧ Gap compare key C ∧
      t'.cells = before C ++ (n, key, value) :: behind C := by
  obtain ⟨C, hctx, hg⟩ := exists_gap (C := []) ho h.sorted (⟨nofun, nofun⟩ : Gap compare key [])
  obtain rfl : t = plug C .nil := hctx.symm
  obtain ⟨us, hrun⟩ := run_emplace h.represents hn hg value
  obtain ⟨s', t', hs', hrep⟩ := pushAt_repairs
    (s := (constructed (.start m) n key value).readAllUntracked us)
    (constructed_represents h.represents hn) h.balanced hn constructed_isNew
  have hc := hrep.cells.trans (cells_plug_newTree C)
  refine ⟨s', t', C, ⟨C.length + 1, fun fuel hf => ?_⟩,
    ⟨hrep.represents, sorted_of_gap ho hg h.sorted hc, hrep.balanced⟩, hrep.retired, rfl, hg, hc⟩
  rw [hrun fuel hf, hs' fuel hf]

/-- **`rbtree::emplace` is correct.** On every valid tree it ends, dereferences no null pointer, and
    leaves a valid tree on which `verify` passes; the new pair stands after every pair whose key is
    not greater than the new key, and before the others. -/
theorem emplace_correct (ho : StrictWeak compare) (h : Valid compare m t) (hn : n ∉ t.ptrs)
    (key : Key) (value : Value) :
    ∃ s t', Optimistic.Returns (fun fuel => emplace compare fuel n key value) m () s ∧
      Valid compare s.view t' ∧
      (∃ front back, t.pairs = front ++ back ∧ t'.pairs = front ++ (key, value) :: back ∧
        (∀ e ∈ front, compare key e.1 = false) ∧ ∀ e ∈ back, compare key e.1 = true) ∧
      ∀ fuel, t'.cells.length < fuel → (verify compare fuel).Looks s.view () := by
  obtain ⟨s, t', C, hret, hv, -, rfl, hg, hc⟩ := emplace_spec ho h hn key value
  refine ⟨s, t', hret, hv, ⟨(before C).map fun c => c.2, (behind C).map fun c => c.2, ?_, ?_,
    ?_, ?_⟩, verify_passes hv⟩
  · rw [Tree.pairs, cells_plug_nil, List.map_append]
  · rw [Tree.pairs, hc, List.map_append, List.map_cons]
  · intro e he
    obtain ⟨c, hcm, rfl⟩ := List.mem_map.mp he
    exact hg.before c hcm
  · intro e he
    obtain ⟨c, hcm, rfl⟩ := List.mem_map.mp he
    exact hg.behind c hcm

/-- A key below the left child of the root. -/
theorem emplace_correct_left :
    ∃ s t', Optimistic.Returns (fun fuel => emplace less fuel 3 3 30) (memoryOf threeNodes) () s ∧
      Valid less s.view t' ∧
      ∃ front back, threeNodes.pairs = front ++ back ∧ t'.pairs = front ++ (3, 30) :: back := by
  obtain ⟨s, t', hret, hv, ⟨front, back, ht, ht', -⟩, -⟩ :=
    emplace_correct less_strictWeak threeNodes_valid (n := 3) (by decide) 3 30
  exact ⟨s, t', hret, hv, front, back, ht, ht'⟩

end Rbtree

end LockfreeStm
