/-
  File:      LockfreeStm/Rbtree/Descendants.lean
  Subject:   WHAT STAYS BELOW A NODE whose links nobody sets.

  A rotation takes nodes out of the subtree of the node that goes down, and sets its links. So where the
  links of a node have not been set, what was in its subtree still is. Validation sees the links, and
  thereby that no node has risen above another one.

  * `Tree.Below` -- a node is in the subtree of another one; `Below.antisymm`.
  * `Keeps` -- nothing has left the subtree of a node whose links are not set.
-/
import LockfreeStm.Rbtree.Shape

namespace LockfreeStm

namespace Rbtree

variable {Ptr Key Value : Type}

/-! ## 1. Subtrees -/

/-- The node `y` is in the subtree of `x`. -/
def Tree.Below : Tree Ptr Key Value → Ptr → Ptr → Prop
  | .nil, _, _ => False
  | .node n l r, x, y => x = n.ptr ∧ y ∈ (Tree.node n l r).ptrs ∨ l.Below x y ∨ r.Below x y

variable {t t' t'' a b c : Tree Ptr Key Value} {n p : Node Ptr Key Value} {d : Side} {x y : Ptr}
  {C : Context Ptr Key Value}

@[simp] theorem not_below_nil : ¬ (Tree.nil : Tree Ptr Key Value).Below x y := id

@[simp] theorem below_join : (Tree.join d n a b).Below x y ↔
    x = n.ptr ∧ (y = n.ptr ∨ y ∈ a.ptrs ∨ y ∈ b.ptrs) ∨ a.Below x y ∨ b.Below x y := by
  rw [← Tree.mem_ptrs_join d n a b]
  cases d with
  | left => exact Iff.rfl
  | right => exact or_congr_right or_comm

theorem Tree.Below.mem (h : t.Below x y) : x ∈ t.ptrs ∧ y ∈ t.ptrs := by
  induction t with
  | nil => cases h
  | node n l r ihl ihr =>
    have hl := fun q => (Tree.mem_ptrs_join .left n l r (p := q)).mpr
    rcases h with ⟨rfl, hy⟩ | h | h
    · exact ⟨hl _ (.inl rfl), hy⟩
    · exact ⟨hl x (.inr (.inl (ihl h).1)), hl y (.inr (.inl (ihl h).2))⟩
    · exact ⟨hl x (.inr (.inr (ihr h).1)), hl y (.inr (.inr (ihr h).2))⟩

theorem below_refl (h : x ∈ t.ptrs) : t.Below x x := by
  obtain ⟨C, n, l, r, rfl, rfl⟩ := exists_hole_of_mem h
  clear h
  generalize hu : Tree.node n l r = u
  have h : u.Below n.ptr n.ptr := hu ▸ .inl ⟨rfl, (Tree.mem_ptrs_join .left n l r).mpr (.inl rfl)⟩
  clear hu
  induction C generalizing u with
  | nil => exact h
  | cons f C ih => exact ih (f.fill u) (below_join.mpr (.inr (.inl h)))

/-- Two nodes are not in the subtrees of each other. -/
theorem Tree.Below.antisymm (hn : t.ptrs.Nodup) (h : t.Below x y) (h' : t.Below y x) : x = y := by
  induction t with
  | nil => cases h
  | node n l r ihl ihr =>
    have hj : (Tree.join .left n l r).ptrs.Nodup := hn
    rw [(Tree.ptrs_join_perm ..).nodup_iff, List.nodup_cons, List.mem_append, not_or,
      List.nodup_append'] at hj
    obtain ⟨⟨hnl, hnr⟩, hl, hr, hlr⟩ := hj
    rcases h with ⟨rfl, -⟩ | h | h
    · rcases h' with ⟨rfl, -⟩ | h' | h'
      · rfl
      · exact absurd h'.mem.2 hnl
      · exact absurd h'.mem.2 hnr
    · rcases h' with ⟨rfl, -⟩ | h' | h'
      · exact absurd h.mem.2 hnl
      · exact ihl hl h h'
      · exact absurd h'.mem.1 (hlr h.mem.2)
    · rcases h' with ⟨rfl, -⟩ | h' | h'
      · exact absurd h.mem.2 hnr
      · exact absurd h.mem.2 (hlr h'.mem.1)
      · exact ihr hr h h'

theorem mem_ptrs_plug_congr (C : Context Ptr Key Value) {q : Ptr} (h : q ∈ (plug C t).ptrs)
    (hp : ∀ q ∈ t.ptrs, q ∈ t'.ptrs) : q ∈ (plug C t').ptrs := by
  rw [ptrs_plug, List.mem_append, List.mem_append] at h ⊢
  exact h.imp_left (Or.imp_right (hp q))

/-- A hole whose tree gets more nodes below each one. -/
theorem Tree.Below.plug (h : (Rbtree.plug C t).Below x y) (hb : ∀ x y, t.Below x y → t'.Below x y) :
    (Rbtree.plug C t').Below x y := by
  have hp : ∀ q ∈ t.ptrs, q ∈ t'.ptrs := fun q hq => (hb q q (below_refl hq)).mem.1
  induction C generalizing t t' with
  | nil => exact hb x y h
  | cons f C ih =>
    refine @ih (f.fill t) (f.fill t') h (fun x y h => ?_) fun q hq => ?_
    · rw [Frame.fill, below_join] at h ⊢
      exact h.imp (And.imp_right (Or.imp_right (Or.imp_left (hp y)))) (Or.imp_left (hb x y))
    · rw [mem_ptrs_fill] at hq ⊢
      exact hq.imp_right (Or.imp_left (hp q))

/-- The nodes below one of the hole's tree are there. -/
theorem Tree.Below.of_plug (hn : (Rbtree.plug C t).ptrs.Nodup) (hx : x ∈ t.ptrs)
    (h : (Rbtree.plug C t).Below x y) : t.Below x y := by
  induction C generalizing t with
  | nil => exact h
  | cons f C ih =>
    obtain ⟨hft, -, hto⟩ := nodup_fill (nodup_of_plug (C := C) (t := f.fill t) hn)
    have h := ih (t := f.fill t) hn (mem_ptrs_fill.mpr (.inr (.inl hx))) h
    rw [Frame.fill, below_join] at h
    rcases h with ⟨rfl, -⟩ | h | h
    · exact absurd hx hft
    · exact h
    · exact absurd h.mem.1 (hto x hx)

/-! ## 2. What operations keep -/

/-- What was in the subtree of a node whose links have not been set, and is still in the tree, is still in its
    subtree. -/
def Keeps (writes : List (Var Ptr)) (t t' : Tree Ptr Key Value) : Prop :=
  ∀ x y, (∀ d, .child d x ∉ writes) → x ∈ t'.ptrs → y ∈ t'.ptrs → t.Below x y → t'.Below x y

namespace Keeps

variable {w w' : List (Var Ptr)}

theorem refl (w : List (Var Ptr)) (t : Tree Ptr Key Value) : Keeps w t t := fun _ _ _ _ _ h => h

theorem trans (h : Keeps w t t') (h' : Keeps w t' t'') (hsub : ∀ q ∈ t''.ptrs, q ∈ t'.ptrs) : Keeps w t t'' :=
  fun x y hw hx hy hb => h' x y hw hx hy (h x y hw (hsub x hx) (hsub y hy) hb)

theorem mono (h : Keeps w t t') (hw : w ⊆ w') : Keeps w' t t' :=
  fun x y hx => h x y fun d hd => hx d (hw hd)

/-- Below a hole, of a tree that loses nodes only there. -/
theorem plug (h : Keeps w t t') (hsub : ∀ q ∈ t'.ptrs, q ∈ t.ptrs) (C : Context Ptr Key Value)
    (hn : (Rbtree.plug C t).ptrs.Nodup) : Keeps w (Rbtree.plug C t) (Rbtree.plug C t') := by
  induction C generalizing t t' with
  | nil => exact h
  | cons f C ih =>
    obtain ⟨hft, hfo, hto⟩ := nodup_fill (nodup_of_plug (C := C) (t := f.fill t) hn)
    refine ih (fun x y hw hx hy hb => ?_) (fun q hq => ?_) hn
    · rw [mem_ptrs_fill] at hx hy
      rw [Frame.fill, below_join] at hb ⊢
      rcases hb with ⟨rfl, hb⟩ | hb | hb
      · exact .inl ⟨rfl, hy⟩
      · refine .inr (.inl (h x y hw ?_ ?_ hb))
        · refine (hx.resolve_left fun e => hft (e ▸ hb.mem.1)).resolve_right (hto x hb.mem.1)
        · refine (hy.resolve_left fun e => hft (e ▸ hb.mem.2)).resolve_right (hto y hb.mem.2)
      · exact .inr (.inr hb)
    · rw [mem_ptrs_fill] at hq ⊢
      exact hq.imp_right (.imp_left (hsub q))

/-- From a tree with the same nodes below each other in the hole; they may have other colors. -/
theorem source (h : Keeps w (Rbtree.plug C t') t'') (hb : ∀ x y, t.Below x y → t'.Below x y) :
    Keeps w (Rbtree.plug C t) t'' :=
  fun x y hw hx hy h' => h x y hw hx hy (h'.plug hb)

/-- A rotation sets the links of both nodes. -/
theorem rotate (hn : .child d.other n.ptr ∈ w) (hp : .child d p.ptr ∈ w) :
    Keeps w (.join d n a (.join d p b c)) (.join d p (.join d n a b) c) := by
  intro x y hw hx hy hb
  have hxn : x ≠ n.ptr := fun e => hw d.other (e ▸ hn)
  have hxp : x ≠ p.ptr := fun e => hw d (e ▸ hp)
  simp only [below_join, hxn, hxp, false_and, false_or] at hb ⊢
  rw [or_assoc]
  exact hb

/-- A node in the place of its parent. -/
theorem splice (hn : n.ptr ∉ c.ptrs) : Keeps w (.join d n .nil c) c := by
  intro x y hw hx hy hb
  rw [below_join] at hb
  rcases hb with ⟨rfl, -⟩ | hb | hb
  · exact absurd hx hn
  · exact hb.elim
  · exact hb

end Keeps

end Rbtree

end LockfreeStm
