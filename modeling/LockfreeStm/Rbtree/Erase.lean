/-
  File:      LockfreeStm/Rbtree/Erase.lean
  Subject:   `erase_one` IS CORRECT.

  `delete_one_child` takes out a node with an empty side: its child goes up, and if that leaves a
  black node too few the fix-up runs. A node with two children takes over the key and the value of
  the least node to the right of it, which goes instead.

  Main results: `eraseImpl_spec`, for any node of the tree, and **`eraseOne_correct`**.
-/
import LockfreeStm.Rbtree.Delete

namespace LockfreeStm

namespace Rbtree

variable {Ptr Key Value : Type} [DecidableEq Ptr] {compare : Key → Key → Bool}
  {s : Attempt Ptr Key Value} {m : Memory Ptr Key Value} {C D : Context Ptr Key Value}
  {t l r c : Tree Ptr Key Value} {n e : Node Ptr Key Value} {d : Side} {key : Key}
  {par : Option Ptr}

/-! ## 1. The search -/

/-- Neither key goes before the other. -/
def Equivalent (compare : Key → Key → Bool) (a b : Key) : Prop :=
  compare a b = false ∧ compare b a = false

/-- What `find` says of a tree. -/
inductive Found (compare : Key → Key → Bool) (key : Key) (t : Tree Ptr Key Value) :
    Option Ptr → Prop where
  | absent (h : ∀ x ∈ t.cells, ¬ Equivalent compare key x.2.1) : Found compare key t none
  | present {x : Ptr × Key × Value} (hx : x ∈ t.cells) (h : Equivalent compare key x.2.1) :
    Found compare key t (some x.1)

/-- The node `find` stops at. -/
def Tree.lookup (compare : Key → Key → Bool) (key : Key) : Tree Ptr Key Value → Option Ptr
  | .nil => none
  | .node n l r =>
    if compare key n.key then l.lookup compare key
    else if compare n.key key then r.lookup compare key
    else some n.ptr

omit [DecidableEq Ptr] in
/-- A subtree that the key cannot be outside of. -/
theorem Found.mono {t' : Tree Ptr Key Value} {o : Option Ptr} (h : Found compare key t o)
    (hsub : ∀ x ∈ t.cells, x ∈ t'.cells)
    (hrest : ∀ x ∈ t'.cells, x ∈ t.cells ∨ ¬ Equivalent compare key x.2.1) :
    Found compare key t' o := by
  cases h with
  | absent h => exact .absent fun x hx => (hrest x hx).elim (h x) id
  | present hx h => exact .present (hsub _ hx) h

/-- One round of the loop of `find`. -/
theorem run_findFrom_succ {fuel : Nat} {p : Ptr} :
    (findFrom compare key (fuel + 1) (some p)).run s =
      if compare key (s.view (.key p)) then
        (findFrom compare key fuel (s.view (.child .left p))).run
          (s.readAllUntracked [.child .left p, .key p])
      else if compare (s.view (.key p)) key then
        (findFrom compare key fuel (s.view (.child .right p))).run
          (s.readAllUntracked [.child .right p, .key p])
      else .ok (some p, s.readAllUntracked [.key p]) := by
  simp only [findFrom, run_untrackedKey_bind]
  split
  · rfl
  · split
    · rfl
    · rfl

/-- The loop of `find`. -/
theorem findFrom_spec (ho : StrictWeak compare) (h : Holds m par t) (hs : t.Sorted compare) :
    ∃ us, Found compare key t (t.lookup compare key) ∧
      ∀ (s : Attempt Ptr Key Value) fuel, s.view = m → t.cells.length < fuel →
        (findFrom compare key fuel t.root).run s =
          .ok (t.lookup compare key, s.readAllUntracked us) := by
  induction t generalizing par with
  | nil =>
    refine ⟨[], .absent nofun, fun s fuel _ hf => ?_⟩
    cases fuel with
    | zero => omega
    | succ fuel => rfl
  | node q l r ihl ihr =>
    obtain ⟨hq, hl, hr, hhl, hhr⟩ := h
    have hsq := hs
    simp only [Tree.Sorted, Tree.cells, List.pairwise_append, List.pairwise_cons,
      List.mem_cons] at hsq
    obtain ⟨hsl, ⟨hqr, hsr⟩, hlq⟩ := hsq
    have hkey := hq.key
    have hround : ∀ (s : Attempt Ptr Key Value) fuel, s.view = m →
        (Tree.node q l r).cells.length < fuel →
        ∃ fuel', fuel = fuel' + 1 ∧ l.cells.length < fuel' ∧ r.cells.length < fuel' := by
      intro s fuel _ hf
      simp only [Tree.cells, List.length_append, List.length_cons] at hf
      exact ⟨fuel - 1, by omega, by omega, by omega⟩
    by_cases hlt : compare key q.key = true
    · -- smaller than the node, so than everything to the right
      obtain ⟨us, hfound, hrun⟩ := ihl hhl hsl
      rw [Tree.lookup, if_pos hlt]
      refine ⟨us ++ [.child .left q.ptr, .key q.ptr], hfound.mono (fun x hx => ?_) fun x hx => ?_,
        fun s fuel hv hf => ?_⟩
      · exact List.mem_append_left _ hx
      · rw [Tree.cells, List.mem_append, List.mem_cons] at hx
        refine hx.imp id fun hx he => ?_
        rcases hx with rfl | hx
        · exact absurd (hlt.symm.trans he.1) (by decide)
        · exact absurd ((ho.lt_of_lt_of_le hlt (hqr x hx)).symm.trans he.1) (by decide)
      · obtain ⟨fuel, rfl, hfl, -⟩ := hround s fuel hv hf
        rw [Tree.root, run_findFrom_succ, hv, hkey, if_pos hlt, hl,
          hrun (s.readAllUntracked [.child .left q.ptr, .key q.ptr]) fuel hv hfl,
          Optimistic.Attempt.readAllUntracked_readAllUntracked]
    · by_cases hgt : compare q.key key = true
      · -- greater than the node, so than everything to the left
        obtain ⟨us, hfound, hrun⟩ := ihr hhr hsr
        rw [Tree.lookup, if_neg hlt, if_pos hgt]
        refine ⟨us ++ [.child .right q.ptr, .key q.ptr],
          hfound.mono (fun x hx => ?_) fun x hx => ?_, fun s fuel hv hf => ?_⟩
        · exact List.mem_append_right _ (List.mem_cons_of_mem _ hx)
        · rw [Tree.cells, List.mem_append, List.mem_cons, ← or_assoc] at hx
          refine hx.symm.imp id fun hx he => ?_
          rcases hx with hx | rfl
          · exact absurd ((ho.lt_of_le_of_lt (hlq x hx _ (.inl rfl)) hgt).symm.trans he.2) (by decide)
          · exact absurd (hgt.symm.trans he.2) (by decide)
        · obtain ⟨fuel, rfl, -, hfr⟩ := hround s fuel hv hf
          rw [Tree.root, run_findFrom_succ, hv, hkey, if_neg hlt, if_pos hgt, hr,
            hrun (s.readAllUntracked [.child .right q.ptr, .key q.ptr]) fuel hv hfr,
            Optimistic.Attempt.readAllUntracked_readAllUntracked]
      · have hmem : (q.ptr, q.key, q.value) ∈ (Tree.node q l r).cells :=
          List.mem_append_right _ List.mem_cons_self
        rw [Tree.lookup, if_neg hlt, if_neg hgt]
        refine ⟨[.key q.ptr],
          .present hmem ⟨Bool.eq_false_iff.mpr hlt, Bool.eq_false_iff.mpr hgt⟩,
          fun s fuel hv hf => ?_⟩
        obtain ⟨fuel, rfl, -, -⟩ := hround s fuel hv hf
        rw [Tree.root, run_findFrom_succ, hv, hkey, if_neg hlt, if_neg hgt]

/-! ## 2. Taking out a node with an empty side -/

/-- The child in the place of its parent. -/
theorem spliced_represents (h : Represents m (plug C (.join d n .nil c))) :
    Represents (reparent (Function.update m (.link (slot C)) c.root) c.root (top C)) (plug C c) := by
  have hn : (Tree.join d n .nil c).ptrs.Nodup := nodup_of_plug h.nodup
  have hc : c.ptrs.Sublist (Tree.join d n .nil c).ptrs := by
    cases d <;> simp [Tree.join, Tree.ptrs, Tree.cells]
  have hs := Represents.slot_owner h.nodup
  obtain ⟨-, hh⟩ := h.at_hole
  rw [holds_join] at hh
  refine h.replace ?_ ?_ ?_ ?_
  · exact ChangedAt.refl.update_link.reparent fun p hp => hc.subset (Tree.mem_ptrs_of_root hp)
  · simp
  · have hc' : Holds (Function.update m (.link (slot C)) c.root) (some n.ptr) c :=
      (holds_update fun p hp => hs p (hc.subset hp)).mpr hh.2.2.2.2
    exact hc'.reparent (hn.sublist hc) _
  · refine h.nodup.sublist ?_
    rw [ptrs_plug, ptrs_plug]
    exact (hc.append_left _).append_right _

/-- `replace_node` of the root of a hole's tree. -/
theorem run_replaceNode {o : Option Ptr} {p : Ptr} (h : Represents s.view (plug C t))
    (ht : t.root = some p) :
    ∃ rs, (replaceNode p o).run s =
      .ok ((), reparented ((s.readAll rs).write (.link (slot C)) o) o (top C)) := by
  have hpar := h.parent ht
  cases C with
  | nil =>
    refine ⟨[.parent p], ?_⟩
    simp [replaceNode, hpar, top, slot]
    rfl
  | cons f C =>
    have hl := child_eq_root h ht .left
    obtain ⟨side, q, w⟩ := f
    refine ⟨[.child .left q.ptr, .parent p], ?_⟩
    simp only [replaceNode, run_getParent_bind, hpar, top, run_getLink_bind,
      Optimistic.Attempt.read_view, hl]
    cases side with
    | left =>
      rw [if_pos rfl, run_set_bind, run_setParentOf]
      rfl
    | right =>
      rw [if_neg (by decide : ¬ Side.right = .left), run_set_bind, run_setParentOf]
      rfl

/-- The three ways of the rebalancing: a red node is gone, a red child makes up for a black one, or
    `delete_case1` has to. -/
theorem run_rebalance_red {p : Ptr} {o : Option Ptr} (hp : s.view (.color p) = .red) (fuel : Nat) :
    (rebalance fuel p o).run s = .ok ((), s.read (.color p)) := by
  simp [rebalance, hp]

theorem run_rebalance_redChild {p q : Ptr} (hp : s.view (.color p) = .black)
    (hq : s.view (.color q) = .red) (fuel : Nat) :
    (rebalance fuel p (some q)).run s =
      .ok ((), ((s.read (.color p)).read (.color q)).write (.color q) .black) := by
  simp [rebalance, Rbtree.color, hp, hq]

theorem run_rebalance_black {p : Ptr} (hp : s.view (.color p) = .black) (h : Holds s.view par c)
    (hc : c.color = .black) :
    ∃ rs, ∀ fuel, (rebalance fuel p c.root).run s =
      (deleteCase1 fuel (s.view (.parent p)) c.root).run (s.readAll rs) := by
  obtain ⟨rs, hlook⟩ := (looks_color (m := (s.read (.color p)).view) h).run_bind
  refine ⟨[.parent p] ++ (rs ++ [.color p]), fun fuel => ?_⟩
  simp only [rebalance, run_getColor_bind, hp, if_true, hlook, hc,
    (by decide : ¬ Color.black = .red), if_false, run_getParent_bind,
    Optimistic.Attempt.readAll_view, Optimistic.Attempt.read_view]
  exact congrArg _ (by simp [Optimistic.Attempt.readAll, Optimistic.Attempt.read])

/-- The rebalancing of `delete_one_child`, with the child in the place of `n`. -/
theorem rebalance_repairs (h : Represents s.view (plug C c))
    (hb : Balanced (plug C (.join d n .nil c))) (hcol : s.view (.color n.ptr) = n.color)
    (hpar : s.view (.parent n.ptr) = top C) :
    ∃ s' t', (∀ fuel, C.length < fuel → (rebalance fuel n.ptr c.root).run s = .ok ((), s')) ∧
      Repairs s s' (plug C c) t' := by
  obtain ⟨hun, k, huk⟩ := hb.at_hole
  cases hn : n.color with
  | red =>
    -- no black node is lost
    obtain ⟨hk0, hck⟩ := (blackHeight_join_red hn).mp huk
    obtain ⟨⟨-, hcb⟩, -, hcn⟩ := (noRedRed_join_red hn).mp hun
    refine ⟨s.read (.color n.ptr), plug C c, fun fuel _ => ?_, h, rfl,
      hb.replace huk hck hcn fun e => absurd (hcb.symm.trans e) (by decide), rfl, .refl _ _⟩
    exact run_rebalance_red (hcol.trans hn) fuel
  | black =>
    obtain ⟨k', hk0, hck, rfl⟩ := (Tree.blackHeight_join ..).mp huk
    obtain ⟨-, hcn⟩ := (noRedRed_join_black hn).mp hun
    rw [if_pos hn] at huk
    by_cases hcr : c.color = .red
    · -- the child makes up for it
      obtain ⟨q, a, b, rfl, hq⟩ := Tree.exists_join_of_red hcr .left
      refine ⟨((s.read (.color n.ptr)).read (.color q.ptr)).write (.color q.ptr) .black,
        plug C (.join .left (q.paint .black) a b), fun fuel _ => ?_, h.paint .black,
        cells_plug_congr C (Tree.cells_paint .black), ?_, rfl,
        Keeps.source (.refl _ _) fun _ _ hb => by simpa using hb⟩
      · rw [Tree.root_join]
        exact run_rebalance_redChild (hcol.trans hn)
          ((holds_join.mp h.at_hole.2).1.color.trans hq) fuel
      · exact hb.replace huk ((blackHeight_join_black rfl).mpr ((blackHeight_join_red hq).mp hck))
          ((noRedRed_join_black rfl).mpr ((noRedRed_join_red hq).mp hcn).2)
          fun e => absurd ((Tree.color_join ..).symm.trans e) (by decide : ¬ Color.black = .red)
    · obtain ⟨rs, hrun⟩ := run_rebalance_black (hcol.trans hn) h.at_hole.2 (color_eq_black_of_ne hcr)
      obtain ⟨s', t', hs', hrep⟩ := deleteCase1_repairs (s := s.readAll rs) h hb huk
        ((Tree.color_join ..).trans hn) hck hcn (color_eq_black_of_ne hcr)
      refine ⟨s', t', fun fuel hf => ?_, hrep.represents, hrep.cells, hrep.balanced, hrep.retired, hrep.keeps⟩
      rw [hrun, hpar]
      exact hs' fuel hf

/-- One node has been taken out: what is left is `cs`, in order. -/
structure Erased (s s' : Attempt Ptr Key Value) (p : Ptr) (cs : List (Ptr × Key × Value))
    (t' : Tree Ptr Key Value) : Prop where
  represents : Represents s'.view t'
  cells : t'.cells = cs
  balanced : Balanced t'
  retired : s'.retired = p :: s.retired

/-- `delete_one_child` puts the child into the node's place, and goes on with the rebalancing. -/
theorem run_deleteOneChild (h : Represents s.view (plug C (.join d n .nil c))) :
    ∃ rs, ∀ fuel, (deleteOneChild fuel n.ptr).run s =
      (rebalance fuel n.ptr c.root >>= fun _ => destroyDeallocate n.ptr).run
        (reparented ((s.readAll rs).write (.link (slot C)) c.root) c.root (top C)) := by
  obtain ⟨-, hnil, hc, -, -⟩ := holds_join.mp h.at_hole.2
  -- the child is the one on the right, if there is one, else the one on the left
  obtain ⟨rs, hchild⟩ : ∃ rs, ∀ fuel, (deleteOneChild fuel n.ptr).run s =
      (do
        replaceNode n.ptr c.root
        rebalance fuel n.ptr c.root
        destroyDeallocate n.ptr).run (s.readAll rs) := by
    cases d with
    | left =>
      have hr : s.view (.child .right n.ptr) = c.root := hc
      by_cases hcn : c.root = none
      · refine ⟨[.child .left n.ptr, .child .right n.ptr], fun fuel => ?_⟩
        simp only [deleteOneChild, run_getLink_bind, hr, hcn, if_true, hnil, Tree.root_nil,
          Optimistic.Attempt.read_view]
        rfl
      · refine ⟨[.child .right n.ptr], fun fuel => ?_⟩
        simp only [deleteOneChild, run_getLink_bind, hr, hcn, if_false]
        rfl
    | right =>
      refine ⟨[.child .left n.ptr, .child .right n.ptr], fun fuel => ?_⟩
      have hl : s.view (.child .left n.ptr) = c.root := hc
      simp only [deleteOneChild, run_getLink_bind, hnil, Tree.root_nil, if_true, hl,
        Optimistic.Attempt.read_view]
      rfl
  obtain ⟨rs', hrep'⟩ := run_replaceNode (s := s.readAll rs) (o := c.root) h (Tree.root_join ..)
  refine ⟨rs' ++ rs, fun fuel => ?_⟩
  rw [hchild, Optimistic.Program.run_bind_ok hrep', Optimistic.Attempt.readAll_readAll]

/-- `delete_one_child`. It sets the link to the node. -/
theorem deleteOneChild_spec (h : Represents s.view (plug C (.join d n .nil c)))
    (hb : Balanced (plug C (.join d n .nil c))) :
    ∃ s' t', (∀ fuel, C.length < fuel → (deleteOneChild fuel n.ptr).run s = .ok ((), s')) ∧
      Erased s s' n.ptr (before C ++ c.cells ++ behind C) t' ∧ .link (slot C) ∈ s'.writes ∧
      Keeps s'.writes (plug C (.join d n .nil c)) t' := by
  have hin := (holds_join.mp h.at_hole.2).1
  have hnc : n.ptr ∉ c.ptrs := by
    have hn := nodup_of_plug h.nodup
    rw [(Tree.ptrs_join_perm ..).nodup_iff] at hn
    exact (List.nodup_cons.mp hn).1
  have hroot : c.root ≠ some n.ptr := fun e => hnc (Tree.mem_ptrs_of_root e)
  obtain ⟨rs, hrun⟩ := run_deleteOneChild h
  obtain ⟨s', t', hs', hrep⟩ := rebalance_repairs (n := n) (d := d)
    (s := reparented ((s.readAll rs).write (.link (slot C)) c.root) c.root (top C))
    (by simpa using spliced_represents h) hb (by simpa using hin.color)
    (by simpa [reparent_parent hroot] using hin.parent)
  refine ⟨s'.retire n.ptr, t', fun fuel hf => ?_, ⟨hrep.represents, ?_, hrep.balanced, ?_⟩, ?_, ?_⟩
  · rw [hrun, Optimistic.Program.run_bind_ok (hs' fuel hf)]
    rfl
  · rw [hrep.cells, cells_plug]
  · show n.ptr :: s'.retired = _
    rw [hrep.retired]
    simp
  · refine (Optimistic.Program.run_grows (hs' (C.length + 1) (Nat.lt_succ_self _))).writes ?_
    rw [reparented_writes]
    cases c.root with
    | none => exact List.mem_cons_self
    | some q => exact List.mem_cons_of_mem _ List.mem_cons_self
  · have hsplice : Keeps s'.writes (plug C (.join d n .nil c)) (plug C c) :=
      Keeps.plug (.splice hnc) (fun q hq => (Tree.mem_ptrs_join ..).mpr (.inr (.inr hq))) C h.nodup
    refine hsplice.trans hrep.keeps fun q hq => ?_
    rwa [Tree.ptrs, hrep.cells] at hq

/-! ## 3. A node with two children -/

omit [DecidableEq Ptr] in
theorem Tree.eq_nil_of_root (h : t.root = none) : t = .nil := by
  cases t with
  | nil => rfl
  | node => cases h

/-- The leftmost node of a subtree. -/
theorem minNode_spec {p : Ptr} (h : Holds m par t) (ht : t.root = some p) :
    ∃ D n c rs, t = plug D (.join .left n .nil c) ∧ before D = [] ∧
      ∀ (s : Attempt Ptr Key Value) fuel, s.view = m → t.cells.length < fuel →
        (minNode fuel p).run s = .ok (n.ptr, s.readAll rs) := by
  induction t generalizing par p with
  | nil => cases ht
  | node q l r ihl _ =>
    obtain rfl : q.ptr = p := Option.some.inj ht
    obtain ⟨-, hl, -, hhl, -⟩ := h
    cases hlr : l.root with
    | none =>
      obtain rfl := Tree.eq_nil_of_root hlr
      refine ⟨[], q, r, [.child .left q.ptr], rfl, rfl, fun s fuel hv hf => ?_⟩
      cases fuel with
      | zero => omega
      | succ fuel =>
        simp only [minNode, run_getLink_bind, hv, hl, Tree.root_nil]
        rfl
    | some p =>
      obtain ⟨D, n, c, rs, hD, hbefore, hrun⟩ := ihl hhl hlr
      refine ⟨D ++ [⟨.left, q, r⟩], n, c, rs ++ [.child .left q.ptr], ?_, ?_,
        fun s fuel hv hf => ?_⟩
      · rw [plug_append, ← hD]
        rfl
      · rw [before_append, hbefore]
        rfl
      · simp only [Tree.cells, List.length_append, List.length_cons] at hf
        cases fuel with
        | zero => omega
        | succ fuel =>
          simp only [minNode, run_getLink_bind, hv, hl, hlr]
          refine (hrun (s.readAll [.child .left q.ptr]) fuel hv (by omega)).trans ?_
          rw [Optimistic.Attempt.readAll_readAll]

/-- The node with another key and value. -/
def Node.assign (n : Node Ptr Key Value) (key : Key) (value : Value) : Node Ptr Key Value :=
  { n with key := key, value := value }

section Assign

variable (n : Node Ptr Key Value) (key : Key) (value : Value)

omit [DecidableEq Ptr]

@[simp] theorem Node.assign_ptr : (n.assign key value).ptr = n.ptr := rfl
@[simp] theorem Node.assign_color : (n.assign key value).color = n.color := rfl
@[simp] theorem Node.assign_key : (n.assign key value).key = key := rfl
@[simp] theorem Node.assign_value : (n.assign key value).value = value := rfl

end Assign

/-- The root of the hole's tree gets another key and value. -/
theorem Represents.assign {a b : Tree Ptr Key Value}
    (h : Represents m (plug C (.join d n a b))) (key : Key) (value : Value) :
    Represents (Function.update (Function.update m (.key n.ptr) key) (.value n.ptr) value)
      (plug C (.join d (n.assign key value) a b)) := by
  have hn : (Tree.join d n a b).ptrs.Nodup := nodup_of_plug h.nodup
  rw [(Tree.ptrs_join_perm ..).nodup_iff, List.nodup_cons, List.mem_append, not_or] at hn
  obtain ⟨hl, hh⟩ := h.at_hole
  obtain ⟨hin, hna, hnb, hha, hhb⟩ := holds_join.mp hh
  have hmem : n.ptr ∈ (Tree.join d n a b).ptrs := (Tree.mem_ptrs_join ..).mpr (.inl rfl)
  refine h.replace ((ChangedAt.refl.update rfl hmem).update rfl hmem) ?_ ?_ ?_
  · simpa using hl
  · rw [holds_join, Node.in_iff]
    simpa [hn.1] using ⟨⟨hin.parent, hin.color⟩, hna, hnb, hha, hhb⟩
  · have hp : (Tree.join d (n.assign key value) a b).ptrs = (Tree.join d n a b).ptrs := by
      cases d <;> simp [Tree.join, Tree.ptrs, Tree.cells]
    rw [ptrs_plug, hp, ← ptrs_plug]
    exact h.nodup

omit [DecidableEq Ptr] in
/-- The colors do not look at the keys. -/
theorem Balanced.assign {a b : Tree Ptr Key Value} {value : Value}
    (h : Balanced (plug C (.join d n a b))) : Balanced (plug C (.join d (n.assign key value) a b)) := by
  obtain ⟨hn, k, hk⟩ := h.at_hole
  refine h.replace hk ((Tree.blackHeight_join ..).mpr ((Tree.blackHeight_join d n a b).mp hk))
    ((Tree.noRedRed_join ..).mpr ((Tree.noRedRed_join d n a b).mp hn)) fun hr => ?_
  refine Balanced.parentColor_of_red h ?_
  rwa [Tree.color_join] at hr ⊢

theorem looks_hasTwoChildren (h : Represents m (plug C (.node e l r))) :
    (hasTwoChildren e.ptr).Looks m (decide (l.root ≠ none ∧ r.root ≠ none)) := by
  obtain ⟨-, hl, hr, -⟩ := h.at_hole.2
  refine looks_getLink.bind ?_
  rw [hl]
  by_cases hln : l.root = none
  · rw [if_pos hln, decide_eq_false fun e => e.1 hln]
    exact .pure _
  · rw [if_neg hln, decide_eq_decide.mpr (and_iff_right hln)]
    refine looks_getLink.bind ?_
    rw [hr]
    exact .pure _

/-- Both links are there. -/
def TwoChildren (m : Memory Ptr Key Value) (e : Ptr) : Prop :=
  m (.child .left e) ≠ none ∧ m (.child .right e) ≠ none

/-- `erase_impl` of the node `e`, begun in `s` on the tree `t`, comes to `delete_one_child` of the
    node `p`, in `s₁` on the tree `t₁`. Either `e` is `p`, or `p` is the node behind it, whose key and
    value `e` has taken over. -/
inductive Comes (s s₁ : Attempt Ptr Key Value) (t t₁ : Tree Ptr Key Value) (e p : Ptr) : Prop where
  | self (node : e = p) (one : ¬ TwoChildren s.view e) (tree : t₁ = t) (view : s₁.view = s.view)
    (writes : s₁.writes = s.writes)
  | next {A B : List (Ptr × Key × Value)} {k k' : Key} {v v' : Value} (two : TwoChildren s.view e)
    (cells : t.cells = A ++ (e, k, v) :: (p, k', v') :: B)
    (cells₁ : t₁.cells = A ++ (e, k', v') :: (p, k', v') :: B)
    (view : s₁.view = Function.update (Function.update s.view (.key e) k') (.value e) v')
    (writes : s₁.writes = .value e :: .key e :: s.writes)

/-- `erase_impl` of a node with two children: the least node to the right of it hands over its key
    and its value. -/
theorem run_eraseImpl_two (h : Represents s.view (plug C (.node e l r)))
    (hb : Balanced (plug C (.node e l r))) (hlr : l.root ≠ none ∧ r.root ≠ none) :
    ∃ s₁ C₁ n c, Represents s₁.view (plug C₁ (.join .left n .nil c)) ∧
      Balanced (plug C₁ (.join .left n .nil c)) ∧ s₁.retired = s.retired ∧
      Comes s s₁ (plug C (.node e l r)) (plug C₁ (.join .left n .nil c)) e.ptr n.ptr ∧
      ∀ fuel, (plug C (.node e l r)).cells.length < fuel → C₁.length < fuel ∧
        (eraseImpl fuel e.ptr).run s = (deleteOneChild fuel n.ptr).run s₁ := by
  obtain ⟨rs, htwo⟩ := (looks_hasTwoChildren h).run_bind
  obtain ⟨p, hp⟩ := Option.ne_none_iff_exists'.mp hlr.2
  obtain ⟨-, hl, hr, -⟩ := h.at_hole.2
  obtain ⟨D, n, c, rs', rfl, hbefore, hmin⟩ := minNode_spec
    (Represents.at_hole (C := ⟨.right, e, l⟩ :: C) h).2 hp
  have hplug : ∀ (e : Node Ptr Key Value) t, plug (D ++ ⟨.right, e, l⟩ :: C) t =
      plug C (.join .left e l (plug D t)) := fun e t => plug_append D (⟨.right, e, l⟩ :: C) t
  have hn : n.In s.view (top (D ++ ⟨.right, e, l⟩ :: C)) := by
    rw [show plug C (.node e l (plug D _)) = _ from (hplug e _).symm] at h
    exact (holds_join.mp h.at_hole.2).1
  have h' := Represents.assign (d := .left) h n.key n.value
  have hb' : Balanced (plug C (.join .left (e.assign n.key n.value) l _)) :=
    Balanced.assign (d := .left) hb
  rw [← hplug] at h' hb'
  refine ⟨(((((s.readAll rs).read (.child .right e.ptr)).readAll rs').read (.key n.ptr)).write
    (.key e.ptr) n.key |>.read (.value n.ptr)).write (.value e.ptr) n.value, _, n, c, h', hb', rfl,
    .next (A := before C ++ l.cells) (B := c.cells ++ behind D ++ behind C) (k := e.key)
      (v := e.value) ?_ ?_ ?_ rfl rfl,
    fun fuel hf => ⟨?_, ?_⟩⟩
  · exact ⟨hl.symm ▸ hlr.1, hr.symm ▸ hlr.2⟩
  · simp only [cells_plug, Tree.cells, Tree.join, hbefore, List.nil_append, List.append_assoc,
      List.cons_append]
  · rw [hplug]
    simp only [cells_plug, Tree.cells, Tree.join, hbefore, List.nil_append, List.append_assoc,
      List.cons_append, Node.assign_ptr, Node.assign_key, Node.assign_value]
  · have hle := length_le_cells (D ++ ⟨.right, e, l⟩ :: C) (.join .left n .nil c)
    rw [hplug] at hle
    refine Nat.lt_of_le_of_lt ?_ hf
    simpa only [List.length_append, List.length_cons, Tree.join] using hle
  · have hlen : (plug D (.join .left n .nil c)).cells.length < fuel := by
      rw [cells_plug] at hf
      simp only [Tree.cells, List.length_append, List.length_cons] at hf
      omega
    simp only [eraseImpl, htwo, hlr, and_self, ne_eq, not_false_eq_true, decide_true, if_true,
      run_getLink_bind, Optimistic.Attempt.readAll_view, hr.trans hp, run_deref_bind]
    rw [Optimistic.Program.run_bind_ok
      (hmin ((s.readAll rs).read (.child .right e.ptr)) fuel rfl hlen)]
    simp only [run_getKey_bind, run_set_bind, run_getValue_bind, Optimistic.Attempt.readAll_view,
      Optimistic.Attempt.read_view, Optimistic.Attempt.write_view, hn.key, ne_eq, reduceCtorEq,
      not_false_eq_true, Function.update_of_ne, hn.value]

/-- `erase_impl` of a node with an empty side. -/
theorem run_eraseImpl_one (h : Represents s.view (plug C (.node e l r)))
    (hlr : ¬ (l.root ≠ none ∧ r.root ≠ none)) :
    ∃ rs d c, Tree.node e l r = .join d e .nil c ∧ ¬ TwoChildren s.view e.ptr ∧
      ∀ fuel, (eraseImpl fuel e.ptr).run s = (deleteOneChild fuel e.ptr).run (s.readAll rs) := by
  obtain ⟨rs, htwo⟩ := (looks_hasTwoChildren h).run_bind
  obtain ⟨-, hl, hr, -⟩ := h.at_hole.2
  obtain ⟨d, c, hj⟩ : ∃ d c, Tree.node e l r = .join d e .nil c := by
    by_cases hln : l.root = none
    · exact ⟨.left, r, by rw [Tree.eq_nil_of_root hln]; rfl⟩
    · have hrn : r.root = none := by
        by_contra hrn
        exact hlr ⟨hln, hrn⟩
      exact ⟨.right, l, by rw [Tree.eq_nil_of_root hrn]; rfl⟩
  refine ⟨rs, d, c, hj, fun htwo => hlr ⟨hl ▸ htwo.1, hr ▸ htwo.2⟩, fun fuel => ?_⟩
  simp only [eraseImpl, htwo, hlr, decide_false, Bool.false_eq_true, if_false]

/-- `erase_impl` of any node. -/
theorem run_eraseImpl (h : Represents s.view t) (hb : Balanced t) {e : Ptr} (he : e ∈ t.ptrs) :
    ∃ s₁ C₁ d n c, Represents s₁.view (plug C₁ (.join d n .nil c)) ∧
      Balanced (plug C₁ (.join d n .nil c)) ∧ s₁.retired = s.retired ∧
      Comes s s₁ t (plug C₁ (.join d n .nil c)) e n.ptr ∧
      ∀ fuel, t.cells.length < fuel → C₁.length < fuel ∧
        (eraseImpl fuel e).run s = (deleteOneChild fuel n.ptr).run s₁ := by
  obtain ⟨C, e, l, r, rfl, rfl⟩ := exists_hole_of_mem he
  by_cases hlr : l.root ≠ none ∧ r.root ≠ none
  · obtain ⟨s₁, C₁, n, c, h₁⟩ := run_eraseImpl_two h hb hlr
    exact ⟨s₁, C₁, .left, n, c, h₁⟩
  · obtain ⟨rs, d, c, hj, hone, hrun⟩ := run_eraseImpl_one h hlr
    rw [hj] at h hb ⊢
    exact ⟨s.readAll rs, C, d, e, c, h, hb, rfl, .self rfl hone rfl rfl rfl, fun fuel hf =>
      ⟨Nat.lt_of_le_of_lt (length_le_cells ..) hf, hrun fuel⟩⟩

/-- What is left of the tree `t` after `erase_impl` of the node `e` has taken out the node `p`; the
    link to `p` has been set. -/
inductive Unlinks (m : Memory Ptr Key Value) (t t' : Tree Ptr Key Value) (e p : Ptr)
    (writes : List (Var Ptr)) : Prop where
  | self {A B : List (Ptr × Key × Value)} {k : Key} {v : Value} (node : e = p)
    (one : ¬ TwoChildren m e) (cells : t.cells = A ++ (p, k, v) :: B) (cells' : t'.cells = A ++ B)
  | next {A B : List (Ptr × Key × Value)} {k k' : Key} {v v' : Value} (two : TwoChildren m e)
    (one : ¬ TwoChildren m p) (cells : t.cells = A ++ (e, k, v) :: (p, k', v') :: B)
    (cells' : t'.cells = A ++ (e, k', v') :: B) (key : .key e ∈ writes)

namespace Comes

variable {s₁ : Attempt Ptr Key Value} {t₁ : Tree Ptr Key Value} {p q : Ptr}

theorem ptrs (h : Comes s s₁ t t₁ q p) : t₁.ptrs = t.ptrs := by
  cases h with
  | self _ _ tree => rw [tree]
  | next _ cells cells₁ => simp only [Tree.ptrs, cells, cells₁, List.map_append, List.map_cons]

theorem link (h : Comes s s₁ t t₁ q p) (l : Link Ptr) :
    s₁.view (.link l) = s.view (.link l) := by
  cases h with
  | self _ _ _ view => rw [view]
  | next _ _ _ view => simp [view]

theorem parent (h : Comes s s₁ t t₁ q p) (r : Ptr) : s₁.view (.parent r) = s.view (.parent r) := by
  cases h with
  | self _ _ _ view => rw [view]
  | next _ _ _ view => simp [view]

theorem color (h : Comes s s₁ t t₁ q p) (r : Ptr) : s₁.view (.color r) = s.view (.color r) := by
  cases h with
  | self _ _ _ view => rw [view]
  | next _ _ _ view => simp [view]

omit [DecidableEq Ptr] in
/-- The cell of a node with an empty side, between what stands before it and behind it. -/
theorem cells_split (C : Context Ptr Key Value) (d : Side) (n : Node Ptr Key Value)
    (c : Tree Ptr Key Value) : ∃ X Y, (plug C (.join d n .nil c)).cells =
      X ++ (n.ptr, n.key, n.value) :: Y ∧ before C ++ c.cells ++ behind C = X ++ Y := by
  cases d with
  | left => exact ⟨before C, c.cells ++ behind C, by simp [cells_plug, Tree.join, Tree.cells],
      by simp⟩
  | right => exact ⟨before C ++ c.cells, behind C, by simp [cells_plug, Tree.join, Tree.cells],
      by simp⟩

/-- What is left once `delete_one_child` has taken out `n`. -/
theorem unlinks {t' : Tree Ptr Key Value} {writes : List (Var Ptr)}
    (h : Comes s s₁ t (plug C (.join d n .nil c)) q n.ptr)
    (h₁ : Represents s₁.view (plug C (.join d n .nil c)))
    (ht : t'.cells = before C ++ c.cells ++ behind C) (hw : s₁.writes ⊆ writes) :
    Unlinks s.view t t' q n.ptr writes := by
  obtain ⟨X, Y, hX, hY⟩ := cells_split C d n c
  have hn := h₁.nodup
  have hone : ¬ TwoChildren s.view n.ptr := by
    have hnil := (holds_join.mp h₁.at_hole.2).2.1
    rw [h.link] at hnil
    cases d with
    | left => exact fun htwo => htwo.1 hnil
    | right => exact fun htwo => htwo.2 hnil
  cases h with
  | self node one tree _ _ => exact .self node one (tree ▸ hX) (ht.trans hY)
  | @next A B k k' v v' two cells cells₁ _ writes =>
    rw [Tree.ptrs, hX, List.map_append, List.map_cons, List.nodup_append', List.nodup_cons] at hn
    obtain ⟨-, ⟨hnY, -⟩, hdis⟩ := hn
    have e : X ++ (n.ptr, n.key, n.value) :: Y = (A ++ [(q, k', v')]) ++ (n.ptr, k', v') :: B := by
      rw [← hX, cells₁]
      simp
    have hx : (n.ptr, k', v') ∉ X := fun hx => hdis (List.mem_map_of_mem hx) List.mem_cons_self
    have hy : (n.ptr, k', v') ∉ Y := fun hy => hnY (List.mem_map_of_mem (f := fun c => c.1) hy)
    obtain ⟨rfl, -, rfl⟩ := (List.append_cons_inj_of_notMem hx hy).mp e
    refine .next two hone cells (ht.trans (hY.trans ?_)) (hw ?_)
    · simp
    · rw [writes]
      exact List.mem_cons_of_mem _ List.mem_cons_self

end Comes

/-- `erase_impl`, on any node of a balanced tree. -/
theorem eraseImpl_spec (h : Represents s.view t) (hb : Balanced t) {e : Ptr} (he : e ∈ t.ptrs) :
    ∃ s' t' p, (∀ fuel, t.cells.length < fuel → (eraseImpl fuel e).run s = .ok ((), s')) ∧
      Represents s'.view t' ∧ Balanced t' ∧ s'.retired = p :: s.retired ∧
      Unlinks s.view t t' e p s'.writes ∧
      ∀ l, s.view (.link l) = some p → Inside (fun q => q ∈ t.ptrs) (Var.link l).owner →
        .link l ∈ s'.writes := by
  obtain ⟨s₁, C₁, d, n, c, h₁, hb₁, hret₁, hcomes, hrun⟩ := run_eraseImpl h hb he
  obtain ⟨s', t', hs', herase, hlink, -⟩ := deleteOneChild_spec h₁ hb₁
  have hgrow := Optimistic.Program.run_grows (hs' (C₁.length + 1) (Nat.lt_succ_self _))
  refine ⟨s', t', n.ptr, fun fuel hf => ?_, herase.represents, herase.balanced,
    herase.retired.trans (congrArg _ hret₁), hcomes.unlinks h₁ herase.cells hgrow.writes,
    fun l hl ho => ?_⟩
  · rw [(hrun fuel hf).2, hs' fuel (hrun fuel hf).1]
  · rw [← hcomes.link] at hl
    rw [← hcomes.ptrs] at ho
    rw [h₁.link_unique (Tree.root_join ..) hl ho]
    exact hlink

/-! ## 4. The whole operation -/

omit [DecidableEq Ptr] in
theorem Tree.sorted_iff : t.Sorted compare ↔ t.pairs.Pairwise fun a b => compare b.1 a.1 = false := by
  rw [Tree.pairs, List.pairwise_map]
  rfl

theorem run_find (ho : StrictWeak compare) (h : Valid compare m t) (key : Key) :
    ∃ us, Found compare key t (t.lookup compare key) ∧
      ∀ (s : Attempt Ptr Key Value) fuel, s.view = m → t.cells.length < fuel →
        (find compare fuel key).run s = .ok (t.lookup compare key, s.readAllUntracked us) := by
  obtain ⟨us, hfound, hrun⟩ := (findFrom_spec ho h.represents.holds h.sorted :
    ∃ us, Found compare key t (t.lookup compare key) ∧ _)
  refine ⟨us ++ [.root], hfound, fun s fuel hv hf => ?_⟩
  simp only [find, run_untrackedLink_bind, hv, h.represents.root]
  refine (hrun (s.readAllUntracked [.root]) fuel hv hf).trans ?_
  rw [Optimistic.Attempt.readAllUntracked_readAllUntracked]

/-- The pair `e` is no longer there, the node `p` neither, everything else still is. -/
structure ErasedPair (t t' : Tree Ptr Key Value) (e : Key × Value) (p : Ptr) : Prop where
  pairs : ∃ front back, t.pairs = front ++ e :: back ∧ t'.pairs = front ++ back
  ptrs : t.ptrs.Perm (p :: t'.ptrs)

omit [DecidableEq Ptr] in
theorem Tree.cell_unique (hn : t.ptrs.Nodup) {x y : Ptr × Key × Value} (hx : x ∈ t.cells)
    (hy : y ∈ t.cells) (h : x.1 = y.1) : x = y := List.inj_on_of_nodup_map hn hx hy h

omit [DecidableEq Ptr] in
theorem Unlinks.erasedPair {t' : Tree Ptr Key Value} {e p : Ptr} {writes : List (Var Ptr)}
    (h : Unlinks m t t' e p writes) (hn : t.ptrs.Nodup) {x : Ptr × Key × Value} (hx : x ∈ t.cells)
    (he : x.1 = e) : ErasedPair t t' x.2 p := by
  cases h with
  | @self A B k v node _ cells cells' =>
    obtain rfl : x = (p, k, v) := t.cell_unique hn hx (by simp [cells]) (he.trans node)
    refine ⟨⟨A.map fun c => c.2, B.map fun c => c.2, ?_, ?_⟩, ?_⟩
    · simp [Tree.pairs, cells]
    · simp [Tree.pairs, cells']
    · simp [Tree.ptrs, cells, cells']
  | @next A B k k' v v' _ _ cells cells' _ =>
    obtain rfl : x = (e, k, v) := t.cell_unique hn hx (by simp [cells]) he
    refine ⟨⟨A.map fun c => c.2, ((k', v') :: B.map fun c => c.2), ?_, ?_⟩, ?_⟩
    · simp [Tree.pairs, cells]
    · simp [Tree.pairs, cells']
    · simp only [Tree.ptrs, cells, cells', List.map_append, List.map_cons]
      exact (List.Perm.append_left _ (List.Perm.swap ..)).trans List.perm_middle

omit [DecidableEq Ptr] in
/-- A tree less one pair is still in order. -/
theorem ErasedPair.sorted {t' : Tree Ptr Key Value} {e : Key × Value} {p : Ptr}
    (h : ErasedPair t t' e p) (hs : t.Sorted compare) : t'.Sorted compare := by
  obtain ⟨front, back, ht, ht'⟩ := h.pairs
  rw [Tree.sorted_iff] at hs ⊢
  rw [ht] at hs
  rw [ht']
  exact hs.sublist ((List.sublist_cons_self ..).append_left _)

/-- `erase_one` on a valid tree, node by node: it ends without a node, and has only looked, or goes
    on to take out a node of an equivalent key. -/
theorem eraseOne_spec (ho : StrictWeak compare) (h : Valid compare m t) (key : Key) :
    (∃ us, (∀ x ∈ t.cells, ¬ Equivalent compare key x.2.1) ∧
      Optimistic.Returns (fun fuel => eraseOne compare fuel key) m false
        ((Optimistic.Attempt.start m).readAllUntracked us)) ∨
    ∃ us, ∃ x ∈ t.cells, Equivalent compare key x.2.1 ∧ t.lookup compare key = some x.1 ∧ ∃ s' t' p,
      (∀ fuel, t.cells.length < fuel → (eraseImpl fuel x.1).run
        ((Optimistic.Attempt.start m).readAllUntracked us) = .ok ((), s')) ∧
      Optimistic.Returns (fun fuel => eraseOne compare fuel key) m true s' ∧
      Valid compare s'.view t' ∧ s'.retired = [p] ∧ Unlinks m t t' x.1 p s'.writes ∧
      ∀ l, m (.link l) = some p → Inside (fun q => q ∈ t.ptrs) (Var.link l).owner →
        .link l ∈ s'.writes := by
  obtain ⟨us, hfound, hfind⟩ := run_find ho h key
  generalize t.lookup compare key = o at hfound hfind ⊢
  cases hfound with
  | absent habs =>
    refine .inl ⟨us, habs, t.cells.length + 1, fun fuel hf => ?_⟩
    simp only [Optimistic.Program.attempt, eraseOne]
    rw [Optimistic.Program.run_bind_ok (hfind (.start m) fuel rfl hf)]
    rfl
  | @present x hx heq =>
    obtain ⟨s', t', p, hrun, hrep, hbal, hret, hunl, hlink⟩ := eraseImpl_spec
      (s := (Optimistic.Attempt.start m).readAllUntracked us) h.represents h.balanced
      (List.mem_map_of_mem hx)
    refine .inr ⟨us, x, hx, heq, rfl, s', t', p, hrun, ⟨t.cells.length + 1, fun fuel hf => ?_⟩,
      ⟨hrep, ?_, hbal⟩, hret, hunl, hlink⟩
    · simp only [Optimistic.Program.attempt, eraseOne]
      rw [Optimistic.Program.run_bind_ok (hfind (.start m) fuel rfl hf)]
      exact Optimistic.Program.run_bind_ok (hrun fuel hf)
    · exact (hunl.erasedPair h.represents.nodup hx rfl).sorted h.sorted

/-- **`rbtree::erase_one` is correct.** On every valid tree it ends, dereferences no null pointer,
    and leaves a valid tree on which `verify` passes. It returns whether there is an equivalent key.
    If not, nothing is written; if there is, one pair of an equivalent key is gone, and the one
    node that has been handed over for destruction is the one that is no longer in the tree. -/
theorem eraseOne_correct (ho : StrictWeak compare) (h : Valid compare m t) (key : Key) :
    ∃ found s t', Optimistic.Returns (fun fuel => eraseOne compare fuel key) m found s ∧
      Valid compare s.view t' ∧
      (found = true ↔ ∃ e ∈ t.pairs, Equivalent compare key e.1) ∧
      (found = false → s.writes = [] ∧ s.view = m ∧ t' = t ∧ s.retired = []) ∧
      (found = true → ∃ e p, Equivalent compare key e.1 ∧ ErasedPair t t' e p ∧ p ∉ t'.ptrs ∧
        s.retired = [p]) ∧
      ∀ fuel, t'.cells.length < fuel → (verify compare fuel).Looks s.view () := by
  rcases eraseOne_spec ho h key with ⟨us, habs, hret⟩ | ⟨us, x, hx, heq, -, s', t', p, -, hret,
    hv, hretired, hunl, -⟩
  · refine ⟨false, _, t, hret, h, ?_, fun _ => ⟨rfl, rfl, rfl, rfl⟩, nofun, verify_passes h⟩
    refine iff_of_false nofun ?_
    rintro ⟨e, he, heq⟩
    obtain ⟨x, hx, rfl⟩ := List.mem_map.mp he
    exact habs x hx heq
  · have hep := hunl.erasedPair h.represents.nodup hx rfl
    have hnodup := hep.ptrs.nodup_iff.mp h.represents.nodup
    exact ⟨true, s', t', hret, hv, iff_of_true rfl ⟨x.2, List.mem_map_of_mem hx, heq⟩, nofun,
      fun _ => ⟨x.2, p, heq, hep, (List.nodup_cons.mp hnodup).1, hretired⟩, verify_passes hv⟩

/-- The root goes; its key was there. -/
theorem eraseOne_correct_root :
    ∃ s t', Optimistic.Returns (fun fuel => eraseOne less fuel 4) (memoryOf threeNodes) true s ∧
      Valid less s.view t' := by
  obtain ⟨found, s, t', hret, hv, hiff, -⟩ :=
    eraseOne_correct less_strictWeak threeNodes_valid 4
  obtain rfl := hiff.mpr ⟨(4, 40), by decide, by simp [Equivalent, less]⟩
  exact ⟨s, t', hret, hv⟩

end Rbtree

end LockfreeStm
