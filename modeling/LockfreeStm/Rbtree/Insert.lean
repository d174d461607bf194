/-
  File:      LockfreeStm/Rbtree/Insert.lean
  Subject:   THE INSERTION FIX-UP restores the color rules.

  `insert_case1` runs on a red node that may hang from a red parent. Each of the five cases is run
  once, at a hole of the represented tree; `insertCase1_repairs` is the induction up the context.
-/
import LockfreeStm.Rbtree.Rotation
import LockfreeStm.Rbtree.Balance

namespace LockfreeStm

namespace Rbtree

variable {Ptr Key Value : Type} [DecidableEq Ptr] {s : Attempt Ptr Key Value}
  {C : Context Ptr Key Value} {f fp fg : Frame Ptr Key Value} {t u x : Tree Ptr Key Value}
  {p g : Node Ptr Key Value} {d : Side} {n : Ptr}

/-! ## 1. Relatives -/

theorem looks_grandparent {m : Memory Ptr Key Value} (h : Represents m (plug (fp :: C) t))
    (ht : t.root = some n) : (grandparent (some n)).Looks m (top C) := by
  refine looks_getParent.bind ?_
  rw [h.parent ht, ← h.frame.1.parent]
  exact looks_getParent

/-- The parent's sibling. -/
theorem looks_uncle {m : Memory Ptr Key Value} (h : Represents m (plug (fp :: fg :: C) t))
    (ht : t.root = some n) : (uncle n).Looks m fg.other.root := by
  have hp := Represents.frame (f := fg) (C := C) (t := fp.fill t) h
  have ho : some fp.node.ptr ≠ fg.other.root := fun e =>
    (nodup_fill (nodup_of_plug (C := C) (t := fg.fill (fp.fill t)) h.nodup)).2.2 fp.node.ptr
      (mem_ptrs_fill.mpr (.inl rfl)) (Tree.mem_ptrs_of_root e.symm)
  have hl : m (.child fg.side fg.node.ptr) = some fp.node.ptr := hp.2.1.trans (Tree.root_join ..)
  have hr : m (.child fg.side.other fg.node.ptr) = fg.other.root := hp.2.2.1
  have hn : m (.parent n) = some fp.node.ptr := h.parent ht
  obtain ⟨side, g, u⟩ := fg
  refine (looks_grandparent h ht).bind (looks_getLink.bind (looks_getParent.bind ?_))
  rw [hn]
  cases side with
  | left =>
    have hl : m (.child .left g.ptr) = some fp.node.ptr := hl
    rw [if_pos hl.symm, show u.root = m (.child .right g.ptr) from hr.symm]
    exact looks_getLink
  | right =>
    have hr : m (.child .left g.ptr) = u.root := hr
    rw [hr, if_neg ho]
    exact .pure _

/-! ## 2. The last two cases -/

theorem run_rotateParentUp (h : Represents s.view (plug (⟨d, p, x⟩ :: ⟨d, g, u⟩ :: C) t))
    (ht : t.root = some n) :
    ∃ s', (rotateParentUp n g.ptr).run s = .ok ((), s') ∧
      Represents s'.view (plug C (.join d p t (.join d g x u))) ∧ s'.retired = s.retired ∧
      .child d g.ptr ∈ s'.reads ∧
      Keeps s'.writes (plug (⟨d, p, x⟩ :: ⟨d, g, u⟩ :: C) t) (plug C (.join d p t (.join d g x u))) := by
  have hl := child_eq_root (f := ⟨d, p, x⟩) h ht .left
  have hr : Represents s.view (plug C (.join d.other g u (.join d.other p x t))) := by
    rw [Tree.join_other, Tree.join_other]
    exact h
  have hd : (if some n = s.view (.child .left p.ptr) then rotateRight g.ptr else rotateLeft g.ptr :
      Program Ptr Key Value Unit) = rotate d.other g.ptr := by
    cases d
    · rw [if_pos (hl.mpr rfl).symm]
      rfl
    · rw [if_neg fun e => absurd (hl.mp e.symm) (by decide : ¬ Side.right = .left)]
      rfl
  simp only [rotateParentUp, run_getParent_bind, h.parent ht, top, run_deref_bind,
    run_getLink_bind, Optimistic.Attempt.read_view, hd]
  refine ⟨_, run_rotate (s := (s.read _).read _) hr, ?_, ?_, ?_, ?_⟩
  · have := rotated_represents (s := (s.read (.parent n)).read (.child .left p.ptr)) hr
    rwa [Tree.join_other, Tree.join_other] at this
  · simp [rotated]
  · have := rotated_reads (d := d.other) (C := C)
      (s := (s.read (.parent n)).read (.child .left p.ptr)) g.ptr p.ptr
    rwa [Side.other_other] at this
  · have := rotated_keeps (s := (s.read (.parent n)).read (.child .left p.ptr)) hr
    rwa [Tree.join_other, Tree.join_other, Tree.join_other, Tree.join_other] at this

/-- `insert_case5`: the parent goes up, and the grandparent becomes its red child. -/
theorem run_insertCase5 (h : Represents s.view (plug (⟨d, p, x⟩ :: ⟨d, g, u⟩ :: C) t))
    (ht : t.root = some n) :
    ∃ s', (insertCase5 n).run s = .ok ((), s') ∧
      Represents s'.view (plug C (.join d (p.paint .black) t (.join d (g.paint .red) x u))) ∧
      s'.retired = s.retired ∧ .child d g.ptr ∈ s'.reads ∧
      Keeps s'.writes (plug (⟨d, p, x⟩ :: ⟨d, g, u⟩ :: C) t)
        (plug C (.join d (p.paint .black) t (.join d (g.paint .red) x u))) := by
  have hp : Represents (Function.update s.view (.color p.ptr) .black)
      (plug (⟨d, g, u⟩ :: C) (.join d (p.paint .black) t x)) :=
    Represents.paint (C := ⟨d, g, u⟩ :: C) h .black
  have hc : Represents
      (Function.update (Function.update s.view (.color p.ptr) .black) (.color g.ptr) .red)
      (plug (⟨d, p.paint .black, x⟩ :: ⟨d, g.paint .red, u⟩ :: C) t) :=
    Represents.paint (C := C) hp .red
  obtain ⟨rs, hg⟩ := (looks_grandparent h ht).run_bind
  simp only [insertCase5, hg, top, run_getParent_bind, Optimistic.Attempt.readAll_view, h.parent ht,
    run_deref_bind, run_set_bind]
  obtain ⟨s', hs', hrep, hret, hread, hkeep⟩ :=
    run_rotateParentUp (s := (((s.readAll rs).read (.parent n)).write (.color p.ptr) .black).write
      (.color g.ptr) .red) (p := p.paint .black) (g := g.paint .red) (x := x) (u := u) hc ht
  refine ⟨s', hs', hrep, hret, hread, Keeps.source (C := C) hkeep fun q r hb => ?_⟩
  simpa [Frame.fill, Tree.mem_ptrs_join] using hb

/-! ## 3. The inner child -/

/-- The test of `insert_case4`. -/
theorem looks_isInner {m : Memory Ptr Key Value} (h : Represents m (plug (fp :: fg :: C) t))
    (ht : t.root = some n) (d : Side) :
    (isInner d (some fg.node.ptr) n).Looks m (decide (fp.side = d.other ∧ fg.side = d)) := by
  have hc := child_eq_root h ht d.other
  have hg := child_eq_root (f := fg) (C := C) (t := fp.fill t) h (n := fp.node.ptr)
    (Tree.root_join ..) d
  have hn : m (.parent n) = some fp.node.ptr := h.parent ht
  refine looks_getParent.bind ?_
  rw [hn]
  refine looks_deref.bind (looks_getLink.bind ?_)
  by_cases hs : fp.side = d.other
  · rw [if_pos (hc.mpr hs).symm]
    refine looks_getParent.bind (looks_deref.bind (looks_getLink.bind ?_))
    rw [hn, show decide (fp.side = d.other ∧ fg.side = d) =
      decide (some fp.node.ptr = m (.child d fg.node.ptr)) by simp [hs, ← hg, eq_comm]]
    exact .pure _
  · rw [if_neg fun e => hs (hc.mp e.symm), decide_eq_false fun e => hs e.1]
    exact .pure _

/-- The rotation in `insert_case4`. -/
theorem run_insertCase4Rotate {q : Node Ptr Key Value} {b c : Tree Ptr Key Value}
    (h : Represents s.view (plug (⟨d, g, u⟩ :: C) (.join d p x (.join d q b c)))) :
    ∃ s', (insertCase4Rotate d (some g.ptr) q.ptr).run s = .ok (p.ptr, s') ∧
      Represents s'.view (plug (⟨d, g, u⟩ :: C) (.join d q (.join d p x b) c)) ∧
      s'.retired = s.retired ∧
      Keeps s'.writes (plug (⟨d, g, u⟩ :: C) (.join d p x (.join d q b c)))
        (plug (⟨d, g, u⟩ :: C) (.join d q (.join d p x b) c)) := by
  obtain ⟨hpq, hp, hq, hb, hbn⟩ := nodup_rotate (nodup_of_plug (C := ⟨d, g, u⟩ :: C) h.nodup)
  obtain ⟨hl, hh⟩ := h.at_hole
  have hs := Represents.slot_owner (C := ⟨d, g, u⟩ :: C) h.nodup
  rw [holds_join, holds_join] at hh
  obtain ⟨hip, hpx, -, hhx, hiq, hqb, hqc, hhb, hhc⟩ := hh
  have hc : (Tree.join d q (.join d p x b) c).cells = (Tree.join d p x (.join d q b c)).cells :=
    Tree.cells_rotate
  have hg : s.view (.child d g.ptr) = some p.ptr := hl.trans (Tree.root_join ..)
  have hgo : g.ptr ∉ (Tree.join d p x (.join d q b c)).ptrs := fun e => hs _ e rfl
  simp only [Tree.mem_ptrs_join, not_or] at hgo
  obtain ⟨hgp, hgx, hgq, hgb, hgc⟩ := hgo
  simp only [insertCase4Rotate, run_deref_bind, run_getLink_bind, Optimistic.Attempt.read_view,
    run_set_bind, hg, hqb, run_setParentOf_bind]
  have hkeep : ∀ w, .child d.other p.ptr ∈ w → .child d q.ptr ∈ w →
      Keeps w (plug (⟨d, g, u⟩ :: C) (.join d p x (.join d q b c)))
        (plug (⟨d, g, u⟩ :: C) (.join d q (.join d p x b) c)) := fun w hwp hwq =>
    Keeps.plug (.rotate hwp hwq) (fun r hr => by rwa [Tree.ptrs, hc] at hr) _ h.nodup
  refine ⟨_, rfl, ?_, by simp, hkeep _ (by simp [reparented_writes]) (by simp [reparented_writes])⟩
  refine Represents.replace (C := ⟨d, g, u⟩ :: C) h ?_ ?_ ?_ ?_
  · have hmp : p.ptr ∈ (Tree.join d p x (.join d q b c)).ptrs := by simp [Tree.mem_ptrs_join]
    have hmq : q.ptr ∈ (Tree.join d p x (.join d q b c)).ptrs := by simp [Tree.mem_ptrs_join]
    have hmb : ∀ r, b.root = some r → r ∈ (Tree.join d p x (.join d q b c)).ptrs := fun r hr => by
      simp [Tree.mem_ptrs_join, Tree.mem_ptrs_of_root hr]
    simp only [Optimistic.Attempt.write_view, reparented_view, Optimistic.Attempt.read_view]
    exact (((((ChangedAt.refl.update_link.update rfl hmq).update rfl hmq).update rfl hmp).update rfl
      hmp).reparent hmb)
  · simp [slot, hgp, hgq]
  · have hba : Outside b.root x := fun r hr => (hb r (Tree.mem_ptrs_of_root hr)).1
    have hbc : Outside b.root c := fun r hr => (hb r (Tree.mem_ptrs_of_root hr)).2
    have hbp : b.root ≠ some p.ptr := fun e => hp.2.1 (Tree.mem_ptrs_of_root e)
    have hbq : b.root ≠ some q.ptr := fun e => hq.2.1 (Tree.mem_ptrs_of_root e)
    rw [holds_join, holds_join]
    simp only [Node.in_iff]
    simp [hpq, hpq.symm, hp, hq, hba, hbc, hbp, hbq, hgx, hgc, Ne.symm hgp]
    exact ⟨⟨rfl, hiq.color, hiq.key, hiq.value⟩, hqc,
      ⟨⟨hip.color, hip.key, hip.value⟩, hpx, hhx,
        Holds.reparent (show Holds _ (some q.ptr) b by simpa [hp, hq, hgb] using hhb) hbn _⟩, hhc⟩
  · rw [Tree.ptrs, cells_plug_congr _ hc]
    exact h.nodup

/-- `insert_case4` on an outer child. -/
theorem run_insertCase4_outer (h : Represents s.view (plug (⟨d, p, x⟩ :: ⟨d, g, u⟩ :: C) t))
    (ht : t.root = some n) :
    ∃ s', (insertCase4 n).run s = .ok ((), s') ∧
      Represents s'.view (plug C (.join d (p.paint .black) t (.join d (g.paint .red) x u))) ∧
      s'.retired = s.retired ∧ .child d g.ptr ∈ s'.reads ∧
      Keeps s'.writes (plug (⟨d, p, x⟩ :: ⟨d, g, u⟩ :: C) t)
        (plug C (.join d (p.paint .black) t (.join d (g.paint .red) x u))) := by
  have hl : ¬ (d = Side.left.other ∧ d = .left) := fun e => absurd (e.1.symm.trans e.2) (by decide)
  have hr : ¬ (d = Side.right.other ∧ d = .right) := fun e => absurd (e.1.symm.trans e.2) (by decide)
  obtain ⟨rs₁, h₁⟩ := (looks_grandparent h ht).run_bind
  obtain ⟨rs₂, h₂⟩ := (looks_isInner (m := (s.readAll rs₁).view) h ht .left).run_bind
  obtain ⟨rs₃, h₃⟩ := (looks_isInner (m := ((s.readAll rs₁).readAll rs₂).view) h ht .right).run_bind
  obtain ⟨s', hs', hrest⟩ := run_insertCase5 (s := ((s.readAll rs₁).readAll rs₂).readAll rs₃) h ht
  refine ⟨s', ?_, hrest⟩
  simp only [insertCase4, h₁, top, h₂, hl, decide_false, Bool.false_eq_true, if_false, h₃, hr, hs']

/-- `insert_case4` on an inner child. -/
theorem run_insertCase4_inner {q : Node Ptr Key Value} {b c : Tree Ptr Key Value}
    (h : Represents s.view (plug (⟨d.other, p, x⟩ :: ⟨d, g, u⟩ :: C) (.join d q b c))) :
    ∃ s', (insertCase4 q.ptr).run s = .ok ((), s') ∧
      Represents s'.view (plug C (.join d (q.paint .black) (.join d p x b)
        (.join d (g.paint .red) c u))) ∧
      s'.retired = s.retired ∧ .child d g.ptr ∈ s'.reads ∧
      Keeps s'.writes (plug (⟨d.other, p, x⟩ :: ⟨d, g, u⟩ :: C) (.join d q b c))
        (plug C (.join d (q.paint .black) (.join d p x b) (.join d (g.paint .red) c u))) := by
  have ht : (Tree.join d q b c).root = some q.ptr := Tree.root_join ..
  have h' : Represents s.view (plug (⟨d, g, u⟩ :: C) (.join d p x (.join d q b c))) := by
    rw [← Tree.join_other (n := p)]
    exact h
  obtain ⟨rs₁, h₁⟩ := (looks_grandparent h ht).run_bind
  obtain ⟨rs₂, h₂⟩ := (looks_isInner (m := (s.readAll rs₁).view) h ht .left).run_bind
  -- the two rotations keep what each of them keeps
  have hkeeps : ∀ {s₁ s' : Attempt Ptr Key Value}, s₁.Grows s' →
      Keeps s₁.writes (plug (⟨d, g, u⟩ :: C) (.join d p x (.join d q b c)))
        (plug (⟨d, g, u⟩ :: C) (.join d q (.join d p x b) c)) →
      Keeps s'.writes (plug (⟨d, q, c⟩ :: ⟨d, g, u⟩ :: C) (.join d p x b))
        (plug C (.join d (q.paint .black) (.join d p x b) (.join d (g.paint .red) c u))) →
      Keeps s'.writes (plug (⟨d.other, p, x⟩ :: ⟨d, g, u⟩ :: C) (.join d q b c))
        (plug C (.join d (q.paint .black) (.join d p x b) (.join d (g.paint .red) c u))) := by
    intro s₁ s' hgrow h₁ h₂
    rw [plug_other]
    refine (h₁.mono hgrow.writes).trans h₂ fun r hr => ?_
    rw [Tree.ptrs, cells_plug_congr (t := .join d g (.join d q (.join d p x b) c) u) C
      (by cases d <;> simp [Tree.join, Tree.cells])] at hr
    exact hr
  simp only [insertCase4, h₁, top, h₂]
  cases d with
  | left =>
    obtain ⟨s₃, hs₃, hrep₃, hr₃, hk₃⟩ := run_insertCase4Rotate (s := (s.readAll rs₁).readAll rs₂) h'
    obtain ⟨s', hs', hrep, hret, hread, hk⟩ := run_insertCase5 (p := q) (x := c)
      (t := .join .left p x b) hrep₃ (Tree.root_join ..)
    refine ⟨s', ?_, hrep, hret.trans hr₃, hread, hkeeps (Optimistic.Program.run_grows hs') hk₃ hk⟩
    simp only [Side.other, and_self, decide_true, if_true, Optimistic.Program.run_bind_ok hs₃, hs']
  | right =>
    obtain ⟨rs₃, h₃⟩ :=
      (looks_isInner (m := ((s.readAll rs₁).readAll rs₂).view) h ht .right).run_bind
    obtain ⟨s₄, hs₄, hrep₄, hr₄, hk₄⟩ := run_insertCase4Rotate
      (s := ((s.readAll rs₁).readAll rs₂).readAll rs₃) h'
    obtain ⟨s', hs', hrep, hret, hread, hk⟩ := run_insertCase5 (p := q) (x := c)
      (t := .join .right p x b) hrep₄ (Tree.root_join ..)
    refine ⟨s', ?_, hrep, hret.trans hr₄, hread, hkeeps (Optimistic.Program.run_grows hs') hk₄ hk⟩
    simp only [Side.other, reduceCtorEq, decide_false, Bool.false_eq_true, if_false, h₃, and_self,
      decide_true, if_true, Optimistic.Program.run_bind_ok hs₄, hs']

/-! ## 4. The colors -/

section Colors

variable {v : Tree Ptr Key Value} {k : Nat}

omit [DecidableEq Ptr] in
theorem balanced_outer (hb : Balanced (plug (⟨d, p, x⟩ :: ⟨d, g, u⟩ :: C) v))
    (hv : v.BlackHeight k) (ht : t.BlackHeight k) (hn : t.NoRedRed) (hp : p.color = .red)
    (hu : u.color = .black) :
    Balanced (plug C (.join d (p.paint .black) t (.join d (g.paint .red) x u))) := by
  obtain ⟨-, ⟨hxc, hxn, hxk⟩, ⟨hun, huk⟩, hk⟩ := hb.around_red hv hp
  refine Balanced.replace (C := C) hb hk ?_ ?_ fun h => absurd h (by simp)
  · exact (blackHeight_join_black rfl).mpr ⟨ht, (blackHeight_join_red rfl).mpr ⟨hxk, huk⟩⟩
  · exact (noRedRed_join_black rfl).mpr ⟨hn, (noRedRed_join_red rfl).mpr ⟨⟨hxc, hu⟩, hxn, hun⟩⟩

omit [DecidableEq Ptr] in
theorem balanced_inner {q : Node Ptr Key Value} {b c : Tree Ptr Key Value}
    (hb : Balanced (plug (⟨d.other, p, x⟩ :: ⟨d, g, u⟩ :: C) v)) (hv : v.BlackHeight k)
    (ht : (Tree.join d q b c).BlackHeight k) (hn : (Tree.join d q b c).NoRedRed)
    (hq : q.color = .red) (hp : p.color = .red) (hu : u.color = .black) :
    Balanced (plug C (.join d (q.paint .black) (.join d p x b) (.join d (g.paint .red) c u))) := by
  obtain ⟨-, ⟨hxc, hxn, hxk⟩, ⟨hun, huk⟩, hk⟩ := hb.around_red hv hp
  obtain ⟨hbk, hck⟩ := (blackHeight_join_red hq).mp ht
  obtain ⟨⟨hbc, hcc⟩, hbn, hcn⟩ := (noRedRed_join_red hq).mp hn
  refine Balanced.replace (C := C) hb hk ?_ ?_ fun h => absurd h (by simp)
  · exact (blackHeight_join_black rfl).mpr
      ⟨(blackHeight_join_red hp).mpr ⟨hxk, hbk⟩, (blackHeight_join_red rfl).mpr ⟨hck, huk⟩⟩
  · exact (noRedRed_join_black rfl).mpr
      ⟨(noRedRed_join_red hp).mpr ⟨⟨hxc, hbc⟩, hxn, hbn⟩,
        (noRedRed_join_red rfl).mpr ⟨⟨hcc, hu⟩, hcn, hun⟩⟩

end Colors

/-- The fix-up has ended with a balanced tree of the same cells. -/
structure Repairs (s s' : Attempt Ptr Key Value) (t t' : Tree Ptr Key Value) : Prop where
  represents : Represents s'.view t'
  cells : t'.cells = t.cells
  balanced : Balanced t'
  retired : s'.retired = s.retired
  keeps : Keeps s'.writes t t'

/-- `insert_case4` repairs the tree when the uncle is black. It reads the link to the parent. -/
theorem insertCase4_repairs (h : Represents s.view (plug (fp :: fg :: C) t))
    (ht : t.root = some n) (hb : Balanced (plug (fp :: fg :: C) u)) {k : Nat}
    (hu : u.BlackHeight k) (hk : t.BlackHeight k) (hn : t.NoRedRed) (hr : t.color = .red)
    (hp : fp.node.color = .red) (hc : fg.other.color = .black) :
    ∃ s' t', (insertCase4 n).run s = .ok ((), s') ∧
      Repairs s s' (plug (fp :: fg :: C) t) t' ∧ .child fg.side fg.node.ptr ∈ s'.reads := by
  obtain ⟨dp, p, x⟩ := fp
  obtain ⟨d, g, v⟩ := fg
  by_cases hd : dp = d
  · subst hd
    obtain ⟨s', hs', hrep, hret, hread, hkeep⟩ := run_insertCase4_outer h ht
    refine ⟨s', _, hs', ⟨hrep, ?_, balanced_outer hb hu hk hn hp hc, hret, hkeep⟩, hread⟩
    refine cells_plug_congr (t := .join dp g (.join dp p t x) v) C ?_
    cases dp <;> simp [Tree.join, Tree.cells]
  · obtain rfl : dp = d.other := (Side.other_eq_of_ne (Ne.symm hd)).symm
    obtain ⟨q, b, c, rfl, rfl⟩ := Tree.exists_join ht d
    obtain ⟨s', hs', hrep, hret, hread, hkeep⟩ := run_insertCase4_inner h
    refine ⟨s', _, hs', ⟨hrep, ?_,
      balanced_inner hb hu hk hn ((Tree.color_join ..).symm.trans hr) hp hc, hret, hkeep⟩, hread⟩
    refine cells_plug_congr (t := .join d g (.join d.other p (.join d q b c) x) v) C ?_
    cases d <;> simp [Tree.join, Tree.cells, Side.other]

/-! ## 5. The way up -/

theorem looks_isRed {m : Memory Ptr Key Value} {par : Option Ptr} (h : Holds m par t) :
    (insertCase3.isRed t.root).Looks m (decide (t.color = .red)) := by
  cases t with
  | nil => exact .pure _
  | node q l r =>
    refine looks_getColor.bind ?_
    rw [show (Tree.node q l r).color = m (.color q.ptr) from h.1.color.symm]
    exact .pure _

/-- `insert_case3` beside a red uncle: it recolors and goes on with the grandparent. -/
theorem run_insertCase3_red {q : Node Ptr Key Value} {b c : Tree Ptr Key Value} {dp : Side}
    (h : Represents s.view (plug (⟨dp, p, x⟩ :: ⟨d, g, .join .left q b c⟩ :: C) t))
    (ht : t.root = some n) (hq : q.color = .red) :
    ∃ s', (∀ case1 : Ptr → Program Ptr Key Value Unit,
        (insertCase3 case1 n).run s = (case1 g.ptr).run s') ∧
      Represents s'.view (plug C (.join d (g.paint .red) (.join dp (p.paint .black) t x)
        (.join .left (q.paint .black) b c))) ∧
      s'.retired = s.retired := by
  obtain ⟨rs₁, h₁⟩ := (looks_uncle h ht).run_bind
  obtain ⟨rs₂, h₂⟩ := (looks_isRed (m := (s.readAll rs₁).view) (t := .join .left q b c)
    (Represents.frame (f := ⟨d, g, _⟩) (C := C) (t := .join dp p t x) h).2.2.2.2).run_bind
  rw [Tree.color_join, hq] at h₂
  have hp : Represents (Function.update s.view (.color p.ptr) .black)
      (plug (⟨d, g, .join .left q b c⟩ :: C) (.join dp (p.paint .black) t x)) :=
    Represents.paint (C := ⟨d, g, .join .left q b c⟩ :: C) h .black
  have hqb : Represents
      (Function.update (Function.update s.view (.color p.ptr) .black) (.color q.ptr) .black)
      (plug (⟨d.other, g, .join dp (p.paint .black) t x⟩ :: C)
        (.join .left (q.paint .black) b c)) := by
    refine Represents.paint ?_ .black
    show Represents _ (plug C (.join d.other g _ _))
    rw [Tree.join_other]
    exact hp
  rw [show plug (⟨d.other, g, .join dp (p.paint .black) t x⟩ :: C)
    (.join .left (q.paint .black) b c) = plug C (.join d g (.join dp (p.paint .black) t x)
      (.join .left (q.paint .black) b c)) from congrArg (plug C) (Tree.join_other ..)] at hqb
  have hg := hqb.paint .red
  have hnp := Represents.parent (C := ⟨dp, p, x⟩ :: ⟨d, g, .join .left q b c⟩ :: C) h ht
  have hpg := (Represents.frame (f := ⟨dp, p, x⟩) h).1.parent
  apply Exists.intro
  constructor
  · intro case1
    simp only [insertCase3, h₁, h₂]
    simp [grandparent, hnp, hpg, top, Optimistic.Program.bind_assoc]
    rfl
  · exact ⟨hg, rfl⟩

omit [DecidableEq Ptr] in
/-- The recolored subtree is as high as the old one and breaks no rule below its red root. -/
theorem recolored_rules {q : Node Ptr Key Value} {b c v : Tree Ptr Key Value} {dp : Side} {k : Nat}
    (hb : Balanced (plug (⟨dp, p, x⟩ :: ⟨d, g, .join .left q b c⟩ :: C) v))
    (hv : v.BlackHeight k) (ht : t.BlackHeight k) (hn : t.NoRedRed) (hp : p.color = .red)
    (hq : q.color = .red) :
    (Tree.join d (g.paint .red) (.join dp (p.paint .black) t x)
        (.join .left (q.paint .black) b c)).BlackHeight (k + 1) ∧
      (Tree.join d (g.paint .red) (.join dp (p.paint .black) t x)
        (.join .left (q.paint .black) b c)).NoRedRed := by
  obtain ⟨-, ⟨-, hxn, hxk⟩, ⟨hqn, hqk⟩, -⟩ := hb.around_red hv hp
  obtain ⟨hbk, hck⟩ := (blackHeight_join_red (d := .left) hq).mp hqk
  obtain ⟨-, hbn, hcn⟩ := (noRedRed_join_red (d := .left) hq).mp hqn
  refine ⟨(blackHeight_join_red rfl).mpr ⟨(blackHeight_join_black rfl).mpr ⟨ht, hxk⟩,
    (blackHeight_join_black rfl).mpr ⟨hbk, hck⟩⟩, (noRedRed_join_red rfl).mpr ⟨?_, ?_, ?_⟩⟩
  · exact ⟨Tree.color_join .., Tree.color_join ..⟩
  · exact (noRedRed_join_black rfl).mpr ⟨hn, hxn⟩
  · exact (noRedRed_join_black rfl).mpr ⟨hbn, hcn⟩

/-- `insert_case3` beside a black uncle leaves the work to `insert_case4`. -/
theorem run_insertCase3_black (h : Represents s.view (plug (fp :: fg :: C) t))
    (ht : t.root = some n) (hc : fg.other.color = .black) :
    ∃ rs, ∀ case1 : Ptr → Program Ptr Key Value Unit,
      (insertCase3 case1 n).run s = (insertCase4 n).run (s.readAll rs) := by
  obtain ⟨rs₁, h₁⟩ := (looks_uncle h ht).run_bind
  obtain ⟨rs₂, h₂⟩ := (looks_isRed (m := (s.readAll rs₁).view) (t := fg.other)
    (Represents.frame (C := C) (t := fp.fill t) h).2.2.2.2).run_bind
  rw [hc] at h₂
  refine ⟨rs₂ ++ rs₁, fun case1 => ?_⟩
  simp [insertCase3, h₁, h₂]

/-- `insert_case1` below a black node has nothing to repair. -/
theorem run_insertCase1_black (h : Represents s.view (plug (fp :: C) t)) (ht : t.root = some n)
    (hp : fp.node.color = .black) (fuel : Nat) :
    (insertCase1 (fuel + 1) n).run s =
      .ok ((), ((s.read (.parent n)).read (.parent n)).read (.color fp.node.ptr)) := by
  have hcol : s.view (.color fp.node.ptr) = .black := h.frame.1.color.trans hp
  simp [insertCase1, insertCase2, h.parent ht, top, hcol]

/-- `insert_case1` below a red node comes to `insert_case3`. -/
theorem run_insertCase1_red (h : Represents s.view (plug (fp :: C) t)) (ht : t.root = some n)
    (hp : fp.node.color = .red) (fuel : Nat) :
    (insertCase1 (fuel + 1) n).run s = (insertCase3 (insertCase1 fuel) n).run
      (((s.read (.parent n)).read (.parent n)).read (.color fp.node.ptr)) := by
  have hcol : s.view (.color fp.node.ptr) = .red := h.frame.1.color.trans hp
  simp [insertCase1, insertCase2, h.parent ht, top, hcol]

/-- **The insertion fix-up.** The tree would be balanced with `u` in place of the red subtree `t`;
    `insert_case1` on `t`'s root makes it so. It goes up two levels at a time. -/
theorem insertCase1_repairs {k : Nat} (h : Represents s.view (plug C t)) (ht : t.root = some n)
    (hb : Balanced (plug C u)) (hu : u.BlackHeight k) (hk : t.BlackHeight k) (hn : t.NoRedRed)
    (hr : t.color = .red) :
    ∃ s' t', (∀ fuel, C.length < fuel → (insertCase1 fuel n).run s = .ok ((), s')) ∧
      Repairs s s' (plug C t) t' := by
  induction hlen : C.length using Nat.strongRecOn generalizing C s t u n k with
  | ind len ih =>
  have hpar := h.parent ht
  cases C with
  | nil =>
    -- the root turns black
    obtain ⟨m, a, b, rfl, rfl⟩ := Tree.exists_join ht .left
    refine ⟨(s.read (.parent m.ptr)).write (.color m.ptr) .black, .join .left (m.paint .black) a b,
      fun fuel hf => ?_, ?_, Tree.cells_paint .black, ⟨Tree.color_join .., ?_, ?_⟩, rfl,
      ?_⟩
    · cases fuel with
      | zero => omega
      | succ fuel => simp [insertCase1, hpar, top]
    · exact Represents.paint (C := []) h .black
    · exact (noRedRed_join_black rfl).mpr ((noRedRed_join_red ((Tree.color_join ..).symm.trans hr)).mp hn).2
    · exact ⟨k + 1, (blackHeight_join_black rfl).mpr
        ((blackHeight_join_red ((Tree.color_join ..).symm.trans hr)).mp hk)⟩
    · refine Keeps.source (C := []) (.refl _ (plug [] (.join .left (m.paint .black) a b))) fun _ _ hb => ?_
      simpa using hb
  | cons fp C =>
    by_cases hp : fp.node.color = .red
    · cases C with
      | nil => exact absurd (Balanced.parentColor_of_red (C := []) (u := fp.fill u) hb
          (color_fill.trans hp)) (by decide : ¬ Color.red = .black)
      | cons fg C =>
        have hstep := run_insertCase1_red h ht hp
        by_cases hc : fg.other.color = .red
        · obtain ⟨dp, p, x⟩ := fp
          obtain ⟨d, g, w⟩ := fg
          obtain ⟨q, b, c, rfl⟩ : ∃ q b c, w = .join .left q b c := by
            cases w with
            | nil => exact absurd hc (by decide : ¬ Color.black = .red)
            | node q b c => exact ⟨q, b, c, rfl⟩
          have hq : q.color = .red := (Tree.color_join .left q b c).symm.trans hc
          obtain ⟨s₁, hs₁, hrep₁, hret₁⟩ := run_insertCase3_red
            (s := ((s.read (.parent n)).read (.parent n)).read (.color p.ptr)) h ht hq
          obtain ⟨hk', hn'⟩ := recolored_rules hb hu hk hn hp hq
          obtain ⟨s', t', hs', hrep⟩ := ih C.length (by simp only [List.length_cons] at hlen; omega) hrep₁
            (Tree.root_join ..) (u := Tree.join d g (Tree.join dp p u x) (Tree.join .left q b c)) hb
            (hb.around_red hu hp).2.2.2 hk' hn' (Tree.color_join ..) rfl
          refine ⟨s', t', fun fuel hf => ?_, hrep.represents, hrep.cells.trans ?_, hrep.balanced,
            hrep.retired.trans hret₁, Keeps.source (C := C) hrep.keeps fun x' y' hb => ?_⟩
          · cases fuel with
            | zero => omega
            | succ fuel =>
              rw [hstep, hs₁]
              exact hs' fuel (by simp only [List.length_cons] at hlen; omega)
          · refine cells_plug_congr
              (t := .join d g (.join dp p t x) (.join .left q b c)) C ?_
            cases d <;> cases dp <;> simp [Tree.join, Tree.cells]
          · simpa [Frame.fill, Tree.mem_ptrs_join] using hb
        · obtain ⟨rs, hs₁⟩ := run_insertCase3_black
            (s := ((s.read (.parent n)).read (.parent n)).read (.color fp.node.ptr)) h ht
            (color_eq_black_of_ne hc)
          obtain ⟨s', t', hs', hrep, -⟩ := insertCase4_repairs
            (s := (((s.read (.parent n)).read (.parent n)).read (.color fp.node.ptr)).readAll rs) h ht
            hb hu hk hn hr hp (color_eq_black_of_ne hc)
          refine ⟨s', t', fun fuel hf => ?_, hrep.represents, hrep.cells, hrep.balanced,
            hrep.retired, hrep.keeps⟩
          cases fuel with
          | zero => omega
          | succ fuel => rw [hstep, hs₁, hs']
    · -- a black parent: nothing to repair
      refine ⟨((s.read (.parent n)).read (.parent n)).read (.color fp.node.ptr), plug (fp :: C) t,
        fun fuel hf => ?_, h, rfl, ?_, rfl, .refl _ _⟩
      · cases fuel with
        | zero => omega
        | succ fuel => exact run_insertCase1_black h ht (color_eq_black_of_ne hp) fuel
      · exact Balanced.replace (C := fp :: C) hb hu hk hn fun _ => color_eq_black_of_ne hp

end Rbtree

end LockfreeStm
