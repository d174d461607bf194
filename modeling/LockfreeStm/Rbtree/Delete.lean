/-
  File:      LockfreeStm/Rbtree/Delete.lean
  Subject:   THE DELETION FIX-UP restores the color rules.

  `delete_case1` runs on a subtree, possibly empty, that carries one black node too few. The cases
  are run at the hole of that subtree: the sibling is never null there, nor is the nephew that case
  6 colors. `deleteCase1_repairs` is the induction up the context.
-/
import LockfreeStm.Rbtree.Insert
import LockfreeStm.Rbtree.Valid

namespace LockfreeStm

namespace Rbtree

variable {Ptr Key Value : Type} [DecidableEq Ptr] {s : Attempt Ptr Key Value}
  {m : Memory Ptr Key Value} {C : Context Ptr Key Value} {f : Frame Ptr Key Value}
  {t u w a b c b' : Tree Ptr Key Value} {p q x y : Node Ptr Key Value} {d e : Side}

/-! ## 1. Siblings -/

omit [DecidableEq Ptr] in
/-- Beside a sibling that is not null, the links of the parent tell the side of the hole, even if
    the hole is empty. -/
theorem child_eq_hole (h : Represents m (plug (f :: C) t)) (hs : f.other.root ≠ none) (d : Side) :
    t.root = m (.child d f.node.ptr) ↔ f.side = d := by
  cases ht : t.root with
  | some n => exact eq_comm.trans (child_eq_root h ht d)
  | none =>
    by_cases hd : f.side = d
    · rw [← hd, h.frame.2.1, ht]
      simp
    · rw [← Side.other_eq_of_ne hd, h.frame.2.2.1]
      exact iff_of_false (Ne.symm hs) (Side.ne_other _)

theorem looks_sibling (h : Represents m (plug (f :: C) t)) (hs : f.other.root ≠ none) :
    (sibling (some f.node.ptr) t.root).Looks m f.other.root := by
  have hl := child_eq_hole h hs .left
  have ho : m (.child f.side.other f.node.ptr) = f.other.root := h.frame.2.2.1
  refine looks_getLink.bind ?_
  cases hd : f.side with
  | left =>
    rw [hd] at ho hl
    rw [if_pos (hl.mpr rfl), ← ho]
    exact looks_getLink
  | right =>
    rw [hd] at ho hl
    rw [if_neg fun e => absurd (hl.mp e) nofun, show m (.child .left f.node.ptr) = _ from ho]
    exact .pure _

/-- The last steps of `delete_case2` and `delete_case6`: towards the hole's side. -/
theorem ite_side {α : Type} (h : Represents m (plug (⟨d, p, w⟩ :: C) t)) (hs : w.root ≠ none)
    (a : Side → α) :
    (if t.root = m (.child .left p.ptr) then a .left else a .right) = a d := by
  have hl := child_eq_hole (f := ⟨d, p, w⟩) h hs .left
  cases d with
  | left => exact if_pos (hl.mpr rfl)
  | right => exact if_neg fun e => absurd (hl.mp e) nofun

/-! ## 2. The terminal cases -/

/-- `delete_case6`: the sibling takes the parent's place and color. -/
theorem run_deleteCase6 (h : Represents s.view
      (plug (⟨d, p, .join d q b (.join e x a c)⟩ :: C) t)) :
    ∃ s', (deleteCase6 p.ptr t.root).run s = .ok ((), s') ∧
      Represents s'.view (plug C (.join d (q.paint p.color) (.join d (p.paint .black) t b)
        (.join e (x.paint .black) a c))) ∧
      s'.retired = s.retired ∧ .link (slot C) ∈ s'.writes ∧
      Keeps s'.writes (plug (⟨d, p, .join d q b (.join e x a c)⟩ :: C) t)
        (plug C (.join d (q.paint p.color) (.join d (p.paint .black) t b) (.join e (x.paint .black) a c))) := by
  have hs : (Tree.join d q b (.join e x a c)).root ≠ none := by simp
  obtain ⟨rs, h₁⟩ := (looks_sibling h hs).run_bind
  have hc : s.view (.color p.ptr) = p.color := h.frame.1.color
  -- the three colors
  have hq : Represents (Function.update s.view (.color q.ptr) p.color)
      (plug (⟨d.other, p, t⟩ :: C) (.join d (q.paint p.color) b (.join e x a c))) :=
    Represents.paint (by rw [plug_other]; exact h) p.color
  rw [plug_other] at hq
  have hp : Represents
      (Function.update (Function.update s.view (.color q.ptr) p.color) (.color p.ptr) .black)
      (plug C (.join d (p.paint .black) t (.join d (q.paint p.color) b (.join e x a c)))) :=
    Represents.paint hq .black
  have hpx : Represents
      (Function.update (Function.update s.view (.color q.ptr) p.color) (.color p.ptr) .black)
      (plug (⟨d.other, q.paint p.color, b⟩ :: ⟨d.other, p.paint .black, t⟩ :: C)
        (.join e x a c)) := by
    rw [plug_other, plug_other]
    exact hp
  have hn := hpx.at_hole.1
  have hx := hpx.paint .black
  rw [plug_other, plug_other] at hx
  have hif := ite_side (w := .join d (q.paint p.color) b (.join e x a c)) hp (by simp)
    (fun d => (deleteCase6Rotate d p.ptr q.ptr : Program Ptr Key Value Unit))
  simp only [slot, Node.paint_ptr, Tree.root_join] at hn hif
  simp only [deleteCase6, h₁, Tree.root_join, run_deref_bind, run_getColor_bind,
    Optimistic.Attempt.readAll_view, hc, run_set_bind, run_getLink_bind,
    Optimistic.Attempt.write_view, Optimistic.Attempt.read_view]
  rw [hif]
  simp only [deleteCase6Rotate, run_getLink_bind, Optimistic.Attempt.read_view,
    Optimistic.Attempt.write_view, Optimistic.Attempt.readAll_view, hn, run_deref_bind, run_set_bind]
  obtain ⟨s', hs', hrep, hret, hw, hkeep⟩ := rotate_spec
    (s := ((((s.readAll rs).read (.color p.ptr)).write (.color q.ptr) p.color).write (.color p.ptr)
      .black).read (.child .left p.ptr) |>.read (.child d.other q.ptr) |>.write (.color x.ptr) .black)
    (n := p.paint .black) (p := q.paint p.color) hx
  refine ⟨s', hs', hrep, hret, hw, Keeps.source (C := C) hkeep fun x' y' hb => ?_⟩
  simpa [Frame.fill, Tree.mem_ptrs_join] using hb

/-- The tests of `delete_case5`. -/
theorem looks_isInnerRed (h : Represents m (plug (⟨d, p, w⟩ :: C) t)) (hw : w.root ≠ none)
    {n n' : Option Ptr} (hb : Holds m n b) (hc : Holds m n' c) (d' : Side) :
    (isInnerRed d' p.ptr t.root b.root c.root).Looks m
      (decide (d = d' ∧ c.color = .black ∧ b.color = .red)) := by
  have hd : t.root = m (.child d' p.ptr) ↔ d = d' := child_eq_hole (f := ⟨d, p, w⟩) h hw d'
  refine looks_getLink.bind ?_
  by_cases hdd : d = d'
  · rw [if_pos (hd.mpr hdd)]
    refine (looks_color hc).bind ?_
    by_cases hcc : c.color = .black
    · rw [if_pos hcc, decide_eq_decide.mpr (show d = d' ∧ c.color = .black ∧ b.color = .red ↔
        b.color = .red by simp [hdd, hcc])]
      exact (looks_color hb).bind (.pure _)
    · rw [if_neg hcc, decide_eq_false fun e => hcc e.2.1]
      exact .pure _
  · rw [if_neg fun e => hdd (hd.mp e), decide_eq_false fun e => hdd e.1]
    exact .pure _

theorem run_deleteCase5Rotate
    (h : Represents s.view (plug (⟨d, p, .join d q (.join d y b b') c⟩ :: C) t)) :
    ∃ s', (deleteCase5Rotate d q.ptr (some y.ptr)).run s = .ok ((), s') ∧
      Represents s'.view (plug (⟨d, p, .join d (y.paint .black) b (.join d (q.paint .red) b' c)⟩ :: C)
        t) ∧ s'.retired = s.retired ∧
      Keeps s'.writes (plug (⟨d, p, .join d q (.join d y b b') c⟩ :: C) t)
        (plug (⟨d, p, .join d (y.paint .black) b (.join d (q.paint .red) b' c)⟩ :: C) t) := by
  have hq : Represents (Function.update s.view (.color q.ptr) .red)
      (plug (⟨d.other, p, t⟩ :: C) (.join d (q.paint .red) (.join d y b b') c)) :=
    Represents.paint (by rw [plug_other]; exact h) .red
  have hy : Represents
      (Function.update (Function.update s.view (.color q.ptr) .red) (.color y.ptr) .black)
      (plug (⟨d, q.paint .red, c⟩ :: ⟨d.other, p, t⟩ :: C) (.join d (y.paint .black) b b')) :=
    Represents.paint (C := ⟨d, q.paint .red, c⟩ :: ⟨d.other, p, t⟩ :: C) hq .black
  have hr : Represents
      (Function.update (Function.update s.view (.color q.ptr) .red) (.color y.ptr) .black)
      (plug (⟨d.other, p, t⟩ :: C)
        (.join d.other (q.paint .red) c (.join d.other (y.paint .black) b' b))) := by
    rw [Tree.join_other, Tree.join_other]
    exact hy
  simp only [deleteCase5Rotate, run_set_bind, run_deref_bind]
  obtain ⟨s', hs', hrep, hret, -, hkeep⟩ := rotate_spec (n := q.paint .red) (p := y.paint .black)
    (s := (s.write (.color q.ptr) .red).write (.color y.ptr) .black) hr
  rw [Tree.join_other, Tree.join_other, plug_other] at hrep
  rw [Tree.join_other, Tree.join_other, Tree.join_other, Tree.join_other, plug_other, plug_other] at hkeep
  refine ⟨s', hs', hrep, hret, Keeps.source (C := C) hkeep fun x' y' hb => ?_⟩
  simpa [Frame.fill, Tree.mem_ptrs_join] using hb

/-- `delete_case5` rotates the sibling if its inner child alone is red. -/
theorem run_deleteCase5 (h : Represents s.view (plug (⟨d, p, .join d q b c⟩ :: C) t))
    (hq : q.color = .black) :
    ∃ s', s'.view = s.view ∧ s'.retired = s.retired ∧ (deleteCase5 p.ptr t.root).run s =
      (if c.color = .black ∧ b.color = .red then
        deleteCase5Rotate d q.ptr b.root >>= fun _ => deleteCase6 p.ptr t.root
      else deleteCase6 p.ptr t.root).run s' := by
  have hs : (Tree.join d q b c).root ≠ none := by simp
  obtain ⟨-, -, -, -, hw⟩ := h.frame
  obtain ⟨hqi, hqb, hqc, hhb, hhc⟩ := holds_join.mp hw
  have hcq : s.view (.color q.ptr) = .black := hqi.color.trans hq
  obtain ⟨rs₁, h₁⟩ := (looks_sibling h hs).run_bind
  simp only [deleteCase5, h₁, Tree.root_join, run_deref_bind, run_getColor_bind, run_getLink_bind,
    Optimistic.Attempt.readAll_view, Optimistic.Attempt.read_view, hcq, if_true]
  generalize hs₁ : ((((s.readAll rs₁).read (.color q.ptr)).read (.child .left q.ptr)).read
    (.child .right q.ptr)) = s₁
  have hv₁ : s₁.view = s.view := hs₁ ▸ rfl
  have hr₁ : s₁.retired = s.retired := hs₁ ▸ rfl
  rw [← hv₁] at h hhb hhc ⊢
  cases d with
  | left =>
    have hl : s₁.view (.child .left q.ptr) = b.root := hv₁ ▸ hqb
    have hr : s₁.view (.child .right q.ptr) = c.root := hv₁ ▸ hqc
    obtain ⟨rs₂, h₂⟩ := (looks_isInnerRed h hs hhb hhc .left).run_bind
    obtain ⟨rs₃, h₃⟩ := (looks_isInnerRed (m := (s₁.readAll rs₂).view) h hs hhc hhb .right).run_bind
    rw [hl, hr, h₂]
    by_cases hc : c.color = .black ∧ b.color = .red
    · exact ⟨s₁.readAll rs₂, rfl, hr₁, by simp [hc]⟩
    · exact ⟨(s₁.readAll rs₂).readAll rs₃, rfl, hr₁, by simp [hc, h₃]⟩
  | right =>
    have hl : s₁.view (.child .right q.ptr) = b.root := hv₁ ▸ hqb
    have hr : s₁.view (.child .left q.ptr) = c.root := hv₁ ▸ hqc
    obtain ⟨rs₂, h₂⟩ := (looks_isInnerRed h hs hhc hhb .left).run_bind
    obtain ⟨rs₃, h₃⟩ := (looks_isInnerRed (m := (s₁.readAll rs₂).view) h hs hhb hhc .right).run_bind
    rw [hl, hr, h₂]
    refine ⟨(s₁.readAll rs₂).readAll rs₃, rfl, hr₁, ?_⟩
    by_cases hc : c.color = .black ∧ b.color = .red
    · simp [hc, h₃]
    · simp [hc, h₃]

/-- A test made of two. -/
theorem looks_and {P Q : Prop} [Decidable P] [Decidable Q] {r : Program Ptr Key Value Bool}
    (h : r.Looks m (decide Q)) : (if P then r else pure false).Looks m (decide (P ∧ Q)) := by
  by_cases hp : P
  · rw [if_pos hp, decide_eq_decide.mpr (and_iff_right hp)]
    exact h
  · rw [if_neg hp, decide_eq_false fun e => hp e.1]
    exact .pure _

theorem looks_childrenBlack {par : Option Ptr} (h : Holds m par (.join d q b c)) :
    (childrenBlack q.ptr).Looks m (decide (b.color = .black ∧ c.color = .black)) := by
  obtain ⟨-, hb, hc, hhb, hhc⟩ := holds_join.mp h
  cases d with
  | left =>
    refine looks_getLink.bind ?_
    rw [hb]
    refine (looks_color hhb).bind (looks_and (looks_getLink.bind ?_))
    rw [show m (.child .right q.ptr) = c.root from hc]
    exact (looks_color hhc).bind (.pure _)
  | right =>
    refine looks_getLink.bind ?_
    rw [show m (.child .left q.ptr) = c.root from hc,
      decide_eq_decide.mpr (and_comm (a := b.color = .black))]
    refine (looks_color hhc).bind (looks_and (looks_getLink.bind ?_))
    rw [hb]
    exact (looks_color hhb).bind (.pure _)

theorem looks_isCase4 (h : Represents m (plug (⟨d, p, .join d q b c⟩ :: C) t)) :
    (isCase4 p.ptr (some q.ptr)).Looks m (decide (p.color = .red ∧ q.color = .black ∧
      b.color = .black ∧ c.color = .black)) := by
  obtain ⟨hp, -, -, -, hw⟩ := h.frame
  refine looks_getColor.bind ?_
  rw [hp.color]
  refine looks_and (looks_deref.bind (looks_getColor.bind ?_))
  rw [(holds_join.mp hw).1.color]
  exact looks_and (looks_childrenBlack hw)

theorem looks_isCase3 (h : Represents m (plug (⟨d, p, .join d q b c⟩ :: C) t)) :
    (isCase3 p.ptr (some q.ptr)).Looks m (decide (p.color = .black ∧ q.color = .black ∧
      b.color = .black ∧ c.color = .black)) := by
  obtain ⟨hp, -, -, -, hw⟩ := h.frame
  refine looks_getColor.bind ?_
  rw [hp.color]
  refine looks_and ?_
  have hc := looks_color hw
  rw [Tree.root_join, Tree.color_join] at hc
  exact hc.bind (looks_and (looks_childrenBlack hw))

omit [DecidableEq Ptr] in
/-- A subtree with the old root's color and two black nodes below it is as high as it was before a
    black node was lost on one side. -/
theorem balanced_case6 {k : Nat} {r : Node Ptr Key Value} (hb : Balanced (plug (⟨d, p, w⟩ :: C) u))
    (hu : u.BlackHeight (k + 1)) (hr : r.color = p.color) (hy : y.color = .black)
    (hx : x.color = .black) (htn : t.NoRedRed ∧ b.NoRedRed) (htk : t.BlackHeight k ∧ b.BlackHeight k)
    (han : a.NoRedRed ∧ c.NoRedRed) (hak : a.BlackHeight k ∧ c.BlackHeight k) :
    Balanced (plug C (.join d r (.join d y t b) (.join e x a c))) := by
  obtain ⟨-, -, hpr, hfk⟩ := hb.beside hu
  refine Balanced.replace (C := C) hb hfk ?_ ?_ fun hred => ?_
  · refine (Tree.blackHeight_join ..).mpr ⟨k + 1, (blackHeight_join_black hy).mpr htk,
      (blackHeight_join_black hx).mpr hak, ?_⟩
    rw [hr]
  · exact (Tree.noRedRed_join ..).mpr ⟨fun _ => ⟨(Tree.color_join ..).trans hy,
      (Tree.color_join ..).trans hx⟩, (noRedRed_join_black hy).mpr htn,
      (noRedRed_join_black hx).mpr han⟩
  · rw [Tree.color_join, hr] at hred
    exact (hpr hred).2

omit [DecidableEq Ptr] in
/-- A red subtree is not empty. -/
theorem Tree.exists_join_of_red {t : Tree Ptr Key Value} (h : t.color = .red) (d : Side) :
    ∃ n a b, t = .join d n a b ∧ n.color = .red := by
  cases t with
  | nil => cases h
  | node n l r =>
    obtain ⟨n', a, b, ht, -⟩ := Tree.exists_join (t := .node n l r) rfl d
    refine ⟨n', a, b, ht, ?_⟩
    rw [ht, Tree.color_join] at h
    exact h

/-- `delete_case5` with case 6: a nephew is red. The link from above is set. -/
theorem deleteCase5_repairs {k : Nat} (h : Represents s.view (plug (⟨d, p, .join d q b c⟩ :: C) t))
    (hb : Balanced (plug (⟨d, p, .join d q b c⟩ :: C) u)) (hu : u.BlackHeight (k + 1))
    (hk : t.BlackHeight k) (hn : t.NoRedRed) (hq : q.color = .black)
    (hbc : ¬ (b.color = .black ∧ c.color = .black)) :
    ∃ s' t', (deleteCase5 p.ptr t.root).run s = .ok ((), s') ∧
      Repairs s s' (plug (⟨d, p, .join d q b c⟩ :: C) t) t' ∧ .link (slot C) ∈ s'.writes := by
  obtain ⟨hwn, hwk, -, -⟩ := hb.beside hu
  obtain ⟨hbk, hck⟩ := (blackHeight_join_black hq).mp hwk
  obtain ⟨hbn, hcn⟩ := (noRedRed_join_black hq).mp hwn
  obtain ⟨s₁, hv₁, hr₁, hrun⟩ := run_deleteCase5 h hq
  rw [← hv₁] at h
  rw [hrun]
  by_cases hinner : c.color = .black ∧ b.color = .red
  · -- the inner nephew goes up in two rotations
    obtain ⟨y, b₁, b₂, rfl, hy⟩ := Tree.exists_join_of_red hinner.2 d
    obtain ⟨hyn, hyk⟩ := And.intro ((noRedRed_join_red hy).mp hbn) ((blackHeight_join_red hy).mp hbk)
    obtain ⟨s₂, hs₂, hrep₂, hr₂, hk₂⟩ := run_deleteCase5Rotate h
    obtain ⟨s₃, hs₃, hrep₃, hr₃, hw₃, hk₃⟩ := run_deleteCase6 hrep₂
    have hgrow := Optimistic.Program.run_grows hs₃
    refine ⟨s₃, _, ?_, ⟨hrep₃, ?_, ?_, hr₃.trans (hr₂.trans hr₁), (hk₂.mono hgrow.writes).trans hk₃ ?_⟩, hw₃⟩
    · rw [if_pos hinner, Tree.root_join, Optimistic.Program.run_bind_ok hs₂, hs₃]
    · refine cells_plug_congr (t := .join d p t (.join d q (.join d y b₁ b₂) c)) C ?_
      cases d <;> simp [Tree.join, Tree.cells]
    · exact balanced_case6 hb hu rfl rfl rfl ⟨hn, hyn.2.1⟩ ⟨hk, hyk.1⟩ ⟨hyn.2.2, hcn⟩ ⟨hyk.2, hck⟩
    · intro r hr
      refine mem_ptrs_plug_congr C hr fun r hr => ?_
      simpa [Frame.fill, Tree.mem_ptrs_join, or_left_comm, or_assoc] using hr
  · -- the outer one in one
    have hcr : c.color = .red := by
      refine color_eq_red_of_ne fun hcb => hbc ⟨color_eq_black_of_ne fun hbr => ?_, hcb⟩
      exact hinner ⟨hcb, hbr⟩
    obtain ⟨x, a, c', rfl, hx⟩ := Tree.exists_join_of_red hcr d
    obtain ⟨hxn, hxk⟩ := And.intro ((noRedRed_join_red hx).mp hcn) ((blackHeight_join_red hx).mp hck)
    obtain ⟨s₂, hs₂, hrep₂, hr₂, hw₂, hk₂⟩ := run_deleteCase6 h
    refine ⟨s₂, _, ?_, ⟨hrep₂, ?_, ?_, hr₂.trans hr₁, hk₂⟩, hw₂⟩
    · rw [if_neg hinner, hs₂]
    · refine cells_plug_congr (t := .join d p t (.join d q b (.join d x a c'))) C ?_
      cases d <;> simp [Tree.join, Tree.cells]
    · exact balanced_case6 hb hu rfl rfl rfl ⟨hn, hbn⟩ ⟨hk, hbk⟩ hxn.2 hxk

/-- **The terminal cases** 4 to 6 repair the tree: the sibling is black, and case 3 does not apply.
    Below a black parent the link from above is set. -/
theorem deleteCase4_repairs {k : Nat} (h : Represents s.view (plug (⟨d, p, .join d q b c⟩ :: C) t))
    (hb : Balanced (plug (⟨d, p, .join d q b c⟩ :: C) u)) (hu : u.BlackHeight (k + 1))
    (hk : t.BlackHeight k) (hn : t.NoRedRed) (hq : q.color = .black)
    (h3 : ¬ (p.color = .black ∧ q.color = .black ∧ b.color = .black ∧ c.color = .black)) :
    ∃ s' t', (deleteCase4 p.ptr t.root).run s = .ok ((), s') ∧
      Repairs s s' (plug (⟨d, p, .join d q b c⟩ :: C) t) t' ∧
      (p.color = .black → .link (slot C) ∈ s'.writes) := by
  have hs : (Tree.join d q b c).root ≠ none := by simp
  obtain ⟨rs₁, h₁⟩ := (looks_sibling h hs).run_bind
  obtain ⟨rs₂, h₂⟩ := (looks_isCase4 (m := (s.readAll rs₁).view) h).run_bind
  simp only [deleteCase4, h₁, Tree.root_join, h₂]
  by_cases h4 : p.color = .red ∧ q.color = .black ∧ b.color = .black ∧ c.color = .black
  · -- the parent and the sibling change colors
    obtain ⟨hwn, hwk, -, hfk⟩ := hb.beside hu
    have hrep : Represents (Function.update s.view (.color q.ptr) .red)
        (plug (⟨d.other, p, t⟩ :: C) (.join d (q.paint .red) b c)) :=
      Represents.paint (by rw [plug_other]; exact h) .red
    rw [plug_other] at hrep
    simp only [h4, and_self, decide_true, if_true, run_deref_bind, run_set_bind]
    refine ⟨_, _, rfl, ⟨hrep.paint .black, ?_, ?_, rfl, Keeps.source (C := C) (.refl _ _) fun x' y' hb => ?_⟩,
      fun hp => absurd hp (by decide)⟩
    · refine cells_plug_congr (t := .join d p t (.join d q b c)) C ?_
      cases d <;> rfl
    · rw [if_neg (by rw [h4.1]; nofun)] at hfk
      refine Balanced.replace (C := C) hb hfk ?_ ?_ fun e => absurd e (by simp)
      · exact (blackHeight_join_black rfl).mpr
          ⟨hk, (blackHeight_join_red rfl).mpr ((blackHeight_join_black hq).mp hwk)⟩
      · exact (noRedRed_join_black rfl).mpr
          ⟨hn, (noRedRed_join_red rfl).mpr ⟨h4.2.2, (noRedRed_join_black hq).mp hwn⟩⟩
    · simpa [Frame.fill, Tree.mem_ptrs_join] using hb
  · have hbc : ¬ (b.color = .black ∧ c.color = .black) := fun e =>
      h4 ⟨color_eq_red_of_ne fun hp => h3 ⟨hp, hq, e⟩, hq, e⟩
    obtain ⟨s', t', hs', hrep, hw⟩ := deleteCase5_repairs (s := (s.readAll rs₁).readAll rs₂) h hb hu
      hk hn hq hbc
    refine ⟨s', t', ?_, ⟨hrep.represents, hrep.cells, hrep.balanced, hrep.retired, hrep.keeps⟩, fun _ => hw⟩
    simpa [h4] using hs'

/-! ## 3. The way up -/

/-- `delete_case3` when its condition fails. -/
theorem deleteCase3_repairs {k : Nat} (h : Represents s.view (plug (⟨d, p, .join d q b c⟩ :: C) t))
    (hb : Balanced (plug (⟨d, p, .join d q b c⟩ :: C) u)) (hu : u.BlackHeight (k + 1))
    (hk : t.BlackHeight k) (hn : t.NoRedRed) (hq : q.color = .black)
    (h3 : ¬ (p.color = .black ∧ q.color = .black ∧ b.color = .black ∧ c.color = .black)) :
    ∃ s' t', (∀ case1, (deleteCase3 case1 p.ptr t.root).run s = .ok ((), s')) ∧
      Repairs s s' (plug (⟨d, p, .join d q b c⟩ :: C) t) t' ∧
      (p.color = .black → .link (slot C) ∈ s'.writes) := by
  obtain ⟨rs₁, h₁⟩ := (looks_sibling h (by simp)).run_bind
  obtain ⟨rs₂, h₂⟩ := (looks_isCase3 (m := (s.readAll rs₁).view) h).run_bind
  obtain ⟨s', t', hs', hrep, hw⟩ := deleteCase4_repairs (s := (s.readAll rs₁).readAll rs₂) h hb hu
    hk hn hq h3
  refine ⟨s', t', fun case1 => ?_, ⟨hrep.represents, hrep.cells, hrep.balanced, hrep.retired, hrep.keeps⟩, hw⟩
  simp only [deleteCase3, h₁, Tree.root_join, h₂, h3, decide_false, Bool.false_eq_true, if_false,
    hs']

/-- `delete_case3` among black nodes: the sibling turns red, and the parent's subtree lacks a black
    node now. -/
theorem run_deleteCase3_recolor (h : Represents s.view (plug (⟨d, p, .join d q b c⟩ :: C) t))
    (h3 : p.color = .black ∧ q.color = .black ∧ b.color = .black ∧ c.color = .black) :
    ∃ s', (∀ case1, (deleteCase3 case1 p.ptr t.root).run s = (case1 (top C) (some p.ptr)).run s') ∧
      Represents s'.view (plug C (.join d p t (.join d (q.paint .red) b c))) ∧
      s'.retired = s.retired ∧ s'.writes = .color q.ptr :: s.writes := by
  obtain ⟨rs₁, h₁⟩ := (looks_sibling h (by simp)).run_bind
  obtain ⟨rs₂, h₂⟩ := (looks_isCase3 (m := (s.readAll rs₁).view) h).run_bind
  have hpar : s.view (.parent p.ptr) = top C := h.frame.1.parent
  have hrep : Represents (Function.update s.view (.color q.ptr) .red)
      (plug (⟨d.other, p, t⟩ :: C) (.join d (q.paint .red) b c)) :=
    Represents.paint (by rw [plug_other]; exact h) .red
  rw [plug_other] at hrep
  refine ⟨((((s.readAll rs₁).readAll rs₂).write (.color q.ptr) .red).read (.parent p.ptr)),
    fun case1 => ?_, hrep, rfl, rfl⟩
  simp [deleteCase3, h₁, h₂, h3, hpar]

/-- `delete_case2` beside a black sibling. -/
theorem run_deleteCase2_black (h : Represents s.view (plug (⟨d, p, .join d q b c⟩ :: C) t))
    (hq : q.color = .black) :
    ∃ rs, ∀ case1, (deleteCase2 case1 p.ptr t.root).run s =
      (deleteCase3 case1 p.ptr t.root).run (s.readAll rs) := by
  obtain ⟨rs₁, h₁⟩ := (looks_sibling h (by simp)).run_bind
  obtain ⟨rs₂, h₂⟩ := (looks_color (m := (s.readAll rs₁).view) h.frame.2.2.2.2).run_bind
  refine ⟨rs₂ ++ rs₁, fun case1 => ?_⟩
  simp only [Tree.root_join, Tree.color_join, hq] at h₁ h₂
  simp [deleteCase2, h₁, h₂]

/-- `delete_case2` beside a red sibling: it goes up, and the parent turns red. -/
theorem run_deleteCase2_red (h : Represents s.view (plug (⟨d, p, .join d q b c⟩ :: C) t))
    (hq : q.color = .red) :
    ∃ s', (∀ case1, (deleteCase2 case1 p.ptr t.root).run s =
        (deleteCase3 case1 p.ptr t.root).run s') ∧
      Represents s'.view (plug (⟨d, p.paint .red, b⟩ :: ⟨d, q.paint .black, c⟩ :: C) t) ∧
      s'.retired = s.retired ∧ .link (slot C) ∈ s'.writes ∧
      Keeps s'.writes (plug (⟨d, p, .join d q b c⟩ :: C) t)
        (plug (⟨d, p.paint .red, b⟩ :: ⟨d, q.paint .black, c⟩ :: C) t) := by
  obtain ⟨rs₁, h₁⟩ := (looks_sibling h (by simp)).run_bind
  obtain ⟨rs₂, h₂⟩ := (looks_color (m := (s.readAll rs₁).view) h.frame.2.2.2.2).run_bind
  have hp : Represents (Function.update s.view (.color p.ptr) .red)
      (plug C (.join d (p.paint .red) t (.join d q b c))) := Represents.paint h .red
  have hqb : Represents (Function.update (Function.update s.view (.color p.ptr) .red)
      (.color q.ptr) .black)
      (plug (⟨d.other, p.paint .red, t⟩ :: C) (.join d (q.paint .black) b c)) :=
    Represents.paint (by rw [plug_other]; exact hp) .black
  rw [plug_other] at hqb
  obtain ⟨s', hs', hrep, hret, hw, hkeep⟩ := rotate_spec (n := p.paint .red) (p := q.paint .black)
    (s := ((((s.readAll rs₁).readAll rs₂).write (.color p.ptr) .red).write (.color q.ptr)
      .black).read (.child .left p.ptr)) hqb
  have hkeep' : Keeps s'.writes (plug (⟨d, p, .join d q b c⟩ :: C) t)
      (plug (⟨d, p.paint .red, b⟩ :: ⟨d, q.paint .black, c⟩ :: C) t) := by
    refine Keeps.source (C := C) hkeep fun x' y' hb => ?_
    simpa [Frame.fill, Tree.mem_ptrs_join] using hb
  refine ⟨s', fun case1 => ?_, hrep, hret, hw, hkeep'⟩
  have hif := ite_side (w := .join d (q.paint .black) b c) hqb (by simp)
    (fun d => (rotate d p.ptr : Program Ptr Key Value Unit))
  simp only [Node.paint_ptr] at hif hs'
  simp only [Tree.root_join, Tree.color_join, hq] at h₁ h₂
  simp only [deleteCase2, h₁, h₂, if_true, run_set_bind, run_deref_bind, deleteCase2Rotate,
    Optimistic.Program.bind_assoc, run_getLink_bind]
  exact (congrArg (fun r => (r >>= fun _ => deleteCase3 case1 p.ptr t.root).run _) hif).trans
    (Optimistic.Program.run_bind_ok hs')

omit [DecidableEq Ptr] in
/-- What `delete_case2` makes of the tree below a red sibling is balanced with the stand-in. -/
theorem balanced_case2 {k : Nat} (hb : Balanced (plug (⟨d, p, .join d q b c⟩ :: C) u))
    (hu : u.BlackHeight (k + 1)) (hub : u.color = .black) (hq : q.color = .red) :
    Balanced (plug (⟨d, p.paint .red, b⟩ :: ⟨d, q.paint .black, c⟩ :: C) u) ∧
      b.color = .black ∧ b.BlackHeight (k + 1) := by
  obtain ⟨hwn, hwk, hpr, hfk⟩ := hb.beside hu
  have hp : p.color = .black := color_eq_black_of_ne fun hp =>
    absurd (hq.symm.trans ((Tree.color_join ..).symm.trans (hpr hp).1)) nofun
  obtain ⟨⟨hbc, -⟩, hbn, hcn⟩ := (noRedRed_join_red hq).mp hwn
  obtain ⟨hbk, hck⟩ := (blackHeight_join_red hq).mp hwk
  rw [if_pos hp] at hfk
  refine ⟨Balanced.replace (C := C) hb hfk ?_ ?_ fun e => ?_, hbc, hbk⟩
  · exact (blackHeight_join_black rfl).mpr ⟨(blackHeight_join_red rfl).mpr ⟨hu, hbk⟩, hck⟩
  · exact (noRedRed_join_black rfl).mpr
      ⟨(noRedRed_join_red rfl).mpr ⟨⟨hub, hbc⟩, hb.at_hole.1, hbn⟩, hcn⟩
  · exact absurd ((Tree.color_join ..).symm.trans e) nofun

/-- `delete_case2` when it does not come to case 3 among black nodes. Below a black parent the link
    from above is set. -/
theorem deleteCase2_repairs {k : Nat} (h : Represents s.view (plug (⟨d, p, .join d q b c⟩ :: C) t))
    (hb : Balanced (plug (⟨d, p, .join d q b c⟩ :: C) u)) (hu : u.BlackHeight (k + 1))
    (hub : u.color = .black) (hk : t.BlackHeight k) (hn : t.NoRedRed)
    (h3 : ¬ (p.color = .black ∧ q.color = .black ∧ b.color = .black ∧ c.color = .black)) :
    ∃ s' t', (∀ case1, (deleteCase2 case1 p.ptr t.root).run s = .ok ((), s')) ∧
      Repairs s s' (plug (⟨d, p, .join d q b c⟩ :: C) t) t' ∧
      (p.color = .black → .link (slot C) ∈ s'.writes) := by
  by_cases hq : q.color = .red
  · -- a terminal case below the parent, red now
    obtain ⟨hb', hbc, hbk⟩ := balanced_case2 hb hu hub hq
    obtain ⟨q₂, hq₂⟩ := hbk.exists_root
    obtain ⟨r, b₁, b₂, rfl, -⟩ := Tree.exists_join hq₂ d
    obtain ⟨s₁, hs₁, hrep₁, hret₁, hw₁, hk₁⟩ := run_deleteCase2_red h hq
    obtain ⟨s', t', hs', hrep, -⟩ := deleteCase3_repairs hrep₁ hb' hu hk hn
      ((Tree.color_join ..).symm.trans hbc) fun e => absurd e.1 nofun
    have hgrow := Optimistic.Program.run_grows (hs' fun _ _ => pure ())
    refine ⟨s', t', fun case1 => (hs₁ case1).trans (hs' case1), ⟨hrep.represents,
      hrep.cells.trans ?_, hrep.balanced, hrep.retired.trans hret₁,
      (hk₁.mono hgrow.writes).trans hrep.keeps fun x' hx => ?_⟩, fun _ => hgrow.writes hw₁⟩
    · refine cells_plug_congr (t := .join d p t (.join d q (.join d r b₁ b₂) c)) C ?_
      cases d <;> simp [Frame.fill, Tree.join, Tree.cells]
    · rwa [Tree.ptrs, hrep.cells] at hx
  · obtain ⟨rs, hs₁⟩ := run_deleteCase2_black h (color_eq_black_of_ne hq)
    obtain ⟨s', t', hs', hrep, hw⟩ := deleteCase3_repairs (s := s.readAll rs) h hb hu hk hn
      (color_eq_black_of_ne hq) h3
    exact ⟨s', t', fun case1 => (hs₁ case1).trans (hs' case1), ⟨hrep.represents, hrep.cells,
      hrep.balanced, hrep.retired, hrep.keeps⟩, hw⟩

/-- **The deletion fix-up.** The tree would be balanced with `u` in place of the black subtree `t`,
    which carries one black node less; `delete_case1` makes it so. Only case 3 goes up. -/
theorem deleteCase1_repairs {k : Nat} (h : Represents s.view (plug C t)) (hb : Balanced (plug C u))
    (hu : u.BlackHeight (k + 1)) (hub : u.color = .black) (hk : t.BlackHeight k) (hn : t.NoRedRed)
    (ht : t.color = .black) :
    ∃ s' t', (∀ fuel, C.length < fuel → (deleteCase1 fuel (top C) t.root).run s = .ok ((), s')) ∧
      Repairs s s' (plug C t) t' := by
  induction C generalizing s t u k with
  | nil =>
    refine ⟨s, t, fun fuel hf => ?_, h, rfl, ⟨ht, hn, k, hk⟩, rfl, .refl _ _⟩
    cases fuel with
    | zero => omega
    | succ fuel => rfl
  | cons f C ih =>
    obtain ⟨d, p, w⟩ := f
    obtain ⟨hwn, hwk, -, hfk⟩ := hb.beside hu
    obtain ⟨q', hq'⟩ := hwk.exists_root
    obtain ⟨q, b, c, rfl, -⟩ := Tree.exists_join hq' d
    have hstep : ∀ fuel, (deleteCase1 (fuel + 1) (top (⟨d, p, .join d q b c⟩ :: C)) t.root).run s =
        (deleteCase2 (deleteCase1 fuel) p.ptr t.root).run s := fun _ => rfl
    by_cases h3 : p.color = .black ∧ q.color = .black ∧ b.color = .black ∧ c.color = .black
    · obtain ⟨hp, hq, hcc⟩ := h3
      obtain ⟨hbk, hck⟩ := (blackHeight_join_black hq).mp hwk
      obtain ⟨hbn, hcn⟩ := (noRedRed_join_black hq).mp hwn
      rw [if_pos hp] at hfk
      obtain ⟨rs, hs₁⟩ := run_deleteCase2_black h hq
      obtain ⟨s₂, hs₂, hrep₂, hret₂, -⟩ := run_deleteCase3_recolor (s := s.readAll rs) h
        ⟨hp, hq, hcc⟩
      obtain ⟨s', t', hs', hrep⟩ := ih hrep₂ hb hfk ((Tree.color_join ..).trans hp)
        ((blackHeight_join_black hp).mpr ⟨hk, (blackHeight_join_red rfl).mpr ⟨hbk, hck⟩⟩)
        ((noRedRed_join_black hp).mpr ⟨hn, (noRedRed_join_red rfl).mpr ⟨hcc, hbn, hcn⟩⟩)
        ((Tree.color_join ..).trans hp)
      refine ⟨s', t', fun fuel hf => ?_, hrep.represents, hrep.cells.trans ?_, hrep.balanced,
        hrep.retired.trans hret₂, Keeps.source (C := C) hrep.keeps fun x' y' hb => ?_⟩
      · cases fuel with
        | zero => omega
        | succ fuel =>
          rw [hstep, hs₁, hs₂]
          simpa using hs' fuel (by simpa using hf)
      · refine cells_plug_congr (t := .join d p t (.join d q b c)) C ?_
        cases d <;> rfl
      · simpa [Frame.fill, Tree.mem_ptrs_join] using hb
    · obtain ⟨s', t', hs', hrep, -⟩ := deleteCase2_repairs h hb hu hub hk hn h3
      refine ⟨s', t', fun fuel hf => ?_, hrep⟩
      cases fuel with
      | zero => omega
      | succ fuel => rw [hstep, hs']

end Rbtree

end LockfreeStm
