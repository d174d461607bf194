/-
  File:      LockfreeStm/Rbtree/ConcurrentEmplace.lean
  Subject:   `emplace` AGAINST AN `erase_one` THAT COMMITS FIRST.

  `push_impl` does not track its search. It tracks `root_`, the node it hangs the new one from, and
  the links of that node's parent, the last unless the parent is the root. So if the other operation
  takes that node out from below the root, nothing but luck makes the two collide.

  * `run_trackParent` -- what `push_impl` tracks;
  * `Lossy` -- the states in which they do not collide: the root's child is taken out, and the
    erasure needs no rotation and the insertion none;
  * **`emplace_validation_iff`** -- `emplace` loses its node in these, and in no others.
-/
import LockfreeStm.Rbtree.ConcurrentErase

namespace LockfreeStm

namespace Rbtree

open Optimistic (Returns)

variable {Ptr Key Value : Type} [DecidableEq Ptr] {compare : Key → Key → Bool}
  {s s' s₁ s₂ : Attempt Ptr Key Value} {m : Memory Ptr Key Value} {C D : Context Ptr Key Value}
  {t t₂ t' u x : Tree Ptr Key Value} {fp fg : Frame Ptr Key Value} {g q : Node Ptr Key Value}
  {n p : Ptr} {key key₂ : Key} {value : Value}

/-! ## 1. What `push_impl` tracks -/

/-- The gets made for the sake of validation, the last one first. -/
def tracked : Context Ptr Key Value → List (Var Ptr)
  | [] => []
  | [_] => []
  | [fp, _] =>
    [.parent fp.node.ptr, .child .right fp.node.ptr, .child .left fp.node.ptr, .key fp.node.ptr]
  | fp :: fg :: _ :: _ =>
    [.child .right fg.node.ptr, .child .left fg.node.ptr, .parent fp.node.ptr,
      .child .right fp.node.ptr, .child .left fp.node.ptr, .key fp.node.ptr]

omit [DecidableEq Ptr] in
theorem Represents.parent_root (h : Represents m t) (hp : m .root = some p) :
    m (.parent p) = none := Represents.parent (C := []) h (h.root.symm.trans hp)

omit [DecidableEq Ptr] in
/-- The parents on the path to a hole. -/
theorem Represents.parent_frame (h : Represents m (plug (fp :: C) t)) :
    m (.parent fp.node.ptr) = top C := h.frame.1.parent

omit [DecidableEq Ptr] in
/-- Only the last frame is the root's. -/
theorem Represents.root_ne_frame (h : Represents m (plug (fp :: fg :: C) t)) :
    some fp.node.ptr ≠ m .root := by
  intro e
  cases h.parent_frame.symm.trans (h.parent_root e.symm)

omit [DecidableEq Ptr] in
theorem Represents.root_frame (h : Represents m (plug [fp] t)) : m .root = some fp.node.ptr :=
  h.root.trans (Tree.root_join ..)

theorem run_trackParent (h : Represents s.view (plug C t)) :
    (trackParent (s.view .root) (top C)).run s = .ok ((), s.readAll (tracked C)) := by
  cases C with
  | nil => rfl
  | cons fp C =>
    cases C with
    | nil =>
      rw [h.root_frame]
      simp [trackParent, top, tracked]
      rfl
    | cons fg C =>
      have hg : Represents s.view (plug (fg :: C) (fp.fill t)) := h
      simp only [trackParent, top, h.root_ne_frame, if_false, run_getKey_bind, run_getLink_bind,
        run_getParent_bind, Optimistic.Attempt.read_view, h.parent_frame]
      cases C with
      | nil =>
        rw [hg.root_frame]
        simp
        rfl
      | cons f C =>
        rw [if_neg hg.root_ne_frame]
        rfl

/-- `push_impl` from the gap on. -/
theorem run_pushAt_tracked (h : Represents s.view (plug C .nil)) (fuel : Nat) :
    (pushAt fuel n (top C) (slot C)).run s =
      (insertCase1 fuel n).run (linked ((s.read .root).readAll (tracked C)) n C) := by
  have htrack := run_trackParent (s := s.read .root) h
  simp only [pushAt, run_getLink_bind]
  exact (Optimistic.Program.run_bind_ok htrack).trans rfl

/-! ## 2. What the fix-up reads -/

/-- Below a red node `insert_case3` reads the left child of the grandparent. -/
theorem insertCase3_reads_left {case1 : Ptr → Program Ptr Key Value Unit}
    (h : Represents s.view (plug (fp :: fg :: C) t)) (ht : t.root = some n)
    (hr : (insertCase3 case1 n).run s = .ok ((), s')) : .child .left fg.node.ptr ∈ s'.reads := by
  obtain ⟨o, s₁, hu, hrest⟩ := Optimistic.Program.run_bind_eq_ok hr
  obtain ⟨rs, hg⟩ := (looks_grandparent h ht).run_bind
  rw [uncle, hg] at hu
  -- the first thing it does with the grandparent
  have hu : (Optimistic.Program.run _ ((s.readAll rs).read (.child .left fg.node.ptr))) =
      .ok (o, s₁) := hu
  exact (Optimistic.Program.run_grows hrest).reads
    ((Optimistic.Program.run_grows hu).reads List.mem_cons_self)

/-- Beside a black uncle, the link to the parent, too. -/
theorem insertCase3_reads_link {case1 : Ptr → Program Ptr Key Value Unit}
    (h : Represents s.view (plug (fp :: fg :: C) t)) (ht : t.root = some n)
    (hb : Balanced (plug (fp :: fg :: C) (.nil : Tree Ptr Key Value))) (hk : t.BlackHeight 0)
    (hn : t.NoRedRed) (hcol : t.color = .red) (hp : fp.node.color = .red)
    (hc : fg.other.color = .black) (hr : (insertCase3 case1 n).run s = .ok ((), s')) :
    .child fg.side fg.node.ptr ∈ s'.reads := by
  obtain ⟨rs, hblack⟩ := run_insertCase3_black h ht hc
  obtain ⟨s₄, t₄, hs₄, -, hread⟩ := insertCase4_repairs (s := s.readAll rs) h ht hb rfl hk hn hcol hp
    hc
  rw [hblack, hs₄] at hr
  cases hr
  exact hread

/-- The uncle of a node below a right child. -/
theorem run_uncle_right (h : Represents s.view (plug (fp :: ⟨.right, g, u⟩ :: C) t))
    (ht : t.root = some n) : (uncle n).run s =
      .ok (u.root, s.readAll [.parent n, .child .left g.ptr, .parent fp.node.ptr, .parent n]) := by
  have hp := Represents.frame (f := ⟨.right, g, u⟩) (C := C) (t := fp.fill t) h
  have ho : some fp.node.ptr ≠ u.root := fun e =>
    (nodup_fill (nodup_of_plug (C := C) (t := Frame.fill ⟨.right, g, u⟩ (fp.fill t)) h.nodup)).2.2
      fp.node.ptr (mem_ptrs_fill.mpr (.inl rfl)) (Tree.mem_ptrs_of_root e.symm)
  have hl : s.view (.child .left g.ptr) = u.root := hp.2.2.1
  have hn : s.view (.parent n) = some fp.node.ptr := h.parent ht
  have hpg : s.view (.parent fp.node.ptr) = some g.ptr := h.parent_frame
  simp [uncle, grandparent, Optimistic.Program.bind_assoc, hn, hpg, hl, ho]
  rfl

/-- The attempt after `insert_case1` has recolored around the root: the parent `p` is its right
    child, and the uncle `q`, its left child, is red. -/
def recolored (s : Attempt Ptr Key Value) (n p g q : Ptr) : Attempt Ptr Key Value :=
  let s := (((s.read (.parent n)).read (.parent n)).read (.color p)).readAll
    [.parent n, .child .left g, .parent p, .parent n]
  let s := ((s.read (.color q)).read (.parent n)).write (.color p) .black
  let s := ((s.write (.color q) .black).read (.parent n)).read (.parent p)
  ((s.write (.color g) .red).read (.parent g)).write (.color g) .black

theorem run_insertCase1_recolor {b c : Tree Ptr Key Value}
    (h : Represents s.view (plug [fp, ⟨.right, g, .join .left q b c⟩] t)) (ht : t.root = some n)
    (hp : fp.node.color = .red) (hq : q.color = .red) (fuel : Nat) :
    (insertCase1 (fuel + 2) n).run s = .ok ((), recolored s n fp.node.ptr g.ptr q.ptr) := by
  have hn : s.view (.parent n) = some fp.node.ptr := h.parent ht
  have hpg : s.view (.parent fp.node.ptr) = some g.ptr := h.parent_frame
  have hg : Represents s.view (plug [⟨.right, g, .join .left q b c⟩] (fp.fill t)) := h
  have hgp : s.view (.parent g.ptr) = none := hg.parent_frame
  have hqh : Holds s.view (some g.ptr) (.join .left q b c) := (Represents.frame hg).2.2.2.2
  have hqc : s.view (.color q.ptr) = .red := (holds_join.mp hqh).1.color.trans hq
  have hu := run_uncle_right (s := ((s.read (.parent n)).read (.parent n)).read (.color fp.node.ptr))
    h ht
  have hred : ∀ r : Attempt Ptr Key Value, r.view = s.view →
      (insertCase3.isRed (Tree.join .left q b c).root).run r = .ok (true, r.read (.color q.ptr)) := by
    intro r hr
    simp [insertCase3.isRed, hr, hqc]
  rw [run_insertCase1_red h ht hp, insertCase3, Optimistic.Program.run_bind_ok hu]
  refine (Optimistic.Program.run_bind_ok (hred _ ?_)).trans ?_
  · rfl
  · simp [grandparent, hn, hpg, hgp, insertCase1, Optimistic.Program.bind_assoc]
    rfl

/-- `emplace` comes to the fix-up of the new node in its gap. -/
theorem emplace_at_gap (h : Represents m (plug C .nil))
    (hn : n ∉ (plug C (.nil : Tree Ptr Key Value)).ptrs) (hg : Gap compare key C)
    (hs : Returns (fun fuel => emplace compare fuel n key value) m () s) :
    ∃ s₀ : Attempt Ptr Key Value, Represents s₀.view (plug C (newTree n key value)) ∧
      s₀.reads = tracked C ++ [.root] ∧ s₀.writes = [.link (slot C)] ∧
      ∃ enough, ∀ fuel, enough ≤ fuel → (insertCase1 fuel n).run s₀ = .ok ((), s) := by
  obtain ⟨us, enough, -, hpush, -⟩ := emplace_stays h hn hg hs
  have hrep : Represents ((constructed (.start m) n key value).readAllUntracked us).view
      (plug C .nil) := constructed_represents h hn
  refine ⟨_, linked_represents (s := ((((constructed (.start m) n key value).readAllUntracked us).read
    .root).readAll (tracked C))) hrep hn constructed_isNew, rfl, rfl, enough, fun fuel hf => ?_⟩
  rw [← run_pushAt_tracked hrep fuel]
  exact hpush fuel hf

section Emplaced

variable (h : Represents m (plug C .nil)) (hn : n ∉ (plug C (.nil : Tree Ptr Key Value)).ptrs)
  (hg : Gap compare key C)
  (hs : Returns (fun fuel => emplace compare fuel n key value) m () s)
include h hn hg hs

theorem emplace_tracked : ∀ v ∈ tracked C, v ∈ s.reads := by
  obtain ⟨s₀, -, hreads, -, enough, hrun⟩ := emplace_at_gap h hn hg hs
  intro v hv
  refine (Optimistic.Program.run_grows (hrun enough (Nat.le_refl _))).reads ?_
  rw [hreads]
  exact List.mem_append_left _ hv

/-- Below a red node it reads the left child of the grandparent, beside a black uncle also the link
    to the parent. -/
theorem emplace_reads_red (hC : C = fp :: fg :: D) (hp : fp.node.color = .red)
    (hb : Balanced (plug C (.nil : Tree Ptr Key Value))) :
    .child .left fg.node.ptr ∈ s.reads ∧
      (fg.other.color = .black → .child fg.side fg.node.ptr ∈ s.reads) := by
  obtain ⟨s₀, hrep, -, -, enough, hrun⟩ := emplace_at_gap h hn hg hs
  subst hC
  have hone := hrun (enough + 1) (Nat.le_succ _)
  rw [run_insertCase1_red hrep (Tree.root_join ..) hp] at hone
  refine ⟨insertCase3_reads_left (s := (((s₀.read (.parent n)).read (.parent n)).read
    (.color fp.node.ptr))) hrep (Tree.root_join ..) hone, fun hc => ?_⟩
  exact insertCase3_reads_link (s := (((s₀.read (.parent n)).read (.parent n)).read
    (.color fp.node.ptr))) hrep (Tree.root_join ..) hb ((blackHeight_join_red rfl).mpr ⟨rfl, rfl⟩)
    ((noRedRed_join_red rfl).mpr ⟨⟨rfl, rfl⟩, trivial, trivial⟩) (Tree.color_join ..) hp hc hone

/-- Below a black child of the root it reads that one's vars, and sets one link. -/
theorem emplace_below_black (hC : C = [fp, fg]) (hp : fp.node.color = .black) :
    (∀ v ∈ s.reads, v = .root ∨ v.owner = some n ∨ v.owner = some fp.node.ptr) ∧
      s.writes = [.link (slot C)] := by
  obtain ⟨s₀, hrep, hreads, hwrites, enough, hrun⟩ := emplace_at_gap h hn hg hs
  subst hC
  have hone := hrun (enough + 1) (Nat.le_succ _)
  rw [run_insertCase1_black hrep (Tree.root_join ..) hp] at hone
  cases hone
  refine ⟨fun v hv => ?_, hwrites⟩
  simp only [Optimistic.Attempt.read_reads, hreads, tracked, List.cons_append, List.nil_append,
    List.mem_cons, List.not_mem_nil, or_false] at hv
  rcases hv with rfl | rfl | rfl | rfl | rfl | rfl | rfl | rfl
  · exact .inr (.inr rfl)
  · exact .inr (.inl rfl)
  · exact .inr (.inl rfl)
  · exact .inr (.inr rfl)
  · exact .inr (.inr rfl)
  · exact .inr (.inr rfl)
  · exact .inr (.inr rfl)
  · exact .inl rfl

/-- Below a red right child of the root, beside a red uncle, it reads two more links and sets colors,
    too. -/
theorem emplace_below_red {b c : Tree Ptr Key Value}
    (hC : C = [fp, ⟨.right, g, .join .left q b c⟩]) (hp : fp.node.color = .red)
    (hq : q.color = .red) :
    (∀ v ∈ s.reads, v = .root ∨ v.owner = some n ∨ v.owner = some fp.node.ptr ∨
      v = .child .left g.ptr ∨ v = .parent g.ptr ∨ ∃ r, v = .color r) ∧
      ∀ v ∈ s.writes, v = .link (slot C) ∨ ∃ r, v = .color r := by
  obtain ⟨s₀, hrep, hreads, hwrites, enough, hrun⟩ := emplace_at_gap h hn hg hs
  subst hC
  have hone := hrun (enough + 2) (Nat.le_add_right _ _)
  rw [run_insertCase1_recolor hrep (Tree.root_join ..) hp hq] at hone
  cases hone
  constructor
  · intro v hv
    simp only [recolored, Optimistic.Attempt.read_reads, Optimistic.Attempt.readAll_reads,
      Optimistic.Attempt.write_reads, hreads, tracked, List.cons_append, List.nil_append,
      List.mem_cons, List.not_mem_nil, or_false] at hv
    rcases hv with rfl | rfl | rfl | rfl | rfl | rfl | rfl | rfl | rfl | rfl | rfl | rfl | rfl | rfl |
      rfl | rfl | rfl <;> simp
  · intro v hv
    simp only [recolored, Optimistic.Attempt.read_writes, Optimistic.Attempt.readAll_writes,
      Optimistic.Attempt.write_writes, hwrites, List.mem_cons, List.not_mem_nil, or_false] at hv
    rcases hv with rfl | rfl | rfl | rfl | rfl
    · exact .inr ⟨_, rfl⟩
    · exact .inr ⟨_, rfl⟩
    · exact .inr ⟨_, rfl⟩
    · exact .inr ⟨_, rfl⟩
    · exact .inl rfl

end Emplaced

/-! ## 3. What the erasure of a child of the root sets -/

/-- What `color` returns in the memory `m`. -/
def colorAt (m : Memory Ptr Key Value) : Option Ptr → Color
  | some q => m (.color q)
  | none => .black

omit [DecidableEq Ptr] in
theorem Holds.colorAt {par : Option Ptr} (h : Holds m par t) : colorAt m t.root = t.color := by
  cases t with
  | nil => rfl
  | node q l r => exact h.1.color

/-- To take out the node `p` below the root `g` needs no rotation: it is red, or it has a child, or
    its sibling and the children of that one are black. -/
def Quiet (m : Memory Ptr Key Value) (p g : Ptr) : Prop :=
  m (.color p) = .black → m (.child .left p) = none → m (.child .right p) = none →
    ∃ d w, m (.child d g) = some w ∧ w ≠ p ∧ m (.color w) = .black ∧
      ∀ d', colorAt m (m (.child d' w)) = .black

/-- The vars an `erase_impl` of `e` sets that takes out `p` without a rotation. -/
inductive QuietWrite (m : Memory Ptr Key Value) (t : Tree Ptr Key Value) (e p g : Ptr) :
    Var Ptr → Prop where
  | key (he : e ≠ p) : QuietWrite m t e p g (.key e)
  | value (he : e ≠ p) : QuietWrite m t e p g (.value e)
  | child {d : Side} (hd : m (.child d g) = some p) : QuietWrite m t e p g (.child d g)
  | parent {r : Ptr} (hr : r ∈ t.ptrs) (hp : r ≠ p) (hg : r ≠ g) : QuietWrite m t e p g (.parent r)
  | color {r : Ptr} (hr : r ∈ t.ptrs) (hp : r ≠ p) (hb : m (.color p) = .black) :
    QuietWrite m t e p g (.color r)

namespace QuietWrite

variable {v : Var Ptr} {e g : Ptr}

omit [DecidableEq Ptr] in
/-- They are not the root, nor vars of a new node or of the one taken out. -/
theorem away (h : QuietWrite m t e p g v) (hn : n ∉ t.ptrs) (he : e ∈ t.ptrs) (hg : g ∈ t.ptrs)
    (hgp : g ≠ p) : v ≠ .root ∧ v.owner ≠ some n ∧ v.owner ≠ some p := by
  have hout : ∀ r : Ptr, r ∈ t.ptrs → r ≠ p → some r ≠ some n ∧ some r ≠ some p := fun r hr hp =>
    ⟨fun e => hn (Option.some.inj e ▸ hr), fun e => hp (Option.some.inj e)⟩
  cases h with
  | key hp => exact ⟨nofun, hout _ he hp⟩
  | value hp => exact ⟨nofun, hout _ he hp⟩
  | child _ => exact ⟨nofun, hout _ hg hgp⟩
  | parent hr hp _ => exact ⟨nofun, hout _ hr hp⟩
  | color hr hp _ => exact ⟨nofun, hout _ hr hp⟩

omit [DecidableEq Ptr] in
/-- If a red right child is taken out, they are not these, either. -/
theorem away_red (h : QuietWrite m t e p g v) (hp : m (.color p) = .red)
    (hl : m (.child .left g) ≠ some p) :
    v ≠ .child .left g ∧ v ≠ .parent g ∧ ∀ r, v ≠ .color r := by
  cases h with
  | key _ => exact ⟨nofun, nofun, nofun⟩
  | value _ => exact ⟨nofun, nofun, nofun⟩
  | child hd =>
    refine ⟨?_, nofun, nofun⟩
    rintro ⟨⟩
    exact hl hd
  | parent _ _ hg =>
    refine ⟨nofun, ?_, nofun⟩
    rintro ⟨⟩
    exact hg rfl
  | color _ _ hb => exact absurd (hp.symm.trans hb) nofun

end QuietWrite

omit [DecidableEq Ptr] in
/-- The hole of a child of the root. -/
theorem Represents.hole_below_root (h : Represents m (plug C t)) (ht : t.root = some p)
    {g : Ptr} (hg : m .root = some g) (hp : m (.parent p) = some g) :
    ∃ f : Frame Ptr Key Value, C = [f] ∧ f.node.ptr = g := by
  have htop : top C = some g := (h.parent ht).symm.trans hp
  cases C with
  | nil => cases htop
  | cons f C =>
    obtain rfl : f.node.ptr = g := Option.some.inj htop
    cases C with
    | nil => exact ⟨f, rfl, rfl⟩
    | cons f' C => exact absurd hg.symm h.root_ne_frame

theorem Comes.colorAt {e : Ptr} (h : Comes s s₁ t t' e p) (o : Option Ptr) :
    colorAt s₁.view o = colorAt s.view o := by
  cases o with
  | none => rfl
  | some q => exact h.color q

theorem Comes.quiet_iff {e g : Ptr} (h : Comes s s₁ t t' e p) :
    Quiet s₁.view p g ↔ Quiet s.view p g := by
  simp only [Quiet, h.link, h.color, h.colorAt]

omit [DecidableEq Ptr] in
/-- A black leaf beside the sibling `q`. -/
theorem quiet_leaf_iff {b c : Tree Ptr Key Value} {n : Node Ptr Key Value} {d e : Side}
    (h : Represents m (plug [⟨d, g, .join d q b c⟩] (.join e n .nil .nil)))
    (hn : n.color = .black) :
    Quiet m n.ptr g.ptr ↔ q.color = .black ∧ b.color = .black ∧ c.color = .black := by
  obtain ⟨hin, hl, hr, -, -⟩ := holds_join.mp h.at_hole.2
  obtain ⟨-, hlink, ho, -, hq⟩ := h.frame
  obtain ⟨hqi, hqb, hqc, hb, hc⟩ := holds_join.mp hq
  have hchild : ∀ d', m (.child d' n.ptr) = none := fun d' => by
    by_cases hd : e = d'
    · exact hd ▸ hl
    · exact Side.other_eq_of_ne hd ▸ hr
  have hcol : (∀ d', colorAt m (m (.child d' q.ptr)) = .black) ↔ b.color = .black ∧ c.color = .black := by
    rw [← hb.colorAt, ← hc.colorAt, ← hqb, ← hqc]
    refine ⟨fun h => ⟨h _, h _⟩, fun h d' => ?_⟩
    by_cases hd : d = d'
    · exact hd ▸ h.1
    · exact Side.other_eq_of_ne hd ▸ h.2
  constructor
  · intro hquiet
    obtain ⟨d', w, hw, hne, hwc, hcs⟩ := hquiet (hin.color.trans hn) (hchild .left) (hchild .right)
    -- the other child is the sibling
    have hd : d ≠ d' := by
      rintro rfl
      have e : some w = some n.ptr := (hw.symm.trans hlink).trans (Tree.root_join ..)
      exact hne (Option.some.inj e)
    obtain rfl : q.ptr = w := by
      have e : some w = some q.ptr :=
        (hw.symm.trans (Side.other_eq_of_ne hd ▸ ho)).trans (Tree.root_join ..)
      exact (Option.some.inj e).symm
    exact ⟨hqi.color.symm.trans hwc, hcol.mp hcs⟩
  · intro hblack _ _ _
    refine ⟨d.other, q.ptr, ho.trans (Tree.root_join ..), fun e => ?_, hqi.color.trans hblack.1,
      hcol.mpr hblack.2⟩
    have hd := (nodup_fill (nodup_of_plug (C := []) h.nodup)).2.2 n.ptr
    exact hd (by simp [Tree.mem_ptrs_join]) (by simp [Tree.mem_ptrs_join, e])

omit [DecidableEq Ptr] in
/-- A black node with an empty side and no red child is a leaf, and has a sibling. -/
theorem leaf_sibling {f : Frame Ptr Key Value} {n : Node Ptr Key Value} {d : Side}
    {c : Tree Ptr Key Value} (hb : Balanced (plug (f :: C) (.join d n .nil c)))
    (hn : n.color = .black) (hc : c.color = .black) :
    c = .nil ∧ ∃ q b c', f.other = .join f.side q b c' := by
  obtain ⟨-, k, hk⟩ := hb.at_hole
  obtain ⟨k', hk₀, hkc, rfl⟩ := (Tree.blackHeight_join ..).mp hk
  obtain rfl : k' = 0 := hk₀
  rw [if_pos hn] at hk
  obtain ⟨-, hwk, -⟩ := hb.beside hk
  obtain ⟨q', hq'⟩ := hwk.exists_root
  obtain ⟨q, b, c', hw, -⟩ := Tree.exists_join hq' f.side
  refine ⟨?_, q, b, c', hw⟩
  cases c with
  | nil => rfl
  | node r x y =>
    obtain ⟨k, -, -, h0⟩ := hkc
    rw [if_pos (show r.color = .black from hc)] at h0
    exact absurd h0 (by omega)

section EraseBelowRoot

variable {e g : Ptr} {fuel : Nat} (h : Represents s.view t) (hb : Balanced t) (he : e ∈ t.ptrs)
  (hw : s.writes = []) (hf : t.cells.length < fuel)
  (hrun : (eraseImpl fuel e).run s = .ok ((), s')) (hret : s'.retired = p :: s.retired)
  (hg : s.view .root = some g) (hp : s.view (.parent p) = some g)
include h hb he hw hf hrun hret hg hp

omit hw in
/-- `erase_impl` comes to the rebalancing below the root. -/
theorem eraseImpl_below_root : ∃ s₁ s₂ : Attempt Ptr Key Value, ∃ f : Frame Ptr Key Value,
    ∃ d n c, n.ptr = p ∧ f.node.ptr = g ∧ 1 < fuel ∧ Represents s₁.view (plug [f] (.join d n .nil c)) ∧
    Balanced (plug [f] (.join d n .nil c)) ∧ Comes s s₁ t (plug [f] (.join d n .nil c)) e p ∧
    Represents s₂.view (plug [f] c) ∧ (∀ v, (∀ r, v ≠ .parent r) → v ≠ .link (slot [f]) →
      s₂.view v = s₁.view v) ∧ s₂.view (.parent p) = some g ∧
    s₂.writes = (c.root.toList.map fun r => .parent r) ++ .link (slot [f]) :: s₁.writes ∧
    ∃ s₃, (rebalance fuel p c.root).run s₂ = .ok ((), s₃) ∧ s₃.writes = s'.writes := by
  obtain ⟨s₁, C, d, n, c, h₁, hb₁, hret₁, hcomes, himpl⟩ := run_eraseImpl h hb he
  obtain ⟨hlen, hrun₁⟩ := himpl fuel hf
  clear himpl
  obtain ⟨s'', t'', hs'', herased, -⟩ := deleteOneChild_spec h₁ hb₁
  -- the node taken out is `p`
  have hs : s'' = s' := congrArg Prod.snd
    (Except.ok.inj ((hs'' fuel hlen).symm.trans (hrun₁.symm.trans hrun)))
  have hpn : n.ptr = p := by
    have hr := herased.retired
    rw [hs, hret, hret₁] at hr
    exact (List.cons.inj hr).1.symm
  subst hpn
  obtain ⟨f, rfl, hfg⟩ := h₁.hole_below_root (Tree.root_join ..) ((hcomes.link .root).trans hg)
    ((hcomes.parent n.ptr).trans hp)
  obtain ⟨rs, hone⟩ := run_deleteOneChild h₁
  rw [hrun₁, hone] at hrun
  obtain ⟨_, s₃, hs₃, hrest⟩ := Optimistic.Program.run_bind_eq_ok hrun
  cases hrest
  refine ⟨s₁, _, f, d, n, c, rfl, hfg, hlen, h₁, hb₁, hcomes, ?_, fun v hv hl => ?_, ?_, ?_, s₃, hs₃,
    rfl⟩
  · simpa using spliced_represents h₁
  · rw [reparented_view, reparent_of_ne hv, Optimistic.Attempt.write_view, Function.update_of_ne hl]
    rfl
  · have hn := nodup_of_plug h₁.nodup
    rw [(Tree.ptrs_join_perm ..).nodup_iff] at hn
    have hroot : c.root ≠ some n.ptr := fun e =>
      (List.nodup_cons.mp hn).1 (Tree.mem_ptrs_of_root e)
    rw [reparented_view, reparent_parent hroot]
    exact (hcomes.parent n.ptr).trans hp
  · rw [reparented_writes]
    rfl

/-- **Without a rotation.** -/
theorem eraseImpl_quiet (hq : Quiet s.view p g) :
    ∀ v ∈ s'.writes, QuietWrite s.view t e p g v := by
  obtain ⟨s₁, s₂, f, d, n, c, rfl, rfl, hlen, h₁, hb₁, hcomes, h₂, hview, hpar, hwrites, s₃, hs₃,
    hw₃⟩ := eraseImpl_below_root h hb he hf hrun hret hg hp
  rw [← hw₃]
  have hn₁ : s₁.view (.color n.ptr) = n.color := (holds_join.mp h₁.at_hole.2).1.color
  have hcol : s₂.view (.color n.ptr) = n.color :=
    (hview (.color n.ptr) (fun r e => by cases e) fun e => by cases e).trans hn₁
  have hmn : s.view (.color n.ptr) = n.color := (hcomes.color n.ptr).symm.trans hn₁
  obtain ⟨hgu, -, hgo⟩ := nodup_fill (nodup_of_plug (C := []) h₁.nodup)
  have hnd : (Tree.join d n .nil c).ptrs.Nodup := nodup_of_plug h₁.nodup
  rw [(Tree.ptrs_join_perm ..).nodup_iff, List.nodup_cons] at hnd
  have hmem : ∀ r, r ∈ (plug [f] (.join d n .nil c)).ptrs → r ∈ t.ptrs := fun r hr =>
    hcomes.ptrs ▸ hr
  have hcm : ∀ r, c.root = some r → r ∈ (Tree.join d n .nil c).ptrs := fun r hr => by
    simp [Tree.mem_ptrs_join, Tree.mem_ptrs_of_root hr]
  have hcn : ∀ r, c.root = some r → r ≠ n.ptr := fun r hr e =>
    hnd.1 (e ▸ Tree.mem_ptrs_of_root hr)
  -- up to the rebalancing
  have hwrites₂ : ∀ v ∈ s₂.writes, QuietWrite s.view t e n.ptr f.node.ptr v := by
    intro v hv
    rw [hwrites, List.mem_append, List.mem_cons] at hv
    rcases hv with hv | rfl | hv
    · obtain ⟨r, hr, rfl⟩ := List.mem_map.mp hv
      have hr : c.root = some r := Option.mem_toList.mp hr
      exact .parent (hmem r (mem_ptrs_plug (hcm r hr))) (hcn r hr) fun e => hgu (e ▸ hcm r hr)
    · exact .child ((hcomes.link _).symm.trans (h₁.at_hole.1.trans (Tree.root_join ..)))
    · cases hcomes with
      | self _ _ _ _ hw₁ =>
        rw [hw₁, hw] at hv
        cases hv
      | next _ cells _ _ hw₁ =>
        have hne : e ≠ n.ptr := by
          have hn := h.nodup
          rw [Tree.ptrs, cells, List.map_append, List.nodup_append'] at hn
          exact fun e => (List.nodup_cons.mp hn.2.1).1 (e ▸ List.mem_cons_self)
        rw [hw₁, hw] at hv
        simp only [List.mem_cons, List.not_mem_nil, or_false] at hv
        rcases hv with rfl | rfl
        · exact .value hne
        · exact .key hne
  cases hnc : n.color with
  | red =>
    rw [run_rebalance_red (hcol.trans hnc)] at hs₃
    cases hs₃
    exact hwrites₂
  | black =>
    by_cases hcr : c.color = .red
    · obtain ⟨q, x, y, rfl, hqr⟩ := Tree.exists_join_of_red hcr .left
      rw [Tree.root_join, run_rebalance_redChild (hcol.trans hnc)
        ((holds_join.mp h₂.at_hole.2).1.color.trans hqr)] at hs₃
      cases hs₃
      intro v hv
      rcases List.mem_cons.mp hv with rfl | hv
      · exact .color (hmem _ (mem_ptrs_plug (hcm _ (Tree.root_join ..)))) (hcn _ (Tree.root_join ..))
          (hmn.trans hnc)
      · exact hwrites₂ v hv
    · obtain ⟨rfl, q, b, c', hf'⟩ := leaf_sibling hb₁ hnc (color_eq_black_of_ne hcr)
      obtain ⟨d', g, w⟩ := f
      obtain rfl : w = .join d' q b c' := hf'
      have hblack : g.color = .black ∧ q.color = .black ∧ b.color = .black ∧ c'.color = .black :=
        ⟨(Tree.color_join ..).symm.trans hb₁.rootBlack,
          (quiet_leaf_iff (by cases d <;> exact h₁) hnc).mp (hcomes.quiet_iff.mpr hq)⟩
      obtain ⟨rs, hreb⟩ := run_rebalance_black (hcol.trans hnc) h₂.at_hole.2 rfl
      obtain ⟨rs', h2⟩ := run_deleteCase2_black (s := s₂.readAll rs) h₂ hblack.2.1
      obtain ⟨s₄, h3, -, -, hw₄⟩ := run_deleteCase3_recolor (s := (s₂.readAll rs).readAll rs') h₂
        hblack
      obtain ⟨k, rfl⟩ := Nat.exists_eq_add_of_le' hlen
      rw [hreb, hpar, show deleteCase1 (k + 2) (some g.ptr) (Tree.nil : Tree Ptr Key Value).root =
        deleteCase2 (deleteCase1 (k + 1)) g.ptr (Tree.nil : Tree Ptr Key Value).root from rfl, h2,
        h3] at hs₃
      cases hs₃
      intro v hv
      rw [hw₄] at hv
      rcases List.mem_cons.mp hv with rfl | hv
      · have hqw : q.ptr ∈ (Tree.join d' q b c').ptrs := by simp [Tree.mem_ptrs_join]
        refine .color (hmem _ (mem_ptrs_fill.mpr (.inr (.inr hqw)))) (fun e => ?_) (hmn.trans hnc)
        exact hgo n.ptr (by simp [Tree.mem_ptrs_join]) (e ▸ hqw)
      · exact hwrites₂ v hv

omit hw in
/-- **With a rotation**, `root_` is set. -/
theorem eraseImpl_root (hq : ¬ Quiet s.view p g) : .root ∈ s'.writes := by
  obtain ⟨s₁, s₂, f, d, n, c, rfl, rfl, hlen, h₁, hb₁, hcomes, h₂, hview, hpar, hwrites, s₃, hs₃,
    hw₃⟩ := eraseImpl_below_root h hb he hf hrun hret hg hp
  rw [← hw₃]
  obtain ⟨hin, -, hc, -, -⟩ := holds_join.mp h₁.at_hole.2
  rw [← hcomes.quiet_iff] at hq
  have hnc : n.color = .black := by
    by_contra hne
    exact hq fun hblack => absurd (hin.color.symm.trans hblack) hne
  have hcn : c.root = none := by
    by_contra hne
    rw [← hc] at hne
    refine hq fun _ hl hr => absurd ?_ hne
    cases d
    · exact hr
    · exact hl
  obtain rfl := Tree.eq_nil_of_root hcn
  obtain ⟨-, q, b, c', hf'⟩ := leaf_sibling hb₁ hnc rfl
  obtain ⟨d', g, w⟩ := f
  obtain rfl : w = .join d' q b c' := hf'
  rw [quiet_leaf_iff (by cases d <;> exact h₁) hnc] at hq
  have hcol : s₂.view (.color n.ptr) = .black :=
    (hview (.color n.ptr) (fun r e => by cases e) fun e => by cases e).trans (hin.color.trans hnc)
  obtain ⟨rs, hreb⟩ := run_rebalance_black hcol h₂.at_hole.2 rfl
  obtain ⟨s₄, -, h2, -, hw₄⟩ := deleteCase2_repairs (s := s₂.readAll rs) h₂ hb₁
    ((blackHeight_join_black hnc).mpr ⟨rfl, rfl⟩) ((Tree.color_join ..).trans hnc) rfl trivial
    fun e => hq e.2
  obtain ⟨k, rfl⟩ := Nat.exists_eq_add_of_le' hlen
  rw [hreb, hpar, show deleteCase1 (k + 2) (some g.ptr) (Tree.nil : Tree Ptr Key Value).root =
    deleteCase2 (deleteCase1 (k + 1)) g.ptr (Tree.nil : Tree Ptr Key Value).root from rfl, h2] at hs₃
  cases hs₃
  exact hw₄ ((Tree.color_join ..).symm.trans hb₁.rootBlack)

end EraseBelowRoot

/-! ## 4. The gap after an erasure -/

section Gaps

variable {α : Type} {A B F K : List α} {a b : α}

/-- Two lists in a row, cut between two neighbours. -/
theorem cut_between (h : A ++ a :: b :: B = F ++ K) (hn : (F ++ K).Nodup) (ha : a ∈ F) (hb : b ∈ K) :
    F = A ++ [a] ∧ K = b :: B := by
  have hdis := List.disjoint_of_nodup_append hn
  have h' : (A ++ [a]) ++ b :: B = F ++ K := by simpa using h
  rcases List.append_eq_append_iff.mp h' with ⟨as, hF, hK⟩ | ⟨cs, hA, hK⟩
  · cases as with
    | nil => exact ⟨by simpa using hF, hK.symm⟩
    | cons c as =>
      obtain rfl : b = c := (List.cons.inj hK).1
      exact (hdis (hF ▸ by simp) hb).elim
  · rcases List.eq_nil_or_concat' cs with rfl | ⟨cs, c, rfl⟩
    · exact ⟨by simpa using hA.symm, by simpa using hK⟩
    · rw [← List.append_assoc] at hA
      obtain rfl : a = c := (List.append_inj' hA rfl).2 |> List.singleton_inj.mp
      exact (hdis ha (hK ▸ by simp)).elim

end Gaps

omit [DecidableEq Ptr] in
/-- What an erasure has left of the cells; the node `e` may have taken over the key of the next one,
    which is gone. -/
theorem Unlinks.cells_left {e : Ptr} {writes : List (Var Ptr)} (h : Unlinks m t t₂ e p writes)
    {x : Ptr × Key × Value} (hx : x ∈ t₂.cells) :
    x ∈ t.cells ∨ x.1 = e ∧ TwoChildren m e ∧ (∃ A B, t.ptrs = A ++ e :: p :: B) ∧
      (p, x.2) ∈ t.cells := by
  cases h with
  | self _ _ cells cells' =>
    rw [cells', List.mem_append] at hx
    rw [cells, List.mem_append, List.mem_cons]
    exact .inl (hx.imp_right .inr)
  | @next A B k k' v v' two _ cells cells' _ =>
    rw [cells', List.mem_append, List.mem_cons] at hx
    rcases hx with hx | rfl | hx
    · exact .inl (cells ▸ List.mem_append_left _ hx)
    · exact .inr ⟨rfl, two, ⟨A.map fun c => c.1, B.map fun c => c.1, by simp [Tree.ptrs, cells]⟩,
        by simp [cells]⟩
    · exact .inl (cells ▸ List.mem_append_right _ (.tail _ (.tail _ hx)))

omit [DecidableEq Ptr] in
theorem Unlinks.ptrs_sublist {e : Ptr} {writes : List (Var Ptr)} (h : Unlinks m t t₂ e p writes) :
    t₂.ptrs.Sublist t.ptrs := by
  cases h with
  | self _ _ cells cells' =>
    rw [Tree.ptrs, Tree.ptrs, cells, cells', List.map_append, List.map_append, List.map_cons]
    exact (List.sublist_cons_self ..).append_left _
  | next _ _ cells cells' _ =>
    simp only [Tree.ptrs, cells, cells', List.map_append, List.map_cons]
    exact ((List.sublist_cons_self ..).cons_cons _).append_left _

/-- The node behind a node with two children stands on the same side of a null link, unless the link
    is its own. -/
theorem Represents.next_same_side (h : Represents m (plug C .nil)) {e : Ptr} {A B : List Ptr}
    (hAB : (plug C (.nil : Tree Ptr Key Value)).ptrs = A ++ e :: p :: B) (htwo : TwoChildren m e)
    (htop : top C ≠ some p) :
    (e ∈ frontPtrs C → p ∈ frontPtrs C) ∧ (e ∈ backPtrs C → p ∈ backPtrs C) := by
  have hn := h.nodup
  have hcut := ptrs_plug_nil C
  rw [hcut] at hn
  refine ⟨fun he => ?_, fun he => ?_⟩
  · by_contra hp
    have hpb : p ∈ backPtrs C := by
      have hm : p ∈ frontPtrs C ++ backPtrs C := hcut ▸ hAB ▸ by simp
      exact (List.mem_append.mp hm).resolve_left hp
    obtain ⟨hF, hK⟩ := cut_between (hAB.symm.trans hcut) hn he hpb
    cases C with
    | nil => cases he
    | cons f C =>
      obtain ⟨d, q, w⟩ := f
      cases d with
      | left =>
        have hb : backPtrs (⟨.left, q, w⟩ :: C) = q.ptr :: (w.ptrs ++ backPtrs C) := by
          simp [backPtrs, behind, Tree.ptrs]
        rw [hb] at hK
        exact htop (congrArg some (List.cons.inj hK).1)
      | right =>
        have hf : frontPtrs (⟨.right, q, w⟩ :: C) = (frontPtrs C ++ w.ptrs) ++ [q.ptr] := by
          simp [frontPtrs, before, Tree.ptrs]
        rw [hf] at hF
        obtain rfl : q.ptr = e := List.singleton_inj.mp (List.append_inj' hF rfl).2
        exact htwo.2 h.at_hole.1
  · obtain ⟨X, Y, hXY⟩ := List.append_of_mem he
    rw [hXY] at hcut hn ⊢
    have hsub : (A ++ e :: p :: B).Sublist ((frontPtrs C ++ X) ++ e :: Y) := by
      rw [← hAB, hcut, List.append_assoc]
    have hp := mem_right_of_sublist hsub (by rwa [List.append_assoc]) List.mem_cons_self
    exact List.mem_append_right _ (List.mem_cons_of_mem _ hp)

/-- A gap is still one after an erasure that has not taken out the node above it. -/
theorem gap_after_erase {e : Ptr} {writes : List (Var Ptr)} {C₂ : Context Ptr Key Value}
    (h : Represents m (plug C .nil)) (hg : Gap compare key C)
    (hunl : Unlinks m (plug C .nil) (plug C₂ .nil) e p writes) (hslot : slot C₂ = slot C)
    (htop : top C ≠ some p) :
    Gap compare key C₂ := by
  obtain ⟨hfront, hback⟩ := before_mono hslot hunl.ptrs_sublist h.nodup
  obtain ⟨hgf, hgb⟩ := (gap_iff h).mp hg
  refine ⟨fun x hx => ?_, fun x hx => ?_⟩
  · have hxf : x.1 ∈ frontPtrs C₂ := List.mem_map_of_mem hx
    have hxc : x ∈ (plug C₂ (.nil : Tree Ptr Key Value)).cells := by
      rw [cells_plug_nil]
      exact List.mem_append_left _ hx
    rcases hunl.cells_left hxc with hxt | ⟨he, htwo, ⟨A, B, hAB⟩, hxt⟩
    · rw [← (h.key_of_mem hxt).1]
      exact hgf _ (hfront hxf)
    · rw [← (h.key_of_mem hxt).1]
      exact hgf _ ((h.next_same_side hAB htwo htop).1 (he ▸ hfront hxf))
  · have hxb : x.1 ∈ backPtrs C₂ := List.mem_map_of_mem hx
    have hxc : x ∈ (plug C₂ (.nil : Tree Ptr Key Value)).cells := by
      rw [cells_plug_nil]
      exact List.mem_append_right _ hx
    rcases hunl.cells_left hxc with hxt | ⟨he, htwo, ⟨A, B, hAB⟩, hxt⟩
    · rw [← (h.key_of_mem hxt).1]
      exact hgb _ (hback hxb)
    · rw [← (h.key_of_mem hxt).1]
      exact hgb _ ((h.next_same_side hAB htwo htop).2 (he ▸ hback hxb))

omit [DecidableEq Ptr] in
/-- The links make the tree. -/
theorem Holds.same_ptrs {m' : Memory Ptr Key Value} {par par' : Option Ptr} (h : Holds m par t)
    (h' : Holds m' par' t') (hr : t'.root = t.root)
    (hl : ∀ d q, q ∈ t.ptrs → m' (.child d q) = m (.child d q)) : t'.ptrs = t.ptrs := by
  induction t generalizing par par' t' with
  | nil => rw [Tree.eq_nil_of_root hr]
  | node a l r ihl ihr =>
    cases t' with
    | nil => cases hr
    | node a' l' r' =>
      have hp : a'.ptr = a.ptr := Option.some.inj hr
      obtain ⟨-, hl₁, hr₁, hhl, hhr⟩ := h
      obtain ⟨-, hl₂, hr₂, hhl', hhr'⟩ := h'
      have hmem : ∀ q, q ∈ (Tree.node a l r).ptrs ↔ q = a.ptr ∨ q ∈ l.ptrs ∨ q ∈ r.ptrs := fun q =>
        Tree.mem_ptrs_join .left a l r
      have ha := fun d => hl d a.ptr ((hmem _).mpr (.inl rfl))
      rw [hp, ha] at hl₂ hr₂
      have el := ihl hhl hhl' (hl₂.symm.trans hl₁) fun d q hq => hl d q ((hmem q).mpr (.inr (.inl hq)))
      have er := ihr hhr hhr' (hr₂.symm.trans hr₁) fun d q hq => hl d q ((hmem q).mpr (.inr (.inr hq)))
      simp only [Tree.ptrs, Tree.cells, List.map_append, List.map_cons] at el er ⊢
      rw [el, er, hp]

omit [DecidableEq Ptr] in
theorem Represents.same_ptrs {m' : Memory Ptr Key Value} (h : Represents m t) (h' : Represents m' t')
    (hroot : m' .root = m .root) (hl : ∀ d q, q ∈ t.ptrs → m' (.child d q) = m (.child d q)) :
    t'.ptrs = t.ptrs :=
  h.holds.same_ptrs h'.holds (h'.root.symm.trans (hroot.trans h.root)) hl

/-! ## 5. Lost nodes -/

/-- `emplace` hangs a new node of this key from the node `p`. -/
def GoesBelow (compare : Key → Key → Bool) (t : Tree Ptr Key Value) (key : Key) (p : Ptr) : Prop :=
  ∃ C, t = plug C .nil ∧ Gap compare key C ∧ top C = some p

/-- `erase_one` of the key takes the node `p` out of the tree: it is the node that `find` stops at, or
    the next one if that has two children. -/
def TakesOut (compare : Key → Key → Bool) (m : Memory Ptr Key Value) (t : Tree Ptr Key Value)
    (key : Key) (p : Ptr) : Prop :=
  ∃ e, t.lookup compare key = some e ∧
    (e = p ∧ ¬ TwoChildren m e ∨ TwoChildren m e ∧ ∃ A B, t.ptrs = A ++ e :: p :: B)

/-- **The states in which the new node is lost**: the node it goes below is the one the erasure takes
    out, a child of the root, and neither operation has a rotation to make. -/
structure LossyAt (compare : Key → Key → Bool) (m : Memory Ptr Key Value) (t : Tree Ptr Key Value)
    (key key₂ : Key) (p g : Ptr) : Prop where
  below : GoesBelow compare t key p
  out : TakesOut compare m t key₂ p
  root : m .root = some g
  parent : m (.parent p) = some g
  quiet : Quiet m p g
  red : m (.color p) = .red → m (.child .right g) = some p ∧ colorAt m (m (.child .left g)) = .red

def Lossy (compare : Key → Key → Bool) (m : Memory Ptr Key Value) (t : Tree Ptr Key Value)
    (key key₂ : Key) : Prop := ∃ p g, LossyAt compare m t key key₂ p g

omit [DecidableEq Ptr] in
/-- What `erase_impl` takes out is what it is to take out. -/
theorem Unlinks.takesOut_iff {e p' : Ptr} {writes : List (Var Ptr)} (h : Unlinks m t t' e p writes)
    (hn : t.ptrs.Nodup) (he : t.lookup compare key₂ = some e) :
    TakesOut compare m t key₂ p' ↔ p' = p := by
  constructor
  · rintro ⟨e', he', hp⟩
    obtain rfl : e = e' := Option.some.inj (he.symm.trans he')
    cases h with
    | self node one =>
      rcases hp with ⟨hp, -⟩ | ⟨htwo, -⟩
      · exact hp.symm.trans node
      · exact absurd htwo one
    | @next A B k k' v v' two _ cells =>
      rcases hp with ⟨-, hone⟩ | ⟨-, A', B', hAB⟩
      · exact absurd two hone
      · have hcells : t.ptrs = A.map (fun c => c.1) ++ e :: p :: B.map (fun c => c.1) := by
          simp [Tree.ptrs, cells]
        rw [hcells] at hn
        have e' := hcells.symm.trans hAB
        have hA : e ∉ A.map fun c => c.1 := fun ha =>
          List.disjoint_of_nodup_append hn ha List.mem_cons_self
        have hB : e ∉ p :: B.map fun c => c.1 :=
          (List.nodup_cons.mp (List.nodup_append'.mp hn).2.1).1
        exact (List.cons.inj ((List.append_cons_inj_of_notMem hA hB).mp e').2.2).1.symm
  · rintro rfl
    refine ⟨e, he, ?_⟩
    cases h with
    | self node one => exact .inl ⟨node, one⟩
    | @next A B k k' v v' two _ cells =>
      exact .inr ⟨two, A.map fun c => c.1, B.map fun c => c.1, by simp [Tree.ptrs, cells]⟩

section Conflict

/-- The two operations on one tree: `emplace` in the gap `C`, `erase_one` of the node `e`, which takes
    out `p` and leaves `t₂`. -/
structure Both (compare : Key → Key → Bool) (m : Memory Ptr Key Value) (C : Context Ptr Key Value)
    (n : Ptr) (key : Key) (value : Value) (key₂ : Key) (e p : Ptr) (t₂ : Tree Ptr Key Value)
    (s₁ s₂ : Attempt Ptr Key Value) : Prop where
  valid : Valid compare m (plug C .nil)
  new : n ∉ (plug C (.nil : Tree Ptr Key Value)).ptrs
  gap : Gap compare key C
  emplaces : Returns (fun fuel => emplace compare fuel n key value) m () s₁
  mem : e ∈ (plug C (.nil : Tree Ptr Key Value)).ptrs
  found : (plug C (.nil : Tree Ptr Key Value)).lookup compare key₂ = some e
  erases : ∃ us, ∀ fuel, (plug C (.nil : Tree Ptr Key Value)).cells.length < fuel →
    (eraseImpl fuel e).run ((Optimistic.Attempt.start m).readAllUntracked us) = .ok ((), s₂)
  retires : s₂.retired = [p]
  unlinks : Unlinks m (plug C .nil) t₂ e p s₂.writes
  link : ∀ l, m (.link l) = some p →
    Inside (fun q => q ∈ (plug C (.nil : Tree Ptr Key Value)).ptrs) (Var.link l).owner →
      .link l ∈ s₂.writes
  left : Valid compare (s₂.commit m) t₂

namespace Both

variable {value : Value} {e g' : Ptr}

theorem takesOut (h : Both compare m C n key value key₂ e p t₂ s₁ s₂) :
    TakesOut compare m (plug C .nil) key₂ p :=
  (h.unlinks.takesOut_iff h.valid.represents.nodup h.found).mpr rfl

/-- The erasure sets the link to the node above the gap. -/
theorem link_frame (h : Both compare m (fp :: C) n key value key₂ e p t₂ s₁ s₂)
    (hp : fp.node.ptr = p) : .link (slot C) ∈ s₂.writes := by
  have hrep : Represents m (plug C (fp.fill .nil)) := h.valid.represents
  refine h.link _ (hrep.at_hole.1.trans (hp ▸ Tree.root_join ..)) ?_
  rw [slot_owner_eq_top]
  exact top_inside (t := fp.fill .nil)

/-- Two links of the tracked grandparent; one of them leads to the node above the gap. -/
theorem conflict_deep {f : Frame Ptr Key Value}
    (h : Both compare m (fp :: fg :: f :: D) n key value key₂ e p t₂ s₁ s₂) (hp : fp.node.ptr = p) :
    ¬ s₁.Validates s₂.writes := by
  intro hv
  refine (hv _ (h.link_frame hp)).1 (emplace_tracked h.valid.represents h.new h.gap h.emplaces _ ?_)
  cases hs : fg.side <;> simp [tracked, slot, hs]

/-- Below the root it is the erasure's rotation, or the insertion's look at the uncle. -/
theorem conflict_below_root (h : Both compare m [fp, fg] n key value key₂ e p t₂ s₁ s₂)
    (hp : fp.node.ptr = p) (hl : ¬ Lossy compare m (plug [fp, fg] .nil) key key₂) :
    ¬ s₁.Validates s₂.writes := by
  intro hv
  have hrep : Represents m (plug [fp, fg] .nil) := h.valid.represents
  have hup : Represents m (plug [fg] (fp.fill .nil)) := hrep
  have hroot : m .root = some fg.node.ptr := hup.root_frame
  have hpar : m (.parent p) = some fg.node.ptr := hp ▸ hrep.parent_frame
  obtain ⟨us, herase⟩ := h.erases
  by_cases hq : Quiet m p fg.node.ptr
  · have hnred : ¬ (m (.color p) = .red →
        m (.child .right fg.node.ptr) = some p ∧ colorAt m (m (.child .left fg.node.ptr)) = .red) :=
      fun hred => hl ⟨p, fg.node.ptr, ⟨[fp, fg], rfl, h.gap, congrArg some hp⟩, h.takesOut, hroot,
        hpar, hq, hred⟩
    obtain ⟨hpc, hother⟩ := Classical.not_imp.mp hnred
    have hcol : fp.node.color = .red := (hp ▸ hrep.frame.1.color).symm.trans hpc
    obtain ⟨hleft, hblack⟩ := emplace_reads_red hrep h.new h.gap h.emplaces rfl hcol h.valid.balanced
    have hset : .child fg.side fg.node.ptr ∈ s₂.writes := h.link_frame hp
    obtain ⟨-, hto, hbeside, -, hw⟩ := hup.frame
    refine (hv _ hset).1 ?_
    cases hs : fg.side with
    | left => exact hleft
    | right =>
      rw [hs] at hto hbeside hblack
      refine hblack (color_eq_black_of_ne fun hr => hother ⟨?_, ?_⟩)
      · exact hto.trans ((Tree.root_join ..).trans (congrArg some hp))
      · exact (congrArg _ hbeside).trans (hw.colorAt.trans hr)
  · have hset : .root ∈ s₂.writes :=
      eraseImpl_root (s := (Optimistic.Attempt.start m).readAllUntracked us) hrep h.valid.balanced
        h.mem (Nat.lt_succ_self _) (herase _ (Nat.lt_succ_self _)) h.retires hroot hpar hq
    exact (hv _ hset).1 (emplace_tracks hrep h.new h.gap h.emplaces).1

/-- **The new node's parent is taken out**: the two collide, but for the lossy states. -/
theorem conflict (h : Both compare m C n key value key₂ e p t₂ s₁ s₂) (htop : top C = some p)
    (hl : ¬ Lossy compare m (plug C .nil) key key₂) : ¬ s₁.Validates s₂.writes := by
  cases C with
  | nil => cases htop
  | cons fp C =>
    have hp : fp.node.ptr = p := Option.some.inj htop
    cases C with
    | nil =>
      intro hv
      exact (hv _ (h.link_frame hp)).1 (emplace_tracks h.valid.represents h.new h.gap h.emplaces).1
    | cons fg C =>
      cases C with
      | nil => exact h.conflict_below_root hp hl
      | cons f D => exact h.conflict_deep hp

/-- The erasure has changed what it has written. -/
theorem erase_frame (h : Both compare m C n key value key₂ e p t₂ s₁ s₂) {v : Var Ptr}
    (hv : v ∉ s₂.writes) : s₂.commit m v = m v := by
  obtain ⟨us, herase⟩ := h.erases
  obtain ⟨-, hpriv⟩ := eraseImpl_footprint h.valid.represents h.mem (herase _ (Nat.lt_succ_self _))
  exact Optimistic.Attempt.commit_of_notMem hv (hpriv v)

theorem erasedPair (h : Both compare m C n key value key₂ e p t₂ s₁ s₂) :
    ∃ x ∈ (plug C (.nil : Tree Ptr Key Value)).cells, x.1 = e ∧
      ErasedPair (plug C .nil) t₂ x.2 p := by
  obtain ⟨x, hx, rfl⟩ := List.mem_map.mp h.mem
  exact ⟨x, hx, rfl, h.unlinks.erasedPair h.valid.represents.nodup hx rfl⟩

/-- **The new node's parent is still there**: then `emplace` has done what it would do now. -/
theorem rerun (h : Both compare m C n key value key₂ e p t₂ s₁ s₂) (ho : StrictWeak compare)
    (htop : top C ≠ some p) (hv : s₁.Validates s₂.writes) :
    ∃ s t', Returns (fun fuel => emplace compare fuel n key value) (s₂.commit m) () s ∧
      s.view = s₁.commit (s₂.commit m) ∧ Valid compare (s₁.commit (s₂.commit m)) t' ∧
      n ∈ t'.ptrs ∧ t'.keys.Perm (key :: t₂.keys) := by
  have hrep := h.valid.represents
  obtain ⟨x, -, -, hep⟩ := h.erasedPair
  have hmem : ∀ q, q ∈ (plug C (.nil : Tree Ptr Key Value)).ptrs ↔ q = p ∨ q ∈ t₂.ptrs := fun q => by
    rw [hep.ptrs.mem_iff, List.mem_cons]
  obtain ⟨-, hslot⟩ := emplace_tracks hrep h.new h.gap h.emplaces
  have hnull : s₂.commit m (.link (slot C)) = none :=
    (h.erase_frame fun hw => (hv _ hw).2 hslot).trans hrep.at_hole.1
  obtain ⟨C₂, rfl, hslot₂⟩ := h.left.represents.exists_null_hole hnull fun q hq => by
    rw [slot_owner_eq_top] at hq
    exact ((hmem q).mp (top_inside q hq)).resolve_left fun e => htop (e ▸ hq)
  have hn₂ : n ∉ (plug C₂ (.nil : Tree Ptr Key Value)).ptrs := fun hn => h.new ((hmem n).mpr (.inr hn))
  have hg₂ := gap_after_erase hrep h.gap h.unlinks hslot₂ htop
  obtain ⟨us, hret⟩ := emplace_moved hrep h.new h.gap h.emplaces h.left.represents hn₂ hg₂ hslot₂
    fun v hvr => .inr (h.erase_frame fun hw => (hv v hw).1 hvr)
  obtain ⟨s, t', D, hret', hval, -, hD, -, hc⟩ := emplace_spec ho h.left hn₂ key value
  obtain ⟨-, rfl⟩ := hret.unique hret'
  refine ⟨_, t', hret, rfl, hval, ?_, ?_⟩
  · simp [Tree.ptrs, hc]
  · have hk : (plug C₂ (.nil : Tree Ptr Key Value)).keys =
        ((before D ++ behind D).map fun c => c.2).map fun e => e.1 := by
      rw [Tree.keys, Tree.pairs, hD, cells_plug_nil]
    rw [hk, Tree.keys, Tree.pairs, hc, List.map_append, List.map_append, List.map_append,
      List.map_append]
    exact List.perm_middle

/-- What a lossy state looks like from the gap. -/
theorem lossy_frames (h : Both compare m C n key value key₂ e p t₂ s₁ s₂)
    (hl : Lossy compare m (plug C .nil) key key₂) : ∃ fp fg, C = [fp, fg] ∧ fp.node.ptr = p ∧
      Quiet m p fg.node.ptr ∧ (fp.node.color = .red → fg.side = .right ∧ fg.other.color = .red) := by
  have hrep := h.valid.represents
  obtain ⟨p', g, ⟨C', hC, hg, htop'⟩, hout, hroot, hpar, hq, hred⟩ := hl
  obtain rfl : p' = p := (h.unlinks.takesOut_iff hrep.nodup h.found).mp hout
  have htop : top C = some p' := by
    rw [← slot_owner_eq_top, h.gap.slot_unique hg hC hrep, slot_owner_eq_top, htop']
  cases C with
  | nil => cases htop
  | cons fp C =>
    obtain rfl : fp.node.ptr = p' := Option.some.inj htop
    have hup : Represents m (plug C (fp.fill .nil)) := hrep
    obtain ⟨fg, rfl, rfl⟩ := hup.hole_below_root (Tree.root_join ..) hroot hpar
    refine ⟨fp, fg, rfl, rfl, hq, fun hcol => ?_⟩
    obtain ⟨hright, hleft⟩ := hred (hrep.frame.1.color.trans hcol)
    have hs : fg.side = .right := (child_eq_root hup (Tree.root_join ..) .right).mp hright
    obtain ⟨-, -, hbeside, -, hw⟩ := hup.frame
    rw [hs] at hbeside
    exact ⟨hs, hw.colorAt.symm.trans ((congrArg (colorAt m) hbeside).symm.trans hleft)⟩

/-- In a lossy state `emplace` touches little, and the erasure nothing of it. -/
theorem lossy_validates (h : Both compare m C n key value key₂ e p t₂ s₁ s₂)
    (hl : Lossy compare m (plug C .nil) key key₂) :
    s₁.Validates s₂.writes ∧ ∀ l, .link l ∈ s₁.writes → l = slot C := by
  have hrep := h.valid.represents
  obtain ⟨fp, fg, rfl, rfl, hq, hred⟩ := h.lossy_frames hl
  have hup : Represents m (plug [fg] (fp.fill .nil)) := hrep
  obtain ⟨us, herase⟩ := h.erases
  have hwrite := eraseImpl_quiet (s := (Optimistic.Attempt.start m).readAllUntracked us) hrep
    h.valid.balanced h.mem rfl (Nat.lt_succ_self _) (herase _ (Nat.lt_succ_self _)) h.retires
    hup.root_frame hrep.parent_frame hq
  have hpm : fp.node.ptr ∈ (plug [fp, fg] (.nil : Tree Ptr Key Value)).ptrs :=
    top_inside (C := [fp, fg]) _ rfl
  have hgm : fg.node.ptr ∈ (plug [fg] (fp.fill (.nil : Tree Ptr Key Value))).ptrs :=
    top_inside (C := [fg]) _ rfl
  have hgp : fg.node.ptr ≠ fp.node.ptr := fun e =>
    (nodup_fill (nodup_of_plug (C := []) hup.nodup)).1 (e ▸ mem_ptrs_fill.mpr (.inl rfl))
  have haway : ∀ v ∈ s₂.writes, v ≠ .root ∧ v.owner ≠ some n ∧ v.owner ≠ some fp.node.ptr :=
    fun v hv => (hwrite v hv).away h.new h.mem hgm hgp
  cases hcol : fp.node.color with
  | black =>
    obtain ⟨hread, hset⟩ := emplace_below_black hrep h.new h.gap h.emplaces rfl hcol
    refine ⟨fun v hv => ?_, fun l hl => ?_⟩
    · obtain ⟨hroot, hown, hpar⟩ := haway v hv
      refine ⟨fun hr => ?_, fun hw => ?_⟩
      · rcases hread v hr with e | e | e
        · exact hroot e
        · exact hown e
        · exact hpar e
      · rw [hset] at hw
        rw [List.mem_singleton.mp hw] at hpar
        exact hpar rfl
    · rw [hset] at hl
      exact Var.link.inj (List.mem_singleton.mp hl)
  | red =>
    obtain ⟨hs, ho⟩ := hred hcol
    obtain ⟨q, b, c, hw, hqr⟩ := Tree.exists_join_of_red ho .left
    have hleft : m (.child .left fg.node.ptr) ≠ some fp.node.ptr := fun e => by
      have hside := (child_eq_root hup (Tree.root_join ..) .left).mp e
      rw [hs] at hside
      cases hside
    obtain ⟨d, g, w⟩ := fg
    obtain rfl : d = .right := hs
    obtain rfl : w = .join .left q b c := hw
    obtain ⟨hread, hset⟩ := emplace_below_red hrep h.new h.gap h.emplaces rfl hcol hqr
    refine ⟨fun v hv => ?_, fun l hl => ?_⟩
    · obtain ⟨hroot, hown, hpar⟩ := haway v hv
      obtain ⟨hchild, hup', hcolor⟩ := (hwrite v hv).away_red (hrep.frame.1.color.trans hcol) hleft
      refine ⟨fun hr => ?_, fun hw => ?_⟩
      · rcases hread v hr with e | e | e | e | e | ⟨r, e⟩
        · exact hroot e
        · exact hown e
        · exact hpar e
        · exact hchild e
        · exact hup' e
        · exact hcolor r e
      · rcases hset v hw with e | ⟨r, e⟩
        · rw [e] at hpar
          exact hpar rfl
        · exact hcolor r e
    · rcases hset _ hl with e | ⟨r, e⟩
      · exact Var.link.inj e
      · cases e

/-- **What is left in a lossy state** are the nodes the erasure has left. -/
theorem lossy_ptrs (h : Both compare m C n key value key₂ e p t₂ s₁ s₂)
    (hl : Lossy compare m (plug C .nil) key key₂)
    (ht : Represents (s₁.commit (s₂.commit m)) t') : t'.ptrs = t₂.ptrs := by
  have hrep := h.valid.represents
  obtain ⟨fp, fg, hC, hp, -⟩ := h.lossy_frames hl
  obtain ⟨-, hlink⟩ := h.lossy_validates hl
  obtain ⟨-, hpriv⟩ := emplace_footprint hrep h.new h.gap h.emplaces
  obtain ⟨x, -, -, hep⟩ := h.erasedPair
  have hp₂ : p ∉ t₂.ptrs := (List.nodup_cons.mp (hep.ptrs.nodup_iff.mp hrep.nodup)).1
  have hn₂ : n ∉ t₂.ptrs := fun hn => h.new (hep.ptrs.mem_iff.mpr (List.mem_cons_of_mem _ hn))
  -- the one link it has set belongs to the node taken out
  have hsame : ∀ l : Link Ptr, Inside (fun q => q ∈ t₂.ptrs) (Var.link l).owner →
      s₁.commit (s₂.commit m) (.link l) = s₂.commit m (.link l) := by
    refine fun l ho => Optimistic.Attempt.commit_of_notMem (fun hw => ?_) fun hpr => ?_
    · rw [hlink l hw, slot_owner_eq_top, hC] at ho
      exact hp₂ (ho p (congrArg some hp))
    · exact hn₂ (ho n (hpriv _ hpr))
  exact h.left.represents.same_ptrs ht (hsame .root inside_none) fun d q hq =>
    hsame (.child d q) (inside_some.mpr hq)

/-- **The new node is lost**: no link of the tree that is left leads to it. -/
theorem lossy_lost (h : Both compare m C n key value key₂ e p t₂ s₁ s₂)
    (hl : Lossy compare m (plug C .nil) key key₂)
    (ht : Represents (s₁.commit (s₂.commit m)) t') : n ∉ t'.ptrs := by
  obtain ⟨x, -, -, hep⟩ := h.erasedPair
  rw [h.lossy_ptrs hl ht]
  exact fun hn => h.new (hep.ptrs.mem_iff.mpr (List.mem_cons_of_mem _ hn))

end Both

end Conflict

/-! ## 6. When `emplace` keeps its node -/

/-- The tree in `m'` is `t` less one key equivalent to `key₂` and with the new node `n`. -/
def Inserted (compare : Key → Key → Bool) (m' : Memory Ptr Key Value) (t : Tree Ptr Key Value)
    (n : Ptr) (key key₂ : Key) : Prop :=
  ∃ t' j, Valid compare m' t' ∧ n ∈ t'.ptrs ∧ j ∈ t.keys ∧ Equivalent compare key₂ j ∧
    (j :: t'.keys).Perm (key :: t.keys)

section Validation

variable {value : Value} (ho : StrictWeak compare) (h : Valid compare m t) (hn : n ∉ t.ptrs)
  (h₁ : Returns (fun fuel => emplace compare fuel n key value) m () s₁)
  (h₂ : Returns (fun fuel => eraseOne compare fuel key₂) m true s₂)
include ho h hn h₁ h₂

theorem exists_both : ∃ C e p t₂, t = plug C .nil ∧
    Both compare m C n key value key₂ e p t₂ s₁ s₂ ∧
    ∀ x ∈ t.cells, x.1 = e → Equivalent compare key₂ x.2.1 := by
  rcases eraseOne_spec ho h key₂ with ⟨us, -, hret⟩ | ⟨us, x, hx, heq, hfound, s', t', p, hrun, hret,
    hval, hretired, hunl, hlink⟩
  · cases (h₂.unique hret).1
  obtain ⟨-, rfl⟩ := h₂.unique hret
  obtain ⟨C, hctx, hg⟩ := exists_gap (C := []) ho h.sorted (⟨nofun, nofun⟩ : Gap compare key [])
  obtain rfl : t = plug C .nil := hctx.symm
  refine ⟨C, x.1, p, t', rfl, ⟨h, hn, hg, h₁, List.mem_map_of_mem hx, hfound, ⟨us, hrun⟩, hretired,
    hunl, hlink, hret.commit_self ▸ hval⟩, fun y hy he => ?_⟩
  rw [Tree.cell_unique h.represents.nodup hy hx he]
  exact heq

/-- **`emplace` loses its node in the lossy states, and in no others.** It ran on the tree `erase_one`
    has erased a key of; that one has committed first. If the commit of `emplace` succeeds, the new
    node is in the tree, which is valid and has the right keys, exactly if the state was not lossy. -/
theorem emplace_validation_iff :
    (s₁.Validates s₂.writes → Inserted compare (s₁.commit (s₂.commit m)) t n key key₂) ↔
      ¬ Lossy compare m t key key₂ := by
  obtain ⟨C, e, p, t₂, rfl, hboth, heq⟩ := exists_both ho h hn h₁ h₂
  constructor
  · intro hins hl
    obtain ⟨t', j, hval, hmem, -⟩ := hins (hboth.lossy_validates hl).1
    exact hboth.lossy_lost hl hval.represents hmem
  · intro hl hv
    obtain ⟨s, t', -, -, hval, hmem, hperm⟩ := hboth.rerun ho (fun e => hboth.conflict e hl hv) hv
    obtain ⟨x, hx, hxe, hep⟩ := hboth.erasedPair
    refine ⟨t', x.2.1, hval, hmem, ?_, heq x hx hxe, ?_⟩
    · exact hep.keys_perm.symm.subset List.mem_cons_self
    · calc (x.2.1 :: t'.keys).Perm (x.2.1 :: key :: t₂.keys) := hperm.cons _
        _ |>.Perm (key :: x.2.1 :: t₂.keys) := .swap ..
        _ |>.Perm (key :: (plug C (.nil : Tree Ptr Key Value)).keys) := hep.keys_perm.symm.cons _

end Validation

/-- A new key below the red right child of the root, which goes. -/
theorem emplace_validation_iff_leaves :
    ¬ (((emplace less 9 7 7 70).outcome (memoryOf redLeaves)).Validates
        ((eraseOne less 9 6).outcome (memoryOf redLeaves)).writes →
      Inserted less (((emplace less 9 7 7 70).outcome (memoryOf redLeaves)).commit
        (((eraseOne less 9 6).outcome (memoryOf redLeaves)).commit (memoryOf redLeaves)))
        redLeaves 7 7 6) := by
  have h₁ : Returns (fun fuel => emplace less fuel 7 7 70) (memoryOf redLeaves) ()
      ((emplace less 9 7 7 70).outcome (memoryOf redLeaves)) := ⟨9, fun fuel hf => by
    obtain ⟨f, rfl⟩ := Nat.exists_eq_add_of_le' hf
    rfl⟩
  have h₂ : Returns (fun fuel => eraseOne less fuel 6) (memoryOf redLeaves) true
      ((eraseOne less 9 6).outcome (memoryOf redLeaves)) := ⟨9, fun fuel hf => by
    obtain ⟨f, rfl⟩ := Nat.exists_eq_add_of_le' hf
    rfl⟩
  have hgap : Gap less 7 [⟨.right, ⟨6, .red, 6, 60⟩, .nil⟩,
      ⟨.right, ⟨4, .black, 4, 40⟩, .node ⟨2, .red, 2, 20⟩ .nil .nil⟩] :=
    ⟨by decide, by decide⟩
  have hl : Lossy less (memoryOf redLeaves) redLeaves 7 6 :=
    ⟨6, 4, ⟨_, rfl, hgap, rfl⟩, ⟨6, rfl, .inl ⟨rfl, fun h => h.1 rfl⟩⟩, rfl, rfl, nofun, fun _ => ⟨rfl, rfl⟩⟩
  exact fun h => (emplace_validation_iff less_strictWeak redLeaves_valid (by decide) h₁ h₂).mp h hl

/-! ## 7. A lost node -/

/-- The tree after `emplace(4, 40)`, `emplace(2, 20)` and `emplace(6, 60)`. -/
def afterFour : Memory Nat Nat Nat := ((emplace less 9 4 4 40).outcome emptyMemory).view
def afterFourTwo : Memory Nat Nat Nat := ((emplace less 9 2 2 20).outcome afterFour).view
def afterThree : Memory Nat Nat Nat := ((emplace less 9 6 6 60).outcome afterFourTwo).view

theorem afterFour_represents : Represents afterFour (.node ⟨4, .black, 4, 40⟩ .nil .nil) :=
  ⟨rfl, by repeat' constructor, by decide⟩

theorem afterFourTwo_represents : Represents afterFourTwo
    (.node ⟨4, .black, 4, 40⟩ (.node ⟨2, .red, 2, 20⟩ .nil .nil) .nil) :=
  ⟨rfl, by repeat' constructor, by decide⟩

theorem afterThree_represents : Represents afterThree redLeaves :=
  ⟨rfl, by repeat' constructor, by decide⟩

theorem reached_emplace (n key value : Nat) {m : Memory Nat Nat Nat}
    {t : Tree Nat Nat Nat} {s : Attempt Nat Nat Nat} (h : Reached less m) (ht : Represents m t)
    (hn : n ∉ t.ptrs) (hs : Returns (fun fuel => emplace less fuel n key value) m () s) :
    Reached less s.view := .emplace h (fun _ ht' => (ht.unique ht') ▸ hn) hs

theorem afterThree_reached : Reached less afterThree := by
  have hempty : Represents (emptyMemory : Memory Nat Nat Nat) .nil := ⟨rfl, trivial, List.nodup_nil⟩
  have h₀ : Reached less (emptyMemory : Memory Nat Nat Nat) := .empty rfl
  have h₁ : Reached less afterFour :=
    reached_emplace 4 4 40 h₀ hempty List.not_mem_nil ⟨9, fun fuel hf => by
      obtain ⟨f, rfl⟩ := Nat.exists_eq_add_of_le' hf
      rfl⟩
  have h₂ : Reached less afterFourTwo :=
    reached_emplace 2 2 20 h₁ afterFour_represents (by decide) ⟨9, fun fuel hf => by
      obtain ⟨f, rfl⟩ := Nat.exists_eq_add_of_le' hf
      rfl⟩
  exact reached_emplace 6 6 60 h₂ afterFourTwo_represents (by decide) ⟨9, fun fuel hf => by
    obtain ⟨f, rfl⟩ := Nat.exists_eq_add_of_le' hf
    rfl⟩

/-- **Node 7 is lost.** `emplace(7, 70)` and `erase_one(6)` ran on the same tree; the erasure commits
    first, the insertion's commit succeeds, and no link of the tree leads to the new node. -/
theorem emplace_loses :
    Reached less afterThree ∧ Valid less afterThree redLeaves ∧ ∃ s₁ s₂,
      Returns (fun fuel => emplace less fuel 7 7 70) afterThree () s₁ ∧
      Returns (fun fuel => eraseOne less fuel 6) afterThree true s₂ ∧ s₁.Validates s₂.writes ∧
      ∀ t', Represents (s₁.commit (s₂.commit afterThree)) t' → 7 ∉ t'.ptrs := by
  refine ⟨afterThree_reached, ⟨afterThree_represents, redLeaves_valid.sorted,
    redLeaves_valid.balanced⟩, (emplace less 9 7 7 70).outcome afterThree,
    (eraseOne less 9 6).outcome afterThree, ⟨9, fun fuel hf => ?_⟩, ⟨9, fun fuel hf => ?_⟩, by decide,
    fun t' ht => ?_⟩
  · obtain ⟨f, rfl⟩ := Nat.exists_eq_add_of_le' hf
    rfl
  · obtain ⟨f, rfl⟩ := Nat.exists_eq_add_of_le' hf
    rfl
  · have hleft : Represents (((emplace less 9 7 7 70).outcome afterThree).commit
        (((eraseOne less 9 6).outcome afterThree).commit afterThree))
        (.node ⟨4, .black, 4, 40⟩ (.node ⟨2, .black, 2, 20⟩ .nil .nil) .nil) :=
      ⟨rfl, by repeat' constructor, by decide⟩
    rw [hleft.unique ht]
    decide

end Rbtree

end LockfreeStm
