/-
  File:      LockfreeStm/Rbtree/Shape.lean
  Subject:   TREES, CONTEXTS, AND THE MEMORIES THAT REPRESENT THEM.

  A `Tree` is what a memory of nodes stands for. A context is the path from a subtree up to the
  root, innermost frame first; `plug` puts a subtree into it. The fix-ups of the source climb this
  path, and every one of them changes the subtree at hand and the one link that leads to it:
  `Represents.replace` says that this is enough.
-/
import LockfreeStm.Rbtree.Program
import Mathlib.Data.List.Nodup

namespace LockfreeStm

namespace Rbtree

@[simp] theorem Side.other_other (d : Side) : d.other.other = d := by cases d <;> rfl
@[simp] theorem Side.other_ne (d : Side) : d.other ≠ d := by cases d <;> decide
theorem Side.other_eq_of_ne {d d' : Side} (h : d ≠ d') : d.other = d' := by
  cases d <;> cases d' <;> first | rfl | exact absurd rfl h
@[simp] theorem Side.ne_other (d : Side) : d ≠ d.other := by cases d <;> decide

/-! ## 1. Trees -/

/-- The vars of a node that are not links. -/
structure Node (Ptr Key Value : Type) where
  ptr : Ptr
  color : Color
  key : Key
  value : Value

/-- The node in another color. -/
def Node.paint {Ptr Key Value : Type} (n : Node Ptr Key Value) (c : Color) : Node Ptr Key Value :=
  { n with color := c }

section Paint

variable {Ptr Key Value : Type} (n : Node Ptr Key Value) (c : Color)

@[simp] theorem Node.paint_ptr : (n.paint c).ptr = n.ptr := rfl
@[simp] theorem Node.paint_color : (n.paint c).color = c := rfl
@[simp] theorem Node.paint_key : (n.paint c).key = n.key := rfl
@[simp] theorem Node.paint_value : (n.paint c).value = n.value := rfl
@[simp] theorem Node.paint_paint (c' : Color) : (n.paint c').paint c = n.paint c := rfl
@[simp] theorem Node.paint_self : n.paint n.color = n := rfl

end Paint

inductive Tree (Ptr Key Value : Type) where
  | nil
  | node (n : Node Ptr Key Value) (l r : Tree Ptr Key Value)

variable {Ptr Key Value : Type}

namespace Tree

/-- The pointer to the tree. -/
def root : Tree Ptr Key Value → Option Ptr
  | nil => none
  | node n _ _ => some n.ptr

/-- The color of the root; a null pointer is black. -/
def color : Tree Ptr Key Value → Color
  | nil => .black
  | node n _ _ => n.color

/-- The nodes in order, but for their colors. -/
def cells : Tree Ptr Key Value → List (Ptr × Key × Value)
  | nil => []
  | node n l r => l.cells ++ (n.ptr, n.key, n.value) :: r.cells

/-- The pointers in order. -/
def ptrs (t : Tree Ptr Key Value) : List Ptr := t.cells.map fun c => c.1

/-- The (key, value) pairs in order. -/
def pairs (t : Tree Ptr Key Value) : List (Key × Value) := t.cells.map fun c => c.2

/-- A red node has no red child. -/
def NoRedRed : Tree Ptr Key Value → Prop
  | nil => True
  | node n l r =>
    (n.color = .red → l.color = .black ∧ r.color = .black) ∧ l.NoRedRed ∧ r.NoRedRed

/-- Every path down to a null link carries `h` black nodes. -/
def BlackHeight : Tree Ptr Key Value → Nat → Prop
  | nil, h => h = 0
  | node n l r, h =>
    ∃ k, l.BlackHeight k ∧ r.BlackHeight k ∧ h = k + if n.color = .black then 1 else 0

/-- A node with `a` on side `d` and `b` on the other. -/
def join (d : Side) (n : Node Ptr Key Value) (a b : Tree Ptr Key Value) : Tree Ptr Key Value :=
  match d with
  | .left => node n a b
  | .right => node n b a

section Join

variable (d : Side) (n : Node Ptr Key Value) (a b : Tree Ptr Key Value)

theorem join_other : join d.other n a b = join d n b a := by cases d <;> rfl

@[simp] theorem root_nil : (nil : Tree Ptr Key Value).root = none := rfl
@[simp] theorem root_join : (join d n a b).root = some n.ptr := by cases d <;> rfl
@[simp] theorem color_nil : (nil : Tree Ptr Key Value).color = .black := rfl
@[simp] theorem color_join : (join d n a b).color = n.color := by cases d <;> rfl
@[simp] theorem cells_nil : (nil : Tree Ptr Key Value).cells = [] := rfl
@[simp] theorem ptrs_nil : (nil : Tree Ptr Key Value).ptrs = [] := rfl

/-- Pointers up to order. -/
theorem ptrs_join_perm : (join d n a b).ptrs.Perm (n.ptr :: (a.ptrs ++ b.ptrs)) := by
  cases d
  · simp only [join, ptrs, cells, List.map_append, List.map_cons]
    exact List.perm_middle
  · simp only [join, ptrs, cells, List.map_append, List.map_cons]
    exact List.perm_middle.trans (.cons _ List.perm_append_comm)

theorem mem_ptrs_join {p : Ptr} :
    p ∈ (join d n a b).ptrs ↔ p = n.ptr ∨ p ∈ a.ptrs ∨ p ∈ b.ptrs := by
  rw [(ptrs_join_perm d n a b).mem_iff, List.mem_cons, List.mem_append]

theorem noRedRed_join : (join d n a b).NoRedRed ↔
    (n.color = .red → a.color = .black ∧ b.color = .black) ∧ a.NoRedRed ∧ b.NoRedRed := by
  cases d
  · rfl
  · simp only [join, NoRedRed]
    tauto

theorem blackHeight_join {h : Nat} : (join d n a b).BlackHeight h ↔
    ∃ k, a.BlackHeight k ∧ b.BlackHeight k ∧ h = k + if n.color = .black then 1 else 0 := by
  cases d
  · rfl
  · simp only [join, BlackHeight]
    exact exists_congr fun k => by tauto

/-- A rotation keeps the order. -/
theorem cells_rotate {d : Side} {n p : Node Ptr Key Value} {a b c : Tree Ptr Key Value} :
    (join d p (join d n a b) c).cells = (join d n a (join d p b c)).cells := by
  cases d <;> simp [join, cells]

theorem cells_paint {d : Side} {n : Node Ptr Key Value} {a b : Tree Ptr Key Value} (c : Color) :
    (join d (n.paint c) a b).cells = (join d n a b).cells := by
  cases d <;> rfl

/-- A tree that is not empty is a join, on either side. -/
theorem exists_join {t : Tree Ptr Key Value} {p : Ptr} (h : t.root = some p) (d : Side) :
    ∃ n a b, t = join d n a b ∧ n.ptr = p := by
  cases t with
  | nil => cases h
  | node n l r =>
    cases d
    · exact ⟨n, l, r, rfl, Option.some.inj h⟩
    · exact ⟨n, r, l, rfl, Option.some.inj h⟩

end Join

theorem mem_ptrs_of_root {t : Tree Ptr Key Value} {p : Ptr} (h : t.root = some p) :
    p ∈ t.ptrs := by
  obtain ⟨n, a, b, rfl, rfl⟩ := exists_join h .left
  exact (mem_ptrs_join ..).mpr (.inl rfl)

end Tree

/-! ## 2. Contexts -/

/-- A step of the path up: the node, the side the hole is on, and the subtree on the other. -/
structure Frame (Ptr Key Value : Type) where
  side : Side
  node : Node Ptr Key Value
  other : Tree Ptr Key Value

/-- The subtree below the frame's node, with `t` in the hole. -/
def Frame.fill (f : Frame Ptr Key Value) (t : Tree Ptr Key Value) : Tree Ptr Key Value :=
  .join f.side f.node t f.other

/-- The path from a hole up to the root. -/
abbrev Context (Ptr Key Value : Type) := List (Frame Ptr Key Value)

/-- The whole tree, with `t` in the hole. -/
def plug : Context Ptr Key Value → Tree Ptr Key Value → Tree Ptr Key Value
  | [], t => t
  | f :: C, t => plug C (f.fill t)

/-- The hole on the other side. -/
theorem plug_other {d : Side} {n : Node Ptr Key Value} {a b : Tree Ptr Key Value}
    {C : Context Ptr Key Value} : plug (⟨d.other, n, a⟩ :: C) b = plug C (.join d n a b) :=
  congrArg (plug C) (Tree.join_other ..)

/-- The parent of the hole. -/
def top : Context Ptr Key Value → Option Ptr
  | [] => none
  | f :: _ => some f.node.ptr

/-- The link that leads to the hole. -/
def slot : Context Ptr Key Value → Link Ptr
  | [] => .root
  | f :: _ => .child f.side f.node.ptr

/-- What stands before the hole, in order. -/
def before : Context Ptr Key Value → List (Ptr × Key × Value)
  | [] => []
  | f :: C => match f.side with
    | .left => before C
    | .right => before C ++ f.other.cells ++ [(f.node.ptr, f.node.key, f.node.value)]

/-- What stands behind it. -/
def behind : Context Ptr Key Value → List (Ptr × Key × Value)
  | [] => []
  | f :: C => match f.side with
    | .left => (f.node.ptr, f.node.key, f.node.value) :: f.other.cells ++ behind C
    | .right => behind C

theorem cells_plug (C : Context Ptr Key Value) (t : Tree Ptr Key Value) :
    (plug C t).cells = before C ++ t.cells ++ behind C := by
  induction C generalizing t with
  | nil => simp [plug, before, behind]
  | cons f C ih =>
    rw [plug, ih]
    cases hs : f.side <;> simp [Frame.fill, hs, Tree.join, Tree.cells, before, behind]

theorem cells_plug_congr {t t' : Tree Ptr Key Value} (C : Context Ptr Key Value)
    (h : t'.cells = t.cells) : (plug C t').cells = (plug C t).cells := by
  rw [cells_plug, cells_plug, h]

/-- A path is no longer than the tree is large. -/
theorem length_le_cells (C : Context Ptr Key Value) (t : Tree Ptr Key Value) :
    C.length ≤ (plug C t).cells.length := by
  rw [cells_plug]
  have : C.length ≤ (before C).length + (behind C).length := by
    induction C with
    | nil => exact Nat.zero_le _
    | cons f C ih =>
      cases hs : f.side <;> simp [before, behind, hs] <;> omega
  simp only [List.length_append]
  omega

theorem plug_append (D C : Context Ptr Key Value) (t : Tree Ptr Key Value) :
    plug (D ++ C) t = plug C (plug D t) := by
  induction D generalizing t with
  | nil => rfl
  | cons f D ih => exact ih (f.fill t)

theorem before_append (D C : Context Ptr Key Value) : before (D ++ C) = before C ++ before D := by
  induction D with
  | nil => simp [before]
  | cons f D ih => cases hs : f.side <;> simp [before, hs, ih]

theorem behind_append (D C : Context Ptr Key Value) : behind (D ++ C) = behind D ++ behind C := by
  induction D with
  | nil => rfl
  | cons f D ih => cases hs : f.side <;> simp [behind, hs, ih]

/-- Every cell of a tree is at the root of some subtree. -/
theorem exists_hole {x : Ptr × Key × Value} (h : x ∈ t.cells) :
    ∃ C n l r, t = plug C (.node n l r) ∧ x = (n.ptr, n.key, n.value) := by
  induction t with
  | nil => cases h
  | node q a b iha ihb =>
    rw [Tree.cells, List.mem_append, List.mem_cons] at h
    rcases h with h | rfl | h
    · obtain ⟨C, n, l, r, rfl, rfl⟩ := iha h
      exact ⟨C ++ [⟨.left, q, b⟩], n, l, r, by rw [plug_append]; rfl, rfl⟩
    · exact ⟨[], q, a, b, rfl, rfl⟩
    · obtain ⟨C, n, l, r, rfl, rfl⟩ := ihb h
      exact ⟨C ++ [⟨.right, q, a⟩], n, l, r, by rw [plug_append]; rfl, rfl⟩

/-! ## 3. Memories that hold a tree -/

/-- The node a var belongs to; `root_` belongs to none. -/
def Var.owner : Var Ptr → Option Ptr
  | .link .root => none
  | .link (.child _ n) => some n
  | .parent n => some n
  | .color n => some n
  | .key n => some n
  | .value n => some n

/-- The memory holds the node, under `par`. -/
@[mk_iff]
structure Node.In (n : Node Ptr Key Value) (m : Memory Ptr Key Value) (par : Option Ptr) :
    Prop where
  parent : m (.parent n.ptr) = par
  color : m (.color n.ptr) = n.color
  key : m (.key n.ptr) = n.key
  value : m (.value n.ptr) = n.value

/-- The memory holds the tree, hanging from `par`. -/
def Holds (m : Memory Ptr Key Value) (par : Option Ptr) : Tree Ptr Key Value → Prop
  | .nil => True
  | .node n l r =>
    n.In m par ∧ m (.child .left n.ptr) = l.root ∧ m (.child .right n.ptr) = r.root ∧
      Holds m (some n.ptr) l ∧ Holds m (some n.ptr) r

section Holds

variable {m m' : Memory Ptr Key Value} {par : Option Ptr} {t : Tree Ptr Key Value}

theorem holds_join {d : Side} {n : Node Ptr Key Value} {a b : Tree Ptr Key Value} :
    Holds m par (.join d n a b) ↔
      n.In m par ∧ m (.child d n.ptr) = a.root ∧ m (.child d.other n.ptr) = b.root ∧
        Holds m (some n.ptr) a ∧ Holds m (some n.ptr) b := by
  cases d
  · rfl
  · simp only [Tree.join, Holds, Side.other]
    tauto

/-- Only the vars of the tree's own nodes matter. -/
theorem Holds.congr (h : Holds m par t)
    (hm : ∀ v p, v.owner = some p → p ∈ t.ptrs → m' v = m v) : Holds m' par t := by
  induction t generalizing par with
  | nil => trivial
  | node n l r ihl ihr =>
    have hn : n.ptr ∈ (Tree.node n l r).ptrs := (Tree.mem_ptrs_join .left n l r).mpr (.inl rfl)
    obtain ⟨hi, hl, hr, hhl, hhr⟩ := h
    refine ⟨⟨?_, ?_, ?_, ?_⟩, ?_, ?_, ihl hhl ?_, ihr hhr ?_⟩
    · rw [hm _ _ rfl hn, hi.parent]
    · rw [hm _ _ rfl hn, hi.color]
    · rw [hm _ _ rfl hn, hi.key]
    · rw [hm _ _ rfl hn, hi.value]
    · rw [hm _ _ rfl hn, hl]
    · rw [hm _ _ rfl hn, hr]
    · exact fun v p hv hp => hm v p hv ((Tree.mem_ptrs_join .left n l r).mpr (.inr (.inl hp)))
    · exact fun v p hv hp => hm v p hv ((Tree.mem_ptrs_join .left n l r).mpr (.inr (.inr hp)))

theorem Holds.color (h : Holds m par t) {p : Ptr} (ht : t.root = some p) :
    m (.color p) = t.color := by
  obtain ⟨n, a, b, rfl, rfl⟩ := Tree.exists_join ht .left
  exact (holds_join.mp h).1.color

/-- The memory stands for the tree. -/
structure Represents (m : Memory Ptr Key Value) (t : Tree Ptr Key Value) : Prop where
  root : m .root = t.root
  holds : Holds m none t
  nodup : t.ptrs.Nodup

end Holds

section Contexts

variable {m m' : Memory Ptr Key Value} {t t' : Tree Ptr Key Value} {C : Context Ptr Key Value}

theorem ptrs_plug (C : Context Ptr Key Value) (t : Tree Ptr Key Value) :
    (plug C t).ptrs = (before C).map (fun c => c.1) ++ t.ptrs ++
      (behind C).map (fun c => c.1) := by
  simp only [Tree.ptrs, cells_plug, List.map_append]

theorem nodup_of_plug (h : (plug C t).ptrs.Nodup) : t.ptrs.Nodup := by
  rw [ptrs_plug] at h
  exact h.of_append_left.of_append_right

theorem mem_ptrs_plug {p : Ptr} (h : p ∈ t.ptrs) : p ∈ (plug C t).ptrs := by
  rw [ptrs_plug]
  exact List.mem_append_left _ (List.mem_append_right _ h)

theorem mem_ptrs_fill {f : Frame Ptr Key Value} {p : Ptr} :
    p ∈ (f.fill t).ptrs ↔ p = f.node.ptr ∨ p ∈ t.ptrs ∨ p ∈ f.other.ptrs :=
  Tree.mem_ptrs_join ..

/-- The frame's node, the hole's tree and the tree beside it share no pointer. -/
theorem nodup_fill {f : Frame Ptr Key Value} (h : (f.fill t).ptrs.Nodup) :
    f.node.ptr ∉ t.ptrs ∧ f.node.ptr ∉ f.other.ptrs ∧ ∀ p ∈ t.ptrs, p ∉ f.other.ptrs := by
  rw [Frame.fill, (Tree.ptrs_join_perm ..).nodup_iff, List.nodup_cons, List.mem_append, not_or,
    List.nodup_append'] at h
  exact ⟨h.1.1, h.1.2, fun p hp ho => h.2.2.2 hp ho⟩

/-- The link to a hole belongs to no node outside the tree. -/
theorem slot_ne_child {n : Ptr} (hn : n ∉ (plug C t).ptrs) (d : Side) :
    slot C ≠ .child d n := by
  cases C with
  | nil => nofun
  | cons f C =>
    intro e
    refine hn (mem_ptrs_plug (C := C) (t := f.fill t) (mem_ptrs_fill.mpr (.inl ?_)))
    exact (Link.child.inj e).2.symm

/-- The pointer is null or in the set. -/
def Inside (ps : Ptr → Prop) (o : Option Ptr) : Prop := ∀ p, o = some p → ps p

section Inside

variable {P : Ptr → Prop} {n : Ptr}

@[simp] theorem inside_none : Inside P none := nofun
@[simp] theorem inside_some : Inside P (some n) ↔ P n :=
  ⟨fun h => h n rfl, fun h _ e => Option.some.inj e ▸ h⟩

end Inside

theorem top_inside : Inside (fun p => p ∈ (plug C t).ptrs) (top C) := by
  cases C with
  | nil => exact inside_none
  | cons f C =>
    exact inside_some.mpr (mem_ptrs_plug (C := C) (t := f.fill t) (mem_ptrs_fill.mpr (.inl rfl)))

theorem root_inside : Inside (fun p => p ∈ t.ptrs) t.root := fun _ h => Tree.mem_ptrs_of_root h

/-- Every node of a tree is the root of some subtree. -/
theorem exists_hole_of_mem {p : Ptr} (h : p ∈ t.ptrs) :
    ∃ C n l r, t = plug C (.node n l r) ∧ n.ptr = p := by
  obtain ⟨x, hx, rfl⟩ := List.mem_map.mp h
  obtain ⟨C, n, l, r, ht, rfl⟩ := exists_hole hx
  exact ⟨C, n, l, r, ht, rfl⟩

theorem slot_owner_eq_top : (Var.link (slot C)).owner = top C := by
  cases C with
  | nil => rfl
  | cons f C => rfl

namespace Represents

/-- What the memory holds at a hole: the link to it, and the subtree. -/
theorem at_hole (h : Represents m (plug C t)) :
    m (.link (slot C)) = t.root ∧ Holds m (top C) t := by
  induction C generalizing t with
  | nil => exact ⟨h.root, h.holds⟩
  | cons f C ih =>
    obtain ⟨-, hf⟩ := ih (t := f.fill t) h
    rw [Frame.fill, holds_join] at hf
    exact ⟨hf.2.1, hf.2.2.2.1⟩

/-- The root of the hole's tree points back. -/
theorem parent (h : Represents m (plug C t)) {p : Ptr} (ht : t.root = some p) :
    m (.parent p) = top C := by
  obtain ⟨n, a, b, rfl, rfl⟩ := Tree.exists_join ht .left
  exact (holds_join.mp h.at_hole.2).1.parent

/-- The frame above the hole. -/
theorem frame {f : Frame Ptr Key Value} (h : Represents m (plug (f :: C) t)) :
    f.node.In m (top C) ∧ m (.child f.side f.node.ptr) = t.root ∧
      m (.child f.side.other f.node.ptr) = f.other.root ∧
      Holds m (some f.node.ptr) t ∧ Holds m (some f.node.ptr) f.other :=
  holds_join.mp (at_hole (t := f.fill t) h).2

/-- The owner of the link to a hole is not in the hole's tree. -/
theorem slot_owner (h : (plug C t).ptrs.Nodup) :
    ∀ p ∈ t.ptrs, (Var.link (slot C)).owner ≠ some p := by
  intro p hp
  cases C with
  | nil => nofun
  | cons f C =>
    have hf : (f.fill t).ptrs.Nodup := nodup_of_plug (C := C) h
    rintro ⟨⟩
    exact (nodup_fill hf).1 hp

/-- **A change below a hole.** Another memory differs from `m` only at the link to the hole and at
    the vars of the nodes in the hole; there it holds `t'` instead of `t`. -/
theorem replace (h : Represents m (plug C t))
    (outside : ∀ v, v ≠ .link (slot C) → (∀ p ∈ t.ptrs, v.owner ≠ some p) → m' v = m v)
    (link : m' (.link (slot C)) = t'.root) (holds : Holds m' (top C) t')
    (nodup : (plug C t').ptrs.Nodup) : Represents m' (plug C t') := by
  induction C generalizing t t' with
  | nil => exact ⟨link, holds, nodup⟩
  | cons f C ih =>
    have hn : (plug C (f.fill t)).ptrs.Nodup := h.nodup
    obtain ⟨hp, ho, hd⟩ := nodup_fill (nodup_of_plug hn)
    obtain ⟨hl, hf⟩ := at_hole (t := f.fill t) h
    rw [Frame.fill, holds_join] at hf
    have hfp : f.node.ptr ∈ (f.fill t).ptrs := mem_ptrs_fill.mpr (.inl rfl)
    -- the vars of the frame that are not the link to the hole
    have hout : ∀ v, v ≠ .child f.side f.node.ptr → v.owner = some f.node.ptr → m' v = m v :=
      fun v hv hw => outside v hv fun p hpt e =>
        hp (by rw [hw] at e; exact Option.some.inj e ▸ hpt)
    refine @ih (f.fill t) (f.fill t') h (fun v hv hvo => ?_) ?_ ?_ nodup
    · refine outside v ?_ fun p hpt => hvo p (mem_ptrs_fill.mpr (.inr (.inl hpt)))
      rintro rfl
      exact hvo _ hfp rfl
    · have hs := slot_owner hn
      rw [outside _ (fun e => hs _ hfp (by rw [e]; rfl))
        (fun p hpt => hs p (mem_ptrs_fill.mpr (.inr (.inl hpt)))), hl, Frame.fill, Frame.fill,
        Tree.root_join, Tree.root_join]
    · rw [Frame.fill, holds_join]
      refine ⟨⟨?_, ?_, ?_, ?_⟩, link, ?_, holds, ?_⟩
      · rw [hout (.parent f.node.ptr) nofun rfl, hf.1.parent]
      · rw [hout (.color f.node.ptr) nofun rfl, hf.1.color]
      · rw [hout (.key f.node.ptr) nofun rfl, hf.1.key]
      · rw [hout (.value f.node.ptr) nofun rfl, hf.1.value]
      · rw [hout (.child f.side.other f.node.ptr) (by simp) rfl, hf.2.2.1]
      · refine hf.2.2.2.2.congr fun v p hv hpo => outside v ?_ fun q hq e => ?_
        · rintro rfl
          exact ho (Option.some.inj hv ▸ hpo)
        · rw [hv] at e
          exact hd q hq (Option.some.inj e ▸ hpo)

end Represents

/-- The links of the parent tell the side of the hole. -/
theorem child_eq_root {f : Frame Ptr Key Value}
    (h : Represents m (plug (f :: C) t)) {n : Ptr} (ht : t.root = some n) (d : Side) :
    m (.child d f.node.ptr) = some n ↔ f.side = d := by
  obtain ⟨-, hc, ho, -⟩ := h.frame
  obtain ⟨-, -, hd⟩ := nodup_fill (nodup_of_plug (C := C) (t := f.fill t) h.nodup)
  by_cases hs : f.side = d
  · rw [← hs]
    exact iff_of_true (hc.trans ht) rfl
  · rw [← Side.other_eq_of_ne hs]
    refine iff_of_false (fun e => ?_) (Side.ne_other _)
    exact hd n (Tree.mem_ptrs_of_root ht) (Tree.mem_ptrs_of_root (ho.symm.trans e))

/-- Exactly one link of the tree leads to a node. -/
theorem Represents.link_unique (h : Represents m (plug C t)) {p : Ptr} (ht : t.root = some p)
    {l : Link Ptr} (hl : m (.link l) = some p)
    (ho : Inside (fun q => q ∈ (plug C t).ptrs) (Var.link l).owner) : l = slot C := by
  have hpar := h.parent ht
  cases l with
  | root =>
    have hnone := Represents.parent (C := []) h (h.root.symm.trans hl)
    cases C with
    | nil => rfl
    | cons f C => exact absurd (hpar.symm.trans hnone) nofun
  | child d q =>
    -- the owner of the link is the parent
    obtain ⟨D, n, a, b, hD, rfl⟩ := exists_hole_of_mem (ho q rfl)
    have hq : m (.parent p) = some n.ptr := by
      rw [hD] at h
      obtain ⟨-, ha, hb, -⟩ := h.at_hole.2
      cases d with
      | left => exact Represents.parent (C := ⟨.left, n, b⟩ :: D) h (ha.symm.trans hl)
      | right => exact Represents.parent (C := ⟨.right, n, a⟩ :: D) h (hb.symm.trans hl)
    cases C with
    | nil => exact absurd (hpar.symm.trans hq) nofun
    | cons f C =>
      have hf : f.node.ptr = n.ptr := Option.some.inj (hpar.symm.trans hq)
      rw [← hf] at hl
      rw [slot, (child_eq_root h ht d).mp hl, hf]

end Contexts

end Rbtree

end LockfreeStm
