/-
  File:      LockfreeStm/Rbtree/Balance.lean
  Subject:   THE COLOR RULES, at a hole of a tree.

  While the tree is being repaired the subtree at hand breaks the rules. What is known of the rest
  is said with a stand-in: some subtree `u` that would make the whole tree balanced. Any subtree of
  the same black height that keeps the rules can take its place (`Balanced.replace`).
-/
import LockfreeStm.Rbtree.Shape

namespace LockfreeStm

namespace Rbtree

variable {Ptr Key Value : Type}

/-- The color rules of a red-black tree. -/
structure Balanced (t : Tree Ptr Key Value) : Prop where
  rootBlack : t.color = .black
  noRedRed : t.NoRedRed
  blackHeight : ∃ h, t.BlackHeight h

theorem color_eq_red_of_ne {c : Color} (h : c ≠ .black) : c = .red := by
  cases c
  · rfl
  · exact absurd rfl h

theorem color_eq_black_of_ne {c : Color} (h : c ≠ .red) : c = .black := by
  cases c
  · exact absurd rfl h
  · rfl

/-- The black height is unique. -/
theorem Tree.BlackHeight.unique {t : Tree Ptr Key Value} {h k : Nat} (hh : t.BlackHeight h)
    (hk : t.BlackHeight k) : h = k := by
  induction t generalizing h k with
  | nil => exact hh.trans hk.symm
  | node n l r ihl _ =>
    obtain ⟨h', hl, -, rfl⟩ := hh
    obtain ⟨k', kl, -, rfl⟩ := hk
    rw [ihl hl kl]

/-- A subtree that carries a black node is not empty. -/
theorem Tree.BlackHeight.exists_root {t : Tree Ptr Key Value} {h : Nat}
    (hh : t.BlackHeight (h + 1)) : ∃ p, t.root = some p := by
  cases t with
  | nil => exact absurd hh (Nat.succ_ne_zero h)
  | node n l r => exact ⟨n.ptr, rfl⟩

section Join

variable {d : Side} {n : Node Ptr Key Value} {a b : Tree Ptr Key Value} {h : Nat}

theorem blackHeight_join_red (hn : n.color = .red) :
    (Tree.join d n a b).BlackHeight h ↔ a.BlackHeight h ∧ b.BlackHeight h := by
  rw [Tree.blackHeight_join, hn]
  exact ⟨fun ⟨k, ha, hb, hk⟩ => hk ▸ ⟨ha, hb⟩, fun hh => ⟨h, hh.1, hh.2, rfl⟩⟩

theorem blackHeight_join_black (hn : n.color = .black) :
    (Tree.join d n a b).BlackHeight (h + 1) ↔ a.BlackHeight h ∧ b.BlackHeight h := by
  rw [Tree.blackHeight_join, hn]
  exact ⟨fun ⟨k, ha, hb, hk⟩ => Nat.succ.inj hk ▸ ⟨ha, hb⟩, fun hh => ⟨h, hh.1, hh.2, rfl⟩⟩

theorem noRedRed_join_black (hn : n.color = .black) :
    (Tree.join d n a b).NoRedRed ↔ a.NoRedRed ∧ b.NoRedRed := by
  rw [Tree.noRedRed_join, hn]
  exact ⟨fun h => h.2, fun h => ⟨nofun, h⟩⟩

theorem noRedRed_join_red (hn : n.color = .red) :
    (Tree.join d n a b).NoRedRed ↔
      (a.color = .black ∧ b.color = .black) ∧ a.NoRedRed ∧ b.NoRedRed := by
  rw [Tree.noRedRed_join, hn]
  exact ⟨fun h => ⟨h.1 rfl, h.2⟩, fun h => ⟨fun _ => h.1, h.2⟩⟩

end Join

/-- The color of the node above the hole; above the root a red child is no better than below a red
    node. -/
def parentColor : Context Ptr Key Value → Color
  | [] => .red
  | f :: _ => f.node.color

section Holes

variable {C : Context Ptr Key Value} {f : Frame Ptr Key Value} {t u : Tree Ptr Key Value} {h : Nat}

theorem color_fill : (f.fill t).color = f.node.color := Tree.color_join ..

theorem noRedRed_fill : (f.fill t).NoRedRed ↔
    (f.node.color = .red → t.color = .black ∧ f.other.color = .black) ∧
      t.NoRedRed ∧ f.other.NoRedRed := Tree.noRedRed_join ..

theorem blackHeight_fill : (f.fill t).BlackHeight h ↔
    ∃ k, t.BlackHeight k ∧ f.other.BlackHeight k ∧ h = k + if f.node.color = .black then 1 else 0 :=
  Tree.blackHeight_join ..

/-- The rules hold in the hole. -/
theorem Balanced.at_hole (hb : Balanced (plug C u)) :
    u.NoRedRed ∧ ∃ h, u.BlackHeight h := by
  induction C generalizing u with
  | nil => exact ⟨hb.noRedRed, hb.blackHeight⟩
  | cons f C ih =>
    obtain ⟨hn, k, hk⟩ := ih (u := f.fill u) hb
    obtain ⟨k', hu, -, -⟩ := blackHeight_fill.mp hk
    exact ⟨(noRedRed_fill.mp hn).2.1, k', hu⟩

/-- A red subtree hangs from a black node. -/
theorem Balanced.parentColor_of_red (hb : Balanced (plug C u)) (hu : u.color = .red) :
    parentColor C = .black := by
  cases C with
  | nil => exact absurd (hu.symm.trans hb.rootBlack) nofun
  | cons f C =>
    obtain ⟨hn, -⟩ := Balanced.at_hole (C := C) (u := f.fill u) hb
    refine color_eq_black_of_ne fun hr => ?_
    exact absurd (hu.symm.trans ((noRedRed_fill.mp hn).1 hr).1) nofun

/-- **Another subtree in the hole**, of the same black height and, below a red node, black. -/
theorem Balanced.replace (hb : Balanced (plug C u)) (hu : u.BlackHeight h)
    (ht : t.BlackHeight h) (hn : t.NoRedRed) (hc : t.color = .red → parentColor C = .black) :
    Balanced (plug C t) := by
  induction C generalizing u t h with
  | nil => exact ⟨color_eq_black_of_ne fun hr => absurd (hc hr) nofun, hn, h, ht⟩
  | cons f C ih =>
    obtain ⟨hnu, k, hk⟩ := Balanced.at_hole (C := C) (u := f.fill u) hb
    obtain ⟨k', hu', ho, rfl⟩ := blackHeight_fill.mp hk
    obtain rfl := hu'.unique hu
    rw [noRedRed_fill] at hnu
    refine ih (u := f.fill u) (t := f.fill t) hb hk (blackHeight_fill.mpr ⟨k', ht, ho, rfl⟩)
      (noRedRed_fill.mpr ⟨fun hr => ⟨?_, (hnu.1 hr).2⟩, hn, hnu.2.2⟩) fun hr => ?_
    · exact color_eq_black_of_ne fun htr => absurd (hr.symm.trans (hc htr)) nofun
    · exact Balanced.parentColor_of_red hb (color_fill.trans (color_fill.symm.trans hr))

/-- What surrounds a hole below a red node: the node above is black, the subtrees beside carry
    as many black nodes as the hole's. -/
theorem Balanced.around_red {fp fg : Frame Ptr Key Value}
    (hb : Balanced (plug (fp :: fg :: C) u)) (hu : u.BlackHeight h) (hp : fp.node.color = .red) :
    fg.node.color = .black ∧
      (fp.other.color = .black ∧ fp.other.NoRedRed ∧ fp.other.BlackHeight h) ∧
      (fg.other.NoRedRed ∧ fg.other.BlackHeight h) ∧ (fg.fill (fp.fill u)).BlackHeight (h + 1) := by
  have hg : fg.node.color = .black :=
    Balanced.parentColor_of_red (C := fg :: C) (u := fp.fill u) hb (color_fill.trans hp)
  obtain ⟨hn, k, hk⟩ := Balanced.at_hole (C := C) (u := fg.fill (fp.fill u)) hb
  obtain ⟨-, hnp, hng⟩ := noRedRed_fill.mp hn
  obtain ⟨hnr, -, hnx⟩ := noRedRed_fill.mp hnp
  obtain ⟨k', hkp, hkg, rfl⟩ := blackHeight_fill.mp hk
  obtain ⟨k'', hku, hkx, rfl⟩ := blackHeight_fill.mp hkp
  obtain rfl := hku.unique hu
  rw [if_neg (by rw [hp]; nofun)] at hkg hk
  rw [if_pos hg] at hk
  exact ⟨hg, ⟨(hnr hp).2, hnx, hkx⟩, ⟨hng, hkg⟩, hk⟩

/-- What stands beside a hole, and above it. -/
theorem Balanced.beside (hb : Balanced (plug (f :: C) u)) (hu : u.BlackHeight h) :
    f.other.NoRedRed ∧ f.other.BlackHeight h ∧
      (f.node.color = .red → f.other.color = .black ∧ parentColor C = .black) ∧
      (f.fill u).BlackHeight (h + if f.node.color = .black then 1 else 0) := by
  obtain ⟨hn, k, hk⟩ := Balanced.at_hole (C := C) (u := f.fill u) hb
  obtain ⟨hr, -, ho⟩ := noRedRed_fill.mp hn
  obtain ⟨k', hku, hko, rfl⟩ := blackHeight_fill.mp hk
  obtain rfl := hku.unique hu
  exact ⟨ho, hko, fun hred => ⟨(hr hred).2,
    Balanced.parentColor_of_red (C := C) (u := f.fill u) hb (color_fill.trans hred)⟩, hk⟩

end Holes

end Rbtree

end LockfreeStm
