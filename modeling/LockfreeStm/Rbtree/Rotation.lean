/-
  File:      LockfreeStm/Rbtree/Rotation.lean
  Subject:   WHAT THE ACCESSES DO TO A RUN, and the rotations.

  The rules of section 1 run a program access by access. A rotation at a node of a represented tree
  succeeds, and the memory then represents the rotated tree (`rotate_represents`).
-/
import LockfreeStm.Rbtree.Descendants

namespace LockfreeStm

namespace Rbtree

variable {Ptr Key Value α : Type} [DecidableEq Ptr]

/-- An attempt at a transaction on a tree. -/
abbrev Attempt (Ptr Key Value : Type) := Optimistic.Attempt (Content Ptr Key Value) Ptr

/-! ## 1. Accesses -/

section Accesses

variable {s : Attempt Ptr Key Value} {v : Var Ptr} {x : Content Ptr Key Value v} {n : Ptr}
  {l : Link Ptr}

@[simp] theorem run_getLink : (getLink l).run s = .ok (s.view (.link l), s.read (.link l)) := rfl
@[simp] theorem run_getParent : (getParent n).run s = .ok (s.view (.parent n), s.read (.parent n)) :=
  rfl
@[simp] theorem run_getColor : (getColor n).run s = .ok (s.view (.color n), s.read (.color n)) := rfl
@[simp] theorem run_set : (set v x).run s = .ok ((), s.write v x) := rfl
@[simp] theorem run_unsafeSet : (unsafeSet v x).run s = .ok ((), s.store v x) := rfl
@[simp] theorem run_destroyDeallocate :
    (destroyDeallocate n).run s = .ok ((), s.retire n) := rfl
@[simp] theorem run_deref : (deref (some n)).run s = .ok (n, s) := rfl

section Then

variable {f : Option Ptr → Program Ptr Key Value α} {fc : Color → Program Ptr Key Value α}
  {fk : Key → Program Ptr Key Value α} {fv : Value → Program Ptr Key Value α}
  {g : Unit → Program Ptr Key Value α} {k : Ptr → Program Ptr Key Value α}

@[simp] theorem run_getLink_bind :
    (getLink l >>= f).run s = (f (s.view (.link l))).run (s.read (.link l)) := rfl
@[simp] theorem run_getParent_bind :
    (getParent n >>= f).run s = (f (s.view (.parent n))).run (s.read (.parent n)) := rfl
@[simp] theorem run_getColor_bind :
    (getColor n >>= fc).run s = (fc (s.view (.color n))).run (s.read (.color n)) := rfl
@[simp] theorem run_getKey_bind :
    (getKey n >>= fk).run s = (fk (s.view (.key n))).run (s.read (.key n)) := rfl
@[simp] theorem run_getValue_bind :
    (getValue n >>= fv).run s = (fv (s.view (.value n))).run (s.read (.value n)) := rfl
@[simp] theorem run_untrackedLink_bind :
    (untrackedLink l >>= f).run s = (f (s.view (.link l))).run (s.readUntracked (.link l)) := rfl
@[simp] theorem run_untrackedKey_bind :
    (untrackedKey n >>= fk).run s = (fk (s.view (.key n))).run (s.readUntracked (.key n)) := rfl
@[simp] theorem run_unsafeKey_bind :
    (unsafeKey n >>= fk).run s = (fk (s.view (.key n))).run (s.readUntracked (.key n)) := rfl
@[simp] theorem run_set_bind : (set v x >>= g).run s = (g ()).run (s.write v x) := rfl
@[simp] theorem run_unsafeSet_bind :
    (unsafeSet v x >>= g).run s = (g ()).run (s.store v x) := rfl
@[simp] theorem run_deref_bind : (deref (some n) >>= k).run s = (k n).run s := rfl

end Then

section Looks

variable {m : Memory Ptr Key Value}

theorem looks_getLink : (getLink l).Looks m (m (.link l)) := fun _ hs => ⟨[.link l], hs ▸ rfl⟩
theorem looks_getParent : (getParent n).Looks m (m (.parent n)) :=
  fun _ hs => ⟨[.parent n], hs ▸ rfl⟩
theorem looks_getColor : (getColor n).Looks m (m (.color n)) := fun _ hs => ⟨[.color n], hs ▸ rfl⟩
theorem looks_getKey : (getKey n).Looks m (m (.key n)) := fun _ hs => ⟨[.key n], hs ▸ rfl⟩
theorem looks_deref : (deref (some n) : Program Ptr Key Value Ptr).Looks m n := .pure n

end Looks

/-- `s` after `if (q) q->parent_.set(tx, par)`. -/
def reparented (s : Attempt Ptr Key Value) (q par : Option Ptr) : Attempt Ptr Key Value :=
  match q with
  | some q => s.write (.parent q) par
  | none => s

@[simp] theorem run_setParentOf {q par : Option Ptr} :
    (setParentOf q par).run s = .ok ((), reparented s q par) := by
  cases q <;> rfl

@[simp] theorem run_setParentOf_bind {q par : Option Ptr} {g : Unit → Program Ptr Key Value α} :
    (setParentOf q par >>= g).run s = (g ()).run (reparented s q par) :=
  Optimistic.Program.run_bind_ok run_setParentOf

end Accesses

/-! ## 2. Memories that change -/

section Updates

variable {m : Memory Ptr Key Value} {v : Var Ptr} {x : Content Ptr Key Value v} {par : Option Ptr}
  {t : Tree Ptr Key Value}

section Owner

omit [DecidableEq Ptr]

@[simp] theorem owner_child (d : Side) (n : Ptr) : (Var.child d n).owner = some n := rfl
@[simp] theorem owner_parent (n : Ptr) : (Var.parent n).owner = some n := rfl
@[simp] theorem owner_color (n : Ptr) : (Var.color n).owner = some n := rfl
@[simp] theorem owner_key (n : Ptr) : (Var.key n).owner = some n := rfl
@[simp] theorem owner_value (n : Ptr) : (Var.value n).owner = some n := rfl

end Owner

/-- A var of a node outside the tree. -/
theorem holds_update (h : ∀ p ∈ t.ptrs, v.owner ≠ some p) :
    Holds (Function.update m v x) par t ↔ Holds m par t := by
  have hv : ∀ w p, w.owner = some p → p ∈ t.ptrs → Function.update m v x w = m w :=
    fun w p hw hp => Function.update_of_ne (fun e : w = v => h p hp (e ▸ hw)) _ _
  exact ⟨fun hh => hh.congr fun w p hw hp => (hv w p hw hp).symm, fun hh => hh.congr hv⟩

section

variable {n : Ptr} {o : Option Ptr}

theorem holds_update_of_owner (hv : v.owner = some n) (h : n ∉ t.ptrs) :
    Holds (Function.update m v x) par t ↔ Holds m par t :=
  holds_update fun _ hp e => h (Option.some.inj (hv.symm.trans e) ▸ hp)

@[simp] theorem holds_update_child {d : Side} (h : n ∉ t.ptrs) :
    Holds (Function.update m (.child d n) o) par t ↔ Holds m par t :=
  holds_update_of_owner rfl h

@[simp] theorem holds_update_parent (h : n ∉ t.ptrs) :
    Holds (Function.update m (.parent n) o) par t ↔ Holds m par t :=
  holds_update_of_owner rfl h

@[simp] theorem holds_update_color {c : Color} (h : n ∉ t.ptrs) :
    Holds (Function.update m (.color n) c) par t ↔ Holds m par t :=
  holds_update_of_owner rfl h

@[simp] theorem holds_update_key {k : Key} (h : n ∉ t.ptrs) :
    Holds (Function.update m (.key n) k) par t ↔ Holds m par t :=
  holds_update_of_owner rfl h

@[simp] theorem holds_update_value {w : Value} (h : n ∉ t.ptrs) :
    Holds (Function.update m (.value n) w) par t ↔ Holds m par t :=
  holds_update_of_owner rfl h

end

/-- The memory after the parent link of `q`, if there is one, has been set. -/
def reparent (m : Memory Ptr Key Value) (q par : Option Ptr) : Memory Ptr Key Value :=
  match q with
  | some q => Function.update m (.parent q) par
  | none => m

variable {q : Option Ptr}

@[simp] theorem reparented_view (s : Attempt Ptr Key Value) :
    (reparented s q par).view = reparent s.view q par := by cases q <;> rfl
@[simp] theorem reparented_retired (s : Attempt Ptr Key Value) :
    (reparented s q par).retired = s.retired := by cases q <;> rfl
theorem reparented_writes (s : Attempt Ptr Key Value) :
    (reparented s q par).writes = (q.toList.map fun p => Var.parent p) ++ s.writes := by
  cases q <;> rfl
@[simp] theorem reparented_reads (s : Attempt Ptr Key Value) :
    (reparented s q par).reads = s.reads := by cases q <;> rfl

/-- Only parent links change. -/
theorem reparent_of_ne (h : ∀ p, v ≠ .parent p) : reparent m q par v = m v := by
  cases q with
  | none => rfl
  | some q => exact Function.update_of_ne (h q) _ _

@[simp] theorem reparent_link (l : Link Ptr) : reparent m q par (.link l) = m (.link l) :=
  reparent_of_ne fun _ => nofun

@[simp] theorem reparent_color (n : Ptr) : reparent m q par (.color n) = m (.color n) :=
  reparent_of_ne fun _ => nofun

@[simp] theorem reparent_key (n : Ptr) : reparent m q par (.key n) = m (.key n) :=
  reparent_of_ne fun _ => nofun

@[simp] theorem reparent_value (n : Ptr) : reparent m q par (.value n) = m (.value n) :=
  reparent_of_ne fun _ => nofun

@[simp] theorem reparent_parent {n : Ptr} (h : q ≠ some n) :
    reparent m q par (.parent n) = m (.parent n) := by
  cases q with
  | none => rfl
  | some q => exact Function.update_of_ne (fun e => h (congrArg some (Var.parent.inj e).symm)) _ _

/-- The pointer is null or not in the tree. -/
def Outside (q : Option Ptr) (t : Tree Ptr Key Value) : Prop := ∀ p, q = some p → p ∉ t.ptrs

@[simp] theorem holds_reparent {par' : Option Ptr} (h : Outside q t) :
    Holds (reparent m q par') par t ↔ Holds m par t := by
  cases q with
  | none => rfl
  | some q => exact holds_update_parent (h q rfl)

/-- A tree hangs from its new parent. -/
theorem Holds.reparent (h : Holds m par t) (hn : t.ptrs.Nodup) (par' : Option Ptr) :
    Holds (reparent m t.root par') par' t := by
  cases t with
  | nil => trivial
  | node n l r =>
    have hn' : (Tree.join .left n l r).ptrs.Nodup := hn
    rw [(Tree.ptrs_join_perm ..).nodup_iff, List.nodup_cons, List.mem_append, not_or] at hn'
    have hw : ∀ w : Var Ptr, w ≠ .parent n.ptr →
        Rbtree.reparent m (some n.ptr) par' w = m w :=
      fun w hw => Function.update_of_ne hw _ _
    obtain ⟨hi, hl, hr, hhl, hhr⟩ := h
    refine ⟨⟨Function.update_self .., ?_, ?_, ?_⟩, ?_, ?_, ?_, ?_⟩
    · exact (reparent_color n.ptr).trans hi.color
    · exact (reparent_key n.ptr).trans hi.key
    · exact (reparent_value n.ptr).trans hi.value
    · exact (reparent_link _).trans hl
    · exact (reparent_link _).trans hr
    · refine hhl.congr fun v p hv hp => hw v ?_
      rintro rfl
      exact hn'.1.1 (Option.some.inj hv ▸ hp)
    · refine hhr.congr fun v p hv hp => hw v ?_
      rintro rfl
      exact hn'.1.2 (Option.some.inj hv ▸ hp)

/-- `m'` differs from `m` only at the link `l` and at the vars of the nodes `ps`. -/
def ChangedAt (m m' : Memory Ptr Key Value) (l : Link Ptr) (ps : List Ptr) : Prop :=
  ∀ v, v ≠ .link l → (∀ p ∈ ps, v.owner ≠ some p) → m' v = m v

namespace ChangedAt

variable {m' : Memory Ptr Key Value} {l : Link Ptr} {ps : List Ptr}

omit [DecidableEq Ptr] in
theorem refl : ChangedAt m m l ps := fun _ _ _ => rfl

theorem update (h : ChangedAt m m' l ps) {p : Ptr} (hv : v.owner = some p) (hp : p ∈ ps) :
    ChangedAt m (Function.update m' v x) l ps := by
  intro w hl hw
  rw [Function.update_of_ne (fun e : w = v => hw p hp (e ▸ hv))]
  exact h w hl hw

theorem update_link (h : ChangedAt m m' l ps) {x : Option Ptr} :
    ChangedAt m (Function.update m' (.link l) x) l ps := by
  intro w hl hw
  rw [Function.update_of_ne hl]
  exact h w hl hw

theorem reparent (h : ChangedAt m m' l ps) (hq : ∀ p, q = some p → p ∈ ps) :
    ChangedAt m (reparent m' q par) l ps := by
  cases q with
  | none => exact h
  | some p => exact h.update rfl (hq p rfl)

end ChangedAt

end Updates

/-- The root of the hole's tree gets another color. -/
theorem Represents.paint {d : Side} {n : Node Ptr Key Value} {a b : Tree Ptr Key Value}
    {C : Context Ptr Key Value} (h : Represents m (plug C (.join d n a b))) (c : Color) :
    Represents (Function.update m (.color n.ptr) c) (plug C (.join d (n.paint c) a b)) := by
  have hn : (Tree.join d n a b).ptrs.Nodup := nodup_of_plug h.nodup
  rw [(Tree.ptrs_join_perm ..).nodup_iff, List.nodup_cons, List.mem_append, not_or] at hn
  obtain ⟨hl, hh⟩ := h.at_hole
  obtain ⟨hin, hna, hnb, hha, hhb⟩ := holds_join.mp hh
  refine h.replace (ChangedAt.refl.update rfl (p := n.ptr) (by simp [Tree.mem_ptrs_join])) ?_ ?_ ?_
  · simpa using hl
  · rw [holds_join, Node.in_iff]
    simpa [hn.1] using ⟨⟨hin.parent, hin.key, hin.value⟩, hna, hnb, hha, hhb⟩
  · rw [Tree.ptrs, cells_plug_congr C (Tree.cells_paint c)]
    exact h.nodup

/-! ## 3. Rotations -/

section Rotations

variable {s : Attempt Ptr Key Value} {C : Context Ptr Key Value} {d : Side}
  {n p : Node Ptr Key Value} {a b c t : Tree Ptr Key Value}

/-- What `n_parent && n_parent->left_.get(tx) == n` reads. -/
def leftRead : Context Ptr Key Value → List (Var Ptr)
  | [] => []
  | f :: _ => [.child .left f.node.ptr]

/-- The hole is the left child of its parent. -/
def isLeftHole : Context Ptr Key Value → Bool
  | [] => false
  | f :: _ => decide (f.side = .left)

theorem run_isLeftChild (h : Represents s.view (plug C t)) {n : Ptr} (ht : t.root = some n) :
    (isLeftChild (top C) n).run s = .ok (isLeftHole C, s.readAll (leftRead C)) := by
  cases C with
  | nil => rfl
  | cons f C => simp [top, isLeftChild, isLeftHole, leftRead, child_eq_root h ht]; rfl

/-- The attempt after a rotation of `n`, below the link `l` of `nParent`, with its child `p`. -/
def rotated (d : Side) (n p : Ptr) (C : Context Ptr Key Value) (s : Attempt Ptr Key Value) :
    Attempt Ptr Key Value :=
  let inner := s.view (.child d p)
  let s := s.readAll (leftRead C ++ [.parent n, .child d p, .child d.other n])
  let s := reparented (s.write (.child d.other n) inner) inner (some n)
  let s := (s.write (.child d p) (some n)).write (.parent n) (some p)
  (s.write (.parent p) (top C)).write (.link (slot C)) (some p)

omit [DecidableEq Ptr] in
/-- The pointers around a rotation are distinct. -/
theorem nodup_rotate (h : (Tree.join d n a (.join d p b c)).ptrs.Nodup) :
    n.ptr ≠ p.ptr ∧ (n.ptr ∉ a.ptrs ∧ n.ptr ∉ b.ptrs ∧ n.ptr ∉ c.ptrs) ∧
      (p.ptr ∉ a.ptrs ∧ p.ptr ∉ b.ptrs ∧ p.ptr ∉ c.ptrs) ∧
      (∀ q ∈ b.ptrs, q ∉ a.ptrs ∧ q ∉ c.ptrs) ∧ b.ptrs.Nodup := by
  rw [(Tree.ptrs_join_perm ..).nodup_iff,
    (((Tree.ptrs_join_perm d p b c).append_left a.ptrs).cons n.ptr).nodup_iff] at h
  simp only [List.nodup_cons, List.mem_append, List.mem_cons, not_or, List.nodup_append',
    List.disjoint_cons_right, List.disjoint_append_right] at h
  exact ⟨h.1.2.1, ⟨h.1.1, h.1.2.2⟩, ⟨h.2.2.2.1, h.2.2.1.1⟩,
    fun q hq => ⟨fun ha => h.2.2.2.2.1 ha hq, fun hc => h.2.2.1.2.2.2 hq hc⟩, h.2.2.1.2.1⟩

theorem run_rotate (h : Represents s.view (plug C (.join d n a (.join d p b c)))) :
    (rotate d n.ptr).run s = .ok ((), rotated d n.ptr p.ptr C s) := by
  obtain ⟨-, hh⟩ := h.at_hole
  rw [holds_join, holds_join] at hh
  have hn : s.view (.child d.other n.ptr) = some p.ptr := by
    rw [hh.2.2.1, Tree.root_join]
  have hl := run_isLeftChild
    (s := ((s.read (.child d.other n.ptr)).read (.child d p.ptr)).read (.parent n.ptr))
    h (Tree.root_join ..)
  simp only [rotate, run_getLink_bind, run_getParent_bind, hn, run_deref_bind,
    Optimistic.Attempt.read_view, hh.1.parent]
  rw [Optimistic.Program.run_bind_ok hl]
  simp only [run_set_bind, run_setParentOf_bind]
  cases C with
  | nil => rfl
  | cons f C =>
    obtain ⟨side, q, other⟩ := f
    cases side
    · rfl
    · rfl

/-- **A rotation rotates.** -/
theorem rotated_represents (h : Represents s.view (plug C (.join d n a (.join d p b c)))) :
    Represents (rotated d n.ptr p.ptr C s).view (plug C (.join d p (.join d n a b) c)) := by
  obtain ⟨hnp, hn, hp, hb, hbn⟩ := nodup_rotate (nodup_of_plug h.nodup)
  obtain ⟨hl, hh⟩ := h.at_hole
  have hs := Represents.slot_owner h.nodup
  rw [holds_join, holds_join] at hh
  obtain ⟨hin, hna, -, hha, hip, hbr, hpc, hhb, hhc⟩ := hh
  have hc : (Tree.join d p (.join d n a b) c).cells = (Tree.join d n a (.join d p b c)).cells :=
    Tree.cells_rotate
  have hmn : n.ptr ∈ (Tree.join d n a (.join d p b c)).ptrs := by simp [Tree.mem_ptrs_join]
  have hmp : p.ptr ∈ (Tree.join d n a (.join d p b c)).ptrs := by simp [Tree.mem_ptrs_join]
  refine h.replace ?_ ?_ ?_ ?_
  · have hmb : ∀ q, b.root = some q → q ∈ (Tree.join d n a (.join d p b c)).ptrs := fun q hq => by
      simp [Tree.mem_ptrs_join, Tree.mem_ptrs_of_root hq]
    simp only [rotated, Optimistic.Attempt.write_view, reparented_view,
      Optimistic.Attempt.readAll_view, hbr]
    exact (((((ChangedAt.refl.update rfl hmn).reparent hmb).update rfl hmp).update rfl hmn).update
      rfl hmp).update_link
  · simp [rotated]
  · simp only [rotated, Optimistic.Attempt.write_view, reparented_view,
      Optimistic.Attempt.readAll_view, hbr]
    rw [holds_update (by rw [Tree.ptrs, hc]; exact hs), holds_join, holds_join]
    simp only [Node.in_iff]
    have hbn' : b.root ≠ some n.ptr := fun e => hn.2.1 (Tree.mem_ptrs_of_root e)
    have hba : Outside b.root a := fun q hq => (hb q (Tree.mem_ptrs_of_root hq)).1
    have hbc : Outside b.root c := fun q hq => (hb q (Tree.mem_ptrs_of_root hq)).2
    simp [hnp, hnp.symm, hn, hp, hba, hbc]
    exact ⟨⟨hip.color, hip.key, hip.value⟩, hpc, ⟨⟨hin.color, hin.key, hin.value⟩, hna, hha,
      ((holds_update_child hn.2.1).mpr hhb).reparent hbn _⟩, hhc⟩
  · rw [Tree.ptrs, cells_plug_congr C hc]
    exact h.nodup

/-- It keeps what is below the other nodes. -/
theorem rotated_keeps (h : Represents s.view (plug C (.join d n a (.join d p b c)))) :
    Keeps (rotated d n.ptr p.ptr C s).writes (plug C (.join d n a (.join d p b c)))
      (plug C (.join d p (.join d n a b) c)) := by
  refine Keeps.plug (.rotate ?_ ?_) (fun q hq => ?_) C h.nodup
  · simp [rotated, reparented_writes]
  · simp [rotated]
  · rwa [Tree.ptrs, Tree.cells_rotate] at hq

/-- A rotation, run. It sets the link from above. -/
theorem rotate_spec (h : Represents s.view (plug C (.join d n a (.join d p b c)))) :
    ∃ s', (rotate d n.ptr).run s = .ok ((), s') ∧
      Represents s'.view (plug C (.join d p (.join d n a b) c)) ∧ s'.retired = s.retired ∧
      .link (slot C) ∈ s'.writes ∧
      Keeps s'.writes (plug C (.join d n a (.join d p b c))) (plug C (.join d p (.join d n a b) c)) :=
  ⟨_, run_rotate h, rotated_represents h, by simp [rotated], List.mem_cons_self, rotated_keeps h⟩

/-- A rotation reads the link to the node that goes up. -/
theorem rotated_reads (n p : Ptr) : .child d.other n ∈ (rotated d n p C s).reads := by
  simp [rotated]

end Rotations

end Rbtree

end LockfreeStm
