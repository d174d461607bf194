/-
  File:      LockfreeStm/Rbtree/Footprint.lean
  Subject:   WHAT THE TREE OPERATIONS TOUCH.

  Once `push_impl` and `erase_one` have found where they go, they track every read, and they never
  leave the nodes they started among: a pointer they follow was stored in one of these.
-/
import LockfreeStm.Rbtree.Erase

namespace LockfreeStm

namespace Rbtree

open Optimistic (Region)

variable {Ptr Key Value : Type} [DecidableEq Ptr]

/-! ## 1. Closed sets of nodes -/

/-- The vars of the nodes in `ps`, and `root_`. The node `own` is under construction. -/
def region (ps : Ptr → Prop) (own : Option Ptr) : Region (Content Ptr Key Value) where
  vars v := Inside ps v.owner
  own v := v.owner ≠ none ∧ v.owner = own
  closed
    | .link _ => Inside ps
    | .parent _ => Inside ps
    | .color _ => fun _ => True
    | .key _ => fun _ => True
    | .value _ => fun _ => True

/-- The program tracks its reads and touches nothing but the nodes in `ps`; it ends with a result in
    `Q`. -/
def Confined (ps : Ptr → Prop) (own : Option Ptr) {α : Type} (p : Program Ptr Key Value α)
    (Q : α → Prop) : Prop := (region ps own).Within p Q

section Accesses

variable {ps : Ptr → Prop} {own : Option Ptr} {α β : Type} {Q : α → Prop} {Q' : β → Prop} {n : Ptr}
  {o : Option Ptr} {l : Link Ptr} {f : Option Ptr → Program Ptr Key Value α}
  {fc : Color → Program Ptr Key Value α} {fk : Key → Program Ptr Key Value α}
  {fv : Value → Program Ptr Key Value α} {g : Unit → Program Ptr Key Value α}
  {k : Ptr → Program Ptr Key Value α} {a : α} {p q : Program Ptr Key Value α} {R : Option Ptr → Prop}

omit [DecidableEq Ptr] in
theorem Confined.mono {R : α → Prop} (h : Confined ps own p R) (hR : ∀ a, R a → Q a) :
    Confined ps own p Q := Region.Within.mono h hR

omit [DecidableEq Ptr] in
@[simp] theorem confined_bind {r : Program Ptr Key Value β} {h : β → Program Ptr Key Value α} :
    Confined ps own (r >>= h) Q ↔ Confined ps own r fun b => Confined ps own (h b) Q :=
  Region.Within.bind_iff

omit [DecidableEq Ptr] in
@[simp] theorem confined_pure : Confined ps own (pure a : Program Ptr Key Value α) Q ↔ Q a :=
  Iff.rfl
omit [DecidableEq Ptr] in
@[simp] theorem confined_ite {c : Prop} [Decidable c] :
    Confined ps own (if c then p else q) Q ↔
      (c → Confined ps own p Q) ∧ (¬ c → Confined ps own q Q) := by
  split
  · next h => simp [h]
  · next h => simp [h]

omit [DecidableEq Ptr] in
@[simp] theorem confined_getRoot :
    Confined ps own (getRoot : Program Ptr Key Value _) R ↔ ∀ o, Inside ps o → R o :=
  ⟨fun h => h.2, fun h => ⟨inside_none, h⟩⟩
omit [DecidableEq Ptr] in
@[simp] theorem confined_getChild {d : Side} :
    Confined ps own (getChild d n : Program Ptr Key Value _) R ↔ ps n ∧ ∀ o, Inside ps o → R o :=
  and_congr_left' (inside_some (P := ps))
omit [DecidableEq Ptr] in
@[simp] theorem confined_getParent :
    Confined ps own (getParent n : Program Ptr Key Value _) R ↔ ps n ∧ ∀ o, Inside ps o → R o :=
  and_congr_left' (inside_some (P := ps))
omit [DecidableEq Ptr] in
@[simp] theorem confined_getColor {R : Color → Prop} :
    Confined ps own (getColor n : Program Ptr Key Value _) R ↔ ps n ∧ ∀ c, R c :=
  and_congr (inside_some (P := ps)) (forall_congr' fun _ => imp_iff_right trivial)
omit [DecidableEq Ptr] in
@[simp] theorem confined_getKey {R : Key → Prop} :
    Confined ps own (getKey n : Program Ptr Key Value _) R ↔ ps n ∧ ∀ k, R k :=
  and_congr (inside_some (P := ps)) (forall_congr' fun _ => imp_iff_right trivial)
omit [DecidableEq Ptr] in
@[simp] theorem confined_getValue {R : Value → Prop} :
    Confined ps own (getValue n : Program Ptr Key Value _) R ↔ ps n ∧ ∀ w, R w :=
  and_congr (inside_some (P := ps)) (forall_congr' fun _ => imp_iff_right trivial)

variable {U : Unit → Prop}

omit [DecidableEq Ptr] in
@[simp] theorem confined_setRoot :
    Confined ps own (set .root o : Program Ptr Key Value _) U ↔ Inside ps o ∧ U () :=
  and_congr_left' (and_iff_right (inside_none (P := ps)))
omit [DecidableEq Ptr] in
@[simp] theorem confined_setChild {d : Side} :
    Confined ps own (set (.child d n) o : Program Ptr Key Value _) U ↔
      (ps n ∧ Inside ps o) ∧ U () :=
  and_congr_left' (and_congr_left' (inside_some (P := ps)))
omit [DecidableEq Ptr] in
@[simp] theorem confined_setParent :
    Confined ps own (set (.parent n) o : Program Ptr Key Value _) U ↔
      (ps n ∧ Inside ps o) ∧ U () :=
  and_congr_left' (and_congr_left' (inside_some (P := ps)))
omit [DecidableEq Ptr] in
@[simp] theorem confined_setColor {c : Color} :
    Confined ps own (set (.color n) c : Program Ptr Key Value _) U ↔ ps n ∧ U () :=
  and_congr_left' ((and_iff_left trivial).trans (inside_some (P := ps)))
omit [DecidableEq Ptr] in
@[simp] theorem confined_setKey {key : Key} :
    Confined ps own (set (.key n) key : Program Ptr Key Value _) U ↔ ps n ∧ U () :=
  and_congr_left' ((and_iff_left trivial).trans (inside_some (P := ps)))
omit [DecidableEq Ptr] in
@[simp] theorem confined_setValue {value : Value} :
    Confined ps own (set (.value n) value : Program Ptr Key Value _) U ↔ ps n ∧ U () :=
  and_congr_left' ((and_iff_left trivial).trans (inside_some (P := ps)))
omit [DecidableEq Ptr] in
@[simp] theorem confined_destroyDeallocate :
    Confined ps own (destroyDeallocate n : Program Ptr Key Value _) U ↔ U () := Iff.rfl

omit [DecidableEq Ptr] in
/-- A dereference stops at a null pointer. -/
@[simp] theorem confined_deref {R : Ptr → Prop} :
    Confined ps own (deref o : Program Ptr Key Value _) R ↔ ∀ n, o = some n → R n := by
  cases o with
  | none => exact iff_of_true trivial nofun
  | some n => exact ⟨fun h _ e => Option.some.inj e ▸ h, fun h => h n rfl⟩

end Accesses

section Operations

variable {ps : Ptr → Prop} {own : Option Ptr} {n g s p : Ptr} {o parent near far : Option Ptr}
  {d : Side}

/-! ## 3. Relatives and rotations -/

omit [DecidableEq Ptr] in
theorem confined_grandparent (ho : Inside ps o) :
    Confined ps own (grandparent o : Program Ptr Key Value _) (Inside ps) := by
  cases o with
  | none => exact inside_none
  | some n =>
    simp [grandparent, ho n rfl]
    intro o ho
    cases o with
    | none => exact inside_none
    | some p => simp [ho p rfl]

theorem confined_uncle (hn : ps n) :
    Confined ps own (uncle n : Program Ptr Key Value _) (Inside ps) := by
  refine confined_bind.mpr ((confined_grandparent (inside_some.mpr hn)).mono fun g hg => ?_)
  cases g with
  | none => exact inside_none
  | some g => simp +contextual [hn, hg g rfl]

theorem confined_sibling (hp : Inside ps parent) :
    Confined ps own (sibling parent o : Program Ptr Key Value _) (Inside ps) := by
  cases parent with
  | none => exact inside_none
  | some p => simp +contextual [sibling, hp p rfl]

omit [DecidableEq Ptr] in
theorem confined_setParentOf (ho : Inside ps o) (hp : Inside ps parent) :
    Confined ps own (setParentOf o parent : Program Ptr Key Value _) fun _ => True := by
  cases o with
  | none => trivial
  | some n => simp [setParentOf, ho n rfl, hp]

theorem confined_isLeftChild (hp : Inside ps parent) :
    Confined ps own (isLeftChild parent n : Program Ptr Key Value _) fun _ => True := by
  cases parent with
  | none => trivial
  | some p => simp [isLeftChild, hp p rfl]

theorem confined_rotate (hn : ps n) :
    Confined ps own (rotate d n : Program Ptr Key Value _) fun _ => True := by
  simp only [rotate, confined_bind, confined_getChild, confined_deref]
  refine ⟨hn, fun o ho p hp => ⟨ho p hp, fun inner hinner => ?_⟩⟩
  refine confined_getParent.mpr ⟨hn, fun parent hparent => ?_⟩
  refine (confined_isLeftChild hparent).mono fun left _ => ?_
  refine confined_setChild.mpr ⟨⟨hn, hinner⟩, ?_⟩
  refine (confined_setParentOf hinner (inside_some.mpr hn)).mono fun _ _ => ?_
  have hps := ho p hp
  cases parent with
  | none => simp [hn, hps]
  | some q => simp [hn, hps, hparent q rfl]

/-! ## 4. Insertion -/

theorem confined_rotateParentUp (hn : ps n) (hg : ps g) :
    Confined ps own (rotateParentUp n g : Program Ptr Key Value _) fun _ => True := by
  simp only [rotateParentUp, confined_bind, confined_getParent, confined_deref, confined_getChild,
    confined_ite]
  exact ⟨hn, fun parent hp p hpp => ⟨hp p hpp, fun _ _ =>
    ⟨fun _ => confined_rotate hg, fun _ => confined_rotate hg⟩⟩⟩

theorem confined_insertCase5 (hn : ps n) :
    Confined ps own (insertCase5 n : Program Ptr Key Value _) fun _ => True := by
  refine confined_bind.mpr ((confined_grandparent (inside_some.mpr hn)).mono fun o ho => ?_)
  simp only [confined_bind, confined_getParent, confined_deref, confined_setColor]
  exact ⟨hn, fun parent hp p hpp => ⟨hp p hpp, fun g hg =>
    ⟨ho g hg, confined_rotateParentUp hn (ho g hg)⟩⟩⟩

theorem confined_isInner (hn : ps n) (hg : Inside ps o) :
    Confined ps own (isInner d o n : Program Ptr Key Value _) fun _ => True := by
  simp +contextual [isInner, hn]
  intro parent hp p hpp
  refine ⟨hp p hpp, fun pInner _ _ parent' _ g hgo => hg g hgo⟩

omit [DecidableEq Ptr] in
theorem confined_insertCase4Rotate (hn : ps n) (hg : Inside ps o) :
    Confined ps own (insertCase4Rotate d o n : Program Ptr Key Value _) ps := by
  simp only [insertCase4Rotate, confined_bind, confined_deref, confined_getChild]
  intro g hgo
  have hg' := hg g hgo
  refine ⟨hg', fun savedP hs => ⟨hn, fun savedInner hi => ?_⟩⟩
  simp only [confined_setChild, confined_setParent, inside_some, confined_pure]
  refine ⟨⟨hg', hn⟩, ⟨hn, hg'⟩, ⟨hn, hs⟩, fun p hp => ⟨⟨hs p hp, hn⟩, ⟨hs p hp, hi⟩, ?_⟩⟩
  exact (confined_setParentOf hi (inside_some.mpr (hs p hp))).mono fun _ _ => hs p hp

theorem confined_insertCase4 (hn : ps n) :
    Confined ps own (insertCase4 n : Program Ptr Key Value _) fun _ => True := by
  refine confined_bind.mpr ((confined_grandparent (inside_some.mpr hn)).mono fun o ho => ?_)
  refine confined_bind.mpr ((confined_isInner hn ho).mono fun inner _ => ?_)
  refine confined_ite.mpr ⟨fun _ => ?_, fun _ => ?_⟩
  · exact confined_bind.mpr ((confined_insertCase4Rotate hn ho).mono fun n hn =>
      confined_insertCase5 hn)
  · refine confined_bind.mpr ((confined_isInner hn ho).mono fun inner _ => ?_)
    refine confined_ite.mpr ⟨fun _ => ?_, fun _ => confined_insertCase5 hn⟩
    exact confined_bind.mpr ((confined_insertCase4Rotate hn ho).mono fun n hn =>
      confined_insertCase5 hn)

omit [DecidableEq Ptr] in
theorem confined_isRed (ho : Inside ps o) :
    Confined ps own (insertCase3.isRed o : Program Ptr Key Value _) fun _ => True := by
  cases o with
  | none => trivial
  | some p => simp [insertCase3.isRed, ho p rfl]

theorem confined_insertCase3 {case1 : Ptr → Program Ptr Key Value Unit}
    (hc : ∀ n, ps n → Confined ps own (case1 n) fun _ => True) (hn : ps n) :
    Confined ps own (insertCase3 case1 n) fun _ => True := by
  refine confined_bind.mpr ((confined_uncle hn).mono fun u hu => ?_)
  refine confined_bind.mpr ((confined_isRed hu).mono fun uRed _ => ?_)
  refine confined_ite.mpr ⟨fun _ => ?_, fun _ => confined_insertCase4 hn⟩
  simp [hn]
  intro parent hp p hpp
  refine ⟨hp p hpp, fun u' hu' => ⟨hu u' hu', ?_⟩⟩
  refine (confined_grandparent (inside_some.mpr hn)).mono fun o ho => ?_
  exact fun g hg => ⟨ho g hg, hc g (ho g hg)⟩

theorem confined_insertCase1 (fuel : Nat) (hn : ps n) :
    Confined ps own (insertCase1 fuel n : Program Ptr Key Value _) fun _ => True := by
  induction fuel generalizing n with
  | zero => trivial
  | succ fuel ih =>
    simp only [insertCase1, insertCase2, confined_bind, confined_getParent, confined_ite,
      confined_setColor, confined_deref, confined_getColor, confined_pure]
    refine ⟨hn, fun parent hp => ⟨fun _ => ⟨hn, trivial⟩, fun _ => ⟨hn, fun parent hp p hpp => ?_⟩⟩⟩
    exact ⟨hp p hpp, fun c => ⟨fun _ => confined_insertCase3 (fun n hn => ih hn) hn,
      fun _ => trivial⟩⟩

theorem confined_trackParent (hp : Inside ps parent) :
    Confined ps own (trackParent o parent : Program Ptr Key Value _) fun _ => True := by
  cases parent with
  | none => trivial
  | some p =>
    have hps := hp p rfl
    simp only [trackParent, confined_ite, confined_bind, confined_getKey, confined_getChild,
      confined_getParent, confined_pure]
    refine ⟨fun _ => trivial, fun _ => ⟨hps, fun _ => ⟨hps, fun _ _ => ⟨hps, fun _ _ =>
      ⟨hps, fun pp hpp => ?_⟩⟩⟩⟩⟩
    cases pp with
    | none => trivial
    | some q => simp [hpp q rfl]

/-- What `push_impl` does after its search. -/
theorem confined_pushAt {fuel : Nat} {cur : Link Ptr} (hn : ps n) (hp : Inside ps parent)
    (hcur : Inside ps (Var.link cur).owner) :
    Confined ps (some n) (pushAt fuel n parent cur : Program Ptr Key Value _) fun _ => True := by
  refine confined_bind.mpr (confined_getRoot.mpr fun root _ => ?_)
  refine confined_bind.mpr ((confined_trackParent hp).mono fun _ _ => ?_)
  refine ⟨⟨⟨nofun, rfl⟩, hp⟩, ⟨hcur, inside_some.mpr hn⟩, confined_insertCase1 fuel hn⟩

/-! ## 5. Erasure -/

theorem confined_replaceNode (hn : ps n) (ho : Inside ps o) :
    Confined ps own (replaceNode n o : Program Ptr Key Value _) fun _ => True := by
  refine confined_bind.mpr (confined_getParent.mpr ⟨hn, fun parent hp => ?_⟩)
  have hset : Confined ps own (setParentOf o parent : Program Ptr Key Value _) fun _ => True :=
    confined_setParentOf ho hp
  cases parent with
  | none => simpa [ho] using hset
  | some p => simpa [hp p rfl, ho] using fun _ _ => hset

omit [DecidableEq Ptr] in
theorem confined_color (ho : Inside ps o) :
    Confined ps own (color o : Program Ptr Key Value _) fun _ => True := by
  cases o with
  | none => trivial
  | some p => simp [color, ho p rfl]

theorem confined_deleteCase6 (hp : ps p) :
    Confined ps own (deleteCase6 p o : Program Ptr Key Value _) fun _ => True := by
  refine confined_bind.mpr ((confined_sibling (inside_some.mpr hp)).mono fun s hs => ?_)
  simp only [deleteCase6Rotate, confined_bind, confined_deref, confined_getColor, confined_setColor,
    confined_getChild, confined_ite]
  intro s hsp
  have hs' := hs s hsp
  have hside : ∀ d, ps s ∧ ∀ o, Inside ps o → ∀ n, o = some n → ps n ∧
      Confined ps own (rotate d p : Program Ptr Key Value _) fun _ => True :=
    fun d => ⟨hs', fun o ho n hn => ⟨ho n hn, confined_rotate hp⟩⟩
  exact ⟨hp, fun c => ⟨hs', hp, hp, fun _ _ => ⟨fun _ => hside .left, fun _ => hside .right⟩⟩⟩

theorem confined_isInnerRed (hp : ps p) (hnear : Inside ps near) (hfar : Inside ps far) :
    Confined ps own (isInnerRed d p o near far : Program Ptr Key Value _) fun _ => True := by
  simp only [isInnerRed, confined_bind, confined_getChild, confined_ite, confined_pure]
  refine ⟨hp, fun _ _ => ⟨fun _ => ?_, fun _ => trivial⟩⟩
  refine (confined_color hfar).mono fun _ _ => ⟨fun _ => ?_, fun _ => trivial⟩
  exact (confined_color hnear).mono fun _ _ => trivial

theorem confined_deleteCase5Rotate (hs : ps s) (hnear : Inside ps near) :
    Confined ps own (deleteCase5Rotate d s near : Program Ptr Key Value _) fun _ => True := by
  simp only [deleteCase5Rotate, confined_bind, confined_setColor, confined_deref]
  exact ⟨hs, fun n hn => ⟨hnear n hn, confined_rotate hs⟩⟩

theorem confined_deleteCase5 (hp : ps p) :
    Confined ps own (deleteCase5 p o : Program Ptr Key Value _) fun _ => True := by
  refine confined_bind.mpr ((confined_sibling (inside_some.mpr hp)).mono fun s hs => ?_)
  simp only [confined_bind, confined_deref, confined_getColor, confined_ite, confined_getChild]
  intro s hsp
  have hs' := hs s hsp
  have h6 : Confined ps own (deleteCase6 p o : Program Ptr Key Value _) fun _ => True :=
    confined_deleteCase6 hp
  refine ⟨hs', fun c => ⟨fun _ => ⟨hs', fun l hl => ⟨hs', fun r hr => ?_⟩⟩, fun _ => h6⟩⟩
  refine (confined_isInnerRed hp hl hr).mono fun _ _ => ⟨fun _ => ?_, fun _ => ?_⟩
  · exact (confined_deleteCase5Rotate hs' hl).mono fun _ _ => h6
  · refine (confined_isInnerRed hp hr hl).mono fun _ _ => ⟨fun _ => ?_, fun _ => h6⟩
    exact (confined_deleteCase5Rotate hs' hr).mono fun _ _ => h6

omit [DecidableEq Ptr] in
theorem confined_childrenBlack (hs : ps s) :
    Confined ps own (childrenBlack s : Program Ptr Key Value _) fun _ => True := by
  simp only [childrenBlack, confined_bind, confined_getChild, confined_ite, confined_pure]
  refine ⟨hs, fun l hl => (confined_color hl).mono fun _ _ => ⟨fun _ => ?_, fun _ => trivial⟩⟩
  exact ⟨hs, fun r hr => (confined_color hr).mono fun _ _ => trivial⟩

omit [DecidableEq Ptr] in
theorem confined_isCase4 (hp : ps p) (ho : Inside ps o) :
    Confined ps own (isCase4 p o : Program Ptr Key Value _) fun _ => True := by
  simp only [isCase4, confined_bind, confined_getColor, confined_ite, confined_deref, confined_pure]
  exact ⟨hp, fun _ => ⟨fun _ s hs => ⟨ho s hs, fun _ =>
    ⟨fun _ => confined_childrenBlack (ho s hs), fun _ => trivial⟩⟩, fun _ => trivial⟩⟩

theorem confined_deleteCase4 (hp : ps p) :
    Confined ps own (deleteCase4 p o : Program Ptr Key Value _) fun _ => True := by
  refine confined_bind.mpr ((confined_sibling (inside_some.mpr hp)).mono fun s hs => ?_)
  refine confined_bind.mpr ((confined_isCase4 hp hs).mono fun _ _ => ?_)
  simp only [confined_ite, confined_bind, confined_deref, confined_setColor]
  exact ⟨fun _ s hsp => ⟨hs s hsp, hp, trivial⟩, fun _ => confined_deleteCase5 hp⟩

omit [DecidableEq Ptr] in
theorem confined_isCase3 (hp : ps p) (ho : Inside ps o) :
    Confined ps own (isCase3 p o : Program Ptr Key Value _) fun _ => True := by
  simp only [isCase3, confined_bind, confined_getColor, confined_ite, confined_pure]
  refine ⟨hp, fun _ => ⟨fun _ => (confined_color ho).mono fun _ _ => ⟨fun _ => ?_, fun _ => trivial⟩,
    fun _ => trivial⟩⟩
  cases o with
  | none => trivial
  | some s => exact confined_childrenBlack (ho s rfl)

section Up

variable {case1 : Option Ptr → Option Ptr → Program Ptr Key Value Unit}
  (hc : ∀ q o, Inside ps q → Confined ps own (case1 q o) fun _ => True)
include hc

theorem confined_deleteCase3 (hp : ps p) : Confined ps own (deleteCase3 case1 p o) fun _ => True := by
  refine confined_bind.mpr ((confined_sibling (inside_some.mpr hp)).mono fun s hs => ?_)
  refine confined_bind.mpr ((confined_isCase3 hp hs).mono fun _ _ => ?_)
  simp only [confined_ite, confined_bind, confined_deref, confined_setColor, confined_getParent]
  exact ⟨fun _ s hsp => ⟨hs s hsp, hp, fun q hq => hc q _ hq⟩, fun _ => confined_deleteCase4 hp⟩

theorem confined_deleteCase2 (hp : ps p) : Confined ps own (deleteCase2 case1 p o) fun _ => True := by
  refine confined_bind.mpr ((confined_sibling (inside_some.mpr hp)).mono fun s hs => ?_)
  refine confined_bind.mpr ((confined_color hs).mono fun _ _ => ?_)
  have h3 := confined_deleteCase3 (o := o) hc hp
  simp only [deleteCase2Rotate, rotateLeft, rotateRight, confined_ite, confined_bind,
    confined_deref, confined_setColor, confined_getChild]
  refine ⟨fun _ => ⟨hp, fun s hsp => ⟨hs s hsp, hp, fun _ _ => ⟨fun _ => ?_, fun _ => ?_⟩⟩⟩,
    fun _ => h3⟩
  · exact (confined_rotate hp).mono fun _ _ => h3
  · exact (confined_rotate hp).mono fun _ _ => h3

end Up

theorem confined_deleteCase1 (fuel : Nat) (hp : Inside ps parent) :
    Confined ps own (deleteCase1 fuel parent o : Program Ptr Key Value _) fun _ => True := by
  induction fuel generalizing parent o with
  | zero => trivial
  | succ fuel ih =>
    cases parent with
    | none => trivial
    | some p => exact confined_deleteCase2 (fun _ _ hq => ih hq) (hp p rfl)

theorem confined_rebalance (fuel : Nat) (hn : ps n) (ho : Inside ps o) :
    Confined ps own (rebalance fuel n o : Program Ptr Key Value _) fun _ => True := by
  simp only [rebalance, confined_bind, confined_getColor, confined_ite, confined_deref,
    confined_setColor, confined_getParent, confined_pure]
  refine ⟨hn, fun _ => ⟨fun _ => (confined_color ho).mono fun _ _ => ⟨fun _ c hc => ?_, fun _ => ?_⟩,
    fun _ => trivial⟩⟩
  · exact ⟨ho c hc, trivial⟩
  · exact ⟨hn, fun q hq => confined_deleteCase1 fuel hq⟩

theorem confined_deleteOneChild (fuel : Nat) (hn : ps n) :
    Confined ps own (deleteOneChild fuel n : Program Ptr Key Value _) fun _ => True := by
  have hrest : ∀ o, Inside ps o → Confined ps own
      (do
        replaceNode n o
        rebalance fuel n o
        destroyDeallocate n : Program Ptr Key Value _) fun _ => True := by
    intro o ho
    refine confined_bind.mpr ((confined_replaceNode hn ho).mono fun _ _ => ?_)
    exact confined_bind.mpr ((confined_rebalance fuel hn ho).mono fun _ _ => trivial)
  refine confined_bind.mpr (confined_getChild.mpr ⟨hn, fun r hr => confined_ite.mpr ⟨fun _ => ?_,
    fun _ => hrest r hr⟩⟩)
  exact confined_bind.mpr (confined_getChild.mpr ⟨hn, hrest⟩)

omit [DecidableEq Ptr] in
theorem confined_minNode (fuel : Nat) (hn : ps n) :
    Confined ps own (minNode fuel n : Program Ptr Key Value _) ps := by
  induction fuel generalizing n with
  | zero => trivial
  | succ fuel ih =>
    refine confined_bind.mpr (confined_getChild.mpr ⟨hn, fun l hl => ?_⟩)
    cases l with
    | none => exact hn
    | some l => exact ih (hl l rfl)

/-- What `erase_one` does after its search. -/
theorem confined_eraseImpl (fuel : Nat) (hn : ps n) :
    Confined ps own (eraseImpl fuel n : Program Ptr Key Value _) fun _ => True := by
  have hone : Confined ps own (deleteOneChild fuel n : Program Ptr Key Value _) fun _ => True :=
    confined_deleteOneChild fuel hn
  have htwo : Confined ps own (hasTwoChildren n : Program Ptr Key Value _) fun _ => True := by
    simp only [hasTwoChildren, confined_bind, confined_getChild, confined_ite, confined_pure]
    exact ⟨hn, fun _ _ => ⟨fun _ => trivial, fun _ => ⟨hn, fun _ _ => trivial⟩⟩⟩
  refine confined_bind.mpr (htwo.mono fun _ _ => confined_ite.mpr ⟨fun _ => ?_, fun _ => hone⟩)
  simp only [confined_bind, confined_getChild, confined_deref]
  refine ⟨hn, fun r hr q hq => (confined_minNode fuel (hr q hq)).mono fun temp ht => ?_⟩
  simp only [confined_getKey, confined_setKey, confined_getValue, confined_setValue]
  exact ⟨ht, fun _ => ⟨hn, ht, fun _ => ⟨hn, confined_deleteOneChild fuel ht⟩⟩⟩

end Operations

end Rbtree

end LockfreeStm
