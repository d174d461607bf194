/-
  File:      LockfreeStm/Rbtree/Valid.lean
  Subject:   VALID TREES: the search-tree and the red-black invariants, and `verify`.

  A memory is a valid tree if it represents one whose keys are in order and whose colors obey the
  rules. `verify` passes on every valid tree (`verify_passes`); what it checks is less, since it
  compares a key with those of the children only.
-/
import LockfreeStm.Rbtree.Rotation
import LockfreeStm.Rbtree.Balance
import Mathlib.Data.Nat.Basic
import Mathlib.Order.Basic

namespace LockfreeStm

namespace Rbtree

variable {Ptr Key Value : Type} {compare : Key → Key → Bool}

/-! ## 1. Keys in order -/

/-- `Compare` is a strict weak order. -/
abbrev StrictWeak (compare : Key → Key → Bool) : Prop :=
  IsStrictWeakOrder Key fun a b => compare a b = true

namespace StrictWeak

variable {a b c : Key}

theorem irrefl (ho : StrictWeak compare) (a : Key) : compare a a = false :=
  Bool.eq_false_iff.mpr (ho.toIsStrictOrder.toIrrefl.irrefl a)

theorem lt_trans (ho : StrictWeak compare) (h : compare a b = true) (h' : compare b c = true) :
    compare a c = true := ho.toIsStrictOrder.toIsTrans.trans a b c h h'

theorem lt_of_lt_of_le (ho : StrictWeak compare) (h : compare a b = true)
    (h' : compare c b = false) : compare a c = true := by
  by_contra hac
  have hca : ¬ compare c a = true := fun e => by simp [ho.lt_trans e h] at h'
  have hbc : ¬ compare b c = true := fun e => hac (ho.lt_trans h e)
  exact (ho.incomp_trans a c b ⟨hac, hca⟩ ⟨by simp [h'], hbc⟩).1 h

theorem lt_of_le_of_lt (ho : StrictWeak compare) (h : compare b a = false)
    (h' : compare b c = true) : compare a c = true := by
  by_contra hac
  have hca : ¬ compare c a = true := fun e => by simp [ho.lt_trans h' e] at h
  have hab : ¬ compare a b = true := fun e => hac (ho.lt_trans e h')
  exact (ho.incomp_trans b a c ⟨by simp [h], hab⟩ ⟨hac, hca⟩).1 h'

theorem le_trans (ho : StrictWeak compare) (h : compare b a = false) (h' : compare c b = false) :
    compare c a = false := by
  by_contra hca
  rw [Bool.not_eq_false] at hca
  simp [ho.lt_of_lt_of_le hca h] at h'

end StrictWeak

/-- Keys compared by a rank. -/
theorem strictWeak_rank {compare : Key → Key → Bool} (rank : Key → Nat)
    (h : ∀ a b, compare a b = true ↔ rank a < rank b) : StrictWeak compare where
  irrefl a := by
    rw [h]
    exact Nat.lt_irrefl (rank a)
  trans a b c := by
    rw [h, h, h]
    exact Nat.lt_trans
  incomp_trans a b c := by
    rw [h, h, h, h, h, h, Nat.not_lt, Nat.not_lt, Nat.not_lt, Nat.not_lt, Nat.not_lt, Nat.not_lt]
    exact fun hab hbc => ⟨Nat.le_trans hbc.1 hab.1, Nat.le_trans hab.2 hbc.2⟩

/-- The keys in order do not decrease. -/
def Tree.Sorted (compare : Key → Key → Bool) (t : Tree Ptr Key Value) : Prop :=
  t.cells.Pairwise fun a b => compare b.2.1 a.2.1 = false

/-- The tree state `m` is valid, and stands for `t`. -/
structure Valid (compare : Key → Key → Bool) (m : Memory Ptr Key Value) (t : Tree Ptr Key Value) :
    Prop where
  represents : Represents m t
  sorted : t.Sorted compare
  balanced : Balanced t

/-! ## 2. Verification -/

section Verify

variable [DecidableEq Ptr] {m : Memory Ptr Key Value} {par : Option Ptr}

theorem looks_assert {b : Bool} (hb : b = true) :
    (assert b : Program Ptr Key Value Unit).Looks m () := by
  subst hb
  exact .pure ()

theorem looks_color {t : Tree Ptr Key Value} (h : Holds m par t) :
    (color t.root).Looks m t.color := by
  cases t with
  | nil => exact .pure _
  | node q l r =>
    rw [show (Tree.node q l r).color = m (.color q.ptr) from h.1.color.symm]
    exact looks_getColor

theorem looks_checkBlack {t : Tree Ptr Key Value} (h : Holds m par t) (hc : t.color = .black) :
    (checkBlack t.root).Looks m () :=
  (looks_color h).bind (looks_assert (by simp [hc]))

theorem looks_checkParent {n : Ptr} {t : Tree Ptr Key Value} (h : Holds m (some n) t) :
    (checkParent t.root n).Looks m () := by
  cases t with
  | nil => exact .pure _
  | node q l r => exact looks_getParent.bind (looks_assert (by simp [h.1.parent]))

/-- A key is compared with that of a child's root. -/
theorem looks_checkKey {d : Side} {n : Ptr} {t : Tree Ptr Key Value} (h : Holds m par t)
    (ho : ∀ c ∈ t.cells, match d with
      | .left => compare (m (.key n)) c.2.1 = false
      | .right => compare c.2.1 (m (.key n)) = false) :
    (checkKey compare d t.root n).Looks m () := by
  cases t with
  | nil => exact .pure _
  | node q l r =>
    have hq := ho (q.ptr, q.key, q.value) (by simp [Tree.cells])
    refine looks_getKey.bind (looks_getKey.bind ?_)
    rw [h.1.key]
    cases d <;> exact looks_assert (by simp [hq])

/-- What `minmax_height` finds in a subtree of black height `h`. -/
structure HeightInfo.Fits (info : HeightInfo) (t : Tree Ptr Key Value) (h : Nat) : Prop where
  blackHeight : info.blackHeight = h
  le_min : h ≤ info.minHeight
  max_le : info.maxHeight ≤ 2 * h + if t.color = .red then 1 else 0

omit [DecidableEq Ptr] in
theorem HeightInfo.Fits.max_le_of_black {info : HeightInfo} {t : Tree Ptr Key Value} {h : Nat}
    (hi : info.Fits t h) (hc : t.color = .black) : info.maxHeight ≤ 2 * h := by
  simpa [hc] using hi.max_le

omit [DecidableEq Ptr] in
theorem HeightInfo.Fits.max_le_succ {info : HeightInfo} {t : Tree Ptr Key Value} {h : Nat}
    (hi : info.Fits t h) : info.maxHeight ≤ 2 * h + 1 :=
  Nat.le_trans hi.max_le (Nat.add_le_add_left (by split <;> omega) _)

/-- `minmax_height` passes its assertions, subtree by subtree. -/
theorem looks_minmaxHeight {t : Tree Ptr Key Value} {h : Nat} (hh : Holds m par t)
    (hs : t.Sorted compare) (hn : t.NoRedRed) (hb : t.BlackHeight h) :
    ∃ info : HeightInfo, info.Fits t h ∧
      ∀ fuel, t.cells.length < fuel → (minmaxHeight compare fuel t.root).Looks m info := by
  induction t generalizing par h with
  | nil =>
    obtain rfl : h = 0 := hb
    refine ⟨⟨0, 0, 0⟩, ⟨rfl, Nat.le_refl _, Nat.zero_le _⟩, fun fuel hf => ?_⟩
    cases fuel with
    | zero => omega
    | succ fuel => exact .pure _
  | node n l r ihl ihr =>
    obtain ⟨hin, hl, hr, hhl, hhr⟩ := hh
    obtain ⟨k, hkl, hkr, rfl⟩ := hb
    obtain ⟨hnc, hnl, hnr⟩ := hn
    have hs' := hs
    simp only [Tree.Sorted, Tree.cells, List.pairwise_append, List.pairwise_cons,
      List.mem_cons] at hs'
    obtain ⟨hsl, ⟨hsn, hsr⟩, hsx⟩ := hs'
    obtain ⟨il, hil, hfl⟩ := ihl hhl hsl hnl hkl
    obtain ⟨ir, hir, hfr⟩ := ihr hhr hsr hnr hkr
    have hb : il.blackHeight = ir.blackHeight := hil.blackHeight.trans hir.blackHeight.symm
    -- everything up to the look at the node's own color
    have hchecks : ∀ fuel info, l.cells.length < fuel → r.cells.length < fuel →
        (do
          let c ← getColor n.ptr
          if c = .red then do
            checkBlack l.root
            checkBlack r.root
            pure ⟨min il.minHeight ir.minHeight + 1, max il.maxHeight ir.maxHeight + 1,
              il.blackHeight⟩
          else
            pure ⟨min il.minHeight ir.minHeight + 1, max il.maxHeight ir.maxHeight + 1,
              il.blackHeight + 1⟩ : Program Ptr Key Value HeightInfo).Looks m info →
        (minmaxHeight compare (fuel + 1) (some n.ptr)).Looks m info := by
      intro fuel info hlf hrf hrest
      refine looks_getLink.bind (looks_getLink.bind ?_)
      rw [hl, hr]
      refine (hfl fuel hlf).bind ((hfr fuel hrf).bind ((looks_assert (by simp [hb])).bind ?_))
      refine (looks_checkParent hhl).bind ((looks_checkParent hhr).bind ?_)
      refine (looks_checkKey hhl fun c hc => ?_).bind ((looks_checkKey hhr fun c hc => ?_).bind hrest)
      · rw [hin.key]
        exact hsx c hc _ (.inl rfl)
      · rw [hin.key]
        exact hsn c hc
    cases hc : n.color with
    | red =>
      obtain ⟨hlb, hrb⟩ := hnc hc
      refine ⟨⟨min il.minHeight ir.minHeight + 1, max il.maxHeight ir.maxHeight + 1,
        il.blackHeight⟩, ⟨?_, ?_, ?_⟩, fun fuel hf => ?_⟩
      · simpa using hil.blackHeight
      · have := hil.le_min
        have := hir.le_min
        simp only [reduceCtorEq, if_false]
        omega
      · have := hil.max_le_of_black hlb
        have := hir.max_le_of_black hrb
        rw [if_pos (show (Tree.node n l r).color = .red from hc)]
        simp only [reduceCtorEq, if_false]
        omega
      · simp only [Tree.cells, List.length_append, List.length_cons] at hf
        cases fuel with
        | zero => omega
        | succ fuel =>
          refine hchecks fuel _ (by omega) (by omega) (looks_getColor.bind ?_)
          rw [hin.color, hc, if_pos rfl]
          exact (looks_checkBlack hhl hlb).bind ((looks_checkBlack hhr hrb).bind (.pure _))
    | black =>
      refine ⟨⟨min il.minHeight ir.minHeight + 1, max il.maxHeight ir.maxHeight + 1,
        il.blackHeight + 1⟩, ⟨?_, ?_, ?_⟩, fun fuel hf => ?_⟩
      · simpa using hil.blackHeight
      · have := hil.le_min
        have := hir.le_min
        simp only [if_true]
        omega
      · have := hil.max_le_succ
        have := hir.max_le_succ
        simp only [if_true]
        omega
      · simp only [Tree.cells, List.length_append, List.length_cons] at hf
        cases fuel with
        | zero => omega
        | succ fuel =>
          refine hchecks fuel _ (by omega) (by omega) (looks_getColor.bind ?_)
          rw [hin.color, hc, if_neg (by decide : ¬ Color.black = .red)]
          exact .pure _

/-- **Every assertion of `verify` passes** on a valid tree. -/
theorem verify_passes {t : Tree Ptr Key Value} (h : Valid compare m t) :
    ∀ fuel, t.cells.length < fuel → (verify compare fuel).Looks m () := by
  intro fuel hf
  obtain ⟨k, hk⟩ := h.balanced.blackHeight
  obtain ⟨info, hi, hm⟩ := looks_minmaxHeight h.represents.holds h.sorted h.balanced.noRedRed hk
  have hmax := hi.max_le_of_black h.balanced.rootBlack
  have hmin := hi.le_min
  refine looks_getLink.bind ?_
  rw [h.represents.root]
  refine (looks_checkBlack h.represents.holds h.balanced.rootBlack).bind ((hm fuel hf).bind ?_)
  exact looks_assert (decide_eq_true (by omega))

end Verify

/-! ## 3. A memory for every tree -/

section Layout

variable [DecidableEq Ptr]

/-- The memory of an empty tree. -/
def emptyMemory [Inhabited Key] [Inhabited Value] : Memory Ptr Key Value
  | .link _ => none
  | .parent _ => none
  | .color _ => .red
  | .key _ => default
  | .value _ => default

/-- `m` with the vars of the tree's nodes set, the tree hanging from `par`. -/
def layout (m : Memory Ptr Key Value) (par : Option Ptr) : Tree Ptr Key Value → Memory Ptr Key Value
  | .nil => m
  | .node n l r =>
    let m := layout (layout m (some n.ptr) l) (some n.ptr) r
    let m := Function.update (Function.update m (.parent n.ptr) par) (.color n.ptr) n.color
    let m := Function.update (Function.update m (.key n.ptr) n.key) (.value n.ptr) n.value
    Function.update (Function.update m (.child .left n.ptr) l.root) (.child .right n.ptr) r.root

/-- The memory that stands for the tree. -/
def memoryOf [Inhabited Key] [Inhabited Value] (t : Tree Ptr Key Value) : Memory Ptr Key Value :=
  Function.update (layout emptyMemory none t) .root t.root

variable {m : Memory Ptr Key Value} {par : Option Ptr} {t : Tree Ptr Key Value}

theorem layout_of_outside {v : Var Ptr} (hv : ∀ p ∈ t.ptrs, v.owner ≠ some p) :
    layout m par t v = m v := by
  induction t generalizing m par with
  | nil => rfl
  | node n l r ihl ihr =>
    have hmem : ∀ p, p ∈ (Tree.node n l r).ptrs ↔ p = n.ptr ∨ p ∈ l.ptrs ∨ p ∈ r.ptrs :=
      fun p => Tree.mem_ptrs_join (d := .left) ..
    have hn : ∀ w : Var Ptr, w.owner = some n.ptr → v ≠ w :=
      fun w hw e => hv n.ptr ((hmem _).mpr (.inl rfl)) (e ▸ hw)
    simp only [layout]
    rw [Function.update_of_ne (hn _ rfl), Function.update_of_ne (hn _ rfl),
      Function.update_of_ne (hn _ rfl), Function.update_of_ne (hn _ rfl),
      Function.update_of_ne (hn _ rfl), Function.update_of_ne (hn _ rfl),
      ihr fun p hp => hv p ((hmem p).mpr (.inr (.inr hp))),
      ihl fun p hp => hv p ((hmem p).mpr (.inr (.inl hp)))]

theorem layout_holds (hn : t.ptrs.Nodup) : Holds (layout m par t) par t := by
  induction t generalizing m par with
  | nil => trivial
  | node n l r ihl ihr =>
    have hn' : (Tree.join .left n l r).ptrs.Nodup := hn
    rw [(Tree.ptrs_join_perm ..).nodup_iff, List.nodup_cons, List.mem_append, not_or, List.nodup_append'] at hn'
    obtain ⟨⟨hnl, hnr⟩, hl, hr, hd⟩ := hn'
    have hl₀ : Holds (layout m (some n.ptr) l) (some n.ptr) l := ihl hl
    have hl' : Holds (layout (layout m (some n.ptr) l) (some n.ptr) r) (some n.ptr) l :=
      hl₀.congr fun v p hv hp => layout_of_outside fun q hq e =>
        hd hp (Option.some.inj (hv.symm.trans e) ▸ hq)
    have hr' : Holds (layout (layout m (some n.ptr) l) (some n.ptr) r) (some n.ptr) r := ihr hr
    refine ⟨⟨?_, ?_, ?_, ?_⟩, ?_, ?_, ?_, ?_⟩ <;> simp [layout, hnl, hnr, hl', hr']

/-- Every tree without a repeated node has a memory. -/
theorem memoryOf_represents [Inhabited Key] [Inhabited Value] (hn : t.ptrs.Nodup) :
    Represents (memoryOf t) t where
  root := Function.update_self ..
  holds := (holds_update (v := .root) fun _ _ => nofun).mpr (layout_holds hn)
  nodup := hn

end Layout

/-- Numbers, in order. -/
def less (a b : Nat) : Bool := decide (a < b)

theorem less_strictWeak : StrictWeak less := strictWeak_rank id fun _ _ => decide_eq_true_iff

/-- A black root with two black children; node and key are the same number. -/
def threeNodes : Tree Nat Nat Nat :=
  .node ⟨4, .black, 4, 40⟩ (.node ⟨2, .black, 2, 20⟩ .nil .nil) (.node ⟨6, .black, 6, 60⟩ .nil .nil)

theorem threeNodes_valid : Valid less (memoryOf threeNodes) threeNodes where
  represents := memoryOf_represents (by decide)
  sorted := by simp [threeNodes, Tree.Sorted, Tree.cells, less]
  balanced := ⟨rfl, by simp [threeNodes, Tree.NoRedRed], 2, by simp [threeNodes, Tree.BlackHeight]⟩

end Rbtree

end LockfreeStm
