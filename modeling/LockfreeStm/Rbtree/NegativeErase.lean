/-
  File:      LockfreeStm/Rbtree/NegativeErase.lean
  Subject:   AN `erase_one` THAT FINDS NOTHING, AS A PART OF A TRANSACTION.

  `erase_one` looks its key up through a read_transaction demoted from the writing one; these gets are not
  tracked. If the key is absent the call leaves nothing behind that `validate_reads` could check, but the
  transaction goes on, and may set a var for the reason that the key was absent. A second transaction may
  emplace the key for the reason that the var was not set. Each has not seen what the other one did, and both
  commit.

  * `eraseOrSet`, `emplaceIf` -- the two transactions, over the tree and vars beside it.
  * `SerialContents` -- what is left is what one after the other leaves.
  * **`negativeErase_serializable_iff`** -- it is so in every interleaving, unless the two skew, or the new node
    is lost (`Lossy`).
  * `negativeErase_skew` -- two that skew.
-/
import LockfreeStm.Library.SideBySide
import LockfreeStm.Rbtree.ConcurrentEmplace

namespace LockfreeStm

namespace Rbtree

open Optimistic (Returns Beside Query Interleaved CommitThen Serial)

variable {Ptr Key Value : Type} [DecidableEq Ptr] {ν : Type} [DecidableEq ν] {Val : ν → Type}
  {compare : Key → Key → Bool} {t t₁ t₂ t' : Tree Ptr Key Value} {key : Key} {value : Value} {n : Ptr}
  {x : ν} {a : Val x} {q : Query Val Bool}

/-! ## 1. The two transactions -/

/-- A tree and vars beside it. -/
abbrev Store (Ptr Key Value : Type) {ν : Type} (Val : ν → Type) :=
  Optimistic.Memory (Beside (Content Ptr Key Value) Val)

/-- A transaction on both. -/
abbrev Transaction (Ptr Key Value : Type) {ν : Type} (Val : ν → Type) :=
  Nat → Optimistic.Program (Beside (Content Ptr Key Value) Val) Ptr Stop Bool

/-- `if (!tree.erase_one(tx, key)) x.set(tx, a);` -/
def eraseOrSet (compare : Key → Key → Bool) (key : Key) (x : ν) (a : Val x) :
    Transaction Ptr Key Value Val := fun fuel => do
  let found ← (eraseOne compare fuel key).inLeft
  if found then pure true else .set (.inr x) a (pure false)

/-- `if (q(tx)) tree.emplace(tx, key, value);`, where `q` gets vars; `n` is the node the allocator hands
    out. -/
def emplaceIf (compare : Key → Key → Bool) (q : Query Val Bool) (n : Ptr) (key : Key) (value : Value) :
    Transaction Ptr Key Value Val := fun fuel => do
  let b ← q.inRight
  if b then do
    (emplace compare fuel n key value).inLeft
    pure true
  else pure false

variable {m m' : Store Ptr Key Value Val}
  {s s' : Optimistic.Attempt (Beside (Content Ptr Key Value) Val) Ptr} {s₁ s₂ : Attempt Ptr Key Value}

/-- A part of a transaction on the tree, and what comes behind it. -/
theorem attempt_inLeft_bind {α β : Type} {p : Nat → Program Ptr Key Value α} {a : α}
    {f : α → Optimistic.Program (Beside (Content Ptr Key Value) Val) Ptr Stop β}
    {s : Optimistic.Attempt (Beside (Content Ptr Key Value) Val) Ptr} (hs : s.left = .start m.left)
    (h : Returns p m.left a s₁) :
    ∃ enough, ∀ fuel, enough ≤ fuel → ((p fuel).inLeft >>= f).run s = (f a).run (s.onLeft s₁) := by
  obtain ⟨enough, hrun⟩ := h
  refine ⟨enough, fun fuel hf => ?_⟩
  have hview : s.left.view = m.left := congrArg Optimistic.Attempt.view hs
  have hone := Optimistic.Program.run_inLeft (s := s) (hrun fuel hf)
  rw [← hview, Optimistic.onLeft_start] at hone
  exact Optimistic.Program.run_bind_ok hone

/-- What the first transaction does, by what `erase_one` does. -/
theorem returns_eraseOrSet {found : Bool}
    (h : Returns (fun fuel => eraseOne compare fuel key) m.left found s₁) :
    ∃ s, Returns (eraseOrSet compare key x a) m found s ∧ s.left = s₁ ∧
      s.right = if found then .start m.right else (Optimistic.Attempt.start m.right).write x a := by
  obtain ⟨enough, hrun⟩ := attempt_inLeft_bind (s := .start m) (f := fun found =>
    if found then pure true else .set (.inr x) a (pure false)) Optimistic.left_start h
  have hleft := Optimistic.left_onLeft (s := .start m) Optimistic.left_start s₁
  have hright := Optimistic.right_onLeft (s := .start m) s₁
  cases found with
  | true => exact ⟨_, ⟨enough, hrun⟩, hleft, hright⟩
  | false =>
    refine ⟨_, ⟨enough, hrun⟩, ?_, ?_⟩
    · exact (Optimistic.left_write_inr ..).trans hleft
    · rw [Optimistic.right_write_inr, hright]
      rfl

variable (compare key value n) in
/-- What the second one does that does not emplace. -/
theorem returns_emplaceIf_false (h : q.eval m.right = false) :
    ∃ s, Returns (emplaceIf compare q n key value) m false s ∧ s.left = .start m.left ∧
      s.right = (Optimistic.Attempt.start m.right).readAll (q.reads m.right).reverse := by
  refine ⟨(Optimistic.Attempt.start m).readAll ((q.reads m.right).reverse.map .inr),
    ⟨0, fun fuel _ => ?_⟩, Optimistic.left_readAll_inr _, Optimistic.right_readAll_inr _⟩
  have hq := q.run_inRight Ptr Stop (Optimistic.Attempt.start m)
  rw [Optimistic.right_start, Optimistic.Attempt.start_view, h] at hq
  exact Optimistic.Program.run_bind_ok hq

/-- What it does that emplaces, by what `emplace` does. -/
theorem returns_emplaceIf_true (h : q.eval m.right = true)
    (hret : Returns (fun fuel => emplace compare fuel n key value) m.left () s₂) :
    ∃ s, Returns (emplaceIf compare q n key value) m true s ∧ s.left = s₂ ∧
      s.right = (Optimistic.Attempt.start m.right).readAll (q.reads m.right).reverse := by
  have hleft := Optimistic.left_readAll_inr (s := (.start m : Optimistic.Attempt _ Ptr)) (q.reads m.right).reverse
  obtain ⟨enough, hrun⟩ := attempt_inLeft_bind (f := fun _ => pure true) hleft hret
  refine ⟨_, ⟨enough, fun fuel hf => ?_⟩, Optimistic.left_onLeft hleft s₂,
    (Optimistic.right_onLeft s₂).trans (Optimistic.right_readAll_inr _)⟩
  have hq := q.run_inRight Ptr Stop (Optimistic.Attempt.start m)
  rw [Optimistic.right_start, Optimistic.Attempt.start_view, h] at hq
  exact (Optimistic.Program.run_bind_ok hq).trans (hrun fuel hf)

/-! ## 2. What is left of a tree -/

section Contents

variable {α β : Type} {b : β → Bool} {y : β} {l : List β}

/-- The list with a new element, before those it goes before. -/
def insertBefore (before : α → Bool) (y : α) (l : List α) : List α :=
  l.filter (fun z => !before z) ++ y :: l.filter before

theorem map_insertBefore (f : α → β) (b : β → Bool) (y : α) (l : List α) :
    (insertBefore (fun z => b (f z)) y l).map f = insertBefore b (f y) (l.map f) := by
  simp [insertBefore, List.filter_map, Function.comp_def]

theorem filter_insertBefore (keep : β → Bool) (hy : keep y = true) :
    (insertBefore b y l).filter keep = insertBefore b y (l.filter keep) := by
  simp [insertBefore, List.filter_append, hy, List.filter_filter, Bool.and_comm]

theorem length_insertBefore : (insertBefore b y l).length = l.length + 1 := by
  have h := List.length_eq_length_filter_add (l := l) b
  simp only [insertBefore, List.length_append, List.length_cons]
  omega

end Contents

variable {m₁ m₂ : Memory Ptr Key Value}

/-- The cells that `emplace` leaves. -/
theorem emplace_leaves (ho : StrictWeak compare) (h : Valid compare m₁ t) (hn : n ∉ t.ptrs)
    (hs : Returns (fun fuel => emplace compare fuel n key value) m₁ () s₁) :
    ∃ t', Valid compare (s₁.commit m₁) t' ∧
      t'.cells = insertBefore (fun c => compare key c.2.1) (n, key, value) t.cells := by
  obtain ⟨s, t', C, hret, hv, -, rfl, hg, hc⟩ := emplace_spec ho h hn key value
  obtain ⟨-, rfl⟩ := hs.unique hret
  refine ⟨t', hret.commit_self ▸ hv, hc.trans ?_⟩
  have hfront := List.filter_eq_self.mpr hg.behind
  have hnone : ∀ c ∈ behind C, ¬ (!compare key c.2.1) = true := fun c hcm => by simp [hg.behind c hcm]
  have hall : ∀ c ∈ before C, (!compare key c.2.1) = true := fun c hcm => by simp [hg.before c hcm]
  have hnot : ∀ c ∈ before C, ¬ compare key c.2.1 = true := fun c hcm => by simp [hg.before c hcm]
  simp only [insertBefore, cells_plug_nil, List.filter_append, List.filter_eq_self.mpr hall,
    List.filter_eq_nil_iff.mpr hnone, List.filter_eq_nil_iff.mpr hnot, hfront, List.append_nil,
    List.nil_append]

/-- Without the cell of one node. -/
theorem filter_node {A B : List (Ptr × Key × Value)} {x : Ptr × Key × Value}
    (hn : ((A ++ x :: B).map fun c => c.1).Nodup) :
    (A ++ x :: B).filter (fun c => decide (c.1 ≠ x.1)) = A ++ B := by
  rw [List.map_append, List.map_cons] at hn
  have hA : ∀ c ∈ A, decide (c.1 ≠ x.1) = true := fun c hc => decide_eq_true fun e =>
    List.disjoint_of_nodup_append hn (List.mem_map_of_mem hc) (e ▸ List.mem_cons_self)
  have hB : ∀ c ∈ B, decide (c.1 ≠ x.1) = true := fun c hc => decide_eq_true fun e =>
    (List.nodup_cons.mp (List.nodup_append'.mp hn).2.1).1 (e ▸ List.mem_map_of_mem hc)
  rw [List.filter_append, List.filter_cons_of_neg (by simp), List.filter_eq_self.mpr hA,
    List.filter_eq_self.mpr hB]

/-- The pairs that an erasure leaves. -/
theorem Unlinks.pairs_left {e p : Ptr} {writes : List (Var Ptr)} (h : Unlinks m₁ t t' e p writes)
    (hn : t.ptrs.Nodup) : t'.pairs = (t.cells.filter fun c => decide (c.1 ≠ e)).map fun c => c.2 := by
  cases h with
  | self node _ cells cells' =>
    subst node
    rw [Tree.ptrs, cells] at hn
    rw [Tree.pairs, cells', cells, filter_node hn]
  | next _ _ cells cells' _ =>
    rw [Tree.ptrs, cells] at hn
    rw [Tree.pairs, cells', cells, filter_node hn, List.map_append, List.map_append]
    rfl

/-- **The erasure and the insertion of one key go either way.** `erase_one` ran on the tree that
    `emplace` has put a node into since. What it leaves is what it leaves before, and `emplace` then. -/
theorem erase_after_emplace (ho : StrictWeak compare) (h : Valid compare m₁ t) (hn : n ∉ t.ptrs)
    (h₁ : Returns (fun fuel => eraseOne compare fuel key) m₁ true s₁)
    (h₂ : Returns (fun fuel => emplace compare fuel n key value) m₁ () s₂)
    (hv : s₁.Validates s₂.writes) :
    ∃ s' t₁ t', Valid compare (s₁.commit (s₂.commit m₁)) t₁ ∧
      Returns (fun fuel => emplace compare fuel n key value) (s₁.commit m₁) () s' ∧
      Valid compare (s'.commit (s₁.commit m₁)) t' ∧ t₁.pairs = t'.pairs := by
  obtain ⟨t₂, haft⟩ := (Operation.emplace n key value).after ho h ⟨hn, h₂⟩
  obtain ⟨t₂', hval₂, hcells⟩ := emplace_leaves ho h hn h₂
  obtain rfl := hval₂.represents.unique haft.valid.represents
  rcases eraseOne_spec ho h key with ⟨us, -, hret⟩ | ⟨us, x, hx, -, -, s', t₁, p, hrun, hret, hval₁,
    -, hunl, -⟩
  · cases (h₁.unique hret).1
  obtain ⟨-, rfl⟩ := h₁.unique hret
  rw [← hret.commit_self] at hval₁
  have hrep := h.represents
  have hx₂ : x ∈ t₂.cells := by
    rw [hcells, insertBefore, List.mem_append, List.mem_cons, List.mem_filter, List.mem_filter]
    cases hc : compare key x.2.1 <;> simp [hx]
  -- the insertion has not touched what the erasure has read
  obtain ⟨hfoot, -⟩ := eraseImpl_footprint hrep (List.mem_map_of_mem hx)
    (hrun (t.cells.length + 1) (Nat.lt_succ_self _))
  have hread : ∀ v ∈ s₁.reads, s₂.commit m₁ v = m₁ v := fun v hvr =>
    haft.frame v (fun hw => (hv v hw).1 hvr) (hfoot v hvr)
  have hmoved := eraseImpl_moved hrep (List.mem_map_of_mem hx)
    (hrun _ (Nat.lt_of_lt_of_le (Nat.lt_succ_self _) (Nat.le_max_left _ (t₂.cells.length + 1))))
    hread []
  obtain ⟨s₃, t₃, p', hrun₃, hrep₃, hbal₃, -, hunl₃, -⟩ := eraseImpl_spec
    (s := (Optimistic.Attempt.start (s₂.commit m₁)).readAllUntracked []) hval₂.represents
    hval₂.balanced (List.mem_map_of_mem hx₂)
  have e := hmoved.symm.trans
    (hrun₃ _ (Nat.lt_of_lt_of_le (Nat.lt_succ_self _) (Nat.le_max_right (t.cells.length + 1) _)))
  obtain rfl : s₁.moved (s₂.commit m₁) [] = s₃ := congrArg Prod.snd (Except.ok.inj e)
  have hval₃ : Valid compare (s₁.commit (s₂.commit m₁)) t₃ :=
    ⟨hrep₃, (hunl₃.erasedPair hval₂.represents.nodup hx₂ rfl).sorted hval₂.sorted, hbal₃⟩
  -- the insertion into what the erasure leaves
  have hn₁ : n ∉ t₁.ptrs := fun hm => hn (hunl.ptrs_sublist.subset hm)
  obtain ⟨s₄, t₄, -, hret₄, -⟩ := emplace_spec ho hval₁ hn₁ key value
  obtain ⟨t', hval', hcells'⟩ := emplace_leaves ho hval₁ hn₁ hret₄
  refine ⟨s₄, t₃, t', hval₃, hret₄, hval', ?_⟩
  have hnx : decide (n ≠ x.1) = true := decide_eq_true fun e => hn (e ▸ List.mem_map_of_mem hx)
  calc t₃.pairs = (t₂.cells.filter fun c => decide (c.1 ≠ x.1)).map fun c => c.2 :=
        hunl₃.pairs_left hval₂.represents.nodup
    _ = insertBefore (fun e => compare key e.1) (key, value)
          ((t.cells.filter fun c => decide (c.1 ≠ x.1)).map fun c => c.2) := by
        rw [hcells, filter_insertBefore (fun c : Ptr × Key × Value => decide (c.1 ≠ x.1)) hnx]
        exact map_insertBefore (fun c => c.2) (fun e => compare key e.1) (n, key, value) _
    _ = insertBefore (fun e => compare key e.1) (key, value) t₁.pairs := by
        rw [hunl.pairs_left hrep.nodup]
    _ = t'.pairs := by
        rw [Tree.pairs, Tree.pairs, hcells']
        exact (map_insertBefore (fun c => c.2) (fun e => compare key e.1) (n, key, value) _).symm

/-! ## 3. One after the other, and both at once -/

/-- The vars have the same values, the trees the same pairs in the same order. -/
def SameContents (m m' : Store Ptr Key Value Val) : Prop :=
  m.right = m'.right ∧ ∃ t t' : Tree Ptr Key Value,
    Represents m.left t ∧ Represents m'.left t' ∧ t.pairs = t'.pairs

section Pair

variable (compare q n key value x a) in
/-- What is left is what one after the other leaves. -/
def SerialContents (m m' : Store Ptr Key Value Val) : Prop :=
  ∃ m'', (Serial (eraseOrSet compare key x a) (emplaceIf compare q n key value) m m'' ∨
      Serial (emplaceIf compare q n key value) (eraseOrSet compare key x a) m m'') ∧
    SameContents m' m''

/-- **The two transactions skew**: the key is absent and `q` says so too, but not of the var once it is set. -/
structure Skew (compare : Key → Key → Bool) (t : Tree Ptr Key Value) (key : Key) (x : ν) (a : Val x)
    (q : Query Val Bool) (vars : Optimistic.Memory Val) : Prop where
  absent : ∀ c ∈ t.cells, ¬ Equivalent compare key c.2.1
  emplaces : q.eval vars = true
  noticed : q.eval (Function.update vars x a) = false

variable (ho : StrictWeak compare) (h : Valid compare m.left t) (hn : n ∉ t.ptrs)
include ho h

variable (key x a) in
/-- What the first transaction may do. -/
theorem eraseOrSet_cases :
    (∃ us s, (∀ c ∈ t.cells, ¬ Equivalent compare key c.2.1) ∧
      Returns (eraseOrSet compare key x a) m false s ∧
      s.left = (Optimistic.Attempt.start m.left).readAllUntracked us ∧
      s.right = (Optimistic.Attempt.start m.right).write x a) ∨
    ∃ s t', Returns (eraseOrSet compare key x a) m true s ∧
      Returns (fun fuel => eraseOne compare fuel key) m.left true s.left ∧
      Valid compare (s.left.commit m.left) t' ∧ t.ptrs.length = t'.ptrs.length + 1 ∧ t'.ptrs ⊆ t.ptrs ∧
      s.left.writes ≠ [] ∧ s.right = .start m.right := by
  rcases eraseOne_spec ho h key with ⟨us, habs, hret⟩ | ⟨us, y, hy, -, -, s', t', p, hrun, hret, hval, -,
    hunl, -⟩
  · obtain ⟨s, hs, hl, hr⟩ := returns_eraseOrSet (x := x) (a := a) hret
    exact .inl ⟨us, s, habs, hs, hl, hr⟩
  · obtain ⟨s, hs, rfl, hr⟩ := returns_eraseOrSet (x := x) (a := a) hret
    have hlen := (hunl.erasedPair h.represents.nodup hy rfl).ptrs.length_eq
    rw [← hret.commit_self] at hval
    refine .inr ⟨s, t', hs, hret, hval, hlen, hunl.ptrs_sublist.subset, fun hnil => ?_, hr⟩
    -- it has changed the memory
    obtain ⟨-, hpriv⟩ := eraseImpl_footprint h.represents (List.mem_map_of_mem hy)
      (hrun (t.cells.length + 1) (Nat.lt_succ_self _))
    rw [Optimistic.Attempt.commit_of_nil hnil (List.eq_nil_iff_forall_not_mem.mpr hpriv)] at hval
    rw [hval.represents.unique h.represents, List.length_cons] at hlen
    omega

variable (key value q) in
include hn in
/-- What the second one may do. -/
theorem emplaceIf_cases :
    (q.eval m.right = false ∧ ∃ s, Returns (emplaceIf compare q n key value) m false s ∧
      s.left = .start m.left ∧
      s.right = (Optimistic.Attempt.start m.right).readAll (q.reads m.right).reverse) ∨
    q.eval m.right = true ∧ ∃ s t', Returns (emplaceIf compare q n key value) m true s ∧
      Returns (fun fuel => emplace compare fuel n key value) m.left () s.left ∧
      Valid compare (s.left.commit m.left) t' ∧ t'.ptrs.length = t.ptrs.length + 1 ∧
      (∃ c ∈ t'.cells, Equivalent compare key c.2.1) ∧
      s.right = (Optimistic.Attempt.start m.right).readAll (q.reads m.right).reverse := by
  cases hq : q.eval m.right with
  | false =>
    obtain ⟨s, hs⟩ := returns_emplaceIf_false compare key value n hq
    exact .inl ⟨rfl, s, hs⟩
  | true =>
    obtain ⟨s₂, -, -, hret, -⟩ := emplace_spec ho h hn key value
    obtain ⟨s, hs, rfl, hr⟩ := returns_emplaceIf_true hq hret
    obtain ⟨t', hval, hcells⟩ := emplace_leaves ho h hn hret
    have hlen : t'.cells.length = t.cells.length + 1 := hcells ▸ length_insertBefore
    refine .inr ⟨rfl, s, t', hs, hret, hval, ?_, ⟨(n, key, value), ?_, ho.irrefl key, ho.irrefl key⟩, hr⟩
    · rw [Tree.ptrs, Tree.ptrs, List.length_map, List.length_map, hlen]
    · rw [hcells, insertBefore]
      exact List.mem_append_right _ List.mem_cons_self

/-- The first one leaves a valid tree, of no other nodes. -/
theorem eraseOrSet_valid {b : Bool} (hs : Returns (eraseOrSet compare key x a) m b s) :
    ∃ t', Valid compare (Optimistic.Memory.left (s.commit m)) t' ∧ t'.ptrs ⊆ t.ptrs := by
  rw [Optimistic.Attempt.left_commit]
  rcases eraseOrSet_cases key x a ho h with ⟨us, s₀, -, hs₀, hl, -⟩ | ⟨s₀, t', hs₀, -, hval, -, hsub, -, -⟩
  · obtain ⟨-, rfl⟩ := hs.unique hs₀
    rw [hl, Optimistic.Attempt.commit_of_nil rfl rfl]
    exact ⟨t, h, List.Subset.refl _⟩
  · obtain ⟨-, rfl⟩ := hs.unique hs₀
    exact ⟨t', hval, hsub⟩

include hn in
theorem emplaceIf_valid {b : Bool} (hs : Returns (emplaceIf compare q n key value) m b s) :
    ∃ t', Valid compare (Optimistic.Memory.left (s.commit m)) t' := by
  rw [Optimistic.Attempt.left_commit]
  rcases emplaceIf_cases key value q ho h hn with ⟨-, s₀, hs₀, hl, -⟩ | ⟨-, s₀, t', hs₀, -, hval, -⟩
  · obtain ⟨-, rfl⟩ := hs.unique hs₀
    rw [hl, Optimistic.Attempt.commit_of_nil rfl rfl]
    exact ⟨t, h⟩
  · obtain ⟨-, rfl⟩ := hs.unique hs₀
    exact ⟨t', hval⟩

include hn in
/-- Either order leaves a valid tree. -/
theorem serial_valid (hs : Serial (eraseOrSet compare key x a) (emplaceIf compare q n key value) m m' ∨
      Serial (emplaceIf compare q n key value) (eraseOrSet compare key x a) m m') :
    ∃ t', Valid compare m'.left t' := by
  rcases hs with ⟨_, _, s, s', hs, hs', rfl⟩ | ⟨_, _, s, s', hs, hs', rfl⟩
  · obtain ⟨t₁, hval, hsub⟩ := eraseOrSet_valid ho h hs
    exact emplaceIf_valid ho hval (fun hm => hn (hsub hm)) hs'
  · obtain ⟨t₁, hval⟩ := emplaceIf_valid ho h hn hs
    obtain ⟨t', hval', -⟩ := eraseOrSet_valid ho hval hs'
    exact ⟨t', hval'⟩

include hn in
/-- What one after the other leaves, left by both at once. -/
theorem serialContents_of_serial
    (hs : Serial (eraseOrSet compare key x a) (emplaceIf compare q n key value) m m' ∨
      Serial (emplaceIf compare q n key value) (eraseOrSet compare key x a) m m') :
    SerialContents compare key value n x a q m m' := by
  obtain ⟨t', hval⟩ := serial_valid ho h hn hs
  exact ⟨m', hs, rfl, t', t', hval.represents, hval.represents, rfl⟩

variable {b b' : Bool} (hs : Returns (eraseOrSet compare key x a) m b s)
  (hs' : Returns (emplaceIf compare q n key value) m b' s')
include hn hs hs'

/-- The first one has committed first, and the second one commits behind it. -/
theorem stale_emplaceIf (hl : ¬ (q.eval m.right = true ∧ Lossy compare m.left t key key))
    (hc : s'.CommitsAfter s) :
    SerialContents compare key value n x a q m (s'.commit (s.commit m)) := by
  refine serialContents_of_serial ho h hn ?_
  rcases emplaceIf_cases key value q ho h hn with ⟨hq, s₀, hs₀, hl', hr'⟩ | ⟨hq, s₀, t₂, hs₀, hret₂, -, -, -, hr'⟩
  · -- it has written nothing, and might have come first
    obtain ⟨-, rfl⟩ := hs'.unique hs₀
    have hnil : ∀ m₀ : Store Ptr Key Value Val, s'.commit m₀ = m₀ := fun m₀ =>
      Optimistic.Memory.ext_sides
        (by rw [Optimistic.Attempt.left_commit, hl', Optimistic.Attempt.commit_of_nil rfl rfl])
        (by rw [Optimistic.Attempt.right_commit, hr', Optimistic.Attempt.start_readAll_commit])
    exact .inr ⟨b', b, s', s, hs', (hnil m).symm ▸ hs, by rw [hnil, hnil]⟩
  obtain ⟨-, rfl⟩ := hs'.unique hs₀
  obtain ⟨C, hC, hg⟩ := exists_gap (C := []) ho h.sorted (⟨nofun, nofun⟩ : Gap compare key [])
  have hv : s'.Validates s.writes := hc.resolve_left fun hnil => by
    have hC : plug C .nil = t := hC
    obtain ⟨-, hslot⟩ := emplace_tracks (hC ▸ h.represents) (hC ▸ hn) hg hret₂
    have hw := Optimistic.mem_getLeft.mp hslot
    rw [hnil] at hw
    cases hw
  obtain ⟨hvl, hvr⟩ := Optimistic.Attempt.validates_iff.mp hv
  -- if it emplaces the same behind the first one, it might have begun there
  have hagain : ∀ s₃ : Attempt Ptr Key Value, q.eval (Optimistic.Memory.right (s.commit m)) = true →
      Returns (fun fuel => emplace compare fuel n key value) (Optimistic.Memory.left (s.commit m)) () s₃ →
      s'.left.commit (Optimistic.Memory.left (s.commit m)) =
        s₃.commit (Optimistic.Memory.left (s.commit m)) →
      Serial (eraseOrSet compare key x a) (emplaceIf compare q n key value) m (s'.commit (s.commit m)) := by
    intro s₃ hq₃ hret₃ he
    obtain ⟨s'', hs'', rfl, hr''⟩ := returns_emplaceIf_true hq₃ hret₃
    refine ⟨b, true, s, s'', hs, hs'', Optimistic.Memory.ext_sides ?_ ?_⟩
    · rw [Optimistic.Attempt.left_commit, Optimistic.Attempt.left_commit (s := s''), he]
    · rw [Optimistic.Attempt.right_commit, Optimistic.Attempt.right_commit (s := s''), hr', hr'',
        Optimistic.Attempt.start_readAll_commit, Optimistic.Attempt.start_readAll_commit]
  rcases eraseOrSet_cases key x a ho h with ⟨us, s₀, -, hs₀, hl₁, hr₁⟩ |
    ⟨s₀, t₁, hs₀, hret₁, -, -, -, -, hr₁⟩
  · -- the var it has set is none of those got
    obtain ⟨-, rfl⟩ := hs.unique hs₀
    have hleft : Optimistic.Memory.left (s.commit m) = m.left := by
      rw [Optimistic.Attempt.left_commit, hl₁, Optimistic.Attempt.commit_of_nil rfl rfl]
    have hright : Optimistic.Memory.right (s.commit m) = Function.update m.right x a := by
      rw [Optimistic.Attempt.right_commit, hr₁, Optimistic.Attempt.start_write_commit]
    have hx : x ∉ q.reads m.right := fun hx => by
      have hw : x ∈ s.right.writes := by simp [hr₁]
      refine (hvr x hw).1 ?_
      simpa [hr'] using hx
    refine .inl (hagain s'.left ?_ (hleft ▸ hret₂) rfl)
    rw [hright, ← hq]
    exact Query.eval_congr fun v hv => Function.update_of_ne (fun e : v = x => hx (e ▸ hv)) a m.right
  · obtain ⟨-, rfl⟩ := hs.unique hs₀
    have hleft : Optimistic.Memory.left (s.commit m) = s.left.commit m.left := Optimistic.Attempt.left_commit
    have hright : Optimistic.Memory.right (s.commit m) = m.right := by
      rw [Optimistic.Attempt.right_commit, hr₁, Optimistic.Attempt.commit_of_nil rfl rfl]
    obtain ⟨C, e, p, t₂, rfl, hboth, -⟩ := exists_both ho h hn hret₂ hret₁
    have htop : top C ≠ some p := fun e => hboth.conflict e (fun hlossy => hl ⟨hq, hlossy⟩) hvl
    obtain ⟨s₃, -, hret₃, hview, -⟩ := hboth.rerun ho htop hvl
    rw [← hleft] at hret₃ hview
    exact .inl (hagain s₃ (hright ▸ hq) hret₃ (hview.symm.trans hret₃.commit_self.symm))

/-- The second one has committed first, and the first one commits behind it. -/
theorem stale_eraseOrSet (hk : ¬ Skew compare t key x a q m.right) (hc : s.CommitsAfter s') :
    SerialContents compare key value n x a q m (s.commit (s'.commit m)) := by
  rcases emplaceIf_cases key value q ho h hn with ⟨hq, s₀, hs₀, hl', hr'⟩ | ⟨hq, s₀, t₂, hs₀, hret₂, -, -, -, hr'⟩
  · -- that one has written nothing
    obtain ⟨-, rfl⟩ := hs'.unique hs₀
    have hnil : s'.commit m = m := Optimistic.Memory.ext_sides
      (by rw [Optimistic.Attempt.left_commit, hl', Optimistic.Attempt.commit_of_nil rfl rfl])
      (by rw [Optimistic.Attempt.right_commit, hr', Optimistic.Attempt.start_readAll_commit])
    exact serialContents_of_serial ho h hn (.inr ⟨b', b, s', s, hs', hnil.symm ▸ hs, rfl⟩)
  obtain ⟨-, rfl⟩ := hs'.unique hs₀
  have hright' : ∀ m₀ : Store Ptr Key Value Val, Optimistic.Memory.right (s'.commit m₀) = m₀.right :=
    fun m₀ => by rw [Optimistic.Attempt.right_commit, hr', Optimistic.Attempt.start_readAll_commit]
  rcases eraseOrSet_cases key x a ho h with ⟨us, s₀, habs, hs₀, hl₁, hr₁⟩ |
    ⟨s₀, t₁, hs₀, hret₁, -, -, -, hne, hr₁⟩
  · -- it would emplace behind the var that is set, too
    obtain ⟨-, rfl⟩ := hs.unique hs₀
    have hleft : ∀ m₀ : Store Ptr Key Value Val, Optimistic.Memory.left (s.commit m₀) = m₀.left := fun m₀ =>
      by rw [Optimistic.Attempt.left_commit, hl₁, Optimistic.Attempt.commit_of_nil rfl rfl]
    have hright : ∀ m₀ : Store Ptr Key Value Val,
        Optimistic.Memory.right (s.commit m₀) = Function.update m₀.right x a := fun m₀ => by
      rw [Optimistic.Attempt.right_commit, hr₁, Optimistic.Attempt.start_write_commit]
    have hq₁ : q.eval (Optimistic.Memory.right (s.commit m)) = true := by
      rw [hright]
      exact Bool.of_not_eq_false fun hf => hk ⟨habs, hq, hf⟩
    obtain ⟨s'', hs'', hl'', hr''⟩ := returns_emplaceIf_true hq₁ ((hleft m).symm ▸ hret₂)
    refine serialContents_of_serial ho h hn (.inl ⟨b, true, s, s'', hs, hs'', ?_⟩)
    refine Optimistic.Memory.ext_sides ?_ ?_
    · rw [hleft, Optimistic.Attempt.left_commit, Optimistic.Attempt.left_commit, hl'', hleft]
    · rw [hright, hright', Optimistic.Attempt.right_commit (s := s''), hr'',
        Optimistic.Attempt.start_readAll_commit, hright]
  · obtain ⟨-, rfl⟩ := hs.unique hs₀
    have hright : ∀ m₀ : Store Ptr Key Value Val, Optimistic.Memory.right (s.commit m₀) = m₀.right :=
      fun m₀ => by rw [Optimistic.Attempt.right_commit, hr₁, Optimistic.Attempt.commit_of_nil rfl rfl]
    have hv : s.Validates s'.writes := hc.resolve_left fun hnil => hne (by simp [hnil])
    obtain ⟨hvl, -⟩ := Optimistic.Attempt.validates_iff.mp hv
    obtain ⟨s₃, u, u', hval, hret₃, hval', hpairs⟩ := erase_after_emplace ho h hn hret₁ hret₂ hvl
    have hq₁ : q.eval (Optimistic.Memory.right (s.commit m)) = true := (hright m).symm ▸ hq
    rw [← Optimistic.Attempt.left_commit] at hret₃ hval'
    obtain ⟨s'', hs'', rfl, hr''⟩ := returns_emplaceIf_true hq₁ hret₃
    refine ⟨s''.commit (s.commit m), .inl ⟨b, true, s, s'', hs, hs'', rfl⟩, ?_, u, u', ?_, ?_, hpairs⟩
    · rw [hright, hright', Optimistic.Attempt.right_commit (s := s''), hr'',
        Optimistic.Attempt.start_readAll_commit, hright]
    · rw [Optimistic.Attempt.left_commit, Optimistic.Attempt.left_commit]
      exact hval.represents
    · rw [Optimistic.Attempt.left_commit]
      exact hval'.represents

omit hs hs' in
/-- If the second one emplaces, and the first one either erases or keeps it from that, then as many nodes are
    left as there were. -/
theorem serial_length (hq : q.eval m.right = true)
    (hfree : (∀ c ∈ t.cells, ¬ Equivalent compare key c.2.1) →
      q.eval (Function.update m.right x a) = false)
    (hser : Serial (eraseOrSet compare key x a) (emplaceIf compare q n key value) m m' ∨
      Serial (emplaceIf compare q n key value) (eraseOrSet compare key x a) m m') :
    ∃ t', Represents m'.left t' ∧ t'.ptrs.length = t.ptrs.length := by
  rcases hser with ⟨_, _, s, s', hs, hs', rfl⟩ | ⟨_, _, s', s, hs', hs, rfl⟩
  · rcases eraseOrSet_cases key x a ho h with ⟨us, s₀, habs, hs₀, hl₁, hr₁⟩ |
      ⟨s₀, t₁, hs₀, -, hval₁, hlen, hsub, -, hr₁⟩
    · obtain ⟨-, rfl⟩ := hs.unique hs₀
      have hleft : Optimistic.Memory.left (s.commit m) = m.left := by
        rw [Optimistic.Attempt.left_commit, hl₁, Optimistic.Attempt.commit_of_nil rfl rfl]
      have hq₁ : q.eval (Optimistic.Memory.right (s.commit m)) = false := by
        rw [Optimistic.Attempt.right_commit, hr₁, Optimistic.Attempt.start_write_commit, hfree habs]
      obtain ⟨s₃, hs₃, hl₃, -⟩ := returns_emplaceIf_false compare key value n hq₁
      obtain ⟨-, rfl⟩ := hs'.unique hs₃
      refine ⟨t, ?_, rfl⟩
      rw [Optimistic.Attempt.left_commit, hl₃, Optimistic.Attempt.commit_of_nil rfl rfl, hleft]
      exact h.represents
    · obtain ⟨-, rfl⟩ := hs.unique hs₀
      have hq₁ : q.eval (Optimistic.Memory.right (s.commit m)) = true := by
        rw [Optimistic.Attempt.right_commit, hr₁, Optimistic.Attempt.commit_of_nil rfl rfl, hq]
      rw [← Optimistic.Attempt.left_commit] at hval₁
      rcases emplaceIf_cases key value q ho hval₁ (fun hm => hn (hsub hm)) with
        ⟨hf, -⟩ | ⟨-, s₃, t', hs₃, -, hval', hlen', -, -⟩
      · rw [hq₁] at hf
        cases hf
      · obtain ⟨-, rfl⟩ := hs'.unique hs₃
        refine ⟨t', ?_, by omega⟩
        rw [Optimistic.Attempt.left_commit]
        exact hval'.represents
  · rcases emplaceIf_cases key value q ho h hn with ⟨hf, -⟩ |
      ⟨-, s₀, t₂, hs₀, -, hval₂, hlen, ⟨c, hc, heq⟩, -⟩
    · rw [hq] at hf
      cases hf
    obtain ⟨-, rfl⟩ := hs'.unique hs₀
    rw [← Optimistic.Attempt.left_commit] at hval₂
    rcases eraseOrSet_cases key x a ho hval₂ with ⟨-, -, habs, -⟩ |
      ⟨s₃, t', hs₃, -, hval', hlen', -, -, -⟩
    · exact absurd heq (habs c hc)
    · obtain ⟨-, rfl⟩ := hs.unique hs₃
      refine ⟨t', ?_, by omega⟩
      rw [Optimistic.Attempt.left_commit]
      exact hval'.represents

omit hs hs' in
/-- A tree of another size is not serial. -/
theorem not_serialContents (hq : q.eval m.right = true)
    (hfree : (∀ c ∈ t.cells, ¬ Equivalent compare key c.2.1) →
      q.eval (Function.update m.right x a) = false)
    (hlen : ∀ t' : Tree Ptr Key Value, Represents m'.left t' → t'.ptrs.length ≠ t.ptrs.length) :
    ¬ SerialContents compare key value n x a q m m' := by
  rintro ⟨m'', hser, -, u, u', hu, hu', hpairs⟩
  obtain ⟨t', ht', hlen'⟩ := serial_length ho h hn hq hfree hser
  obtain rfl := hu'.unique ht'
  have he := congrArg List.length hpairs
  simp only [Tree.pairs, List.length_map] at he
  refine hlen u hu ?_
  rw [← hlen', Tree.ptrs, Tree.ptrs, List.length_map, List.length_map, he]

variable (value) in
omit hs hs' in
/-- **They skew.** The second one commits, and the first one behind it. -/
theorem Skew.not_serial (hk : Skew compare t key x a q m.right) :
    ∃ m', Interleaved (eraseOrSet compare key x a) (emplaceIf compare q n key value) m m' ∧
      ¬ SerialContents compare key value n x a q m m' := by
  rcases emplaceIf_cases key value q ho h hn with ⟨hf, -⟩ |
    ⟨-, s', t₂, hs', -, hval₂, hlen, -, hr'⟩
  · rw [hk.emplaces] at hf
    cases hf
  rcases eraseOrSet_cases key x a ho h with ⟨us, s, -, hs, hl₁, hr₁⟩ |
    ⟨s, t₁, hs, hret₁, -⟩
  · refine ⟨s.commit (s'.commit m), .inr (.stale _ _ s' s hs' hs (.inr ?_)),
      not_serialContents ho h hn hk.emplaces (fun _ => hk.noticed) fun t' ht' => ?_⟩
    · -- it has read nothing, and sets a var the other one has not
      refine Optimistic.Attempt.validates_iff.mpr ⟨fun v _ => ?_, fun v hv => ?_⟩
      · rw [hl₁]
        exact ⟨List.not_mem_nil, List.not_mem_nil⟩
      · have hv : v ∈ s'.right.writes := hv
        rw [hr'] at hv
        cases hv
    · rw [Optimistic.Attempt.left_commit, hl₁, Optimistic.Attempt.commit_of_nil rfl rfl,
        Optimistic.Attempt.left_commit] at ht'
      rw [hval₂.represents.unique ht', hlen]
      exact Nat.succ_ne_self _
  · rcases eraseOne_spec ho h key with ⟨us, -, hret⟩ | ⟨us, y, hy, heq, -⟩
    · cases (hret₁.unique hret).1
    · exact absurd heq (hk.absent y hy)

variable (value x a) in
omit hs hs' in
/-- **The new node is lost.** The first one commits, and the second one behind it. -/
theorem Lossy.not_serial (hq : q.eval m.right = true) (hl : Lossy compare m.left t key key) :
    ∃ m', Interleaved (eraseOrSet compare key x a) (emplaceIf compare q n key value) m m' ∧
      ¬ SerialContents compare key value n x a q m m' := by
  -- there is something to erase
  have hpres : ¬ ∀ c ∈ t.cells, ¬ Equivalent compare key c.2.1 := fun habs => by
    obtain ⟨p, g, hat⟩ := hl
    obtain ⟨e, he, -⟩ := hat.out
    obtain ⟨us, hfound, -⟩ := run_find ho h key
    rw [he] at hfound
    cases hfound with
    | present hx heq => exact habs _ hx heq
  rcases emplaceIf_cases key value q ho h hn with ⟨hf, -⟩ |
    ⟨-, s', -, hs', hret₂, -, -, -, hr'⟩
  · rw [hq] at hf
    cases hf
  rcases eraseOrSet_cases key x a ho h with ⟨us, s, habs, -⟩ |
    ⟨s, t₁, hs, hret₁, hval₁, hlen, -, -, hr₁⟩
  · exact absurd habs hpres
  obtain ⟨C, e, p, t₂, rfl, hboth, -⟩ := exists_both ho h hn hret₂ hret₁
  obtain ⟨hv, -⟩ := hboth.lossy_validates hl
  refine ⟨s'.commit (s.commit m), .inl (.stale _ _ s s' hs hs' (.inr ?_)),
    not_serialContents ho h hn hq (fun habs => absurd habs hpres) fun t' ht' => ?_⟩
  · refine Optimistic.Attempt.validates_iff.mpr ⟨hv, fun v hv => ?_⟩
    have hv : v ∈ s.right.writes := hv
    rw [hr₁] at hv
    cases hv
  · rw [Optimistic.Attempt.left_commit, Optimistic.Attempt.left_commit] at ht'
    rw [hboth.lossy_ptrs hl ht', hval₁.represents.unique hboth.left.represents]
    omega

end Pair

/-! ## 4. When the two are serializable -/

/-- **The two transactions are serializable unless they skew, or the new node is lost.** What any interleaving
    in which both commit leaves, has one of the two orders left as well, exactly if neither is so. -/
theorem negativeErase_serializable_iff (ho : StrictWeak compare) (h : Valid compare m.left t)
    (hn : n ∉ t.ptrs) :
    (∀ m', Interleaved (eraseOrSet compare key x a) (emplaceIf compare q n key value) m m' →
        SerialContents compare key value n x a q m m') ↔
      ¬ Skew compare t key x a q m.right ∧ ¬ (q.eval m.right = true ∧ Lossy compare m.left t key key) := by
  constructor
  · intro hall
    refine ⟨fun hk => ?_, fun hl => ?_⟩
    · obtain ⟨m', hi, hnot⟩ := hk.not_serial value ho h hn
      exact hnot (hall m' hi)
    · obtain ⟨m', hi, hnot⟩ := Lossy.not_serial value x a ho h hn hl.1 hl.2
      exact hnot (hall m' hi)
  · rintro ⟨hk, hl⟩ m' (hi | hi)
    · cases hi with
      | fresh b b' s s' hs hs' =>
        exact serialContents_of_serial ho h hn (.inl ⟨b, b', s, s', hs, hs', rfl⟩)
      | stale b b' s s' hs hs' hc => exact stale_emplaceIf ho h hn hs hs' hl hc
    · cases hi with
      | fresh b b' s s' hs hs' =>
        exact serialContents_of_serial ho h hn (.inr ⟨b, b', s, s', hs, hs', rfl⟩)
      | stale b b' s s' hs hs' hc => exact stale_eraseOrSet ho h hn hs' hs hk hc

/-- Both transactions have a var between them. -/
def besideFlag (t : Tree Nat Nat Nat) : Store Nat Nat Nat fun _ : Unit => Bool :=
  .beside (memoryOf t) fun _ => false

theorem besideFlag_valid : Valid less (besideFlag redLeaves).left redLeaves := redLeaves_valid

/-- Both can commit. -/
theorem exists_interleaved (ho : StrictWeak compare) (h : Valid compare m.left t) (hn : n ∉ t.ptrs) :
    ∃ m', Interleaved (eraseOrSet compare key x a) (emplaceIf compare q n key value) m m' := by
  obtain ⟨b, s, hs⟩ : ∃ b s, Returns (eraseOrSet compare key x a) m b s := by
    rcases eraseOrSet_cases key x a ho h with ⟨_, s, -, hs, -⟩ | ⟨s, _, hs, -⟩ <;> exact ⟨_, s, hs⟩
  obtain ⟨t₁, hval, hsub⟩ := eraseOrSet_valid ho h hs
  rcases emplaceIf_cases key value q ho hval (fun hm => hn (hsub hm)) with ⟨-, s', hs', -⟩ |
    ⟨-, s', _, hs', -⟩ <;> exact ⟨_, .inl (.fresh _ _ s s' hs hs')⟩

/-- The second one emplaces whether the var is set or not. -/
theorem negativeErase_serializable_iff_always :
    (∃ m', Interleaved (eraseOrSet less 3 () true) (emplaceIf less (.answer true) 7 3 30)
        (besideFlag redLeaves) m') ∧
    ∀ m', Interleaved (eraseOrSet less 3 () true) (emplaceIf less (.answer true) 7 3 30)
        (besideFlag redLeaves) m' →
      SerialContents less 3 30 7 () true (.answer true) (besideFlag redLeaves) m' := by
  have hn : 7 ∉ redLeaves.ptrs := by decide
  refine ⟨exists_interleaved less_strictWeak besideFlag_valid hn,
    (negativeErase_serializable_iff less_strictWeak besideFlag_valid hn).mpr
      ⟨fun hk => Bool.noConfusion hk.noticed, fun hl => ?_⟩⟩
  obtain ⟨-, p, g, hat⟩ := hl
  obtain ⟨e, he, -⟩ := hat.out
  cases he

/-- **Two that skew.** The first one sets the var since 3 is not there, the second one emplaces 3 since the var
    is not set. -/
theorem negativeErase_skew :
    ∃ m', Interleaved (eraseOrSet less 3 () true)
        (emplaceIf less (.get () fun b => .answer (!b)) 7 3 30) (besideFlag redLeaves) m' ∧
      ¬ SerialContents less 3 30 7 () true (.get () fun b => .answer (!b)) (besideFlag redLeaves) m' :=
  Skew.not_serial 30 less_strictWeak besideFlag_valid (by decide)
    ⟨by simp [redLeaves, Tree.cells, Equivalent, less], rfl, rfl⟩

end Rbtree

end LockfreeStm
