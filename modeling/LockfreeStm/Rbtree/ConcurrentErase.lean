/-
  File:      LockfreeStm/Rbtree/ConcurrentErase.lean
  Subject:   `erase_one` AGAINST ANY OPERATION THAT COMMITS FIRST.

  The search for the victim is not validated, but what becomes of it is: an operation that takes the
  victim out sets the link to it, and one that gives it another key sets its key. `erase_one` sets
  the one or the other, too. So if it validates, its victim is still there with its key, and what
  `erase_impl` does there is what it would do afresh.

  An operation that lifts another node above the victim sets a link of the victim, which `erase_one` has
  read. So behind an `emplace`, or an `erase_one` that copies no key, the search would end at the same
  victim. Behind an `erase_one` that copies a key it may find another one, with a key that `Compare` does
  not tell from the first one's.

  * `Operation.after` -- what the other operation leaves;
  * `eraseOne_victim` -- the victim is still there;
  * `Operation.Ends.keeps_search` -- the search still ends there, if no key is copied;
  * **`eraseOne_validation`** -- the tree both leave, next to the serial one;
  * `eraseOne_otherVictim` -- the keys are the same up to equivalence only.
-/
import LockfreeStm.Rbtree.Concurrent
import LockfreeStm.Rbtree.Teardown

namespace LockfreeStm

namespace Rbtree

open Optimistic (Returns)

variable {Ptr Key Value : Type} [DecidableEq Ptr] {compare : Key → Key → Bool}
  {m : Memory Ptr Key Value} {t t₂ t' : Tree Ptr Key Value} {key : Key}
  {s₁ s₂ : Attempt Ptr Key Value}

/-! ## 1. Operations -/

/-- A call on the tree that may write; `n` is the node the allocator hands out. -/
inductive Operation (Ptr Key Value : Type) where
  | emplace (n : Ptr) (key : Key) (value : Value)
  | eraseOne (key : Key)

/-- The call, made on the tree `t` in the memory `m`, ends in the attempt `s`. -/
def Operation.Ends (compare : Key → Key → Bool) (m : Memory Ptr Key Value)
    (t : Tree Ptr Key Value) (s : Attempt Ptr Key Value) : Operation Ptr Key Value → Prop
  | .emplace n key value => 
    n ∉ t.ptrs ∧ Returns (fun fuel => Rbtree.emplace compare fuel n key value) m () s
  | .eraseOne key => ∃ found, Returns (fun fuel => Rbtree.eraseOne compare fuel key) m found s

/-- What has become of a node's cell: it is still there, or the node was handed over and the links
    to it were set, or its key was set. -/
inductive Fate (m : Memory Ptr Key Value) (t t' : Tree Ptr Key Value) (s : Attempt Ptr Key Value)
    (x : Ptr × Key × Value) : Prop where
  | stays (h : x ∈ t'.cells)
  | unlinked (one : ¬ TwoChildren m x.1)
    (link : ∀ l, m (.link l) = some x.1 → Inside (fun q => q ∈ t.ptrs) (Var.link l).owner →
      .link l ∈ s.writes)
  | assigned (two : TwoChildren m x.1) (key : .key x.1 ∈ s.writes)

/-- What one operation leaves. -/
structure After (compare : Key → Key → Bool) (m : Memory Ptr Key Value) (t t' : Tree Ptr Key Value)
    (s : Attempt Ptr Key Value) : Prop where
  valid : Valid compare (s.commit m) t'
  fate : ∀ x ∈ t.cells, Fate m t t' s x
  retired : ∀ p ∈ s.retired, p ∉ t'.ptrs
  frame : ∀ v, v ∉ s.writes → (∀ p, v.owner = some p → p ∈ t.ptrs) → s.commit m v = m v

omit [DecidableEq Ptr] in
/-- What `erase_impl` does to the cells. -/
theorem Unlinks.fate {e p : Ptr} (h : Unlinks m t t' e p s₁.writes)
    (hlink : ∀ l, m (.link l) = some p → Inside (fun q => q ∈ t.ptrs) (Var.link l).owner →
      .link l ∈ s₁.writes) {x : Ptr × Key × Value} (hx : x ∈ t.cells) : Fate m t t' s₁ x := by
  cases h with
  | @self A B k v node one cells cells' =>
    rw [cells, List.mem_append, List.mem_cons] at hx
    rcases hx with hx | rfl | hx
    · exact .stays (cells' ▸ List.mem_append_left _ hx)
    · exact .unlinked (node ▸ one) hlink
    · exact .stays (cells' ▸ List.mem_append_right _ hx)
  | @next A B k k' v v' two one cells cells' hkey =>
    rw [cells, List.mem_append, List.mem_cons, List.mem_cons] at hx
    rcases hx with hx | rfl | rfl | hx
    · exact .stays (cells' ▸ List.mem_append_left _ hx)
    · exact .assigned two hkey
    · exact .unlinked one hlink
    · exact .stays (cells' ▸ List.mem_append_right _ (List.mem_cons_of_mem _ hx))

/-- **Any operation, on a valid tree.** -/
theorem Operation.after (ho : StrictWeak compare) (h : Valid compare m t)
    {op : Operation Ptr Key Value} (hop : op.Ends compare m t s₂) :
    ∃ t', After compare m t t' s₂ := by
  cases op with
  | emplace n key value =>
    obtain ⟨hn, hret⟩ := hop
    obtain ⟨s, t', D, hret', hv, hretired, rfl, hg, hc⟩ := emplace_spec ho h hn key value
    obtain ⟨-, rfl⟩ := hret.unique hret'
    obtain ⟨-, hpriv⟩ := emplace_footprint h.represents hn hg hret
    refine ⟨t', hret.commit_self ▸ hv, fun x hx => .stays ?_, fun p hp => ?_, fun v hw hown =>
      Optimistic.Attempt.commit_of_notMem hw fun hp => hn (hown n (hpriv v hp))⟩
    · rw [cells_plug_nil, List.mem_append] at hx
      rw [hc, List.mem_append, List.mem_cons]
      exact hx.imp_right .inr
    · rw [hretired] at hp
      cases hp
  | eraseOne key =>
    obtain ⟨found, hret⟩ := hop
    rcases eraseOne_spec ho h key with ⟨us, -, hret'⟩ | ⟨us, x, hx, -, -, s', t', p, hrun, hret',
      hv, hretired, hunl, hlink⟩
    · obtain ⟨-, rfl⟩ := hret.unique hret'
      refine ⟨t, hret.commit_self ▸ h, fun x hx => .stays hx, fun p hp => (by cases hp),
        fun v hw _ => Optimistic.Attempt.commit_of_notMem hw List.not_mem_nil⟩
    · obtain ⟨-, rfl⟩ := hret.unique hret'
      obtain ⟨-, hpriv⟩ := eraseImpl_footprint h.represents (List.mem_map_of_mem hx)
        (hrun (t.cells.length + 1) (Nat.lt_succ_self _))
      refine ⟨t', hret.commit_self ▸ hv, fun x hx => hunl.fate hlink hx, fun q hq => ?_,
        fun v hw _ => Optimistic.Attempt.commit_of_notMem hw (hpriv v)⟩
      rw [hretired, List.mem_singleton] at hq
      have hep := hunl.erasedPair h.represents.nodup hx rfl
      exact hq ▸ (List.nodup_cons.mp (hep.ptrs.nodup_iff.mp h.represents.nodup)).1

/-! ## 2. The victim -/

omit [DecidableEq Ptr] in
/-- The victim of an `erase_one` that validates is still there, with its key. -/
theorem eraseOne_victim {e p : Ptr} {x : Ptr × Key × Value} (h : Represents m t)
    (hx : x ∈ t.cells) (he : x.1 = e) (hunl : Unlinks m t t' e p s₁.writes)
    (hlink : ∀ l, m (.link l) = some p → Inside (fun q => q ∈ t.ptrs) (Var.link l).owner →
      .link l ∈ s₁.writes) (hf : Fate m t t₂ s₂ x) (hv : s₁.Validates s₂.writes) :
    x ∈ t₂.cells := by
  cases hf with
  | stays hx => exact hx
  | unlinked one link =>
    -- both set the link to it
    have hep : e = p := by
      cases hunl with
      | self node => exact node
      | next two => exact absurd two (he ▸ one)
    obtain ⟨C, n, l, r, rfl, hn⟩ := exists_hole_of_mem (List.mem_map_of_mem (f := fun c => c.1) hx)
    have hm : m (.link (slot C)) = some x.1 := hn ▸ h.at_hole.1
    have hin : Inside (fun q => q ∈ (plug C (.node n l r)).ptrs) (Var.link (slot C)).owner := by
      rw [slot_owner_eq_top]
      exact top_inside
    exact absurd (hlink _ (hm.trans (congrArg some (he.trans hep))) hin)
      (hv _ (link _ hm hin)).2
  | assigned two hkey =>
    cases hunl with
    | self _ one => exact absurd two (he ▸ one)
    | next _ _ _ _ hkey' => exact absurd (he ▸ hkey') (hv _ hkey).2

/-! ## 3. The search for it -/

/-- The attempt has set the key of a node: that of a node with two children, which it erases. -/
def CopiesKey (s : Attempt Ptr Key Value) : Prop := ∃ p, .key p ∈ s.writes

theorem Equivalent.trans (ho : StrictWeak compare) {a b c : Key} (h : Equivalent compare a b)
    (h' : Equivalent compare b c) : Equivalent compare a c :=
  ⟨ho.le_trans h'.1 h.1, ho.le_trans h.2 h'.2⟩

theorem Equivalent.symm {a b : Key} (h : Equivalent compare a b) : Equivalent compare b a :=
  ⟨h.2, h.1⟩

omit [DecidableEq Ptr] in
/-- The search ends above every node with an equivalent key. -/
theorem lookup_below (ho : StrictWeak compare) (hs : t.Sorted compare) {p : Ptr}
    (h : t.lookup compare key = some p) {y : Ptr × Key × Value} (hy : y ∈ t.cells)
    (heq : Equivalent compare key y.2.1) : t.Below p y.1 := by
  induction t with
  | nil => cases hy
  | node q l r ihl ihr =>
    simp only [Tree.Sorted, Tree.cells, List.pairwise_append, List.pairwise_cons, List.mem_cons] at hs
    obtain ⟨hsl, ⟨hqr, hsr⟩, hlq⟩ := hs
    rw [Tree.lookup] at h
    have hmem := List.mem_map_of_mem (f := fun c => c.1) hy
    rw [Tree.cells, List.mem_append, List.mem_cons] at hy
    split at h
    · next hlt =>
      -- everything else is greater than the key
      rcases hy with hy | rfl | hy
      · exact .inr (.inl (ihl hsl h hy))
      · exact absurd (hlt.symm.trans heq.1) (by decide)
      · exact absurd ((ho.lt_of_lt_of_le hlt (hqr y hy)).symm.trans heq.1) (by decide)
    · split at h
      · next hgt =>
        rcases hy with hy | rfl | hy
        · exact absurd ((ho.lt_of_le_of_lt (hlq y hy _ (.inl rfl)) hgt).symm.trans heq.2) (by decide)
        · exact absurd (hgt.symm.trans heq.2) (by decide)
        · exact .inr (.inr (ihr hsr h hy))
      · obtain rfl := Option.some.inj h
        exact .inl ⟨rfl, hmem⟩

/-- A new leaf does not rise above the node where the search ends. -/
theorem below_newTree (ho : StrictWeak compare) {C : Context Ptr Key Value} {n : Ptr} {key' : Key} {value : Value}
    (hs : (plug C (.nil : Tree Ptr Key Value)).Sorted compare) (hn : n ∉ (plug C (.nil : Tree Ptr Key Value)).ptrs)
    (hs' : (plug C (newTree n key' value)).Sorted compare) (hnd : (plug C (newTree n key' value)).ptrs.Nodup)
    {x y : Ptr × Key × Value} (hx : x ∈ (plug C (.nil : Tree Ptr Key Value)).cells)
    (hfound : (plug C .nil).lookup compare key = some x.1) (heq : Equivalent compare key x.2.1)
    (hy : y ∈ (plug C (newTree n key' value)).cells) (hyeq : Equivalent compare key y.2.1) :
    (plug C (newTree n key' value)).Below x.1 y.1 := by
  have hgrow : ∀ {p q}, (plug C (.nil : Tree Ptr Key Value)).Below p q →
      (plug C (newTree n key' value)).Below p q :=
    fun hb => hb.plug fun _ _ hb => hb.elim
  have hx' : x ∈ (plug C (newTree n key' value)).cells := by
    rw [cells_plug_nil] at hx
    rw [cells_plug_newTree]
    exact ((List.sublist_cons_self ..).append_left _).subset hx
  have : Inhabited Key := ⟨key'⟩
  have : Inhabited Value := ⟨value⟩
  obtain ⟨-, hlook, -⟩ := (findFrom_spec ho (memoryOf_represents hnd).holds hs' :
    ∃ us, Found compare key _ (Tree.lookup compare key _) ∧ _)
  generalize hz : (plug C (newTree n key' value)).lookup compare key = o at hlook
  cases hlook with
  | absent habs => exact absurd heq (habs x hx')
  | @present z hzm hzeq =>
    have hzx := lookup_below ho hs' hz hx' heq
    rw [cells_plug_newTree, List.mem_append, List.mem_cons] at hzm
    have hzt : z = (n, key', value) ∨ z ∈ (plug C (.nil : Tree Ptr Key Value)).cells := by
      rw [cells_plug_nil, List.mem_append]
      exact or_left_comm.mp hzm
    rcases hzt with rfl | hzt
    · -- nothing is below the leaf
      have hleaf := hzx.of_plug hnd (Tree.mem_ptrs_of_root (Tree.root_join ..))
      have hxn : x.1 = n := by simpa [newTree] using hleaf
      exact absurd (hxn ▸ List.mem_map_of_mem (f := fun c => c.1) hx) hn
    · have hxz := hgrow (lookup_below ho hs hfound hzt hzeq)
      rw [hxz.antisymm hnd hzx]
      exact lookup_below ho hs' hz hy hyeq

/-- It ends at the node above all the others. -/
theorem lookup_of_below (ho : StrictWeak compare) (h : Valid compare m t) {x : Ptr × Key × Value}
    (hx : x ∈ t.cells) (heq : Equivalent compare key x.2.1)
    (hb : ∀ y ∈ t.cells, Equivalent compare key y.2.1 → t.Below x.1 y.1) :
    t.lookup compare key = some x.1 := by
  obtain ⟨-, hfound, -⟩ := run_find ho h key
  generalize hlook : t.lookup compare key = o at hfound
  cases hfound with
  | absent habs => exact absurd heq (habs x hx)
  | @present z hz hzeq =>
    exact congrArg some ((lookup_below ho h.sorted hlook hx heq).antisymm h.represents.nodup (hb z hz hzeq))

/-- What `emplace` keeps, of the tree in which the new node has been linked in. -/
theorem emplace_keeps {C : Context Ptr Key Value} {n : Ptr} {value : Value}
    (h : Valid compare m (plug C .nil)) (hn : n ∉ (plug C (.nil : Tree Ptr Key Value)).ptrs)
    (hg : Gap compare key C) (hs : Returns (fun fuel => emplace compare fuel n key value) m () s₁)
    (h' : Represents s₁.view t') : Keeps s₁.writes (plug C (newTree n key value)) t' := by
  obtain ⟨us, hrun⟩ := run_emplace h.represents hn hg value
  obtain ⟨s', t₁, hs', hrep⟩ := pushAt_repairs
    (s := (constructed (.start m) n key value).readAllUntracked us)
    (constructed_represents h.represents hn) h.balanced hn constructed_isNew
  have hret : Returns (fun fuel => emplace compare fuel n key value) m () s' :=
    ⟨C.length + 1, fun fuel hf => by rw [hrun fuel hf, hs' fuel hf]⟩
  obtain ⟨-, rfl⟩ := hs.unique hret
  obtain rfl := hrep.represents.unique h'
  exact hrep.keeps

/-- What `erase_impl` keeps that copies no key. -/
theorem eraseImpl_keeps {e : Ptr} {s : Attempt Ptr Key Value} (h : Represents s.view t) (hb : Balanced t)
    (he : e ∈ t.ptrs) (hrun : ∀ fuel, t.cells.length < fuel → (eraseImpl fuel e).run s = .ok ((), s₁))
    (h' : Represents s₁.view t') (hcopy : .key e ∉ s₁.writes) : Keeps s₁.writes t t' := by
  obtain ⟨s', C, d, n, c, hrep, hbal, -, hcomes, hto⟩ := run_eraseImpl h hb he
  obtain ⟨s'', t'', hs'', herased, -, hkeep⟩ := deleteOneChild_spec hrep hbal
  have hf := Nat.lt_succ_self t.cells.length
  have hrun' := hs'' _ (hto _ hf).1
  obtain rfl : s₁ = s'' := congrArg Prod.snd
    (Except.ok.inj ((hrun _ hf).symm.trans ((hto _ hf).2.trans hrun')))
  obtain rfl := herased.represents.unique h'
  cases hcomes with
  | self node one tree => exact tree ▸ hkeep
  | next two cells cells₁ view writes =>
    refine absurd ((Optimistic.Program.run_grows hrun').writes ?_) hcopy
    rw [writes]
    exact List.mem_cons_of_mem _ List.mem_cons_self

/-- `erase_impl` reads both links of its node. -/
theorem eraseImpl_reads {fuel : Nat} {e : Ptr} {s : Attempt Ptr Key Value}
    (h : (eraseImpl fuel e).run s = .ok ((), s₁)) (d : Side) : .child d e ∈ s₁.reads := by
  obtain ⟨two, s', htwo, hrest⟩ := Optimistic.Program.run_bind_eq_ok h
  have hgrow := Optimistic.Program.run_grows hrest
  -- the condition reads the left link, and the right one if it holds
  have hleft : .child .left e ∈ s'.reads := by
    rw [hasTwoChildren, run_getLink_bind] at htwo
    exact (Optimistic.Program.run_grows htwo).reads List.mem_cons_self
  cases d with
  | left => exact hgrow.reads hleft
  | right =>
    cases two with
    | true =>
      rw [hasTwoChildren, run_getLink_bind] at htwo
      split at htwo
      · cases htwo
      · rw [run_getLink_bind] at htwo
        exact hgrow.reads ((Optimistic.Program.run_grows htwo).reads List.mem_cons_self)
    | false =>
      rw [if_neg Bool.false_ne_true, deleteOneChild, run_getLink_bind] at hrest
      exact (Optimistic.Program.run_grows hrest).reads List.mem_cons_self

/-- **The search of a node whose links are not set** ends there behind an operation that copies no key as well:
    no other node has risen above it. -/
theorem Operation.Ends.keeps_search {op : Operation Ptr Key Value} (hop : op.Ends compare m t s₂)
    (ho : StrictWeak compare) (h : Valid compare m t)
    (hcopy : (∃ n k v, op = .emplace n k v) ∨ ¬ CopiesKey s₂) (h₂ : Valid compare (s₂.commit m) t₂)
    {x : Ptr × Key × Value} (hx : x ∈ t.cells) (hx₂ : x ∈ t₂.cells)
    (hlinks : ∀ d, .child d x.1 ∉ s₂.writes) (heq : Equivalent compare key x.2.1)
    (hfound : t.lookup compare key = some x.1) : t₂.lookup compare key = some x.1 := by
  refine lookup_of_below ho h₂ hx₂ heq fun y hy hyeq => ?_
  have hxp := List.mem_map_of_mem (f := fun c => c.1) hx₂
  have hyp := List.mem_map_of_mem (f := fun c => c.1) hy
  cases op with
  | emplace n key' value =>
    obtain ⟨hn, hret⟩ := hop
    obtain ⟨s, t', D, hret', hv, -, rfl, hg, hc⟩ := emplace_spec ho h hn key' value
    obtain ⟨-, rfl⟩ := hret.unique hret'
    rw [hret.commit_self] at h₂
    obtain rfl := hv.represents.unique h₂.represents
    have hkeep := emplace_keeps h hn hg hret h₂.represents
    have hcells : (plug D (newTree n key' value)).cells = t₂.cells := (cells_plug_newTree D).trans hc.symm
    have hptrs : (plug D (newTree n key' value)).ptrs = t₂.ptrs := by rw [Tree.ptrs, Tree.ptrs, hcells]
    have hsort : (plug D (newTree n key' value)).Sorted compare := by
      rw [Tree.Sorted, hcells]
      exact h₂.sorted
    refine hkeep x.1 y.1 hlinks hxp hyp ?_
    refine below_newTree ho h.sorted hn hsort ?_ hx hfound heq (hcells ▸ hy) hyeq
    rw [hptrs]
    exact h₂.represents.nodup
  | eraseOne key' =>
    have hcopy : ¬ CopiesKey s₂ := hcopy.resolve_left (by rintro ⟨_, _, _, e⟩; cases e)
    obtain ⟨found, hret⟩ := hop
    rcases eraseOne_spec ho h key' with ⟨us, -, hret'⟩ | ⟨us, e, he, -, -, s', t', p, hrun, hret', hv, -, hunl, -⟩
    · obtain ⟨-, rfl⟩ := hret.unique hret'
      rw [hret.commit_self] at h₂
      obtain rfl := h.represents.unique h₂.represents
      exact lookup_below ho h.sorted hfound hy hyeq
    · obtain ⟨-, rfl⟩ := hret.unique hret'
      rw [hret.commit_self] at h₂
      obtain rfl := hv.represents.unique h₂.represents
      have hkeep : Keeps s₂.writes t t₂ := eraseImpl_keeps (s := (Optimistic.Attempt.start m).readAllUntracked us)
        h.represents h.balanced (List.mem_map_of_mem he) hrun h₂.represents fun hw => hcopy ⟨_, hw⟩
      refine hkeep x.1 y.1 hlinks hxp hyp (lookup_below ho h.sorted hfound ?_ hyeq)
      cases hunl with
      | @self A B k v node one cells cells' =>
        rw [cells'] at hy
        rw [cells]
        exact ((List.sublist_cons_self ..).append_left A).subset hy
      | next two one cells cells' hkey => exact absurd ⟨_, hkey⟩ hcopy

/-! ## 4. Validation is sufficient -/

/-- The keys in order. -/
def Tree.keys (t : Tree Ptr Key Value) : List Key := t.pairs.map fun e => e.1

/-- For every key, as many of the one tree as of the other are equivalent to it. -/
def SameKeys (compare : Key → Key → Bool) (t t' : Tree Ptr Key Value) : Prop :=
  ∀ a, t.keys.countP (fun b => !compare a b && !compare b a) =
    t'.keys.countP fun b => !compare a b && !compare b a

theorem equivalent_iff {a b : Key} :
    (!compare a b && !compare b a) = true ↔ Equivalent compare a b := by
  simp [Equivalent]

omit [DecidableEq Ptr] in
/-- The keys of a tree less one pair. -/
theorem ErasedPair.keys_perm {e : Key × Value} {p : Ptr} (h : ErasedPair t t' e p) :
    t.keys.Perm (e.1 :: t'.keys) := by
  obtain ⟨front, back, ht, ht'⟩ := h.pairs
  rw [Tree.keys, Tree.keys, ht, ht', List.map_append, List.map_append, List.map_cons]
  exact List.perm_middle

omit [DecidableEq Ptr] in
/-- Two trees that are one tree less a pair each, with equivalent keys. -/
theorem ErasedPair.sameKeys (ho : StrictWeak compare) {t'' : Tree Ptr Key Value} {e e' : Key × Value}
    {p p' : Ptr} (h : ErasedPair t t' e p) (h' : ErasedPair t t'' e' p')
    (he : Equivalent compare key e.1) (he' : Equivalent compare key e'.1) :
    SameKeys compare t' t'' := by
  intro a
  have hc := (h.keys_perm.symm.trans h'.keys_perm).countP_eq fun b => !compare a b && !compare b a
  have hiff : (!compare a e.1 && !compare e.1 a) = (!compare a e'.1 && !compare e'.1 a) := by
    refine Bool.eq_iff_iff.mpr ?_
    rw [equivalent_iff, equivalent_iff]
    exact ⟨fun ha => (ha.trans ho he.symm).trans ho he', fun ha => (ha.trans ho he'.symm).trans ho he⟩
  rw [List.countP_cons, List.countP_cons, hiff] at hc
  omega

omit [DecidableEq Ptr] in
theorem ErasedPair.keys_eq {t'' : Tree Ptr Key Value} {e e' : Key × Value} {p p' : Ptr}
    (h : ErasedPair t t' e p) (h' : ErasedPair t t'' e' p') (he : e.1 = e'.1) :
    t'.keys.Perm t''.keys := by
  have hp := h.keys_perm.symm.trans h'.keys_perm
  rw [he] at hp
  exact hp.cons_inv

/-- **What `erase_one` commits behind another operation**: it has read the links of its victim `x`, which is still
    there, and takes it out of the newer tree `t₂`. -/
theorem eraseOne_behind (ho : StrictWeak compare) (h : Valid compare m t) (haft : After compare m t t₂ s₂)
    (h₁ : Returns (fun fuel => eraseOne compare fuel key) m true s₁) (hv : s₁.Validates s₂.writes) :
    ∃ x t' p, x ∈ t.cells ∧ Equivalent compare key x.2.1 ∧ t.lookup compare key = some x.1 ∧
      (∀ d, .child d x.1 ∈ s₁.reads) ∧ x ∈ t₂.cells ∧ Valid compare (s₁.commit (s₂.commit m)) t' ∧
      ErasedPair t₂ t' x.2 p ∧ s₁.retired = [p] := by
  rcases eraseOne_spec ho h key with ⟨us, -, hret⟩ | ⟨us, x, hx, heq, hfound, s', t₁, p, hrun, hret,
    -, hretired, hunl, hlink⟩
  · cases (h₁.unique hret).1
  obtain ⟨-, rfl⟩ := h₁.unique hret
  have hrep := h.represents
  have hx₂ := eraseOne_victim hrep hx rfl hunl hlink (haft.fate x hx) hv
  -- the other operation has not touched what this one has read
  have hrun₁ := hrun _ (Nat.lt_succ_self t.cells.length)
  obtain ⟨hfoot, -⟩ := eraseImpl_footprint hrep (List.mem_map_of_mem hx) hrun₁
  have hread : ∀ v ∈ s₁.reads, s₂.commit m v = m v := fun v hvr =>
    haft.frame v (fun hw => (hv v hw).1 hvr) (hfoot v hvr)
  have hval₂ := haft.valid
  have hmoved := eraseImpl_moved hrep (List.mem_map_of_mem hx)
    (hrun _ (Nat.lt_of_lt_of_le (Nat.lt_succ_self _) (Nat.le_max_left _ (t₂.cells.length + 1))))
    hread []
  -- so it has erased the same node of the newer tree
  obtain ⟨s', t', p', hrun', hrep', hbal', hret', hunl', -⟩ := eraseImpl_spec
    (s := (Optimistic.Attempt.start (s₂.commit m)).readAllUntracked []) hval₂.represents
    hval₂.balanced (List.mem_map_of_mem hx₂)
  have e := hmoved.symm.trans
    (hrun' _ (Nat.lt_of_lt_of_le (Nat.lt_succ_self _) (Nat.le_max_right (t.cells.length + 1) _)))
  obtain rfl : s₁.moved (s₂.commit m) [] = s' := congrArg Prod.snd (Except.ok.inj e)
  have hep := hunl'.erasedPair hval₂.represents.nodup hx₂ rfl
  exact ⟨x, t', p', hx, heq, hfound, eraseImpl_reads hrun₁, hx₂,
    ⟨hrep', hep.sorted hval₂.sorted, hbal'⟩, hep, hret'⟩

/-- **`erase_one`'s validation is sufficient.** Both operations ran on the same valid tree, the other
    one has committed first, and `erase_one` validates. Then its commit leaves a valid tree, and an
    `erase_one` after the other operation would return true as well. It would leave exactly the same keys if
    the other one is an `emplace`, or an `erase_one` that copies no key; and in any case the same ones up to
    equivalence, the very same ones where equivalent keys are equal. No node was handed over by both
    operations, and none that was is still in the tree. -/
theorem eraseOne_validation (ho : StrictWeak compare) (h : Valid compare m t)
    {op : Operation Ptr Key Value} (h₂ : op.Ends compare m t s₂)
    (h₁ : Returns (fun fuel => eraseOne compare fuel key) m true s₁)
    (hv : s₁.Validates s₂.writes) :
    ∃ t' t'' s, Valid compare (s₁.commit (s₂.commit m)) t' ∧
      Returns (fun fuel => eraseOne compare fuel key) (s₂.commit m) true s ∧
      Valid compare s.view t'' ∧
      ((∃ n k v, op = .emplace n k v) ∨ ¬ CopiesKey s₂ → t'.keys.Perm t''.keys) ∧ SameKeys compare t' t'' ∧
      ((∀ a b, Equivalent compare a b → a = b) → t'.keys.Perm t''.keys) ∧
      (∀ p ∈ s₁.retired, p ∉ s₂.retired) ∧ ∀ p, p ∈ s₁.retired ∨ p ∈ s₂.retired → p ∉ t'.ptrs := by
  obtain ⟨t₂, haft⟩ := op.after ho h h₂
  obtain ⟨x, t', p, hx, heq, hfound, hlinks, hx₂, hval', hep, hretired⟩ := eraseOne_behind ho h haft h₁ hv
  have hval₂ := haft.valid
  -- one after the other
  rcases eraseOne_spec ho hval₂ key with ⟨us', habs, -⟩ | ⟨us', y, hy, heqy, hfound₂, s'', t'', q, -,
    hret'', hval'', -, hunl'', -⟩
  · exact absurd heq (habs x hx₂)
  have hepy := hunl''.erasedPair hval₂.represents.nodup hy rfl
  have hmem : ∀ q, q ∈ t₂.ptrs ↔ q = p ∨ q ∈ t'.ptrs := fun q => by
    rw [hep.ptrs.mem_iff, List.mem_cons]
  refine ⟨t', t'', s'', hval', hret'', hval'', fun hcopy => ?_, hep.sameKeys ho hepy heq heqy, fun huniq =>
    hep.keys_eq hepy (huniq _ _ (heq.symm.trans ho heqy)), fun q hq hq₂ => ?_, fun q hq => ?_⟩
  · have hsame := h₂.keeps_search ho h hcopy hval₂ hx hx₂ (fun d hw => (hv _ hw).1 (hlinks d)) heq hfound
    have hxy : x.1 = y.1 := Option.some.inj (hsame.symm.trans hfound₂)
    obtain rfl := t₂.cell_unique hval₂.represents.nodup hx₂ hy hxy
    exact hep.keys_eq hepy rfl
  · rw [hretired, List.mem_singleton] at hq
    exact haft.retired q hq₂ ((hmem q).mpr (.inl hq))
  · rcases hq with hq | hq
    · rw [hretired, List.mem_singleton] at hq
      exact hq ▸ (List.nodup_cons.mp (hep.ptrs.nodup_iff.mp hval₂.represents.nodup)).1
    · exact fun hq' => haft.retired q hq ((hmem q).mpr (.inr hq'))

/-- A black root with two red children; node and key are the same number. -/
def redLeaves : Tree Nat Nat Nat :=
  .node ⟨4, .black, 4, 40⟩ (.node ⟨2, .red, 2, 20⟩ .nil .nil) (.node ⟨6, .red, 6, 60⟩ .nil .nil)

theorem redLeaves_valid : Valid less (memoryOf redLeaves) redLeaves where
  represents := memoryOf_represents (by decide)
  sorted := by simp [redLeaves, Tree.Sorted, Tree.cells, less]
  balanced := ⟨rfl, by simp [redLeaves, Tree.NoRedRed], 1, by simp [redLeaves, Tree.BlackHeight]⟩

/-- The two leaves. -/
theorem eraseOne_validation_leaves :
    ∃ t' t'' s, Valid less (((eraseOne less 9 2).outcome (memoryOf redLeaves)).commit
        (((eraseOne less 9 6).outcome (memoryOf redLeaves)).commit (memoryOf redLeaves))) t' ∧
      Returns (fun fuel => eraseOne less fuel 2)
        (((eraseOne less 9 6).outcome (memoryOf redLeaves)).commit (memoryOf redLeaves)) true s ∧
      Valid less s.view t'' ∧ t'.keys.Perm t''.keys := by
  have h₁ : Returns (fun fuel => eraseOne less fuel 2) (memoryOf redLeaves) true
      ((eraseOne less 9 2).outcome (memoryOf redLeaves)) := ⟨9, fun fuel hf => by
    obtain ⟨f, rfl⟩ := Nat.exists_eq_add_of_le' hf
    rfl⟩
  have h₂ : Returns (fun fuel => eraseOne less fuel 6) (memoryOf redLeaves) true
      ((eraseOne less 9 6).outcome (memoryOf redLeaves)) := ⟨9, fun fuel hf => by
    obtain ⟨f, rfl⟩ := Nat.exists_eq_add_of_le' hf
    rfl⟩
  have hends : (Operation.eraseOne 6).Ends less (memoryOf redLeaves) redLeaves _ := ⟨true, h₂⟩
  obtain ⟨t', t'', s, hv, hret, hv', -, -, hperm, -⟩ := eraseOne_validation less_strictWeak
    redLeaves_valid hends h₁ (by decide)
  refine ⟨t', t'', s, hv, hret, hv', hperm fun a b he => ?_⟩
  simp only [Equivalent, less, decide_eq_false_iff_not] at he
  omega

/-! ## 5. Another victim -/

/-- Pairs, compared by their first components. -/
def lessFirst (a b : Nat × Nat) : Bool := less a.1 b.1

theorem lessFirst_strictWeak : StrictWeak lessFirst := strictWeak_rank (fun a => a.1)
  fun _ _ => decide_eq_true_iff

/-- Three keys are equivalent: those of a red node, of its left child, and of that one's. -/
def equivalentKeys : Tree Nat (Nat × Nat) Nat :=
  .node ⟨1, .black, (1, 0), 0⟩ (.node ⟨0, .black, (0, 0), 0⟩ .nil .nil)
    (.node ⟨22, .red, (2, 2), 0⟩
      (.node ⟨21, .black, (2, 1), 0⟩ (.node ⟨20, .red, (2, 0), 0⟩ .nil .nil) .nil)
      (.node ⟨31, .black, (3, 1), 0⟩ (.node ⟨30, .red, (3, 0), 0⟩ .nil .nil) .nil))

/-- `erase_one` of the root's key brings the least of them up to the root. -/
def afterErase : Memory Nat (Nat × Nat) Nat :=
  ((eraseOne lessFirst 9 (1, 0)).outcome (memoryOf equivalentKeys)).commit (memoryOf equivalentKeys)

/-- What an `erase_one` of these keys leaves that ran before, and one that runs now. -/
def committedTree : Tree Nat (Nat × Nat) Nat :=
  .node ⟨1, .black, (2, 0), 0⟩ (.node ⟨0, .black, (0, 0), 0⟩ .nil .nil)
    (.node ⟨22, .red, (3, 0), 0⟩ (.node ⟨21, .black, (2, 1), 0⟩ .nil .nil)
      (.node ⟨31, .black, (3, 1), 0⟩ .nil .nil))
def serialTree : Tree Nat (Nat × Nat) Nat :=
  .node ⟨1, .black, (2, 1), 0⟩ (.node ⟨0, .black, (0, 0), 0⟩ .nil .nil)
    (.node ⟨30, .red, (3, 0), 0⟩ (.node ⟨22, .black, (2, 2), 0⟩ .nil .nil)
      (.node ⟨31, .black, (3, 1), 0⟩ .nil .nil))

theorem equivalentKeys_valid : Valid lessFirst (memoryOf equivalentKeys) equivalentKeys where
  represents := memoryOf_represents (by decide)
  sorted := by simp [equivalentKeys, Tree.Sorted, Tree.cells, lessFirst, less]
  balanced := ⟨rfl, by simp [equivalentKeys, Tree.NoRedRed, Tree.color], 2,
    by simp [equivalentKeys, Tree.BlackHeight]⟩

/-- **The other order leaves other keys.** Both erasures ran on the same tree and commit; the one
    that commits last has taken out the key (2, 2), after the first one it would take out (2, 0). -/
theorem eraseOne_otherVictim :
    Valid lessFirst (memoryOf equivalentKeys) equivalentKeys ∧ ∃ s₁ s₂ s,
      Returns (fun fuel => eraseOne lessFirst fuel (2, 0)) (memoryOf equivalentKeys) true s₁ ∧
      Returns (fun fuel => eraseOne lessFirst fuel (1, 0)) (memoryOf equivalentKeys) true s₂ ∧
      s₁.Validates s₂.writes ∧
      Returns (fun fuel => eraseOne lessFirst fuel (2, 0)) (s₂.commit (memoryOf equivalentKeys)) true s ∧
      ∀ t' t'', Represents (s₁.commit (s₂.commit (memoryOf equivalentKeys))) t' →
        Represents s.view t'' → ¬ t'.keys.Perm t''.keys := by
  refine ⟨equivalentKeys_valid, (eraseOne lessFirst 9 (2, 0)).outcome (memoryOf equivalentKeys),
    (eraseOne lessFirst 9 (1, 0)).outcome (memoryOf equivalentKeys),
    (eraseOne lessFirst 9 (2, 0)).outcome afterErase, ⟨9, fun fuel hf => ?_⟩,
    ⟨9, fun fuel hf => ?_⟩, by decide, ⟨9, fun fuel hf => ?_⟩, fun t' t'' h' h'' => ?_⟩
  · obtain ⟨f, rfl⟩ := Nat.exists_eq_add_of_le' hf
    rfl
  · obtain ⟨f, rfl⟩ := Nat.exists_eq_add_of_le' hf
    rfl
  · obtain ⟨f, rfl⟩ := Nat.exists_eq_add_of_le' hf
    rfl
  · have hc : Represents (((eraseOne lessFirst 9 (2, 0)).outcome (memoryOf equivalentKeys)).commit
        afterErase) committedTree :=
      ⟨rfl, by repeat' constructor, by decide⟩
    have hs : Represents ((eraseOne lessFirst 9 (2, 0)).outcome afterErase).view serialTree :=
      ⟨rfl, by repeat' constructor, by decide⟩
    rw [hc.unique h', hs.unique h'']
    decide

end Rbtree

end LockfreeStm
