/-
  File:      LockfreeStm/Library/Ledger.lean
  Subject:   Resources in places: every one in exactly one place, and there once.

  The places `P` and the resources `R` are arbitrary; a ledger `L` lists the resources at each place.
  `Conserved L alive` says that no place lists one twice, that no two places share one, and that the
  resources listed somewhere are the `alive` ones. Lists count up to permutation.

  * `congr` -- a ledger that lists the same;
  * `fresh`, `freshes`, `move`, `moves` -- a new resource, or several; one, or several, that go from
    one place to another.
  * `swaps` -- **the main rule**: one place gives a resource to each of several places of one resource
    and takes what they had.
-/
import Mathlib.Data.List.Perm.Lattice
import Mathlib.Logic.Function.Basic

namespace Ledger

variable {P R : Type}

/-- Every resource that is alive is in exactly one place, and there once. -/
structure Conserved (L : P → List R) (alive : R → Prop) : Prop where
  nodup : ∀ a, (L a).Nodup
  unique : ∀ a b x, x ∈ L a → x ∈ L b → a = b
  complete : ∀ x, alive x ↔ ∃ a, x ∈ L a

namespace Conserved

variable {L L' : P → List R} {alive alive' : R → Prop} {a b : P} {x : R}

/-- A ledger that lists the same. -/
theorem congr (h : Conserved L alive) (hp : ∀ a, (L' a).Perm (L a)) : Conserved L' alive where
  nodup a := (hp a).nodup_iff.mpr (h.nodup a)
  unique a b x ha hb := h.unique a b x ((hp a).mem_iff.mp ha) ((hp b).mem_iff.mp hb)
  complete x := (h.complete x).trans (exists_congr fun a => (hp a).mem_iff.symm)

/-- A new resource at place `a`. -/
theorem fresh (h : Conserved L alive) (hx : ¬ alive x) (ha : (L' a).Perm (x :: L a))
    (hb : ∀ b, b ≠ a → (L' b).Perm (L b)) (halive : ∀ y, alive' y ↔ alive y ∨ y = x) :
    Conserved L' alive' := by
  have hno : ∀ b, x ∉ L b := fun b hb => hx ((h.complete x).mpr ⟨b, hb⟩)
  -- what is listed afterwards was listed before, or it is the new one
  have hmem : ∀ b y, y ∈ L' b ↔ y ∈ L b ∨ b = a ∧ y = x := by
    intro b y
    by_cases hba : b = a
    · subst hba
      rw [ha.mem_iff, List.mem_cons, or_comm]
      simp
    · rw [(hb b hba).mem_iff]
      simp [hba]
  refine ⟨fun b => ?_, fun b c y hyb hyc => ?_, fun y => ?_⟩
  · by_cases hba : b = a
    · subst hba
      exact ha.nodup_iff.mpr (List.nodup_cons.mpr ⟨hno b, h.nodup b⟩)
    · exact (hb b hba).nodup_iff.mpr (h.nodup b)
  · rcases (hmem b y).mp hyb with hyb | ⟨rfl, rfl⟩
    · rcases (hmem c y).mp hyc with hyc | ⟨rfl, rfl⟩
      · exact h.unique b c y hyb hyc
      · exact absurd hyb (hno b)
    · rcases (hmem c y).mp hyc with hyc | ⟨rfl, _⟩
      · exact absurd hyc (hno c)
      · rfl
  · simp only [halive, h.complete, hmem]
    constructor
    · rintro (⟨b, hb⟩ | rfl)
      · exact ⟨b, Or.inl hb⟩
      · exact ⟨a, Or.inr ⟨rfl, rfl⟩⟩
    · rintro ⟨b, hb | ⟨_, rfl⟩⟩
      · exact Or.inl ⟨b, hb⟩
      · exact Or.inr rfl

/-- Several new resources at place `a`. -/
theorem freshes [DecidableEq P] {xs : List R} (h : Conserved L alive) (hn : xs.Nodup)
    (hx : ∀ x ∈ xs, ¬ alive x) (ha : (L' a).Perm (xs ++ L a))
    (hb : ∀ b, b ≠ a → (L' b).Perm (L b)) (halive : ∀ y, alive' y ↔ alive y ∨ y ∈ xs) :
    Conserved L' alive' := by
  induction xs generalizing L alive with
  | nil =>
      have hsame : ∀ b, (L' b).Perm (L b) := fun b => by
        by_cases hba : b = a
        · exact hba ▸ ha
        · exact hb b hba
      have hc := h.congr hsame
      exact ⟨hc.nodup, hc.unique, fun y => ((halive y).trans (by simp)).trans (hc.complete y)⟩
  | cons x xs ih =>
      rw [List.nodup_cons] at hn
      rw [List.forall_mem_cons] at hx
      let mid : P → List R := Function.update L a (x :: L a)
      have hma : mid a = x :: L a := by simp [mid]
      have hmb : ∀ b, b ≠ a → mid b = L b := fun b hb => by simp [mid, hb]
      have hmid : Conserved mid fun y => alive y ∨ y = x :=
        h.fresh hx.1 (.of_eq hma) (fun b hb => .of_eq (hmb b hb)) fun y => Iff.rfl
      refine ih hmid hn.2 (fun y hy hay => ?_) (hma.symm ▸ ha.trans List.perm_middle.symm)
        (fun b hba => hmb b hba ▸ hb b hba) fun y => ?_
      · rcases hay with hay | rfl
        · exact hx.2 y hy hay
        · exact hn.1 hy
      · rw [halive, List.mem_cons, or_assoc]

/-- A resource goes from place `a` to place `b`. -/
theorem move (h : Conserved L alive) (hab : a ≠ b) (ha : (L a).Perm (x :: L' a))
    (hb : (L' b).Perm (x :: L b)) (hc : ∀ c, c ≠ a → c ≠ b → (L' c).Perm (L c)) :
    Conserved L' alive := by
  have hxa : x ∈ L a := ha.mem_iff.mpr List.mem_cons_self
  have hxb : x ∉ L b := fun hxb => hab (h.unique a b x hxa hxb)
  have hna := List.nodup_cons.mp (ha.nodup_iff.mp (h.nodup a))
  -- everything but `x` is where it was, and `x` is at `b`
  have hmem : ∀ c y, y ∈ L' c ↔ y ≠ x ∧ y ∈ L c ∨ c = b ∧ y = x := by
    intro c y
    by_cases hca : c = a
    · subst hca
      rw [ha.mem_iff, List.mem_cons]
      constructor
      · intro hy
        exact Or.inl ⟨fun e => hna.1 (e ▸ hy), Or.inr hy⟩
      · rintro (⟨hne, rfl | hy⟩ | ⟨e, _⟩)
        · exact absurd rfl hne
        · exact hy
        · exact absurd e hab
    · by_cases hcb : c = b
      · subst hcb
        rw [hb.mem_iff, List.mem_cons]
        constructor
        · rintro (rfl | hy)
          · exact Or.inr ⟨rfl, rfl⟩
          · exact Or.inl ⟨fun e => hxb (e ▸ hy), hy⟩
        · rintro (⟨_, hy⟩ | ⟨_, rfl⟩)
          · exact Or.inr hy
          · exact Or.inl rfl
      · rw [(hc c hca hcb).mem_iff]
        constructor
        · exact fun hy => Or.inl ⟨fun e => hca (h.unique c a x (e ▸ hy) hxa), hy⟩
        · rintro (⟨_, hy⟩ | ⟨e, _⟩)
          · exact hy
          · exact absurd e hcb
  refine ⟨fun c => ?_, fun c d y hyc hyd => ?_, fun y => ?_⟩
  · by_cases hca : c = a
    · exact hca ▸ hna.2
    · by_cases hcb : c = b
      · subst hcb
        exact hb.nodup_iff.mpr (List.nodup_cons.mpr ⟨hxb, h.nodup c⟩)
      · exact (hc c hca hcb).nodup_iff.mpr (h.nodup c)
  · rcases (hmem c y).mp hyc with ⟨hne, hyc⟩ | ⟨rfl, rfl⟩
    · rcases (hmem d y).mp hyd with ⟨_, hyd⟩ | ⟨rfl, rfl⟩
      · exact h.unique c d y hyc hyd
      · exact absurd rfl hne
    · rcases (hmem d y).mp hyd with ⟨hne, _⟩ | ⟨rfl, _⟩
      · exact absurd rfl hne
      · rfl
  · rw [h.complete]
    simp only [hmem]
    constructor
    · rintro ⟨c, hy⟩
      by_cases hyx : y = x
      · exact ⟨b, Or.inr ⟨rfl, hyx⟩⟩
      · exact ⟨c, Or.inl ⟨hyx, hy⟩⟩
    · rintro ⟨c, ⟨_, hy⟩ | ⟨_, rfl⟩⟩
      · exact ⟨c, hy⟩
      · exact ⟨a, hxa⟩

/-- Several resources go from place `a` to place `b`. -/
theorem moves [DecidableEq P] {xs : List R} (h : Conserved L alive) (hab : a ≠ b)
    (ha : (L a).Perm (xs ++ L' a)) (hb : (L' b).Perm (xs ++ L b))
    (hc : ∀ c, c ≠ a → c ≠ b → (L' c).Perm (L c)) : Conserved L' alive := by
  induction xs generalizing L with
  | nil =>
      refine h.congr fun c => ?_
      by_cases hca : c = a
      · exact hca ▸ ha.symm
      · by_cases hcb : c = b
        · exact hcb ▸ hb
        · exact hc c hca hcb
  | cons x xs ih =>
      -- the first of them
      let mid : P → List R := Function.update (Function.update L a (xs ++ L' a)) b (x :: L b)
      have hma : mid a = xs ++ L' a := by simp [mid, hab]
      have hmb : mid b = x :: L b := by simp [mid]
      have hmc : ∀ c, c ≠ a → c ≠ b → mid c = L c := fun c hca hcb => by simp [mid, hca, hcb]
      have hmid : Conserved mid alive :=
        h.move hab (hma.symm ▸ ha) (.of_eq hmb) fun c hca hcb => .of_eq (hmc c hca hcb)
      refine ih hmid (.of_eq hma) (hmb.symm ▸ hb.trans List.perm_middle.symm) fun c hca hcb => ?_
      exact hmc c hca hcb ▸ hc c hca hcb

section Swap

variable [DecidableEq P] {y : R} {q r : List R}

/-- Two places swap a resource. -/
theorem swap (h : Conserved L alive) (hab : a ≠ b) (ha : (L a).Perm (x :: r)) (hb : (L b).Perm (y :: q))
    (ha' : (L' a).Perm (y :: r)) (hb' : (L' b).Perm (x :: q))
    (hc : ∀ c, c ≠ a → c ≠ b → (L' c).Perm (L c)) : Conserved L' alive := by
  let mid : P → List R := Function.update (Function.update L a r) b (x :: y :: q)
  have hma : mid a = r := by simp [mid, hab]
  have hmb : mid b = x :: y :: q := by simp [mid]
  have hmc : ∀ c, c ≠ a → c ≠ b → mid c = L c := fun c hca hcb => by simp [mid, hca, hcb]
  have hmid : Conserved mid alive :=
    h.move hab (hma.symm ▸ ha) (hmb.symm ▸ hb.symm.cons x) fun c hca hcb => hmc c hca hcb ▸ .refl _
  refine hmid.move (x := y) (Ne.symm hab) ?_ (hma.symm ▸ ha') fun c hcb hca => (hc c hca hcb).trans ?_
  · rw [hmb]
    exact (List.Perm.swap y x q).trans (hb'.symm.cons y)
  · rw [hmc c hca hcb]

/-- **Place `a` swaps a resource with each of several places of one resource**: the elements of `ws`
    are a place, what it gets and what it had. -/
theorem swaps (h : Conserved L alive) (ws : List (P × R × R)) (hn : (ws.map (·.1)).Nodup)
    (hne : a ∉ ws.map (·.1)) (ha : (L a).Perm (ws.map (·.2.1) ++ r))
    (ha' : (L' a).Perm (ws.map (·.2.2) ++ r)) (hb : ∀ w ∈ ws, L w.1 = [w.2.2] ∧ L' w.1 = [w.2.1])
    (hc : ∀ c, c ≠ a → c ∉ ws.map (·.1) → L' c = L c) : Conserved L' alive := by
  induction ws generalizing L r with
  | nil =>
      refine h.congr fun c => ?_
      by_cases hca : c = a
      · exact hca ▸ ha'.trans ha.symm
      · rw [hc c hca List.not_mem_nil]
  | cons w ws ih =>
      obtain ⟨b, x, y⟩ := w
      rw [List.map_cons, List.nodup_cons] at hn
      rw [List.map_cons, List.mem_cons, not_or] at hne
      rw [List.forall_mem_cons] at hb
      -- the first swap
      let mid : P → List R := Function.update (Function.update L a (ws.map (·.2.1) ++ y :: r)) b [x]
      have hma : mid a = ws.map (·.2.1) ++ y :: r := by simp [mid, hne.1]
      have hmb : mid b = [x] := by simp [mid]
      have hmc : ∀ c, c ≠ a → c ≠ b → mid c = L c := fun c hca hcb => by simp [mid, hca, hcb]
      have hmid : Conserved mid alive := by
        refine h.swap hne.1 (y := y) ha (.of_eq hb.1.1) ?_ (.of_eq hmb) fun c hca hcb => .of_eq (hmc c hca hcb)
        rw [hma]
        exact List.perm_middle
      refine ih hmid hn.2 hne.2 (.of_eq hma) (ha'.trans List.perm_middle.symm) (fun w hw => ?_)
        fun c hca hcw => ?_
      · have hmem : w.1 ∈ ws.map (·.1) := List.mem_map_of_mem hw
        have hwb : w.1 ≠ b := fun e => hn.1 (e ▸ hmem)
        have hwa : w.1 ≠ a := fun e => hne.2 (e ▸ hmem)
        rw [hmc w.1 hwa hwb]
        exact hb.2 w hw
      · by_cases hcb : c = b
        · rw [hcb, hmb]
          exact hb.1.2
        · rw [hmc c hca hcb]
          exact hc c hca (by simp [hcb, hcw])

end Swap

end Conserved

end Ledger
