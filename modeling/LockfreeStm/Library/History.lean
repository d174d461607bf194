/-
  File:      LockfreeStm/Library/History.lean
  Subject:   HISTORIES OF OPTIMISTIC TRANSACTIONS, and when such a history is serial.

  The transactions `κ` and the memories `M` are arbitrary. A transaction begins on what a beginning of the
  history has left, and is applied behind others that were applied meanwhile; each of these passes it, in some
  relation that the validation of a commit establishes. What a transaction has only looked at they may have
  changed, so a history need not be serial. It is, if a transaction that runs in front of one that passes it
  runs behind that one too: then it can be moved past them one by one.

  * `after`, `History` -- what transactions leave, and such a history.
  * `Movable` -- that the transactions can be moved, with an invariant for what the moves need to know.
  * `History.serial` -- **the main result**: then every transaction runs where it is applied.
-/
import Mathlib.Data.List.Induction

namespace Histories

variable {κ M : Type} (apply : κ → M → M)

/-! ## 1. Histories -/

/-- What the transactions of a list leave of the memory `m`, first to last. -/
def after (m : M) (cs : List κ) : M := cs.foldl (fun m c => apply c m) m

@[simp] theorem after_nil (m : M) : after apply m [] = m := rfl

theorem after_concat (m : M) (cs : List κ) (c : κ) :
    after apply m (cs ++ [c]) = apply c (after apply m cs) := by
  rw [after, List.foldl_append, after, List.foldl_cons, List.foldl_nil]

/-- Every transaction of the list began on what a beginning of those before it leaves, and the others before
    it pass it. -/
def History (began : κ → M → Prop) (passes : κ → κ → Prop) (m : M) (order : List κ) : Prop :=
  ∀ front c back, order = front ++ c :: back → ∃ pre mid, front = pre ++ mid ∧
    began c (after apply m pre) ∧ ∀ d ∈ mid, passes d c

/-- Every transaction of the list runs on what all those before it leave. -/
def SerialHistory (runs : κ → M → Prop) (m : M) (order : List κ) : Prop :=
  ∀ front c back, order = front ++ c :: back → runs c (after apply m front)

/-- What it takes to move the transactions of a history: an invariant `I` of what they leave that their
    effects keep, and that one can be moved past another one that passes it. -/
structure Movable (began runs : κ → M → Prop) (passes : κ → κ → Prop) (I : List κ → M → Prop) (m : M)
    (order : List κ) : Prop where
  start : I [] m
  enter : ∀ done c rest, order = done ++ rest → c ∈ rest → I done (after apply m done) →
    began c (after apply m done) → runs c (after apply m done)
  step : ∀ done c rest, order = done ++ c :: rest → I done (after apply m done) → runs c (after apply m done) →
    I (done ++ [c]) (apply c (after apply m done))
  move : ∀ done d rest c, order = done ++ d :: rest → c ∈ rest → I done (after apply m done) →
    runs d (after apply m done) → runs c (after apply m done) → passes d c →
    runs c (apply d (after apply m done))

variable {apply} {began runs : κ → M → Prop} {passes : κ → κ → Prop} {I : List κ → M → Prop} {m : M}
  {order : List κ}

/-- A transaction of a longer list is the last one, or one of the list. -/
theorem concat_split {done front back : List κ} {c d : κ} (e : done ++ [c] = front ++ d :: back) :
    front = done ∧ d = c ∨ ∃ back', done = front ++ d :: back' := by
  rcases List.eq_nil_or_concat back with rfl | ⟨back', d', rfl⟩
  · obtain ⟨hd, he⟩ := List.append_inj' e rfl
    exact Or.inl ⟨hd.symm, (List.cons.inj he).1.symm⟩
  · rw [List.concat_eq_append, ← List.cons_append, ← List.append_assoc] at e
    exact Or.inr ⟨back', (List.append_inj' e rfl).1⟩

theorem History.nil : History apply began passes m [] :=
  fun _ _ _ e => absurd e.symm (by simp)

/-- One more transaction. -/
theorem History.concat {c : κ} {pre mid : List κ} (h : History apply began passes m (pre ++ mid))
    (hbegan : began c (after apply m pre)) (hmid : ∀ d ∈ mid, passes d c) :
    History apply began passes m (pre ++ mid ++ [c]) := by
  intro front d back e
  rcases concat_split e with ⟨rfl, rfl⟩ | ⟨back', e⟩
  · exact ⟨pre, mid, rfl, hbegan, hmid⟩
  · exact h front d back' e

/-- Transactions that leave every memory as it is may be left out. -/
theorem after_filter {p : κ → Bool} (h : ∀ c ∈ order, p c = false → ∀ m, apply c m = m) (m : M) :
    after apply m (order.filter p) = after apply m order := by
  induction order generalizing m with
  | nil => rfl
  | cons c cs ih =>
    have ih := ih fun d hd => h d (List.mem_cons_of_mem _ hd)
    cases hc : p c with
    | true =>
      rw [List.filter_cons_of_pos hc]
      exact ih _
    | false =>
      rw [List.filter_cons_of_neg (by rw [hc]; exact Bool.false_ne_true), ih]
      exact congrArg (fun m' => after apply m' cs) (h c List.mem_cons_self hc m).symm

theorem History.filter {p : κ → Bool} (h : History apply began passes m order)
    (hp : ∀ c ∈ order, p c = false → ∀ m, apply c m = m) :
    History apply began passes m (order.filter p) := by
  intro front c back e
  obtain ⟨l, l', rfl, rfl, hback⟩ := List.filter_eq_append_iff.mp e
  obtain ⟨skipped, rest, rfl, hskip, -, -⟩ := List.filter_eq_cons_iff.mp hback
  obtain ⟨pre, mid, hsplit, hbegan, hmid⟩ := h (l ++ skipped) c rest (List.append_assoc ..).symm
  have hfront : l.filter p = pre.filter p ++ mid.filter p := by
    rw [← List.filter_append, ← hsplit, List.filter_append, List.filter_eq_nil_iff.mpr hskip, List.append_nil]
  refine ⟨pre.filter p, mid.filter p, hfront, ?_, fun d hd => hmid d (List.mem_filter.mp hd).1⟩
  rw [after_filter fun d hd => hp d ?_]
  · exact hbegan
  · rw [← List.append_assoc, hsplit, List.append_assoc]
    exact List.mem_append_left _ hd

theorem after_map {κ' : Type} {apply' : κ' → M → M} {f : κ → κ'} (ha : ∀ c m, apply' (f c) m = apply c m) (m : M)
    (cs : List κ) : after apply' m (cs.map f) = after apply m cs := by
  rw [after, List.foldl_map]
  exact congrArg (fun g => cs.foldl g m) (funext fun m => funext fun c => ha c m)

theorem History.began_of_mem {c : κ} (h : History apply began passes m order) (hc : c ∈ order) :
    ∃ m, began c m := by
  obtain ⟨front, back, e⟩ := List.append_of_mem hc
  obtain ⟨pre, mid, -, hbegan, -⟩ := h front c back e
  exact ⟨_, hbegan⟩

/-- The same history, of transactions that are told in another way. -/
theorem History.map {κ' : Type} {apply' : κ' → M → M} {began' : κ' → M → Prop} {passes' : κ' → κ' → Prop}
    (f : κ → κ') (h : History apply began passes m order) (ha : ∀ c m, apply' (f c) m = apply c m)
    (hb : ∀ c ∈ order, ∀ m, began c m → began' (f c) m)
    (hp : ∀ d ∈ order, ∀ c ∈ order, passes d c → passes' (f d) (f c)) :
    History apply' began' passes' m (order.map f) := by
  intro front c back e
  obtain ⟨front, rest, rfl, rfl, hback⟩ := List.map_eq_append_iff.mp e
  obtain ⟨c, back, rfl, rfl, rfl⟩ := List.map_eq_cons_iff.mp hback
  obtain ⟨pre, mid, rfl, hbegan, hmid⟩ := h front c back rfl
  have hc : c ∈ pre ++ mid ++ c :: back := List.mem_append_right _ List.mem_cons_self
  refine ⟨pre.map f, mid.map f, List.map_append, after_map ha m pre ▸ hb c hc _ hbegan, fun d hd => ?_⟩
  obtain ⟨d, hm, rfl⟩ := List.mem_map.mp hd
  exact hp d (List.mem_append_left _ (List.mem_append_right _ hm)) c hc (hmid d hm)

theorem SerialHistory.concat {done : List κ} {c : κ} (h : SerialHistory apply runs m done)
    (hc : runs c (after apply m done)) : SerialHistory apply runs m (done ++ [c]) := by
  intro front d back e
  rcases concat_split e with ⟨rfl, rfl⟩ | ⟨back', e⟩
  · exact hc
  · exact h front d back' e

/-! ## 2. Moving a transaction to where it is applied -/

/-- A transaction that runs behind `pre` runs behind `pre ++ mid` too, by induction on `mid`, whose own
    transactions run where they are applied. -/
theorem Movable.runs_behind (hm : Movable apply began runs passes I m order) {c : κ} {pre mid rest : List κ}
    (e : order = pre ++ mid ++ rest) (hc : c ∈ rest)
    (hI : ∀ front back, pre ++ mid = front ++ back → I front (after apply m front))
    (hserial : SerialHistory apply runs m (pre ++ mid)) (hruns : runs c (after apply m pre))
    (hmid : ∀ d ∈ mid, passes d c) : runs c (after apply m (pre ++ mid)) := by
  induction mid using List.reverseRecOn generalizing rest with
  | nil => rwa [List.append_nil]
  | append_singleton mid d ih =>
      have hone : pre ++ (mid ++ [d]) = (pre ++ mid) ++ d :: [] := (List.append_assoc ..).symm
      have ih : runs c (after apply m (pre ++ mid)) := by
        have e : order = pre ++ mid ++ d :: rest := by simp [e]
        refine ih e (List.mem_cons_of_mem _ hc) (fun front back h => ?_) (fun front d' back h => ?_)
          fun d' hd' => hmid d' (List.mem_append_left _ hd')
        · exact hI front (back ++ [d]) (by rw [hone, h, List.append_assoc])
        · exact hserial front d' (back ++ [d]) (by rw [hone, h, List.append_assoc, List.cons_append])
      rw [← List.append_assoc, after_concat]
      exact hm.move (pre ++ mid) d rest c (by simp [e]) hc (hI _ _ hone) (hserial _ _ _ hone) ih
        (hmid d (List.mem_append_right _ List.mem_cons_self))

/-- **A history whose transactions can be moved is serial**, and the invariant holds behind every beginning
    of it. -/
theorem History.serial (h : History apply began passes m order)
    (hm : Movable apply began runs passes I m order) :
    SerialHistory apply runs m order ∧
      ∀ front back, order = front ++ back → I front (after apply m front) := by
  have all : ∀ done rest, order = done ++ rest → SerialHistory apply runs m done ∧
      ∀ front back, done = front ++ back → I front (after apply m front) := by
    intro done
    induction done using List.reverseRecOn with
    | nil =>
        refine fun rest _ => ⟨fun front c back e => ?_, fun front back e => ?_⟩
        · exact absurd e.symm (by simp)
        · obtain ⟨rfl, -⟩ := List.append_eq_nil_iff.mp e.symm
          exact hm.start
    | append_singleton done c ih =>
        intro rest e
        rw [List.append_assoc, List.singleton_append] at e
        obtain ⟨hserial, hI⟩ := ih (c :: rest) e
        obtain ⟨pre, mid, rfl, hbegan, hmid⟩ := h done c rest e
        have hpre : runs c (after apply m pre) :=
          hm.enter pre c (mid ++ c :: rest) (by rw [e, List.append_assoc])
            (List.mem_append_right _ List.mem_cons_self) (hI pre mid rfl) hbegan
        have hc : runs c (after apply m (pre ++ mid)) :=
          hm.runs_behind e List.mem_cons_self hI hserial hpre hmid
        refine ⟨hserial.concat hc, fun front back e' => ?_⟩
        rcases List.eq_nil_or_concat back with rfl | ⟨back', d, rfl⟩
        · rw [← List.append_nil front, ← e', after_concat]
          exact hm.step _ c rest e (hI _ [] (List.append_nil _).symm) hc
        · rw [List.concat_eq_append, ← List.append_assoc] at e'
          exact hI front back' (List.append_inj' e' rfl).1
  obtain ⟨hserial, hI⟩ := all order [] (List.append_nil order).symm
  exact ⟨hserial, hI⟩

end Histories
