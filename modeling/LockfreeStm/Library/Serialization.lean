/-
  File:      LockfreeStm/Library/Serialization.lean
  Subject:   Transactions with a stamp each: when the order of the stamps is a serial execution.

  The transactions `κ` are arbitrary. Each has the writes `put`, the reads `reads`, and two stamps: at
  `start` it has seen what it read, at `stamp` it takes effect. A history lists them newest first, in
  the order their writes became visible. `Stamped` collects what the history has to satisfy:
  transactions that write a key take effect in the order of the history; what a transaction read was
  current at its `start`; and none that writes a key it read takes effect between its two stamps.

  * `replay`, `Legal` -- the transactions one after the other, and that each finds what it read.
  * `legal_of_sorted` -- **the main result**: sorted by their stamps the transactions of such a
    history are a legal serial execution, with the final memory of the history.
  * `Legal.invariant` -- what every transaction keeps holds behind every part of such an execution.
-/
import LockfreeStm.Library.WriteLog
import Mathlib.Data.List.Induction

namespace Serialization

open WriteLog

variable {κ ν α β : Type} (put : κ → ν → Option β) (val : β → α)

/-- A memory with the writes of one transaction over it. -/
def apply (m : ν → α) (c : κ) (v : ν) : α :=
  match put c v with
  | some b => val b
  | none => m v

/-- The memory after the transactions of a list, first to last. -/
def replay (m : ν → α) : List κ → ν → α
  | [] => m
  | c :: cs => replay (apply put val m c) cs

/-- What a history, newest first, leaves in a key. -/
def valueOf (m : ν → α) (cs : List κ) (v : ν) : α :=
  match latest put cs v with
  | some (_, b) => val b
  | none => m v

/-- Each transaction finds in memory what it has read. -/
def Legal (reads : κ → List (ν × α)) (m : ν → α) : List κ → Prop
  | [] => True
  | c :: cs => (∀ p ∈ reads c, p.2 = m p.1) ∧ Legal reads (apply put val m c) cs

variable {put val}

theorem valueOf_of_some {m : ν → α} {cs : List κ} {v : ν} {c : κ} {b : β}
    (h : latest put cs v = some (c, b)) : valueOf put val m cs v = val b := by
  rw [valueOf, h]

theorem valueOf_of_none {m : ν → α} {cs : List κ} {v : ν} (h : latest put cs v = none) :
    valueOf put val m cs v = m v := by
  rw [valueOf, h]

theorem valueOf_congr {m : ν → α} {cs ds : List κ} {v : ν} (h : latest put cs v = latest put ds v) :
    valueOf put val m cs v = valueOf put val m ds v := by
  rw [valueOf, h]
  rfl

theorem valueOf_cons (m : ν → α) (c : κ) (cs : List κ) :
    valueOf put val m (c :: cs) = apply put val (valueOf put val m cs) c := by
  funext v
  cases h : put c v with
  | none => rw [valueOf_congr (latest_cons_none h), apply, h]
  | some b => rw [valueOf_of_some (latest_cons_some h), apply, h]

theorem replay_append (m : ν → α) (cs ds : List κ) :
    replay put val m (cs ++ ds) = replay put val (replay put val m cs) ds := by
  induction cs generalizing m with
  | nil => rfl
  | cons c cs ih => exact ih _

/-- Replaying a list leaves what the list leaves when it is read as a history. -/
theorem replay_eq_valueOf (m : ν → α) (cs : List κ) :
    replay put val m cs = valueOf put val m cs.reverse := by
  induction cs using List.reverseRecOn with
  | nil => rfl
  | append_singleton cs c ih =>
      rw [replay_append, List.reverse_append, List.reverse_singleton, List.singleton_append,
        valueOf_cons, ← ih]
      rfl

/-- Legality, transaction by transaction. -/
theorem legal_of_prefixes {reads : κ → List (ν × α)} {m : ν → α} {order : List κ}
    (h : ∀ earlier c later, order = earlier ++ c :: later →
      ∀ p ∈ reads c, p.2 = replay put val m earlier p.1) : Legal put val reads m order := by
  induction order generalizing m with
  | nil => trivial
  | cons c cs ih =>
      exact ⟨h [] c cs rfl, ih fun earlier d later e => h (c :: earlier) d later (congrArg (c :: ·) e)⟩

/-- What a history has to satisfy. -/
structure Stamped (put : κ → ν → Option β) (val : β → α) (reads : κ → List (ν × α))
    (start stamp : κ → Nat) (m : ν → α) (hist : List κ) : Prop where
  order : ∀ v, hist.Pairwise fun newer older =>
    Writes put newer v → Writes put older v → stamp older < stamp newer
  start_le : ∀ c ∈ hist, start c ≤ stamp c
  current : ∀ c ∈ hist, ∀ p ∈ reads c,
    p.2 = valueOf put val m (hist.filter fun d => decide (stamp d < start c)) p.1
  stable : hist.Pairwise fun c d =>
    (∀ p ∈ reads c, Writes put d p.1 → stamp d < start c ∨ stamp c < stamp d) ∧
    (∀ p ∈ reads d, Writes put c p.1 → stamp c < start d ∨ stamp d < stamp c)

/-- **What every transaction keeps**, applied to a memory in which it finds what it has read, holds behind
    every part of a legal execution. -/
theorem Legal.invariant {reads : κ → List (ν × α)} {m : ν → α} {order : List κ}
    (h : Legal put val reads m order) {I : List κ → (ν → α) → Prop} {before : List κ} (hI : I before m)
    (hstep : ∀ c ∈ order, ∀ earlier m, (∀ p ∈ reads c, p.2 = m p.1) → I earlier m →
      I (earlier ++ [c]) (apply put val m c))
    {earlier later : List κ} (e : order = earlier ++ later) :
    I (before ++ earlier) (replay put val m earlier) := by
  induction earlier generalizing m order before with
  | nil => rwa [List.append_nil]
  | cons c cs ih =>
      subst e
      have hc := hstep c List.mem_cons_self before m h.1 hI
      have := ih h.2 hc (fun d hd => hstep d (List.mem_cons_of_mem _ hd)) rfl
      rwa [List.append_assoc] at this

/-- A sorted list begins with what is stamped before `time`. -/
theorem split_of_sorted {stamp : κ → Nat} {order : List κ}
    (hs : order.Pairwise fun c d => stamp c ≤ stamp d) (time : Nat) :
    ∃ earlier later, order = earlier ++ later ∧
      earlier = order.filter (fun c => decide (stamp c < time)) ∧ ∀ c ∈ later, time ≤ stamp c := by
  induction order with
  | nil => exact ⟨[], [], rfl, rfl, fun _ h => absurd h List.not_mem_nil⟩
  | cons c cs ih =>
      obtain ⟨hle, hs⟩ := List.pairwise_cons.mp hs
      by_cases hc : stamp c < time
      · obtain ⟨earlier, later, e, he, hl⟩ := ih hs
        refine ⟨c :: earlier, later, congrArg (c :: ·) e, ?_, hl⟩
        have hpos : decide (stamp c < time) = true := decide_eq_true hc
        rw [List.filter_cons, if_pos hpos, he]
      · have hlater : ∀ d ∈ c :: cs, time ≤ stamp d := List.forall_mem_cons.mpr
          ⟨Nat.le_of_not_lt hc, fun d hd => Nat.le_trans (Nat.le_of_not_lt hc) (hle d hd)⟩
        refine ⟨[], c :: cs, rfl, (List.filter_eq_nil_iff.mpr fun d hd => ?_).symm, hlater⟩
        exact fun h => absurd (of_decide_eq_true h) (Nat.not_lt_of_le (hlater d hd))

section Sorted

variable {reads : κ → List (ν × α)} {start stamp : κ → Nat} {m : ν → α} {hist order : List κ}

/-- The writers of a key are sorted strictly. -/
theorem writers_sorted {v : ν}
    (ho : hist.Pairwise fun newer older =>
      Writes put newer v → Writes put older v → stamp older < stamp newer)
    (hp : order.Perm hist) (hs : order.Pairwise fun c d => stamp c ≤ stamp d) :
    order.reverse.Pairwise fun newer older =>
      Writes put newer v → Writes put older v → stamp older < stamp newer := by
  have hne : hist.Pairwise fun c d => Writes put c v → Writes put d v → stamp c ≠ stamp d :=
    ho.imp fun h hc hd => Nat.ne_of_gt (h hc hd)
  have hne' : order.Pairwise fun c d => Writes put c v → Writes put d v → stamp c ≠ stamp d :=
    (hp.pairwise_iff fun h hd hc => (h hc hd).symm).mpr hne
  rw [List.pairwise_reverse]
  exact hs.imp₂ (fun _ _ hle hne hd hc => Nat.lt_of_le_of_ne hle (hne hc hd)) hne'

variable (stamp) in
/-- Sorted by their stamps, the transactions leave what the history leaves. -/
theorem replay_of_sorted
    (ho : ∀ v, hist.Pairwise fun newer older =>
      Writes put newer v → Writes put older v → stamp older < stamp newer)
    (hp : order.Perm hist) (hs : order.Pairwise fun c d => stamp c ≤ stamp d) :
    replay put val m order = valueOf put val m hist := by
  rw [replay_eq_valueOf]
  funext v
  refine valueOf_congr (latest_congr (r := fun a b => stamp a < stamp b) (fun _ _ => Nat.lt_asymm)
    (writers_sorted (ho v) hp hs) (ho v) fun d _ => ?_)
  rw [List.mem_reverse]
  exact hp.mem_iff

/-- **Sorted by their stamps, the transactions are a legal serial execution.** -/
theorem legal_of_sorted (h : Stamped put val reads start stamp m hist) (hp : order.Perm hist)
    (hs : order.Pairwise fun c d => stamp c ≤ stamp d) :
    Legal put val reads m order ∧ replay put val m order = valueOf put val m hist := by
  have hlt : ∀ a b : κ, stamp a < stamp b → ¬ stamp b < stamp a := fun _ _ => Nat.lt_asymm
  refine ⟨legal_of_prefixes fun earlier c later e p hpr => ?_, replay_of_sorted stamp h.order hp hs⟩
  · have hc : c ∈ hist := hp.mem_iff.mp (by rw [e]; simp)
    have hst := (hp.pairwise_iff fun h => ⟨h.2, h.1⟩).mpr h.stable
    rw [e, List.pairwise_append] at hst hs
    have hse := writers_sorted (h.order p.1) hp (e ▸ List.pairwise_append.mpr hs)
    rw [e, List.reverse_append, List.pairwise_append] at hse
    rw [h.current c hc p hpr, replay_eq_valueOf]
    refine valueOf_congr (latest_congr (r := fun a b => stamp a < stamp b) hlt
      ((h.order p.1).filter _) hse.2.1 fun d hw => ?_)
    rw [List.mem_filter, decide_eq_true_iff, List.mem_reverse]
    constructor
    · -- a transaction that took effect before the start stands before
      rintro ⟨hd, hlt⟩
      have hd' : d ∈ earlier ++ c :: later := e ▸ hp.mem_iff.mpr hd
      rcases List.mem_append.mp hd' with hd' | hd'
      · exact hd'
      · rcases List.mem_cons.mp hd' with rfl | hd'
        · exact absurd (h.start_le d hd) (Nat.not_le_of_lt hlt)
        · have hle := (List.pairwise_cons.mp hs.2.1).1 d hd'
          exact absurd (Nat.le_trans (h.start_le c hc) hle) (Nat.not_le_of_lt hlt)
    · -- one that stands before took effect before the start, since it writes what `c` read
      intro hd
      refine ⟨hp.mem_iff.mp (e ▸ List.mem_append_left _ hd), ?_⟩
      refine ((hst.2.2 d hd c List.mem_cons_self).2 p hpr hw).resolve_right fun hlt => ?_
      exact Nat.not_lt_of_le (hs.2.2 d hd c List.mem_cons_self) hlt

end Sorted

end Serialization
