/-
  File:      LockfreeStm/Machine/Clients.lean
  Subject:   TWO PROGRAMS OVER easy_var on the machine: counters, and the accounts of test/transfer_funds.cpp.

  Each is stated by what its read_write calls do, whoever makes them, how often and in what interleaving,
  next to any read_only calls; what is proved holds of the committed memory and of the memory every attempt
  sees, also one that will abort.

  * `countersHold`, `noUpdate_lost` -- **calls of `operator+=` on any vars lose no update**: a var holds its
    initial value and the sum of what the committed calls added to it, added as its type adds.
  * `transfer`, `balances_kept` -- **the transfers keep the balances**: while the initial balances fit the
    type of the accounts together, the accounts hold what the committed transfers leave in exact arithmetic,
    none is ever below zero, together they hold what they held, and no transfer overflows.
-/
import LockfreeStm.Machine.Opacity
import Mathlib.Algebra.BigOperators.Group.Finset.Piecewise
import Mathlib.Algebra.Order.BigOperators.Group.Finset
import Mathlib.Data.Fintype.Basic
import Mathlib.Data.BitVec
import Mathlib.Algebra.Order.Ring.Int

namespace LockfreeStm

variable {ι ν : Type} [DecidableEq ι] [DecidableEq ν]

/-! ## 1. Programs with a label each -/

/-- Calls of the programs `prog`, one for each label, and any read_only calls and reclamations. -/
def CallsOf {ν α κ : Type} (prog : κ → Prog ν α) : Request ν α → Prop
  | .readWrite body => ∃ l, body = (prog l).body
  | .readOnly _ | .reclaimAll => True

theorem CallsOf.isTracked {ν α κ : Type} {prog : κ → Prog ν α} (r : Request ν α) (h : CallsOf prog r) :
    r.isTracked := by
  cases r with
  | readWrite body =>
      obtain ⟨l, rfl⟩ := h
      exact Prog.isTracked_body _
  | readOnly | reclaimAll => trivial

/-- The labels of the commits. -/
def Labelled {ι ν α κ : Type} (prog : κ → Prog ν α) (ls : List κ) (cs : List (Commit ι ν α)) : Prop :=
  List.Forall₂ (fun l c => c.body = (prog l).body) ls cs

section Labelled

variable {α κ : Type} {prog : κ → Prog ν α} {cfg : Config ι ν α} {s : Sys ι ν α}

omit [DecidableEq ι] [DecidableEq ν] in
theorem exists_labelled {cs : List (Commit ι ν α)} (h : ∀ c ∈ cs, CallsOf prog (.readWrite c.body)) :
    ∃ ls, Labelled prog ls cs := by
  induction cs with
  | nil => exact ⟨[], .nil⟩
  | cons c cs ih =>
      rw [List.forall_mem_cons] at h
      obtain ⟨l, hl⟩ := h.1
      obtain ⟨ls, hls⟩ := ih h.2
      exact ⟨l :: ls, .cons hl hls⟩

/-- **What the programs keep, counted by their labels, holds everywhere.** -/
theorem invariant_labelled (hag : cfg.HashesAgree) (h : Sys.Reach cfg (CallsOf prog) s)
    {I : List κ → (ν → α) → Prop} (h0 : I [] cfg.initValue)
    (hstep : ∀ l ls m m', (prog l).run m = some m' → I ls m → I (ls ++ [l]) m') :
    ∃ order ls, order.Perm s.shared.hist.commits ∧ Labelled prog ls order ∧
      (∃ m, I ls m ∧ ∀ v, (∀ u, ¬ (s.threads u).PreStored v) →
        m v = (s.shared.loadStorage v).load s.shared.cells) ∧
      ∀ t, (s.threads t).pc.phase = .attempt → ∃ k m, I (ls.take k) m ∧ Agrees m (s.threads t).att.reads := by
  obtain ⟨order, ho⟩ := exists_takesEffect s
  obtain ⟨ls, hls⟩ := exists_labelled fun c hc =>
    (executed_reach hag CallsOf.isTracked h c (ho.perm.mem_iff.mp hc)).1
  -- whatever labels a beginning of the order is given
  have hinv : ∀ {earlier later}, order = earlier ++ later →
      ∀ ls, Labelled prog ls earlier → I ls (leaves cfg earlier) := by
    refine fun e => invariant_prefix (I := fun cs m => ∀ ls, Labelled prog ls cs → I ls m) hag
      CallsOf.isTracked h ho (fun ls hls => ?_) (fun c earlier m m' _ hex hret hI ls hls => ?_) e
    · cases hls
      exact h0
    · have hlast := List.forall₂_drop_append _ _ _ hls
      rw [← List.take_append_drop earlier.length ls]
      cases hdrop : ls.drop earlier.length with
      | nil =>
          rw [hdrop] at hlast
          cases hlast
      | cons l rest =>
          rw [hdrop] at hlast
          obtain ⟨hl, hnil⟩ := List.forall₂_cons.mp hlast
          cases hnil
          rw [hl] at hex hret
          exact hstep l _ m m' (hex.run hret) (hI _ (List.forall₂_take_append _ _ _ hls))
  refine ⟨order, ls, ho.perm, hls, ⟨_, hinv (List.append_nil order).symm ls hls,
    fun v hv => leaves_order h ho hv⟩, fun t ht => ?_⟩
  obtain ⟨earlier, later, e, ⟨hagr, -⟩, -⟩ := runsOn_prefix hag CallsOf.isTracked h ho ht
  exact ⟨earlier.length, _, hinv e _ (List.forall₂_take_append _ _ _ (e ▸ hls)), hagr⟩

end Labelled

/-! ## 2. Counters -/

section Counters

variable {α : Type} [AddCommMonoid α] {cfg : Config ι ν α} {s : Sys ι ν α}

/-- `var += d`, in an arithmetic that may wrap around. -/
def addTo (l : ν × α) : Prog ν α := EasyVar.assignOp (· + ·) l.1 l.2 .ret

/-- What calls of `addTo` have added to a var. -/
def added (ls : List (ν × α)) (v : ν) : α := ((ls.filter (·.1 = v)).map (·.2)).sum

/-- The counters hold their initial values and what was added. -/
def countersHold (cfg : Config ι ν α) (ls : List (ν × α)) (v : ν) : α := cfg.initValue v + added ls v

theorem added_concat (ls : List (ν × α)) (l : ν × α) :
    (fun v => added (ls ++ [l]) v) = Function.update (added ls) l.1 (added ls l.1 + l.2) := by
  funext v
  simp only [added, List.filter_append, List.map_append, List.sum_append]
  by_cases h : l.1 = v
  · subst h
    simp
  · rw [Function.update_of_ne (Ne.symm h)]
    simp [h, added]

omit [DecidableEq ι] in
/-- One call of `addTo` adds what it says. -/
theorem addTo_run {ls : List (ν × α)} {l : ν × α} {m' : ν → α}
    (h : (addTo l).run (countersHold cfg ls) = some m') : m' = countersHold cfg (ls ++ [l]) := by
  obtain rfl := Option.some.inj h
  funext v
  have hv := congrFun (added_concat ls l) v
  simp only [countersHold]
  rw [hv]
  by_cases h : v = l.1
  · subst h
    rw [Function.update_self, Function.update_self]
    exact add_assoc ..
  · rw [Function.update_of_ne h, Function.update_of_ne h]
    rfl

/-- **No update is lost.** Whatever calls of `operator+=` on whatever vars the threads make, each var that no
    commit is storing holds its initial value and the sum of what the commits have added to it; and every
    attempt has read what the first so many of these commits have left. -/
theorem noUpdate_lost (hag : cfg.HashesAgree) (h : Sys.Reach cfg (CallsOf addTo) s) :
    ∃ order ls, order.Perm s.shared.hist.commits ∧ Labelled addTo ls order ∧
      (∀ v, (∀ u, ¬ (s.threads u).PreStored v) →
        (s.shared.loadStorage v).load s.shared.cells = cfg.initValue v + added ls v) ∧
      ∀ t, (s.threads t).pc.phase = .attempt → ∃ k, ∀ p ∈ (s.threads t).att.reads,
        p.2 = cfg.initValue p.1 + added (ls.take k) p.1 := by
  obtain ⟨order, ls, hperm, hls, ⟨m, hm, hmem⟩, hatt⟩ :=
    invariant_labelled (I := fun ls m => m = countersHold cfg ls) hag h
      (by funext v; exact (add_zero _).symm)
      (fun l ls m m' hrun hm => addTo_run (hm ▸ hrun))
  subst hm
  refine ⟨order, ls, hperm, hls, fun v hv => (hmem v hv).symm, fun t ht => ?_⟩
  obtain ⟨k, m, hm, hagr⟩ := hatt t ht
  exact ⟨k, fun p hp => (hagr p hp).symm.trans (by rw [hm]; rfl)⟩

end Counters

/-- Two ints that hold `x`. -/
def accountsConfig (x : BitVec 32) : Config Bool Bool (BitVec 32) where
  varType _ := .atomic
  layout v := ⟨if v then 16 else 0, 16, 0⟩
  initPtr := smallConfig.initPtr
  initPtr_inj := smallConfig.initPtr_inj
  firstFree := 2
  initPtr_lt := smallConfig.initPtr_lt
  initCells _ := 0
  initRaw _ := x
  nodes := [false, true]
  nodes_complete := smallConfig.nodes_complete
  reclaimLimit := 4

theorem accountsConfig_hashesAgree (x : BitVec 32) : (accountsConfig x).HashesAgree :=
  Config.EmptyAllocators.hashesAgree fun v => by cases v <;> exact ⟨rfl, rfl⟩

/-- One thread runs `p` and is interrupted behind its first get by a thread that runs `q` to its end. -/
def interrupted {α : Type} (p q : Prog Bool α) (n : Nat) : List (Bool × Option (Request Bool α)) :=
  (true, some (.readWrite p.body)) :: List.replicate 6 (true, none) ++
  (false, some (.readWrite q.body)) :: List.replicate n (false, none)

theorem interrupted_reach {κ : Type} {x : BitVec 32} {prog : κ → Prog Bool (BitVec 32)} {l l' : κ} {n : Nat}
    {s : Sys Bool Bool (BitVec 32)}
    (h : Sys.run (accountsConfig x) (interrupted (prog l) (prog l') n) (.init (accountsConfig x)) = some s) :
    Sys.Reach (accountsConfig x) (CallsOf prog) s := by
  refine .of_run (fun m hm r hr => ?_) h
  simp only [interrupted, List.cons_append, List.mem_cons, List.mem_append, List.mem_replicate] at hm
  rcases hm with rfl | (⟨_, rfl⟩ | rfl | ⟨_, rfl⟩) <;> cases hr
  exacts [⟨l, rfl⟩, ⟨l', rfl⟩]

/-- Two calls that add to a counter, the second of which wraps it around. -/
def addFive : Bool × BitVec 32 := (false, 5)

def addAlmostAll : Bool × BitVec 32 := (false, 0xffffffff)

theorem adding_isSome : (Sys.run (accountsConfig 300) (interrupted (addTo addFive) (addTo addAlmostAll) 20)
    (.init (accountsConfig 300))).isSome = true := by
  decide

theorem noUpdate_lost_adding :
    let s := (Sys.run (accountsConfig 300) (interrupted (addTo addFive) (addTo addAlmostAll) 20)
      (.init (accountsConfig 300))).get adding_isSome
    (s.threads true).att.reads = [(false, 300)] ∧ s.shared.hist.finished.length = 1 ∧
    (s.shared.loadStorage false).load s.shared.cells = 299 ∧
    ∃ order ls, order.Perm s.shared.hist.commits ∧ Labelled addTo ls order ∧
      (∀ v, (∀ u, ¬ (s.threads u).PreStored v) →
        (s.shared.loadStorage v).load s.shared.cells = (accountsConfig 300).initValue v + added ls v) ∧
      ∀ t, (s.threads t).pc.phase = .attempt → ∃ k, ∀ p ∈ (s.threads t).att.reads,
        p.2 = (accountsConfig 300).initValue p.1 + added (ls.take k) p.1 :=
  ⟨by decide, by decide, by decide,
    noUpdate_lost (accountsConfig_hashesAgree 300) (interrupted_reach (Option.some_get adding_isSome).symm)⟩

/-! ## 3. test/transfer_funds.cpp -/

/-- A transfer between two accounts, which are of a signed type of `w` bits. -/
structure Transfer (ν : Type) (w : Nat) where
  source : ν
  target : ν
  amount : BitVec w
  distinct : source ≠ target
  nonneg : 0 ≤ amount.toInt

/-- The body of a thread of transfer_funds.cpp: if the source covers the amount it is moved, else `retry`. -/
def transfer {w : Nat} (l : Transfer ν w) : Prog ν (BitVec w) :=
  EasyVar.get l.source fun x =>
    if l.amount.sle x then
      EasyVar.assignOp (· + ·) l.target l.amount (EasyVar.assignOp (· - ·) l.source l.amount .ret)
    else .retry

/-- What an account has got. -/
def Transfer.into {w : Nat} (v : ν) (l : Transfer ν w) : Int :=
  if l.target = v then l.amount.toInt else if l.source = v then -l.amount.toInt else 0

/-- What the transfers leave in an account. -/
def balance {w : Nat} (cfg : Config ι ν (BitVec w)) (ls : List (Transfer ν w)) (v : ν) : Int :=
  (cfg.initValue v).toInt + (ls.map (Transfer.into v)).sum

/-- The accounts hold exactly what the transfers leave, none less than nothing and all together what they
    held at the beginning; and no addition or subtraction of a transfer that is covered overflows. -/
structure Balanced [Fintype ν] {w : Nat} (cfg : Config ι ν (BitVec w)) (ls : List (Transfer ν w))
    (m : ν → BitVec w) : Prop where
  exact : ∀ v, (m v).toInt = balance cfg ls v
  nonneg : ∀ v, 0 ≤ (m v).toInt
  total : ∑ v, (m v).toInt = ∑ v, (cfg.initValue v).toInt
  fits : ∀ l : Transfer ν w, l.amount.toInt ≤ (m l.source).toInt →
    (m l.target).saddOverflow l.amount = false ∧ (m l.source).ssubOverflow l.amount = false

section Transfers

variable {w : Nat} {cfg : Config ι ν (BitVec w)} {s : Sys ι ν (BitVec w)}

omit [DecidableEq ι] in
theorem balance_concat (ls : List (Transfer ν w)) (l : Transfer ν w) (v : ν) :
    balance cfg (ls ++ [l]) v = balance cfg ls v + l.into v := by
  simp [balance, Int.add_assoc]

/-- A transfer between different accounts leaves their total. -/
theorem sum_into [Fintype ν] (l : Transfer ν w) : ∑ v, l.into v = 0 := by
  have hinto : ∀ v, l.into v =
      (if l.target = v then l.amount.toInt else 0) + if l.source = v then -l.amount.toInt else 0 := by
    intro v
    unfold Transfer.into
    by_cases ht : l.target = v
    · rw [if_pos ht, if_pos ht, if_neg fun hs => l.distinct (hs.trans ht.symm), Int.add_zero]
    · rw [if_neg ht, if_neg ht, Int.zero_add]
  rw [Finset.sum_congr rfl fun v _ => hinto v, Finset.sum_add_distrib]
  simp

omit [DecidableEq ι] in
theorem sum_balance [Fintype ν] (ls : List (Transfer ν w)) :
    ∑ v, balance cfg ls v = ∑ v, (cfg.initValue v).toInt := by
  induction ls using List.reverseRecOn with
  | nil => simp [balance]
  | append_singleton ls l ih =>
      simp only [balance_concat, Finset.sum_add_distrib, ih, sum_into, Int.add_zero]

/-- Two accounts never hold more than all of them. -/
theorem add_le_total [Fintype ν] {m : ν → BitVec w} (hn : ∀ v, 0 ≤ (m v).toInt) {v v' : ν} (hne : v ≠ v') :
    (m v).toInt + (m v').toInt ≤ ∑ u, (m u).toInt := by
  rw [← Finset.sum_pair (f := fun u => (m u).toInt) hne]
  exact Finset.sum_le_sum_of_subset_of_nonneg (Finset.subset_univ _) fun u _ _ => hn u

omit [DecidableEq ι] in
/-- While the initial balances fit the type together, the balances are all that is left to show. -/
theorem Balanced.of_exact [Fintype ν] {ls : List (Transfer ν w)} {m : ν → BitVec w}
    (htotal : ∑ v, (cfg.initValue v).toInt < 2 ^ (w - 1)) (he : ∀ v, (m v).toInt = balance cfg ls v)
    (hn : ∀ v, 0 ≤ (m v).toInt) : Balanced cfg ls m := by
  have hsum : ∑ v, (m v).toInt = ∑ v, (cfg.initValue v).toInt :=
    (Finset.sum_congr rfl fun v _ => he v).trans (sum_balance ls)
  refine ⟨he, hn, hsum, fun l hl => ?_⟩
  have hpos : (0 : Int) < 2 ^ (w - 1) := Int.pow_pos (by decide)
  have hle := add_le_total hn l.distinct
  have hs := hn l.source
  have ht := hn l.target
  have ha := l.nonneg
  have hlt := (m l.source).toInt_lt
  constructor
  · simp only [BitVec.saddOverflow, Bool.or_eq_false_iff, decide_eq_false_iff_not]
    omega
  · simp only [BitVec.ssubOverflow, Bool.or_eq_false_iff, decide_eq_false_iff_not]
    omega

omit [DecidableEq ι] in
/-- One transfer, alone: it moves the amount if the source covers it, and does not return if not. -/
theorem transfer_run [Fintype ν] {ls : List (Transfer ν w)} {l : Transfer ν w} {m m' : ν → BitVec w}
    (htotal : ∑ v, (cfg.initValue v).toInt < 2 ^ (w - 1)) (hb : Balanced cfg ls m)
    (h : (transfer l).run m = some m') : Balanced cfg (ls ++ [l]) m' := by
  rw [transfer, EasyVar.run_get] at h
  split at h
  case isFalse => cases h
  case isTrue hle =>
    obtain rfl := Option.some.inj h
    rw [BitVec.sle_iff_toInt_le] at hle
    obtain ⟨hadd, hsub⟩ := hb.fits l hle
    have heq : ∀ v, (Function.update (Function.update m l.target (m l.target + l.amount)) l.source
        (Function.update m l.target (m l.target + l.amount) l.source - l.amount) v).toInt =
        (m v).toInt + l.into v := by
      intro v
      rw [Function.update_of_ne l.distinct]
      unfold Transfer.into
      by_cases hs : v = l.source
      · subst hs
        rw [Function.update_self, if_neg (Ne.symm l.distinct), if_pos rfl,
          BitVec.toInt_sub_of_not_ssubOverflow (Bool.eq_false_iff.mp hsub)]
        exact Int.sub_eq_add_neg
      · rw [Function.update_of_ne hs, if_neg (Ne.symm hs)]
        by_cases ht : v = l.target
        · subst ht
          rw [Function.update_self, if_pos rfl, BitVec.toInt_add_of_not_saddOverflow (Bool.eq_false_iff.mp hadd)]
        · rw [Function.update_of_ne ht, if_neg (Ne.symm ht), Int.add_zero]
    refine .of_exact htotal (fun v => ?_) fun v => ?_
    · exact (heq v).trans (by rw [hb.exact v, balance_concat])
    · refine (heq v).symm ▸ ?_
      have hv := hb.nonneg v
      have ha := l.nonneg
      unfold Transfer.into
      by_cases ht : l.target = v
      · rw [if_pos ht]
        omega
      · rw [if_neg ht]
        by_cases hs : l.source = v
        · subst hs
          rw [if_pos rfl]
          omega
        · rw [if_neg hs]
          omega

/-- **The transfers keep the balances.** Let no account hold less than nothing at the beginning and all of
    them together what their type can hold. Whatever transfers between whatever accounts the threads make, the
    accounts hold what the committed transfers leave, none is below zero, their total is the initial one and
    nothing overflows; and every attempt has seen accounts of which that is true. -/
theorem balances_kept [Fintype ν] (hag : cfg.HashesAgree) (hinit : ∀ v, 0 ≤ (cfg.initValue v).toInt)
    (htotal : ∑ v, (cfg.initValue v).toInt < 2 ^ (w - 1)) (h : Sys.Reach cfg (CallsOf transfer) s) :
    ∃ order ls, order.Perm s.shared.hist.commits ∧ Labelled transfer ls order ∧
      (∃ m : ν → BitVec w, Balanced cfg ls m ∧
        ∀ v, (∀ u, ¬ (s.threads u).PreStored v) → m v = (s.shared.loadStorage v).load s.shared.cells) ∧
      ∀ t, (s.threads t).pc.phase = .attempt → ∃ k, ∃ m : ν → BitVec w,
        Balanced cfg (ls.take k) m ∧ Agrees m (s.threads t).att.reads :=
  invariant_labelled hag h (.of_exact htotal (fun _ => (Int.add_zero _).symm) hinit)
    fun _ _ _ _ hrun hb => transfer_run htotal hb hrun

end Transfers

/-- The two threads of transfer_funds.cpp. -/
def twenty : Transfer Bool 32 := ⟨true, false, 20, by decide, by decide⟩

def thirty : Transfer Bool 32 := ⟨false, true, 30, by decide, by decide⟩

theorem transferring_isSome :
    (Sys.run (accountsConfig 300) (interrupted (transfer thirty) (transfer twenty) 34)
      (.init (accountsConfig 300))).isSome = true := by
  decide

theorem balances_kept_transferring :
    let s := (Sys.run (accountsConfig 300) (interrupted (transfer thirty) (transfer twenty) 34)
      (.init (accountsConfig 300))).get transferring_isSome
    (s.threads true).att.reads = [(false, 300)] ∧ s.shared.hist.finished.length = 1 ∧
    ∃ order ls, order.Perm s.shared.hist.commits ∧ Labelled transfer ls order ∧
      (∃ m : Bool → BitVec 32, Balanced (accountsConfig 300) ls m ∧
        ∀ v, (∀ u, ¬ (s.threads u).PreStored v) → m v = (s.shared.loadStorage v).load s.shared.cells) ∧
      ∀ t, (s.threads t).pc.phase = .attempt → ∃ k, ∃ m : Bool → BitVec 32,
        Balanced (accountsConfig 300) (ls.take k) m ∧ Agrees m (s.threads t).att.reads :=
  ⟨by decide, by decide, balances_kept (accountsConfig_hashesAgree 300) (fun v => by cases v <;> decide)
    (by decide) (interrupted_reach (Option.some_get transferring_isSome).symm)⟩

end LockfreeStm
