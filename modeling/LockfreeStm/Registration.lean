/-
  File:      LockfreeStm/Registration.lean
  Subject:   The fail callbacks of a thread over its transactions, in a build with NDEBUG: who
             registers them, and whose failure runs them.

  The thread_data overloads of memory.hpp register in every critical section. Only the read_write
  instances of `tx_failure_no_backoff` and `tx_success` (detail/atomic_base.hpp) run or clear the
  list; the read_only ones assert that it is empty.

  * `Attempt.run_readWrite`, `Attempt.run_readOnly` -- what a pass does with the list;
  * `runPasses_readWrite`, `runPasses_readOnly` -- what a transaction does with it;
  * **`kept_iff`** -- when every callback is run by the failure of its own attempt only.
-/
import LockfreeStm.Memory
import Mathlib.Data.List.Nodup

namespace LockfreeStm

namespace Registration

open AtomicBase Memory

/-! ## 1. Transactions -/

/-- A pass of `slow_path`: the version it announces, and the calls of its body. -/
structure Attempt where
  version : Epoch
  announces : version ≠ offState
  calls : List Taking

/-- A top-level transaction: the passes after which the loop went on, the last one, and whether an
    exception escaped from it. A failed commit ends a pass as `tx_retry` does. -/
structure Transaction where
  kind : TxKind
  starts : kind ≠ .none
  failed : List Attempt
  last : Attempt
  escapes : Bool

variable {ν α : Type}

/-- The body of a pass. -/
def Attempt.body (a : Attempt) : List Call := a.calls.map fun t => .take .threadData t

/-- A pass of the loop. -/
def Attempt.run (a : Attempt) (kind : TxKind) (e : World.PassEnd) (w : State ν α) : State ν α :=
  w.pass perform kind a.version (runBody a.body) e

/-- The fail callbacks it registers. -/
def Attempt.registered (a : Attempt) (w : State ν α) : List Callback :=
  (runBody a.body (w.onTd fun td => td.accessLock a.version)).td.failCallbacks.drop
    w.td.failCallbacks.length

/-- The passes of a transaction, and how they end. -/
def Transaction.passes (tx : Transaction) : List (Attempt × World.PassEnd) :=
  tx.failed.map (fun a => (a, .txRetry)) ++
    [(tx.last, if tx.escapes then .exception else .committed)]

/-- Passes, with as history the callbacks registered and whether their attempt failed. -/
def runPasses (kind : TxKind) : List (Attempt × World.PassEnd) → State ν α →
    State ν α × List (Callback × Bool)
  | [], w => (w, [])
  | (a, e) :: ps, w =>
    let rest := runPasses kind ps (a.run kind e w)
    (rest.1, (a.registered w).map (fun c => (c, decide (e ≠ .committed))) ++ rest.2)

/-- What a run has shown: `valid_start_state` at the start of each transaction, and the callbacks
    registered with whether their attempt failed. -/
structure History where
  starts : List Bool
  registered : List (Callback × Bool)

/-- `operator()` of `read_write` and `read_only`, one call after the other. -/
def run : List Transaction → State ν α → State ν α × History
  | [], w => (w, ⟨[], []⟩)
  | tx :: txs, w =>
    let own := runPasses tx.kind tx.passes (w.onTd fun td => td.setTxState tx.kind)
    let rest := run txs own.1
    (rest.1, ⟨w.td.validStartState :: rest.2.starts, own.2 ++ rest.2.registered⟩)

/-- **Every transaction starts clean, and a callback is run exactly if its attempt failed.** -/
structure Kept (out : State ν α × History) : Prop where
  starts : ∀ b ∈ out.2.starts, b = true
  callbacks : ∀ c failed, (c, failed) ∈ out.2.registered →
    out.1.env.ran.count c = if failed then 1 else 0

/-! ## 2. What a body registers -/

/-- The call registers a callback, in a critical section. -/
def registers : Taking → Bool
  | .allocate _ => true
  | .construct _ trivial throws => !(throws || trivial)
  | .allocateConstruct _ throws => !throws

def Attempt.Registers (a : Attempt) : Prop := ∃ t ∈ a.calls, registers t = true

theorem bodyCallbacks_bounds {next serial : Nat} {calls : List Call} :
    ∀ c ∈ bodyCallbacks next serial calls,
      serial ≤ c.serial ∧ c.serial < serial + bodySerials next calls := by
  induction calls generalizing next serial with
  | nil => intro c hc; cases hc
  | cons d ds ih =>
    intro c hc
    rw [bodySerials]
    rcases List.mem_append.mp hc with hc | hc
    · obtain ⟨act, hact, rfl⟩ := List.mem_map.mp hc
      have : 0 < (d.action next).toList.length := List.length_pos_of_mem hact
      rw [Call.serials]
      dsimp only
      omega
    · have := ih c hc
      omega

theorem bodyCallbacks_nodup {next serial : Nat} {calls : List Call} :
    (bodyCallbacks next serial calls).Nodup := by
  induction calls generalizing next serial with
  | nil => exact .nil
  | cons d ds ih =>
    rw [bodyCallbacks, List.nodup_append]
    refine ⟨?_, ih, ?_⟩
    · rw [Call.failCallbacks]
      cases d.action next with
      | none => exact .nil
      | some act => exact List.pairwise_singleton _ _
    · intro c hc b hb hcb
      subst hcb
      obtain ⟨act, hact, rfl⟩ := List.mem_map.mp hc
      have hpos : 0 < (d.action next).toList.length := List.length_pos_of_mem hact
      have := (bodyCallbacks_bounds _ hb).1
      rw [Call.serials] at this
      dsimp only at this
      omega

theorem bodyCallbacks_eq_nil {next serial : Nat} {ts : List Taking} :
    bodyCallbacks next serial (ts.map fun t => .take .threadData t) = [] ↔
      ∀ t ∈ ts, registers t = false := by
  induction ts generalizing next serial with
  | nil => simp [bodyCallbacks]
  | cons t ts ih =>
    have ht : (Call.take .threadData t).failCallbacks next serial = [] ↔ registers t = false := by
      cases t with
      | allocate count => simp [Call.failCallbacks, Call.action, Taking.action, registers]
      | construct a trivial throws =>
        cases throws <;> cases trivial <;>
          simp [Call.failCallbacks, Call.action, Taking.action, registers]
      | allocateConstruct trivial throws =>
        cases throws <;> simp [Call.failCallbacks, Call.action, Taking.action, registers]
    rw [List.map_cons, bodyCallbacks, List.append_eq_nil_iff, ht, ih, List.forall_mem_cons]

theorem laterAction_body (a : Attempt) : ∀ c ∈ a.body, c.laterAction = none := by
  intro c hc
  obtain ⟨t, -, rfl⟩ := List.mem_map.mp hc
  rfl

section Pass

variable {w : State ν α} {a : Attempt} {kind : TxKind} {e : World.PassEnd}

theorem inCriticalSection_lock (w : State ν α) (a : Attempt) :
    (w.onTd fun td => td.accessLock a.version).td.inCriticalSection = true := by
  simpa [World.onTd, TlsData.inCriticalSection, TlsData.accessLock] using a.announces

theorem Attempt.registered_eq :
    a.registered w = bodyCallbacks w.env.next w.env.serial a.body := by
  have hbody := runBody_spec a.body (inCriticalSection_lock w a)
  rw [Attempt.registered, hbody]
  exact List.drop_left

theorem Attempt.registered_eq_nil : a.registered w = [] ↔ ¬ a.Registers := by
  rw [Attempt.registered_eq, Attempt.body, bodyCallbacks_eq_nil]
  simp [Attempt.Registers]

/-- A callback registered in a pass is a new one. -/
theorem Attempt.registered_bounds : ∀ c ∈ a.registered w,
    w.env.serial ≤ c.serial ∧ c.serial < w.env.serial + bodySerials w.env.next a.body := by
  rw [Attempt.registered_eq]
  exact bodyCallbacks_bounds

/-- **A read_write pass**: on failure it runs the whole list, in any case it clears it. -/
theorem Attempt.run_readWrite (hk : kind ≠ .readOnly) :
    (a.run kind e w).td.validStartState = true ∧
      (a.run kind e w).env.serial = w.env.serial + bodySerials w.env.next a.body ∧
      (a.run kind e w).env.ran = w.env.ran ++
        if e = .committed then [] else (w.td.failCallbacks ++ a.registered w).reverse := by
  have hbody := runBody_spec a.body (inCriticalSection_lock w a)
  rw [Attempt.registered_eq]
  have hfail : ((a.run kind .txRetry w).td.validStartState = true ∧
      (a.run kind .txRetry w).env.serial = w.env.serial + bodySerials w.env.next a.body ∧
      (a.run kind .txRetry w).env.ran = w.env.ran ++
        (w.td.failCallbacks ++ bodyCallbacks w.env.next w.env.serial a.body).reverse) := by
    simp only [Attempt.run, World.pass, World.finish, World.txFailure, World.txFailureNoBackoff,
      hbody, if_pos hk, World.doFailCallbacks, foldl_perform]
    exact ⟨rfl, rfl, rfl⟩
  cases e with
  | committed =>
    simp only [Attempt.run, World.pass, World.finish, World.txSuccess, hbody, if_pos hk, if_true]
    exact ⟨rfl, rfl, (List.append_nil _).symm⟩
  | commitFailed => exact hfail
  | txRetry => exact hfail
  | exception => exact hfail

/-- **A read_only pass** leaves its callbacks in the list, and runs none. -/
theorem Attempt.run_readOnly :
    (a.run .readOnly e w).td.failCallbacks = w.td.failCallbacks ++ a.registered w ∧
      (a.run .readOnly e w).td.readSet = w.td.readSet ∧
      (a.run .readOnly e w).td.writeSet = w.td.writeSet ∧
      (a.run .readOnly e w).td.workingEpoch = w.td.workingEpoch ∧
      (a.run .readOnly e w).env.serial = w.env.serial + bodySerials w.env.next a.body ∧
      (a.run .readOnly e w).env.ran = w.env.ran := by
  have hbody := runBody_spec a.body (inCriticalSection_lock w a)
  rw [bodyLater_eq_nil _ _ (laterAction_body a)] at hbody
  rw [Attempt.registered_eq]
  have hk : ¬ (TxKind.readOnly ≠ .readOnly) := fun h => h rfl
  have hwork : w.td.workingEpoch ++ [] = w.td.workingEpoch := List.append_nil _
  have he : e = .committed ∨ e = .commitFailed ∨ e = .txRetry ∨ e = .exception := by
    cases e <;> simp
  rcases he with rfl | rfl | rfl | rfl
  · simp only [Attempt.run, World.pass, World.finish, World.txSuccess, hbody, if_neg hk]
    exact ⟨rfl, rfl, rfl, hwork, rfl, rfl⟩
  · simp only [Attempt.run, World.pass, World.finish, World.txFailure, World.txFailureNoBackoff,
      hbody, if_neg hk]
    exact ⟨rfl, rfl, rfl, hwork, rfl, rfl⟩
  · simp only [Attempt.run, World.pass, World.finish, World.txFailure, World.txFailureNoBackoff,
      hbody, if_neg hk]
    exact ⟨rfl, rfl, rfl, hwork, rfl, rfl⟩
  · simp only [Attempt.run, World.pass, World.finish, World.unhandledException,
      World.txFailureNoBackoff, hbody, if_neg hk]
    exact ⟨rfl, rfl, rfl, hwork, rfl, rfl⟩

end Pass

/-! ## 3. Over a run -/

section Run

variable {w : State ν α} {kind : TxKind} {ps : List (Attempt × World.PassEnd)}

/-- The callbacks in the list were made from number `s` on. -/
def Above (s : Nat) (w : State ν α) : Prop :=
  s ≤ w.env.serial ∧ ∀ c ∈ w.td.failCallbacks, s ≤ c.serial

theorem failCallbacks_of_validStartState (h : w.td.validStartState = true) :
    w.td.failCallbacks = [] := by
  simp only [TlsData.validStartState, Bool.and_eq_true, List.isEmpty_iff] at h
  exact h.1.2

/-- A pass runs none of the callbacks that were made before those in the list. -/
theorem Attempt.run_above (kind : TxKind) {s : Nat} (h : Above s w) (a : Attempt)
    (e : World.PassEnd) :
    Above s (a.run kind e w) ∧
      ∀ c : Callback, c.serial < s → (a.run kind e w).env.ran.count c = w.env.ran.count c := by
  obtain ⟨hs, hfc⟩ := h
  have hnew : ∀ c ∈ w.td.failCallbacks ++ a.registered w, s ≤ c.serial := by
    intro c hc
    rcases List.mem_append.mp hc with hc | hc
    · exact hfc c hc
    · exact Nat.le_trans hs (Attempt.registered_bounds c hc).1
  by_cases hk : kind = .readOnly
  · subst hk
    obtain ⟨hlist, -, -, -, hserial, hran⟩ := Attempt.run_readOnly (a := a) (e := e) (w := w)
    refine ⟨⟨?_, ?_⟩, fun c _ => ?_⟩
    · rw [hserial]
      exact Nat.le_trans hs (Nat.le_add_right _ _)
    · rw [hlist]
      exact hnew
    · rw [hran]
  · obtain ⟨hvalid, hserial, hran⟩ := Attempt.run_readWrite (a := a) (e := e) (w := w) hk
    refine ⟨⟨?_, ?_⟩, fun c hc => ?_⟩
    · rw [hserial]
      exact Nat.le_trans hs (Nat.le_add_right _ _)
    · rw [failCallbacks_of_validStartState hvalid]
      intro c hc
      cases hc
    · have hzero : (w.td.failCallbacks ++ a.registered w).reverse.count c = 0 :=
        List.count_eq_zero_of_not_mem fun hm =>
          absurd (hnew c (List.mem_reverse.mp hm)) (Nat.not_le_of_lt hc)
      rw [hran, List.count_append]
      split
      · rfl
      · rw [hzero, Nat.add_zero]

theorem runPasses_above (kind : TxKind) (ps : List (Attempt × World.PassEnd)) {s : Nat}
    (h : Above s w) :
    Above s (runPasses kind ps w).1 ∧ ∀ c : Callback, c.serial < s →
      (runPasses kind ps w).1.env.ran.count c = w.env.ran.count c := by
  induction ps generalizing w with
  | nil => exact ⟨h, fun _ _ => rfl⟩
  | cons p ps ih =>
    obtain ⟨ha, hcount⟩ := Attempt.run_above kind h p.1 p.2
    obtain ⟨ha', hcount'⟩ := ih ha
    exact ⟨ha', fun c hc => (hcount' c hc).trans (hcount c hc)⟩

theorem run_above {s : Nat} {txs : List Transaction} (h : Above s w) :
    ∀ c : Callback, c.serial < s → (run txs w).1.env.ran.count c = w.env.ran.count c := by
  induction txs generalizing w with
  | nil => exact fun _ _ => rfl
  | cons tx txs ih =>
    intro c hc
    have hset : Above s (w.onTd fun td => td.setTxState tx.kind) := h
    obtain ⟨ha, hcount⟩ := runPasses_above tx.kind tx.passes hset
    exact (ih ha c hc).trans (hcount c hc)

/-- Every callback that was run has a number that was given out. -/
def Given (w : State ν α) : Prop := ∀ c ∈ w.env.ran, c.serial < w.env.serial

/-- **The passes of a read_write transaction**: the list is clear after each of them, and each
    callback has been run exactly if its attempt failed. -/
theorem runPasses_readWrite (ps : List (Attempt × World.PassEnd)) (hk : kind ≠ .readOnly)
    (hw : w.td.validStartState = true) (hg : Given w) :
    (runPasses kind ps w).1.td.validStartState = true ∧ Given (runPasses kind ps w).1 ∧
      w.env.serial ≤ (runPasses kind ps w).1.env.serial ∧
      ∀ c failed, (c, failed) ∈ (runPasses kind ps w).2 →
        c.serial < (runPasses kind ps w).1.env.serial ∧
          (runPasses kind ps w).1.env.ran.count c = if failed then 1 else 0 := by
  induction ps generalizing w with
  | nil => exact ⟨hw, hg, Nat.le_refl _, fun _ _ h => (by cases h)⟩
  | cons p ps ih =>
    obtain ⟨a, e⟩ := p
    obtain ⟨hvalid, hserial, hran⟩ := Attempt.run_readWrite (a := a) (e := e) (w := w) hk
    rw [failCallbacks_of_validStartState hw, List.nil_append] at hran
    have hmem : ∀ c ∈ (a.run kind e w).env.ran, c ∈ w.env.ran ∨ c ∈ a.registered w := by
      intro c hc
      rw [hran, List.mem_append] at hc
      refine hc.imp_right fun hc => ?_
      split at hc
      · cases hc
      · exact List.mem_reverse.mp hc
    have hg' : Given (a.run kind e w) := by
      intro c hc
      rw [hserial]
      rcases hmem c hc with hc | hc
      · exact Nat.lt_of_lt_of_le (hg c hc) (Nat.le_add_right _ _)
      · exact (Attempt.registered_bounds c hc).2
    obtain ⟨ihv, ihg, ihle, ihc⟩ := ih hvalid hg'
    have hle : w.env.serial ≤ (a.run kind e w).env.serial := by
      rw [hserial]
      exact Nat.le_add_right _ _
    refine ⟨ihv, ihg, Nat.le_trans hle ihle, fun c failed hc => ?_⟩
    rcases List.mem_append.mp hc with hc | hc
    · obtain ⟨d, hd, hde⟩ := List.mem_map.mp hc
      cases hde
      obtain ⟨hlo, hhi⟩ := Attempt.registered_bounds _ hd
      rw [← hserial] at hhi
      have habove : Above (a.run kind e w).env.serial (a.run kind e w) := by
        refine ⟨Nat.le_refl _, ?_⟩
        rw [failCallbacks_of_validStartState hvalid]
        intro c hc
        cases hc
      refine ⟨Nat.lt_of_lt_of_le hhi ihle, ?_⟩
      rw [runPasses, (runPasses_above kind ps habove).2 c hhi, hran, List.count_append,
        List.count_eq_zero_of_not_mem fun hm => absurd (hg c hm) (Nat.not_lt_of_le hlo),
        Nat.zero_add]
      by_cases he : e = .committed
      · subst he
        rfl
      · rw [if_neg he, if_pos (decide_eq_true he), List.count_reverse, Attempt.registered_eq]
        rw [Attempt.registered_eq] at hd
        exact List.count_eq_one_of_mem bodyCallbacks_nodup hd
    · exact ihc c failed hc

/-- **The passes of a read_only transaction** add what they register to the list and run none. -/
theorem runPasses_readOnly (w : State ν α) (ps : List (Attempt × World.PassEnd)) :
    (runPasses .readOnly ps w).1.td.failCallbacks =
        w.td.failCallbacks ++ (runPasses .readOnly ps w).2.map (·.1) ∧
      (runPasses .readOnly ps w).1.td.readSet = w.td.readSet ∧
      (runPasses .readOnly ps w).1.td.writeSet = w.td.writeSet ∧
      (runPasses .readOnly ps w).1.td.workingEpoch = w.td.workingEpoch ∧
      w.env.serial ≤ (runPasses .readOnly ps w).1.env.serial ∧
      (runPasses .readOnly ps w).1.env.ran = w.env.ran ∧
      (∀ c ∈ (runPasses .readOnly ps w).2, w.env.serial ≤ c.1.serial) ∧
      ((runPasses .readOnly ps w).2.filter (·.2) = [] ↔
        ∀ p ∈ ps, p.2 ≠ .committed → ¬ p.1.Registers) ∧
      ((runPasses .readOnly ps w).2 = [] ↔ ∀ p ∈ ps, ¬ p.1.Registers) := by
  induction ps generalizing w with
  | nil => simp [runPasses]
  | cons p ps ih =>
    obtain ⟨a, e⟩ := p
    obtain ⟨hlist, hrs, hws, hwork, hserial, hran⟩ :=
      Attempt.run_readOnly (a := a) (e := e) (w := w)
    obtain ⟨ihlist, ihrs, ihws, ihwork, ihle, ihran, ihlo, ihf, ihn⟩ :=
      ih (a.run .readOnly e w)
    have hle : w.env.serial ≤ (a.run .readOnly e w).env.serial := by
      rw [hserial]
      exact Nat.le_add_right _ _
    refine ⟨?_, ihrs.trans hrs, ihws.trans hws, ihwork.trans hwork, Nat.le_trans hle ihle,
      ihran.trans hran, ?_, ?_, ?_⟩
    · rw [runPasses, ihlist, hlist, List.append_assoc]
      simp [Function.comp_def]
    · intro c hc
      rcases List.mem_append.mp hc with hc | hc
      · obtain ⟨d, hd, rfl⟩ := List.mem_map.mp hc
        exact (Attempt.registered_bounds d hd).1
      · exact Nat.le_trans hle (ihlo c hc)
    · rw [runPasses, List.filter_append, List.append_eq_nil_iff, ihf, List.forall_mem_cons]
      refine and_congr_left' ?_
      rw [← Attempt.registered_eq_nil (w := w), List.filter_map]
      by_cases he : e = .committed
      · simp [he, Function.comp_def]
      · simp [he, Function.comp_def]
    · rw [runPasses, List.append_eq_nil_iff, ihn, List.forall_mem_cons, List.map_eq_nil_iff,
        Attempt.registered_eq_nil]

end Run

/-! ## 4. Transactions that keep to themselves -/

/-- An attempt of a read_only transaction that registers a fail callback is the successful attempt
    of the last transaction. -/
def Confined : List Transaction → Prop
  | [] => True
  | tx :: txs =>
    (tx.kind = .readOnly → (∀ a ∈ tx.failed, ¬ a.Registers) ∧
      (tx.last.Registers → txs = [] ∧ tx.escapes = false)) ∧ Confined txs

/-- A thread with nothing in its lists, over memory in which no callback was made yet. -/
def newThread (next : Nat) (log : List Event) : State ν α := ⟨.init, ⟨next, log, 0, []⟩⟩

theorem forall_passes {tx : Transaction} {P : Attempt × World.PassEnd → Prop} :
    (∀ p ∈ tx.passes, P p) ↔ (∀ a ∈ tx.failed, P (a, .txRetry)) ∧
      P (tx.last, if tx.escapes then .exception else .committed) := by
  rw [Transaction.passes, List.forall_mem_append, List.forall_mem_map, List.forall_mem_singleton]

section Confined

variable {w : State ν α} {tx : Transaction} {txs : List Transaction}

/-- What `Kept` says of the transactions after the first. -/
theorem kept_of_cons (h : Kept (run (tx :: txs) w)) :
    Kept (run txs (runPasses tx.kind tx.passes (w.onTd fun td => td.setTxState tx.kind)).1) :=
  ⟨fun b hb => h.starts b (List.mem_cons_of_mem _ hb),
    fun c failed hc => h.callbacks c failed (List.mem_append_right _ hc)⟩

/-- `Kept` for a run with a transaction whose callbacks are as they should be and whose list is
    empty afterwards. -/
theorem kept_cons_of_clear (hw : w.td.validStartState = true)
    (hclear : (runPasses tx.kind tx.passes (w.onTd fun td =>
      td.setTxState tx.kind)).1.td.validStartState = true)
    (hown : ∀ c failed, (c, failed) ∈ (runPasses tx.kind tx.passes (w.onTd fun td =>
        td.setTxState tx.kind)).2 →
      c.serial < (runPasses tx.kind tx.passes (w.onTd fun td =>
        td.setTxState tx.kind)).1.env.serial ∧
      (runPasses tx.kind tx.passes (w.onTd fun td => td.setTxState tx.kind)).1.env.ran.count c =
        if failed then 1 else 0)
    (hrest : Kept (run txs (runPasses tx.kind tx.passes (w.onTd fun td =>
      td.setTxState tx.kind)).1)) :
    Kept (run (tx :: txs) w) := by
  constructor
  · intro b hb
    rcases List.mem_cons.mp hb with rfl | hb
    · exact hw
    · exact hrest.starts b hb
  · intro c failed hc
    rcases List.mem_append.mp hc with hc | hc
    · obtain ⟨hlt, hcount⟩ := hown c failed hc
      refine (run_above ⟨Nat.le_refl _, ?_⟩ c hlt).trans hcount
      rw [failCallbacks_of_validStartState hclear]
      intro d hd
      cases hd
    · exact hrest.callbacks c failed hc

/-- A read_only transaction that registers nothing leaves the lists as they were. -/
theorem runPasses_readOnly_clear {ps : List (Attempt × World.PassEnd)}
    (hw : w.td.validStartState = true) (hnone : (runPasses .readOnly ps w).2 = []) :
    (runPasses .readOnly ps w).1.td.validStartState = true := by
  obtain ⟨hlist, hrs, hws, hwork, -⟩ := runPasses_readOnly w ps
  rw [hnone, List.map_nil, List.append_nil] at hlist
  rw [TlsData.validStartState, hrs, hws, hlist, hwork]
  exact hw

/-- What a failed read_only attempt registered is not run by its own transaction. -/
theorem not_ran_of_readOnly {ps : List (Attempt × World.PassEnd)} (hg : Given w) {c : Callback}
    {failed : Bool} (hc : (c, failed) ∈ (runPasses .readOnly ps w).2) :
    (runPasses .readOnly ps w).1.env.ran.count c = 0 := by
  obtain ⟨-, -, -, -, -, hran, hlo, -⟩ := runPasses_readOnly w ps
  rw [hran]
  refine List.count_eq_zero_of_not_mem fun hm => ?_
  exact absurd (hg c hm) (Nat.not_lt_of_le (hlo _ hc))

/-- The attempts of a read_only transaction, by how they end. -/
theorem readOnly_registered (w : State ν α) (tx : Transaction) :
    ((runPasses .readOnly tx.passes w).2.filter (·.2) = [] ↔
      (∀ a ∈ tx.failed, ¬ a.Registers) ∧ (tx.escapes = true → ¬ tx.last.Registers)) ∧
    ((runPasses .readOnly tx.passes w).2 = [] ↔
      (∀ a ∈ tx.failed, ¬ a.Registers) ∧ ¬ tx.last.Registers) := by
  obtain ⟨-, -, -, -, -, -, -, hfailed, hnone⟩ := runPasses_readOnly w tx.passes
  rw [forall_passes] at hfailed hnone
  refine ⟨hfailed.trans (and_congr ?_ ?_), hnone⟩
  · exact forall₂_congr fun a _ => ⟨fun h => h World.PassEnd.noConfusion, fun h _ => h⟩
  · cases tx.escapes with
    | false => exact ⟨fun _ h => absurd h Bool.false_ne_true, fun _ h => absurd rfl h⟩
    | true => exact ⟨fun h _ => h World.PassEnd.noConfusion, fun h _ => h rfl⟩

/-- A read_only transaction that is the last one. -/
theorem kept_single_readOnly (hk : tx.kind = .readOnly) (hw : w.td.validStartState = true)
    (hg : Given w) : Kept (run [tx] w) ↔ Confined [tx] := by
  obtain ⟨kind, hkind, failed, last, escapes⟩ := tx
  cases hk
  let tx : Transaction := ⟨.readOnly, hkind, failed, last, escapes⟩
  let w₀ := w.onTd fun td => td.setTxState .readOnly
  have hg₀ : Given w₀ := hg
  obtain ⟨hfailed, -⟩ := readOnly_registered w₀ tx
  have hrun : run [tx] w = ((runPasses .readOnly tx.passes w₀).1,
      ⟨[w.td.validStartState], (runPasses .readOnly tx.passes w₀).2⟩) := by
    rw [run, run, List.append_nil]
  rw [hrun]
  constructor
  · intro h
    have hnil : (runPasses .readOnly tx.passes w₀).2.filter (·.2) = [] := by
      refine List.eq_nil_iff_forall_not_mem.mpr fun p hp => ?_
      obtain ⟨hp, htrue⟩ := List.mem_filter.mp hp
      have hone := h.callbacks p.1 p.2 hp
      have hzero : (runPasses .readOnly tx.passes w₀).1.env.ran.count p.1 = 0 :=
        not_ran_of_readOnly hg₀ hp
      rw [htrue, if_pos rfl, hzero] at hone
      exact Nat.zero_ne_one hone
    obtain ⟨hf, hl⟩ := hfailed.mp hnil
    exact ⟨fun _ => ⟨hf, fun hr => ⟨rfl, Bool.eq_false_iff.mpr fun he => hl he hr⟩⟩, trivial⟩
  · intro h
    obtain ⟨hf, hl⟩ := h.1 rfl
    have hnil := hfailed.mpr ⟨hf, fun he hr => by rw [(hl hr).2] at he; cases he⟩
    refine ⟨fun b hb => (List.mem_singleton.mp hb).trans hw, fun c failed hc => ?_⟩
    rw [not_ran_of_readOnly hg₀ hc]
    cases failed with
    | false => rfl
    | true =>
      have hmem : (c, true) ∈ (runPasses .readOnly tx.passes w₀).2.filter (·.2) :=
        List.mem_filter.mpr ⟨hc, rfl⟩
      rw [hnil] at hmem
      cases hmem

/-- A read_only transaction before another one: that one starts clean only if nothing was
    registered. -/
theorem kept_cons_readOnly {tx' : Transaction} (hk : tx.kind = .readOnly)
    (hw : w.td.validStartState = true) (hg : Given w)
    (ih : ∀ {w : State ν α}, w.td.validStartState = true → Given w →
      (Kept (run (tx' :: txs) w) ↔ Confined (tx' :: txs))) :
    Kept (run (tx :: tx' :: txs) w) ↔ Confined (tx :: tx' :: txs) := by
  obtain ⟨kind, hkind, failed, last, escapes⟩ := tx
  cases hk
  let tx : Transaction := ⟨.readOnly, hkind, failed, last, escapes⟩
  let w₀ := w.onTd fun td => td.setTxState .readOnly
  have hw₀ : w₀.td.validStartState = true := hw
  obtain ⟨-, hnone⟩ := readOnly_registered w₀ tx
  obtain ⟨hlist, -, -, -, hle, hran, -⟩ := runPasses_readOnly w₀ tx.passes
  have hg' : Given (runPasses .readOnly tx.passes w₀).1 := by
    intro c hc
    rw [hran] at hc
    exact Nat.lt_of_lt_of_le (hg c hc) hle
  constructor
  · intro h
    have hstart : (runPasses .readOnly tx.passes w₀).1.td.validStartState = true :=
      h.starts _ (List.mem_cons_of_mem _ List.mem_cons_self)
    rw [failCallbacks_of_validStartState hstart, failCallbacks_of_validStartState hw₀,
      List.nil_append] at hlist
    obtain ⟨hf, hl⟩ := hnone.mp (List.map_eq_nil_iff.mp hlist.symm)
    exact ⟨fun _ => ⟨hf, fun hr => absurd hr hl⟩, (ih hstart hg').mp (kept_of_cons h)⟩
  · intro h
    obtain ⟨hf, hl⟩ := h.1 rfl
    have hnil := hnone.mpr ⟨hf, fun hr => by cases (hl hr).1⟩
    have hstart := runPasses_readOnly_clear hw₀ hnil
    refine kept_cons_of_clear hw hstart (fun c failed hc => ?_) ((ih hstart hg').mpr h.2)
    have hc : (c, failed) ∈ (runPasses .readOnly tx.passes w₀).2 := hc
    rw [hnil] at hc
    cases hc

/-- The transactions of a run that starts clean keep to themselves exactly if they are confined. -/
theorem kept_iff_confined (hw : w.td.validStartState = true) (hg : Given w) :
    Kept (run txs w) ↔ Confined txs := by
  induction txs generalizing w with
  | nil => exact ⟨fun _ => trivial, fun _ => ⟨fun _ h => (by cases h), fun _ _ h => (by cases h)⟩⟩
  | cons tx txs ih =>
    have hset : (w.onTd fun td => td.setTxState tx.kind).td.validStartState = true := hw
    have hgset : Given (w.onTd fun td => td.setTxState tx.kind) := hg
    by_cases hk : tx.kind = .readOnly
    · cases txs with
      | nil => exact kept_single_readOnly hk hw hg
      | cons tx' txs => exact kept_cons_readOnly hk hw hg ih
    · obtain ⟨hclear, hg', -, hown⟩ := runPasses_readWrite tx.passes hk hset hgset
      constructor
      · exact fun h => ⟨fun h' => absurd h' hk, (ih hclear hg').mp (kept_of_cons h)⟩
      · exact fun h => kept_cons_of_clear hw hclear hown ((ih hclear hg').mpr h.2)

end Confined

/-- **When each callback is run by the failure of its own attempt only**, and every transaction of
    a thread starts clean: exactly if no attempt of a read_only transaction registers a fail
    callback, but for the successful one of the thread's last transaction. -/
theorem kept_iff {next : Nat} {log : List Event} {txs : List Transaction} :
    Kept (run txs (newThread next log : State ν α)) ↔ Confined txs :=
  kept_iff_confined rfl fun _ h => (by cases h)

/-- An attempt that allocates one element. -/
def allocates : Attempt := ⟨5, by decide, [.allocate 1]⟩

/-- An attempt that does nothing. -/
def idle : Attempt := ⟨5, by decide, []⟩

/-- The block a read_only transaction took is deallocated by the failure of the next transaction. -/
theorem readOnly_block_freed :
    ¬ Kept (run [⟨.readOnly, by decide, [], allocates, false⟩,
      ⟨.readWrite, by decide, [idle], idle, false⟩] (newThread 0 [] : State Nat Nat)) := by
  intro h
  have hcount := h.callbacks ⟨0, .deallocate 0 1⟩ false (by decide)
  exact absurd hcount (by decide)

end Registration

end LockfreeStm
