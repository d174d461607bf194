/-
  File:      LockfreeStm/Machine/OwnWrites.lean
  Subject:   READ YOUR OWN WRITES: what the gets of an attempt return that nobody interferes with.

  Every get looks the var up in the write set first, and the write set answers through its filter.
  `rw_write` of a heap var fills the filter with the hash of the var, every other function asks it
  for the hash of the var_base. Where the two are one bit for every heap var, no entry is ever
  hidden; where they are not, the first get after a set on the fast path misses the entry, and so
  does the next set, which adds a second one.

  * `OwnReads` -- the log of a body whose gets return the value last set, or what a memory holds.
  * `ownReads_reach` -- where the hashes agree, every running body of gets and sets has such a log
    over every memory its reads agree with, in every interleaving.
  * `Sys.Solo`, `ReadsOwnWrites` -- an attempt that runs alone, and what is asked of it.
  * `readsOwnWrites_iff` -- **the main result**: attempts that run alone read their own writes if and
    only if the two hashes of every heap var agree.
-/
import LockfreeStm.Machine.Serial

namespace LockfreeStm

variable {ι ν α : Type}

/-! ## 1. A body that reads its own writes -/

/-- A get, tracked or not, a nested call, a set, or the end. -/
def Op.isPlain : Op ν α → Bool
  | .get _ | .untrackedGet _ | .nestedAtomic | .set _ _ | .ret => true
  | _ => false

section OwnReads

variable [DecidableEq ν]

/-- The log of a body whose gets return the value it has set last, or else what `m` holds; `cur` is
    what the next get of each var returns. -/
inductive OwnReads (body : Body ν α) (m : ν → α) : Log α → (ν → α) → Prop where
  | start : OwnReads body m [] m
  | get {log : Log α} {cur : ν → α} {v : ν} (h : OwnReads body m log cur)
      (hop : body log = .get v ∨ body log = .untrackedGet v) :
      OwnReads body m (log ++ [some (cur v)]) cur
  | set {log : Log α} {cur : ν → α} {v : ν} {x : α} (h : OwnReads body m log cur)
      (hop : body log = .set v x) : OwnReads body m (log ++ [none]) (Function.update cur v x)
  | nested {log : Log α} {cur : ν → α} (h : OwnReads body m log cur)
      (hop : body log = .nestedAtomic) : OwnReads body m (log ++ [none]) cur

/-- Anything but `retry` and an exception. -/
def Op.goesOn : Op ν α → Bool
  | .retry | .throw => false
  | _ => true

omit [DecidableEq ν] in
theorem Op.goesOn_of_isPlain {op : Op ν α} (h : op.isPlain = true) : op.goesOn = true := by
  cases op <;> first | rfl | cases h

theorem OwnReads.account (body : Body ν α) (m : ν → α) :
    Account Op.isPlain body m (OwnReads body m) where
  start := .start
  get h _ hop := h.get hop
  set h hop := h.set hop
  other h hok hop := by
    rcases hop with ⟨id, hop | hop⟩ | hop
    · rw [hop] at hok
      cases hok
    · rw [hop] at hok
      cases hok
    · exact h.nested hop
  notReadOnly _ := rfl

end OwnReads

/-- A read_write call of a body that does nothing else. -/
def Thread.IsPlain (th : Thread ι ν α) : Prop :=
  th.kind = .readWrite ∧ ∀ log, (th.body log).isPlain = true

variable [DecidableEq ι] [DecidableEq ν] {cfg : Config ι ν α}

/-- **In every interleaving a running body reads its own writes**, over every memory that agrees with
    what it has read. -/
theorem ownReads_reach {ok : Request ν α → Prop} {s : Sys ι ν α} (hag : cfg.HashesAgree)
    (h : Sys.Reach cfg ok s) (t : ι) (hp : (s.threads t).IsPlain) {m : ν → α}
    (hm : Agrees m (s.threads t).att.reads) :
    AccountAt (OwnReads (s.threads t).body m) s.shared.cells (s.threads t) m (s.threads t).pc :=
  account_reach OwnReads.account hag h t hp hm

/-! ## 2. An attempt that runs alone -/

namespace Sys

/-- The value in a var. -/
def value (s : Sys ι ν α) (v : ν) : α := (s.shared.loadStorage v).load s.shared.cells

/-- Thread `t` has read the clock for an attempt of a body of gets and sets, and nobody is in its way:
    no var is locked or has a later version. -/
structure Undisturbed (s : Sys ι ν α) (t : ι) : Prop where
  pc : (s.threads t).pc = .accessLock
  plain : (s.threads t).IsPlain
  quiet : ∀ v, s.shared.loadVersion v ≤ (s.threads t).version

/-- The states of an attempt in which only thread `t` moves, up to the end of its body. -/
inductive Solo (cfg : Config ι ν α) (t : ι) (s₀ : Sys ι ν α) : Sys ι ν α → Prop where
  | refl : Solo cfg t s₀ s₀
  | step {s s' : Sys ι ν α} (h : Solo cfg t s₀ s) (hpc : (s.threads t).pc ≠ .tryCommit)
      (hs : s.step cfg t none = some s') : Solo cfg t s₀ s'

variable {t : ι} {s₀ s s' : Sys ι ν α}

theorem Solo.trans (h : Solo cfg t s₀ s) (h' : Solo cfg t s s') : Solo cfg t s₀ s' := by
  induction h' with
  | refl => exact h
  | step _ hpc hs ih => exact .step ih hpc hs

theorem Solo.reach {ok : Request ν α → Prop} (h : Solo cfg t s₀ s) (hr : Reach cfg ok s₀) :
    Reach cfg ok s := by
  induction h with
  | refl => exact hr
  | step _ _ hs ih => exact .step ih (fun _ hr => by cases hr) hs

end Sys

/-- What is asked of state `s` of an attempt that began in `s₀`: its gets have returned the values last
    set, or else the committed ones; no var has two entries; the operation under way returns. -/
structure ReadsOwnWrites (cfg : Config ι ν α) (t : ι) (s₀ s : Sys ι ν α) : Prop where
  log : ∃ cur, OwnReads (s.threads t).body (latestValue cfg s₀.shared.hist.commits)
    (s.threads t).log cur
  nodup : (s.threads t).td.writeSet.vars.Nodup
  returns : (s.threads t).body (s.threads t).log ≠ .ret → ∃ s', Sys.Solo cfg t s s' ∧
    (s'.threads t).pc = .call ∧ (s'.threads t).log.length = (s.threads t).log.length + 1

/-! ## 3. One step of it -/

/-- The places of an attempt up to the end of its body. -/
def PC.upToCommit : PC ι ν α → Bool
  | .accessLock | .tryCommit => true
  | pc => pc.inBody

/-- How far a place is from the end of its operation, where no version is invalid. -/
def PC.rank : PC ι ν α → Nat
  | .accessLock => 4
  | .call => 3
  | .readStorage _ _ | .writeVersion _ _ | .writeSlowStorage _ _ | .atomicWriteVersion _ _ => 2
  | .readVersion _ _ _ | .readPending _ _ | .writeCurStorage _ _ | .writeSlowVersion _ _ _
  | .writePendingVersion _ _ _ | .atomicWriteSlowVersion _ => 1
  | _ => 0

/-- A step inside an operation: it returns, or the thread comes closer to that. -/
def Advances (th th' : Thread ι ν α) : Prop :=
  th'.pc = .call ∧ th'.log.length = th.log.length + 1 ∨
    th'.log = th.log ∧ th'.pc.rank < th.pc.rank ∧ th'.pc.upToCommit = true

section Step

variable {sh : Shared ι ν α} {t : ι} {th : Thread ι ν α} {opened : ι → Option Nat}

omit [DecidableEq ι] [DecidableEq ν] in
/-- Going to a place that is closer to the end of the operation. -/
theorem Advances.goto {pc' : PC ι ν α} (hr : pc'.rank < th.pc.rank)
    (hu : pc'.upToCommit = true) : Advances th (th.goto pc') :=
  Or.inr ⟨rfl, hr, hu⟩

omit [DecidableEq ι] [DecidableEq ν] in
theorem Advances.opReturns (th' : Thread ι ν α) (hl : th'.log = th.log) (r : Option α) :
    Advances th (th'.opReturns r) :=
  Or.inl ⟨rfl, by rw [← hl]; exact List.length_append⟩

omit [DecidableEq ι] in
/-- The slow path of a get finds the entry it goes to. -/
theorem rwReadSlowPath_advances (hr : 2 < th.pc.rank) (tracked : Bool) (v : ν) :
    ∃ th', th.rwReadSlowPath cfg tracked v = some th' ∧ Advances th th' := by
  unfold Thread.rwReadSlowPath
  split
  · exact ⟨_, rfl, .goto hr rfl⟩
  · rename_i i hf
    obtain ⟨e, he, _⟩ := PodHashSet.find_eq_some hf
    rw [he]
    exact ⟨_, rfl, .goto (Nat.lt_of_succ_lt hr) rfl⟩

omit [DecidableEq ι] in
theorem rwReadBase_advances (hr : 2 < th.pc.rank) (tracked : Bool) (v : ν) :
    ∃ th', th.rwReadBase cfg tracked v = some th' ∧ Advances th th' := by
  unfold Thread.rwReadBase
  split
  · exact ⟨_, rfl, .goto hr rfl⟩
  · exact rwReadSlowPath_advances hr tracked v

omit [DecidableEq ι] in
theorem rwWrite_advances (hr : 2 < th.pc.rank) (v : ν) (x : α) :
    ∃ th', th.rwWrite cfg v x = some th' ∧ Advances th th' := by
  unfold Thread.rwWrite
  split
  · unfold Thread.rwWriteSlowPath
    split
    · exact ⟨_, rfl, .goto hr rfl⟩
    · rename_i i hl
      obtain ⟨e, he, _⟩ := PodHashSet.lookup_pendingWrite hl
      rw [he]
      exact ⟨_, rfl, .goto (Nat.lt_of_succ_lt hr) rfl⟩
  · exact ⟨_, rfl, .goto hr rfl⟩

omit [DecidableEq ι] in
theorem rwAtomicWriteBase_advances (hr : 2 < th.pc.rank) (v : ν) (s : VarStorage α) :
    Advances th (th.rwAtomicWriteBase cfg v s) := by
  unfold Thread.rwAtomicWriteBase
  split
  · unfold Thread.rwAtomicWriteSlowPath
    split <;> exact Or.inr ⟨rfl, Nat.lt_of_succ_lt hr, rfl⟩
  · exact .goto hr rfl

omit [DecidableEq ι] in
/-- An operation of the body makes its first access, or is done. -/
theorem callStep_advances (hpc : th.pc = .call) (hk : th.kind = .readWrite)
    (hop : (th.body th.log).goesOn = true) : ∃ th', callStep cfg sh t th = some th' ∧ Advances th th' := by
  have hr : 2 < th.pc.rank := by rw [hpc]; exact Nat.lt_succ_self 2
  simp only [callStep, hk]
  cases hb : th.body th.log with
  | get v => exact rwReadBase_advances hr true v
  | untrackedGet v => exact rwReadBase_advances hr false v
  | readOnlyGet v => exact ⟨_, rfl, .goto hr rfl⟩
  | set v x =>
      dsimp only
      split
      · exact rwWrite_advances hr v x
      · exact ⟨_, rfl, rwAtomicWriteBase_advances hr v _⟩
  | sometimeSynchronizedAfter id | afterFail id | nestedAtomic => exact ⟨_, rfl, .opReturns _ rfl none⟩
  | ret => exact ⟨_, rfl, .goto (Nat.lt_of_le_of_lt (Nat.zero_le 2) hr) rfl⟩
  | retry | throw =>
      rw [hb] at hop
      cases hop

/-- **Where no version is invalid a body fails only if it asks for it.** -/
theorem threadStep_advances (hq : ∀ v, sh.loadVersion v ≤ th.version) (hk : th.kind = .readWrite)
    (hop : (th.body th.log).goesOn = true) (hrun : th.pc.upToCommit = true) (hpc : th.pc ≠ .tryCommit) :
    ∃ sh' th', threadStep cfg sh t th opened none = some (sh', th') ∧ Advances th th' := by
  have valid : ∀ v, th.rwValid (sh.loadVersion v) = true := fun v => decide_eq_true (hq v)
  have goes : ∀ {pc' : PC ι ν α}, pc'.rank < th.pc.rank → pc'.upToCommit = true →
      Advances th (th.goto pc') := .goto
  unfold threadStep
  cases hpc' : th.pc with
  | accessLock => exact ⟨_, _, rfl, goes (by rw [hpc']; exact Nat.lt_succ_self 3) rfl⟩
  | call =>
      obtain ⟨th', hs, ha⟩ : ∃ th', callStep cfg sh t th = some th' ∧ Advances th th' :=
        callStep_advances hpc' hk hop
      exact ⟨sh, th', by rw [hs]; rfl, ha⟩
  | readStorage path v => exact ⟨_, _, rfl, Or.inr ⟨rfl, by rw [hpc']; exact Nat.lt_succ_self 1, rfl⟩⟩
  | readVersion path v result =>
      have hs : readVersionStep cfg sh t th path v result = some _ := if_pos (valid v)
      refine ⟨_, _, hs, .opReturns _ ?_ _⟩
      unfold Thread.noteRead Thread.pushRead
      split <;> split <;> rfl
  | readPending v pending =>
      refine ⟨_, _, rfl, ?_⟩
      rw [readPendingStep, if_pos (valid v)]
      exact .opReturns _ rfl _
  | writeVersion v x =>
      have hs : writeVersionStep cfg sh th v x = some _ := if_pos (valid v)
      exact ⟨_, _, hs, Or.inr ⟨rfl, by rw [hpc']; exact Nat.lt_succ_self 1, rfl⟩⟩
  | writeCurStorage v s => exact ⟨_, _, rfl, .opReturns _ rfl _⟩
  | writeSlowStorage v x => exact ⟨_, _, rfl, Or.inr ⟨rfl, by rw [hpc']; exact Nat.lt_succ_self 1, rfl⟩⟩
  | writeSlowVersion v x cur =>
      have hs : writeSlowVersionStep cfg sh th v x cur = _ := if_pos (valid v)
      exact ⟨_, _, congrArg some hs, .opReturns _ rfl _⟩
  | writePendingVersion v x pending =>
      have hs : writePendingVersionStep sh th v x pending = _ := if_pos (valid v)
      exact ⟨_, _, congrArg some hs, .opReturns _ rfl _⟩
  | atomicWriteVersion v s =>
      refine ⟨_, _, rfl, ?_⟩
      rw [atomicWriteVersionStep, if_pos (valid v)]
      exact .opReturns _ rfl _
  | atomicWriteSlowVersion v =>
      refine ⟨_, _, rfl, ?_⟩
      rw [atomicWriteSlowVersionStep, if_pos (valid v)]
      exact .opReturns _ rfl _
  | tryCommit => exact absurd hpc' hpc
  | _ =>
      rw [hpc'] at hrun
      cases hrun

end Step

section Move

variable {sh sh' : Shared ι ν α} {t : ι} {th th' : Thread ι ν α} {opened : ι → Option Nat}

/-- Up to the commit the vars and the commits stay as they are. -/
theorem Move.sameVars (hm : Move cfg sh t th opened none sh' th') (hu : th.pc.upToCommit = true)
    (hpc : th.pc ≠ .tryCommit) : SameVars sh sh' := by
  cases hm.effect with
  | quiet hs => exact hs
  | commitEmpty hpc' => exact absurd hpc' hpc
  | lock _ _ hpc' | unlock _ _ _ _ hpc' | store _ _ hpc' | bump hpc' | publish _ _ _ hpc' =>
      rw [hpc'] at hu
      cases hu

/-- What a get is about to check is what the var holds. -/
theorem Move.loads (hm : Move cfg sh t th opened none sh' th') (hu : th.pc.upToCommit = true)
    {path : ReadPath} {v : ν} {st : VarStorage α} (hpc : th'.pc = .readVersion path v st) :
    st = sh.loadStorage v := by
  cases hm with
  | readStorage => cases hpc; rfl
  | goto pc' hin hout =>
      obtain rfl : pc' = .readVersion path v st := hpc
      rcases hout with h | ⟨_, h⟩ | h | ⟨h, _⟩ <;> cases h
  | reclaimNothing hpc' | waitMore _ _ _ _ _ hpc' =>
      rw [hpc'] at hu
      cases hu
  | success sync hpc' =>
      rw [hpc'] at hu
      cases hu
  | failureReadOnly exn => cases exn <;> cases hpc
  | failDone exn => cases exn <;> cases hpc
  | _ => cases hpc

/-- A value that enters the reads is the one of the var whose version was checked. -/
theorem Move.readsNew (hm : Move cfg sh t th opened none sh' th') (hu : th.pc.upToCommit = true) :
    ∀ p ∈ th'.att.reads, p ∈ th.att.reads ∨
      ∃ path st, th.pc = .readVersion path p.1 st ∧ p.2 = st.load sh.cells := by
  cases hm with
  | readReturns path v st hpc =>
      intro p hp
      refine (mem_reads_noteRead hp).imp (fun hp => by rwa [att_pushRead] at hp) fun hp => ?_
      rw [hp]
      exact ⟨path, st, hpc, rfl⟩
  | getClock hpc =>
      rw [hpc] at hu
      cases hu
  | success sync hpc =>
      rw [hpc] at hu
      cases hu
  | failureReadOnly exn => cases exn <;> exact fun _ hp => Or.inl hp
  | failDone exn => cases exn <;> exact fun _ hp => Or.inl hp
  | _ => exact fun _ hp => Or.inl hp

/-- An attempt that has just read the clock has read nothing else. -/
theorem Move.freshReads {req : Option (Request ν α)} (hm : Move cfg sh t th opened req sh' th')
    (h : th.pc = .accessLock → th.att.reads = []) (hpc : th'.pc = .accessLock) :
    th'.att.reads = [] := by
  cases hm with
  | getClock => rfl
  | goto pc' hin hout =>
      obtain rfl : pc' = .accessLock := hpc
      rcases hout with h | ⟨_, h⟩ | h | ⟨h, _⟩ <;> cases h
  | reclaimNothing | waitMore => exact h hpc
  | success sync =>
      have hout := reclaim_outside cfg
        ((th.setTxState .none).clearReadWriteSets.clearFailCallbacks) sync
      rw [hpc] at hout
      cases hout
  | failureReadOnly exn => cases exn <;> cases hpc
  | failDone exn => cases exn <;> cases hpc
  | _ => cases hpc

theorem freshReads_reach {ok : Request ν α → Prop} {s : Sys ι ν α} (h : Sys.Reach cfg ok s) (t : ι)
    (hpc : (s.threads t).pc = .accessLock) : (s.threads t).att.reads = [] := by
  revert t
  exact h.induct (P := fun s => ∀ t, (s.threads t).pc = .accessLock → (s.threads t).att.reads = [])
    (fun _ _ => rfl) fun _ ih _ hm =>
      Sys.forall_after (P := fun _ th => th.pc = .accessLock → th.att.reads = [])
        (hm.freshReads (ih _)) fun u _ => ih u

end Move

/-! ## 4. The whole attempt -/

/-- What holds of state `s` of an attempt that began in `s₀`. -/
structure SoloOk (t : ι) (s₀ s : Sys ι ν α) : Prop where
  sameVars : SameVars s₀.shared s.shared
  version : (s.threads t).version = (s₀.threads t).version
  call : (s.threads t).kind = .readWrite ∧ (s.threads t).body = (s₀.threads t).body
  place : (s.threads t).pc.upToCommit = true
  loaded : ∀ {path v st}, (s.threads t).pc = .readVersion path v st → st = s.shared.loadStorage v
  reads : Agrees s₀.value (s.threads t).att.reads

section Run

variable {ok : Request ν α → Prop} {t : ι} {s₀ s s' : Sys ι ν α}

/-- Where no version is invalid a var holds what the latest commit has left in it. -/
theorem value_eq (hr : Sys.Reach cfg ok s)
    (hq : ∀ v, s.shared.loadVersion v ≤ (s.threads t).version) (v : ν) :
    s.value v = latestValue cfg s.shared.hist.commits v :=
  load_eq_latestValue (commits_reach hr) (heap_reach hr) fun u hp =>
    (locks_reach hr).not_holds_of_valid (active_reach hr) (hq v) u hp.holds

omit [DecidableEq ι] [DecidableEq ν] in
theorem SoloOk.quiet (h : SoloOk t s₀ s) (hq : ∀ v, s₀.shared.loadVersion v ≤ (s₀.threads t).version)
    (v : ν) : s.shared.loadVersion v ≤ (s.threads t).version := by
  rw [h.version, Shared.loadVersion, h.sameVars.vars]
  exact hq v

/-- **The committed values do not change during the attempt.** -/
theorem SoloOk.value (h : SoloOk t s₀ s) (hr₀ : Sys.Reach cfg ok s₀) (hr : Sys.Reach cfg ok s)
    (hq : ∀ v, s₀.shared.loadVersion v ≤ (s₀.threads t).version) : s.value = s₀.value := by
  funext v
  rw [value_eq hr (h.quiet hq), value_eq hr₀ hq, h.sameVars.commits]

theorem SoloOk.refl (hr : Sys.Reach cfg ok s₀) (hpc : (s₀.threads t).pc = .accessLock)
    (hk : (s₀.threads t).kind = .readWrite) : SoloOk t s₀ s₀ := by
  refine ⟨.refl _, rfl, ⟨hk, rfl⟩, by rw [hpc]; rfl, fun h => ?_, ?_⟩
  · rw [hpc] at h
    cases h
  · rw [freshReads_reach hr t hpc]
    exact fun _ hp => absurd hp List.not_mem_nil

/-- **One step keeps it.** -/
theorem SoloOk.step (h : SoloOk t s₀ s) (hq : ∀ v, s₀.shared.loadVersion v ≤ (s₀.threads t).version)
    (hop : ((s.threads t).body (s.threads t).log).goesOn = true) (hr₀ : Sys.Reach cfg ok s₀)
    (hr : Sys.Reach cfg ok s) (hpc : (s.threads t).pc ≠ .tryCommit)
    (hs : s.step cfg t none = some s') :
    SoloOk t s₀ s' ∧ Advances (s.threads t) (s'.threads t) := by
  obtain ⟨sh', th', hth, ha⟩ : ∃ sh' th', threadStep cfg s.shared t (s.threads t) s.opened none =
      some (sh', th') ∧ Advances (s.threads t) th' :=
    threadStep_advances (h.quiet hq) h.call.1 hop h.place hpc
  have hm := threadStep_move hth
  obtain rfl : s.after t sh' th' = s' := by
    rw [Sys.step, hth] at hs
    exact Option.some.inj hs
  have hsame := hm.sameVars h.place hpc
  rw [Sys.threads_after_self]
  refine ⟨⟨?_, ?_, ?_, ?_, ?_, ?_⟩, ha⟩
  · exact ⟨hsame.vars.trans h.sameVars.vars, hsame.clock.trans h.sameVars.clock,
      hsame.commits.trans h.sameVars.commits⟩
  · rw [Sys.threads_after_self, (active_reach hr).version_eq hm, h.version]
    intro hg
    have hp := h.place
    rw [hg] at hp
    cases hp
  · rw [Sys.threads_after_self]
    rcases hm.call with ⟨_, _, ⟨_, hreq⟩ | ⟨_, hreq⟩, _⟩ | ⟨hk, hb, _⟩
    · cases hreq
    · cases hreq
    · exact ⟨hk.trans h.call.1, hb.trans h.call.2⟩
  · rw [Sys.threads_after_self]
    rcases ha with ⟨hc, _⟩ | ⟨_, _, hu⟩
    · rw [hc]
      rfl
    · exact hu
  · intro path v st hpc'
    rw [Sys.threads_after_self] at hpc'
    refine (hm.loads h.place hpc').trans ?_
    show _ = (sh'.vars v).storage
    rw [hsame.vars]
    rfl
  · rw [Sys.threads_after_self]
    intro p hp
    rcases hm.readsNew h.place p hp with hp | ⟨path, st, hpc', hx⟩
    · exact h.reads p hp
    · rw [hx, h.loaded hpc', ← h.value hr₀ hr hq]
      rfl

omit [DecidableEq ι] [DecidableEq ν] in
theorem SoloOk.goesOn (h : SoloOk t s₀ s) (hd : s₀.Undisturbed t) (log : Log α) :
    ((s.threads t).body log).goesOn = true :=
  h.call.2 ▸ Op.goesOn_of_isPlain (hd.plain.2 log)

/-- **The run**: it holds in every state of the attempt. -/
theorem Sys.Solo.soloOk (h : Sys.Solo cfg t s₀ s) (hr : Sys.Reach cfg ok s₀) (hd : s₀.Undisturbed t) :
    SoloOk t s₀ s := by
  induction h with
  | refl => exact .refl hr hd.pc hd.plain.1
  | step h hpc hs ih => exact (ih.step hd.quiet (ih.goesOn hd _) hr (h.reach hr) hpc hs).1

/-- **The operation under way returns**, by induction on how far its end is. -/
theorem SoloOk.returns (hr : Sys.Reach cfg ok s₀) (hd : s₀.Undisturbed t) (hs : Sys.Solo cfg t s₀ s)
    (hret : (s.threads t).body (s.threads t).log ≠ .ret) :
    ∃ s', Sys.Solo cfg t s s' ∧ (s'.threads t).pc = .call ∧
      (s'.threads t).log.length = (s.threads t).log.length + 1 := by
  generalize hn : (s.threads t).pc.rank = n
  induction n using Nat.strongRecOn generalizing s with
  | ind n ih =>
    have hk := hs.soloOk hr hd
    have hpc : (s.threads t).pc ≠ .tryCommit := fun hpc => by
      have hop := (active_reach (hs.reach hr)).opAt t
      rw [hpc] at hop
      exact hret hop.2
    obtain ⟨sh', th', hth, _⟩ : ∃ sh' th', threadStep cfg s.shared t (s.threads t) s.opened none =
        some (sh', th') ∧ Advances (s.threads t) th' :=
      threadStep_advances (hk.quiet hd.quiet) hk.call.1 (hk.goesOn hd _) hk.place hpc
    have hstep : s.step cfg t none = some (s.after t sh' th') := by
      rw [Sys.step, hth]
      rfl
    obtain ⟨_, ⟨hcall, hlen⟩ | ⟨hlog, hrank, _⟩⟩ := hk.step hd.quiet (hk.goesOn hd _) hr (hs.reach hr) hpc hstep
    · exact ⟨_, .step .refl hpc hstep, hcall, hlen⟩
    · have hb : ((s.after t sh' th').threads t).body = (s.threads t).body := by
        rw [Sys.threads_after_self]
        rcases (threadStep_move hth).call with ⟨_, _, ⟨_, hreq⟩ | ⟨_, hreq⟩, _⟩ | ⟨_, hb, _⟩
        · cases hreq
        · cases hreq
        · exact hb
      obtain ⟨s', hs', hc, hl⟩ := ih _ (hn ▸ hrank) (.step hs hpc hstep)
        (by rw [hb, hlog]; exact hret) rfl
      exact ⟨s', (Sys.Solo.step .refl hpc hstep).trans hs', hc, by rw [hl, hlog]⟩

/-- **Where the hashes agree an attempt that runs alone reads its own writes.** -/
theorem readsOwnWrites_of_agree (hag : cfg.HashesAgree) (hr : Sys.Reach cfg ok s₀)
    (hd : s₀.Undisturbed t) (hs : Sys.Solo cfg t s₀ s) : ReadsOwnWrites cfg t s₀ s := by
  have hk := hs.soloOk hr hd
  refine ⟨?_, (tidy_reach hag (hs.reach hr) t).nodup, SoloOk.returns hr hd hs⟩
  have hval : s₀.value = latestValue cfg s₀.shared.hist.commits := funext (value_eq hr hd.quiet)
  rw [← hval]
  refine (ownReads_reach hag (hs.reach hr) t ⟨hk.call.1, hk.call.2 ▸ hd.plain.2⟩ hk.reads).log ?_
  have hp := hk.place
  revert hp
  cases (s.threads t).pc <;> intro hp <;> first | exact Or.inl rfl | exact Or.inr rfl | cases hp

end Run

/-! ## 5. Where the hashes differ -/

section Differ

variable {t : ι} {s₀ s : Sys ι ν α} {th th' : Thread ι ν α} {sh' : Shared ι ν α}

theorem Sys.Solo.move (h : Sys.Solo cfg t s₀ s) (hth : s.threads t = th) (hpc : th.pc ≠ .tryCommit)
    (hs : threadStep cfg s.shared t th s.opened none = some (sh', th')) :
    Sys.Solo cfg t s₀ (s.after t sh' th') := by
  refine .step h (hth ▸ hpc) ?_
  rw [Sys.step, hth, hs]
  rfl

/-- The first set of a heap var on the fast path: its entry is in the write set, and the hash of the var
    itself in the filter. -/
theorem solo_setFast {v : ν} {x : α} (hth : s.threads t = th) (hpc : th.pc = .call)
    (hk : th.kind = .readWrite) (hop : th.body th.log = .set v x) (hv : cfg.varType v = .heap)
    (hq : s.shared.loadVersion v ≤ th.version)
    (hfast : (th.td.writeSet.allocatesOnNextPush || th.td.writeSet.filter &&& cfg.varHash v != 0#64
      || th.td.failCallbacks.allocatesOnNextPush || th.td.succCallbacks.allocatesOnNextPush) = false) :
    ∃ s' th', Sys.Solo cfg t s s' ∧ s'.threads t = th' ∧ th'.pc = .call ∧ th'.kind = .readWrite ∧
      th'.body = th.body ∧ th'.log = th.log ++ [none] ∧ th'.version = th.version ∧
      s'.shared.vars = s.shared.vars ∧ th'.td.writeSet.vars = th.td.writeSet.vars ++ [v] ∧
      th'.td.writeSet.filter = th.td.writeSet.filter ||| cfg.varHash v := by
  have h1 : threadStep cfg s.shared t th s.opened none =
      some (s.shared, th.goto (.writeVersion v x)) := by
    rw [threadStep, hpc]
    simp only [callStep, hk, hop, hv, Thread.rwWrite, hfast]
    rfl
  have h2 : ∀ opened : ι → Option Nat, threadStep cfg (s.shared.atTime (s.shared.hist.now + 1)) t
      (th.goto (.writeVersion v x)) opened none = some _ := fun _ => if_pos (decide_eq_true hq)
  refine ⟨_, _, ((Sys.Solo.refl.move hth (by rw [hpc]; exact nofun) h1).move
    (Sys.threads_after_self ..) (by exact nofun) (h2 _)).move (Sys.threads_after_self ..)
    (by exact nofun) rfl, Sys.threads_after_self .., rfl, hk, rfl, rfl, rfl, rfl, ?_, rfl⟩
  exact PodHashSet.vars_uncheckedPushBack ..

/-- A set of a heap var that goes to the slow path, where the filter does not show the var: it gets an
    entry, whether it has one or not. -/
theorem solo_setMissed {v : ν} {x : α} (hth : s.threads t = th) (hpc : th.pc = .call)
    (hk : th.kind = .readWrite) (hop : th.body th.log = .set v x) (hv : cfg.varType v = .heap)
    (hq : s.shared.loadVersion v ≤ th.version)
    (hslow : th.td.writeSet.filter &&& cfg.varHash v ≠ 0#64)
    (hmiss : th.td.writeSet.filter &&& cfg.baseHash v = 0#64) :
    ∃ s', Sys.Solo cfg t s s' ∧ (s'.threads t).td.writeSet.vars = th.td.writeSet.vars ++ [v] := by
  have h1 : threadStep cfg s.shared t th s.opened none =
      some (s.shared, th.goto (.writeSlowStorage v x)) := by
    have hslow' : (th.td.writeSet.filter &&& cfg.varHash v != 0#64) = true := bne_iff_ne.mpr hslow
    have hl : th.td.writeSet.lookup cfg.baseHash v = .hash (cfg.baseHash v) := if_pos hmiss
    rw [threadStep, hpc]
    simp only [callStep, hk, hop, hv, Thread.rwWrite, hslow', Bool.or_true, Bool.true_or, if_true,
      Thread.rwWriteSlowPath, hl]
    rfl
  let cur := s.shared.loadStorage v
  let th₂ := (th.noteLoad cur).goto (.writeSlowVersion v x cur)
  let sh₂ := s.shared.atTime (s.shared.hist.now + 1 + 1)
  have h3 : writeSlowVersionStep cfg sh₂ th₂ v x cur = _ := if_pos (decide_eq_true hq)
  refine ⟨_, ((Sys.Solo.refl.move hth (by rw [hpc]; exact fun h => by cases h) h1).move
    (Sys.threads_after_self ..) (fun h => by cases h) rfl).move (Sys.threads_after_self ..)
    (fun h => by cases h) (congrArg some h3), ?_⟩
  rw [Sys.threads_after_self]
  exact PodHashSet.vars_pushBack ..

/-- A body that sets `v` twice. -/
def setTwice (v : ν) (x : α) : Body ν α := fun log => if log.length < 2 then .set v x else .ret

/-- **Where the hash of a heap var is not the hash of its var_base, setting it twice gives it two
    entries.** -/
theorem not_nodup_of_differ (hl : 2 < cfg.reclaimLimit) (t : ι) {v : ν}
    (hv : cfg.varType v = .heap) (hd : cfg.varHash v ≠ cfg.baseHash v) :
    ∃ s₀ s, Sys.Reach cfg (fun _ => True) s₀ ∧ s₀.Undisturbed t ∧ Sys.Solo cfg t s₀ s ∧
      ¬ (s.threads t).td.writeSet.vars.Nodup := by
  let th₁ := requestStep cfg (.init cfg) (.readWrite (setTwice v (cfg.initRaw v)))
  let s₁ := (Sys.init cfg).after t (Sys.init cfg).shared th₁
  let s₂ := s₁.after t s₁.shared (getClockStep s₁.shared th₁)
  have h₁ : (Sys.init cfg).step cfg t (some (.readWrite (setTwice v (cfg.initRaw v)))) = some s₁ := rfl
  have h₂ : s₁.step cfg t none = some s₂ := by
    rw [Sys.step, Sys.threads_after_self]
    rfl
  have hth : s₂.threads t = getClockStep s₁.shared th₁ := Sys.threads_after_self ..
  have hplain : (s₂.threads t).IsPlain := by
    rw [hth]
    refine ⟨rfl, fun log => ?_⟩
    show (setTwice v (cfg.initRaw v) log).isPlain = true
    unfold setTwice
    split <;> rfl
  have hu : s₂.Undisturbed t := ⟨by rw [hth]; rfl, hplain, fun _ => Nat.zero_le _⟩
  have hdisj : (0#64 ||| cfg.varHash v) &&& cfg.baseHash v = 0#64 := by
    rw [BitVec.zero_or]
    exact dumbReferenceHash_disjoint hd
  have hself : (0#64 ||| cfg.varHash v) &&& cfg.varHash v ≠ 0#64 := by
    rw [BitVec.zero_or]
    exact dumbReferenceHash_self _ _
  have hroom : (EpochQueue.init cfg.reclaimLimit : EpochQueue (GpCallback ν α)).allocatesOnNextPush =
      false := by
    refine beq_false_of_ne ?_
    show 0 + (0 + 1) ≠ cfg.reclaimLimit * 2 - 1
    omega
  -- the attempt is announced, and its first set takes the fast path
  let th₂ := getClockStep s₁.shared th₁
  let s₃ := s₂.after t (accessLockStep s₂.shared t th₂).1 (accessLockStep s₂.shared t th₂).2
  have hs₃ : Sys.Solo cfg t s₂ s₃ := Sys.Solo.refl.move hth (by exact nofun) rfl
  have hth₃ : s₃.threads t = (accessLockStep s₂.shared t th₂).2 := Sys.threads_after_self ..
  have hfast : ((.empty : PodHashSet ν (VarStorage α)).allocatesOnNextPush || 0#64 &&& cfg.varHash v != 0#64
      || (PodVector.empty : PodVector (GpCallback ν α)).allocatesOnNextPush
      || (EpochQueue.init cfg.reclaimLimit : EpochQueue (GpCallback ν α)).allocatesOnNextPush) =
      false := by
    rw [hroom, BitVec.zero_and]
    rfl
  obtain ⟨s₄, th₄, hs₄, hth₄, hpc, hk, hb, hlog, hver, hvars, hws, hf⟩ :=
    solo_setFast hth₃ rfl rfl rfl hv (Nat.zero_le 0) hfast
  -- the second one does not find the entry
  have hq₄ : s₄.shared.loadVersion v ≤ th₄.version := by
    rw [hver, Shared.loadVersion, hvars]
    exact Nat.zero_le 0
  obtain ⟨s₅, hs₅, hws₅⟩ := solo_setMissed hth₄ hpc hk (by rw [hb, hlog]; rfl) hv hq₄
    (by rw [hf]; exact hself) (by rw [hf]; exact hdisj)
  refine ⟨s₂, s₅, .step (.step .init (fun _ _ => trivial) h₁) (fun _ _ => trivial) h₂, hu,
    (hs₃.trans hs₄).trans hs₅, ?_⟩
  rw [hws₅, hws]
  exact fun hn => (List.nodup_cons.mp hn).1 (List.mem_singleton_self v)

end Differ

/-! ## 6. The main result -/

/-- **Attempts that run alone read their own writes if and only if the hash of every heap var is the hash
    of its var_base.** -/
theorem readsOwnWrites_iff (hl : 2 < cfg.reclaimLimit) (t : ι) :
    (∀ s₀ s : Sys ι ν α, Sys.Reach cfg (fun _ => True) s₀ → s₀.Undisturbed t →
      Sys.Solo cfg t s₀ s → ReadsOwnWrites cfg t s₀ s) ↔
    ∀ v, cfg.varType v = .heap → cfg.varHash v = cfg.baseHash v := by
  refine ⟨fun h v hv => ?_, fun hag s₀ s hr hd hs => readsOwnWrites_of_agree hag hr hd hs⟩
  by_contra hne
  obtain ⟨s₀, s, hr, hd, hs, hn⟩ := not_nodup_of_differ hl t hv hne
  exact hn (h s₀ s hr hd hs).nodup

/-- The steps of thread `t` alone, no further than to the end of its body. -/
def Sys.soloRun (cfg : Config ι ν α) (t : ι) : Nat → Sys ι ν α → Option (Sys ι ν α)
  | 0, s => some s
  | n + 1, s => match (s.threads t).pc with
    | .tryCommit => none
    | _ => (s.step cfg t none).bind (soloRun cfg t n)

theorem Sys.Solo.of_soloRun {t : ι} {n : Nat} {s₀ s s' : Sys ι ν α} (h : Sys.Solo cfg t s₀ s)
    (hr : Sys.soloRun cfg t n s = some s') : Sys.Solo cfg t s₀ s' := by
  induction n generalizing s with
  | zero =>
      cases hr
      exact h
  | succ n ih =>
      unfold Sys.soloRun at hr
      split at hr
      · cases hr
      · rename_i hpc
        obtain ⟨s₁, h₁, h₂⟩ := Option.bind_eq_some_iff.mp hr
        exact ih (.step h hpc h₁) h₂

/-- Two heap vars with allocators of one word: the var_base lies behind the allocator. -/
def statefulConfig : Config Bool Bool Nat :=
  { smallConfig with layout := fun v => ⟨if v then 48 else 0, 16, 16⟩ }

/-- A body that sets a var, gets it, and sets it again. -/
def setGetSet : Body Bool Nat := fun log =>
  match log.length with
  | 0 => .set true 7
  | 1 => .get true
  | 2 => .set true 8
  | _ => .ret

/-- A thread calls it and reads the clock. -/
def callSetGetSet : List (Bool × Option (Request Bool Nat)) :=
  [(false, some (.readWrite setGetSet)), (false, none)]

theorem setGetSet_isPlain (log : Log Nat) : (setGetSet log).isPlain = true := by
  unfold setGetSet
  split <;> rfl

theorem setGetSet_begins : (Sys.run smallConfig callSetGetSet (.init smallConfig)).isSome = true := by
  decide

theorem setGetSet_runs : (Sys.soloRun smallConfig false 8
    ((Sys.run smallConfig callSetGetSet (.init smallConfig)).get setGetSet_begins)).isSome = true := by
  decide

/-- With empty allocators it gets what it has set. -/
theorem readsOwnWrites_setGetSet :
    let s₀ := (Sys.run smallConfig callSetGetSet (.init smallConfig)).get setGetSet_begins
    let s := (Sys.soloRun smallConfig false 8 s₀).get setGetSet_runs
    (s.threads false).log = [none, some 7, none] ∧ ReadsOwnWrites smallConfig false s₀ s := by
  have hr : Sys.Reach smallConfig (fun _ => True)
      ((Sys.run smallConfig callSetGetSet (.init smallConfig)).get setGetSet_begins) :=
    .of_run (fun _ _ _ _ => trivial) (Option.some_get setGetSet_begins).symm
  have hd : ((Sys.run smallConfig callSetGetSet (.init smallConfig)).get
      setGetSet_begins).Undisturbed false :=
    ⟨rfl, ⟨rfl, setGetSet_isPlain⟩, fun v => by cases v <;> decide⟩
  exact ⟨by decide, (readsOwnWrites_iff (by decide) false).mpr (fun v _ => by cases v <;> rfl) _ _ hr hd
    (.of_soloRun .refl (Option.some_get setGetSet_runs).symm)⟩

theorem setGetSet_begins_stateful :
    (Sys.run statefulConfig callSetGetSet (.init statefulConfig)).isSome = true := by
  decide

theorem setGetSet_runs_stateful : (Sys.soloRun statefulConfig false 10
    ((Sys.run statefulConfig callSetGetSet (.init statefulConfig)).get
      setGetSet_begins_stateful)).isSome = true := by
  decide

/-- **Behind an allocator the var_base hashes otherwise**: the get misses the value set, and the second
    set adds a second entry. -/
theorem readsOwnWrites_lost :
    let s₀ := (Sys.run statefulConfig callSetGetSet (.init statefulConfig)).get
      setGetSet_begins_stateful
    let s := (Sys.soloRun statefulConfig false 10 s₀).get setGetSet_runs_stateful
    Sys.Reach statefulConfig (fun _ => True) s₀ ∧ s₀.Undisturbed false ∧
      Sys.Solo statefulConfig false s₀ s ∧ (s.threads false).log = [none, some 0, none] ∧
      (s.threads false).td.writeSet.vars = [true, true] ∧
      ¬ ReadsOwnWrites statefulConfig false s₀ s := by
  refine ⟨.of_run (fun _ _ _ _ => trivial) (Option.some_get setGetSet_begins_stateful).symm,
    ⟨rfl, ⟨rfl, setGetSet_isPlain⟩, fun v => by cases v <;> decide⟩,
    .of_soloRun .refl (Option.some_get setGetSet_runs_stateful).symm, by decide, by decide,
    fun h => absurd h.nodup (by decide)⟩

end LockfreeStm
