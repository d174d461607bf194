/-
  File:      LockfreeStm/Machine/TypedPrograms.lean
  Subject:   PROGRAMS OVER TYPED VARS on the machine.

  The vars of the machine hold words of one type. A program over vars that hold values of their own types is
  a body, by an encoding of these values. What such a body does on the machine is what the program does.

  * `Sets`, `Thread.HasSet`, `SetStep`, `Move.hasSet` -- the write set of an attempt that has not failed has
    the vars that its body has set.
  * `Encoding`, `Encoding.body` -- the body that a family of programs is.
  * `Encoding.body_storesAsSets` -- plain stores into objects that nobody else can reach may be sets.
  * `Encoding.Recorded`, `Encoding.recorded` -- a body that has performed is a program that has run so far.
  * `programs_history` -- **the main result**: the committed calls are a history of optimistic transactions.
-/
import LockfreeStm.Library.Fuel
import LockfreeStm.Machine.Histories

namespace LockfreeStm

variable {ι ν α : Type}

/-! ## 1. What a body has set -/

/-- One of the operations in the log is a set of the var. -/
def Sets (body : Body ν α) (log : Log α) (v : ν) : Prop :=
  ∃ front r back x, log = front ++ r :: back ∧ body front = .set v x

theorem not_sets_nil {body : Body ν α} {v : ν} : ¬ Sets body [] v := by
  rintro ⟨front, r, back, x, e, -⟩
  simp at e

theorem tracks_concat {body : Body ν α} {log : Log α} {r : Option α} {v : ν} :
    Tracks body (log ++ [r]) v ↔ Tracks body log v ∨ body log = .get v := by
  refine ⟨Tracks.of_concat, ?_⟩
  rintro (⟨front, r', back, rfl, hop⟩ | hop)
  · exact ⟨front, r', back ++ [r], by simp, hop⟩
  · exact ⟨log, r, [], rfl, hop⟩

theorem sets_concat {body : Body ν α} {log : Log α} {r : Option α} {v : ν} :
    Sets body (log ++ [r]) v ↔ Sets body log v ∨ ∃ x, body log = .set v x := by
  constructor
  · rintro ⟨front, r', back, x, e, hop⟩
    rcases Histories.concat_split e with ⟨rfl, -⟩ | ⟨back', e⟩
    · exact Or.inr ⟨x, hop⟩
    · exact Or.inl ⟨front, r', back', x, e, hop⟩
  · rintro (⟨front, r', back, x, rfl, hop⟩ | ⟨x, hop⟩)
    · exact ⟨front, r', back ++ [r], x, by simp, hop⟩
    · exact ⟨log, r, [], x, rfl, hop⟩

/-- The callback that the operation registers for after the commit. -/
def Op.handsOver : Op ν α → Option Nat
  | .sometimeSynchronizedAfter id => some id
  | _ => none

/-- The callbacks that the operations in the log have registered, in order. -/
def handedOver (body : Body ν α) (log : Log α) : List Nat :=
  (List.range log.length).filterMap fun i => (body (log.take i)).handsOver

theorem handedOver_concat (body : Body ν α) (log : Log α) (r : Option α) :
    handedOver body (log ++ [r]) = handedOver body log ++ (body log).handsOver.toList := by
  have hfront : ∀ i ∈ List.range log.length, (body ((log ++ [r]).take i)).handsOver =
      (body (log.take i)).handsOver := fun i hi => by
    rw [List.take_append_of_le_length (List.mem_range.mp hi).le]
  rw [handedOver, List.length_append, List.length_singleton, List.range_succ, List.filterMap_append,
    List.filterMap_congr hfront, handedOver]
  cases hop : (body log).handsOver <;> simp [hop]

def Op.isSet : Op ν α → Bool
  | .set _ _ => true
  | _ => false

theorem Op.ne_set {op op' : Op ν α} (e : op' = op) (h : op.isSet = false) (v : ν) (x : α) : op' ≠ .set v x := by
  subst e
  rintro rfl
  cases h

/-- The attempt has set the var, or it is inside the set of it. -/
def Thread.HasSet (th : Thread ι ν α) (v : ν) : Prop :=
  Sets th.body th.log v ∨ th.pc.inSet = true ∧ ∃ x, th.body th.log = .set v x

/-- An attempt that has not failed. -/
def PC.goesOn (pc : PC ι ν α) : Bool := pc.runsBody || pc.inSet

theorem PC.goesOn_of_runsBody {pc : PC ι ν α} (h : pc.runsBody = true) : pc.goesOn = true := by
  rw [PC.goesOn, h, Bool.true_or]

theorem PC.goesOn_of_inSet {pc : PC ι ν α} (h : pc.inSet = true) : pc.goesOn = true := by
  rw [PC.goesOn, h, Bool.or_true]

theorem PC.not_inSet_of_runsBody {pc : PC ι ν α} (h : pc.runsBody = true) : pc.inSet = false := by
  cases pc <;> first | rfl | cases h

variable [DecidableEq ι] [DecidableEq ν]

section Move

variable {cfg : Config ι ν α} {sh sh' : Shared ι ν α} {t : ι} {th th' : Thread ι ν α}
  {opened : ι → Option Nat} {req : Option (Request ν α)}

omit [DecidableEq ι] [DecidableEq ν] in
/-- Behind an operation that is no set. -/
theorem Thread.hasSet_returns {r : Option α} (hb : th'.body = th.body) (hl : th'.log = th.log ++ [r])
    (hs : th.pc.inSet = false) (hs' : th'.pc.inSet = false) (hop : ∀ v x, th.body th.log ≠ .set v x) (v : ν) :
    th'.HasSet v ↔ th.HasSet v := by
  simp [Thread.HasSet, hb, hl, hs, hs', sets_concat, hop]

omit [DecidableEq ι] [DecidableEq ν] in
/-- Behind a set. -/
theorem Thread.hasSet_set {r : Option α} {w : ν} {x : α} (hb : th'.body = th.body)
    (hl : th'.log = th.log ++ [r]) (hs' : th'.pc.inSet = false) (hop : th.body th.log = .set w x) (v : ν) :
    th'.HasSet v ↔ th.HasSet v ∨ v = w := by
  simp only [Thread.HasSet, hb, hl, hs', sets_concat, hop, Op.set.injEq]
  aesop

omit [DecidableEq ι] [DecidableEq ν] in
/-- Inside a set. -/
theorem Thread.hasSet_inSet {w : ν} {x : α} (hb : th'.body = th.body) (hl : th'.log = th.log)
    (hs' : th'.pc.inSet = true) (hop : th.body th.log = .set w x) (v : ν) :
    th'.HasSet v ↔ th.HasSet v ∨ v = w := by
  simp only [Thread.HasSet, hb, hl, hs', hop, Op.set.injEq]
  aesop

omit [DecidableEq ι] [DecidableEq ν] in
/-- Between two operations. -/
theorem Thread.hasSet_same (hb : th'.body = th.body) (hl : th'.log = th.log) (hs : th.pc.inSet = false)
    (hs' : th'.pc.inSet = false) (v : ν) : th'.HasSet v ↔ th.HasSet v := by
  simp [Thread.HasSet, hb, hl, hs, hs']

omit [DecidableEq ν] in
theorem PodHashSet.mem_vars_push {σ : Type} {ws ws' : PodHashSet ν σ} {w : ν} {st : σ}
    (he : ws'.entries = ws.entries ++ [⟨w, st⟩]) (v : ν) : v ∈ ws'.vars ↔ v ∈ ws.vars ∨ v = w := by
  simp [PodHashSet.vars, he]

/-- What the lookup of the write set has found. -/
theorem PodHashSet.mem_vars_of_lookup {σ : Type} {ws : PodHashSet ν σ} {hash : ν → Hash} {w : ν} {i : Nat}
    (hl : ws.lookup hash w = .pendingWrite i) : w ∈ ws.vars := by
  obtain ⟨e, he, rfl⟩ := PodHashSet.lookup_pendingWrite hl
  exact List.mem_map_of_mem (List.mem_of_getElem? he)

/-- What a step does to what the body has set, and to the write set. -/
inductive SetStep (th th' : Thread ι ν α) : Prop where
  | begins (hset : ∀ v, ¬ th'.HasSet v) (hw : th'.td.writeSet.entries = [])
  | same (hg : th.pc.goesOn = true) (hset : ∀ v, th'.HasSet v ↔ th.HasSet v)
      (hw : th'.td.writeSet.entries = th.td.writeSet.entries)
  | sets (w : ν) (hg : th.pc.goesOn = true) (hset : ∀ v, th'.HasSet v ↔ th.HasSet v ∨ v = w)
      (hw : ∀ v, v ∈ th'.td.writeSet.vars ↔ v ∈ th.td.writeSet.vars ∨ v = w)

namespace SetStep

variable {r : Option α} {w : ν} {x : α}

omit [DecidableEq ι] [DecidableEq ν] in
/-- Between two operations. -/
theorem of_same (hr : th.pc.runsBody = true) (hs' : th'.pc.inSet = false) (hb : th'.body = th.body)
    (hl : th'.log = th.log) (hw : th'.td.writeSet.entries = th.td.writeSet.entries) : SetStep th th' :=
  .same (PC.goesOn_of_runsBody hr) (Thread.hasSet_same hb hl (PC.not_inSet_of_runsBody hr) hs') hw

omit [DecidableEq ι] [DecidableEq ν] in
/-- Behind an operation that is no set. -/
theorem of_returns (hr : th.pc.runsBody = true) (hno : ∀ v x, th.body th.log ≠ .set v x)
    (hs' : th'.pc.inSet = false) (hb : th'.body = th.body) (hl : th'.log = th.log ++ [r])
    (hw : th'.td.writeSet.entries = th.td.writeSet.entries) : SetStep th th' :=
  .same (PC.goesOn_of_runsBody hr) (Thread.hasSet_returns hb hl (PC.not_inSet_of_runsBody hr) hs' hno) hw

omit [DecidableEq ι] [DecidableEq ν] in
/-- The end of a set that has pushed before. -/
theorem of_done (hs : th.pc.inSet = true) (hop : th.body th.log = .set w x) (hs' : th'.pc.inSet = false)
    (hb : th'.body = th.body) (hl : th'.log = th.log ++ [r])
    (hw : th'.td.writeSet.entries = th.td.writeSet.entries) : SetStep th th' := by
  refine .same (PC.goesOn_of_inSet hs) (fun v => (Thread.hasSet_set hb hl hs' hop v).trans ?_) hw
  exact or_iff_left_of_imp fun e => Or.inr ⟨hs, x, e ▸ hop⟩

omit [DecidableEq ι] [DecidableEq ν] in
/-- A set of a var that is in the write set. -/
theorem of_overwrites (hr : th.pc.runsBody = true) (hset : ∀ v, th'.HasSet v ↔ th.HasSet v ∨ v = w)
    (hw : w ∈ th.td.writeSet.vars) (he : th'.td.writeSet.vars = th.td.writeSet.vars) : SetStep th th' := by
  refine .sets w (PC.goesOn_of_runsBody hr) hset fun v => ?_
  rw [he]
  exact (or_iff_left_of_imp fun e => e ▸ hw).symm

omit [DecidableEq ι] [DecidableEq ν] in
/-- The vars of the write set stay those that the body has set. -/
theorem mem_vars_iff (hm : SetStep th th')
    (h : th.pc.goesOn = true → ∀ v, v ∈ th.td.writeSet.vars ↔ th.HasSet v) (v : ν) :
    v ∈ th'.td.writeSet.vars ↔ th'.HasSet v := by
  cases hm with
  | begins hset hw =>
    refine iff_of_false ?_ (hset v)
    rw [PodHashSet.vars, hw]
    exact List.not_mem_nil
  | same hg hset hw => rw [hset, ← h hg v, PodHashSet.vars, PodHashSet.vars, hw]
  | sets w hg hset hw => rw [hset, hw, h hg v]

end SetStep

/-- What the steps of an attempt that goes on do. -/
theorem Move.setStep (hm : Move cfg sh t th opened req sh' th') (hop : OpAt cfg th th.pc) (hbooks : Books th)
    (hg : th'.pc.goesOn = true) : SetStep th th' := by
  cases hm with
  | reclaimNothing hpc | waitMore _ _ _ _ _ hpc =>
      rw [hpc] at hg
      cases hg
  | getClock hpc =>
      refine .begins (fun v => ?_) (hbooks.sets (by rw [hpc]; rfl)).2.1
      rintro (hs | ⟨hs, -⟩)
      · exact not_sets_nil hs
      · cases hs
  | accessLock hpc => exact .of_same (by rw [hpc]; rfl) rfl rfl rfl rfl
  | goto pc' hin hout hset =>
      by_cases hfail : ∃ exn, pc' = .txFailure exn
      · obtain ⟨exn, rfl⟩ := hfail
        cases hg
      · have hr : th.pc.runsBody = true := PC.runsBody_of_inBody hin fun h =>
          hfail ((hset h).imp fun _ hv => hv.elim fun _ he => he.1)
        rcases hout with he | hf | rfl | ⟨rfl, -⟩
        · exact .of_same hr (PC.runsBody_of_isEntry he).2 rfl rfl rfl
        · exact absurd hf hfail
        · exact .of_same hr rfl rfl rfl rfl
        · cases hg
  | registerSucc id hpc hk hop' | registerFail id hpc hk hop' =>
      exact .of_returns (by rw [hpc]; rfl) (Op.ne_set hop' rfl) rfl rfl rfl rfl
  | nestedAtomic hpc hop' =>
      exact .of_returns (by rw [hpc]; rfl) (Op.ne_set hop' rfl) rfl rfl rfl rfl
  | readStorage path v hpc => exact .of_same (by rw [hpc]; rfl) rfl rfl rfl rfl
  | readReturns path v st hpc =>
      rw [hpc] at hop
      obtain ⟨hb, hl, he⟩ := returned_same th path v (st.load sh.cells)
      have hno : ∀ w x, th.body th.log ≠ .set w x := by
        rcases path with (_ | _) | (_ | _) | _
        · exact Op.ne_set hop.2.1 rfl
        · exact Op.ne_set hop.2.1 rfl
        · exact Op.ne_set hop.2.1 rfl
        · exact Op.ne_set hop.2.1 rfl
        · rcases hop with hop | ⟨-, hop | hop⟩ <;> exact Op.ne_set hop rfl
      have hlog := congrArg (· ++ [some (st.load sh.cells)]) hl
      exact .of_returns (by rw [hpc]; rfl) hno rfl hb hlog he
  | pendingReturns v pending hpc =>
      rw [hpc] at hop
      have hno : ∀ w x, th.body th.log ≠ .set w x := by
        rcases hop.2.1 with hop | hop <;> exact Op.ne_set hop rfl
      exact .of_returns (by rw [hpc]; rfl) hno rfl rfl rfl rfl
  | allocFast v x hpc =>
      rw [hpc] at hop
      exact .sets v (PC.goesOn_of_runsBody (by rw [hpc]; rfl)) (Thread.hasSet_inSet rfl rfl rfl hop.2.1)
        (PodHashSet.mem_vars_push (PodHashSet.entries_uncheckedPushBack ..))
  | curStorage v st hpc =>
      rw [hpc] at hop
      obtain ⟨x, hop'⟩ := hop.2.1
      exact .of_done (by rw [hpc]; rfl) hop' rfl rfl rfl rfl
  | slowStorage v x hpc => exact .of_same (by rw [hpc]; rfl) rfl rfl rfl rfl
  | allocSlow v x cur hpc =>
      rw [hpc] at hop
      exact .sets v (PC.goesOn_of_runsBody (by rw [hpc]; rfl)) (Thread.hasSet_set rfl rfl rfl hop.2.1)
        (PodHashSet.mem_vars_push (PodHashSet.entries_pushBack ..))
  | storePending v x pending hpc =>
      rw [hpc] at hop
      obtain ⟨-, hset, -, i, hl, -⟩ := hop
      exact .of_overwrites (by rw [hpc]; rfl) (Thread.hasSet_set rfl rfl rfl hset)
        (PodHashSet.mem_vars_of_lookup hl) rfl
  | atomicFast v st hpc =>
      rw [hpc] at hop
      obtain ⟨x, -, hop'⟩ := hop.2.1
      exact .sets v (PC.goesOn_of_runsBody (by rw [hpc]; rfl)) (Thread.hasSet_set rfl rfl rfl hop')
        (PodHashSet.mem_vars_push (PodHashSet.entries_uncheckedPushBack ..))
  | atomicPush v st hpc hl =>
      obtain ⟨hr, x, -, hop'⟩ := atomic_set hop hpc
      exact .sets v (PC.goesOn_of_runsBody hr) (Thread.hasSet_inSet rfl rfl rfl hop')
        (PodHashSet.mem_vars_push (PodHashSet.entries_pushBack ..))
  | atomicOverwrite v st i hpc hl =>
      obtain ⟨hr, x, -, hop'⟩ := atomic_set hop hpc
      exact .of_overwrites hr (Thread.hasSet_inSet rfl rfl rfl hop') (PodHashSet.mem_vars_of_lookup hl)
        (PodHashSet.vars_setPending ..)
  | atomicReturns v hpc =>
      rw [hpc] at hop
      obtain ⟨x, hop'⟩ := hop.2.1
      exact .of_done (by rw [hpc]; rfl) hop' rfl rfl rfl rfl
  | startCommit hpc => exact .of_same (by rw [hpc]; rfl) rfl rfl rfl rfl
  | allLocked i hpc => exact .of_same (by rw [hpc]; rfl) rfl rfl rfl rfl
  | success sync =>
      have hph := PC.not_runsBody_of_phase (reclaim_outside cfg
        ((th.setTxState .none).clearReadWriteSets.clearFailCallbacks) sync)
      rw [PC.goesOn, hph.1, hph.2] at hg
      cases hg
  | failureReadOnly exn | failDone exn => cases exn <;> cases hg
  | _ => first
    | exact .of_same (by simp only [*]; rfl) rfl rfl rfl rfl
    | cases hg

/-- **A step keeps the vars of the write set those that the body has set.** -/
theorem Move.hasSet (hm : Move cfg sh t th opened req sh' th') (hop : OpAt cfg th th.pc) (hbooks : Books th)
    (h : th.pc.goesOn = true → ∀ v, v ∈ th.td.writeSet.vars ↔ th.HasSet v) (hg : th'.pc.goesOn = true) :
    ∀ v, v ∈ th'.td.writeSet.vars ↔ th'.HasSet v := (hm.setStep hop hbooks hg).mem_vars_iff h

end Move

section Reach

variable {cfg : Config ι ν α} {ok : Request ν α → Prop} {s : Sys ι ν α}

/-- **The write set of an attempt that has not failed has the vars that its body has set.** -/
theorem hasSet_reach (h : Sys.Reach cfg ok s) : ∀ t, (s.threads t).pc.goesOn = true →
    ∀ v, v ∈ (s.threads t).td.writeSet.vars ↔ (s.threads t).HasSet v := by
  refine h.induct (P := fun s => ∀ t, (s.threads t).pc.goesOn = true →
    ∀ v, v ∈ (s.threads t).td.writeSet.vars ↔ (s.threads t).HasSet v) (fun _ hg => by cases hg) ?_
  intro s t req sh' th' hr ih _ hm
  refine Sys.forall_after (P := fun _ th => th.pc.goesOn = true →
    ∀ v, v ∈ th.td.writeSet.vars ↔ th.HasSet v) ?_ fun u _ => ih u
  exact hm.hasSet ((active_reach hr).opAt t) (books_reach hr t) (ih t)

/-- **What a commit has written is what its body has set.** -/
theorem writes_iff_sets (h : Sys.Reach cfg ok s) :
    ∀ c ∈ s.shared.hist.commits, ∀ v, c.Writes v ↔ Sets c.body c.log v := by
  refine h.induct (P := fun s => ∀ c ∈ s.shared.hist.commits, ∀ v, c.Writes v ↔ Sets c.body c.log v)
    (fun _ hc => absurd hc List.not_mem_nil) fun {s t req sh' th'} hr ih _ hm => ?_
  rw [Sys.shared_after, Shared.commits_atTime]
  rcases hm.effect.newCommit ((active_reach hr).opAt t) with hc | ⟨sh, version, point, hcells, hc, hrun, hk, hret⟩
  · exact hc ▸ ih
  · rw [hc]
    refine List.forall_mem_cons.mpr ⟨fun v => ?_, ih⟩
    refine commitRecord_writes.trans (Iff.trans ?_ ((hasSet_reach hr t (by rw [PC.goesOn, hrun]; rfl) v).trans ?_))
    · rw [PodHashSet.vars, List.mem_map]
      exact Iff.rfl
    · -- the body has returned, so it is in no set
      refine or_iff_left ?_
      rintro ⟨-, x, hop⟩
      cases hop.symm.trans hret

end Reach

/-! ## 2. Programs as bodies -/

section Encoding

variable {Var : Type} {Content : Var → Type} {Obj ε β : Type}

/-- The words for the contents of the vars, and the callback that destroys an object. -/
structure Encoding {Var : Type} (Content : Var → Type) (Obj α : Type) where
  encode : ∀ v, Content v → α
  decode : ∀ v, α → Content v
  decode_encode : ∀ v x, decode v (encode v x) = x
  callback : Obj → Nat

namespace Encoding

variable (E : Encoding Content Obj α)

/-- The memory in the words. -/
def memory (m : Var → α) : Optimistic.Memory Content := fun v => E.decode v (m v)

/-- The operation the program begins with. A store into an object that nobody else can reach is a set (see
    `body_storesAsSets`), and an object is handed over by a callback. A program that stops with an error throws. -/
def op : Optimistic.Program Content Obj ε β → Op Var α
  | .ret _ => .ret
  | .halt _ => .throw
  | .get v _ => .get v
  | .untrackedGet v _ => .untrackedGet v
  | .set v x _ | .unsafeSet v x _ => .set v (E.encode v x)
  | .retire o _ => .sometimeSynchronizedAfter (E.callback o)

/-- What is left of the program when its first operation has returned. -/
def resume : Optimistic.Program Content Obj ε β → Option α → Optimistic.Program Content Obj ε β
  | .get v next, some x | .untrackedGet v next, some x => next (E.decode v x)
  | .set _ _ next, _ | .unsafeSet _ _ next, _ | .retire _ next, _ => next
  | p, _ => p

/-- What is left of the program behind a log. -/
def after (p : Optimistic.Program Content Obj ε β) (log : Log α) : Optimistic.Program Content Obj ε β :=
  log.foldl E.resume p

/-- The body a family of programs is: behind `n` answers, the next operation of the member that has fuel for
    one more. -/
def body (p : Nat → Optimistic.Program Content Obj ε β) : Body Var α :=
  fun log => E.op (E.after (p (log.length + 1)) log)

variable {E} {p q : Optimistic.Program Content Obj ε β} {n : Nat} {log : Log α} {r : Option α}

@[simp] theorem after_nil : E.after p [] = p := rfl

@[simp] theorem after_concat : E.after p (log ++ [r]) = E.resume (E.after p log) r := by
  rw [after, List.foldl_append]
  rfl

theorem seesOwn_op : (E.op p : Op Var α).seesOwn = true := by cases p <;> rfl

/-- Programs that agree have the same operation, and what is left of them agrees. -/
theorem op_eq (h : p.Agree (n + 1) q) : E.op p = E.op q := by
  cases h <;> rfl

theorem resume_agree (h : p.Agree (n + 1) q) (r : Option α) : (E.resume p r).Agree n (E.resume q r) := by
  have hpred := h.pred
  cases h with
  | ret _ a => exact .ret n a
  | halt _ e => exact .halt n e
  | get v h | untrackedGet v h =>
      cases r with
      | none => exact hpred
      | some x => exact h _
  | set v x h | unsafeSet v x h => exact h
  | retire o h => exact h

theorem after_agree {m : Nat} (h : p.Agree m q) (hm : m = log.length + n) :
    (E.after p log).Agree n (E.after q log) := by
  subst hm
  induction log using List.reverseRecOn generalizing n with
  | nil => exact Nat.zero_add n ▸ h
  | append_singleton log r ih =>
      rw [after_concat, after_concat]
      refine resume_agree (ih ?_) r
      rwa [List.length_append, List.length_singleton, Nat.add_assoc, Nat.add_comm 1] at h

/-- Every member with fuel for one more operation has this one next. -/
theorem body_agree {p : Nat → Optimistic.Program Content Obj ε β} (hp : Optimistic.Converges p) (log : Log α)
    {fuel : Nat} (hf : log.length < fuel) : (E.after (p (log.length + 1)) log).Agree 1 (E.after (p fuel) log) :=
  after_agree (hp _ fuel hf) rfl

/-- The body of a program that sets the vars it stores into is the same. -/
theorem op_storesAsSets (p : Optimistic.Program Content Obj ε β) : E.op p.storesAsSets = E.op p := by
  cases p <;> rfl

theorem resume_storesAsSets (p : Optimistic.Program Content Obj ε β) (r : Option α) :
    E.resume p.storesAsSets r = (E.resume p r).storesAsSets := by
  cases p <;> cases r <;> rfl

theorem after_storesAsSets (p : Optimistic.Program Content Obj ε β) (log : Log α) :
    E.after p.storesAsSets log = (E.after p log).storesAsSets := by
  induction log using List.reverseRecOn with
  | nil => rfl
  | append_singleton log r ih => rw [after_concat, after_concat, ih, resume_storesAsSets]

/-- **A store into an object that nobody else can reach may be a set**: the body is that of the program that
    sets, which by `run_storesAsSets` ends in the same way, and commits the same. -/
theorem body_storesAsSets (p : Nat → Optimistic.Program Content Obj ε β) :
    E.body (fun fuel => (p fuel).storesAsSets) = E.body p := by
  funext log
  rw [body, body, after_storesAsSets, op_storesAsSets]

/-! ## 3. A body that has performed -/

/-- The attempt of the program has on record what the body has done. -/
structure Recorded (E : Encoding Content Obj α) (body : Body Var α) (log : Log α)
    (s : Optimistic.Attempt Content Obj) : Prop where
  reads : ∀ v, v ∈ s.reads ↔ Tracks body log v
  sets : ∀ v, v ∈ s.writes ∨ v ∈ s.privates ↔ Sets body log v
  retired : (s.retired.map E.callback).reverse = handedOver body log
  operations : s.operations = log.length

section Recorded

variable [DecidableEq Var] {body : Body Var α} {s s' : Optimistic.Attempt Content Obj} {m cur : Var → α}

omit [DecidableEq Var] in
/-- One more operation. -/
theorem Recorded.step (h : E.Recorded body log s) (hreads : ∀ v, v ∈ s'.reads ↔ v ∈ s.reads ∨ body log = .get v)
    (hsets : ∀ v, v ∈ s'.writes ∨ v ∈ s'.privates ↔ (v ∈ s.writes ∨ v ∈ s.privates) ∨ ∃ x, body log = .set v x)
    (hretired : s'.retired.map E.callback = (body log).handsOver.toList ++ s.retired.map E.callback)
    (hoperations : s'.operations = s.operations + 1) : E.Recorded body (log ++ [r]) s' where
  reads v := by rw [hreads, h.reads, tracks_concat]
  sets v := by rw [hsets, h.sets, sets_concat]
  retired := by
    rw [hretired, List.reverse_append, h.retired, handedOver_concat]
    cases (body log).handsOver <;> rfl
  operations := by rw [hoperations, h.operations, List.length_append, List.length_singleton]

theorem memory_update (v : Var) (x : Content v) :
    E.memory (Function.update cur v (E.encode v x)) = Function.update (E.memory cur) v x := by
  funext w
  by_cases hw : w = v
  · subst hw
    rw [memory, Function.update_self, Function.update_self, E.decode_encode]
  · rw [memory, Function.update_of_ne hw, Function.update_of_ne hw, memory]

/-- **One operation of the body is one of the program**, and of every program that agrees with it. -/
theorem Recorded.perform {cur' : Var → α} (h : E.Recorded body log s) (hview : s.view = E.memory cur)
    (hbody : body log = E.op q) (hop : (E.op q : Op Var α).perform cur = some (r, cur')) :
    ∃ s' : Optimistic.Attempt Content Obj, s'.view = E.memory cur' ∧ E.Recorded body (log ++ [r]) s' ∧
      ∀ p : Optimistic.Program Content Obj ε β, q.Agree 1 p → p.run s = (E.resume p r).run s' := by
  cases q with
  | ret a => cases hop
  | halt e => cases hop
  | get v next =>
      cases hop
      refine ⟨s.read v, hview, h.step (fun w => ?_) (fun w => ?_) ?_ (s.operations_read _), fun p hp => ?_⟩
      · simp [hbody, op, or_comm, eq_comm]
      · simp [hbody, op]
      · simp [hbody, op, Op.handsOver]
      · cases hp
        rw [Optimistic.Program.run, hview]
        rfl
  | untrackedGet v next =>
      cases hop
      refine ⟨s.readUntracked v, hview, h.step (fun w => ?_) (fun w => ?_) ?_ (s.operations_readUntracked _),
        fun p hp => ?_⟩
      · simp [hbody, op]
      · simp [hbody, op]
      · simp [hbody, op, Op.handsOver]
      · cases hp
        rw [Optimistic.Program.run, hview]
        rfl
  | set v x next =>
      cases hop
      refine ⟨s.write v x, ?_, h.step (fun w => ?_) (fun w => ?_) ?_ (s.operations_write v x), fun p hp => ?_⟩
      · rw [Optimistic.Attempt.write_view, hview, memory_update]
      · simp [hbody, op]
      · simp [hbody, op, or_comm, or_assoc, eq_comm]
      · simp [hbody, op, Op.handsOver]
      · cases hp
        rfl
  | unsafeSet v x next =>
      cases hop
      refine ⟨s.store v x, ?_, h.step (fun w => ?_) (fun w => ?_) ?_ (s.operations_store v x), fun p hp => ?_⟩
      · rw [Optimistic.Attempt.store_view, hview, memory_update]
      · simp [hbody, op]
      · simp [hbody, op, or_comm, or_left_comm, eq_comm]
      · simp [hbody, op, Op.handsOver]
      · cases hp
        rfl
  | retire o next =>
      cases hop
      refine ⟨s.retire o, hview, h.step (fun w => ?_) (fun w => ?_) ?_ (s.operations_retire _), fun p hp => ?_⟩
      · simp [hbody, op]
      · simp [hbody, op]
      · simp [hbody, op, Op.handsOver]
      · cases hp
        rfl

/-- **A body that has performed is a program that has run so far**, whichever member of the family has the
    fuel for it. -/
theorem recorded {p : Nat → Optimistic.Program Content Obj ε β} (hp : Optimistic.Converges p)
    (h : Performs (E.body p) m log cur) : ∃ s : Optimistic.Attempt Content Obj, s.view = E.memory cur ∧
      E.Recorded (E.body p) log s ∧
      ∀ fuel, log.length ≤ fuel → (p fuel).attempt (E.memory m) = (E.after (p fuel) log).run s := by
  induction h with
  | start =>
      refine ⟨.start (E.memory m), rfl, ⟨fun v => ?_, fun v => ?_, rfl, rfl⟩, fun fuel _ => rfl⟩
      · exact iff_of_false List.not_mem_nil not_tracks_nil
      · exact iff_of_false (by rintro (h | h) <;> cases h) not_sets_nil
  | step _ hop ih =>
      obtain ⟨s, hview, hrec, hrun⟩ := ih
      obtain ⟨s', hview', hrec', hnext⟩ := hrec.perform hview rfl hop
      refine ⟨s', hview', hrec', fun fuel hf => ?_⟩
      rw [List.length_append, List.length_singleton] at hf
      rw [hrun fuel (Nat.le_of_succ_le hf), after_concat]
      exact hnext _ (body_agree hp _ hf)

/-- **A body whose program returns** on the memory on which it has performed does not throw, and has returned
    when it has performed as many operations as the program does. -/
theorem Recorded.returns {p : Nat → Optimistic.Program Content Obj ε β} (hp : Optimistic.Converges p)
    {m : Optimistic.Memory Content} (hrec : E.Recorded (E.body p) log s)
    (hrun : ∀ fuel, log.length ≤ fuel → (p fuel).attempt m = (E.after (p fuel) log).run s) {b : β}
    (h : Optimistic.Returns p m b s') : E.body p log ≠ .throw ∧ log.length ≤ s'.operations ∧
      (log.length = s'.operations → E.body p log = .ret) := by
  obtain ⟨enough, h⟩ := h
  -- some member of the family has fuel for the whole program and for one more operation
  have hf : log.length < max enough (log.length + 1) := Nat.le_max_right ..
  have hend := (hrun _ hf.le).symm.trans (h _ (Nat.le_max_left ..))
  rw [body, op_eq (body_agree hp log hf)]
  generalize E.after (p (max enough (log.length + 1))) log = q at hend
  have hops := Optimistic.Program.run_operations hend
  rw [hrec.operations] at hops
  refine ⟨fun hthrow => ?_, hrec.operations.ge.trans (Optimistic.Program.operations_le hend), fun hall => ?_⟩
  · cases q with
    | halt e => cases hend
    | _ => cases hthrow
  · rw [hops.resolve_right (Nat.not_lt_of_le hall.ge)]
    rfl

end Recorded

end Encoding

/-! ## 4. The history of the calls -/

variable {κ : Type}

/-- A call that has committed: its result, and the attempt at its program in which it ended. -/
structure Ran (ι κ β α : Type) {Var : Type} (Content : Var → Type) (Obj : Type) where
  commit : Commit ι Var α
  call : κ
  result : β
  attempt : Optimistic.Attempt Content Obj

variable {prog : κ → Nat → Optimistic.Program Content Obj ε β} {E : Encoding Content Obj α}

/-- The requests: the programs as read_write calls, any read_only calls, and reclamations. -/
def Request.OfPrograms (E : Encoding Content Obj α) (prog : κ → Nat → Optimistic.Program Content Obj ε β) :
    Request Var α → Prop
  | .readWrite body => ∃ k, body = E.body (prog k)
  | .readOnly _ | .reclaimAll => True

theorem Request.OfPrograms.seesOwn {r : Request Var α} (h : r.OfPrograms E prog) : r.seesOwn := by
  cases r with
  | readWrite body =>
      obtain ⟨k, rfl⟩ := h
      exact fun log => Encoding.seesOwn_op
  | readOnly body => trivial
  | reclaimAll => trivial

section Ran

variable [DecidableEq Var]

/-- The memory after the commit. -/
def Ran.leave (r : Ran ι κ β α Content Obj) (m : Optimistic.Memory Content) : Optimistic.Memory Content :=
  r.attempt.commit m

/-- The call, made on the memory `m`, ends in the attempt. -/
def Ran.Began (prog : κ → Nat → Optimistic.Program Content Obj ε β) (r : Ran ι κ β α Content Obj)
    (m : Optimistic.Memory Content) : Prop :=
  Optimistic.Returns (prog r.call) m r.result r.attempt

/-- `d` has taken effect since `c` read the clock, and before `c`: `c` validates behind it. -/
def Ran.Passes (d c : Ran ι κ β α Content Obj) : Prop :=
  c.attempt.Validates (d.attempt.writes ++ d.attempt.privates) ∧
    c.commit.start ≤ d.commit.point ∧ d.commit.point ≤ c.commit.point

/-- The commit is one of the call, and leaves what the attempt does. -/
structure Ran.Of (E : Encoding Content Obj α) (prog : κ → Nat → Optimistic.Program Content Obj ε β)
    (r : Ran ι κ β α Content Obj) : Prop where
  body : r.commit.body = E.body (prog r.call)
  recorded : E.Recorded r.commit.body r.commit.log r.attempt
  writes : ∀ v, v ∈ r.attempt.writes ∨ v ∈ r.attempt.privates ↔ r.commit.Writes v
  leave : ∀ m, r.leave (E.memory m) = E.memory (r.commit.apply m)
  /-- on the answers of the commit the program has ended with the result -/
  result : ∀ fuel, r.commit.log.length < fuel → E.after (prog r.call fuel) r.commit.log = .ret r.result

omit [DecidableEq ι] in
theorem Commit.apply_of_writes {c : Commit ι Var α} {v : Var} (h : c.Writes v) (m m' : Var → α) :
    c.apply m v = c.apply m' v := by
  obtain ⟨w, hw⟩ := Option.isSome_iff_exists.mp h
  rw [Commit.apply, Commit.apply, hw]

omit [DecidableEq ι] in
theorem Commit.apply_of_not_writes {c : Commit ι Var α} {v : Var} (h : ¬ c.Writes v) (m : Var → α) :
    c.apply m v = m v := by
  rw [Commit.apply, WriteLog.not_writes.mp h]

omit [DecidableEq ι] in
/-- **One commit of a program**: the attempt in which it ended. -/
theorem exists_ran (hconv : ∀ k, Optimistic.Converges (prog k)) {c : Commit ι Var α}
    (hwrites : ∀ v, c.Writes v ↔ Sets c.body c.log v) {k : κ} (hbody : c.body = E.body (prog k)) {m : Var → α}
    (hc : c.Began m) : ∃ r : Ran ι κ β α Content Obj, r.commit = c ∧ r.Of E prog ∧ r.Began prog (E.memory m) := by
  obtain ⟨hret, hperf⟩ := hc
  rw [hbody] at hret hperf
  obtain ⟨s, hview, hrec, hrun⟩ := Encoding.recorded (hconv k) hperf
  -- the program has returned, with whatever fuel there is for one more operation
  obtain ⟨a, ha⟩ : ∃ a, E.after (prog k (c.log.length + 1)) c.log = .ret a := by
    revert hret
    unfold Encoding.body
    cases E.after (prog k (c.log.length + 1)) c.log <;> intro hret <;> first | exact ⟨_, rfl⟩ | cases hret
  have hsets : ∀ v, v ∈ s.writes ∨ v ∈ s.privates ↔ c.Writes v := fun v => by
    rw [hwrites, hbody, hrec.sets]
  have hresult : ∀ fuel, c.log.length < fuel → E.after (prog k fuel) c.log = .ret a := fun fuel hf => by
    have hagree := Encoding.body_agree (E := E) (hconv k) c.log hf
    rw [ha] at hagree
    exact hagree.eq_ret
  refine ⟨⟨c, k, a, s⟩, rfl, ⟨hbody, hbody ▸ hrec, hsets, fun m' => ?_, hresult⟩,
    c.log.length + 1, fun fuel hf => ?_⟩
  · funext v
    show (if v ∈ s.writes ∨ v ∈ s.privates then s.view v else E.memory m' v) = E.memory (c.apply m') v
    split
    · rename_i hv
      rw [hview, Encoding.memory, Encoding.memory, Commit.apply_of_writes ((hsets v).mp hv) m m']
    · rename_i hv
      rw [Encoding.memory, Encoding.memory, Commit.apply_of_not_writes fun h => hv ((hsets v).mpr h)]
  · rw [hrun fuel (Nat.le_of_succ_le hf), hresult fuel hf]
    rfl

omit [DecidableEq ι] in
/-- The attempts leave what the commits do. -/
theorem after_leave {runs : List (Ran ι κ β α Content Obj)} (h : ∀ r ∈ runs, r.Of E prog) (m : Var → α) :
    Histories.after Ran.leave (E.memory m) runs =
      E.memory (Serialization.replay Commit.put Written.value m (runs.map Ran.commit)) := by
  induction runs using List.reverseRecOn with
  | nil => rfl
  | append_singleton runs r ih =>
      rw [Histories.after_concat, ih fun r hr => h r (List.mem_append_left _ hr),
        (h r (List.mem_append_right _ List.mem_cons_self)).leave, List.map_append, Serialization.replay_append]
      exact congrArg E.memory (serialization_apply ..).symm

end Ran

section Result

variable [DecidableEq Var] {cfg : Config ι Var α} {ok : Request Var α → Prop} {s : Sys ι Var α}
  {order : List (Commit ι Var α)}

/-- The commits of a beginning of the order, as calls. -/
theorem TakesEffect.exists_runs (hag : cfg.HashesAgree) (hconv : ∀ k, Optimistic.Converges (prog k))
    (hok : ∀ r, ok r → r.OfPrograms E prog) (h : Sys.Reach cfg ok s) (ho : TakesEffect s order)
    {done rest : List (Commit ι Var α)} (e : order = done ++ rest) :
    ∃ runs : List (Ran ι κ β α Content Obj), runs.map Ran.commit = done ∧ (∀ r ∈ runs, r.Of E prog) ∧
      Histories.History Ran.leave (Ran.Began prog) Ran.Passes (E.memory cfg.initValue) runs := by
  induction done using List.reverseRecOn generalizing rest with
  | nil => exact ⟨[], rfl, by simp, .nil⟩
  | append_singleton done c ih =>
      rw [List.append_assoc, List.singleton_append] at e
      obtain ⟨runs, rfl, hof, hhist⟩ := ih e
      obtain ⟨pre, mid, hsplit, hbegan, -, hmid⟩ :=
        ho.overtaken hag (fun r hr => (hok r hr).seesOwn) h e
      obtain ⟨front, back, rfl, rfl, rfl⟩ := List.map_eq_append_iff.mp hsplit
      have hmem : ∀ d, d ∈ ((front ++ back).map Ran.commit) ++ c :: rest → d ∈ s.shared.hist.commits :=
        fun d hd => ho.perm.mem_iff.mp (e ▸ hd)
      have hc := hmem c (List.mem_append_right _ List.mem_cons_self)
      obtain ⟨hreq, -⟩ := account_commits Performs.account hag (fun _ hr => (hok _ hr).seesOwn) h c hc
      obtain ⟨k, hk⟩ := hok _ hreq
      obtain ⟨r, rfl, hr, hbegan⟩ := exists_ran hconv (writes_iff_sets h c hc) hk hbegan
      refine ⟨front ++ back ++ [r], by simp, ?_, hhist.concat ?_ fun d hd => ?_⟩
      · rw [List.forall_mem_append]
        exact ⟨hof, List.forall_mem_singleton.mpr hr⟩
      · rw [after_leave fun r hr => hof r (List.mem_append_left _ hr)]
        exact hbegan
      · -- what the other one has written the call has neither tracked nor set
        obtain ⟨hstart, hpoint, hpass⟩ := hmid d.commit (List.mem_map_of_mem hd)
        refine ⟨fun v hv => ?_, hstart, hpoint⟩
        have hw := ((hof d (List.mem_append_right _ hd)).writes v).mp (List.mem_append.mp hv)
        exact ⟨fun hread => (hpass v hw).1 ((hr.recorded.reads v).mp hread),
          fun hset => (hpass v hw).2 ((hr.writes v).mp (Or.inl hset))⟩

omit [DecidableEq ι] [DecidableEq Var] in
theorem PC.phase_of_goesOn {pc : PC ι Var α} (h : pc.goesOn = true) :
    pc.phase = .attempt ∧ pc.inCall = true ∧ (pc.runsBody = true ∨ pc.inSet = true) := by
  cases pc <;> first | exact ⟨rfl, rfl, Or.inl rfl⟩ | exact ⟨rfl, rfl, Or.inr rfl⟩ | cases h

/-- **An attempt that has not failed** has run its program so far on a beginning of the order. -/
theorem TakesEffect.running (hag : cfg.HashesAgree) (hconv : ∀ k, Optimistic.Converges (prog k))
    (hok : ∀ r, ok r → r.OfPrograms E prog) (h : Sys.Reach cfg ok s) (ho : TakesEffect s order) {t : ι}
    (hk : (s.threads t).kind = .readWrite) (hg : (s.threads t).pc.goesOn = true) :
    OfPrefix s order (s.threads t) fun earlier => ∃ k s', (s.threads t).body = E.body (prog k) ∧
      E.Recorded (E.body (prog k)) (s.threads t).log s' ∧ ∀ fuel, (s.threads t).log.length ≤ fuel →
        (prog k fuel).attempt (E.memory (leaves cfg earlier)) =
          (E.after (prog k fuel) (s.threads t).log).run s' := by
  obtain ⟨hp, hin, hat⟩ := PC.phase_of_goesOn hg
  have hpre := prefixes_reach h
  have hreq := hok _ (readWrite_of_inCall h t hin hk)
  obtain ⟨k, hbody⟩ := hreq
  refine ((hpre.running t hp).ofPrefix hpre (finished_in h) ho).imp fun earlier _ _ hagr => ?_
  obtain ⟨cur, hperf⟩ := (account_reach Performs.account hag h t
    ⟨hk, (hok _ (readWrite_of_inCall h t hin hk)).seesOwn⟩ hagr).log hat
  rw [hbody] at hperf
  obtain ⟨s', -, hrec, hrun⟩ := Encoding.recorded (hconv k) hperf
  exact ⟨k, s', hbody, hrec, hrun⟩

/-- **The committed calls are a history of optimistic transactions.** In every state reached by calls of
    programs over typed vars, also with untracked gets, there is an order of the committed calls, in which none
    that finished before another's attempt read the clock comes after it, and which leaves in every var what it
    holds, such that every call has run on what a beginning of those before it leaves, and validates behind the
    others before it; its result is the one its program ends with on the answers of the commit, and it has
    handed over what its program retires. And every attempt that has not failed has run its program so far on
    what a beginning of the order leaves, one with all that had finished when it began and nothing that took
    effect after it. -/
theorem programs_history (hag : cfg.HashesAgree) (hconv : ∀ k, Optimistic.Converges (prog k))
    (hok : ∀ r, ok r → r.OfPrograms E prog) (h : Sys.Reach cfg ok s) :
    ∃ runs : List (Ran ι κ β α Content Obj), (runs.map Ran.commit).Perm s.shared.hist.commits ∧
      (runs.map Ran.commit).Pairwise (fun c d => ∀ f ∈ s.shared.hist.finished, d.tid = f.1 → d.attempt = f.2.1 →
        c.start ≤ f.2.2) ∧
      (∀ v, (∀ u, ¬ (s.threads u).PreStored v) →
        Histories.after Ran.leave (E.memory cfg.initValue) runs v =
          E.decode v ((s.shared.loadStorage v).load s.shared.cells)) ∧
      Histories.History Ran.leave (Ran.Began prog) Ran.Passes (E.memory cfg.initValue) runs ∧
      (∀ r ∈ runs, r.commit.body = E.body (prog r.call) ∧
        (∀ fuel, r.commit.log.length < fuel → E.after (prog r.call fuel) r.commit.log = .ret r.result) ∧
        handedOver r.commit.body r.commit.log = (r.attempt.retired.map E.callback).reverse) ∧
      ∀ t, (s.threads t).kind = .readWrite → (s.threads t).pc.goesOn = true → ∃ pre post, runs = pre ++ post ∧
        (∀ r ∈ runs, FinishedBefore s (s.threads t).att.start r.commit → r.commit ∈ pre.map Ran.commit) ∧
        (∀ r ∈ pre, r.commit.point < (s.threads t).att.start) ∧
        ∃ k s', (s.threads t).body = E.body (prog k) ∧ ∀ fuel, (s.threads t).log.length ≤ fuel →
          (prog k fuel).attempt (Histories.after Ran.leave (E.memory cfg.initValue) pre) =
            (E.after (prog k fuel) (s.threads t).log).run s' := by
  obtain ⟨order, ho⟩ := exists_takesEffect s
  obtain ⟨runs, rfl, hof, hhist⟩ := ho.exists_runs hag hconv hok h (List.append_nil order).symm
  refine ⟨runs, ho.perm, ho.real_time h, fun v hv => ?_, hhist, fun r hr => ?_, fun t hk hg => ?_⟩
  · rw [after_leave hof, Encoding.memory]
    exact congrArg (E.decode v) (leaves_order h ho hv)
  · exact ⟨(hof r hr).body, (hof r hr).result, (hof r hr).recorded.retired.symm⟩
  · obtain ⟨earlier, later, e, ⟨k, s', hbody, -, hrun⟩, hfin, hlt, -⟩ := ho.running hag hconv hok h hk hg
    obtain ⟨pre, post, rfl, rfl, rfl⟩ := List.map_eq_append_iff.mp e
    refine ⟨pre, post, rfl, fun r hr hf => hfin _ (List.mem_map_of_mem hr) hf,
      fun r hr => hlt _ (List.mem_map_of_mem hr), k, s', hbody, fun fuel hf => ?_⟩
    rw [after_leave fun r hr => hof r (List.mem_append_left _ hr)]
    exact hrun fuel hf

end Result

end Encoding

/-- A counter, and whether it has been counted up. -/
@[reducible] def CounterContent : Bool → Type
  | true => Nat
  | false => Bool

def counterEncoding : Encoding CounterContent Nat Nat where
  encode
    | true, n => n
    | false, b => b.toNat
  decode
    | true, n => n
    | false, n => n == 1
  decode_encode v x := by
    cases v with
    | true => rfl
    | false => cases x <;> rfl
  callback o := o

/-- Look untracked whether the counter has been counted up, and do it if not. -/
def countOnce : Optimistic.Program CounterContent Nat Unit Bool :=
  .untrackedGet false fun done => bif done then .ret false else
    .get true fun n => .set true (n + 1 : Nat) (.set false true (.retire 7 (.ret true)))

def countCall : Request Bool Nat := .readWrite (counterEncoding.body fun _ => countOnce)

/-- One thread has looked when the other one counts. -/
def counted : List (Bool × Option (Request Bool Nat)) :=
  (true, some countCall) :: List.replicate 5 (true, none) ++
  (false, some countCall) :: List.replicate 31 (false, none)

theorem counted_isSome : (Sys.run smallConfig counted (.init smallConfig)).isSome = true := by decide

theorem counted_reach :
    Sys.Reach smallConfig (Request.OfPrograms counterEncoding fun (_ : Unit) _ => countOnce)
      ((Sys.run smallConfig counted (.init smallConfig)).get counted_isSome) := by
  refine .of_run (fun m hm r hr => ?_) (Option.some_get counted_isSome).symm
  simp only [counted, List.cons_append, List.mem_cons, List.mem_append, List.mem_replicate] at hm
  rcases hm with rfl | ⟨_, rfl⟩ | rfl | ⟨_, rfl⟩ <;> cases hr <;> exact ⟨(), rfl⟩

theorem programs_history_counted :
    let s := (Sys.run smallConfig counted (.init smallConfig)).get counted_isSome
    let m := counterEncoding.memory smallConfig.initValue
    (s.threads true).log = [some 0] ∧ s.shared.hist.commits.length = 1 ∧
    ∃ runs : List (Ran Bool Unit Bool Nat CounterContent Nat),
      (runs.map Ran.commit).Perm s.shared.hist.commits ∧
      (runs.map Ran.commit).Pairwise (fun c d => ∀ f ∈ s.shared.hist.finished, d.tid = f.1 → d.attempt = f.2.1 →
        c.start ≤ f.2.2) ∧
      (∀ v, (∀ u, ¬ (s.threads u).PreStored v) → Histories.after Ran.leave m runs v =
        counterEncoding.decode v ((s.shared.loadStorage v).load s.shared.cells)) ∧
      Histories.History Ran.leave (Ran.Began fun _ _ => countOnce) Ran.Passes m runs ∧
      (∀ r ∈ runs, r.commit.body = counterEncoding.body (fun _ => countOnce) ∧
        (∀ fuel, r.commit.log.length < fuel → counterEncoding.after countOnce r.commit.log = .ret r.result) ∧
        handedOver r.commit.body r.commit.log = (r.attempt.retired.map counterEncoding.callback).reverse) ∧
      ∀ t, (s.threads t).kind = .readWrite → (s.threads t).pc.goesOn = true → ∃ pre post, runs = pre ++ post ∧
        (∀ r ∈ runs, FinishedBefore s (s.threads t).att.start r.commit → r.commit ∈ pre.map Ran.commit) ∧
        (∀ r ∈ pre, r.commit.point < (s.threads t).att.start) ∧
        ∃ (_ : Unit) (s' : Optimistic.Attempt CounterContent Nat),
          (s.threads t).body = counterEncoding.body (fun _ => countOnce) ∧
          ∀ fuel, (s.threads t).log.length ≤ fuel → countOnce.attempt (Histories.after Ran.leave m pre) =
            (counterEncoding.after countOnce (s.threads t).log).run s' :=
  ⟨by decide, by decide, programs_history smallConfig_hashesAgree (fun _ _ _ _ => .refl ..) (fun _ => id)
    counted_reach⟩

end LockfreeStm
