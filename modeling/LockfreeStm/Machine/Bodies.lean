/-
  File:      LockfreeStm/Machine/Bodies.lean
  Subject:   WHAT A BODY HAS DONE: its log and its write set are those of a run alone, on any memory
             that holds the values it has read.

  * `Alone` -- a body executed alone on a memory: gets read it, sets write it.
  * `overlay` -- a memory with the pending writes of a write set over it.
  * `Bodies`, `bodies_reach` -- in every state reached by read_write calls whose bodies get, set and
    return, the log of a running body is one it has when it runs alone on a memory that agrees with
    its reads, and the memory it leaves is that memory with its write set over it; so for the commits.
-/
import LockfreeStm.Machine.WriteSets
import LockfreeStm.Machine.Atomicity

namespace LockfreeStm

variable {ι ν α : Type}

/-! ## 1. A body alone -/

/-- A tracked get, a set, or the end. -/
def Op.isSimple : Op ν α → Bool
  | .get _ | .set _ _ | .ret => true
  | _ => false

/-- Anything but an untracked get, or a get through a read_transaction without thread_data. -/
def Op.isTracked : Op ν α → Bool
  | .untrackedGet _ | .readOnlyGet _ => false
  | _ => true

theorem Op.isTracked_of_isSimple {op : Op ν α} (h : op.isSimple = true) : op.isTracked = true := by
  cases op <;> first | rfl | cases h

/-- A read_write call whose body uses only tracked gets and sets. -/
def Request.isSimple : Request ν α → Prop
  | .readWrite body => ∀ log, (body log).isSimple = true
  | _ => False

section Alone

variable [DecidableEq ν]

/-- A body executed alone from memory `m`: its log, and the memory so far. -/
inductive Alone (body : Body ν α) (m : ν → α) : Log α → (ν → α) → Prop where
  | start : Alone body m [] m
  | get {log : Log α} {cur : ν → α} {v : ν} (h : Alone body m log cur) (hop : body log = .get v) :
      Alone body m (log ++ [some (cur v)]) cur
  | set {log : Log α} {cur : ν → α} {v : ν} {x : α} (h : Alone body m log cur)
      (hop : body log = .set v x) : Alone body m (log ++ [none]) (Function.update cur v x)

/-! ## 2. The write set over a memory -/

/-- The memory with the pending writes over it. -/
def overlay (es : List (WriteSetValueType ν (VarStorage α))) (cells : Ptr → α) (m : ν → α) (v : ν) : α :=
  match es.find? (·.destVar = v) with
  | some e => e.pendingWrite.load cells
  | none => m v

variable {es : List (WriteSetValueType ν (VarStorage α))} {cells cells' : Ptr → α} {m : ν → α}

theorem overlay_of_not_mem {v : ν} (h : v ∉ es.map (·.destVar)) : overlay es cells m v = m v := by
  have hn : es.find? (·.destVar = v) = none := by
    rw [List.find?_eq_none]
    exact fun e he => by simpa using fun hv => h (List.mem_map.mpr ⟨e, he, hv⟩)
  rw [overlay, hn]

/-- A pending write is what its var holds. -/
theorem overlay_of_mem (hn : (es.map (·.destVar)).Nodup)
    {e : WriteSetValueType ν (VarStorage α)} (he : e ∈ es) :
    overlay es cells m e.destVar = e.pendingWrite.load cells := by
  cases hf : es.find? (·.destVar = e.destVar) with
  | none => exact absurd (List.find?_eq_none.mp hf e he) (by simp)
  | some e' =>
      have hv : e'.destVar = e.destVar := by simpa using List.find?_some hf
      obtain ⟨i, hi⟩ := List.mem_iff_getElem?.mp (List.mem_of_find?_eq_some hf)
      obtain ⟨j, hj⟩ := List.mem_iff_getElem?.mp he
      obtain rfl := eq_of_destVar_eq hn hi hj hv
      obtain rfl : e' = e := Option.some.inj (hi.symm.trans hj)
      rw [overlay, hf]

theorem overlay_congr (h : ∀ e ∈ es, e.pendingWrite.load cells' = e.pendingWrite.load cells) :
    overlay es cells' m = overlay es cells m := by
  funext v
  unfold overlay
  split
  · rename_i e hf
    exact h e (List.mem_of_find?_eq_some hf)
  · rfl

/-- A write set that holds what another one holds, but for one var. -/
theorem overlay_update {es' : List (WriteSetValueType ν (VarStorage α))} {v : ν} {x : α}
    (hn : (es.map (·.destVar)).Nodup) (hn' : (es'.map (·.destVar)).Nodup)
    (hmem : ∀ w, w ≠ v → (w ∈ es'.map (·.destVar) ↔ w ∈ es.map (·.destVar)))
    (hv : ∃ e ∈ es', e.destVar = v ∧ e.pendingWrite.load cells' = x)
    (hold : ∀ e ∈ es, e.destVar ≠ v → e ∈ es' ∧ e.pendingWrite.load cells' = e.pendingWrite.load cells) :
    overlay es' cells' m = Function.update (overlay es cells m) v x := by
  funext w
  by_cases hw : w = v
  · subst hw
    obtain ⟨e, he, rfl, rfl⟩ := hv
    rw [overlay_of_mem hn' he, Function.update_self]
  · rw [Function.update_of_ne hw]
    by_cases hin : w ∈ es.map (·.destVar)
    · obtain ⟨e, he, rfl⟩ := List.mem_map.mp hin
      obtain ⟨he', hl⟩ := hold e he hw
      rw [overlay_of_mem hn' he', overlay_of_mem hn he, hl]
    · rw [overlay_of_not_mem hin, overlay_of_not_mem fun h => hin ((hmem w hw).mp h)]

/-- A push. -/
theorem overlay_push {v : ν} {st : VarStorage α} (hn : (es.map (·.destVar)).Nodup)
    (hv : v ∉ es.map (·.destVar))
    (hl : ∀ e ∈ es, e.pendingWrite.load cells' = e.pendingWrite.load cells) :
    overlay (es ++ [⟨v, st⟩]) cells' m = Function.update (overlay es cells m) v (st.load cells') := by
  refine overlay_update hn ?_ (fun w hw => ?_) ⟨⟨v, st⟩, by simp, rfl, rfl⟩
    fun e he _ => ⟨List.mem_append_left _ he, hl e he⟩
  · rw [List.map_append, List.nodup_append]
    refine ⟨hn, by simp, ?_⟩
    rintro w hw w' hw' rfl
    simp only [List.map_cons, List.map_nil, List.mem_singleton] at hw'
    exact hv (hw' ▸ hw)
  · simp [hw]

/-- An entry overwritten in the write set. -/
theorem overlay_modify {i : Nat} {e : WriteSetValueType ν (VarStorage α)} {st : VarStorage α}
    (hn : (es.map (·.destVar)).Nodup) (he : es[i]? = some e) :
    overlay (es.modify i fun e => { e with pendingWrite := st }) cells m =
      Function.update (overlay es cells m) e.destVar (st.load cells) := by
  have hmap : (es.modify i fun e => { e with pendingWrite := st }).map (·.destVar) =
      es.map (·.destVar) := by
    refine List.ext_getElem? fun j => ?_
    rw [List.getElem?_map, List.getElem?_map, List.getElem?_modify]
    split <;> cases es[j]? <;> rfl
  refine overlay_update hn (hmap ▸ hn) (fun w _ => by rw [hmap]) ⟨⟨e.destVar, st⟩, ?_, rfl, rfl⟩ ?_
  · refine List.mem_iff_getElem?.mpr ⟨i, ?_⟩
    rw [List.getElem?_modify, he]
    simp
  · intro e' he' hne
    obtain ⟨j, hj⟩ := List.mem_iff_getElem?.mp he'
    have hij : i ≠ j := by
      rintro rfl
      exact hne (congrArg WriteSetValueType.destVar (Option.some.inj (hj.symm.trans he)))
    refine ⟨List.mem_iff_getElem?.mpr ⟨j, ?_⟩, rfl⟩
    rw [List.getElem?_modify, hj]
    simp [hij]

/-- An assignment to the object of an entry. -/
theorem overlay_assign {e : WriteSetValueType ν (VarStorage α)} {p : Ptr} {x : α}
    (hn : (es.map (·.destVar)).Nodup)
    (hd : es.Pairwise fun e e' => ∀ p, e.pendingWrite = .ptr p → e'.pendingWrite ≠ .ptr p)
    (he : e ∈ es) (hp : e.pendingWrite = .ptr p) :
    overlay es (Function.update cells p x) m = Function.update (overlay es cells m) e.destVar x := by
  refine overlay_update hn hn (fun _ _ => Iff.rfl) ⟨e, he, rfl, ?_⟩ fun e' he' hne => ⟨he', ?_⟩
  · rw [hp]
    exact Function.update_self ..
  · refine load_update_of_ne fun hp' => ?_
    have hsymm : es.Pairwise fun a b => a.pendingWrite = .ptr p → b.pendingWrite ≠ .ptr p :=
      hd.imp fun h => h p
    obtain ⟨i, hi, rfl⟩ := List.getElem_of_mem he
    obtain ⟨j, hj, rfl⟩ := List.getElem_of_mem he'
    rcases Nat.lt_trichotomy i j with hij | rfl | hij
    · exact List.pairwise_iff_getElem.mp hsymm i j hi hj hij hp hp'
    · exact hne rfl
    · exact List.pairwise_iff_getElem.mp hsymm j i hj hi hij hp' hp

end Alone

/-! ## 3. The invariant -/

variable [DecidableEq ι] [DecidableEq ν]

/-- The places at which an attempt has not failed and is not inside a set. -/
def PC.runsBody : PC ι ν α → Bool
  | .unlockLoad _ _ | .unlockStore _ _ _ | .txFailure _ | .writeCurStorage _ _
  | .atomicWriteSlowVersion _ => false
  | pc => pc.phase = .attempt

/-- What a place says about the body: it has run alone up to its log, or it is inside a set whose
    entry is in the write set already. -/
def BodyAt (cells : Ptr → α) (th : Thread ι ν α) (m : ν → α) : PC ι ν α → Prop
  | .writeCurStorage v _ | .atomicWriteSlowVersion v => ∃ x cur, th.body th.log = .set v x ∧
      Alone th.body m th.log cur ∧
      overlay th.td.writeSet.entries cells m = Function.update cur v x
  | pc => pc.runsBody = true → Alone th.body m th.log (overlay th.td.writeSet.entries cells m)

/-- The same for any account `A` of what a body has done: `A log cur` relates the log to the memory the
    body would leave. -/
def AccountAt (A : Log α → (ν → α) → Prop) (cells : Ptr → α) (th : Thread ι ν α) (m : ν → α) :
    PC ι ν α → Prop
  | .writeCurStorage v _ | .atomicWriteSlowVersion v => ∃ x cur, th.body th.log = .set v x ∧
      A th.log cur ∧ overlay th.td.writeSet.entries cells m = Function.update cur v x
  | pc => pc.runsBody = true → A th.log (overlay th.td.writeSet.entries cells m)

/-- An account of the bodies that do nothing but what `ok` allows, from memory `m`: every operation
    carries it on. -/
structure Account (ok : Op ν α → Bool) (body : Body ν α) (m : ν → α)
    (A : Log α → (ν → α) → Prop) : Prop where
  start : A [] m
  get : ∀ {log cur v}, A log cur → ok (body log) = true →
    body log = .get v ∨ body log = .untrackedGet v → A (log ++ [some (cur v)]) cur
  set : ∀ {log cur v x}, A log cur → body log = .set v x →
    A (log ++ [none]) (Function.update cur v x)
  other : ∀ {log cur}, A log cur → ok (body log) = true →
    (∃ id, body log = .sometimeSynchronizedAfter id ∨ body log = .afterFail id) ∨
      body log = .nestedAtomic → A (log ++ [none]) cur
  notReadOnly : ∀ v, ok (.readOnlyGet v) = false

/-- The memory agrees with what the attempt has read. -/
def Agrees (m : ν → α) (reads : List (ν × α)) : Prop := ∀ p ∈ reads, m p.1 = p.2

/-- What a committed transaction leaves of memory `m`. -/
def Commit.apply (c : Commit ι ν α) (m : ν → α) (v : ν) : α :=
  match c.put v with
  | some w => w.value
  | none => m v

/-- The body of a committed transaction has run to its end. -/
def Commit.Replays (c : Commit ι ν α) : Prop :=
  c.body c.log = .ret ∧ ∀ m, Agrees m c.reads → Alone c.body m c.log (c.apply m)

/-- What the bodies have done. -/
structure Bodies (s : Sys ι ν α) : Prop where
  simple : ∀ t, (s.threads t).pc.inCall = true →
    (s.threads t).kind = .readWrite ∧ ∀ log, ((s.threads t).body log).isSimple = true
  running : ∀ t m, Agrees m (s.threads t).att.reads →
    BodyAt s.shared.cells (s.threads t) m (s.threads t).pc
  commits : ∀ c ∈ s.shared.hist.commits, c.Replays

omit [DecidableEq ι] in
/-- The writes of a commit record are the overlay of its write set. -/
theorem apply_commitRecord (sh : Shared ι ν α) (t : ι) (th : Thread ι ν α) (version : Epoch)
    (point : Nat) (opened : ι → Option Nat) (m : ν → α) :
    (commitRecord sh t th version point opened).apply m =
      overlay th.td.writeSet.entries sh.cells m := by
  funext v
  have hf : (commitRecord sh t th version point opened).put v =
      (th.td.writeSet.entries.find? (·.destVar = v)).map
        fun e => ⟨e.destVar, e.pendingWrite, e.pendingWrite.load sh.cells⟩ := by
    rw [Commit.put, commitRecord, List.find?_map]
    rfl
  rw [Commit.apply, overlay, hf]
  cases th.td.writeSet.entries.find? (·.destVar = v) <;> rfl

section Step

variable {cfg : Config ι ν α} {sh sh' : Shared ι ν α} {t : ι} {th th' : Thread ι ν α}
  {opened : ι → Option Nat} {req : Option (Request ν α)} {m : ν → α}

omit [DecidableEq ι] in
/-- `BodyAt` is the account of a run alone. -/
theorem bodyAt_iff {pc : PC ι ν α} {cells : Ptr → α} :
    BodyAt cells th m pc ↔ AccountAt (Alone th.body m) cells th m pc := by
  cases pc <;> exact Iff.rfl

theorem Alone.account (body : Body ν α) (m : ν → α) :
    Account Op.isSimple body m (Alone body m) where
  start := .start
  get h hok hop := by
    rcases hop with hop | hop
    · exact h.get hop
    · rw [hop] at hok
      cases hok
  set h hop := h.set hop
  other _ hok hop := by
    rcases hop with ⟨id, hop | hop⟩ | hop <;> (rw [hop] at hok; cases hok)
  notReadOnly _ := rfl

section Account

variable {A : Log α → (ν → α) → Prop} {ok : Op ν α → Bool}

omit [DecidableEq ι] in
/-- A place that is not inside a set says no more than that the body has run. -/
theorem AccountAt.of_runs {pc : PC ι ν α} {cells : Ptr → α} (hs : pc.inSet = false)
    (h : pc.runsBody = true → A th.log (overlay th.td.writeSet.entries cells m)) :
    AccountAt A cells th m pc := by
  cases pc <;> first | exact h | cases hs

omit [DecidableEq ι] in
theorem AccountAt.runs {pc : PC ι ν α} {cells : Ptr → α} (hr : pc.runsBody = true)
    (h : AccountAt A cells th m pc) : A th.log (overlay th.td.writeSet.entries cells m) := by
  cases pc <;> first | exact h hr | cases hr

omit [DecidableEq ι] in
/-- Inside a set, too, the account holds of the log. -/
theorem AccountAt.log {pc : PC ι ν α} {cells : Ptr → α}
    (hr : pc.runsBody = true ∨ pc.inSet = true) (h : AccountAt A cells th m pc) :
    ∃ cur, A th.log cur := by
  rcases hr with hr | hs
  · exact ⟨_, h.runs hr⟩
  · cases pc with
    | writeCurStorage | atomicWriteSlowVersion =>
        obtain ⟨_, cur, _, hA, _⟩ := h
        exact ⟨cur, hA⟩
    | _ => cases hs

end Account

omit [DecidableEq ι] [DecidableEq ν] in
theorem PC.runsBody_of_isEntry {pc : PC ι ν α} (h : pc.isEntry = true) :
    pc.runsBody = true ∧ pc.inSet = false := by
  cases pc <;> first | exact ⟨rfl, rfl⟩ | cases h

omit [DecidableEq ι] [DecidableEq ν] in
theorem PC.runsBody_of_inBody {pc : PC ι ν α} (h : pc.inBody = true) (hs : ¬ pc.inSet = true) :
    pc.runsBody = true := by
  cases pc <;> first | exact absurd rfl hs | rfl | cases h

omit [DecidableEq ι] [DecidableEq ν] in
theorem PC.not_runsBody_of_phase {pc : PC ι ν α} (h : pc.phase = .outside) :
    pc.runsBody = false ∧ pc.inSet = false := by
  cases pc <;> first | exact ⟨rfl, rfl⟩ | cases h

omit [DecidableEq ι] in
/-- The slow path of a set of an atomic var, at the push or the overwriting. -/
theorem atomic_set {v : ν} {s : VarStorage α} (hop : OpAt cfg th th.pc)
    (hpc : th.pc = .call ∧ th.kind = .readWrite ∧ (∃ x, s = .raw x ∧ th.body th.log = .set v x) ∧
      cfg.varType v = .atomic ∨ th.pc = .atomicWriteVersion v s) :
    th.pc.runsBody = true ∧ ∃ x, s = .raw x ∧ th.body th.log = .set v x := by
  rcases hpc with ⟨hpc, _, hx, _⟩ | hpc
  · exact ⟨by rw [hpc]; rfl, hx⟩
  · rw [hpc] at hop ⊢
    exact ⟨rfl, hop.2.1⟩

omit [DecidableEq ι] in
/-- A get through the write set that is about to return: of a var it has not written. -/
theorem OpAt.get {path : ReadPath} {v : ν} {st : VarStorage α} {ok : Op ν α → Bool}
    (hop : OpAt cfg th (.readVersion path v st)) (hk : th.kind = .readWrite)
    (hs : ok (th.body th.log) = true) (hro : ∀ v, ok (.readOnlyGet v) = false)
    (hc : th.td.writeSet.FilterCovers cfg.baseHash) :
    (th.body th.log = .get v ∨ th.body th.log = .untrackedGet v) ∧ v ∉ th.td.writeSet.vars := by
  rcases path with (_ | _) | (_ | _) | _
  · exact ⟨Or.inr hop.2.1, PodHashSet.not_mem_of_filter hc hop.2.2⟩
  · exact ⟨Or.inl hop.2.1, PodHashSet.not_mem_of_filter hc hop.2.2⟩
  · exact ⟨Or.inr hop.2.1, (PodHashSet.find_eq_none hc).mp hop.2.2⟩
  · exact ⟨Or.inl hop.2.1, (PodHashSet.find_eq_none hc).mp hop.2.2⟩
  · rcases hop with hop | ⟨hro', _⟩
    · rw [hop, hro v] at hs
      cases hs
    · rw [hk] at hro'
      cases hro'

omit [DecidableEq ι] in
/-- The gets of a tracked body are tracked. -/
theorem OpAt.tracked {path : ReadPath} {v : ν} {st : VarStorage α}
    (hop : OpAt cfg th (.readVersion path v st)) (hk : th.kind = .readWrite)
    (hs : (th.body th.log).isTracked = true) : path = .fast true ∨ path = .slow true := by
  have no : ∀ {op : Op ν α}, th.body th.log = op → op.isTracked = false →
      path = .fast true ∨ path = .slow true := by
    intro op h hn
    rw [h, hn] at hs
    cases hs
  rcases path with (_ | _) | (_ | _) | _
  · exact no hop.2.1 rfl
  · exact Or.inl rfl
  · exact no hop.2.1 rfl
  · exact Or.inr rfl
  · rcases hop with hop | ⟨hro, _⟩
    · exact no hop rfl
    · rw [hk] at hro
      cases hro

section AccountStep

variable {A : Log α → (ν → α) → Prop} {ok : Op ν α → Bool}

omit [DecidableEq ι] in
/-- Where the body does not run there is nothing to say. -/
theorem AccountAt.out {cells : Ptr → α} (hr : th'.pc.runsBody = false) (hs : th'.pc.inSet = false) :
    AccountAt A cells th' m th'.pc := by
  refine .of_runs hs fun hr' => ?_
  rw [hr] at hr'
  cases hr'

omit [DecidableEq ι] in
/-- A step that leaves the objects, the log and the write set alone. -/
theorem AccountAt.same (h : AccountAt A sh.cells th m th.pc) (hc : sh'.cells = sh.cells)
    (hr : th.pc.runsBody = true) (hs : th'.pc.inSet = false) (hlog : th'.log = th.log)
    (he : th'.td.writeSet.entries = th.td.writeSet.entries) : AccountAt A sh'.cells th' m th'.pc := by
  refine .of_runs hs fun _ => ?_
  rw [hc, hlog, he]
  exact h.runs hr

omit [DecidableEq ι] in
/-- A set that returns. -/
theorem AccountAt.afterSet (hA : Account ok th.body m A) (h : AccountAt A sh.cells th m th.pc)
    {cells : Ptr → α} {v : ν} {x : α} (hr : th.pc.runsBody = true) (hset : th.body th.log = .set v x)
    (hs : th'.pc.inSet = false) (hlog : th'.log = th.log ++ [none])
    (he : overlay th'.td.writeSet.entries cells m =
      Function.update (overlay th.td.writeSet.entries sh.cells m) v x) :
    AccountAt A cells th' m th'.pc := by
  refine .of_runs hs fun _ => ?_
  rw [hlog, he]
  exact hA.set (h.runs hr) hset

omit [DecidableEq ι] in
/-- An operation without a value that leaves the write set alone. -/
theorem AccountAt.afterOther (hA : Account ok th.body m A) (h : AccountAt A sh.cells th m th.pc)
    (hpc : th.pc = .call) (hok : ok (th.body th.log) = true)
    (hop : (∃ id, th.body th.log = .sometimeSynchronizedAfter id ∨ th.body th.log = .afterFail id) ∨
      th.body th.log = .nestedAtomic)
    (hs : th'.pc.inSet = false) (hlog : th'.log = th.log ++ [none])
    (he : th'.td.writeSet.entries = th.td.writeSet.entries) : AccountAt A sh.cells th' m th'.pc := by
  refine .of_runs hs fun _ => ?_
  rw [hlog, he]
  exact hA.other (h.runs (by rw [hpc]; rfl)) hok hop

omit [DecidableEq ι] in
/-- The end of a set whose entry is in the write set already. -/
theorem AccountAt.setReturns (hA : Account ok th.body m A) {v : ν} {cells : Ptr → α}
    (h : ∃ x cur, th.body th.log = .set v x ∧ A th.log cur ∧
      overlay th.td.writeSet.entries cells m = Function.update cur v x)
    (hs : th'.pc.inSet = false) (hlog : th'.log = th.log ++ [none])
    (he : th'.td.writeSet.entries = th.td.writeSet.entries) : AccountAt A cells th' m th'.pc := by
  obtain ⟨x, cur, hset, hrun, hov⟩ := h
  refine .of_runs hs fun _ => ?_
  rw [hlog, he, hov]
  exact hA.set hrun hset

omit [DecidableEq ι] in
/-- The steps of the body that only move on. -/
theorem AccountAt.goto (h : AccountAt A sh.cells th m th.pc) {pc' : PC ι ν α} (hin : th.pc.inBody = true)
    (hout : pc'.isEntry = true ∨ (∃ exn, pc' = .txFailure exn) ∨ pc' = .tryCommit ∨
      pc' = .txSuccess 0 ∧ th.kind = .readOnly)
    (hset : th.pc.inSet = true → ∃ exn v, pc' = .txFailure exn ∧ th.pc = .atomicWriteSlowVersion v) :
    AccountAt A sh.cells (th.goto pc') m pc' := by
  by_cases hfail : ∃ exn, pc' = .txFailure exn
  · obtain ⟨exn, rfl⟩ := hfail
    exact out rfl rfl
  · have hr : th.pc.runsBody = true := PC.runsBody_of_inBody hin fun h =>
      hfail ((hset h).imp fun _ hv => hv.elim fun _ he => he.1)
    rcases hout with he | hf | rfl | ⟨rfl, _⟩
    · exact h.same rfl hr (PC.runsBody_of_isEntry he).2 rfl rfl
    · exact absurd hf hfail
    · exact h.same rfl hr rfl rfl rfl
    · exact out rfl rfl

omit [DecidableEq ι] in
/-- A get of a var the body has not written: the memory has what it returns. -/
theorem AccountAt.readReturns (hA : Account ok th.body m A) {path : ReadPath} {v : ν} {st : VarStorage α}
    (hget : th.body th.log = .get v ∨ th.body th.log = .untrackedGet v) (hok : ok (th.body th.log) = true)
    (hv : v ∉ th.td.writeSet.vars) (hr : th.pc.runsBody = true)
    (h : Agrees m th.att.reads → AccountAt A sh.cells th m th.pc)
    (hag : Agrees m (((th.pushRead path v).noteRead v (st.load sh.cells)).opReturns
      (some (st.load sh.cells))).att.reads) :
    AccountAt A (sh.noteRead t th v (st.load sh.cells)).cells
      (((th.pushRead path v).noteRead v (st.load sh.cells)).opReturns (some (st.load sh.cells))) m .call := by
  have hnote : (th.pushRead path v).noteRead v (st.load sh.cells) =
      { th.pushRead path v with
        att := { th.att with reads := th.att.reads ++ [(v, st.load sh.cells)] } } := by
    rw [Thread.noteRead, writeSet_pushRead, if_neg hv, att_pushRead]
  rw [hnote] at hag ⊢
  have hag' : Agrees m th.att.reads := fun p hp => hag p (List.mem_append_left _ hp)
  have hx : m v = st.load sh.cells := hag (v, _) (List.mem_append_right _ List.mem_cons_self)
  refine .of_runs rfl fun _ => ?_
  have hal := hA.get ((h hag').runs hr) hok hget
  rw [overlay_of_not_mem hv, hx] at hal
  have hlog : (th.pushRead path v).log = th.log := by
    unfold Thread.pushRead
    split <;> rfl
  show A ((th.pushRead path v).log ++ [some (st.load sh.cells)])
    (overlay (th.pushRead path v).td.writeSet.entries (sh.noteRead t th v _).cells m)
  rw [hlog, writeSet_pushRead, (Shared.sameHeap_noteRead ..).cells]
  exact hal

omit [DecidableEq ι] in
/-- A get of a var the body has written: the write set has what it returns. -/
theorem AccountAt.pendingReturns (hA : Account ok th.body m A) (htidy : Tidy cfg th) {v : ν}
    {pending : VarStorage α} (hpc : th.pc = .readPending v pending) (hop : OpAt cfg th th.pc)
    (hok : ok (th.body th.log) = true) (h : AccountAt A sh.cells th m th.pc) :
    AccountAt A sh.cells (th.opReturns (some (pending.load sh.cells))) m .call := by
  rw [hpc] at hop h
  obtain ⟨_, hget, i, hf, hp⟩ := hop
  obtain ⟨e, he, rfl⟩ := PodHashSet.find_eq_some hf
  rw [he, Option.map_some] at hp
  have hp : e.pendingWrite = pending := Option.some.inj hp
  refine .of_runs rfl fun _ => ?_
  have := hA.get (h.runs rfl) hok hget
  rw [overlay_of_mem htidy.nodup (List.mem_of_getElem? he), hp] at this
  exact this

omit [DecidableEq ι] [DecidableEq ν] in
/-- What the attempt has pending is not where the allocator makes the next object. -/
theorem load_newObject (hown : ∀ p, th.Owns p → p < sh.nextPtr) (hpr : th.pc.isPrivate = true) (x : α)
    (e : WriteSetValueType ν (VarStorage α)) (he : e ∈ th.td.writeSet.entries) :
    e.pendingWrite.load (Function.update sh.cells sh.nextPtr x) = e.pendingWrite.load sh.cells := by
  refine load_update_of_ne fun hp => Nat.lt_irrefl _ (hown sh.nextPtr ?_)
  rw [Thread.Owns, Thread.pending_of_private hpr, ← hp]
  exact List.mem_map_of_mem he

omit [DecidableEq ι] in
/-- The fast path of a set has pushed its entry. -/
theorem AccountAt.allocFast (hal : cfg.HashesAgree) (htidy : Tidy cfg th)
    (hown : ∀ p, th.Owns p → p < sh.nextPtr) {v : ν} {x : α} (hpc : th.pc = .writeVersion v x)
    (hop : OpAt cfg th th.pc) (h : AccountAt A sh.cells th m th.pc) :
    AccountAt A (sh.allocateConstruct x).1.cells ((th.setWriteSet (th.td.writeSet.uncheckedPushBack v
      (.ptr sh.nextPtr) (cfg.varHash v))).goto (.writeCurStorage v (.ptr sh.nextPtr))) m
        (.writeCurStorage v (.ptr sh.nextPtr)) := by
  rw [hpc] at hop h
  obtain ⟨_, hset, ht, hf⟩ := hop
  rw [hal v ht] at hf
  have hrun := h.runs rfl
  refine ⟨x, _, hset, hrun, ?_⟩
  refine (overlay_push htidy.nodup (PodHashSet.not_mem_of_filter htidy.covers hf)
    (load_newObject hown (by rw [hpc]; rfl) x)).trans ?_
  rw [VarStorage.load, Function.update_self]

omit [DecidableEq ι] in
/-- The slow path of a set pushes its entry and returns. -/
theorem AccountAt.allocSlow (hA : Account ok th.body m A) (htidy : Tidy cfg th)
    (hown : ∀ p, th.Owns p → p < sh.nextPtr) {v : ν} {x : α} {cur : VarStorage α}
    (hpc : th.pc = .writeSlowVersion v x cur) (hop : OpAt cfg th th.pc) (h : AccountAt A sh.cells th m th.pc) :
    AccountAt A (sh.allocateConstruct x).1.cells
      ((((th.setWriteSet (th.td.writeSet.pushBack v (.ptr sh.nextPtr)
        (cfg.baseHash v))).sometimeSynchronizedAfter (th.destroyCallback v cur)).afterFail
          (th.destroyCallback v (.ptr sh.nextPtr))).opReturns none) m .call := by
  rw [hpc] at hop
  obtain ⟨_, hset, _, hl⟩ := hop
  refine afterSet hA h (by rw [hpc]; rfl) hset rfl rfl ?_
  refine (congrArg (overlay · _ m) (PodHashSet.entries_pushBack ..)).trans ?_
  refine (overlay_push htidy.nodup (PodHashSet.not_mem_of_lookup_hash htidy.covers hl)
    (load_newObject hown (by rw [hpc]; rfl) x)).trans ?_
  rw [VarStorage.load, Function.update_self]

omit [DecidableEq ι] in
/-- A set of a heap var that has an entry assigns to its object. -/
theorem AccountAt.storePending (hA : Account ok th.body m A) (htidy : Tidy cfg th)
    (htyped : TypedSet cfg th.td.writeSet) {v : ν} {x : α} {pending : VarStorage α}
    (hpc : th.pc = .writePendingVersion v x pending) (hop : OpAt cfg th th.pc)
    (h : AccountAt A sh.cells th m th.pc) :
    AccountAt A (sh.storeObject pending x).cells (th.opReturns none) m .call := by
  rw [hpc] at hop
  obtain ⟨_, hset, ht, i, hl, hp⟩ := hop
  obtain ⟨e, he, rfl⟩ := PodHashSet.lookup_pendingWrite hl
  rw [he, Option.map_some] at hp
  have hp : e.pendingWrite = pending := Option.some.inj hp
  obtain ⟨_, p, hptr⟩ | ⟨ht', _⟩ := htyped.typed e (List.mem_of_getElem? he)
  · refine afterSet hA h (by rw [hpc]; rfl) hset rfl rfl ?_
    rw [← hp, hptr]
    exact overlay_assign htidy.nodup htyped.distinct (List.mem_of_getElem? he) hptr
  · rw [ht] at ht'
    cases ht'

omit [DecidableEq ι] in
/-- The fast path of a set of an atomic var pushes its entry and returns. -/
theorem AccountAt.atomicFast (hA : Account ok th.body m A) (htidy : Tidy cfg th) {v : ν} {s : VarStorage α}
    (hpc : th.pc = .atomicWriteVersion v s) (hop : OpAt cfg th th.pc) (h : AccountAt A sh.cells th m th.pc) :
    AccountAt A sh.cells ((th.setWriteSet (th.td.writeSet.uncheckedPushBack v s
      (cfg.baseHash v))).opReturns none) m .call := by
  rw [hpc] at hop
  obtain ⟨_, ⟨x, rfl, hset⟩, _, hf⟩ := hop
  exact afterSet hA h (by rw [hpc]; rfl) hset rfl rfl
    (overlay_push htidy.nodup (PodHashSet.not_mem_of_filter htidy.covers hf) fun _ _ => rfl)

omit [DecidableEq ι] in
/-- The slow path of a set of an atomic var has pushed its entry. -/
theorem AccountAt.atomicPush (htidy : Tidy cfg th) {v : ν} {s : VarStorage α}
    (hset : th.pc.runsBody = true ∧ ∃ x, s = .raw x ∧ th.body th.log = .set v x)
    (hl : th.td.writeSet.lookup cfg.baseHash v = .hash (cfg.baseHash v))
    (h : AccountAt A sh.cells th m th.pc) :
    AccountAt A sh.cells ((th.setWriteSet (th.td.writeSet.pushBack v s (cfg.baseHash v))).goto
      (.atomicWriteSlowVersion v)) m (.atomicWriteSlowVersion v) := by
  obtain ⟨hr, x, rfl, hset⟩ := hset
  have hrun := h.runs hr
  refine ⟨x, _, hset, hrun, ?_⟩
  refine (congrArg (overlay · _ m) (PodHashSet.entries_pushBack ..)).trans ?_
  exact overlay_push htidy.nodup (PodHashSet.not_mem_of_lookup_hash htidy.covers hl) fun _ _ => rfl

omit [DecidableEq ι] in
/-- The slow path of a set of an atomic var has overwritten its entry. -/
theorem AccountAt.atomicOverwrite (htidy : Tidy cfg th) {v : ν} {s : VarStorage α} {i : Nat}
    (hset : th.pc.runsBody = true ∧ ∃ x, s = .raw x ∧ th.body th.log = .set v x)
    (hl : th.td.writeSet.lookup cfg.baseHash v = .pendingWrite i) (h : AccountAt A sh.cells th m th.pc) :
    AccountAt A sh.cells ((th.setWriteSet (th.td.writeSet.setPending i s)).goto
      (.atomicWriteSlowVersion v)) m (.atomicWriteSlowVersion v) := by
  obtain ⟨hr, x, rfl, hset⟩ := hset
  have hrun := h.runs hr
  refine ⟨x, _, hset, hrun, ?_⟩
  obtain ⟨e, he, rfl⟩ := PodHashSet.lookup_pendingWrite hl
  exact overlay_modify htidy.nodup he

end AccountStep

/-- **A step of a thread keeps its body's account.** -/
theorem AccountAt.step {A : Log α → (ν → α) → Prop} {ok : Op ν α → Bool} (hA : Account ok th.body m A)
    (hal : cfg.HashesAgree) (hm : Move cfg sh t th opened req sh' th') (hop : OpAt cfg th th.pc)
    (htidy : Tidy cfg th) (htyped : TypedSet cfg th.td.writeSet) (hbooks : Books th)
    (hown : ∀ p, th.Owns p → p < sh.nextPtr)
    (hok : th.pc.inCall = true → th.kind = .readWrite ∧ ∀ log, ok (th.body log) = true)
    (h : Agrees m th.att.reads → AccountAt A sh.cells th m th.pc)
    (hag : Agrees m th'.att.reads) : AccountAt A sh'.cells th' m th'.pc := by
  cases hm with
  | enter => exact out rfl rfl
  | reclaimNothing hpc | waitMore _ _ _ _ _ hpc =>
      have := h hag
      rwa [hpc] at this ⊢
  | getClock hpc =>
      refine .of_runs rfl fun _ => ?_
      have he := (hbooks.sets (by rw [hpc]; rfl)).2.1
      show A [] (overlay th.td.writeSet.entries sh.cells m)
      rw [he]
      exact hA.start
  | accessLock hpc => exact same (h hag) rfl (by rw [hpc]; rfl) rfl rfl rfl
  | goto pc' hin hout hset => exact goto (h hag) hin hout hset
  | registerSucc id hpc _ hop =>
      exact afterOther hA (h hag) hpc ((hok (by rw [hpc]; rfl)).2 _) (Or.inl ⟨id, Or.inl hop⟩) rfl rfl rfl
  | registerFail id hpc _ hop =>
      exact afterOther hA (h hag) hpc ((hok (by rw [hpc]; rfl)).2 _) (Or.inl ⟨id, Or.inr hop⟩) rfl rfl rfl
  | nestedAtomic hpc hop =>
      exact afterOther hA (h hag) hpc ((hok (by rw [hpc]; rfl)).2 _) (Or.inr hop) rfl rfl rfl
  | readStorage path v hpc => exact same (h hag) rfl (by rw [hpc]; rfl) rfl rfl rfl
  | readReturns path v st hpc =>
      obtain ⟨hk, hs⟩ := hok (by rw [hpc]; rfl)
      rw [hpc] at hop
      obtain ⟨hget, hv⟩ := hop.get hk (hs th.log) hA.notReadOnly htidy.covers
      exact readReturns hA hget (hs th.log) hv (by rw [hpc]; rfl) h hag
  | pendingReturns v pending hpc =>
      exact pendingReturns hA htidy hpc hop ((hok (by rw [hpc]; rfl)).2 th.log) (h hag)
  | allocFast v x hpc => exact allocFast hal htidy hown hpc hop (h hag)
  | curStorage v s hpc =>
      have hset := h hag
      rw [hpc] at hset
      exact setReturns hA hset rfl rfl rfl
  | slowStorage v x hpc => exact same (h hag) rfl (by rw [hpc]; rfl) rfl rfl rfl
  | allocSlow v x cur hpc => exact allocSlow hA htidy hown hpc hop (h hag)
  | storePending v x pending hpc => exact storePending hA htidy htyped hpc hop (h hag)
  | atomicFast v s hpc => exact atomicFast hA htidy hpc hop (h hag)
  | atomicPush v s hpc hl => exact atomicPush htidy (atomic_set hop hpc) hl (h hag)
  | atomicOverwrite v s i hpc hl => exact atomicOverwrite htidy (atomic_set hop hpc) hl (h hag)
  | atomicReturns v hpc =>
      have hset := h hag
      rw [hpc] at hset
      exact setReturns hA hset rfl rfl rfl
  | commitEmpty | published | unlockDone | readInvalid | unlockLoad | unlock | bump | publish =>
      exact out rfl rfl
  | startCommit hpc => exact same (h hag) rfl (by rw [hpc]; rfl) rfl rfl rfl
  | allLocked i hpc => exact same (h hag) rfl (by rw [hpc]; rfl) rfl rfl rfl
  | lockInvalid => exact out rfl rfl
  | success sync =>
      have hph := reclaim_outside cfg
        ((th.setTxState .none).clearReadWriteSets.clearFailCallbacks) sync
      exact out (PC.not_runsBody_of_phase hph).1 (PC.not_runsBody_of_phase hph).2
  | failureReadOnly exn => cases exn <;> exact out rfl rfl
  | failDone exn => cases exn <;> exact out rfl rfl
  | _ => first
    | exact out rfl rfl
    | exact same (h hag) rfl (by simp only [*]; rfl) rfl rfl rfl

/-- **A step of a thread keeps what its body has done alone.** -/
theorem BodyAt.step (hal : cfg.EmptyAllocators) (hm : Move cfg sh t th opened req sh' th')
    (hop : OpAt cfg th th.pc) (htidy : Tidy cfg th) (htyped : TypedSet cfg th.td.writeSet)
    (hbooks : Books th) (hown : ∀ p, th.Owns p → p < sh.nextPtr)
    (hsimple : th.pc.inCall = true → th.kind = .readWrite ∧ ∀ log, (th.body log).isSimple = true)
    (h : ∀ m, Agrees m th.att.reads → BodyAt sh.cells th m th.pc)
    (hag : Agrees m th'.att.reads) : BodyAt sh'.cells th' m th'.pc := by
  rcases hm.call with ⟨_, _, _, hpc, _⟩ | ⟨_, hb, _⟩
  · rw [hpc]
    exact fun hr => by cases hr
  · rw [bodyAt_iff, hb]
    exact AccountAt.step (Alone.account th.body m) hal.hashesAgree hm hop htidy htyped hbooks hown
      hsimple (fun hag => bodyAt_iff.mp (h m hag)) hag

omit [DecidableEq ι] [DecidableEq ν] in
/-- A step of another thread does not change what a thread's pending objects hold. -/
theorem HeapEffect.load_of_owned {s : Sys ι ν α} {t u : ι} {sh' : Shared ι ν α} {th' : Thread ι ν α}
    (hm : HeapEffect s.shared (s.threads t) sh' th') (hh : Heap cfg s) (hu : u ≠ t)
    {st : VarStorage α} (ho : ∀ p, st = .ptr p → (s.threads u).Owns p) :
    st.load sh'.cells = st.load s.shared.cells := by
  cases hm with
  | keep hs => rw [hs.cells]
  | allocate x =>
      exact load_update_of_ne fun hp => Nat.lt_irrefl _ (hh.owned u _ (ho _ hp)).2
  | assign p x hp => exact load_update_of_ne fun hp' => hu (hh.unique u t p (ho p hp') hp)
  | commit c hc => rw [hc]

omit [DecidableEq ι] in
/-- A step of another thread keeps a body's account. -/
theorem AccountAt.step_ne {A : Log α → (ν → α) → Prop} {s : Sys ι ν α} {t u : ι}
    {sh' : Shared ι ν α} {th' : Thread ι ν α}
    (hm : HeapEffect s.shared (s.threads t) sh' th') (hh : Heap cfg s) (hb : Books (s.threads u))
    (hu : u ≠ t) (h : AccountAt A s.shared.cells (s.threads u) m (s.threads u).pc) :
    AccountAt A sh'.cells (s.threads u) m (s.threads u).pc := by
  have hov : overlay (s.threads u).td.writeSet.entries sh'.cells m =
      overlay (s.threads u).td.writeSet.entries s.shared.cells m ∨
      (s.threads u).pc.runsBody = false ∧ (s.threads u).pc.inSet = false := by
    by_cases hp : (s.threads u).pc.isPrivate = true
    · refine Or.inl (overlay_congr fun e he => hm.load_of_owned hh hu fun p hp' => ?_)
      rw [Thread.Owns, Thread.pending_of_private hp, ← hp']
      exact List.mem_map_of_mem he
    · by_cases ho : (s.threads u).pc.isOpen = true
      · refine Or.inr ?_
        revert hp ho
        cases (s.threads u).pc <;> intro hp ho <;> first | exact absurd rfl hp | exact ⟨rfl, rfl⟩ | cases ho
      · rw [(hb.sets (Bool.not_eq_true _ ▸ ho)).2.1]
        exact Or.inl rfl
  rcases hov with hov | ⟨hr, hs⟩
  · revert h
    cases (s.threads u).pc <;> (unfold AccountAt; rw [hov]; exact id)
  · refine .of_runs hs fun hr' => ?_
    rw [hr] at hr'
    cases hr'

/-- Calls of simple bodies only. -/
theorem Move.simple (hm : Move cfg sh t th opened req sh' th') (hreq : ∀ r ∈ req, r.isSimple)
    (h : th.pc.inCall = true → th.kind = .readWrite ∧ ∀ log, (th.body log).isSimple = true)
    (hc : th'.pc.inCall = true) : th'.kind = .readWrite ∧ ∀ log, (th'.body log).isSimple = true := by
  rcases hm.call with ⟨k, body, ⟨rfl, hr⟩ | ⟨rfl, hr⟩, _, hk, hb⟩ | ⟨hk, hb, hin⟩
  · rw [hk, hb]
    exact ⟨rfl, hreq _ hr⟩
  · exact absurd (hreq _ hr) id
  · rw [hk, hb]
    exact h (hin hc)

omit [DecidableEq ι] in
/-- A commit's body has run to its end. -/
theorem commits_replay {s : Sys ι ν α} {sh' : Shared ι ν α} {th' : Thread ι ν α}
    (hm : Effect s.shared t (s.threads t) s.opened sh' th')
    (hop : OpAt cfg (s.threads t) (s.threads t).pc) (h : Bodies s) :
    ∀ c ∈ sh'.hist.commits, c.Replays := by
  have new : ∀ {sh : Shared ι ν α} {version : Epoch} {point : Nat}, sh.cells = s.shared.cells →
      (s.threads t).pc.runsBody = true → (s.threads t).body (s.threads t).log = .ret →
      (commitRecord sh t (s.threads t) version point s.opened).Replays := by
    intro sh version point hc hr hret
    refine ⟨hret, fun m hag => ?_⟩
    rw [apply_commitRecord, hc]
    exact (bodyAt_iff.mp (h.running t m hag)).runs hr
  cases hm with
  | quiet hs => rw [hs.commits]; exact h.commits
  | commitEmpty hpc =>
      rw [hpc] at hop
      exact List.forall_mem_cons.mpr ⟨new rfl (by rw [hpc]; rfl) hop.2, h.commits⟩
  | bump hpc =>
      rw [hpc] at hop
      exact List.forall_mem_cons.mpr ⟨new rfl (by rw [hpc]; rfl) (hop rfl).2, h.commits⟩
  | _ => exact h.commits

end Step

/-- **In every interleaving a running read_write body keeps its account**, over every memory that agrees
    with what it has read, if the body does nothing but what `allowed` says. -/
theorem account_reach {cfg : Config ι ν α} {ok : Request ν α → Prop} {s : Sys ι ν α}
    {allowed : Op ν α → Bool} {A : Body ν α → (ν → α) → Log α → (ν → α) → Prop}
    (hA : ∀ body m, Account allowed body m (A body m)) (hag : cfg.HashesAgree)
    (h : Sys.Reach cfg ok s) (t : ι)
    (hp : (s.threads t).kind = .readWrite ∧ ∀ log, allowed ((s.threads t).body log) = true) {m : ν → α}
    (hm : Agrees m (s.threads t).att.reads) :
    AccountAt (A (s.threads t).body m) s.shared.cells (s.threads t) m (s.threads t).pc := by
  revert t m
  refine h.induct (P := fun s => ∀ t, (s.threads t).kind = .readWrite ∧
      (∀ log, allowed ((s.threads t).body log) = true) → ∀ {m : ν → α},
    Agrees m (s.threads t).att.reads → AccountAt (A (s.threads t).body m) s.shared.cells
      (s.threads t) m (s.threads t).pc) (fun t _ m _ hr => by cases hr) ?_
  intro s t req sh' th' hr ih _ hm
  refine Sys.forall_after (P := fun _ th => th.kind = .readWrite ∧
      (∀ log, allowed (th.body log) = true) → ∀ {m : ν → α}, Agrees m th.att.reads →
    AccountAt (A th.body m) sh'.cells th m th.pc) (fun hp m hagr => ?_) fun u hu hp m hagr => ?_
  · rcases hm.call with ⟨_, _, _, hpc, _⟩ | ⟨hk, hb, _⟩
    · rw [hpc]
      exact fun hr => by cases hr
    · have hp' := hp
      rw [hk, hb] at hp'
      rw [hb]
      exact AccountAt.step (hA _ m) hag hm ((active_reach hr).opAt t)
        (tidy_reach hag hr t) (typed_reach hr t) (books_reach hr t)
        (fun p ho => ((heap_reach hr).owned t p ho).2) (fun _ => hp') (ih t hp') hagr
  · exact AccountAt.step_ne (hr.heapEffect hm) (heap_reach hr) (books_reach hr u) hu (ih u hp hagr)

/-- **In every state reached by simple calls the bodies' accounts are right.** -/
theorem bodies_reach {cfg : Config ι ν α} {s : Sys ι ν α} (hal : cfg.EmptyAllocators)
    (h : Sys.Reach cfg Request.isSimple s) : Bodies s := by
  refine h.induct ?_ fun {s t req sh' th'} hr ih hreq hm => ?_
  · refine ⟨fun _ hc => (by cases hc), fun t m _ => ?_, fun _ hc => absurd hc List.not_mem_nil⟩
    exact fun hr => (by cases hr)
  · have hown : ∀ p, (s.threads t).Owns p → p < s.shared.nextPtr := fun p hp =>
      ((heap_reach hr).owned t p hp).2
    have hcommits := commits_replay hm.effect ((active_reach hr).opAt t) ih
    refine ⟨?_, ?_, hcommits⟩
    · exact Sys.forall_after (P := fun _ th => th.pc.inCall = true →
        th.kind = .readWrite ∧ ∀ log, (th.body log).isSimple = true)
        (fun hc => hm.simple hreq (ih.simple t) hc) fun u _ => ih.simple u
    · refine Sys.forall_after (P := fun _ th => ∀ m, Agrees m th.att.reads →
        BodyAt sh'.cells th m th.pc) (fun m hag => ?_) fun u hu m hag => ?_
      · exact BodyAt.step hal hm ((active_reach hr).opAt t) (tidy_reach hal.hashesAgree hr t) (typed_reach hr t)
          (books_reach hr t) hown
          (ih.simple t) (ih.running t) hag
      · exact bodyAt_iff.mpr (AccountAt.step_ne (hr.heapEffect hm) (heap_reach hr) (books_reach hr u) hu
          (bodyAt_iff.mp (ih.running u m hag)))

end LockfreeStm
