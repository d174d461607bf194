/-
  File:      LockfreeStm/Machine/Opacity.lean
  Subject:   OPACITY OF WHOLE PROGRAMS: read_write calls of tracked bodies, next to any read_only calls and
             reclamations, with retries, exceptions, callbacks and nested calls.

  * `Tracked`, `tracked_reach` -- the commits are serializable; `executed_reach` -- each commit's body has
    run alone on every memory in which it finds what it has read.
  * `opacity` -- **the main result**: there is one serial execution of the committed bodies, and every
    running attempt, also one that will abort, has seen a beginning of it, on which its body has run alone.
  * `invariant_everywhere` -- hence what every body keeps, run alone, no attempt ever sees broken.
-/
import LockfreeStm.Machine.Prefixes
import LockfreeStm.Machine.Programs

namespace LockfreeStm

variable {ι ν α : Type}

/-! ## 1. Tracked calls -/

/-- A read_write call whose gets are tracked, any read_only call, or a reclamation. -/
def Request.isTracked : Request ν α → Prop
  | .readWrite body => ∀ log, (body log).isTracked = true
  | .readOnly _ | .reclaimAll => True

variable [DecidableEq ν]

/-- The body of a committed transaction has run to its end. -/
def Commit.Executed (c : Commit ι ν α) : Prop :=
  c.body c.log = .ret ∧ ∀ m, Agrees m c.reads → Executes c.body m c.log (c.apply m)

/-- The bodies of the commits, run alone one after the other, each with the log it had. -/
inductive SerialExecution : (ν → α) → List (Commit ι ν α) → (ν → α) → Prop where
  | nil (m : ν → α) : SerialExecution m [] m
  | cons {m m' final : ν → α} {c : Commit ι ν α} {cs : List (Commit ι ν α)}
      (hbody : Executes c.body m c.log m') (hret : c.body c.log = .ret)
      (h : SerialExecution m' cs final) : SerialExecution m (c :: cs) final

variable [DecidableEq ι]

/-! ## 2. Whose calls they are -/

section Calls

variable {cfg : Config ι ν α} {ok : Request ν α → Prop} {s : Sys ι ν α}

/-- A thread that is about to commit is in a read_write call. -/
theorem kind_of_committing (h : Sys.Reach cfg ok s) {t : ι}
    (hp : (s.threads t).pc = .tryCommit ∨ (s.threads t).pc.isSealed = true) :
    (s.threads t).kind = .readWrite := by
  have hop := (active_reach h).opAt t
  cases hpc : (s.threads t).pc <;> rw [hpc] at hop hp <;>
    first | exact hop.1 | exact (hop rfl).1 | (rcases hp with hp | hp <;> cases hp)

omit [DecidableEq ι] in
/-- A step of a thread, and the commit it adds: of its own body, which has returned. -/
theorem Effect.newCommit {sh' : Shared ι ν α} {th' : Thread ι ν α} {t : ι}
    (hm : Effect s.shared t (s.threads t) s.opened sh' th')
    (hop : OpAt cfg (s.threads t) (s.threads t).pc) :
    sh'.hist.commits = s.shared.hist.commits ∨
      ∃ (sh : Shared ι ν α) (version : Epoch) (point : Nat), sh.cells = s.shared.cells ∧
        sh'.hist.commits = commitRecord sh t (s.threads t) version point s.opened :: s.shared.hist.commits ∧
        (s.threads t).pc.runsBody = true ∧ (s.threads t).kind = .readWrite ∧
        (s.threads t).body (s.threads t).log = .ret := by
  cases hm with
  | quiet hs => exact Or.inl hs.commits
  | commitEmpty hpc =>
      rw [hpc] at hop
      exact Or.inr ⟨s.shared, 0, _, rfl, rfl, by rw [hpc]; rfl, hop⟩
  | bump hpc =>
      rw [hpc] at hop
      exact Or.inr ⟨_, _, _, rfl, rfl, by rw [hpc]; rfl, hop rfl⟩
  | _ => exact Or.inl rfl

omit [DecidableEq ν] [DecidableEq ι] in
theorem PC.inCall_of_runsBody {pc : PC ι ν α} (h : pc.runsBody = true) : pc.inCall = true := by
  cases pc <;> first | rfl | cases h

/-- **Every commit is one of a requested body that keeps its account** on every memory with what it read. -/
theorem account_commits {allowed : Op ν α → Bool} {A : Body ν α → (ν → α) → Log α → (ν → α) → Prop}
    (hA : ∀ body m, Account allowed body m (A body m)) (hag : cfg.HashesAgree)
    (hok : ∀ body, ok (.readWrite body) → ∀ log, allowed (body log) = true) (h : Sys.Reach cfg ok s) :
    ∀ c ∈ s.shared.hist.commits, ok (.readWrite c.body) ∧ c.body c.log = .ret ∧
      ∀ m, Agrees m c.reads → A c.body m c.log (c.apply m) := by
  refine h.induct (P := fun s => ∀ c ∈ s.shared.hist.commits, ok (.readWrite c.body) ∧ c.body c.log = .ret ∧
      ∀ m, Agrees m c.reads → A c.body m c.log (c.apply m))
    (fun _ hc => absurd hc List.not_mem_nil) fun {s t req sh' th'} hr ih _ hm => ?_
  rw [Sys.shared_after, Shared.commits_atTime]
  rcases hm.effect.newCommit ((active_reach hr).opAt t) with hc | ⟨sh, version, point, hcells, hc, hrun, hk, hret⟩
  · exact hc ▸ ih
  · have hreq := readWrite_of_inCall hr t (PC.inCall_of_runsBody hrun) hk
    rw [hc]
    refine List.forall_mem_cons.mpr ⟨⟨hreq, hret, fun m hm => ?_⟩, ih⟩
    rw [apply_commitRecord, hcells]
    exact (account_reach hA hag hr t ⟨hk, hok _ hreq⟩ hm).runs hrun

/-- **Every commit is one of a requested body that has run alone** on every memory with what it read. -/
theorem executed_reach (hag : cfg.HashesAgree) (hok : ∀ r, ok r → r.isTracked) (h : Sys.Reach cfg ok s) :
    ∀ c ∈ s.shared.hist.commits, ok (.readWrite c.body) ∧ c.Executed :=
  account_commits Executes.account hag (fun _ hr => hok _ hr) h

end Calls

/-! ## 3. The commits are serializable -/

/-- What the commits and the running read_write attempts satisfy. -/
structure Tracked (cfg : Config ι ν α) (s : Sys ι ν α) : Prop where
  commits : SerialCommits cfg s
  running : ∀ t, (s.threads t).pc.phase = .attempt → (s.threads t).kind = .readWrite →
    Running cfg s t (s.threads t)

/-- **In every state reached by tracked calls the commits and the running attempts are serializable.** -/
theorem tracked_reach {cfg : Config ι ν α} {ok : Request ν α → Prop} {s : Sys ι ν α}
    (hok : ∀ r, ok r → r.isTracked) (h : Sys.Reach cfg ok s) : Tracked cfg s := by
  refine h.induct ⟨serialCommits_init cfg, fun t hp => by cases hp⟩ fun {s t req sh' th'} hr ih _ hm => ?_
  have hc := commits_reach hr
  have ha := active_reach hr
  have hl := locks_reach hr
  have hpre := prefixes_reach hr
  refine ⟨ih.commits.step hc hl (locked_reach hr t)
    (fun hp => ih.running t (PC.phase_of_committing hp) (kind_of_committing hr hp)) hm.seal, ?_⟩
  refine Sys.forall_after (P := fun u th => th.pc.phase = .attempt → th.kind = .readWrite →
    Running cfg (s.after t sh' th') u th) (fun hp hk => ?_) ?_
  · have hk' : (s.threads t).kind = .readWrite :=
      (hm.kind (by rw [hp]; exact nofun)).symm.trans hk
    refine Running.step_self hpre.point_lt
      (fun u hs => ((hpre.running u (PC.phase_of_sealed hs)).point hs).2)
      (fun hp => ih.running t hp hk') hc (heap_reach hr) ha hl (snapshot_reach hr)
      (fun path v st hpc => ?_) hm hp
    have hop := ha.opAt t
    rw [hpc] at hop
    exact hop.tracked hk' (hok _ (readWrite_of_inCall hr t (by rw [hpc]; rfl) hk') _)
  · exact fun u hu hp hk => (ih.running u hp hk).step_ne hm.seal ha hu

section Result

variable {cfg : Config ι ν α} {ok : Request ν α → Prop} {s : Sys ι ν α} {order : List (Commit ι ν α)}

omit [DecidableEq ι] in
/-- In the order in which they took effect the transactions find what they have read. -/
theorem Tracked.legal (h : Tracked cfg s) (ho : TakesEffect s order) :
    Serialization.Legal Commit.put Written.value Commit.reads cfg.initValue order :=
  (Serialization.legal_of_sorted h.commits.stamped ho.perm ho.sorted).1

omit [DecidableEq ι] in
/-- A legal order of transactions whose bodies have run to their ends. -/
theorem serialExecution_of_legal {m : ν → α} (hc : ∀ c ∈ order, c.Executed)
    (h : Serialization.Legal Commit.put Written.value Commit.reads m order) :
    SerialExecution m order (Serialization.replay Commit.put Written.value m order) := by
  induction order generalizing m with
  | nil => exact .nil m
  | cons c cs ih =>
      rw [List.forall_mem_cons] at hc
      have hbody := hc.1.2 m fun p hp => (h.1 p hp).symm
      rw [← serialization_apply] at hbody
      exact .cons hbody hc.1.1 (ih hc.2 h.2)

/-- What an attempt knows of the memory `m`: what it has read is what `m` holds, and if it is one of a
    read_write body and has not failed, this body has run alone from `m`. Of a read_only body and of an attempt
    that has failed only the values read are known. -/
def RunsOn (th : Thread ι ν α) (m : ν → α) : Prop :=
  Agrees m th.att.reads ∧ (th.kind = .readWrite → th.pc.runsBody = true ∨ th.pc.inSet = true →
    ∃ cur, Executes th.body m th.log cur)

/-- A running attempt runs on a beginning of the order. -/
theorem runsOn_prefix (hag : cfg.HashesAgree) (hok : ∀ r, ok r → r.isTracked) (h : Sys.Reach cfg ok s)
    (ho : TakesEffect s order) {t : ι} (ht : (s.threads t).pc.phase = .attempt) :
    OfPrefix s order (s.threads t) fun earlier => RunsOn (s.threads t) (leaves cfg earlier) := by
  have hp := prefixes_reach h
  refine ((hp.running t ht).ofPrefix hp (finished_in h) ho).imp fun earlier later _ hagr => ⟨hagr, ?_⟩
  intro hk hrun
  have hin : (s.threads t).pc.inCall = true := by
    revert ht
    cases (s.threads t).pc <;> intro ht <;> first | rfl | cases ht
  exact (account_reach Executes.account hag h t ⟨hk, hok _ (readWrite_of_inCall h t hin hk)⟩ hagr).log hrun

/-- Transactions that took effect in this order: none that finished before another's attempt read the clock
    comes after it. -/
theorem TakesEffect.real_time (h : Sys.Reach cfg ok s) (ho : TakesEffect s order) :
    order.Pairwise fun c d => ∀ f ∈ s.shared.hist.finished, d.tid = f.1 → d.attempt = f.2.1 →
      c.start ≤ f.2.2 := by
  refine ho.sorted.imp_of_mem fun {c d} hc hd hle f hf htid hatt => ?_
  have h1 := (prefixes_reach h).start_le c (ho.perm.mem_iff.mp hc)
  have h2 := (finished_in h f hf).2 d (ho.perm.mem_iff.mp hd) htid hatt
  exact (h1.trans hle).trans h2.le

/-- **Opacity.** In every state reached by tracked calls there is an order of the commits, in which none that
    finished before another's attempt read the clock comes after it, such that the committed bodies, run
    alone one after the other, return from every get what it returned and leave in every var what it holds;
    and every running attempt has read what a beginning of that order leaves, one with everything that had
    finished when it began, and the body of a read_write attempt that has not failed has run alone from there. -/
theorem opacity (hag : cfg.HashesAgree) (hok : ∀ r, ok r → r.isTracked) (h : Sys.Reach cfg ok s) :
    ∃ order, order.Perm s.shared.hist.commits ∧
      order.Pairwise (fun c d => ∀ f ∈ s.shared.hist.finished, d.tid = f.1 → d.attempt = f.2.1 →
        c.start ≤ f.2.2) ∧
      SerialExecution cfg.initValue order (leaves cfg order) ∧
      (∀ v, (∀ u, ¬ (s.threads u).PreStored v) →
        leaves cfg order v = (s.shared.loadStorage v).load s.shared.cells) ∧
      ∀ t, (s.threads t).pc.phase = .attempt → OfPrefix s order (s.threads t) fun earlier =>
        RunsOn (s.threads t) (leaves cfg earlier) := by
  obtain ⟨order, ho⟩ := exists_takesEffect s
  have hex : ∀ c ∈ order, c.Executed := fun c hc =>
    (executed_reach hag hok h c (ho.perm.mem_iff.mp hc)).2
  exact ⟨order, ho.perm, ho.real_time h, serialExecution_of_legal hex ((tracked_reach hok h).legal ho),
    fun v hv => leaves_order h ho hv, fun t ht => runsOn_prefix hag hok h ho ht⟩

end Result

/-- Both vars are incremented. -/
def incBoth : Prog Bool Nat := EasyVar.unaryOp (· + ·) true (EasyVar.unaryOp (· + ·) false .ret)

/-- One thread has read the first var when the other one runs the whole transaction. -/
def caught : List (Bool × Option (Request Bool Nat)) :=
  (true, some (.readWrite incBoth.body)) :: List.replicate 6 (true, none) ++
  (false, some (.readWrite incBoth.body)) :: List.replicate 32 (false, none)

theorem caught_isSome : (Sys.run smallConfig caught (.init smallConfig)).isSome = true := by
  decide

theorem caught_reach : Sys.Reach smallConfig (· = .readWrite incBoth.body)
    ((Sys.run smallConfig caught (.init smallConfig)).get caught_isSome) := by
  refine .of_run (fun m hm r hr => ?_) (Option.some_get caught_isSome).symm
  simp only [caught, List.cons_append, List.mem_cons, List.mem_append, List.mem_replicate] at hm
  rcases hm with rfl | (⟨_, rfl⟩ | rfl | ⟨_, rfl⟩) <;> cases hr <;> rfl

theorem incBoth_isTracked (r : Request Bool Nat) (h : r = .readWrite incBoth.body) : r.isTracked := by
  rw [h]
  exact Prog.isTracked_body _

theorem smallConfig_hashesAgree : smallConfig.HashesAgree :=
  Config.EmptyAllocators.hashesAgree fun v => by cases v <;> exact ⟨rfl, rfl⟩

theorem opacity_caught :
    let s := (Sys.run smallConfig caught (.init smallConfig)).get caught_isSome
    s.shared.hist.finished.length = 1 ∧ (s.threads true).log = [none, some 0] ∧
    ∃ order, order.Perm s.shared.hist.commits ∧
      order.Pairwise (fun c d => ∀ f ∈ s.shared.hist.finished, d.tid = f.1 → d.attempt = f.2.1 →
        c.start ≤ f.2.2) ∧
      SerialExecution smallConfig.initValue order (leaves smallConfig order) ∧
      (∀ v, (∀ u, ¬ (s.threads u).PreStored v) →
        leaves smallConfig order v = (s.shared.loadStorage v).load s.shared.cells) ∧
      ∀ t, (s.threads t).pc.phase = .attempt → OfPrefix s order (s.threads t) fun earlier =>
        RunsOn (s.threads t) (leaves smallConfig earlier) :=
  ⟨by decide, by decide, opacity smallConfig_hashesAgree incBoth_isTracked caught_reach⟩

/-! ## 4. Invariants of the program -/

section Invariant

variable {cfg : Config ι ν α} {ok : Request ν α → Prop} {s : Sys ι ν α} {order : List (Commit ι ν α)}

/-- What every requested body keeps when it runs alone, the transactions of every beginning of the order have
    kept. -/
theorem invariant_prefix (hag : cfg.HashesAgree) (hok : ∀ r, ok r → r.isTracked) (h : Sys.Reach cfg ok s)
    (ho : TakesEffect s order) {I : List (Commit ι ν α) → (ν → α) → Prop} (h0 : I [] cfg.initValue)
    (hstep : ∀ c earlier m m', ok (.readWrite c.body) → Executes c.body m c.log m' → c.body c.log = .ret →
      I earlier m → I (earlier ++ [c]) m')
    {earlier later : List (Commit ι ν α)} (e : order = earlier ++ later) :
    I earlier (leaves cfg earlier) := by
  refine ((tracked_reach hok h).legal ho).invariant h0 (fun c hc done m hread hI => ?_) e
  obtain ⟨hreq, hret, hex⟩ := executed_reach hag hok h c (ho.perm.mem_iff.mp hc)
  rw [serialization_apply]
  exact hstep c done m _ hreq (hex m fun p hp => (hread p hp).symm) hret hI

/-- **What every requested body keeps when it runs alone holds everywhere**: in the memory the commits have
    left, and in a memory with all that any attempt has read so far, also one that will abort, and from which
    the body of a read_write attempt that has not failed has run. -/
theorem invariant_everywhere (hag : cfg.HashesAgree) (hok : ∀ r, ok r → r.isTracked)
    (h : Sys.Reach cfg ok s) {I : (ν → α) → Prop} (h0 : I cfg.initValue)
    (hstep : ∀ body log m m', ok (.readWrite body) → Executes body m log m' → body log = .ret →
      I m → I m') :
    (∃ m, I m ∧ ∀ v, (∀ u, ¬ (s.threads u).PreStored v) →
      m v = (s.shared.loadStorage v).load s.shared.cells) ∧
    ∀ t, (s.threads t).pc.phase = .attempt → ∃ m, I m ∧ RunsOn (s.threads t) m := by
  obtain ⟨order, ho⟩ := exists_takesEffect s
  have hinv : ∀ {earlier later}, order = earlier ++ later → I (leaves cfg earlier) := fun e =>
    invariant_prefix (I := fun _ m => I m) hag hok h ho h0
      (fun c _ m m' hreq hex hret hI => hstep c.body c.log m m' hreq hex hret hI) e
  refine ⟨⟨_, hinv (List.append_nil order).symm, fun v hv => leaves_order h ho hv⟩, fun t ht => ?_⟩
  obtain ⟨earlier, later, e, hruns, -⟩ := runsOn_prefix hag hok h ho ht
  exact ⟨_, hinv e, hruns⟩

end Invariant

/-- The attempt that is caught in between has seen both vars equal. -/
theorem invariant_everywhere_caught :
    let s := (Sys.run smallConfig caught (.init smallConfig)).get caught_isSome
    (∃ m : Bool → Nat, m true = m false ∧ ∀ v, (∀ u, ¬ (s.threads u).PreStored v) →
      m v = (s.shared.loadStorage v).load s.shared.cells) ∧
    ∀ t, (s.threads t).pc.phase = .attempt → ∃ m : Bool → Nat, m true = m false ∧ RunsOn (s.threads t) m := by
  refine invariant_everywhere smallConfig_hashesAgree incBoth_isTracked caught_reach
    (I := fun m => m true = m false) rfl fun body log m m' hreq hex hret hI => ?_
  cases hreq
  have hrun := hex.run hret
  simp only [incBoth, EasyVar.unaryOp, EasyVar.run_assignOp, Prog.run, Option.some.injEq] at hrun
  rw [← hrun]
  simp [hI]

end LockfreeStm
