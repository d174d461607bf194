/-
  File:      LockfreeStm/Machine/EmptyCommit.lean
  Subject:   CALLBACKS OF A TRANSACTION THAT WRITES NOTHING.

  `try_commit` returns the clock's value before the bump where it writes, and the earliest epoch where
  the write set is empty. The callbacks the transaction has registered are queued under this epoch, and
  `reclaim_slow_path` waits for the epoch of the front chunk. So the callbacks of a transaction that
  writes nothing wait for the other threads only as far as a chunk before them does.

  A relative critical section reads the clock, announces it and withdraws it; for every other thread it
  is a read_only call whose body gets nothing (`Request.relative`).

  * `CommitCovered`, `Sys.ReachWhere` -- the condition, and the runs whose steps all meet it.
  * `Cover`, `cover_reachWhere` -- in these a section that is open since a commit has announced an epoch that
    the commit's chunk or one before it has. A scan passes a section at a later epoch only, so the chunk that
    covers the section is not popped under it.
  * `emptyCommit_grace` -- **the main result**, for the runs in which a transaction that writes nothing
    commits its callbacks only beside sections whose epochs its buffer covers.
  * `emptyCommit_beside_section` -- in others a callback runs beside a section open since the commit.
-/
import LockfreeStm.Machine.Grace

namespace LockfreeStm

variable {ι ν α : Type}

/-! ## 1. Relative sections, and the condition -/

/-- `relative`: a critical section outside any transaction, which returns or throws. -/
def Request.relative (throws : Bool) : Request ν α := .readOnly fun _ => if throws then .throw else .ret

variable [DecidableEq ι] [DecidableEq ν]

/-- Thread `t` commits no callbacks with an empty write set beside a section that has announced a later
    epoch than every chunk in its buffer (and than the earliest epoch). -/
def CommitCovered (s : Sys ι ν α) (t : ι) : Prop :=
  (s.threads t).pc = .tryCommit → (s.threads t).td.writeSet.entries = [] →
    (s.threads t).td.succCallbacks.working ≠ [] → ∀ u, u ≠ t → s.shared.active u ≠ offState →
      s.shared.active u = 0 ∨
        ∃ ch ∈ (s.threads t).td.succCallbacks.chunks, s.shared.active u ≤ ch.epoch

/-- The states the machine reaches by steps that are all taken where `P` holds. -/
inductive Sys.ReachWhere (cfg : Config ι ν α) (P : Sys ι ν α → ι → Prop) : Sys ι ν α → Prop where
  | init : ReachWhere cfg P (.init cfg)
  | step {s s' : Sys ι ν α} {t : ι} {req : Option (Request ν α)} (h : ReachWhere cfg P s)
      (hp : P s t) (hs : s.step cfg t req = some s') : ReachWhere cfg P s'

/-- Every step of the schedule is taken where `p` holds. -/
def Sys.allSteps (cfg : Config ι ν α) (p : Sys ι ν α → ι → Bool) :
    List (ι × Option (Request ν α)) → Sys ι ν α → Bool
  | [], _ => true
  | m :: rest, s => p s m.1 && (s.step cfg m.1 m.2).all (Sys.allSteps cfg p rest)

/-- A schedule whose steps are all taken where `p` holds keeps a condition that `p` implies. -/
theorem Sys.ReachWhere.run {cfg : Config ι ν α} {P : Sys ι ν α → ι → Prop} {p : Sys ι ν α → ι → Bool}
    (hp : ∀ s t, p s t = true → P s t) {schedule : List (ι × Option (Request ν α))} {s s' : Sys ι ν α}
    (h : Sys.ReachWhere cfg P s) (hall : Sys.allSteps cfg p schedule s = true)
    (hr : Sys.run cfg schedule s = some s') : Sys.ReachWhere cfg P s' := by
  induction schedule generalizing s with
  | nil =>
      cases hr
      exact h
  | cons m rest ih =>
      obtain ⟨s1, h1, h2⟩ := Option.bind_eq_some_iff.mp hr
      rw [Sys.allSteps, h1, Option.all_some, Bool.and_eq_true] at hall
      exact ih (.step h (hp s m.1 hall.1) h1) hall.2 h2

theorem Sys.ReachWhere.reach {cfg : Config ι ν α} {P : Sys ι ν α → ι → Prop} {s : Sys ι ν α}
    (h : Sys.ReachWhere cfg P s) : Sys.Reach cfg (fun _ => True) s := by
  induction h with
  | init => exact .init
  | step _ _ hs ih => exact .step ih (fun _ _ => trivial) hs

/-! ## 2. What the chunks cover -/

/-- Read from the front, a chunk of epoch `v` or later comes before every callback that needs one, or is the
    callback's own. -/
def Covered {κ : Type} (needs : κ → Prop) (v : Epoch) : List (Chunk κ) → Prop
  | [] => True
  | ch :: rest => v ≤ ch.epoch ∨ (∀ cb ∈ ch.callbacks, ¬ needs cb) ∧ Covered needs v rest

section Covered

variable {κ : Type} {needs needs' : κ → Prop} {v : Epoch}

/-- Fewer callbacks need it. -/
theorem Covered.mono {l : List (Chunk κ)} (h : Covered needs v l)
    (hn : ∀ ch ∈ l, ∀ cb ∈ ch.callbacks, needs' cb → needs cb) : Covered needs' v l := by
  induction l with
  | nil => trivial
  | cons ch rest ih =>
      refine h.imp_right fun ⟨h1, h2⟩ => ⟨fun cb hcb hcb' => ?_, ih h2 fun d hd => ?_⟩
      · exact h1 cb hcb (hn ch List.mem_cons_self cb hcb hcb')
      · exact hn d (List.mem_cons_of_mem _ hd)

theorem Covered.of_none {l : List (Chunk κ)} (h : ∀ ch ∈ l, ∀ cb ∈ ch.callbacks, ¬ needs cb) :
    Covered needs v l := by
  induction l with
  | nil => trivial
  | cons ch rest ih =>
      rw [List.forall_mem_cons] at h
      exact Or.inr ⟨h.1, ih h.2⟩

/-- A new chunk is covered by its own epoch, by a chunk before it, or because nothing in it needs to be. -/
theorem Covered.append {l : List (Chunk κ)} {ch : Chunk κ} (h : Covered needs v l)
    (hc : (∀ cb ∈ ch.callbacks, ¬ needs cb) ∨ v ≤ ch.epoch ∨ ∃ d ∈ l, v ≤ d.epoch) :
    Covered needs v (l ++ [ch]) := by
  induction l with
  | nil =>
      rcases hc with hc | hc | ⟨d, hd, _⟩
      · exact Or.inr ⟨hc, trivial⟩
      · exact Or.inl hc
      · cases hd
  | cons d rest ih =>
      rcases h with h | ⟨h1, h2⟩
      · exact Or.inl h
      rcases hc with hc | hc | ⟨b, hb, hv⟩
      · exact Or.inr ⟨h1, ih h2 (Or.inl hc)⟩
      · exact Or.inr ⟨h1, ih h2 (Or.inr (Or.inl hc))⟩
      · rcases List.mem_cons.mp hb with rfl | hb
        · exact Or.inl hv
        · exact Or.inr ⟨h1, ih h2 (Or.inr (Or.inr ⟨b, hb, hv⟩))⟩

theorem Covered.of_append {l : List (Chunk κ)} {ch : Chunk κ} (h : Covered needs v (l ++ [ch])) :
    Covered needs v l := by
  induction l with
  | nil => trivial
  | cons d rest ih => exact h.imp_right fun ⟨h1, h2⟩ => ⟨h1, ih h2⟩

end Covered

/-- A section of thread `u` that is open since a commit of thread `t` has announced an epoch some chunk up to
    that of the commit's callbacks has. While `reclaim_all` runs its chunks nothing is promised. -/
def Cover (s : Sys ι ν α) (t : ι) : Prop :=
  (∃ epoch minEpoch i, (s.threads t).pc = .succCallbacks .reclaimAll epoch minEpoch i) ∨
    ∀ u, u ≠ t → Covered (fun cb => OpenSince (fun _ => True) s t cb u) (s.threads u).version
      (s.threads t).left

section Step

variable {cfg : Config ι ν α} {s : Sys ι ν α} {t : ι} {req : Option (Request ν α)}
  {sh' : Shared ι ν α} {th' : Thread ι ν α}

/-- `reclaim_all` goes on until the buffer is empty. -/
theorem Move.reclaimAll_left (hm : Move cfg s.shared t (s.threads t) s.opened req sh' th')
    {epoch minEpoch : Epoch} {i : Nat}
    (hpc : (s.threads t).pc = .succCallbacks .reclaimAll epoch minEpoch i) :
    (∃ epoch minEpoch i, th'.pc = .succCallbacks .reclaimAll epoch minEpoch i) ∨ th'.left = [] := by
  cases hm with
  | succCallback mode e m j ch cb hpc' | succNext mode e m j ch hpc' =>
      rw [hpc] at hpc'
      cases hpc'
      exact Or.inl ⟨_, _, _, rfl⟩
  | succDone mode e m j ch hpc' hch hcb hn =>
      rw [hpc] at hpc'
      cases hpc'
      refine Or.inr ((Thread.left_eq rfl).trans ?_)
      show (s.threads t).td.succCallbacks.popFront.chunks = []
      unfold reclaimsNext EpochQueue.frontEpoch? at hn
      cases hq : (s.threads t).td.succCallbacks.popFront.chunks with
      | nil => rfl
      | cons d rest =>
          rw [hq] at hn
          cases hn
  | goto pc' hin =>
      rw [hpc] at hin
      cases hin
  | _ => simp_all

/-- A step of another thread keeps the sections covered. -/
theorem Cover.step_ne {v : ι} (h : Cover s v) (ha : Active cfg s) (hn : Numbered s)
    (hm : Move cfg s.shared t (s.threads t) s.opened req sh' th') (hv : v ≠ t) :
    Cover (s.after t sh' th') v := by
  unfold Cover at h ⊢
  rw [Sys.threads_after_ne s hv]
  refine h.imp_right fun h u hu => ?_
  by_cases ho : ((s.after t sh' th').threads u).pc.isOpen = true
  · rw [(hm.same_of_open ha ho).2]
    exact (h u hu).mono fun ch hch cb hcb hx => hx.before hn ha hm (Thread.Due.inQueue ⟨ch, hch, rfl, hcb⟩)
  · exact .of_none fun _ _ _ _ hx => ho hx.1

omit [DecidableEq ι] in
/-- A commit queues its callbacks behind chunks that cover every open section, or under an epoch that does. -/
theorem CommitCovered.version_le (hcov : CommitCovered s t) (ha : Active cfg s) (hb : Books (s.threads t))
    {e : Epoch} (hne : (s.threads t).att.regSucc ≠ [])
    (hpc : (s.threads t).pc = .bumpClock ∧ e = s.shared.clock ∨
      (s.threads t).pc = .tryCommit ∧ (s.threads t).td.writeSet.entries = [] ∧ e = 0)
    {u : ι} (hu : u ≠ t) (ho : (s.threads u).pc.isOpen = true) :
    (s.threads u).version ≤ e ∨ ∃ d ∈ (s.threads t).left, (s.threads u).version ≤ d.epoch := by
  rcases hpc with ⟨_, rfl⟩ | ⟨hpc, he, rfl⟩
  · exact Or.inl (ha.version_le u)
  · have hact := ha.active_of_open ho
    have hw : (s.threads t).td.succCallbacks.working ≠ [] := by
      rwa [(hb.attempt (by rw [hpc]; rfl)).2.1]
    have hon : s.shared.active u ≠ offState := by
      rw [hact]
      exact ((ha.version_lt u).trans lockBit_lt_offState).ne
    rw [Thread.left_eq (by rw [hpc]; rfl), ← hact]
    exact (hcov hpc he hw u hu hon).imp_left Nat.le_of_eq

/-- **A step of the thread keeps the sections covered**: a commit covers its callbacks, and the scan has
    passed no section that the chunk it pops would cover. -/
theorem Cover.step_self (h : Cover s t) (ha : Active cfg s) (hn : Numbered s) (hb : Books (s.threads t))
    (hscan : ScanOk s t) (hf : FrontOk (s.threads t)) (hcov : CommitCovered s t)
    (hm : Move cfg s.shared t (s.threads t) s.opened req sh' th') : Cover (s.after t sh' th') t := by
  unfold Cover at h ⊢
  rw [Sys.threads_after_self]
  by_cases hall : ∃ epoch minEpoch i, (s.threads t).pc = .succCallbacks .reclaimAll epoch minEpoch i
  · obtain ⟨epoch, minEpoch, i, hpc⟩ := hall
    refine (hm.reclaimAll_left hpc).imp_right fun hl u _ => ?_
    rw [hl]
    trivial
  refine Or.inr fun u hu => ?_
  rw [Sys.threads_after_ne s hu]
  have before : ∀ ch ∈ (s.threads t).left, ∀ cb ∈ ch.callbacks,
      OpenSince (fun _ => True) (s.after t sh' th') t cb u → OpenSince (fun _ => True) s t cb u :=
    fun ch hch cb hcb hx => hx.before hn ha hm (Thread.Due.inQueue ⟨ch, hch, rfl, hcb⟩)
  have hold := (h.resolve_left hall u hu).mono before
  cases hm.left hb with
  | same h => exact h ▸ hold
  | commit e cbs h _ hc =>
      rw [h]
      refine hold.append ?_
      by_cases ho : (s.threads u).pc.isOpen = true
      · by_cases hcbs : cbs = []
        · exact Or.inl fun cb hcb => absurd hcb (hcbs ▸ List.not_mem_nil)
        · obtain ⟨rfl, _, hpc⟩ := hc.resolve_left hcbs
          exact Or.inr (hcov.version_le ha hb hcbs hpc hu ho)
      · refine Or.inl fun cb _ hx => ho ?_
        have hopen := hx.1
        rwa [Sys.threads_after_ne s hu] at hopen
  | nothing e h =>
      rw [h] at hold
      exact hold.of_append
  | ran e cb cbs rest h h' =>
      rw [h] at hold
      rw [h']
      exact hold.imp_right fun ⟨h1, h2⟩ => ⟨fun cb' hcb' => h1 cb' (List.mem_cons_of_mem _ hcb'), h2⟩
  | pop mode epoch minEpoch i d hpc he h =>
      rw [h] at hold
      rcases hold with hle | ⟨_, hold⟩
      · refine .of_none fun ch hch cb hcb hx => Nat.not_lt_of_le hle ?_
        have hch' : ch ∈ (s.threads t).left := h ▸ List.mem_cons_of_mem _ hch
        cases mode with
        | reclaimAll => exact absurd ⟨epoch, minEpoch, i, hpc⟩ hall
        | reclaimAllPossible =>
            unfold FrontOk at hf
            rw [hpc] at hf
            exact hscan.lt_version hpc (Thread.Due.inQueue ⟨ch, hch', rfl, hcb⟩) (before ch hch' cb hcb hx)
              (hf d.epoch he)
      · exact hold

end Step

/-- **In every run whose commits are covered every section open since one is.** -/
theorem cover_reachWhere {cfg : Config ι ν α} {s : Sys ι ν α} (h : Sys.ReachWhere cfg CommitCovered s)
    (t : ι) : Cover s t := by
  induction h generalizing t with
  | init => exact Or.inr fun _ _ => trivial
  | @step s _ v _ hr hp hs ih =>
      obtain ⟨sh', th', hm, rfl⟩ := Sys.step_move hs
      by_cases ht : t = v
      · subst ht
        exact (ih t).step_self (active_reach hr.reach) (numbered_reach hr.reach) (books_reach hr.reach t)
          (scan_reach hr.reach t) (front_reach hr.reach t) hp hm
      · exact (ih t).step_ne (active_reach hr.reach) (numbered_reach hr.reach) hm ht

/-! ## 3. The callbacks of a commit that writes nothing -/

/-- **A callback of a transaction that writes nothing is synchronized after**, in every run whose commits are
    covered: when `reclaim_slow_path` is about to run it, every other thread has left the attempt or relative
    section it was in when `try_commit` returned. -/
theorem emptyCommit_grace {cfg : Config ι ν α} {s : Sys ι ν α} (h : Sys.ReachWhere cfg CommitCovered s)
    {t : ι} {epoch minEpoch : Epoch} {i : Nat} {ch : Chunk (GpCallback ν α)} {cb : GpCallback ν α}
    (hpc : (s.threads t).pc = .succCallbacks .reclaimAllPossible epoch minEpoch i)
    (hch : (s.threads t).td.succCallbacks.chunks.head? = some ch) (hcb : ch.callbacks[i]? = some cb)
    {c : Commit ι ν α} (hc : c ∈ s.shared.hist.commits) (htid : c.tid = t) (hatt : c.attempt = cb.attempt)
    {u : ι} (hu : u ≠ t) {n : Nat} (hn : c.opened u = some n) :
    ¬ ((s.threads u).pc.isOpen = true ∧ (s.threads u).att.number = n) := by
  rintro ⟨ho, rfl⟩
  have hx : OpenSince (fun _ => True) s t cb u := ⟨ho, c, hc, htid, hatt, trivial, hn⟩
  have hf := front_reach h.reach t
  unfold FrontOk at hf
  rw [hpc] at hf
  have hlt := (scan_reach h.reach t).lt_version hpc (due_front hpc hch hcb).inQueue hx
    (hf ch.epoch (by rw [EpochQueue.frontEpoch?, hch]; rfl))
  have hcover := (cover_reachWhere h t).resolve_left (by simp [hpc]) u hu
  obtain ⟨rest, hq⟩ := List.head?_eq_some_iff.mp hch
  rw [Thread.left, hpc] at hcover
  simp only [hq] at hcover
  rcases hcover with hle | ⟨hno, _⟩
  · exact Nat.not_lt_of_le hle hlt
  · obtain ⟨hi, rfl⟩ := List.getElem?_eq_some_iff.mp hcb
    refine hno _ ?_ hx
    rw [List.drop_eq_getElem_cons hi]
    exact List.mem_cons_self

/-- A thread enters a relative section at the first epoch; the other one commits two callbacks and no write
    beside it and waits. The section ends. -/
def commitBesideFirst : List (Bool × Option (Request Bool Nat)) :=
  (true, some (.relative false)) :: List.replicate 2 (true, none) ++
  (false, some (.readWrite fun log =>
    if log.length < 2 then .sometimeSynchronizedAfter log.length else .ret)) :: List.replicate 10 (false, none) ++
  List.replicate 2 (true, none) ++ List.replicate 2 (false, none)

/-- Every other thread is in no section, or in one of the first epoch. -/
def othersFirst (s : Sys Bool Bool Nat) (t : Bool) : Bool :=
  decide (∀ u, u ≠ t → s.shared.active u ≠ offState → s.shared.active u = 0)

theorem commitBesideFirst_isSome :
    (Sys.run smallConfig commitBesideFirst (.init smallConfig)).isSome = true := by
  decide

/-- The first callback runs when the section that was open at the commit has ended. -/
theorem emptyCommit_grace_commitBesideFirst :
    let s := (Sys.run smallConfig commitBesideFirst (.init smallConfig)).get commitBesideFirst_isSome
    s.shared.hist.commits.map (fun c => (c.writes.length, c.opened true)) = [(0, some 1)] ∧
      ¬ ((s.threads true).pc.isOpen = true ∧ (s.threads true).att.number = 1) := by
  have hr : Sys.ReachWhere smallConfig CommitCovered
      ((Sys.run smallConfig commitBesideFirst (.init smallConfig)).get commitBesideFirst_isSome) :=
    Sys.ReachWhere.init.run (p := othersFirst)
      (fun s t hp _ _ _ u hu hon => Or.inl (of_decide_eq_true hp u hu hon)) (by decide)
      (Option.some_get commitBesideFirst_isSome).symm
  refine ⟨by decide, ?_⟩
  exact emptyCommit_grace hr rfl rfl rfl (List.mem_singleton_self _) rfl rfl (by decide) rfl

/-- A thread commits a write and enters a relative section behind it, at a later epoch. -/
def commitBesideLater : List (Bool × Option (Request Bool Nat)) :=
  (true, some (.readWrite fun log => if log.length = 0 then .set false 7 else .ret)) ::
    List.replicate 17 (true, none) ++
  (true, some (.relative false)) :: List.replicate 2 (true, none) ++
  (false, some (.readWrite fun log =>
    if log.length < 2 then .sometimeSynchronizedAfter log.length else .ret)) :: List.replicate 10 (false, none)

theorem commitBesideLater_isSome :
    (Sys.run smallConfig commitBesideLater (.init smallConfig)).isSome = true := by
  decide

/-- **A callback runs beside a section that was open at the commit**: its transaction has written nothing, so
    it waits for epoch 0, and the relative section of the other thread has announced epoch 1. -/
theorem emptyCommit_beside_section :
    ¬ ∀ s : Sys Bool Bool Nat, Sys.Reach smallConfig (fun _ => True) s →
      ∀ t epoch minEpoch i ch cb, (s.threads t).pc = .succCallbacks .reclaimAllPossible epoch minEpoch i →
        (s.threads t).td.succCallbacks.chunks.head? = some ch → ch.callbacks[i]? = some cb →
        ∀ c ∈ s.shared.hist.commits, c.tid = t → c.attempt = cb.attempt → c.writes = [] →
        ∀ u, u ≠ t → ∀ n, c.opened u = some n →
        ¬ ((s.threads u).pc.isOpen = true ∧ (s.threads u).att.number = n) := by
  intro h
  have hr : Sys.Reach smallConfig (fun _ => True)
      ((Sys.run smallConfig commitBesideLater (.init smallConfig)).get commitBesideLater_isSome) :=
    .of_run (fun _ _ _ _ => trivial) (Option.some_get commitBesideLater_isSome).symm
  exact h _ hr false 0 1 0 _ _ rfl rfl rfl _ List.mem_cons_self rfl rfl rfl true (by decide) 2 rfl
    (by decide)

end LockfreeStm
