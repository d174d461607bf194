/-
  File:      LockfreeStm/GracePeriod.lean
  Subject:   `synchronize_min_epoch` IS A GRACE PERIOD, AND ITS RESULT A SAFE BOUND
             (detail/thread_synchronization.hpp).

  Any number of threads open and close sections, construct and destroy their nodes and scan the list,
  in any interleaving, while one thread is in `synchronize_min_epoch(e)`. A `SyncCall` follows this
  one call: which sections were open when it was made, which of them have been closed since, and
  what `wait_min_epoch` has returned.

  * `Scanned` -- what the scan knows about the nodes it has passed;
  * **`synchronizeMinEpoch_grace`** -- when it returns `M`, every section that was open at the call
    with an epoch of at most `e` has been closed, and one that is still open has an epoch greater
    than `e` and at least `M`.
-/
import LockfreeStm.ThreadSynchronization

namespace LockfreeStm

variable {τ : Type} [DecidableEq τ] {s s' : Registry τ} {t u : τ} {req : NodeRequest} {e : Epoch}

/-! ## 1. What a step leaves alone -/

namespace Registry

/-- A step changes the program counter and the epoch of its own thread only, and the list only where
    the list is being changed. -/
structure Frame (s s' : Registry τ) (t : τ) : Prop where
  pc : ∀ u, u ≠ t → s'.pc u = s.pc u
  active : ∀ u, u ≠ t → s'.active u = s.active u
  nodes : (s.pc t).modifying = false → s'.nodes = s.nodes
  ownActive : s.pc t ≠ .live → s'.active t = s.active t ∨ s'.active t = offState

theorem Frame.goto (s : Registry τ) (t : τ) (pc' : NodePc τ) : Frame s (s.goto t pc') t where
  pc _ hu := Function.update_of_ne hu _ _
  active _ _ := rfl
  nodes _ := rfl
  ownActive _ := .inl rfl

theorem Frame.lock {m : Option τ} {pc' : NodePc τ} (h : s.lock t m pc' = some s') :
    Frame s s' t := by
  obtain ⟨l, -, rfl⟩ := Option.map_eq_some_iff.mp h
  exact ⟨fun u hu => Function.update_of_ne hu _ _, fun _ _ => rfl, fun _ => rfl, fun _ => .inl rfl⟩

theorem Frame.unlock (s : Registry τ) (t : τ) (m : Option τ) (pc' : NodePc τ) :
    Frame s (s.unlock t m pc') t := by
  unfold Registry.unlock
  split
  · exact Frame.goto s t _
  · exact ⟨fun u hu => Function.update_of_ne hu _ _, fun _ _ => rfl, fun _ => rfl, fun _ => .inl rfl⟩

theorem Frame.request {pc : NodePc τ} (hpc : s.pc t = pc) (h : s.request t pc req = some s') :
    Frame s s' t := by
  unfold Registry.request at h
  split at h
  · cases h
    exact ⟨fun u hu => Function.update_of_ne hu _ _, fun u hu => Function.update_of_ne hu _ _,
      fun _ => rfl, fun _ => .inr (Function.update_self ..)⟩
  · obtain ⟨-, h⟩ := Option.ite_none_right_eq_some.mp h
    cases h
    exact ⟨fun u hu => Function.update_of_ne hu _ _, fun _ _ => rfl, fun _ => rfl, fun _ => .inl rfl⟩
  · obtain ⟨-, h⟩ := Option.ite_none_right_eq_some.mp h
    cases h
    exact ⟨fun _ _ => rfl, fun u hu => Function.update_of_ne hu _ _, fun _ => rfl,
      fun hl => absurd hpc hl⟩
  · obtain ⟨-, h⟩ := Option.ite_none_right_eq_some.mp h
    cases h
    exact ⟨fun _ _ => rfl, fun u hu => Function.update_of_ne hu _ _, fun _ => rfl,
      fun hl => absurd hpc hl⟩
  · obtain ⟨-, h⟩ := Option.ite_none_right_eq_some.mp h
    cases h
    exact Frame.goto s t _
  · cases h

theorem step_frame (h : s.step t req = some s') : Frame s s' t := by
  unfold Registry.step at h
  split at h
  case h_1 => exact Frame.lock h
  case h_2 => exact Frame.lock h
  case h_3 =>
    split at h
    · exact Frame.lock h
    · cases h; exact Frame.goto s t _
    · cases h; exact Frame.goto s t _
  case h_4 hpc =>
    cases h
    have hm : (s.pc t).modifying = true := by rw [hpc]; rfl
    exact ⟨fun u hu => Function.update_of_ne hu _ _, fun _ _ => rfl,
      fun hm' => absurd (hm.symm.trans hm') (by decide), fun _ => .inl rfl⟩
  case h_5 => split at h <;> cases h <;> exact Frame.goto s t _
  case h_6 hpc =>
    cases h
    have hm : (s.pc t).modifying = true := by rw [hpc]; rfl
    exact ⟨fun u hu => Function.update_of_ne hu _ _, fun _ _ => rfl,
      fun hm' => absurd (hm.symm.trans hm') (by decide), fun _ => .inl rfl⟩
  case h_7 =>
    split at h
    · cases h; exact Frame.unlock s t _ _
    · cases h; exact Frame.goto s t _
  case h_8 => cases h; exact Frame.unlock s t _ _
  case h_9 => cases h; exact Frame.unlock s t _ _
  case h_10 => cases h; exact Frame.unlock s t _ _
  case h_11 =>
    obtain ⟨l, -, rfl⟩ := Option.map_eq_some_iff.mp h
    exact ⟨fun u hu => Function.update_of_ne hu _ _, fun _ _ => rfl, fun _ => rfl, fun _ => .inl rfl⟩
  case h_12 => split at h <;> cases h <;> exact Frame.goto s t _
  case h_13 => cases h; exact Frame.goto s t _
  case h_14 =>
    split at h
    · cases h; exact Frame.goto s t _
    · cases h
      exact ⟨fun u hu => Function.update_of_ne hu _ _, fun _ _ => rfl, fun _ => rfl,
        fun _ => .inl rfl⟩
  case h_15 => cases h
  case h_16 hpc => exact Frame.request hpc h
  case h_17 hpc => exact Frame.request hpc h

/-- In a section a thread can do nothing but close it. -/
theorem step_of_section (hpc : s.pc t = .live) (ha : s.active t ≠ offState)
    (h : s.step t req = some s') : req = .accessUnlock := by
  unfold Registry.step at h
  rw [hpc] at h
  cases req <;> simp [Registry.request, ha] at h ⊢

/-- A thread in a section is in no call. -/
theorem Reach.live_of_section (h : Reach s) (ha : s.active u ≠ offState) : s.pc u = .live := by
  induction h with
  | init => exact absurd rfl ha
  | @step s s' t req _ hs ih =>
    have hf := step_frame hs
    by_cases hut : u = t
    · subst hut
      by_cases hpc : s.pc u = .live
      · -- a step that leaves `live` is taken outside a section and does not open one
        have hreq : s.request u .live req = some s' := by simpa only [Registry.step, hpc] using hs
        cases req with
        | construct => cases hreq
        | destruct =>
          obtain ⟨hoff, hreq⟩ := Option.ite_none_right_eq_some.mp hreq
          cases hreq
          exact absurd hoff ha
        | accessLock _ =>
          obtain ⟨-, hreq⟩ := Option.ite_none_right_eq_some.mp hreq
          cases hreq
          exact hpc
        | accessUnlock =>
          obtain ⟨-, hreq⟩ := Option.ite_none_right_eq_some.mp hreq
          cases hreq
          exact hpc
        | synchronizeMinEpoch _ =>
          obtain ⟨hoff, hreq⟩ := Option.ite_none_right_eq_some.mp hreq
          cases hreq
          exact absurd hoff.1 ha
      · rcases hf.ownActive hpc with e | e
        · exact absurd (ih (e ▸ ha)) hpc
        · exact absurd e ha
    · rw [hf.pc u hut]
      exact ih (hf.active u hut ▸ ha)

/-- What `wait_min_epoch` returns when thread `t` leaves its loop. -/
def scanResult (s : Registry τ) (t : τ) : Option Epoch :=
  match s.pc t with
  | .waitMinEpoch _ i result => if s.nodes.data[i]?.isNone then some result else none
  | _ => none

end Registry

/-! ## 2. A call and what has happened since -/

/-- A call of `synchronize_min_epoch` as it runs. -/
structure SyncCall (τ : Type) where
  state : Registry τ
  /-- the epochs announced at the moment of the call: off_state outside sections -/
  opened : τ → Epoch
  /-- who has closed a section since -/
  closed : τ → Bool
  /-- what `wait_min_epoch` has returned -/
  result : Option Epoch

namespace SyncCall

/-- What the call by `t` looks like after a step of thread `u`. -/
def next (c : SyncCall τ) (t u : τ) (req : NodeRequest) (s' : Registry τ) : SyncCall τ where
  state := s'
  opened := c.opened
  closed := if c.state.pc u = .live ∧ req = .accessUnlock then Function.update c.closed u true
    else c.closed
  result := match c.result with
    | some M => some M
    | none => if u = t then c.state.scanResult t else none

/-- The section that the thread had open at the call is still open. -/
def Pending (c : SyncCall τ) (u : τ) : Prop := c.opened u ≠ offState ∧ c.closed u = false

/-- Those of the nodes whose sections are still open are above `e`, and `result` is no greater. -/
def Bounded (c : SyncCall τ) (e : Epoch) (nodes : List τ) (result : Epoch) : Prop :=
  ∀ u ∈ nodes, c.Pending u → e < c.opened u ∧ result ≤ c.opened u

/-- What the scan of `t` knows at each place. A node that is waited for is not folded into the
    result: if its section was open at the call, the wait ends only once it has been closed. -/
def Scanned (c : SyncCall τ) (t : τ) (e : Epoch) : Prop :=
  match c.result with
  | some M => ∀ u, c.Pending u → e < c.opened u ∧ M ≤ c.opened u
  | none =>
    match c.state.pc t with
    | .lockShared e' => e' = e
    | .waitMinEpoch e' i result => e' = e ∧ c.Bounded e (c.state.nodes.data.take i) result
    | .waitOnEpoch e' n i result =>
      e' = e ∧ c.state.nodes.data[i]? = some n ∧ (c.Pending n → c.opened n ≤ e) ∧
        c.Bounded e (c.state.nodes.data.take i) result
    | _ => False

end SyncCall

/-- **The runs of a call** of `synchronize_min_epoch(e)` by thread `t`, from the call on. -/
inductive Synchronizing (t : τ) (e : Epoch) : SyncCall τ → Prop
  | call {s s' : Registry τ} (h : Registry.Reach s) (hpc : s.pc t = .live)
      (hs : s.step t (.synchronizeMinEpoch e) = some s') :
      Synchronizing t e ⟨s', s.active, fun _ => false, none⟩
  | step {c : SyncCall τ} {s' : Registry τ} {u : τ} {req : NodeRequest} (h : Synchronizing t e c)
      (hs : c.state.step u req = some s') : Synchronizing t e (c.next t u req s')

/-! ## 3. The scan -/

/-- What holds while the call runs. -/
structure SyncInv (t : τ) (e : Epoch) (c : SyncCall τ) : Prop where
  reach : Registry.Reach c.state
  open_ : ∀ u, c.Pending u → c.state.active u = c.opened u
  scanned : c.Scanned t e

namespace SyncInv

variable {c : SyncCall τ}

/-- A thread whose section is still open stands outside every call. -/
theorem live (h : SyncInv t e c) (hp : c.Pending u) : c.state.pc u = .live :=
  h.reach.live_of_section (h.open_ u hp ▸ hp.1)

/-- So its node is in the list. -/
theorem listed (h : SyncInv t e c) (hp : c.Pending u) : u ∈ c.state.nodes.data := by
  rw [((registryInv_reach h.reach).node u).member, h.live hp]
  rfl

/-- A section that is still open after a step is another thread's. -/
theorem pending_next (h : SyncInv t e c) (hs : c.state.step u req = some s') {w : τ}
    (hp : (c.next t u req s').Pending w) : w ≠ u ∧ c.Pending w := by
  have hw : c.Pending w := by
    refine ⟨hp.1, ?_⟩
    have hclosed := hp.2
    simp only [SyncCall.next] at hclosed
    split at hclosed
    · by_cases hwu : w = u
      · rw [hwu, Function.update_self] at hclosed
        cases hclosed
      · rwa [Function.update_of_ne hwu] at hclosed
    · exact hclosed
  refine ⟨fun hwu => ?_, hw⟩
  subst hwu
  have hlive := h.live hw
  have hreq := Registry.step_of_section hlive (h.open_ w hw ▸ hw.1) hs
  have hclosed := hp.2
  simp [SyncCall.next, hlive, hreq] at hclosed

end SyncInv

omit [DecidableEq τ] in
/-- One more node has been looked at. -/
theorem SyncCall.Bounded.snoc {c : SyncCall τ} {nodes : List τ} {i : Nat} {n : τ} {r r' : Epoch}
    (h : c.Bounded e (nodes.take i) r) (hn : nodes[i]? = some n) (hr : r' ≤ r)
    (hp : c.Pending n → e < c.opened n ∧ r' ≤ c.opened n) :
    c.Bounded e (nodes.take (i + 1)) r' := by
  intro u hu hpu
  rw [List.take_add_one, hn, Option.toList_some, List.mem_append, List.mem_singleton] at hu
  rcases hu with hu | rfl
  · exact ⟨(h u hu hpu).1, Nat.le_trans hr (h u hu hpu).2⟩
  · exact hp hpu

namespace SyncInv

variable {c : SyncCall τ}

/-- What is known of the nodes passed stays known. -/
theorem bounded_next (h : SyncInv t e c) (hs : c.state.step u req = some s') {nodes : List τ}
    {r : Epoch} (hb : c.Bounded e nodes r) : (c.next t u req s').Bounded e nodes r :=
  fun w hw hp => hb w hw (h.pending_next hs hp).2

/-- A step of another thread leaves the scan where it is. -/
theorem scanned_other (h : SyncInv t e c) (hs : c.state.step u req = some s') (hut : u ≠ t)
    (hr : c.result = none) : (c.next t u req s').Scanned t e := by
  have hf := Registry.step_frame hs
  have hsc := h.scanned
  have hres : (c.next t u req s').result = none := by simp [SyncCall.next, hr, hut]
  have hpc : (c.next t u req s').state.pc t = c.state.pc t := hf.pc t (Ne.symm hut)
  have hnodes : (c.state.pc t).scanning = true → (c.next t u req s').state.nodes = c.state.nodes := by
    intro hscan
    refine hf.nodes (Bool.eq_false_iff.mpr fun hm => ?_)
    exact not_scanning_while_modifying h.reach hscan hm
  simp only [SyncCall.Scanned, hr] at hsc
  simp only [SyncCall.Scanned, hres, hpc]
  split at hsc
  · exact hsc
  · next hpct =>
    rw [hnodes (by rw [hpct]; rfl)]
    exact ⟨hsc.1, h.bounded_next hs hsc.2⟩
  · next hpct =>
    rw [hnodes (by rw [hpct]; rfl)]
    exact ⟨hsc.1, hsc.2.1, fun hp => hsc.2.2.1 (h.pending_next hs hp).2,
      h.bounded_next hs hsc.2.2.2⟩
  · exact hsc

/-- A step of the scan itself. -/
theorem scanned_own (h : SyncInv t e c) (hs : c.state.step t req = some s') (hr : c.result = none) :
    (c.next t t req s').Scanned t e := by
  have hsc := h.scanned
  have hopen : ∀ u, c.Pending u → c.state.active u = c.opened u := h.open_
  have hpend : ∀ u, (c.next t t req s').Pending u → c.Pending u := fun u hp =>
    (h.pending_next hs hp).2
  simp only [SyncCall.Scanned, hr] at hsc
  split at hsc
  · next e' hpc =>
    subst hsc
    simp only [Registry.step, hpc] at hs
    obtain ⟨l, -, rfl⟩ := Option.map_eq_some_iff.mp hs
    simp only [SyncCall.Scanned, SyncCall.next, hr, Registry.scanResult, hpc, Registry.goto,
      Function.update_self, if_true, List.take_zero, true_and]
    exact fun u hu => absurd hu List.not_mem_nil
  · next e' i r hpc =>
    obtain ⟨rfl, hb⟩ := hsc
    simp only [Registry.step, hpc] at hs
    split at hs
    · next n hn =>
      cases hs
      have hres : (c.next t t req (c.state.goto t (if c.state.active n ≤ e' then
          .waitOnEpoch e' n i r else .waitMinEpoch e' (i + 1) (min (c.state.active n) r)))).result =
          none := by
        simp [SyncCall.next, hr, Registry.scanResult, hpc, hn]
      have hstate : ∀ pc', (c.next t t req (c.state.goto t pc')).state.pc t = pc' := fun pc' =>
        Function.update_self ..
      simp only [SyncCall.Scanned, hres, hstate]
      by_cases hle : c.state.active n ≤ e'
      · simp only [if_pos hle] at hpend ⊢
        exact ⟨trivial, hn, fun hp => hopen n (hpend n hp) ▸ hle,
          fun u hu hp => hb u hu (hpend u hp)⟩
      · simp only [if_neg hle] at hpend ⊢
        refine ⟨trivial, fun u hu hp => ?_⟩
        have hsnoc := hb.snoc hn (Nat.min_le_right (c.state.active n) r) fun hp => by
          rw [← hopen n hp]
          exact ⟨Nat.lt_of_not_le hle, Nat.min_le_left ..⟩
        exact hsnoc u hu (hpend u hp)
    · next hn =>
      -- the loop has passed every node, and the open sections are all in the list
      cases hs
      have hres : (c.next t t req (c.state.goto t .unlockShared)).result = some r := by
        simp [SyncCall.next, hr, Registry.scanResult, hpc, hn]
      simp only [SyncCall.Scanned, hres]
      intro u hp
      refine hb u ?_ (hpend u hp)
      rw [take_eq_self hn]
      exact h.listed (hpend u hp)
  · next e' n i r hpc =>
    obtain ⟨rfl, hn, hwait, hb⟩ := hsc
    simp only [Registry.step, hpc] at hs
    cases hs
    have hres : (c.next t t req (c.state.goto t (if c.state.active n ≤ e' then
        .waitOnEpoch e' n i r else .waitMinEpoch e' (i + 1) r))).result = none := by
      simp [SyncCall.next, hr, Registry.scanResult, hpc]
    have hstate : ∀ pc', (c.next t t req (c.state.goto t pc')).state.pc t = pc' := fun pc' =>
      Function.update_self ..
    simp only [SyncCall.Scanned, hres, hstate]
    by_cases hle : c.state.active n ≤ e'
    · simp only [if_pos hle] at hpend ⊢
      exact ⟨trivial, hn, fun hp => hwait (hpend n hp), fun u hu hp => hb u hu (hpend u hp)⟩
    · simp only [if_neg hle] at hpend ⊢
      refine ⟨trivial, fun u hu hp => ?_⟩
      -- the section that was waited for is closed
      have hsnoc := hb.snoc hn (Nat.le_refl r) fun hp =>
        absurd (hopen n hp ▸ hwait hp) hle
      exact hsnoc u hu (hpend u hp)
  · exact hsc.elim

/-- A step of any thread. -/
theorem next (h : SyncInv t e c) (hs : c.state.step u req = some s') :
    SyncInv t e (c.next t u req s') where
  reach := h.reach.step hs
  open_ w hp := by
    obtain ⟨hwu, hw⟩ := h.pending_next hs hp
    exact ((Registry.step_frame hs).active w hwu).trans (h.open_ w hw)
  scanned := by
    cases hr : c.result with
    | some M =>
      have hsc := h.scanned
      simp only [SyncCall.Scanned, hr] at hsc
      have hres : (c.next t u req s').result = some M := by simp [SyncCall.next, hr]
      simp only [SyncCall.Scanned, hres]
      exact fun w hp => hsc w (h.pending_next hs hp).2
    | none =>
      by_cases hut : u = t
      · subst hut
        exact h.scanned_own hs hr
      · exact h.scanned_other hs hut hr

end SyncInv

/-- The invariant holds in every run of a call. -/
theorem synchronizing_inv {c : SyncCall τ} (h : Synchronizing t e c) : SyncInv t e c := by
  induction h with
  | @call s s' h hpc hs =>
    have hf := Registry.step_frame hs
    have hreq : s.request t .live (.synchronizeMinEpoch e) = some s' := by
      simpa only [Registry.step, hpc] using hs
    obtain ⟨hoff, hgoto⟩ := Option.ite_none_right_eq_some.mp hreq
    cases hgoto
    refine ⟨h.step hs, fun u _ => rfl, ?_⟩
    simp only [SyncCall.Scanned, Registry.goto, Function.update_self]
  | step _ hs ih => exact ih.next hs

/-! ## 4. The grace period -/

/-- **`synchronize_min_epoch(e)` is a grace period, and its result a safe bound.** When it returns
    `M`, a section that was open at the call with an epoch of at most `e` has been closed since; one
    that is still open announces an epoch greater than `e` and at least `M`. -/
theorem synchronizeMinEpoch_grace {c : SyncCall τ} {M : Epoch} (h : Synchronizing t e c)
    (hr : c.result = some M) (ho : c.opened u ≠ offState) :
    (c.opened u ≤ e → c.closed u = true) ∧
      (c.closed u = false → c.state.active u = c.opened u ∧ e < c.opened u ∧ M ≤ c.opened u) := by
  have hi := synchronizing_inv h
  have hsc := hi.scanned
  simp only [SyncCall.Scanned, hr] at hsc
  refine ⟨fun hle => ?_, fun hc => ⟨hi.open_ u ⟨ho, hc⟩, hsc u ⟨ho, hc⟩⟩⟩
  by_contra hc
  exact Nat.not_le_of_lt (hsc u ⟨ho, Bool.eq_false_iff.mpr hc⟩).1 hle

/-- The call after a schedule of steps. -/
def SyncCall.run (t : τ) : List (τ × NodeRequest) → SyncCall τ → Option (SyncCall τ)
  | [], c => some c
  | (u, req) :: rest, c => (c.state.step u req).bind fun s' => run t rest (c.next t u req s')

theorem Synchronizing.of_run {schedule : List (τ × NodeRequest)} {c c' : SyncCall τ}
    (h : Synchronizing t e c) (hs : c.run t schedule = some c') : Synchronizing t e c' := by
  induction schedule generalizing c with
  | nil =>
    cases hs
    exact h
  | cons p rest ih =>
    obtain ⟨s', hstep, hrest⟩ := Option.bind_eq_some_iff.mp hs
    exact ih (h.step hstep) hrest

/-- Two nodes; thread 1 is in a section of epoch 5. -/
def sectionBesideScan : Registry Nat :=
  (Registry.run (List.replicate 8 (0, .construct) ++ List.replicate 10 (1, .construct) ++
    [(1, .accessLock 5)]) .init).get (by decide)

/-- Thread 0 synchronizes on epoch 3 and has returned. -/
def scanReturned : SyncCall Nat :=
  (SyncCall.run 0 (List.replicate 5 (0, .construct))
    ⟨(sectionBesideScan.step 0 (.synchronizeMinEpoch 3)).get (by decide), sectionBesideScan.active,
      fun _ => false, none⟩).get (by decide)

theorem synchronizeMinEpoch_grace_scanReturned :
    scanReturned.state.pc 0 = .live ∧ scanReturned.result = some 5 ∧
      ((5 ≤ 3 → scanReturned.closed 1 = true) ∧
        (scanReturned.closed 1 = false → scanReturned.state.active 1 = 5 ∧ 3 < 5 ∧ 5 ≤ 5)) :=
  ⟨by decide, by decide,
    synchronizeMinEpoch_grace
      ((Synchronizing.call (Registry.Reach.init.of_run (Option.some_get _).symm) (by decide)
        (Option.some_get _).symm).of_run (Option.some_get _).symm)
      (by decide : scanReturned.result = some 5) (by decide : scanReturned.opened 1 ≠ offState)⟩

end LockfreeStm
