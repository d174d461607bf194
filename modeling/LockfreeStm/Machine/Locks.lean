/-
  File:      LockfreeStm/Machine/Locks.lean
  Subject:   THE VERSION LOCKS: a var is locked exactly while one thread holds it.

  * `Locks`, `locks_reach` -- in every state reached each version_lock holds a version of at most
    the clock, with the lock bit set if and only if a thread holds the var; no two threads hold one
    var, and no thread holds one var twice.
  * `Locks.not_holds` -- a version below the lock bit is read from a var nobody holds. This is what
    `rw_valid` tells a reader.
-/
import LockfreeStm.Machine.Active

namespace LockfreeStm

variable {ι ν α : Type} [DecidableEq ι] [DecidableEq ν]

/-- What a thread in the commit knows: the version it is about to lock was valid, the version it is
    about to unlock is still there, and the version it publishes is one the clock has reached. -/
def InCommitAt (sh : Shared ι ν α) (th : Thread ι ν α) : PC ι ν α → Prop
  | .lockCas _ buf => buf ≤ th.version
  | .unlockStore i last buf => ∃ e, th.td.writeSet.entries[i]? = some e ∧ i < last ∧
      sh.loadVersion e.destVar = buf
  | .publish _ syncEpoch => syncEpoch + bumpSize ≤ sh.clock
  | _ => True

/-- What the version_locks satisfy. -/
structure Locks (s : Sys ι ν α) : Prop where
  word : ∀ v, ∃ b ≤ s.shared.clock,
    (s.shared.loadVersion v = b ∧ ∀ t, ¬ (s.threads t).Holds v) ∨
      (s.shared.loadVersion v = asLocked b ∧ ∃ t, (s.threads t).Holds v)
  unique : ∀ t u v, (s.threads t).Holds v → (s.threads u).Holds v → t = u
  nodup : ∀ t, ((s.threads t).held.map (·.destVar)).Nodup
  commitAt : ∀ t, InCommitAt s.shared (s.threads t) (s.threads t).pc

/-! ## 1. How the views change -/

section Views

variable {th : Thread ι ν α} {e : WriteSetValueType ν (VarStorage α)} {i last : Nat}

omit [DecidableEq ι] [DecidableEq ν] in
theorem held_lock {buf : Epoch} (hpc : th.pc = .lockCas i buf)
    (he : th.td.writeSet.entries[i]? = some e) :
    (th.goto (.lockLoad (i + 1))).held = th.held ++ [e] := by
  obtain ⟨hi, rfl⟩ := List.getElem?_eq_some_iff.mp he
  rw [Thread.held, Thread.held, hpc]
  exact (List.take_concat_get' _ i hi).symm

omit [DecidableEq ι] [DecidableEq ν] in
theorem held_unlock {buf : Epoch} (hpc : th.pc = .unlockStore i last buf) (hi : i < last)
    (he : th.td.writeSet.entries[i]? = some e) :
    th.held = e :: (th.goto (.unlockLoad (i + 1) last)).held := by
  obtain ⟨hlen, rfl⟩ := List.getElem?_eq_some_iff.mp he
  rw [Thread.held, Thread.held, hpc]
  have hlt : i < (th.entries.take last).length := by
    rw [List.length_take]
    exact lt_min hi hlen
  have hd := List.drop_eq_getElem_cons hlt
  rw [List.getElem_take] at hd
  exact hd

omit [DecidableEq ι] [DecidableEq ν] in
theorem held_publish {sync : Epoch} (hpc : th.pc = .publish i sync)
    (he : th.td.writeSet.entries[i]? = some e) :
    th.held = e :: (th.goto (.publish (i + 1) sync)).held := by
  obtain ⟨hlen, rfl⟩ := List.getElem?_eq_some_iff.mp he
  rw [Thread.held, Thread.held, hpc]
  exact List.drop_eq_getElem_cons hlen

omit [DecidableEq ι] [DecidableEq ν] in
theorem publishing_publish {sync : Epoch} (hpc : th.pc = .publish i sync)
    (he : th.td.writeSet.entries[i]? = some e) :
    th.publishing = e :: (th.goto (.publish (i + 1) sync)).publishing := by
  obtain ⟨hlen, rfl⟩ := List.getElem?_eq_some_iff.mp he
  rw [Thread.publishing, Thread.publishing, hpc]
  exact List.drop_eq_getElem_cons hlen

omit [DecidableEq ι] [DecidableEq ν] in
theorem preStored_store (hpc : th.pc = .doWrites i) (he : th.td.writeSet.entries[i]? = some e) :
    (th.goto (.doWrites (i + 1))).preStored = th.preStored ++ [e] := by
  obtain ⟨hi, rfl⟩ := List.getElem?_eq_some_iff.mp he
  rw [Thread.preStored, Thread.preStored, hpc]
  exact (List.take_concat_get' _ i hi).symm

omit [DecidableEq ι] [DecidableEq ν] in
theorem held_store (hpc : th.pc = .doWrites i) : (th.goto (.doWrites (i + 1))).held = th.held := by
  rw [Thread.held, Thread.held, hpc]
  rfl

omit [DecidableEq ι] [DecidableEq ν] in
theorem held_bump (sync : Epoch) (hpc : th.pc = .bumpClock) :
    (th.goto (.publish 0 sync)).held = th.held := by
  rw [Thread.held, Thread.held, hpc]
  rfl

omit [DecidableEq ι] [DecidableEq ν] in
/-- Holding the head of the list and holding the rest. -/
theorem holds_cons {th th' : Thread ι ν α} {e : WriteSetValueType ν (VarStorage α)}
    (h : th.held = e :: th'.held) (v : ν) : th.Holds v ↔ e.destVar = v ∨ th'.Holds v := by
  simp [Thread.Holds, h]

omit [DecidableEq ι] [DecidableEq ν] in
theorem holds_concat {th th' : Thread ι ν α} {e : WriteSetValueType ν (VarStorage α)}
    (h : th'.held = th.held ++ [e]) (v : ν) : th'.Holds v ↔ th.Holds v ∨ e.destVar = v := by
  simp [Thread.Holds, h, or_and_right, exists_or]

end Views

omit [DecidableEq ι] [DecidableEq ν] in
@[simp] theorem Shared.loadVersion_atTime (sh : Shared ι ν α) (n : Nat) (v : ν) :
    (sh.atTime n).loadVersion v = sh.loadVersion v := rfl

omit [DecidableEq ι] in
theorem Shared.loadVersion_storeVersion (sh : Shared ι ν α) (v w : ν) (e : Epoch) :
    (sh.storeVersion v e).loadVersion w = if w = v then e else sh.loadVersion w := by
  by_cases h : w = v
  · subst h
    simp [loadVersion, storeVersion]
  · simp [loadVersion, storeVersion, h]

omit [DecidableEq ι] in
@[simp] theorem Shared.loadVersion_storeStorage (sh : Shared ι ν α) (v w : ν) (x : VarStorage α) :
    (sh.storeStorage v x).loadVersion w = sh.loadVersion w := by
  by_cases h : w = v
  · subst h
    simp [loadVersion, storeStorage]
  · simp [loadVersion, storeStorage, h]

omit [DecidableEq ι] [DecidableEq ν] in
theorem SameVars.loadVersion {sh sh' : Shared ι ν α} (h : SameVars sh sh') (v : ν) :
    sh'.loadVersion v = sh.loadVersion v := by
  unfold Shared.loadVersion
  rw [h.vars]

/-! ## 2. What a version tells -/

namespace Locks

variable {cfg : Config ι ν α} {s : Sys ι ν α}

omit [DecidableEq ι] in
/-- **A version below the lock bit is read from a var nobody holds.** -/
theorem not_holds (h : Locks s) (ha : Active cfg s) {v : ν}
    (hv : s.shared.loadVersion v < lockBit) :
    s.shared.loadVersion v ≤ s.shared.clock ∧ ∀ t, ¬ (s.threads t).Holds v := by
  obtain ⟨b, hb, ⟨e, hn⟩ | ⟨e, _⟩⟩ := h.word v
  · exact ⟨e ▸ hb, hn⟩
  · have hge := asLocked_lt (lt_of_le_of_lt hb (ha.clock_lt.trans maxVersion_lt))
    exact absurd (e ▸ hv) (Nat.not_lt_of_le hge)

omit [DecidableEq ι] in
/-- `rw_valid` succeeds on a var nobody holds. -/
theorem not_holds_of_valid (h : Locks s) (ha : Active cfg s) {v : ν} {t : ι}
    (hv : s.shared.loadVersion v ≤ (s.threads t).version) (u : ι) : ¬ (s.threads u).Holds v :=
  (h.not_holds ha (lt_of_le_of_lt hv (ha.version_lt t))).2 u

omit [DecidableEq ι] [DecidableEq ν] in
/-- A var that is held reads as the locked word of a version. -/
theorem of_holds (h : Locks s) {v : ν} {t : ι} (hh : (s.threads t).Holds v) :
    ∃ b ≤ s.shared.clock, s.shared.loadVersion v = asLocked b := by
  obtain ⟨b, hb, ⟨_, hn⟩ | ⟨e, _⟩⟩ := h.word v
  · exact absurd hh (hn t)
  · exact ⟨b, hb, e⟩

omit [DecidableEq ι] [DecidableEq ν] in
/-- The version before the compare-exchange was valid when it was loaded. -/
theorem casBuf (h : Locks s) {t : ι} {i : Nat} {buf : Epoch}
    (hpc : (s.threads t).pc = .lockCas i buf) : buf ≤ (s.threads t).version := by
  have hc := h.commitAt t
  rw [hpc] at hc
  exact hc

omit [DecidableEq ι] [DecidableEq ν] in
/-- The version that is about to be unlocked is still there. -/
theorem unlockBuf (h : Locks s) {t : ι} {i last : Nat} {buf : Epoch}
    (hpc : (s.threads t).pc = .unlockStore i last buf) :
    ∃ e, (s.threads t).td.writeSet.entries[i]? = some e ∧ i < last ∧
      s.shared.loadVersion e.destVar = buf := by
  have hc := h.commitAt t
  rw [hpc] at hc
  exact hc

omit [DecidableEq ι] [DecidableEq ν] in
/-- The published version is one the clock has reached. -/
theorem sync (h : Locks s) {t : ι} {i : Nat} {e : Epoch}
    (hpc : (s.threads t).pc = .publish i e) : e + bumpSize ≤ s.shared.clock := by
  have hc := h.commitAt t
  rw [hpc] at hc
  exact hc

end Locks

/-! ## 3. The step -/

section Step

variable {cfg : Config ι ν α} {s : Sys ι ν α} {t : ι} {req : Option (Request ν α)}
  {sh' : Shared ι ν α} {th' : Thread ι ν α}

omit [DecidableEq ν] in
/-- A step that changes neither the version_locks nor who holds what. -/
theorem Locks.word_of_same (h : Locks s) (hc : s.shared.clock ≤ sh'.clock)
    (hl : ∀ v, sh'.loadVersion v = s.shared.loadVersion v)
    (hh : th'.held = (s.threads t).held) (v : ν) : ∃ b ≤ sh'.clock,
      (sh'.loadVersion v = b ∧ ∀ u, ¬ ((s.after t sh' th').threads u).Holds v) ∨
        (sh'.loadVersion v = asLocked b ∧ ∃ u, ((s.after t sh' th').threads u).Holds v) := by
  have hth : ∀ u, ((s.after t sh' th').threads u).Holds v ↔ (s.threads u).Holds v := fun u =>
    Sys.forall_after (P := fun u th => th.Holds v ↔ (s.threads u).Holds v)
      (by rw [Thread.Holds, Thread.Holds, hh]) (fun _ _ => Iff.rfl) u
  obtain ⟨b, hb, ho⟩ := h.word v
  exact ⟨b, hb.trans hc, by simpa only [hth, hl] using ho⟩

/-- A step that locks or unlocks the var of `e`: the other vars stay as they are. -/
theorem Locks.word_of_change (h : Locks s) {e : WriteSetValueType ν (VarStorage α)}
    (hl : ∀ v, v ≠ e.destVar → sh'.loadVersion v = s.shared.loadVersion v)
    (hc : sh'.clock = s.shared.clock)
    (hh : ∀ v, v ≠ e.destVar → (th'.Holds v ↔ (s.threads t).Holds v))
    (he : ∃ b ≤ sh'.clock,
      (sh'.loadVersion e.destVar = b ∧ ∀ u, ¬ ((s.after t sh' th').threads u).Holds e.destVar) ∨
        (sh'.loadVersion e.destVar = asLocked b ∧
          ∃ u, ((s.after t sh' th').threads u).Holds e.destVar)) (v : ν) : ∃ b ≤ sh'.clock,
      (sh'.loadVersion v = b ∧ ∀ u, ¬ ((s.after t sh' th').threads u).Holds v) ∨
        (sh'.loadVersion v = asLocked b ∧ ∃ u, ((s.after t sh' th').threads u).Holds v) := by
  by_cases hv : v = e.destVar
  · subst hv
    exact he
  · have hth : ∀ u, ((s.after t sh' th').threads u).Holds v ↔ (s.threads u).Holds v := fun u =>
      Sys.forall_after (P := fun u th => th.Holds v ↔ (s.threads u).Holds v)
        (hh v hv) (fun _ _ => Iff.rfl) u
    obtain ⟨b, hb, ho⟩ := h.word v
    exact ⟨b, hc ▸ hb, by simpa only [hth, hl v hv] using ho⟩

omit [DecidableEq ν] in
/-- A thread that comes to hold only vars it held, or one nobody held, shares none. -/
theorem Locks.unique_after (h : Locks s)
    (hh : ∀ v, th'.Holds v → (s.threads t).Holds v ∨ ∀ u, ¬ (s.threads u).Holds v)
    (u w : ι) (v : ν) (hu : ((s.after t sh' th').threads u).Holds v)
    (hw : ((s.after t sh' th').threads w).Holds v) : u = w := by
  by_cases hut : u = t
  · by_cases hwt : w = t
    · rw [hut, hwt]
    · subst hut
      rw [Sys.threads_after_self] at hu
      rw [Sys.threads_after_ne s hwt] at hw
      exact (hh v hu).elim (fun h' => h.unique _ _ v h' hw) fun hn => absurd hw (hn w)
  · rw [Sys.threads_after_ne s hut] at hu
    by_cases hwt : w = t
    · subst hwt
      rw [Sys.threads_after_self] at hw
      exact (hh v hw).elim (fun h' => h.unique _ _ v hu h') fun hn => absurd hu (hn u)
    · rw [Sys.threads_after_ne s hwt] at hw
      exact h.unique u w v hu hw

omit [DecidableEq ι] in
/-- The compare-exchange succeeds on a var nobody holds. -/
theorem Locks.not_holds_of_cas (h : Locks s) (ha : Active cfg s) {i : Nat}
    {e : WriteSetValueType ν (VarStorage α)}
    (hpc : (s.threads t).pc = .lockCas i (s.shared.loadVersion e.destVar)) :
    s.shared.loadVersion e.destVar ≤ s.shared.clock ∧
      ∀ u, ¬ (s.threads u).Holds e.destVar :=
  h.not_holds ha (lt_of_le_of_lt (h.casBuf hpc) (ha.version_lt t))

omit [DecidableEq ν] in
/-- The holder of the head of its list lets go of it: then nobody holds it. -/
theorem Locks.not_holds_after (h : Locks s) {e : WriteSetValueType ν (VarStorage α)}
    (hh : (s.threads t).held = e :: th'.held) (u : ι) :
    ¬ ((s.after t sh' th').threads u).Holds e.destVar := by
  have hn := h.nodup t
  rw [hh, List.map_cons, List.nodup_cons] at hn
  refine Sys.forall_after (P := fun _ th => ¬ th.Holds e.destVar) ?_ (fun u hu hu' => ?_) u
  · rintro ⟨e', he', heq⟩
    exact hn.1 (List.mem_map.mpr ⟨e', he', heq⟩)
  · exact hu (h.unique u t _ hu' ⟨e, hh ▸ List.mem_cons_self, rfl⟩)

/-- The version_locks, the holders and what they hold, after a step. -/
theorem Locks.views_step (h : Locks s) (ha : Active cfg s)
    (hm : Effect s.shared t (s.threads t) s.opened sh' th') :
    (∀ v, ∃ b ≤ sh'.clock,
      (sh'.loadVersion v = b ∧ ∀ u, ¬ ((s.after t sh' th').threads u).Holds v) ∨
        (sh'.loadVersion v = asLocked b ∧ ∃ u, ((s.after t sh' th').threads u).Holds v)) ∧
      (∀ v, th'.Holds v → (s.threads t).Holds v ∨ ∀ u, ¬ (s.threads u).Holds v) ∧
      (th'.held.map (·.destVar)).Nodup := by
  cases hm with
  | quiet hs hv =>
      exact ⟨h.word_of_same hs.clock.ge (fun v => hs.loadVersion v) hv.held,
        fun v => Or.inl ∘ (hv.holds v).mp, hv.held ▸ h.nodup t⟩
  | commitEmpty hpc he =>
      have hheld : ((s.threads t).goto (.txSuccess 0)).held = (s.threads t).held := by
        rw [Thread.held, Thread.held, hpc]
        rfl
      exact ⟨h.word_of_same (Nat.le_refl _) (fun _ => rfl) hheld,
        fun v hv => Or.inl (by rwa [Thread.Holds, hheld] at hv), hheld ▸ h.nodup t⟩
  | lock i e hpc he =>
      have hheld := held_lock hpc he
      obtain ⟨hle, hn⟩ := h.not_holds_of_cas ha hpc
      refine ⟨h.word_of_change (e := e) (fun v hv => ?_) rfl (fun v hv => ?_) ⟨_, hle, Or.inr ⟨?_, t, ?_⟩⟩,
        fun v hv => ?_, ?_⟩
      · rw [Shared.loadVersion_storeVersion, if_neg hv]
      · rw [holds_concat hheld]
        exact or_iff_left fun hve => hv hve.symm
      · rw [Shared.loadVersion_storeVersion, if_pos rfl]
      · rw [Sys.threads_after_self, holds_concat hheld]
        exact Or.inr rfl
      · rcases (holds_concat hheld v).mp hv with hv | rfl
        · exact Or.inl hv
        · exact Or.inr hn
      · rw [hheld, List.map_append, List.nodup_append]
        refine ⟨h.nodup t, by simp, ?_⟩
        rintro v hv w hw rfl
        obtain ⟨e', he', rfl⟩ := List.mem_map.mp hv
        simp only [List.map_cons, List.map_nil, List.mem_singleton] at hw
        exact hn t ⟨e', he', hw⟩
  | unlock i last buf e hpc he =>
      obtain ⟨e', he', hi, hbuf⟩ := h.unlockBuf hpc
      obtain rfl : e = e' := Option.some.inj (he.symm.trans he')
      have hheld := held_unlock hpc hi he
      obtain ⟨b, hb, hw⟩ := h.of_holds (t := t) ((holds_cons hheld _).mpr (Or.inl rfl))
      have hflip : flipLock buf = b := by
        rw [← hbuf, hw, flipLock_asLocked (lt_of_le_of_lt hb (ha.clock_lt.trans maxVersion_lt))]
      refine ⟨h.word_of_change (e := e) (fun v hv => ?_) rfl (fun v hv => ?_)
        ⟨b, hb, Or.inl ⟨?_, h.not_holds_after hheld⟩⟩, fun v hv => Or.inl ?_, ?_⟩
      · rw [Shared.loadVersion_storeVersion, if_neg hv]
      · rw [holds_cons hheld]
        exact (or_iff_right fun hve => hv hve.symm).symm
      · rw [Shared.loadVersion_storeVersion, if_pos rfl, hflip]
      · exact (holds_cons hheld v).mpr (Or.inr hv)
      · have := h.nodup t
        rw [hheld, List.map_cons, List.nodup_cons] at this
        exact this.2
  | store i e hpc he =>
      have hheld := held_store hpc
      exact ⟨h.word_of_same (Nat.le_refl _) (fun v => Shared.loadVersion_storeStorage ..) hheld,
        fun v hv => Or.inl (by rwa [Thread.Holds, hheld] at hv), hheld ▸ h.nodup t⟩
  | bump hpc hc =>
      have hheld := held_bump s.shared.clock hpc
      exact ⟨h.word_of_same (Nat.le_add_right _ _) (fun _ => rfl) hheld,
        fun v hv => Or.inl (by rwa [Thread.Holds, hheld] at hv), hheld ▸ h.nodup t⟩
  | publish i sync e hpc he =>
      have hheld := held_publish hpc he
      refine ⟨h.word_of_change (e := e) (fun v hv => ?_) rfl (fun v hv => ?_)
        ⟨_, h.sync hpc, Or.inl ⟨?_, h.not_holds_after hheld⟩⟩, fun v hv => Or.inl ?_, ?_⟩
      · rw [Shared.loadVersion_storeVersion, if_neg hv]
      · rw [holds_cons hheld]
        exact (or_iff_right fun hve => hv hve.symm).symm
      · rw [Shared.loadVersion_storeVersion, if_pos rfl]
      · exact (holds_cons hheld v).mpr (Or.inr hv)
      · have := h.nodup t
        rw [hheld, List.map_cons, List.nodup_cons] at this
        exact this.2

omit [DecidableEq ι] in
/-- Another thread's step leaves the version of a var this thread holds alone. -/
theorem Locks.loadVersion_of_holds (h : Locks s) (ha : Active cfg s)
    (hm : Effect s.shared t (s.threads t) s.opened sh' th') {u : ι} (hu : u ≠ t) {v : ν}
    (hv : (s.threads u).Holds v) : sh'.loadVersion v = s.shared.loadVersion v := by
  have other : ∀ {e : WriteSetValueType ν (VarStorage α)} {x : Epoch},
      ((s.threads t).Holds e.destVar ∨ ∀ w, ¬ (s.threads w).Holds e.destVar) →
      (s.shared.storeVersion e.destVar x).loadVersion v = s.shared.loadVersion v := by
    intro e x he
    rw [Shared.loadVersion_storeVersion, if_neg]
    rintro rfl
    exact he.elim (fun he => hu (h.unique u t _ hv he)) fun hn => hn u hv
  cases hm with
  | quiet hs hv => exact hs.loadVersion v
  | commitEmpty | bump => rfl
  | lock i e hpc he => exact other (Or.inr (h.not_holds_of_cas ha hpc).2)
  | unlock i last buf e hpc he =>
      obtain ⟨e', he', hi, _⟩ := h.unlockBuf hpc
      exact other (Or.inl ((holds_cons (held_unlock hpc hi he) _).mpr (Or.inl rfl)))
  | store => exact Shared.loadVersion_storeStorage ..
  | publish i sync e hpc he => exact other (Or.inl ((holds_cons (held_publish hpc he) _).mpr (Or.inl rfl)))

/-- A step of a thread keeps what it knows in the commit. -/
theorem Move.commitAt {sh : Shared ι ν α} {th : Thread ι ν α} {opened : ι → Option Nat}
    (h : Move cfg sh t th opened req sh' th') (hc : InCommitAt sh th th.pc) :
    InCommitAt sh' th' th'.pc := by
  cases h with
  | reclaimNothing | waitMore => exact hc
  | goto pc' hin hout =>
      rcases hout with h | ⟨_, rfl⟩ | rfl | ⟨rfl, _⟩
      · revert h
        cases pc' <;> first | exact fun _ => trivial | exact fun h => Bool.noConfusion h
      all_goals trivial
  | lockValid i e hpc he hv => exact hv
  | unlockLoad i last e hpc hi he => exact ⟨e, he, hi, rfl⟩
  | bump => exact Nat.le_refl _
  | publish i sync e hpc =>
      rw [hpc] at hc
      exact hc
  | success e =>
      simp only [Thread.reclaim]
      split
      · split <;> trivial
      · trivial
  | failureReadOnly => unfold afterFailure; split <;> trivial
  | failDone => unfold afterFailure; split <;> trivial
  | _ => trivial

/-- A step of another thread keeps what this one knows in the commit. -/
theorem Locks.commitAt_ne (h : Locks s) (ha : Active cfg s)
    (hm : Move cfg s.shared t (s.threads t) s.opened req sh' th') {u : ι} (hu : u ≠ t) :
    InCommitAt sh' (s.threads u) (s.threads u).pc := by
  have hc := h.commitAt u
  cases hpc : (s.threads u).pc <;> rw [hpc] at hc <;> try exact hc
  case unlockStore i last buf =>
    obtain ⟨e, he, hi, hbuf⟩ := hc
    refine ⟨e, he, hi, (h.loadVersion_of_holds ha hm.effect hu (v := e.destVar) ?_).trans hbuf⟩
    exact (holds_cons (held_unlock hpc hi he) _).mpr (Or.inl rfl)
  case publish i e => exact hc.trans hm.clock_le

/-- **A step keeps the version locks right.** -/
theorem Locks.step (h : Locks s) (ha : Active cfg s)
    (hm : Move cfg s.shared t (s.threads t) s.opened req sh' th') :
    Locks (s.after t sh' th') := by
  obtain ⟨hword, hholds, hnodup⟩ := h.views_step ha hm.effect
  exact {
    word := hword
    unique := h.unique_after hholds
    nodup := Sys.forall_after (P := fun _ th => (th.held.map (·.destVar)).Nodup) hnodup
      fun u _ => h.nodup u
    commitAt := Sys.forall_after (P := fun _ th => InCommitAt sh' th th.pc)
      (hm.commitAt (h.commitAt t)) fun u hu => h.commitAt_ne ha hm hu }

end Step

omit [DecidableEq ι] [DecidableEq ν] in
theorem locks_init (cfg : Config ι ν α) : Locks (.init cfg) where
  word _ := ⟨0, Nat.le_refl _, Or.inl ⟨rfl, fun _ ⟨_, he, _⟩ => List.not_mem_nil he⟩⟩
  unique _ _ _ := fun ⟨_, he, _⟩ => absurd he List.not_mem_nil
  nodup _ := List.nodup_nil
  commitAt _ := trivial

/-- **In every state reached the version locks are right.** -/
theorem locks_reach {cfg : Config ι ν α} {ok : Request ν α → Prop} {s : Sys ι ν α}
    (h : Sys.Reach cfg ok s) : Locks s :=
  h.induct (locks_init cfg) fun hr ih _ hm => ih.step (active_reach hr) hm

end LockfreeStm
