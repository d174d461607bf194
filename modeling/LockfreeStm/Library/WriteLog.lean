/-
  File:      LockfreeStm/Library/WriteLog.lean
  Subject:   A log of multi-key writes, newest first, and the latest write of a key in it.

  The records `κ` of the log are arbitrary; `put c v` is what record `c` writes to key `v`, if it
  writes it at all. `latest put cs v` is the newest write of `v`. Restricting the log to a part of
  its records gives the latest write as of some time or version; `latest_filter` says when that
  changes nothing, `latest_max` that the latest write is the greatest one in any order the log is
  sorted by.
-/
import Mathlib.Data.List.Basic

namespace WriteLog

variable {κ ν β : Type} (put : κ → ν → Option β)

/-- The record writes the key. -/
def Writes (c : κ) (v : ν) : Prop := (put c v).isSome = true

/-- The newest write of a key: the record and what it wrote. -/
def latest : List κ → ν → Option (κ × β)
  | [], _ => none
  | c :: cs, v => match put c v with
    | some b => some (c, b)
    | none => latest cs v

variable {put} {c : κ} {cs : List κ} {v : ν} {b : β}

@[simp] theorem latest_nil : latest put [] v = none := rfl

theorem latest_cons_some (h : put c v = some b) : latest put (c :: cs) v = some (c, b) := by
  simp [latest, h]

theorem latest_cons_none (h : put c v = none) : latest put (c :: cs) v = latest put cs v := by
  simp [latest, h]

theorem not_writes : ¬ Writes put c v ↔ put c v = none := by
  rw [Writes, Option.not_isSome_iff_eq_none]

theorem writes_of_put (h : put c v = some b) : Writes put c v := by
  rw [Writes, h]
  rfl

/-- The latest write is one of the log's. -/
theorem mem_of_latest (h : latest put cs v = some (c, b)) : c ∈ cs ∧ put c v = some b := by
  induction cs with
  | nil => cases h
  | cons d ds ih =>
      cases hd : put d v with
      | none =>
          rw [latest_cons_none hd] at h
          exact ⟨List.mem_cons_of_mem _ (ih h).1, (ih h).2⟩
      | some b' =>
          rw [latest_cons_some hd] at h
          cases h
          exact ⟨List.mem_cons_self, hd⟩

/-- There is no latest write of a key nobody writes. -/
theorem latest_eq_none : latest put cs v = none ↔ ∀ c ∈ cs, ¬ Writes put c v := by
  induction cs with
  | nil => simp
  | cons d ds ih =>
      cases hd : put d v with
      | none => rw [latest_cons_none hd, ih, List.forall_mem_cons, not_writes, and_iff_right hd]
      | some b =>
          rw [latest_cons_some hd, List.forall_mem_cons, not_writes, hd]
          simp

/-- A part of the log that has the latest write in it has the same latest write. -/
theorem latest_filter {p : κ → Bool} (h : ∀ c b, latest put cs v = some (c, b) → p c = true) :
    latest put (cs.filter p) v = latest put cs v := by
  induction cs with
  | nil => rfl
  | cons d ds ih =>
      cases hd : put d v with
      | none =>
          rw [latest_cons_none hd] at h ⊢
          rw [List.filter_cons]
          split
          · rw [latest_cons_none hd, ih h]
          · exact ih h
      | some b =>
          rw [latest_cons_some hd] at h ⊢
          rw [List.filter_cons_of_pos (h d b rfl), latest_cons_some hd]

/-- A record that the part leaves out, or that does not write the key, changes nothing. -/
theorem latest_filter_cons {p : κ → Bool} (h : p c = true → put c v = none) :
    latest put ((c :: cs).filter p) v = latest put (cs.filter p) v := by
  rw [List.filter_cons]
  split
  · exact latest_cons_none (h ‹_›)
  · rfl

/-- **The latest write is the greatest of the log's writes of the key**, in any relation that holds
    between an older and a newer write of it. -/
theorem latest_max {r : κ → κ → Prop}
    (hr : cs.Pairwise fun newer older => Writes put newer v → Writes put older v → r older newer)
    (h : latest put cs v = some (c, b)) {d : κ} (hd : d ∈ cs) (hw : Writes put d v) :
    d = c ∨ r d c := by
  induction cs with
  | nil => cases h
  | cons e es ih =>
      rw [List.pairwise_cons] at hr
      cases he : put e v with
      | none =>
          rw [latest_cons_none he] at h
          rcases List.mem_cons.mp hd with rfl | hd
          · exact absurd hw (not_writes.mpr he)
          · exact ih hr.2 h hd
      | some b' =>
          rw [latest_cons_some he] at h
          cases h
          rcases List.mem_cons.mp hd with rfl | hd
          · exact Or.inl rfl
          · exact Or.inr (hr.1 d hd (writes_of_put he) hw)

/-- **Two logs with the same writers of a key have the same latest write of it**, if both are sorted
    by an asymmetric relation. -/
theorem latest_congr {r : κ → κ → Prop} (hasymm : ∀ a b, r a b → ¬ r b a) {ds : List κ}
    (hc : cs.Pairwise fun newer older => Writes put newer v → Writes put older v → r older newer)
    (hd : ds.Pairwise fun newer older => Writes put newer v → Writes put older v → r older newer)
    (h : ∀ c, Writes put c v → (c ∈ cs ↔ c ∈ ds)) : latest put cs v = latest put ds v := by
  cases hl : latest put cs v with
  | none =>
      refine (latest_eq_none.mpr fun c hcd hw => ?_).symm
      exact latest_eq_none.mp hl c ((h c hw).mpr hcd) hw
  | some cb =>
      obtain ⟨c, b⟩ := cb
      obtain ⟨hmem, hput⟩ := mem_of_latest hl
      have hw := writes_of_put hput
      cases hl' : latest put ds v with
      | none => exact absurd hw (latest_eq_none.mp hl' c ((h c hw).mp hmem))
      | some db =>
          obtain ⟨d, b'⟩ := db
          obtain ⟨hmem', hput'⟩ := mem_of_latest hl'
          have hw' := writes_of_put hput'
          have hcd : c = d := by
            rcases latest_max hd hl' ((h c hw).mp hmem) hw with e | hr
            · exact e
            · rcases latest_max hc hl ((h d hw').mpr hmem') hw' with e | hr'
              · exact e.symm
              · exact absurd hr' (hasymm _ _ hr)
          subst hcd
          rw [hput] at hput'
          rw [Option.some.inj hput']

end WriteLog
