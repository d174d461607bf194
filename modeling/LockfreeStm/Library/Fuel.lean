/-
  File:      LockfreeStm/Library/Fuel.lean
  Subject:   PROGRAMS WITH FUEL, and the program that they approximate.

  A loop is written as a family of programs that stop when the fuel is used up. A family approximates one
  program if more fuel changes nothing in the first operations, as many as there was fuel: then the next
  operation behind `n` answers is the one of every member with more fuel than that.

  * `Agree` -- two programs perform the same first operations, whatever these return.
  * `Converges` -- a family each of whose members agrees with the later ones, as far as its fuel goes.
  * `Converges.loop` -- a loop converges, by what one turn keeps.
-/
import LockfreeStm.Library.Optimistic

namespace LockfreeStm

namespace Optimistic

variable {Var : Type} {Content : Var → Type} {Obj ε α β : Type}

/-! ## 1. Programs that agree -/

/-- The programs perform the same `n` first operations, as long as these return the same, or end within them
    in the same way. -/
inductive Program.Agree : Nat → Program Content Obj ε α → Program Content Obj ε α → Prop where
  | zero (p q : Program Content Obj ε α) : Agree 0 p q
  | ret (n : Nat) (a : α) : Agree n (.ret a) (.ret a)
  | halt (n : Nat) (e : ε) : Agree n (.halt e) (.halt e)
  | get {n : Nat} (v : Var) {next next' : Content v → Program Content Obj ε α}
      (h : ∀ x, Agree n (next x) (next' x)) : Agree (n + 1) (.get v next) (.get v next')
  | untrackedGet {n : Nat} (v : Var) {next next' : Content v → Program Content Obj ε α}
      (h : ∀ x, Agree n (next x) (next' x)) : Agree (n + 1) (.untrackedGet v next) (.untrackedGet v next')
  | set {n : Nat} (v : Var) (x : Content v) {next next' : Program Content Obj ε α} (h : Agree n next next') :
      Agree (n + 1) (.set v x next) (.set v x next')
  | unsafeSet {n : Nat} (v : Var) (x : Content v) {next next' : Program Content Obj ε α}
      (h : Agree n next next') : Agree (n + 1) (.unsafeSet v x next) (.unsafeSet v x next')
  | retire {n : Nat} (o : Obj) {next next' : Program Content Obj ε α} (h : Agree n next next') :
      Agree (n + 1) (.retire o next) (.retire o next')

namespace Program.Agree

variable {n : Nat} {p q : Program Content Obj ε α} {f g : α → Program Content Obj ε β}

theorem refl (n : Nat) (p : Program Content Obj ε α) : Agree n p p := by
  induction p generalizing n with
  | ret a => exact .ret n a
  | halt e => exact .halt n e
  | get v next ih =>
    cases n with
    | zero => exact .zero ..
    | succ n => exact .get v fun x => ih x n
  | untrackedGet v next ih =>
    cases n with
    | zero => exact .zero ..
    | succ n => exact .untrackedGet v fun x => ih x n
  | set v x next ih =>
    cases n with
    | zero => exact .zero ..
    | succ n => exact .set v x (ih n)
  | unsafeSet v x next ih =>
    cases n with
    | zero => exact .zero ..
    | succ n => exact .unsafeSet v x (ih n)
  | retire o next ih =>
    cases n with
    | zero => exact .zero ..
    | succ n => exact .retire o (ih n)

/-- Fewer operations. -/
theorem pred (h : Agree (n + 1) p q) : Agree n p q := by
  induction n generalizing p q with
  | zero => exact .zero p q
  | succ n ih =>
    cases h with
    | ret _ a => exact .ret _ a
    | halt _ e => exact .halt _ e
    | get v h => exact .get v fun x => ih (h x)
    | untrackedGet v h => exact .untrackedGet v fun x => ih (h x)
    | set v x h => exact .set v x (ih h)
    | unsafeSet v x h => exact .unsafeSet v x (ih h)
    | retire o h => exact .retire o (ih h)

/-- **Programs made of agreeing parts agree.** -/
theorem bind (h : Agree n p q) (hf : ∀ a, Agree n (f a) (g a)) : Agree n (p >>= f) (q >>= g) := by
  show Agree n (p.bind f) (q.bind g)
  induction h with
  | zero => exact .zero ..
  | ret n a => exact hf a
  | halt n e => exact .halt n e
  | get v h ih => exact .get v fun x => ih x fun a => (hf a).pred
  | untrackedGet v h ih => exact .untrackedGet v fun x => ih x fun a => (hf a).pred
  | set v x h ih => exact .set v x (ih fun a => (hf a).pred)
  | unsafeSet v x h ih => exact .unsafeSet v x (ih fun a => (hf a).pred)
  | retire o h ih => exact .retire o (ih fun a => (hf a).pred)

/-- What comes first is the same. -/
theorem behind (p : Program Content Obj ε α) (hf : ∀ a, Agree n (f a) (g a)) : Agree n (p >>= f) (p >>= g) :=
  (refl n p).bind hf

theorem behind_get (v : Var) {f g : Content v → Program Content Obj ε β} (hf : ∀ x, Agree n (f x) (g x)) :
    Agree (n + 1) (Program.get v .ret >>= f) (Program.get v .ret >>= g) := .get v hf

theorem behind_untrackedGet (v : Var) {f g : Content v → Program Content Obj ε β}
    (hf : ∀ x, Agree n (f x) (g x)) :
    Agree (n + 1) (Program.untrackedGet v .ret >>= f) (Program.untrackedGet v .ret >>= g) := .untrackedGet v hf

/-- Whichever branch is taken. -/
theorem ite {c : Prop} [Decidable c] {p' q' : Program Content Obj ε α} (h : Agree n p q) (h' : Agree n p' q') :
    Agree n (if c then p else p') (if c then q else q') := by
  split
  · exact h
  · exact h'

theorem eq_ret {a : α} (h : Agree (n + 1) (.ret a) p) : p = .ret a := by
  cases h
  rfl

end Program.Agree

/-! ## 2. Families -/

/-- More fuel changes nothing in the first operations, as many as there was fuel. -/
def Converges (p : Nat → Program Content Obj ε α) : Prop :=
  ∀ fuel fuel', fuel ≤ fuel' → (p fuel).Agree fuel (p fuel')

/-- **A loop converges** if one turn keeps what is known of the turns behind it; `i` is what it runs with. -/
theorem Converges.loop {ι : Type} (p : ι → Nat → Program Content Obj ε α)
    (turn : ∀ fuel fuel', (∀ i, (p i fuel).Agree fuel (p i fuel')) →
      ∀ i, (p i (fuel + 1)).Agree (fuel + 1) (p i (fuel' + 1))) (i : ι) : Converges (p i) := by
  intro fuel
  induction fuel generalizing i with
  | zero => exact fun _ _ => .zero ..
  | succ fuel ih =>
    intro fuel' hf
    obtain ⟨fuel', rfl⟩ := Nat.exists_eq_add_of_le' (Nat.one_le_of_lt hf)
    exact turn fuel fuel' (fun j => ih j fuel' (Nat.le_of_succ_le_succ hf)) i

end Optimistic

end LockfreeStm
