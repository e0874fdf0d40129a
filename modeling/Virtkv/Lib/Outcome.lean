import Mathlib.Algebra.Group.Nat.Defs
import Mathlib.Data.List.Basic

/-!
# Outcomes of fallible computations

A program step that can stop with a fault is a value of `Except ε α`. `Yields`
is the weakest-precondition reading of such a value: the result, if there is
one, satisfies a postcondition, and the fault, if there is one, is among the
faults the caller accepts. Taking no accepted fault gives total correctness,
taking all of them gives partial correctness.

## Main definitions

- `Yields x A Q` — `x` returns a value in `Q` or stops with a fault in `A`
- `ensure p e` — stop with the fault `e` unless `p` holds
-/

namespace Outcome

variable {ε : Type*} {α β : Type}

/-- The computation returns a value satisfying `Q`, or stops with a fault in `A`. -/
def Yields (x : Except ε α) (A : ε → Prop) (Q : α → Prop) : Prop :=
  match x with
  | .ok a => Q a
  | .error e => A e

/-- Stop with the fault `e` unless the condition holds. -/
def ensure (p : Prop) [Decidable p] (e : ε) : Except ε Unit :=
  if p then .ok () else .error e

@[simp] theorem yields_ok {a : α} {A : ε → Prop} {Q : α → Prop} :
    Yields (.ok a : Except ε α) A Q ↔ Q a := Iff.rfl

@[simp] theorem yields_pure {a : α} {A : ε → Prop} {Q : α → Prop} :
    Yields (pure a : Except ε α) A Q ↔ Q a := Iff.rfl

@[simp] theorem yields_error {e : ε} {A : ε → Prop} {Q : α → Prop} :
    Yields (.error e : Except ε α) A Q ↔ A e := Iff.rfl

@[simp] theorem yields_throw {e : ε} {A : ε → Prop} {Q : α → Prop} :
    Yields (throw e : Except ε α) A Q ↔ A e := Iff.rfl

/-- The sequencing rule. -/
theorem Yields.bind {x : Except ε α} {f : α → Except ε β} {A : ε → Prop}
    {P : α → Prop} {Q : β → Prop} (hx : Yields x A P)
    (hf : ∀ a, P a → Yields (f a) A Q) : Yields (x >>= f) A Q := by
  cases x with
  | ok a => exact hf a hx
  | error e => exact hx

/-- Consequence: accept more faults and weaken the postcondition. -/
theorem Yields.mono {x : Except ε α} {A B : ε → Prop} {P Q : α → Prop}
    (hx : Yields x A P) (hA : ∀ e, A e → B e) (hP : ∀ a, P a → Q a) :
    Yields x B Q := by
  cases x with
  | ok a => exact hP a hx
  | error e => exact hA e hx

theorem Yields.post {x : Except ε α} {A : ε → Prop} {P Q : α → Prop}
    (hx : Yields x A P) (hP : ∀ a, P a → Q a) : Yields x A Q :=
  hx.mono (fun _ h => h) hP

theorem Yields.of_eq_ok {x : Except ε α} {A : ε → Prop} {Q : α → Prop} {a : α}
    (h : Yields x A Q) (hx : x = .ok a) : Q a := by
  subst hx
  exact h

/-- Without accepted faults the computation returns. -/
theorem Yields.exists_ok {x : Except ε α} {Q : α → Prop}
    (h : Yields x (fun _ => False) Q) : ∃ a, x = .ok a ∧ Q a := by
  cases x with
  | ok a => exact ⟨a, rfl, h⟩
  | error e => exact h.elim

@[simp] theorem yields_ensure {p : Prop} [Decidable p] {e : ε} {A : ε → Prop} {Q : Unit → Prop} :
    Yields (ensure p e) A Q ↔ (p → Q ()) ∧ (¬p → A e) := by
  by_cases h : p <;> simp [ensure, h]

@[simp] theorem ensure_eq_ok {p : Prop} [Decidable p] {e : ε} {u : Unit} :
    (ensure p e : Except ε Unit) = .ok u ↔ p := by
  by_cases h : p <;> simp [ensure, h]

theorem ensure_of {p : Prop} [Decidable p] {e : ε} (h : p) :
    (ensure p e : Except ε Unit) = .ok () := by
  simp [h]

/-- A returned value of a sequence comes from a returned value of its first part. -/
theorem bind_eq_ok {x : Except ε α} {f : α → Except ε β} {b : β} :
    x >>= f = .ok b ↔ ∃ a, x = .ok a ∧ f a = .ok b := by
  cases x with
  | ok a => exact ⟨fun h => ⟨a, rfl, h⟩, fun ⟨_, ha, hb⟩ => by cases ha; exact hb⟩
  | error e => exact ⟨nofun, fun ⟨_, ha, _⟩ => nomatch ha⟩

theorem pure_eq_ok {a b : α} : (pure a : Except ε α) = .ok b ↔ a = b := by
  simp [pure, Except.pure]

/-- Sequencing two checks and returning is one value; used to run a returned prefix. -/
@[simp] theorem ok_bind (a : α) (f : α → Except ε β) : ((.ok a : Except ε α) >>= f) = f a := rfl

@[simp] theorem error_bind (e : ε) (f : α → Except ε β) :
    ((.error e : Except ε α) >>= f) = .error e := rfl

end Outcome
