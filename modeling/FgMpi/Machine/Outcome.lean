import FgMpi.Machine.Checked
import FgMpi.Machine.Runs

/-! Postconditions of fallible computations. -/

namespace FgMpi.Machine.Outcome
open Machine.Checked Machine.Runs

variable {ε α β : Type} {allowed : ε → Prop}

def Yields (allowed : ε → Prop) (x : Except ε α) (P : α → Prop) : Prop :=
  match x with
  | .ok a => P a
  | .error e => allowed e

variable {x : Except ε α} {P Q : α → Prop}

theorem Yields.of_ok (h : ∃ a, x = .ok a ∧ P a) : Yields allowed x P := by
  obtain ⟨a, rfl, ha⟩ := h
  exact ha

theorem Yields.mono (h : Yields allowed x P) (hPQ : ∀ a, P a → Q a) : Yields allowed x Q := by
  cases x with
  | error e => exact h
  | ok a => exact hPQ a h

theorem Yields.bind {x : Except ε β} {k : β → Except ε α} {P : β → Prop}
    (hx : Yields allowed x P) (hk : ∀ b, P b → Yields allowed (k b) Q) :
    Yields allowed (x >>= k) Q := by
  cases x with
  | error e => exact hx
  | ok b => exact hk b hx

theorem Yields.bind_ok {x : Except ε β} {b : β} {k : β → Except ε α}
    (hx : x = .ok b) (hk : Yields allowed (k b) Q) : Yields allowed (x >>= k) Q := by
  subst hx
  exact hk

theorem Yields.keep (h : Yields allowed x P) : Yields allowed x (fun a => P a ∧ x = .ok a) := by
  cases x with
  | error e => exact h
  | ok a => exact ⟨h, rfl⟩

theorem Yields.require {c : Prop} [Decidable c] {e : ε} {k : Unit → Except ε α}
    (he : allowed e) (hk : c → Yields allowed (k ()) Q) :
    Yields allowed (Checked.require c e >>= k) Q := by
  rw [require_bind]
  split
  · rename_i hc
    exact hk hc
  · exact he

theorem Yields.fault (h : Yields allowed x P) {e : ε} (hx : x = .error e) : allowed e := by
  subst hx
  exact h

theorem Yields.result (h : Yields allowed x P) {a : α} (hx : x = .ok a) : P a := by
  subst hx
  exact h

theorem Yields.run {σ ο : Type} {step : σ → ο → Except ε σ} {I : σ → Prop} {P : σ → ο → Prop}
    (hstep : ∀ s o, I s → P s o → Yields allowed (step s o) I) {s : σ} {os : List ο} (hs : I s)
    (hP : Along step P s os) : Yields allowed (Runs.run step s os) I := by
  induction os generalizing s with
  | nil => exact hs
  | cons o os ih =>
    have hone := hstep s o hs hP.1
    cases ho : step s o with
    | error e =>
      rw [run_cons_error ho]
      exact hone.fault ho
    | ok s' =>
      rw [run_cons_ok ho]
      exact ih (hone.result ho) (hP.2 s' ho)

end FgMpi.Machine.Outcome
