import Mathlib.Tactic.Common

/-! Mutual exclusion by a flag. -/

namespace FgMpi.Machine.Guard

variable {α : Type*}

structure Guarded (flag : Bool) (own : α → Prop) : Prop where
  set : ∀ a, own a → flag = true
  unique : ∀ a b, own a → own b → a = b
  accounted : flag = true → ∃ a, own a

variable {flag : Bool} {own own' : α → Prop}

theorem Guarded.congr (h : Guarded flag own) (hiff : ∀ a, own' a ↔ own a) : Guarded flag own' := by
  have heq : own' = own := funext fun a => propext (hiff a)
  rw [heq]
  exact h

theorem Guarded.free (hnone : ∀ a, ¬ own a) : Guarded false own where
  set a ha := absurd ha (hnone a)
  unique a _ ha := absurd ha (hnone a)
  accounted hf := by cases hf

theorem Guarded.acquire (h : Guarded false own) {a : α} (hiff : ∀ b, own' b ↔ own b ∨ b = a) :
    Guarded true own' := by
  have hself : ∀ b, own' b → b = a := by
    intro b hb
    rcases (hiff b).mp hb with hown | heq
    · exact Bool.noConfusion (h.set b hown)
    · exact heq
  refine ⟨fun _ _ => rfl, ?_, fun _ => ⟨a, (hiff a).mpr (Or.inr rfl)⟩⟩
  intro b c hb hc
  rw [hself b hb, hself c hc]

theorem Guarded.release (h : Guarded flag own) {a : α} (ha : own a)
    (hiff : ∀ b, own' b ↔ own b ∧ b ≠ a) : Guarded false own' := by
  refine Guarded.free ?_
  intro b hb
  obtain ⟨hown, hne⟩ := (hiff b).mp hb
  exact hne (h.unique b a hown ha)

end FgMpi.Machine.Guard
