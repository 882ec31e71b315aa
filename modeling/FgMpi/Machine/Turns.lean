import Mathlib.Tactic.Common

/-! A loop is its body: a turn goes round again with a new state or leaves with a result. -/

namespace FgMpi.Machine.Turns

variable {α β : Type}

inductive Turn (α β : Type)
  | again (a : α)
  | leave (b : β)

def Turn.Ends (t : Turn α β) (P : α → Prop) (Q : β → Prop) : Prop :=
  match t with
  | .again a => P a
  | .leave b => Q b

variable {P : α → Prop} {Q : β → Prop}

theorem Turn.Ends.mono {t : Turn α β} {P' : α → Prop} {Q' : β → Prop} (h : t.Ends P Q)
    (hP : ∀ a, P a → P' a) (hQ : ∀ b, Q b → Q' b) : t.Ends P' Q' := by
  cases t with
  | again a => exact hP a h
  | leave b => exact hQ b h

def rounds (turn : α → Turn α β) : Nat → α → Option β
  | 0, _ => none
  | n + 1, a =>
    match turn a with
    | .again a' => rounds turn n a'
    | .leave b => some b

variable {turn : α → Turn α β}

variable {a : α}

theorem rounds_again {a' : α} (h : turn a = .again a') (n : Nat) :
    rounds turn (n + 1) a = rounds turn n a' := by
  rw [rounds, h]

theorem rounds_leave {b : β} (h : turn a = .leave b) (n : Nat) : rounds turn (n + 1) a = some b := by
  rw [rounds, h]

inductive Reached (turn : α → Turn α β) (a : α) : α → Prop
  | start : Reached turn a a
  | next {m m' : α} : Reached turn a m → turn m = .again m' → Reached turn a m'

theorem Reached.head {a' m : α} (h : turn a = .again a') (hm : Reached turn a' m) : Reached turn a m := by
  induction hm with
  | start => exact Reached.start.next h
  | next _ hturn ih => exact ih.next hturn

theorem Reached.split {m : α} (h : Reached turn a m) :
    m = a ∨ ∃ a', turn a = .again a' ∧ Reached turn a' m := by
  induction h with
  | start => exact Or.inl rfl
  | next hm hturn ih =>
    refine Or.inr ?_
    rcases ih with rfl | ⟨a', ha', hrest⟩
    · exact ⟨_, hturn, .start⟩
    · exact ⟨a', ha', hrest.next hturn⟩

theorem reached_again {a' : α} (h : turn a = .again a') :
    (∀ m, Reached turn a m → P m) ↔ P a ∧ ∀ m, Reached turn a' m → P m := by
  constructor
  · intro hP
    exact ⟨hP a .start, fun m hm => hP m (hm.head h)⟩
  · intro hP m hm
    rcases hm.split with rfl | ⟨a'', ha'', hrest⟩
    · exact hP.1
    · rw [h] at ha''
      cases ha''
      exact hP.2 m hrest

theorem reached_leave {b : β} (h : turn a = .leave b) : (∀ m, Reached turn a m → P m) ↔ P a := by
  constructor
  · intro hP
    exact hP a .start
  · intro hP m hm
    rcases hm.split with rfl | ⟨a', ha', _⟩
    · exact hP
    · rw [h] at ha'
      cases ha'

theorem rounds_first {I : Nat → α → Prop} {C : α → Prop}
    (hturn : ∀ v a, I v a → C a → (turn a).Ends (fun a' => ∃ v' < v, I v' a') Q)
    {v : Nat} (ha : I v a) {n : Nat} (hn : v < n) :
    ((∀ m, Reached turn a m → C m) ∧ ∃ b, rounds turn n a = some b ∧ Q b) ∨
      ∃ m v' k, Reached turn a m ∧ I v' m ∧ ¬C m ∧ (∀ m', Reached turn a m' → C m' ∨ Reached turn m m') ∧
        rounds turn n a = rounds turn (k + 1) m := by
  induction n generalizing v a with
  | zero => omega
  | succ n ih =>
    by_cases hC : C a
    · have hone := hturn v a ha hC
      cases ht : turn a with
      | leave b =>
        rw [ht] at hone
        exact Or.inl ⟨(reached_leave ht).mpr hC, b, rounds_leave ht n, hone⟩
      | again a' =>
        rw [ht] at hone
        obtain ⟨v', hlt, hI⟩ := hone
        rcases ih hI (by omega) with ⟨hall, b, hb, hQ⟩ | ⟨m, v'', k, hm, hIm, hnot, hbefore, heq⟩
        · exact Or.inl ⟨(reached_again ht).mpr ⟨hC, hall⟩, b, by rw [rounds_again ht, hb], hQ⟩
        · exact Or.inr ⟨m, v'', k, hm.head ht, hIm, hnot,
            (reached_again ht).mpr ⟨Or.inl hC, hbefore⟩, by rw [rounds_again ht, heq]⟩
    · exact Or.inr ⟨a, v, n, .start, ha, hC, fun _ hm => Or.inr hm, rfl⟩

theorem rounds_keeps {I : α → Prop} (hturn : ∀ a, I a → (turn a).Ends I Q)
    (ha : I a) {n : Nat} {b : β} (h : rounds turn n a = some b) : Q b := by
  induction n generalizing a with
  | zero => cases h
  | succ n ih =>
    have hone := hturn a ha
    cases ht : turn a with
    | again a' =>
      rw [ht] at hone
      rw [rounds_again ht] at h
      exact ih hone h
    | leave b' =>
      rw [ht] at hone
      rw [rounds_leave ht, Option.some.injEq] at h
      rw [← h]
      exact hone

end FgMpi.Machine.Turns
