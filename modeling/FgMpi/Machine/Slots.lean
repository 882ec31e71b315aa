import Mathlib.Algebra.Order.Ring.Int

/-! Objects are allocated one after the other and are referred to by their position. -/

namespace FgMpi.Machine.Slots

variable {α : Type*}

variable {l : List α} {a : α} {i : Nat}

theorem getElem?_concat {b : α} : (l ++ [b])[i]? = some a ↔ l[i]? = some a ∨ i = l.length ∧ a = b := by
  rcases Nat.lt_trichotomy i l.length with hlt | heq | hgt
  · rw [List.getElem?_append_left hlt]
    constructor
    · exact Or.inl
    · rintro (h | h)
      · exact h
      · omega
  · subst heq
    simp [eq_comm]
  · rw [List.getElem?_eq_none (by simp; omega), List.getElem?_eq_none (by omega)]
    constructor
    · intro h
      cases h
    · rintro (h | h)
      · cases h
      · omega

theorem getElem?_concat_of_some {b : α} (h : l[i]? = some a) : (l ++ [b])[i]? = some a :=
  getElem?_concat.mpr (Or.inl h)

theorem getElem?_update {b c : α} {j : Nat} (h : l[i]? = some c) :
    (l.set i b)[j]? = some a ↔ j = i ∧ a = b ∨ j ≠ i ∧ l[j]? = some a := by
  obtain ⟨hlt, -⟩ := List.getElem?_eq_some_iff.mp h
  by_cases hj : j = i
  · subst hj
    rw [List.getElem?_set_self hlt]
    simp [eq_comm]
  · rw [List.getElem?_set_ne (Ne.symm hj)]
    simp [hj]

theorem set_self (h : l[i]? = some a) : l.set i a = l := by
  refine List.ext_getElem? ?_
  intro j
  by_cases hj : j = i
  · subst hj
    rw [List.getElem?_set_self (List.getElem?_eq_some_iff.mp h).1, h]
  · rw [List.getElem?_set_ne (Ne.symm hj)]

theorem lt_of_slot (h : l[i]? = some a) : i < l.length :=
  (List.getElem?_eq_some_iff.mp h).1

theorem getElem?_table {n : Nat} {f : Nat → α} : ((List.range n).map f)[i]? = some a ↔ i < n ∧ a = f i := by
  rw [List.getElem?_map]
  by_cases hi : i < n
  · simp [hi, eq_comm]
  · simp [hi]

def tally (f : α → Nat) (l : List α) : Nat := (l.map f).sum

theorem tally_cons (f : α → Nat) (b : α) (l : List α) : tally f (b :: l) = f b + tally f l := by
  simp [tally]

theorem tally_ite (p : α → Prop) [DecidablePred p] (l : List α) :
    tally (fun a => if p a then 1 else 0) l = l.countP (p ·) := by
  induction l with
  | nil => rfl
  | cons a l ih =>
    rw [tally_cons, ih, List.countP_cons]
    by_cases ha : p a
    · simp [ha, Nat.add_comm]
    · simp [ha]

theorem tally_concat (f : α → Nat) (l : List α) (b : α) : tally f (l ++ [b]) = tally f l + f b := by
  simp [tally]

theorem tally_set (f : α → Nat) (b : α) (h : l[i]? = some a) :
    tally f (l.set i b) + f a = tally f l + f b := by
  induction l generalizing i with
  | nil => simp at h
  | cons x l ih =>
    cases i with
    | zero =>
      have hx : x = a := by simpa using h
      simp only [List.set_cons_zero, tally, List.map_cons, List.sum_cons, hx]
      omega
    | succ i =>
      have hrest := ih (i := i) (by simpa using h)
      simp only [List.set_cons_succ, tally, List.map_cons, List.sum_cons] at hrest ⊢
      omega

theorem tally_set_same (f : α → Nat) {b : α} (h : l[i]? = some a)
    (hf : f b = f a) : tally f (l.set i b) = tally f l := by
  have hset := tally_set f b h
  omega

theorem le_tally (f : α → Nat) (h : l[i]? = some a) : f a ≤ tally f l := by
  induction l generalizing i with
  | nil => simp at h
  | cons x l ih =>
    cases i with
    | zero =>
      have hx : x = a := by simpa using h
      simp only [tally, List.map_cons, List.sum_cons, hx]
      omega
    | succ i =>
      have hrest := ih (i := i) (by simpa using h)
      simp only [tally, List.map_cons, List.sum_cons] at hrest ⊢
      omega

theorem exists_of_tally_pos {f : α → Nat} (h : 0 < tally f l) :
    ∃ (i : Nat) (a : α), l[i]? = some a ∧ 0 < f a := by
  induction l with
  | nil => simp [tally] at h
  | cons x l ih =>
    by_cases hx : 0 < f x
    · exact ⟨0, x, rfl, hx⟩
    · simp only [tally, List.map_cons, List.sum_cons] at h
      obtain ⟨i, a, ha, hpos⟩ := ih (by simp only [tally]; omega)
      exact ⟨i + 1, a, by simpa using ha, hpos⟩

theorem tally_eq_zero {f : α → Nat} (h : ∀ (i : Nat) (a : α), l[i]? = some a → f a = 0) : tally f l = 0 := by
  rcases Nat.eq_zero_or_pos (tally f l) with hz | hpos
  · exact hz
  · obtain ⟨i, a, ha, hf⟩ := exists_of_tally_pos hpos
    rw [h i a ha] at hf
    omega

theorem tally_table (f : α → Nat) (g : Nat → α) {n x : Nat}
    (hf : ∀ i, i < n → f (g i) = if i = x then 1 else 0) :
    tally f ((List.range n).map g) = if x < n then 1 else 0 := by
  induction n with
  | zero => simp [tally]
  | succ n ih =>
    have hrest := ih (fun i hi => hf i (by omega))
    rw [List.range_succ, List.map_append, List.map_singleton, tally_concat, hrest,
      hf n (by omega)]
    split <;> split <;> split <;> omega

end FgMpi.Machine.Slots
