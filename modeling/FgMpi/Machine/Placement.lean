import Mathlib.Data.List.Basic
import Mathlib.Data.List.Count

/-! Every thing is at one place. -/

namespace FgMpi.Machine.Placement
open Function (update update_of_ne update_self)

variable {α π : Type*} [DecidableEq α]

section Lists
variable [DecidableEq π]

def Holds (place : α → π) (p : π) (l : List α) : Prop := ∀ x, l.count x = if place x = p then 1 else 0

variable {place : α → π} {p q : π} {l : List α} {x y : α}

section
variable (h : Holds place p l)
include h

theorem Holds.mem : x ∈ l ↔ place x = p := by
  rw [← List.count_pos_iff, h x]
  split <;> simp [*]

theorem Holds.nodup : l.Nodup := by
  apply List.nodup_iff_count.mpr
  intro x
  rw [h x]
  split <;> omega

theorem Holds.perm {l' : List α} (hperm : l'.Perm l) : Holds place p l' :=
  fun x => (hperm.count_eq x).trans (h x)

theorem Holds.add (hx : place x ≠ p) : Holds (update place x p) p (l ++ [x]) := by
  intro y
  rw [List.count_append, h y, List.count_singleton]
  by_cases hy : y = x
  · rw [hy, update_self, if_neg hx, if_pos rfl]
    simp
  · rw [update_of_ne hy]
    simp [Ne.symm hy]

theorem Holds.erase (hx : place x = p) (hq : q ≠ p) : Holds (update place x q) p (l.erase x) := by
  intro y
  rw [List.count_erase, h y]
  by_cases hy : y = x
  · rw [hy, update_self, if_pos hx, if_neg hq]
    simp
  · rw [update_of_ne hy]
    simp [Ne.symm hy]

theorem Holds.other (hx : place x ≠ p) (hq : q ≠ p) : Holds (update place x q) p l := by
  intro y
  rw [h y]
  by_cases hy : y = x
  · rw [hy, update_self, if_neg hx, if_neg hq]
  · rw [update_of_ne hy]

end

theorem Holds.tail (h : Holds place p (x :: l)) (hq : q ≠ p) : Holds (update place x q) p l := by
  have herase := h.erase (h.mem.mp List.mem_cons_self) hq
  rw [List.erase_cons_head] at herase
  exact herase

end Lists

section Census
variable {place : α → π} {l : List α} {x : α}

theorem countP_update (kind : π → Bool) (hl : l.Nodup) (hx : x ∈ l) (q : π) :
    (l.countP fun y => kind (update place x q y)) + (if kind (place x) then 1 else 0) =
      (l.countP fun y => kind (place y)) + (if kind q then 1 else 0) := by
  induction l with
  | nil => exact nomatch hx
  | cons y l ih =>
    obtain ⟨hy, hl⟩ := List.nodup_cons.mp hl
    rw [List.countP_cons, List.countP_cons]
    rcases List.mem_cons.mp hx with rfl | hmem
    · have hsame : (l.countP fun y => kind (update place x q y)) = l.countP fun y => kind (place y) := by
        apply List.countP_congr
        intro z hz
        have hne : z ≠ x := fun heq => hy (heq ▸ hz)
        rw [update_of_ne hne]
      rw [hsame, update_self]
      omega
    · have hne : y ≠ x := fun heq => hy (heq ▸ hmem)
      have hrest := ih hl hmem
      rw [update_of_ne hne]
      omega

theorem countP_update_of_notMem (kind : π → Bool) (hx : x ∉ l) (q : π) :
    (l.countP fun y => kind (update place x q y)) = l.countP fun y => kind (place y) := by
  apply List.countP_congr
  intro y hy
  have hne : y ≠ x := fun heq => hx (heq ▸ hy)
  rw [update_of_ne hne]

end Census

end FgMpi.Machine.Placement
