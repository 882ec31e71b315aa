import Mathlib.Data.List.Induction
import Mathlib.Data.List.Perm.Basic

/-! Folds over consecutive numbers. -/

namespace FgMpi.Machine.Folds

variable {α : Type*} (op : α → α → α) {x y : Nat → α} {a d m n : Nat}

/-- Of `n + 1` values from the number `a` on. -/
def fold (x : Nat → α) (a : Nat) : Nat → α
  | 0 => x a
  | n + 1 => op (fold x a n) (x (a + n + 1))

theorem fold_congr (h : ∀ i, a ≤ i → i ≤ a + n → x i = y i) : fold op x a n = fold op y a n := by
  induction n with
  | zero => exact h a (Nat.le_refl _) (Nat.le_refl _)
  | succ n ih =>
    rw [fold, fold, ih fun i hlow hhigh => h i hlow (by omega), h (a + n + 1) (by omega) (by omega)]

theorem fold_shift : fold op (fun i => x (i + d)) a n = fold op x (a + d) n := by
  induction n with
  | zero => rfl
  | succ n ih =>
    rw [fold, fold, ih]
    congr 2
    omega

section Associative
variable [Std.Associative op]

theorem fold_append : fold op x a (m + n + 1) = op (fold op x a m) (fold op x (a + m + 1) n) := by
  induction n with
  | zero => rfl
  | succ n ih =>
    change op (fold op x a (m + n + 1)) _ = op _ (op _ _)
    have hend : a + (m + (n + 1)) + 1 = a + m + 1 + n + 1 := by omega
    rw [ih, hend]
    exact Std.Associative.assoc _ _ _

theorem fold_split {b c : Nat} (hb : a < b) (hc : b < c) :
    fold op x a (c - a - 1) = op (fold op x a (b - a - 1)) (fold op x b (c - b - 1)) := by
  have hsum : c - a - 1 = b - a - 1 + (c - b - 1) + 1 := by omega
  have hstart : a + (b - a - 1) + 1 = b := by omega
  rw [hsum, fold_append, hstart]

theorem fold_blocks (edge : Nat → Nat) (hedge : ∀ s, a ≤ s → s ≤ a + n → edge s < edge (s + 1))
    (hy : ∀ s, a ≤ s → s ≤ a + n → y s = fold op x (edge s) (edge (s + 1) - edge s - 1)) :
    fold op y a n = fold op x (edge a) (edge (a + n + 1) - edge a - 1) ∧ edge a < edge (a + n + 1) := by
  induction n with
  | zero => exact ⟨hy a (Nat.le_refl _) (Nat.le_refl _), hedge a (Nat.le_refl _) (Nat.le_refl _)⟩
  | succ n ih =>
    obtain ⟨hfold, hlt⟩ := ih (fun s hlow hhigh => hedge s hlow (by omega))
      (fun s hlow hhigh => hy s hlow (by omega))
    have hlast := hedge (a + n + 1) (by omega) (by omega)
    refine ⟨?_, by rw [← Nat.add_assoc]; exact Nat.lt_trans hlt hlast⟩
    rw [fold, hfold, hy (a + n + 1) (by omega) (by omega), ← fold_split op hlt hlast]
    rfl

variable [Std.Commutative op]

theorem fold_rotate {size root : Nat} (hroot : root < size) :
    fold op (fun r => x ((r + root) % size)) 0 (size - 1) = fold op x 0 (size - 1) := by
  rcases Nat.eq_zero_or_pos root with rfl | hpos
  · refine fold_congr op fun i _ hi => ?_
    rw [Nat.add_zero, Nat.mod_eq_of_lt (by omega)]
  · have hupper : fold op (fun r => x ((r + root) % size)) 0 (size - root - 1) =
        fold op x root (size - root - 1) := by
      have hstart : root = 0 + root := (Nat.zero_add _).symm
      rw [hstart, ← fold_shift, ← hstart]
      refine fold_congr op fun i _ hi => ?_
      rw [Nat.mod_eq_of_lt (by omega)]
    have hlower : fold op (fun r => x ((r + root) % size)) (size - root) (root - 1) =
        fold op x 0 (root - 1) := by
      have hstart : size - root = 0 + (size - root) := (Nat.zero_add _).symm
      rw [hstart, ← fold_shift]
      refine fold_congr op fun i _ hi => ?_
      have hsum : i + (size - root) + root = i + size := by omega
      rw [hsum, Nat.add_mod_right, Nat.mod_eq_of_lt (by omega)]
    have hrot := fold_split op (x := fun r => x ((r + root) % size)) (a := 0) (b := size - root)
      (c := size) (by omega) (by omega)
    have hend : size - (size - root) - 1 = root - 1 := by omega
    rw [Nat.sub_zero, Nat.sub_zero, hupper, hend, hlower] at hrot
    have hback := fold_split op (x := x) hpos hroot
    rw [Nat.sub_zero, Nat.sub_zero] at hback
    rw [hrot, hback]
    exact Std.Commutative.comm _ _

end Associative

section Total
variable {κ : Type*}

def total (l : List α) : Option α := (l.map some).foldl (Option.merge op) none

theorem total_snoc (l : List α) (a : α) : total op (l ++ [a]) = Option.merge op (total op l) (some a) := by
  rw [total, List.map_append, List.foldl_append]
  rfl

theorem total_range (x : Nat → α) (n : Nat) :
    total op ((List.range (n + 1)).map x) = some (fold op x 0 n) := by
  induction n with
  | zero => rfl
  | succ n ih =>
    rw [List.range_succ, List.map_append, List.map_singleton, total_snoc, ih, fold, Nat.zero_add]
    rfl

variable [Std.Associative op]

theorem total_append (l l' : List α) : total op (l ++ l') = Option.merge op (total op l) (total op l') := by
  have hfrom : (l'.map some).foldl (Option.merge op) (Option.merge op (total op l) none) =
      Option.merge op (total op l) (total op l') := List.foldl_assoc
  rw [Option.merge_none_right] at hfrom
  rw [total, List.map_append, List.foldl_append]
  exact hfrom

theorem total_flatMap {l : List κ} {part : κ → List α} {y : κ → α}
    (hy : ∀ k ∈ l, total op (part k) = some (y k)) : total op (l.flatMap part) = total op (l.map y) := by
  induction l with
  | nil => rfl
  | cons k l ih =>
    rw [List.flatMap_cons, List.map_cons, ← List.singleton_append (l := l.map y), total_append, total_append,
      hy k List.mem_cons_self, ih fun k hk => hy k (List.mem_cons_of_mem _ hk)]
    rfl

omit [Std.Associative op] in
theorem total_eq_none {l : List α} : total op l = none ↔ l = [] := by
  induction l using List.reverseRecOn with
  | nil => exact ⟨fun _ => rfl, fun _ => rfl⟩
  | append_singleton l a _ =>
    rw [total_snoc, Option.merge_eq_none_iff]
    simp

theorem total_perm [Std.Commutative op] {l l' : List α} (h : l.Perm l') : total op l = total op l' :=
  (h.map some).foldl_op_eq

end Total

end FgMpi.Machine.Folds
