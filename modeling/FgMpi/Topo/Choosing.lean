import FgMpi.Topo.Factor
import Mathlib.Algebra.Order.BigOperators.GroupWithZero.List
import Mathlib.Data.List.GetD
import Mathlib.Tactic.Linarith

/-! `MPIR_ChooseFactors` gives every copy of a factor to one of the chosen entries and sorts them. -/

namespace FgMpi.Topo.Choosing
open Machine.Ints Topo.DimsCreate Topo.Factor

section Sorting
variable (x : Int) (chosen : List Int)

theorem sortPass_perm : ((sortPass x chosen).1 :: (sortPass x chosen).2).Perm (x :: chosen) := by
  induction chosen generalizing x with
  | nil => exact .refl _
  | cons y chosen ih =>
    unfold sortPass
    split
    · exact (List.Perm.swap x _ _).trans (((ih y).cons x))
    · exact (List.Perm.swap y _ _).trans (((ih x).cons y).trans (List.Perm.swap x y chosen))

theorem sortPass_max : x ≤ (sortPass x chosen).1 ∧
    ∀ z ∈ (sortPass x chosen).2, z ≤ (sortPass x chosen).1 := by
  induction chosen generalizing x with
  | nil => exact ⟨Int.le_refl x, fun z hz => absurd hz List.not_mem_nil⟩
  | cons y chosen ih =>
    unfold sortPass
    split
    · next hlt =>
      obtain ⟨hy, hall⟩ := ih y
      refine ⟨by dsimp only; omega, fun z hz => ?_⟩
      rcases List.mem_cons.mp hz with rfl | hz
      · dsimp only
        omega
      · exact hall z hz
    · next hge =>
      obtain ⟨hx, hall⟩ := ih x
      refine ⟨hx, fun z hz => ?_⟩
      rcases List.mem_cons.mp hz with rfl | hz
      · dsimp only
        omega
      · exact hall z hz

theorem sortLoop_perm (n : Nat) : (sortLoop n chosen).Perm chosen := by
  induction n generalizing chosen with
  | zero => exact .refl _
  | succ n ih =>
    cases chosen with
    | nil => exact .refl _
    | cons x chosen => exact ((ih _).cons _).trans (sortPass_perm x chosen)

theorem sortLoop_sorted {n : Nat} (h : chosen.length ≤ n + 1) : (sortLoop n chosen).Pairwise (· ≥ ·) := by
  induction n generalizing chosen with
  | zero =>
    show chosen.Pairwise _
    cases chosen with
    | nil => exact .nil
    | cons x chosen =>
      have hnil : chosen = [] := List.length_eq_zero_iff.mp (Nat.le_zero.mp (Nat.le_of_succ_le_succ h))
      rw [hnil]
      exact List.pairwise_singleton _ _
  | succ n ih =>
    cases chosen with
    | nil => exact .nil
    | cons x chosen =>
      have hlen := (sortPass_perm x chosen).length_eq
      rw [List.length_cons, List.length_cons] at hlen
      refine List.pairwise_cons.mpr ⟨fun z hz => ?_, ih _ ?_⟩
      · exact (sortPass_max x chosen).2 z ((sortLoop_perm _ n).mem_iff.mp hz)
      · rw [List.length_cons] at h
        omega

end Sorting

theorem minLoop_lt (chosen : List Int) {ii iMin : Nat} (cMin : Int) (h : iMin < ii) :
    minLoop chosen ii cMin iMin < ii + chosen.length := by
  induction chosen generalizing ii cMin iMin with
  | nil => exact h
  | cons c chosen ih =>
    unfold minLoop
    rw [List.length_cons, Nat.add_comm chosen.length, ← Nat.add_assoc]
    split
    · exact ih c (Nat.lt_succ_self ii)
    · exact ih cMin (Nat.lt_succ_of_lt h)

theorem minIndex_lt {chosen : List Int} (h : 0 < chosen.length) : minIndex chosen < chosen.length := by
  have hlt := minLoop_lt chosen.tail (chosen.getD 0 0) Nat.zero_lt_one
  rw [List.length_tail] at hlt
  unfold minIndex
  omega

theorem prod_set_mul (l : List Int) {i : Nat} (h : i < l.length) (v : Int) :
    (l.set i (l.getD i 0 * v)).prod = l.prod * v := by
  induction l generalizing i with
  | nil => exact absurd h (Nat.not_lt_zero i)
  | cons x l ih =>
    cases i with
    | zero =>
      simp only [List.set_cons_zero, List.getD_cons_zero, List.prod_cons]
      ring
    | succ i =>
      simp only [List.set_cons_succ, List.getD_cons_succ, List.prod_cons]
      rw [ih (Nat.lt_of_succ_lt_succ h)]
      ring

theorem le_prod_of_mem {l : List Int} (h : ∀ x ∈ l, 0 < x) {x : Int} (hx : x ∈ l) : x ≤ l.prod := by
  induction l with
  | nil => exact absurd hx List.not_mem_nil
  | cons y l ih =>
    have hrest : ∀ z ∈ l, 0 < z := fun z hz => h z (List.mem_cons_of_mem y hz)
    have hprod := List.prod_pos hrest
    have hy := h y List.mem_cons_self
    rw [List.prod_cons]
    rcases List.mem_cons.mp hx with rfl | hx
    · nlinarith
    · have hle := ih hrest hx
      nlinarith

structure Chosen (needed : Nat) (p : Int) (chosen : List Int) (i : Nat) : Prop where
  length : chosen.length = needed
  index : i < needed
  positive : ∀ x ∈ chosen, 0 < x
  product : chosen.prod = p

section Choose
variable {needed : Nat} {p val : Int} {chosen : List Int} {i : Nat}

theorem chosen_step (h : Chosen needed p chosen i) (hval : 0 < val) (hlt : p * val < 2 ^ 31) :
    Chosen needed (p * val) (chooseStep val chosen i).1 (chooseStep val chosen i).2 := by
  have hlen := h.length
  have hindex := h.index
  have hmin := minIndex_lt (show 0 < chosen.length by omega)
  unfold chooseStep
  dsimp only
  generalize hj : (if (minIndex chosen : Int) < chosen.getD i 0 then minIndex chosen else i) = j
  have hjlt : j < chosen.length := by
    rw [← hj]
    split <;> omega
  have hmem : chosen.getD j 0 ∈ chosen := by
    rw [List.getD_eq_getElem _ _ hjlt]
    exact List.getElem_mem hjlt
  have hpos := h.positive _ hmem
  have hle := le_prod_of_mem h.positive hmem
  rw [h.product] at hle
  have hmul : intMul (chosen.getD j 0) val = chosen.getD j 0 * val := by
    apply toInt_eq
    · have hprod := Int.mul_pos hpos hval
      omega
    · nlinarith
  rw [hmul]
  refine ⟨by rw [List.length_set, hlen], by split <;> omega, ?_, ?_⟩
  · intro x hx
    rcases List.mem_or_eq_of_mem_set hx with hx | rfl
    · exact h.positive x hx
    · exact Int.mul_pos hpos hval
  · rw [prod_set_mul chosen hjlt, h.product]

theorem chosen_copies {cnt : Nat} (h : Chosen needed p chosen i) (hp : 0 < p) (hval : 0 < val)
    (hlt : p * val ^ cnt < 2 ^ 31) :
    Chosen needed (p * val ^ cnt) (chooseCopies val cnt chosen i).1 (chooseCopies val cnt chosen i).2 := by
  induction cnt generalizing p chosen i with
  | zero =>
    rw [pow_zero, mul_one]
    exact h
  | succ cnt ih =>
    have hpow : 0 < val ^ cnt := Int.pow_pos hval
    rw [pow_succ', ← mul_assoc] at hlt ⊢
    have hmul : 0 < p * val := Int.mul_pos hp hval
    have hstep := chosen_step h hval (by nlinarith)
    exact ih hstep hmul hlt

theorem product_cons (f : Factors) (factors : List Factors) :
    product (f :: factors) = f.val ^ f.cnt * product factors := rfl

theorem product_pos {factors : List Factors} (hval : ∀ f ∈ factors, 0 < f.val) : 0 < product factors := by
  induction factors with
  | nil => exact Nat.zero_lt_one
  | cons f factors ih =>
    have hpow := Nat.pow_pos (n := f.cnt) (hval f List.mem_cons_self)
    exact Nat.mul_pos hpow (ih fun g hg => hval g (List.mem_cons_of_mem f hg))

theorem chosen_loop {factors : List Factors} (h : Chosen needed p chosen i) (hp : 0 < p)
    (hval : ∀ f ∈ factors, 0 < f.val) (hlt : p * (product factors : Int) < 2 ^ 31) :
    ∃ j, Chosen needed (p * product factors) (chooseLoop factors chosen i) j := by
  induction factors generalizing p chosen i with
  | nil =>
    rw [show ((product [] : Nat) : Int) = 1 from rfl, mul_one]
    exact ⟨i, h⟩
  | cons f factors ih =>
    have hrest : ∀ g ∈ factors, 0 < g.val := fun g hg => hval g (List.mem_cons_of_mem f hg)
    have hf : (0 : Int) < f.val := Int.natCast_pos.mpr (hval f List.mem_cons_self)
    have hpow : (0 : Int) < (f.val : Int) ^ f.cnt := Int.pow_pos hf
    have hprod : (0 : Int) < product factors := Int.natCast_pos.mpr (product_pos hrest)
    have hmul : 0 < p * (f.val : Int) ^ f.cnt := Int.mul_pos hp hpow
    rw [product_cons, Nat.cast_mul, Nat.cast_pow, ← mul_assoc] at hlt ⊢
    exact ih (chosen_copies h hp hf (by nlinarith)) hmul hrest hlt

end Choose

theorem chooseFactors_spec {factors : List Factors} (needed : Nat) (hneeded : 0 < needed)
    (hval : ∀ f ∈ factors, 0 < f.val) (hlt : product factors < 2 ^ 31) :
    (chooseFactors factors needed).length = needed ∧ (∀ x ∈ chooseFactors factors needed, 0 < x) ∧
      (chooseFactors factors needed).prod = product factors ∧
      (chooseFactors factors needed).Pairwise (· ≥ ·) := by
  have hstart : Chosen needed 1 (List.replicate needed 1) 0 := by
    refine ⟨List.length_replicate, hneeded, fun x hx => ?_, ?_⟩
    · rw [List.eq_of_mem_replicate hx]
      exact Int.zero_lt_one
    · rw [List.prod_replicate, one_pow]
  obtain ⟨j, hchosen⟩ := chosen_loop hstart Int.zero_lt_one hval (by rw [one_mul]; exact_mod_cast hlt)
  have hperm := sortLoop_perm (chooseLoop factors (List.replicate needed 1) 0) (needed - 1)
  refine ⟨hperm.length_eq.trans hchosen.length, fun x hx => hchosen.positive x (hperm.mem_iff.mp hx),
    ?_, sortLoop_sorted _ (by rw [hchosen.length]; omega)⟩
  show (sortLoop _ _).prod = _
  rw [hperm.prod_eq, hchosen.product, one_mul]

end FgMpi.Topo.Choosing
