import Mathlib.Data.List.Nodup
import Mathlib.Data.Nat.Bitwise

/-! The binomial trees of `mpi/coll/bcast.c`. -/

namespace FgMpi.Coll.Tree

/-- `while (mask < comm_size) { if (relative_rank & mask) break; mask <<= 1; }`.  The fuel is
`comm_size`. -/
def treeMask (commSize relativeRank : Nat) : Nat → Nat → Nat
  | 0, mask => mask
  | fuel + 1, mask =>
    if mask < commSize then
      if relativeRank &&& mask ≠ 0 then mask else treeMask commSize relativeRank fuel (2 * mask)
    else mask

/-- `while (mask > 0) { ..; mask >>= 1; }`. -/
def halvings : Nat → Nat → List Nat
  | 0, _ => []
  | fuel + 1, mask => if mask > 0 then mask :: halvings fuel (mask / 2) else []

def myMask (commSize relativeRank : Nat) : Nat := treeMask commSize relativeRank commSize 1

def sendMasks (commSize relativeRank : Nat) : List Nat :=
  (halvings commSize (myMask commSize relativeRank / 2)).filter (relativeRank + · < commSize)

def children (commSize relativeRank : Nat) : List Nat :=
  (sendMasks commSize relativeRank).map (relativeRank + ·)

section Mask
variable {size r : Nat}

theorem and_pow_ne_zero {k : Nat} (h : r % 2 ^ k = 0) : r &&& 2 ^ k ≠ 0 ↔ r % 2 ^ (k + 1) = 2 ^ k := by
  have hpos : 0 < 2 ^ k := Nat.two_pow_pos k
  rw [Nat.and_two_pow, Nat.testBit_eq_decide_div_mod_eq, Nat.pow_succ, Nat.mod_mul, h]
  rcases Nat.mod_two_eq_zero_or_one (r / 2 ^ k) with hbit | hbit <;> rw [hbit] <;> simp [hpos.ne]

theorem treeMask_spec {k : Nat} (hlow : r % 2 ^ k = 0) (hk : ∀ i < k, 2 ^ i < size) {fuel : Nat}
    (hfuel : size ≤ 2 ^ (k + fuel)) :
    ∃ j, treeMask size r fuel (2 ^ k) = 2 ^ j ∧ (∀ i < j, 2 ^ i < size) ∧
      ((2 ^ j < size ∧ r % 2 ^ (j + 1) = 2 ^ j) ∨ (size ≤ 2 ^ j ∧ r % 2 ^ j = 0)) := by
  induction fuel generalizing k with
  | zero => exact ⟨k, rfl, hk, .inr ⟨hfuel, hlow⟩⟩
  | succ fuel ih =>
    rw [treeMask]
    by_cases hlt : 2 ^ k < size
    · rw [if_pos hlt]
      by_cases hbit : r &&& 2 ^ k ≠ 0
      · rw [if_pos hbit]
        exact ⟨k, rfl, hk, .inl ⟨hlt, (and_pow_ne_zero hlow).mp hbit⟩⟩
      · rw [if_neg hbit]
        have hnext : r % 2 ^ (k + 1) = 0 := by
          have hne := mt (and_pow_ne_zero hlow).mpr hbit
          rw [Nat.pow_succ, Nat.mod_mul, hlow] at hne ⊢
          rcases Nat.mod_two_eq_zero_or_one (r / 2 ^ k) with hz | hz
          · rw [hz, Nat.mul_zero]
          · rw [hz] at hne
            omega
        have hk' : ∀ i < k + 1, 2 ^ i < size := by
          intro i hi
          rcases Nat.lt_succ_iff_lt_or_eq.mp hi with hi | rfl
          · exact hk i hi
          · exact hlt
        have hpow : 2 * 2 ^ k = 2 ^ (k + 1) := by rw [Nat.pow_succ, Nat.mul_comm]
        rw [hpow]
        exact ih hnext hk' (by rw [Nat.add_right_comm]; exact hfuel)
    · rw [if_neg hlt]
      exact ⟨k, rfl, hk, .inr ⟨Nat.le_of_not_lt hlt, hlow⟩⟩

theorem myMask_spec (hr : r < size) :
    ∃ j, myMask size r = 2 ^ j ∧ (∀ i < j, 2 ^ i < size) ∧
      ((2 ^ j < size ∧ r % 2 ^ (j + 1) = 2 ^ j) ∨ (size ≤ 2 ^ j ∧ r = 0)) := by
  have hfuel : size ≤ 2 ^ (0 + size) := by
    rw [Nat.zero_add]
    exact Nat.le_of_lt Nat.lt_two_pow_self
  obtain ⟨j, hmask, hj, hend⟩ := treeMask_spec (r := r) (Nat.mod_one r) (fun i hi => by omega) hfuel
  refine ⟨j, hmask, hj, hend.imp_right ?_⟩
  rintro ⟨hle, hmod⟩
  rw [Nat.mod_eq_of_lt (by omega)] at hmod
  exact ⟨hle, hmod⟩

theorem halvings_pow {j fuel : Nat} (hfuel : j ≤ fuel) :
    halvings fuel (2 ^ j / 2) = (List.range j).reverse.map (2 ^ ·) := by
  induction j generalizing fuel with
  | zero =>
    cases fuel <;> rfl
  | succ j ih =>
    cases fuel with
    | zero => exact absurd hfuel (Nat.not_succ_le_zero j)
    | succ fuel =>
      have hpos : 2 ^ j > 0 := Nat.two_pow_pos j
      rw [Nat.pow_succ, Nat.mul_div_cancel _ (by decide), halvings, if_pos hpos,
        ih (Nat.le_of_succ_le_succ hfuel), List.range_succ, List.reverse_append]
      rfl

theorem exponent_le {j : Nat} (hj : ∀ i < j, 2 ^ i < size) : j ≤ size := by
  by_contra hnot
  have hlt := hj size (by omega)
  have hself : size < 2 ^ size := Nat.lt_two_pow_self
  omega

theorem sendMasks_eq {j : Nat} (hmask : myMask size r = 2 ^ j) (hj : ∀ i < j, 2 ^ i < size) :
    sendMasks size r = ((List.range j).reverse.map (2 ^ ·)).filter (r + · < size) := by
  rw [sendMasks, hmask, halvings_pow (exponent_le hj)]

theorem sendMasks_nodup (hr : r < size) : (sendMasks size r).Nodup := by
  obtain ⟨j, hmask, hj, -⟩ := myMask_spec hr
  rw [sendMasks_eq hmask hj]
  refine List.Nodup.filter _ (List.Nodup.map ?_ ?_)
  · exact Nat.pow_right_injective (Nat.le_refl 2)
  · exact List.nodup_reverse.mpr List.nodup_range

theorem children_nodup (hr : r < size) : (children size r).Nodup :=
  (sendMasks_nodup hr).map (fun _ _ h => Nat.add_left_cancel h)

end Mask

end FgMpi.Coll.Tree
