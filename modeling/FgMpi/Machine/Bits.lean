import Mathlib.Data.Nat.Bitwise
import Mathlib.Tactic.Ring

/-! What the bit operations do when one side is a power of two. -/

namespace FgMpi.Machine.Bits

variable {n r j k m : Nat}

theorem xor_one_even (h : n % 2 = 0) : n ^^^ 1 = n + 1 := by
  have hdiv : (n ^^^ 1) / 2 = n / 2 := by
    rw [Nat.xor_div_two]
    exact Nat.xor_zero _
  have hmod : (n ^^^ 1) % 2 = (n + 1) % 2 := Nat.xor_mod_two_eq
  omega

theorem xor_one_odd (h : n % 2 = 1) : n ^^^ 1 = n - 1 := by
  have hdiv : (n ^^^ 1) / 2 = n / 2 := by
    rw [Nat.xor_div_two]
    exact Nat.xor_zero _
  have hmod : (n ^^^ 1) % 2 = (n + 1) % 2 := Nat.xor_mod_two_eq
  omega

theorem or_one_even (h : n % 2 = 0) : n ||| 1 = n + 1 := by
  have hdiv : (n ||| 1) / 2 = n / 2 := by
    rw [Nat.or_div_two]
    exact Nat.or_zero _
  have hmod : (n ||| 1) % 2 = 1 := Nat.or_mod_two_eq_one.mpr (.inr rfl)
  omega

theorem two_pow_div_mod : 2 ^ k / 2 ^ k = 1 ∧ 2 ^ k % 2 ^ k = 0 :=
  ⟨Nat.div_self (Nat.two_pow_pos k), Nat.mod_self _⟩

theorem xor_low (h : r / 2 ^ k % 2 = 0) : r ^^^ 2 ^ k = r + 2 ^ k := by
  obtain ⟨hone, hzero⟩ := @two_pow_div_mod k
  have hdiv : (r ^^^ 2 ^ k) / 2 ^ k = r / 2 ^ k + 1 := by
    rw [Nat.xor_div_two_pow, hone, xor_one_even h]
  have hmod : (r ^^^ 2 ^ k) % 2 ^ k = r % 2 ^ k := by
    rw [Nat.xor_mod_two_pow, hzero, Nat.xor_zero]
  have hnew := Nat.div_add_mod (r ^^^ 2 ^ k) (2 ^ k)
  have hold := Nat.div_add_mod r (2 ^ k)
  rw [hdiv, hmod, Nat.mul_add, Nat.mul_one] at hnew
  omega

theorem pow_le_of_high (h : r / 2 ^ k % 2 = 1) : 2 ^ k ≤ r := by
  by_contra hlt
  rw [Nat.div_eq_of_lt (Nat.lt_of_not_le hlt)] at h
  exact nomatch h

theorem xor_high (h : r / 2 ^ k % 2 = 1) : r ^^^ 2 ^ k = r - 2 ^ k := by
  obtain ⟨hone, hzero⟩ := @two_pow_div_mod k
  have hle := pow_le_of_high h
  have hpos : 0 < r / 2 ^ k := Nat.div_pos hle (Nat.two_pow_pos k)
  have hdiv : (r ^^^ 2 ^ k) / 2 ^ k = r / 2 ^ k - 1 := by
    rw [Nat.xor_div_two_pow, hone, xor_one_odd h]
  have hmod : (r ^^^ 2 ^ k) % 2 ^ k = r % 2 ^ k := by
    rw [Nat.xor_mod_two_pow, hzero, Nat.xor_zero]
  have hnew := Nat.div_add_mod (r ^^^ 2 ^ k) (2 ^ k)
  have hold := Nat.div_add_mod r (2 ^ k)
  have hmul : 2 ^ k * (r / 2 ^ k - 1) + 2 ^ k = 2 ^ k * (r / 2 ^ k) := by
    rw [← Nat.mul_succ]
    congr 1
    omega
  rw [hdiv, hmod] at hnew
  omega

theorem or_low (h : r / 2 ^ k % 2 = 0) : r ||| 2 ^ k = r + 2 ^ k := by
  obtain ⟨hone, hzero⟩ := @two_pow_div_mod k
  have hdiv : (r ||| 2 ^ k) / 2 ^ k = r / 2 ^ k + 1 := by
    rw [Nat.or_div_two_pow, hone, or_one_even h]
  have hmod : (r ||| 2 ^ k) % 2 ^ k = r % 2 ^ k := by
    rw [Nat.or_mod_two_pow, hzero, Nat.or_zero]
  have hnew := Nat.div_add_mod (r ||| 2 ^ k) (2 ^ k)
  have hold := Nat.div_add_mod r (2 ^ k)
  rw [hdiv, hmod, Nat.mul_add, Nat.mul_one] at hnew
  omega

theorem and_eq_zero : r &&& 2 ^ k = 0 ↔ r / 2 ^ k % 2 = 0 := by
  rw [Nat.and_two_pow, Nat.mul_eq_zero, Nat.testBit_eq_decide_div_mod_eq]
  rcases Nat.mod_two_eq_zero_or_one (r / 2 ^ k) with h | h <;> rw [h] <;> simp

theorem ldiff_high (h : r / 2 ^ k % 2 = 1) : Nat.ldiff r (2 ^ k) = r - 2 ^ k := by
  rw [← xor_high h]
  refine Nat.eq_of_testBit_eq fun i => ?_
  rw [Nat.testBit_ldiff, Nat.testBit_xor, Nat.testBit_two_pow]
  by_cases hi : k = i
  · subst hi
    rw [Nat.testBit_eq_decide_div_mod_eq, h]
    simp
  · simp [hi]

theorem xor_div_above (h : k < j) : (r ^^^ 2 ^ k) / 2 ^ j = r / 2 ^ j := by
  rw [Nat.xor_div_two_pow, Nat.div_eq_of_lt (Nat.pow_lt_pow_right Nat.one_lt_two h), Nat.xor_zero]

theorem xor_mod_below (h : j ≤ k) : (r ^^^ 2 ^ k) % 2 ^ j = r % 2 ^ j := by
  obtain ⟨d, rfl⟩ := Nat.exists_eq_add_of_le h
  rw [Nat.xor_mod_two_pow, Nat.pow_add, Nat.mul_mod_right, Nat.xor_zero]

theorem xor_bit : (r ^^^ 2 ^ k) / 2 ^ k % 2 = 1 - r / 2 ^ k % 2 := by
  rw [Nat.xor_div_two_pow, two_pow_div_mod.1, Nat.xor_mod_two_eq]
  omega

theorem xor_lt (hr : r < 2 ^ m) (hk : k < m) : r ^^^ 2 ^ k < 2 ^ m :=
  Nat.xor_lt_two_pow hr (Nat.pow_lt_pow_right Nat.one_lt_two hk)

theorem xor_xor : r ^^^ 2 ^ k ^^^ 2 ^ k = r := by
  rw [Nat.xor_assoc, Nat.xor_self, Nat.xor_zero]

theorem lt_xor : r < r ^^^ 2 ^ k ↔ r / 2 ^ k % 2 = 0 := by
  have hpow := Nat.two_pow_pos k
  rcases Nat.mod_two_eq_zero_or_one (r / 2 ^ k) with h | h
  · rw [xor_low h]
    omega
  · have := pow_le_of_high h
    rw [xor_high h]
    omega

end FgMpi.Machine.Bits
