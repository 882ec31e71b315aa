import Mathlib.Algebra.Order.Ring.Int

/-! The `int` of C: 32 bits in two's complement. -/

namespace FgMpi.Machine.Ints

def toInt (x : Int) : Int := x.bmod (2 ^ 32)

def intAdd (x y : Int) : Int := toInt (x + y)

def intMul (x y : Int) : Int := toInt (x * y)

variable {x : Int}

theorem toInt_eq (h : -2 ^ 31 ≤ x) (h' : x < 2 ^ 31) : toInt x = x :=
  Int.bmod_eq_of_le (by omega) (by omega)

theorem toInt_bounds (x : Int) : -2 ^ 31 ≤ toInt x ∧ toInt x < 2 ^ 31 :=
  ⟨Int.le_bmod (by decide), Int.bmod_lt (by decide)⟩

theorem toInt_eq_iff : toInt x = x ↔ -2 ^ 31 ≤ x ∧ x < 2 ^ 31 := by
  constructor
  · intro h
    rw [← h]
    exact toInt_bounds x
  · intro h
    exact toInt_eq h.1 h.2

@[simp] theorem toInt_toInt (x : Int) : toInt (toInt x) = toInt x := Int.bmod_bmod

theorem toInt_add_mul (x k : Int) : toInt (x + 2 ^ 32 * k) = toInt x := by
  unfold toInt
  exact Int.add_mul_bmod_self_left x (2 ^ 32) k

theorem toInt_eq_zero {n : Nat} : toInt n = 0 ↔ 2 ^ 32 ∣ n :=
  Int.dvd_iff_bmod_eq_zero.symm.trans Int.natCast_dvd_natCast

theorem toInt_of_ge (h : 2 ^ 31 ≤ x) (h' : x < 2 ^ 32) : toInt x = x - 2 ^ 32 := by
  have hcancel := toInt_add_mul (x - 2 ^ 32) 1
  rw [Int.mul_one, Int.sub_add_cancel] at hcancel
  rw [hcancel]
  exact toInt_eq (by omega) (by omega)

theorem toInt_of_lt (h : -2 ^ 32 ≤ x) (h' : x < -2 ^ 31) : toInt x = x + 2 ^ 32 := by
  have hcancel := toInt_add_mul x 1
  rw [Int.mul_one] at hcancel
  rw [← hcancel]
  exact toInt_eq (by omega) (by omega)

theorem toInt_of_emod (x : Int) : toInt (x % 2 ^ 32) = toInt x := Int.emod_bmod x (2 ^ 32)

theorem toInt_mul (x y : Int) : toInt (toInt x * y) = toInt (x * y) := Int.bmod_mul_bmod

theorem intMul_nat {m n : Nat} (h : m * n < 2 ^ 31) : intMul m n = (m * n : Nat) := by
  rw [intMul, ← Int.natCast_mul]
  exact toInt_eq (by omega) (by omega)

theorem intAdd_nat {m n : Nat} (h : m + n < 2 ^ 31) : intAdd m n = (m + n : Nat) := by
  rw [intAdd, ← Int.natCast_add]
  exact toInt_eq (by omega) (by omega)

end FgMpi.Machine.Ints
