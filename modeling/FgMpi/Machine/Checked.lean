import Mathlib.Algebra.Order.Ring.Int

/-! `require` is `assert`: execution goes on when the condition holds and faults otherwise. -/

namespace FgMpi.Machine.Checked

variable {ε α β : Type}

def require (c : Prop) [Decidable c] (e : ε) : Except ε Unit :=
  if c then .ok () else .error e

theorem ok_bind (a : α) (k : α → Except ε β) : (Except.ok a >>= k) = k a := rfl

theorem require_bind (c : Prop) [Decidable c] (e : ε) (k : Unit → Except ε α) :
    (require c e >>= k) = if c then k () else .error e := by
  unfold require
  split <;> rfl

theorem require_bind_eq_ok {c : Prop} [Decidable c] {e : ε} {k : Unit → Except ε α} {a : α} :
    (require c e >>= k) = .ok a ↔ c ∧ k () = .ok a := by
  rw [require_bind]
  split
  · rename_i hc
    exact ⟨fun h => ⟨hc, h⟩, fun h => h.2⟩
  · rename_i hc
    exact ⟨fun h => (nomatch h), fun h => absurd h.1 hc⟩

variable {x : Except ε β}

theorem bind_eq_ok {k : β → Except ε α} {a : α} : (x >>= k) = .ok a ↔ ∃ b, x = .ok b ∧ k b = .ok a := by
  cases x with
  | error e => exact ⟨fun h => (nomatch h), fun ⟨_, h, _⟩ => nomatch h⟩
  | ok b => exact ⟨fun h => ⟨b, rfl, h⟩, fun ⟨_, hb, hk⟩ => Except.ok.inj hb ▸ hk⟩

theorem ok_of_observed {f : β → α} {a : α} (h : x.toOption.map f = some a) : ∃ b, x = .ok b ∧ f b = a := by
  cases x with
  | error e => cases h
  | ok b => exact ⟨b, rfl, Option.some.inj h⟩

/-- The fault of a computation, if it has one. -/
def faultOf : Except ε β → Option ε
  | .error e => some e
  | .ok _ => none

theorem error_of_faultOf {e : ε} (h : faultOf x = some e) : x = .error e := by
  cases x with
  | error e' => exact congrArg Except.error (Option.some.inj h)
  | ok b => cases h

def toLongLong (n : Nat) : Int :=
  if n % 2 ^ 64 < 2 ^ 63 then (n % 2 ^ 64 : Nat) else (n % 2 ^ 64 : Nat) - 2 ^ 64

def toUnsigned (i : Int) : Nat := (i % 2 ^ 64).toNat

/-- Result of signed 64-bit arithmetic, or the given fault on overflow. -/
def longLong (e : ε) (i : Int) : Except ε Int :=
  if -2 ^ 63 ≤ i ∧ i < 2 ^ 63 then .ok i else .error e

theorem longLong_eq_ok {e : ε} {i j : Int} : longLong e i = .ok j ↔ (-2 ^ 63 ≤ i ∧ i < 2 ^ 63) ∧ i = j := by
  unfold longLong
  split
  · rename_i h
    constructor
    · intro he
      exact ⟨h, Except.ok.inj he⟩
    · intro he
      rw [he.2]
  · rename_i h
    exact ⟨fun he => (nomatch he), fun he => absurd he.1 h⟩

theorem toLongLong_of_lt {n : Nat} (h : n < 2 ^ 63) : toLongLong n = n := by
  have hmod : n % 2 ^ 64 = n := Nat.mod_eq_of_lt (by omega)
  unfold toLongLong
  rw [hmod, if_pos h]

theorem toLongLong_neg_of_le {n : Nat} (h : 2 ^ 63 ≤ n) (h' : n < 2 ^ 64) :
    toLongLong n = (n : Int) - 2 ^ 64 := by
  have hmod : n % 2 ^ 64 = n := Nat.mod_eq_of_lt h'
  unfold toLongLong
  rw [hmod, if_neg (by omega)]

theorem toUnsigned_of_nonneg {i : Int} (h : 0 ≤ i) (h' : i < 2 ^ 64) : toUnsigned i = i.toNat := by
  unfold toUnsigned
  rw [Int.emod_eq_of_lt h h']

end FgMpi.Machine.Checked
