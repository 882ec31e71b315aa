import FgMpi.Topo.DimsCreate
import Mathlib.Data.Nat.Size
import Mathlib.Algebra.BigOperators.Group.Finset.Piecewise
import Mathlib.Algebra.Order.BigOperators.Group.Finset
import Mathlib.Tactic.Ring

/-! `MPIR_Factor` divides by the primes of the table, downwards from a square root. -/

namespace FgMpi.Topo.Factor
open Topo.Primes Topo.DimsCreate

theorem size_half {n : Nat} (h : 0 < n) : n.size = (n / 2).size + 1 := by
  apply Nat.le_antisymm
  · rw [Nat.size_le, Nat.pow_succ]
    have hlt := Nat.lt_size_self (n / 2)
    omega
  · rw [Nat.succ_le_iff, Nat.lt_size]
    cases hs : (n / 2).size with
    | zero => exact h
    | succ s =>
      have hle : 2 ^ s ≤ n / 2 := Nat.lt_size.mp (by omega)
      rw [Nat.pow_succ]
      omega

theorem shiftRight_one (n : Nat) : (n : Int) >>> 1 = ((n / 2 : Nat) : Int) := rfl

theorem rootLoop_eq {fuel n : Nat} (k : Nat) (h : n.size < fuel) : rootLoop fuel n k = .ok (k + n.size) := by
  induction fuel generalizing n k with
  | zero => exact absurd h (Nat.not_lt_zero _)
  | succ fuel ih =>
    unfold rootLoop
    rcases Nat.eq_zero_or_pos n with rfl | hpos
    · rw [Nat.size_zero]
      rfl
    · have hsize := size_half hpos
      rw [if_neg (by omega), shiftRight_one, ih (k + 1) (by omega), hsize]
      congr 1
      omega

theorem rootLoop_error {fuel : Nat} {n : Int} {k : Nat} {e : Stop} (h : rootLoop fuel n k = .error e) :
    e = .fuel := by
  induction fuel generalizing n k with
  | zero => exact (Except.error.inj h).symm
  | succ fuel ih =>
    unfold rootLoop at h
    split at h
    · cases h
    · exact ih h

theorem rootLoop_ok {fuel n k r : Nat} (h : rootLoop fuel n k = .ok r) : r = k + n.size := by
  induction fuel generalizing n k with
  | zero => cases h
  | succ fuel ih =>
    unfold rootLoop at h
    rcases Nat.eq_zero_or_pos n with rfl | hpos
    · rw [if_pos (show ((0 : Nat) : Int) = 0 from rfl)] at h
      rw [← Except.ok.inj h, Nat.size_zero, Nat.add_zero]
    · rw [if_neg (by omega), shiftRight_one] at h
      rw [ih h, size_half hpos]
      omega

theorem rootLoop_neg (fuel n k : Nat) : rootLoop fuel (Int.negSucc n) k = .error .fuel := by
  induction fuel generalizing n k with
  | zero => rfl
  | succ fuel ih =>
    unfold rootLoop
    rw [if_neg nofun]
    exact ih (n / 2) (k + 1)

def nRoot (n : Nat) : Nat := 2 ^ (n.size / 2)

def tried (n : Nat) : Nat := primes.getD (primeAbove (nRoot n)) 0

section Divide
variable {p fuel n cnt m c : Nat}

theorem divideOut_ok (h : divideOut p fuel n cnt = .ok (m, c)) :
    ∃ k, c = cnt + k ∧ n = m * p ^ k ∧ m % p ≠ 0 := by
  induction fuel generalizing n cnt with
  | zero => cases h
  | succ fuel ih =>
    unfold divideOut at h
    split at h
    · next hmod =>
      obtain ⟨k, hc, hn, hm⟩ := ih h
      refine ⟨k + 1, by omega, ?_, hm⟩
      rw [Nat.pow_succ, ← Nat.mul_assoc, ← hn, Nat.div_mul_cancel (Nat.dvd_of_mod_eq_zero hmod)]
    · next hmod =>
      cases h
      exact ⟨0, rfl, (Nat.mul_one _).symm, hmod⟩

theorem divideOut_total (cnt : Nat) {fuel n : Nat} (hp : 2 ≤ p) (hn : 0 < n) (h : n < fuel) :
    ∃ m c, divideOut p fuel n cnt = .ok (m, c) := by
  induction fuel generalizing n cnt with
  | zero => exact absurd h (Nat.not_lt_zero _)
  | succ fuel ih =>
    unfold divideOut
    split
    · next hmod =>
      have hdvd := Nat.dvd_of_mod_eq_zero hmod
      have hlt : n / p < n := Nat.div_lt_self hn hp
      exact ih _ (Nat.div_pos (Nat.le_of_dvd hn hdvd) (by omega)) (by omega)
    · exact ⟨n, cnt, rfl⟩

theorem divideOut_error {e : Stop} (h : divideOut p fuel n cnt = .error e) : e = .fuel := by
  induction fuel generalizing n cnt with
  | zero => exact (Except.error.inj h).symm
  | succ fuel ih =>
    unfold divideOut at h
    split at h
    · exact ih h
    · cases h

theorem divideOut_zero : divideOut p fuel 0 cnt = .error .fuel := by
  induction fuel generalizing cnt with
  | zero => rfl
  | succ fuel ih =>
    unfold divideOut
    rw [if_pos (Nat.zero_mod p), Nat.zero_div]
    exact ih

end Divide

def product (factors : List Factors) : Nat := (factors.map fun f => f.val ^ f.cnt).prod

def divisors (factors : List Factors) : Nat := (factors.map Factors.cnt).sum

/-- Where the primes from index `i` up to below `start` have been divided out of `n₀`. -/
structure Divided (n₀ start i n : Nat) (factors : List Factors) (nall : Nat) : Prop where
  product : product factors * n = n₀
  divisors : divisors factors = nall
  tabled : ∀ f ∈ factors, 0 < f.cnt ∧ ∃ j, i ≤ j ∧ j < start ∧ primes[j]? = some f.val
  distinct : (factors.map Factors.val).Nodup
  free : ∀ j p, i ≤ j → j < start → primes[j]? = some p → ¬ p ∣ n

section Loop
variable {n₀ start i n nall fuel : Nat} {factors : List Factors}

theorem product_append (f : Factors) : product (factors ++ [f]) = product factors * f.val ^ f.cnt := by
  simp [product]

theorem index_unique {i j p : Nat} (hi : primes[i]? = some p) (hj : primes[j]? = some p) : i = j := by
  have hnodup : primes.Nodup := primes_sorted.imp fun h => Nat.ne_of_lt h
  obtain ⟨hlt, hget⟩ := List.getElem?_eq_some_iff.mp hi
  obtain ⟨hlt', hget'⟩ := List.getElem?_eq_some_iff.mp hj
  exact (hnodup.getElem_inj_iff).mp (hget.trans hget'.symm)

theorem divided_start (n : Nat) : Divided n start start n [] 0 where
  product := Nat.one_mul n
  divisors := rfl
  tabled _ hf := absurd hf List.not_mem_nil
  distinct := List.nodup_nil
  free _ _ hle hlt := absurd hlt (Nat.not_lt.mpr hle)

theorem divided_step (h : Divided n₀ start (i + 1) n factors nall) (hi : i < start) {p m k : Nat}
    (hp : primes[i]? = some p) (hn : n = m * p ^ k) (hm : m % p ≠ 0) :
    (k = 0 → Divided n₀ start i m factors nall) ∧
      (0 < k → Divided n₀ start i m (factors ++ [⟨p, k⟩]) (nall + k)) := by
  have hfree : ∀ j q, i ≤ j → j < start → primes[j]? = some q → ¬ q ∣ m := by
    intro j q hle hlt hq hdvd
    rcases Nat.eq_or_lt_of_le hle with rfl | hgt
    · rw [hp] at hq
      rw [← Option.some.inj hq] at hdvd
      exact hm (Nat.mod_eq_zero_of_dvd hdvd)
    · exact h.free j q hgt hlt hq (hn ▸ Dvd.dvd.mul_right hdvd _)
  have htabled : ∀ f ∈ factors, 0 < f.cnt ∧ ∃ j, i ≤ j ∧ j < start ∧ primes[j]? = some f.val := by
    intro f hf
    obtain ⟨hcnt, j, hle, hlt, hj⟩ := h.tabled f hf
    exact ⟨hcnt, j, by omega, hlt, hj⟩
  constructor
  · rintro rfl
    rw [Nat.pow_zero, Nat.mul_one] at hn
    exact ⟨hn ▸ h.product, h.divisors, htabled, h.distinct, hfree⟩
  · intro hk
    refine ⟨?_, ?_, ?_, ?_, hfree⟩
    · rw [product_append, ← h.product, hn, Nat.mul_assoc, Nat.mul_comm (p ^ k)]
    · rw [← h.divisors]
      simp [Factor.divisors]
    · intro f hf
      rcases List.mem_append.mp hf with hf | hf
      · exact htabled f hf
      · rw [List.mem_singleton.mp hf]
        exact ⟨hk, i, Nat.le_refl i, hi, hp⟩
    · rw [List.map_append, List.nodup_append']
      refine ⟨h.distinct, List.nodup_singleton p, ?_⟩
      intro q hq hq'
      obtain ⟨f, hf, hfq⟩ := List.mem_map.mp hq
      obtain ⟨-, j, hle, -, hj⟩ := h.tabled f hf
      have hqp : q = p := List.mem_singleton.mp hq'
      rw [hfq, hqp] at hj
      have hij := index_unique hp hj
      omega

theorem prod_ten_primes {s : Finset Nat} (hs : ∀ p ∈ s, p.Prime) (hcard : 10 ≤ s.card) :
    6469693230 ≤ ∏ p ∈ s, p := by
  let first : Finset Nat := {2, 3, 5, 7, 11, 13, 17, 19, 23}
  have hlarge : ∀ p ∈ s \ first, 29 ≤ p := by
    intro p hp
    obtain ⟨hps, hpf⟩ := Finset.mem_sdiff.mp hp
    by_contra hlt
    have hprime := hs p hps
    interval_cases p <;> revert hprime hpf <;> decide
  have hsmall : ∀ p ∈ first \ s, p ≤ 23 := by
    intro p hp
    have hpf : p ∈ first := (Finset.mem_sdiff.mp hp).1
    have hall : ∀ p ∈ first, p ≤ 23 := by decide
    exact hall p hpf
  have hone : (s \ first).card + (s ∩ first).card = s.card := Finset.card_sdiff_add_card_inter s first
  have htwo : (first \ s).card + (first ∩ s).card = 9 := Finset.card_sdiff_add_card_inter first s
  rw [Finset.inter_comm first s] at htwo
  have hprodS : (∏ p ∈ s ∩ first, p) * ∏ p ∈ s \ first, p = ∏ p ∈ s, p :=
    Finset.prod_inter_mul_prod_sdiff s first _
  have hprodF : (∏ p ∈ first ∩ s, p) * ∏ p ∈ first \ s, p = 223092870 :=
    Finset.prod_inter_mul_prod_sdiff first s _
  rw [Finset.inter_comm first s] at hprodF
  have hgrow : 29 * ∏ p ∈ first \ s, p ≤ ∏ p ∈ s \ first, p := by
    calc 29 * ∏ p ∈ first \ s, p
        ≤ 29 * 23 ^ (first \ s).card := Nat.mul_le_mul_left 29 (Finset.prod_le_pow_card _ _ _ hsmall)
      _ ≤ 29 * 29 ^ (first \ s).card := Nat.mul_le_mul_left 29 (Nat.pow_le_pow_left (by decide) _)
      _ = 29 ^ ((first \ s).card + 1) := (Nat.pow_succ').symm
      _ ≤ 29 ^ (s \ first).card := Nat.pow_le_pow_right (by decide) (by omega)
      _ ≤ ∏ p ∈ s \ first, p := Finset.pow_card_le_prod _ _ _ hlarge
  calc 6469693230 = 29 * 223092870 := rfl
    _ = (∏ p ∈ s ∩ first, p) * (29 * ∏ p ∈ first \ s, p) := by rw [← hprodF]; ring
    _ ≤ (∏ p ∈ s ∩ first, p) * ∏ p ∈ s \ first, p := Nat.mul_le_mul_left _ hgrow
    _ = ∏ p ∈ s, p := hprodS

theorem prod_vals_le {factors : List Factors} (hcnt : ∀ f ∈ factors, 0 < f.cnt) :
    (factors.map Factors.val).prod ≤ product factors := by
  induction factors with
  | nil => exact Nat.le_refl 1
  | cons f factors ih =>
    have hrest := ih fun f hf => hcnt f (List.mem_cons_of_mem _ hf)
    have hpow := Nat.le_self_pow (Nat.ne_of_gt (hcnt f List.mem_cons_self)) f.val
    exact Nat.mul_le_mul hpow hrest

theorem prime_of_index {j p : Nat} (h : primes[j]? = some p) : p.Prime :=
  primes_prime (List.mem_of_getElem? h)

theorem length_factors (h : Divided n₀ start i n factors nall) (hpos : 0 < n₀) (hlt : n₀ < 2 ^ 31) :
    factors.length ≤ 9 := by
  by_contra hlong
  have hprimes : ∀ p ∈ (factors.map Factors.val).toFinset, p.Prime := by
    intro p hp
    obtain ⟨f, hf, rfl⟩ := List.mem_map.mp (List.mem_toFinset.mp hp)
    obtain ⟨-, j, -, -, hj⟩ := h.tabled f hf
    exact prime_of_index hj
  have hcard : 10 ≤ (factors.map Factors.val).toFinset.card := by
    rw [List.toFinset_card_of_nodup h.distinct, List.length_map]
    omega
  have hten := prod_ten_primes hprimes hcard
  have hprod : ∏ p ∈ (factors.map Factors.val).toFinset, p = (factors.map Factors.val).prod := by
    rw [List.prod_toFinset _ h.distinct, List.map_id']
  have hvals := prod_vals_le fun f hf => (h.tabled f hf).1
  have hdvd : product factors ∣ n₀ := ⟨n, h.product.symm⟩
  have hle := Nat.le_of_dvd hpos hdvd
  omega

theorem factorLoop_cases (h : Divided n₀ start i n factors nall) (hpos : 0 < n₀) (hlt : n₀ < 2 ^ 31)
    (hi : i ≤ start) (hstart : start ≤ numPrimes) :
    (∃ m fs all, Divided n₀ start 0 m fs all ∧ factorLoop fuel i n factors nall = lastFactor m fs all) ∨
    (fuel ≤ n₀ ∧ factorLoop fuel i n factors nall = .error .fuel) := by
  induction i generalizing n factors nall with
  | zero => exact .inl ⟨n, factors, nall, h, rfl⟩
  | succ i ih =>
    have hprime : ∃ p, primes[i]? = some p := ⟨_, List.getElem?_eq_getElem (Nat.lt_of_lt_of_le hi hstart)⟩
    obtain ⟨p, hp⟩ := hprime
    have hn : 0 < n := by
      rcases Nat.eq_zero_or_pos n with hzero | hn
      · have hprod := h.product
        rw [hzero, Nat.mul_zero] at hprod
        omega
      · exact hn
    have hle : n ≤ n₀ := Nat.le_of_dvd hpos ⟨product factors, by rw [Nat.mul_comm, h.product]⟩
    unfold factorLoop
    rw [hp]
    dsimp only
    cases hdivide : divideOut p fuel n 0 with
    | error e =>
      have hfuel : fuel ≤ n := by
        by_contra hlarge
        obtain ⟨m, c, hok⟩ := divideOut_total 0 (prime_of_index hp).two_le hn
          (Nat.lt_of_not_le hlarge)
        rw [hok] at hdivide
        cases hdivide
      exact .inr ⟨Nat.le_trans hfuel hle, by rw [divideOut_error hdivide]⟩
    | ok r =>
      obtain ⟨m, c⟩ := r
      obtain ⟨k, hc, hmul, hmod⟩ := divideOut_ok hdivide
      rw [Nat.zero_add] at hc
      subst hc
      obtain ⟨hnone, hsome⟩ := divided_step h hi hp hmul hmod
      dsimp only
      rcases Nat.eq_zero_or_pos c with hzero | hcpos
      · rw [if_neg (by omega)]
        exact ih (hnone hzero) (by omega)
      · have hlen := length_factors (hsome hcpos) hpos hlt
        rw [List.length_append, List.length_singleton] at hlen
        have hmax : maxFactors = 10 := rfl
        rw [if_pos hcpos, if_neg (by omega), if_pos (by omega)]
        exact ih (hsome hcpos) (by omega)

end Loop

section Leftover
variable {n : Nat}

theorem size_le {n : Nat} (h : n < 2 ^ 31) : n.size ≤ 31 := Nat.size_le.mpr h

theorem nRoot_eq (n : Nat) : 1 <<< (n.size / 2) = nRoot n := Nat.one_shiftLeft _

theorem nRoot_le (h : n < 2 ^ 31) : nRoot n ≤ 2 ^ 15 :=
  Nat.pow_le_pow_right (by decide) (by have hsize := size_le h; omega)

theorem tried_spec (h : n < 2 ^ 31) : ∃ t, primes[primeAbove (nRoot n)]? = some t ∧ nRoot n < t ∧
    primeAbove (nRoot n) + 1 ≤ numPrimes := by
  have hroot := nRoot_le h
  have hlast : (46337 : Nat) ∈ primes := List.mem_of_mem_drop last_mem
  have hlt : primeAbove (nRoot n) < primes.length :=
    List.findIdx_lt_length.mpr ⟨46337, hlast, decide_eq_true (by omega)⟩
  have hget := List.findIdx_getElem (w := hlt)
  exact ⟨_, List.getElem?_eq_getElem hlt, of_decide_eq_true hget, hlt⟩

theorem index_le {j i p q : Nat} (hj : primes[j]? = some p) (hi : primes[i]? = some q) (hle : p ≤ q) :
    j ≤ i := by
  by_contra hlt
  obtain ⟨hj', hp⟩ := List.getElem?_eq_some_iff.mp hj
  obtain ⟨hi', hq⟩ := List.getElem?_eq_some_iff.mp hi
  have hsorted := (List.pairwise_iff_getElem.mp primes_sorted) i j hi' hj' (by omega)
  omega

theorem le_of_index {j i p q : Nat} (hj : primes[j]? = some p) (hi : primes[i]? = some q)
    (hle : j ≤ i) : p ≤ q := by
  by_contra hlt
  have hij := index_le hi hj (by omega)
  have heq : j = i := by omega
  rw [heq, hi] at hj
  exact hlt (Nat.le_of_eq (Option.some.inj hj).symm)

theorem leftover_free {n₀ m t nall : Nat} {factors : List Factors}
    (ht : primes[primeAbove (nRoot n₀)]? = some t)
    (h : Divided n₀ (primeAbove (nRoot n₀) + 1) 0 m factors nall) {q : Nat} (hq : q.Prime)
    (hdvd : q ∣ m) : t < q := by
  by_contra hle
  have hmem : q ∈ primes := by
    have htle := primes_le (List.mem_of_getElem? ht)
    exact (mem_primes_iff (by omega)).mpr hq
  obtain ⟨j, hj⟩ := List.mem_iff_getElem?.mp hmem
  have hji := index_le hj ht (Nat.le_of_not_lt hle)
  exact h.free j q (Nat.zero_le j) (Nat.lt_succ_of_le hji) hj hdvd

theorem leftover_cases {n m t : Nat} (hn : 2 ≤ n) (ht : nRoot n < t) (hdvd : m ∣ n) (hm : 2 ≤ m)
    (hfree : ∀ q, q.Prime → q ∣ m → t < q) (hnot : ¬ m.Prime) :
    m = n ∧ ∃ p q, p.Prime ∧ q.Prime ∧ t < p ∧ t < q ∧ n = p * q := by
  have hbits : n < 2 ^ n.size := Nat.lt_size_self n
  have hsize : 2 ≤ n.size := by
    have hlt : 1 < n.size := Nat.lt_size.mpr hn
    omega
  have hle : m ≤ n := Nat.le_of_dvd (by omega) hdvd
  have hp := Nat.minFac_prime (show m ≠ 1 by omega)
  have hpt := hfree _ hp (Nat.minFac_dvd m)
  obtain ⟨c, hc⟩ := Nat.minFac_dvd m
  have hcone : c ≠ 1 := by
    rintro rfl
    rw [Nat.mul_one] at hc
    exact hnot (hc ▸ hp)
  have hcq := Nat.minFac_prime hcone
  have hct := hfree _ hcq (Dvd.dvd.trans (Nat.minFac_dvd c) ⟨m.minFac, by rw [Nat.mul_comm]; exact hc⟩)
  obtain ⟨d, hd⟩ := Nat.minFac_dvd c
  have hdone : d = 1 := by
    by_contra hdne
    have hdt := hfree _ (Nat.minFac_prime hdne) (by
      refine Dvd.dvd.trans (Nat.minFac_dvd d) ⟨m.minFac * c.minFac, ?_⟩
      calc m = m.minFac * c := hc
        _ = m.minFac * (c.minFac * d) := by rw [← hd]
        _ = d * (m.minFac * c.minFac) := by ring)
    have hdpos : 0 < d := by
      rcases Nat.eq_zero_or_pos d with rfl | hpos
      · rw [Nat.mul_zero] at hd
        rw [hd, Nat.mul_zero] at hc
        omega
      · exact hpos
    have hdle : d.minFac ≤ d := Nat.minFac_le hdpos
    have hcube : 2 ^ n.size ≤ nRoot n * (nRoot n * nRoot n) := by
      unfold nRoot
      rw [← Nat.pow_add, ← Nat.pow_add]
      exact Nat.pow_le_pow_right (by decide) (by omega)
    have hmul : nRoot n * (nRoot n * nRoot n) ≤ m.minFac * (c.minFac * d) :=
      Nat.mul_le_mul (by omega) (Nat.mul_le_mul (by omega) (by omega))
    rw [← hd, ← hc] at hmul
    omega
  rw [hdone, Nat.mul_one] at hd
  rw [← hd] at hcq hct
  have hall : m = n := by
    obtain ⟨k, hk⟩ := hdvd
    have hsquare : 2 ^ n.size ≤ 2 * (nRoot n * nRoot n) := by
      unfold nRoot
      rw [← Nat.pow_add, ← Nat.pow_succ']
      exact Nat.pow_le_pow_right (by decide) (by omega)
    have hmul : nRoot n * nRoot n ≤ m.minFac * c := Nat.mul_le_mul (by omega) (by omega)
    rw [← hc] at hmul
    have hkpos : k ≠ 0 := by
      rintro rfl
      omega
    have hkone : k < 2 := by
      by_contra htwo
      have hmk := Nat.mul_le_mul_left m (Nat.le_of_not_lt htwo)
      omega
    have hk1 : k = 1 := by omega
    rw [hk, hk1, Nat.mul_one]
  exact ⟨hall, m.minFac, c, hp, hcq, hpt, hct, hall ▸ hc⟩

end Leftover

def Returns {α : Type} (f : Nat → Except Stop α) (P : α → Prop) : Prop :=
  ∃ bound, ∀ fuel, bound ≤ fuel → ∃ r, f fuel = .ok r ∧ P r

/-- The factors are different primes, `n` is the product of their powers, and the divisors are
counted. -/
structure Factorisation (n : Nat) (r : Factored) : Prop where
  distinct : (r.factors.map Factors.val).Nodup
  primes : ∀ f ∈ r.factors, f.val.Prime
  product : product r.factors = n
  ndivisors : r.ndivisors = some (divisors r.factors)
  bounded : r.factors.length ≤ maxFactors

section Result
variable {n m nall fuel : Nat} {factors : List Factors}

theorem factor_cases (fuel : Nat) (hpos : 0 < n) (hlt : n < 2 ^ 31) :
    (∃ m fs all, Divided n (primeAbove (nRoot n) + 1) 0 m fs all ∧
      factor fuel n = lastFactor m fs all) ∨ (fuel ≤ n ∧ factor fuel n = .error .fuel) := by
  obtain ⟨t, -, -, hstart⟩ := tried_spec hlt
  have hsize : n.size ≤ n := Nat.size_le.mpr Nat.lt_two_pow_self
  unfold factor
  cases hroot : rootLoop fuel n 0 with
  | ok r =>
    rw [rootLoop_ok hroot, Nat.zero_add]
    dsimp only
    rw [nRoot_eq, Int.toNat_natCast]
    exact factorLoop_cases (divided_start n) hpos hlt (Nat.le_refl _) hstart
  | error e =>
    refine .inr ⟨?_, by rw [rootLoop_error hroot]⟩
    by_contra hlarge
    rw [rootLoop_eq 0 (by omega)] at hroot
    cases hroot

theorem lastFactor_eq {start : Nat} (h : Divided n start 0 m factors nall) (hpos : 0 < n)
    (hlt : n < 2 ^ 31) : lastFactor m factors nall =
      .ok (if factors = [] then ⟨[⟨n, 1⟩], some 1⟩
        else if 1 < m then ⟨factors ++ [⟨m, 1⟩], some (nall + 1)⟩ else ⟨factors, some nall⟩) := by
  have hlen := length_factors h hpos hlt
  have hmax : maxFactors = 10 := rfl
  unfold lastFactor
  by_cases hempty : factors = []
  · have hprod := h.product
    rw [hempty] at hprod
    have hm : m = n := by rw [← hprod]; exact (Nat.one_mul m).symm
    rw [if_pos hempty, if_pos hempty, hm]
  · rw [if_neg hempty, if_neg hempty]
    by_cases hm : 1 < m
    · rw [if_pos hm, if_pos hm, if_pos (by omega)]
    · rw [if_neg hm, if_neg hm]

theorem tried_eq {t : Nat} (ht : primes[primeAbove (nRoot n)]? = some t) : tried n = t := by
  unfold tried
  rw [List.getD_eq_getElem?_getD, ht]
  rfl

theorem factorisation_of_divided (hn : 2 ≤ n) (hlt : n < 2 ^ 31)
    (h : Divided n (primeAbove (nRoot n) + 1) 0 m factors nall)
    (hprime : m = 1 ∨ m.Prime) : ∃ r, lastFactor m factors nall = .ok r ∧ Factorisation n r := by
  have hlen := length_factors h (by omega) hlt
  have hmax : maxFactors = 10 := rfl
  refine ⟨_, lastFactor_eq h (by omega) hlt, ?_⟩
  have hvals : ∀ f ∈ factors, f.val.Prime := by
    intro f hf
    obtain ⟨-, j, -, -, hj⟩ := h.tabled f hf
    exact prime_of_index hj
  by_cases hempty : factors = []
  · rw [if_pos hempty]
    have hprod := h.product
    rw [hempty] at hprod
    have hm : m = n := by rw [← hprod]; exact (Nat.one_mul m).symm
    rw [hm] at hprime
    refine ⟨List.nodup_singleton n, ?_, ?_, rfl, Nat.le_add_left 1 9⟩
    · intro f hf
      rw [List.mem_singleton.mp hf]
      exact hprime.resolve_left (by omega)
    · simp [Factor.product]
  · rw [if_neg hempty]
    by_cases hm : 1 < m
    · rw [if_pos hm]
      have hmprime := hprime.resolve_left (by omega)
      refine ⟨?_, ?_, ?_, ?_, ?_⟩
      · rw [List.map_append, List.nodup_append']
        refine ⟨h.distinct, List.nodup_singleton m, ?_⟩
        intro q hq hq'
        obtain ⟨f, hf, hfq⟩ := List.mem_map.mp hq
        obtain ⟨-, j, hle, hj, hget⟩ := h.tabled f hf
        have hqm : q = m := List.mem_singleton.mp hq'
        rw [hfq, hqm] at hget
        exact h.free j m hle hj hget (Nat.dvd_refl m)
      · intro f hf
        rcases List.mem_append.mp hf with hf | hf
        · exact hvals f hf
        · rw [List.mem_singleton.mp hf]
          exact hmprime
      · rw [product_append, Nat.pow_one]
        exact h.product
      · rw [← h.divisors]
        simp [Factor.divisors]
      · rw [List.length_append, List.length_singleton]
        omega
    · rw [if_neg hm]
      have hmone : m = 1 := hprime.resolve_right fun hp => hm hp.one_lt
      refine ⟨h.distinct, hvals, ?_, ?_, Nat.le_succ_of_le hlen⟩
      · have hprod := h.product
        rw [hmone, Nat.mul_one] at hprod
        exact hprod
      · rw [← h.divisors]

theorem factor_stuck {n : Int} (h : n ≤ 0) : factor fuel n = .error .fuel := by
  unfold factor
  rcases Int.lt_or_eq_of_le h with hneg | rfl
  · obtain ⟨k, rfl⟩ := Int.eq_negSucc_of_lt_zero hneg
    rw [rootLoop_neg]
  · cases hroot : rootLoop fuel 0 0 with
    | error e => rw [rootLoop_error hroot]
    | ok r =>
      have hr : r = 0 := rootLoop_ok (n := 0) hroot
      have hget : primes[primeAbove (1 <<< (r / 2))]? = some 2 := by
        rw [hr]
        decide
      dsimp only
      unfold factorLoop
      rw [hget]
      dsimp only
      rw [show (0 : Int).toNat = 0 from rfl, divideOut_zero]

structure Splitting (n : Nat) (r : Factored) : Prop where
  product : product r.factors = n
  ndivisors : r.ndivisors = some (divisors r.factors)
  positive : ∀ f ∈ r.factors, 0 < f.val
  bounded : ∀ f ∈ r.factors, f.cnt ≤ n

theorem splitting_of_divided {start : Nat} (h : Divided n start 0 m factors nall) (hpos : 0 < n)
    (hlt : n < 2 ^ 31) : ∃ r, lastFactor m factors nall = .ok r ∧ Splitting n r := by
  refine ⟨_, lastFactor_eq h hpos hlt, ?_⟩
  have hprod := h.product
  have hm : 0 < m := by
    rcases Nat.eq_zero_or_pos m with hzero | hm
    · rw [hzero, Nat.mul_zero] at hprod
      omega
    · exact hm
  have hvals : ∀ f ∈ factors, 0 < f.val ∧ f.cnt ≤ n := by
    intro f hf
    obtain ⟨-, j, -, -, hj⟩ := h.tabled f hf
    have hprime := prime_of_index hj
    have hdvd : f.val ^ f.cnt ∣ n := by
      rw [← hprod]
      exact Dvd.dvd.mul_right (List.dvd_prod (List.mem_map_of_mem hf)) m
    have hle := Nat.le_of_dvd hpos hdvd
    have hexp : f.cnt < f.val ^ f.cnt := Nat.lt_pow_self hprime.one_lt
    exact ⟨hprime.pos, by omega⟩
  have hdivisors := h.divisors
  by_cases hempty : factors = []
  · rw [if_pos hempty]
    refine ⟨by simp [Factor.product], rfl, ?_, ?_⟩
    · intro f hf
      rw [List.mem_singleton.mp hf]
      exact hpos
    · intro f hf
      rw [List.mem_singleton.mp hf]
      exact hpos
  · rw [if_neg hempty]
    by_cases hone : 1 < m
    · rw [if_pos hone]
      refine ⟨?_, ?_, ?_, ?_⟩
      · rw [product_append, Nat.pow_one]
        exact hprod
      · rw [← hdivisors]
        simp [Factor.divisors]
      · intro f hf
        rcases List.mem_append.mp hf with hf | hf
        · exact (hvals f hf).1
        · rw [List.mem_singleton.mp hf]
          exact hm
      · intro f hf
        rcases List.mem_append.mp hf with hf | hf
        · exact (hvals f hf).2
        · rw [List.mem_singleton.mp hf]
          exact hpos
    · rw [if_neg hone]
      have hmone : m = 1 := by omega
      rw [hmone, Nat.mul_one] at hprod
      exact ⟨hprod, congrArg some hdivisors.symm, fun f hf => (hvals f hf).1,
        fun f hf => (hvals f hf).2⟩

theorem factor_returns (fuel : Nat) (hpos : 0 < n) (hlt : n < 2 ^ 31) :
    (∃ r, factor fuel n = .ok r ∧ Splitting n r) ∨ (fuel ≤ n ∧ factor fuel n = .error .fuel) := by
  rcases factor_cases fuel hpos hlt with ⟨m, fs, all, h, hr⟩ | hstop
  · rw [hr]
    exact .inl (splitting_of_divided h hpos hlt)
  · exact .inr hstop

theorem composite_untouched {t p q : Nat} (ht : primes[primeAbove (nRoot n)]? = some t)
    (h : Divided n (primeAbove (nRoot n) + 1) 0 m factors nall) (hp : p.Prime) (hq : q.Prime)
    (hpt : t < p) (hqt : t < q) (hpq : n = p * q) : factors = [] := by
  cases factors with
  | nil => rfl
  | cons f factors =>
    obtain ⟨hcnt, j, -, hlt, hj⟩ := h.tabled f List.mem_cons_self
    have hle := le_of_index hj ht (Nat.le_of_lt_succ hlt)
    have hprime := prime_of_index hj
    have hdvd : f.val ∣ p * q := by
      rw [← hpq, ← h.product]
      exact (Dvd.dvd.mul_right (Dvd.dvd.mul_right (dvd_pow_self f.val (by omega)) _) m)
    rcases hprime.dvd_mul.mp hdvd with hdp | hdq
    · have heq := (Nat.prime_dvd_prime_iff_eq hprime hp).mp hdp
      omega
    · have heq := (Nat.prime_dvd_prime_iff_eq hprime hq).mp hdq
      omega

theorem not_returns_of_composite (hn : 2 ≤ n) (hlt : n < 2 ^ 31) {p q : Nat} (hp : p.Prime)
    (hq : q.Prime) (hpt : tried n < p) (hqt : tried n < q) (hpq : n = p * q) :
    ¬ Returns (factor · n) (Factorisation n) := by
  intro ⟨bound, hreturns⟩
  obtain ⟨t, ht, -, -⟩ := tried_spec hlt
  rw [tried_eq ht] at hpt hqt
  obtain ⟨r, hr, hfactors⟩ := hreturns (max bound (n + 1)) (Nat.le_max_left _ _)
  rcases factor_cases (max bound (n + 1)) (show 0 < n by omega) hlt with
    ⟨m, fs, all, h, heq⟩ | ⟨hle, -⟩
  · have hempty : fs = [] := composite_untouched ht h hp hq hpt hqt hpq
    have hlast := lastFactor_eq h (by omega) hlt
    rw [if_pos hempty] at hlast
    have hsame := Except.ok.inj (hr.symm.trans (heq.trans hlast))
    have hprime : n.Prime := hfactors.primes ⟨n, 1⟩ (by rw [hsame]; exact List.mem_singleton_self _)
    rw [hpq] at hprime
    exact Nat.not_prime_mul hp.ne_one hq.ne_one hprime
  · omega

end Result

/-- `MPIR_Factor` returns the prime factorisation exactly when the number is not a product of two
primes that are both greater than all that are tried. -/
theorem factor_iff (n : Nat) (hn : 2 ≤ n) (hlt : n < 2 ^ 31) :
    Returns (factor · n) (Factorisation n) ↔
      ¬ ∃ p q, p.Prime ∧ q.Prime ∧ tried n < p ∧ tried n < q ∧ n = p * q := by
  constructor
  · rintro h ⟨p, q, hp, hq, hpt, hqt, hpq⟩
    exact not_returns_of_composite hn hlt hp hq hpt hqt hpq h
  · intro hnot
    obtain ⟨t, ht, hroot, -⟩ := tried_spec hlt
    rw [tried_eq ht] at hnot
    refine ⟨n + 1, fun fuel hfuel => ?_⟩
    show ∃ r, factor fuel n = .ok r ∧ _
    rcases factor_cases fuel (show 0 < n by omega) hlt with ⟨m, fs, all, h, hr⟩ | ⟨hle, -⟩
    · rw [hr]
      apply factorisation_of_divided hn hlt h
      by_contra hm
      rw [not_or] at hm
      have hmpos : 0 < m := by
        rcases Nat.eq_zero_or_pos m with hzero | hpos
        · have hprod := h.product
          rw [hzero, Nat.mul_zero] at hprod
          omega
        · exact hpos
      exact hnot (leftover_cases hn hroot ⟨product fs, by rw [Nat.mul_comm]; exact h.product.symm⟩
        (by omega) (fun q hq hdvd => leftover_free ht h hq hdvd) hm.2).2
    · omega

theorem factor_84 : Returns (factor · (84 : Nat)) (Factorisation 84) :=
  (factor_iff 84 (by decide) (by decide)).mpr (by
    have htried : tried 84 = 11 := by decide
    rw [htried]
    rintro ⟨p, q, -, -, hp, hq, hpq⟩
    have hmul := Nat.mul_le_mul hp hq
    omega)

theorem not_factor_361 : ¬ Returns (factor · (361 : Nat)) (Factorisation 361) :=
  not_returns_of_composite (p := 19) (q := 19) (by decide) (by decide) (by decide) (by decide)
    (by decide) (by decide) (by decide)

end FgMpi.Topo.Factor
