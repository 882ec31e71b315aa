import FgMpi.Coll.Buffers
import FgMpi.Machine.Bits
import FgMpi.Machine.Folds

/-! What `mpi/coll/reduce.c` and `mpi/coll/allreduce.c` have in common. -/

namespace FgMpi.Coll.Halving
open Machine.Dialogues Buffers Machine.Bits

/-- `pof2 = 1; while (pof2 <= comm_size) pof2 <<= 1; pof2 >>= 1;` -/
def pof2Loop (commSize : Nat) : Nat → Nat → Nat
  | 0, pof2 => pof2 / 2
  | fuel + 1, pof2 => if pof2 ≤ commSize then pof2Loop commSize fuel (2 * pof2) else pof2 / 2

def pof2Of (commSize : Nat) : Nat := pof2Loop commSize (commSize + 1) 1

def cntsOf (count pof2 : Nat) : List Nat :=
  (List.range pof2).map fun i => if i < pof2 - 1 then count / pof2 else count - count / pof2 * (pof2 - 1)

def dispsOf (cnts : List Nat) : List Nat := (List.range cnts.length).map fun i => (cnts.take i).sum

/-- `for (i=lo; i<hi; i++) cnt += cnts[i];` for the number of turns and the first index.  There is no
result if an index is outside the array. -/
def addCnts (cnts : List Nat) : Nat → Nat → Option Nat
  | 0, _ => some 0
  | turns + 1, i => do
    let cnt ← cnts[i]?
    let rest ← addCnts cnts turns (i + 1)
    return cnt + rest

def sumCnts (cnts : List Nat) (lo hi : Nat) : Option Nat := addCnts cnts (hi - lo) lo

structure Indices where
  sendIdx : Nat
  recvIdx : Nat
  lastIdx : Nat
  sendCnt : Nat
  recvCnt : Nat
deriving DecidableEq

section Indices
variable (cnts : List Nat) (pof2 newrank mask : Nat)

def halve (sendIdx recvIdx lastIdx : Nat) : Option Indices :=
  let newdst := newrank ^^^ mask
  if newrank < newdst then do
    let sendIdx := recvIdx + pof2 / (mask * 2)
    let sendCnt ← sumCnts cnts sendIdx lastIdx
    let recvCnt ← sumCnts cnts recvIdx sendIdx
    return ⟨sendIdx, recvIdx, lastIdx, sendCnt, recvCnt⟩
  else do
    let recvIdx := sendIdx + pof2 / (mask * 2)
    let sendCnt ← sumCnts cnts sendIdx recvIdx
    let recvCnt ← sumCnts cnts recvIdx lastIdx
    return ⟨sendIdx, recvIdx, lastIdx, sendCnt, recvCnt⟩

/-- A step of the gather or the allgather.  There is no result if an index becomes negative. -/
def merge (sendIdx lastIdx : Nat) : Option Indices :=
  let newdst := newrank ^^^ mask
  if newrank < newdst then do
    let lastIdx := if mask ≠ pof2 / 2 then lastIdx + pof2 / (mask * 2) else lastIdx
    let recvIdx := sendIdx + pof2 / (mask * 2)
    let sendCnt ← sumCnts cnts sendIdx recvIdx
    let recvCnt ← sumCnts cnts recvIdx lastIdx
    return ⟨sendIdx, recvIdx, lastIdx, sendCnt, recvCnt⟩
  else if pof2 / (mask * 2) ≤ sendIdx then do
    let recvIdx := sendIdx - pof2 / (mask * 2)
    let sendCnt ← sumCnts cnts sendIdx lastIdx
    let recvCnt ← sumCnts cnts recvIdx sendIdx
    return ⟨sendIdx, recvIdx, lastIdx, sendCnt, recvCnt⟩
  else none

end Indices

def fetch {C α β γ : Type} (x : Option β) (next : β → Prog C Nat (Nat × α) (Option γ)) :
    Prog C Nat (Nat × α) (Option γ) :=
  match x with
  | none => .done none
  | some b => next b

section Steps
variable {α : Type} (op : α → α → α) (cnts disps : List Nat) (pof2 newrank : Nat) (dstOf : Nat → Nat)

/-- The loop of the reduce-scatter; `dstOf` is the real rank of `newdst`.  The fuel is `pof2`. -/
def halvingSteps (next : Nat → Nat → Nat → (Nat → α) → Prog Unit Nat (Nat × α) (Option (Nat → α))) :
    Nat → Nat → Nat → Nat → Nat → (Nat → α) → (Nat → α) → Prog Unit Nat (Nat × α) (Option (Nat → α))
  | 0, mask, sendIdx, _, lastIdx, recvbuf, _ => next mask sendIdx lastIdx recvbuf
  | fuel + 1, mask, sendIdx, recvIdx, lastIdx, recvbuf, tmpBuf =>
    if mask < pof2 then
      let dst := dstOf (newrank ^^^ mask)
      fetch (halve cnts pof2 newrank mask sendIdx recvIdx lastIdx) fun x =>
      fetch disps[x.sendIdx]? fun sendOff =>
      fetch disps[x.recvIdx]? fun recvOff =>
      mpicSendrecv () dst recvbuf sendOff x.sendCnt dst tmpBuf recvOff x.recvCnt fun tmpBuf =>
        let recvbuf := reduceLocal op tmpBuf recvbuf recvOff x.recvCnt
        let mask := 2 * mask
        let lastIdx := if mask < pof2 then x.recvIdx + pof2 / mask else x.lastIdx
        halvingSteps next fuel mask x.recvIdx x.recvIdx lastIdx recvbuf tmpBuf
    else next mask sendIdx lastIdx recvbuf

end Steps

theorem pof2Loop_eq {commSize m : Nat} (hlow : 2 ^ m ≤ commSize) (hhigh : commSize < 2 ^ (m + 1))
    {fuel k : Nat} (hk : k ≤ m + 1) (hfuel : m + 1 ≤ k + fuel) :
    pof2Loop commSize fuel (2 ^ k) = 2 ^ m := by
  induction fuel generalizing k with
  | zero =>
    obtain rfl : k = m + 1 := by omega
    rw [pof2Loop, Nat.pow_succ, Nat.mul_div_cancel _ Nat.two_pos]
  | succ fuel ih =>
    rw [pof2Loop]
    by_cases hlt : k < m + 1
    · have hle : 2 ^ k ≤ 2 ^ m := Nat.pow_le_pow_right Nat.two_pos (by omega)
      rw [if_pos (by omega), ← Nat.pow_succ']
      exact ih (by omega) (by omega)
    · obtain rfl : k = m + 1 := by omega
      rw [if_neg (by omega), Nat.pow_succ, Nat.mul_div_cancel _ Nat.two_pos]

theorem pof2Of_eq {commSize m : Nat} (hlow : 2 ^ m ≤ commSize) (hhigh : commSize < 2 ^ (m + 1)) :
    pof2Of commSize = 2 ^ m := by
  have hm : m < 2 ^ m := Nat.lt_two_pow_self
  exact pof2Loop_eq (k := 0) hlow hhigh (Nat.zero_le _) (by omega)

section Counts
variable {count m i lo hi : Nat}

def edge (count m i : Nat) : Nat := if i < 2 ^ m then i * (count / 2 ^ m) else count

theorem edge_le (count m i : Nat) : edge count m i ≤ count := by
  unfold edge
  split
  · rename_i h
    exact (Nat.mul_le_mul_right _ (Nat.le_of_lt h)).trans (Nat.mul_div_le count (2 ^ m))
  · exact Nat.le_refl _

theorem edge_mono (h : lo ≤ hi) : edge count m lo ≤ edge count m hi := by
  by_cases hhi : hi < 2 ^ m
  · rw [edge, edge, if_pos hhi, if_pos (by omega)]
    exact Nat.mul_le_mul_right _ h
  · have hend : edge count m hi = count := if_neg hhi
    rw [hend]
    exact edge_le ..

theorem edge_zero : edge count m 0 = 0 := by
  rw [edge, if_pos (Nat.two_pow_pos m), Nat.zero_mul]

theorem edge_end : edge count m (2 ^ m) = count := if_neg (Nat.lt_irrefl _)

theorem length_cntsOf (count pof2 : Nat) : (cntsOf count pof2).length = pof2 := by
  rw [cntsOf, List.length_map, List.length_range]

theorem cntsOf_get (h : i < 2 ^ m) :
    (cntsOf count (2 ^ m))[i]? = some (edge count m (i + 1) - edge count m i) := by
  rw [cntsOf, List.getElem?_map, List.getElem?_range h, Option.map_some]
  congr 1
  have hthis : edge count m i = i * (count / 2 ^ m) := if_pos h
  rw [hthis]
  by_cases hlast : i < 2 ^ m - 1
  · have hnext : edge count m (i + 1) = (i + 1) * (count / 2 ^ m) := if_pos (by omega)
    rw [if_pos hlast, hnext, Nat.succ_mul, Nat.add_sub_cancel_left]
  · have hnext : edge count m (i + 1) = count := if_neg (by omega)
    have hi : 2 ^ m - 1 = i := by omega
    rw [if_neg hlast, hnext, hi, Nat.mul_comm]

theorem addCnts_eq {turns : Nat} (h : i + turns ≤ 2 ^ m) :
    addCnts (cntsOf count (2 ^ m)) turns i = some (edge count m (i + turns) - edge count m i) := by
  induction turns generalizing i with
  | zero => rw [addCnts, Nat.add_zero, Nat.sub_self]
  | succ turns ih =>
    rw [addCnts, cntsOf_get (by omega), ih (by omega)]
    change some _ = some _
    have h1 := @edge_mono count m i (i + 1) (by omega)
    have h2 := @edge_mono count m (i + 1) (i + 1 + turns) (by omega)
    have hsum : i + (turns + 1) = i + 1 + turns := by omega
    rw [hsum]
    congr 1
    omega

theorem sumCnts_eq (hle : lo ≤ hi) (hhi : hi ≤ 2 ^ m) :
    sumCnts (cntsOf count (2 ^ m)) lo hi = some (edge count m hi - edge count m lo) := by
  have hsum : lo + (hi - lo) = hi := by omega
  rw [sumCnts, addCnts_eq (by omega), hsum]

theorem sum_take_cnts (h : i ≤ 2 ^ m) : ((cntsOf count (2 ^ m)).take i).sum = edge count m i := by
  induction i with
  | zero => rw [List.take_zero, List.sum_nil, edge_zero]
  | succ i ih =>
    have hmono := @edge_mono count m i (i + 1) (Nat.le_succ i)
    rw [List.take_add_one, cntsOf_get (by omega), Option.toList_some, List.sum_append, ih (by omega),
      List.sum_singleton]
    omega

theorem dispsOf_get (h : i < 2 ^ m) : (dispsOf (cntsOf count (2 ^ m)))[i]? = some (edge count m i) := by
  rw [dispsOf, length_cntsOf, List.getElem?_map, List.getElem?_range h, Option.map_some,
    sum_take_cnts (Nat.le_of_lt h)]

end Counts

section Windows
variable {m s t j k : Nat}

/-- The first part that is left to a process after `k` steps; there are `2 ^ (m - k)`. -/
def startAt (m s : Nat) : Nat → Nat
  | 0 => 0
  | k + 1 => startAt m s k + s / 2 ^ k % 2 * 2 ^ (m - k - 1)

theorem half_eq (h : k < m) : 2 ^ m / (2 ^ k * 2) = 2 ^ (m - k - 1) := by
  rw [← Nat.pow_succ, Nat.pow_div (by omega) Nat.two_pos]
  congr 1

theorem twice_half (h : k < m) : 2 ^ (m - k) = 2 ^ (m - k - 1) + 2 ^ (m - k - 1) := by
  have hsucc : 2 ^ (m - k) = 2 ^ (m - k - 1 + 1) := by
    congr 1
    omega
  rw [hsucc, Nat.pow_succ, Nat.mul_two]

theorem startAt_end (h : k ≤ m) : startAt m s k + 2 ^ (m - k) ≤ 2 ^ m := by
  induction k with
  | zero => rw [startAt, Nat.zero_add, Nat.sub_zero]
  | succ k ih =>
    have hprev := ih (by omega)
    have htwice := @twice_half m k (by omega)
    have hsub : m - (k + 1) = m - k - 1 := by omega
    have hbit : s / 2 ^ k % 2 * 2 ^ (m - k - 1) ≤ 1 * 2 ^ (m - k - 1) :=
      Nat.mul_le_mul_right _ (by omega)
    rw [startAt, hsub]
    omega

theorem startAt_lt (h : k ≤ m) : startAt m s k < 2 ^ m := by
  have hend := @startAt_end m s k h
  have hpos := Nat.two_pow_pos (m - k)
  omega

theorem startAt_zero (m k : Nat) : startAt m 0 k = 0 := by
  induction k with
  | zero => rfl
  | succ k ih => rw [startAt, ih, Nat.zero_div, Nat.zero_mod, Nat.zero_mul]

theorem startAt_xor (h : j ≤ k) : startAt m (s ^^^ 2 ^ k) j = startAt m s j := by
  induction j with
  | zero => rfl
  | succ j ih =>
    have hbit : (s ^^^ 2 ^ k) / 2 ^ j % 2 = s / 2 ^ j % 2 := by
      rw [← Nat.mod_mul_right_div_self, ← Nat.mod_mul_right_div_self, ← Nat.pow_succ, xor_mod_below h]
    rw [startAt, startAt, ih (by omega), hbit]

theorem startAt_low (h : s / 2 ^ k % 2 = 0) : startAt m s (k + 1) = startAt m s k := by
  rw [startAt, h, Nat.zero_mul, Nat.add_zero]

theorem startAt_high (h : s / 2 ^ k % 2 = 1) : startAt m s (k + 1) = startAt m s k + 2 ^ (m - k - 1) := by
  rw [startAt, h, Nat.one_mul]

theorem startAt_peer_low (h : s / 2 ^ k % 2 = 0) :
    startAt m (s ^^^ 2 ^ k) (k + 1) = startAt m s k + 2 ^ (m - k - 1) := by
  have hbit : (s ^^^ 2 ^ k) / 2 ^ k % 2 = 1 := by rw [xor_bit, h]
  rw [startAt_high hbit, startAt_xor (Nat.le_refl k)]

theorem startAt_peer_high (h : s / 2 ^ k % 2 = 1) : startAt m (s ^^^ 2 ^ k) (k + 1) = startAt m s k := by
  have hbit : (s ^^^ 2 ^ k) / 2 ^ k % 2 = 0 := by rw [xor_bit, h]
  rw [startAt_low hbit, startAt_xor (Nat.le_refl k)]

def windowOff (count m s k : Nat) : Nat := edge count m (startAt m s k)

def windowLen (count m s k : Nat) : Nat :=
  edge count m (startAt m s k + 2 ^ (m - k)) - edge count m (startAt m s k)

theorem windowOff_add (count : Nat) :
    windowOff count m s k + windowLen count m s k = edge count m (startAt m s k + 2 ^ (m - k)) := by
  have hmono := @edge_mono count m (startAt m s k) (startAt m s k + 2 ^ (m - k)) (Nat.le_add_right _ _)
  rw [windowOff, windowLen]
  omega

theorem window_le (count : Nat) : windowOff count m s k + windowLen count m s k ≤ count := by
  rw [windowOff_add]
  exact edge_le ..

theorem window_next {count i : Nat} (h : k < m) (hlow : windowOff count m s (k + 1) ≤ i)
    (hhigh : i < windowOff count m s (k + 1) + windowLen count m s (k + 1)) :
    windowOff count m s k ≤ i ∧ i < windowOff count m s k + windowLen count m s k := by
  rw [windowOff_add] at hhigh ⊢
  unfold windowOff at hlow ⊢
  have hpos := Nat.two_pow_pos (m - k - 1)
  have htwice := twice_half h
  have hsub : m - (k + 1) = m - k - 1 := by omega
  rw [hsub] at hhigh
  have hstart : startAt m s k ≤ startAt m s (k + 1) := Nat.le_add_right _ _
  have hend : startAt m s (k + 1) + 2 ^ (m - k - 1) ≤ startAt m s k + 2 ^ (m - k) := by
    rcases Nat.mod_two_eq_zero_or_one (s / 2 ^ k) with hbit | hbit
    · rw [startAt_low hbit]
      omega
    · rw [startAt_high hbit]
      omega
  have h1 := @edge_mono count m _ _ hstart
  have h2 := @edge_mono count m _ _ hend
  omega

theorem halve_eq (count : Nat) (h : k < m) :
    halve (cntsOf count (2 ^ m)) (2 ^ m) s (2 ^ k) (startAt m s k) (startAt m s k)
      (startAt m s k + 2 ^ (m - k)) =
        some ⟨startAt m (s ^^^ 2 ^ k) (k + 1), startAt m s (k + 1), startAt m s k + 2 ^ (m - k),
          windowLen count m (s ^^^ 2 ^ k) (k + 1), windowLen count m s (k + 1)⟩ := by
  have hpos := Nat.two_pow_pos (m - k - 1)
  have htwice := twice_half h
  have hend := @startAt_end m s k (Nat.le_of_lt h)
  have hsub : m - (k + 1) = m - k - 1 := by omega
  have hlast : startAt m s k + 2 ^ (m - k - 1) + 2 ^ (m - k - 1) = startAt m s k + 2 ^ (m - k) := by omega
  unfold windowLen
  rw [hsub, halve]
  dsimp only
  rw [half_eq h]
  rcases Nat.mod_two_eq_zero_or_one (s / 2 ^ k) with hbit | hbit
  · rw [if_pos (lt_xor.mpr hbit), startAt_low hbit, startAt_peer_low hbit, hlast,
      sumCnts_eq (by omega) (by omega), sumCnts_eq (by omega) (by omega)]
    rfl
  · have hnot : ¬ s < s ^^^ 2 ^ k := fun hlt => by
      rw [lt_xor, hbit] at hlt
      exact nomatch hlt
    rw [if_neg hnot, startAt_high hbit, startAt_peer_high hbit, hlast,
      sumCnts_eq (by omega) (by omega), sumCnts_eq (by omega) (by omega)]
    rfl

theorem merge_eq (count : Nat) (h : j < m) {lastIdx : Nat}
    (hlastIdx : lastIdx =
      if j + 1 = m then startAt m s (m - 1) + 2 else startAt m s (j + 1) + 2 ^ (m - (j + 1))) :
    merge (cntsOf count (2 ^ m)) (2 ^ m) s (2 ^ j) (startAt m s (j + 1)) lastIdx =
      some ⟨startAt m s (j + 1), startAt m (s ^^^ 2 ^ j) (j + 1), startAt m s j + 2 ^ (m - j),
        windowLen count m s (j + 1), windowLen count m (s ^^^ 2 ^ j) (j + 1)⟩ := by
  have hpos := Nat.two_pow_pos (m - j - 1)
  have htwice := twice_half h
  have hend := @startAt_end m s j (Nat.le_of_lt h)
  have hsub : m - (j + 1) = m - j - 1 := by omega
  have hall : startAt m s j + 2 ^ (m - j - 1) + 2 ^ (m - j - 1) = startAt m s j + 2 ^ (m - j) := by omega
  have hfirst : 2 ^ j ≠ 2 ^ m / 2 ↔ j + 1 ≠ m := by
    obtain ⟨d, rfl⟩ : ∃ d, m = d + 1 := ⟨m - 1, by omega⟩
    rw [Nat.pow_succ, Nat.mul_div_cancel _ Nat.two_pos, ne_eq, Nat.pow_right_inj (Nat.le_refl 2)]
    omega
  have hlast : lastIdx = if j + 1 = m then startAt m s j + 2 ^ (m - j)
      else startAt m s (j + 1) + 2 ^ (m - (j + 1)) := by
    rw [hlastIdx]
    by_cases htop : j + 1 = m
    · have hprev : m - 1 = j := by omega
      have hone : m - j = 1 := by omega
      rw [if_pos htop, if_pos htop, hprev, hone, Nat.pow_one]
    · rw [if_neg htop, if_neg htop]
  unfold windowLen
  rw [hsub, merge]
  dsimp only
  rw [half_eq h]
  rcases Nat.mod_two_eq_zero_or_one (s / 2 ^ j) with hbit | hbit
  · have hnew : (if 2 ^ j ≠ 2 ^ m / 2 then lastIdx + 2 ^ (m - j - 1) else lastIdx) =
        startAt m s j + 2 ^ (m - j) := by
      rw [startAt_low hbit, hsub] at hlast
      by_cases htop : j + 1 = m
      · rw [if_neg fun hand => hfirst.mp hand htop, hlast, if_pos htop]
      · rw [if_pos (hfirst.mpr htop), hlast, if_neg htop, hall]
    rw [if_pos (lt_xor.mpr hbit), hnew, startAt_low hbit, startAt_peer_low hbit, hall,
      sumCnts_eq (by omega) (by omega), sumCnts_eq (by omega) (by omega)]
    rfl
  · have hnot : ¬ s < s ^^^ 2 ^ j := fun hlt => by
      rw [lt_xor, hbit] at hlt
      exact nomatch hlt
    have hnew : lastIdx = startAt m s j + 2 ^ (m - j) := by
      rw [startAt_high hbit, hsub, hall, ite_self] at hlast
      exact hlast
    have hback : startAt m s j + 2 ^ (m - j - 1) - 2 ^ (m - j - 1) = startAt m s j := Nat.add_sub_cancel ..
    rw [if_neg hnot, startAt_high hbit, startAt_peer_high hbit, if_pos (Nat.le_add_left _ _), hback, hnew,
      hall, sumCnts_eq (by omega) (by omega), sumCnts_eq (by omega) (by omega)]
    rfl

theorem merged_start : (if s > s ^^^ 2 ^ j then startAt m (s ^^^ 2 ^ j) (j + 1) else startAt m s (j + 1)) =
    startAt m s j := by
  rcases Nat.mod_two_eq_zero_or_one (s / 2 ^ j) with hbit | hbit
  · have := lt_xor.mpr hbit
    rw [if_neg (by omega), startAt_low hbit]
  · have hhigh := xor_high hbit
    have hle := pow_le_of_high hbit
    have hpos := Nat.two_pow_pos j
    rw [if_pos (by omega), startAt_peer_high hbit]

end Windows

end FgMpi.Coll.Halving
