import FgMpi.Coll.Halving

/-! The plan of recursive halving. -/

namespace FgMpi.Coll.Halving
open Machine.Dialogues Buffers Machine.Bits Machine.Folds

section Groups
variable {α : Type} (op : α → α → α) (y : Nat → Nat → α) {k s t m i : Nat}

def group (k s : Nat) : Nat → α := fun i => fold op (fun t => y t i) (s / 2 ^ k * 2 ^ k) (2 ^ k - 1)

theorem group_zero : group op y 0 s = y s := by
  funext i
  rw [group, Nat.pow_zero, Nat.div_one, Nat.mul_one]
  rfl

theorem group_all (hs : s < 2 ^ m) : group op y m s = fun i => fold op (fun t => y t i) 0 (2 ^ m - 1) := by
  funext i
  rw [group, Nat.div_eq_of_lt hs, Nat.zero_mul]

theorem group_split [Std.Associative op] (hbit : s / 2 ^ k % 2 = 0) :
    group op y (k + 1) s i = op (group op y k s i) (group op y k (s ^^^ 2 ^ k) i) := by
  have hpos := Nat.two_pow_pos k
  have hpow : 2 ^ (k + 1) = 2 * 2 ^ k := Nat.pow_succ'
  have hdiv : s / 2 ^ (k + 1) * 2 ^ (k + 1) = s / 2 ^ k * 2 ^ k := by
    rw [Nat.pow_succ, ← Nat.div_div_eq_div_mul, ← Nat.mul_assoc, Nat.mul_right_comm]
    congr 1
    omega
  have hpeer : (s ^^^ 2 ^ k) / 2 ^ k = s / 2 ^ k + 1 := by
    rw [Nat.xor_div_two_pow, two_pow_div_mod.1, xor_one_even hbit]
  rw [group, group, group, hdiv, hpeer, Nat.succ_mul]
  have hsplit := fold_split op (x := fun t => y t i) (a := s / 2 ^ k * 2 ^ k)
    (b := s / 2 ^ k * 2 ^ k + 2 ^ k) (c := s / 2 ^ k * 2 ^ k + 2 ^ (k + 1)) (by omega) (by omega)
  have h1 : s / 2 ^ k * 2 ^ k + 2 ^ (k + 1) - s / 2 ^ k * 2 ^ k - 1 = 2 ^ (k + 1) - 1 := by omega
  have h2 : s / 2 ^ k * 2 ^ k + 2 ^ k - s / 2 ^ k * 2 ^ k - 1 = 2 ^ k - 1 := by omega
  have h3 : s / 2 ^ k * 2 ^ k + 2 ^ (k + 1) - (s / 2 ^ k * 2 ^ k + 2 ^ k) - 1 = 2 ^ k - 1 := by omega
  rw [h1, h2, h3] at hsplit
  exact hsplit

theorem group_split_high [Std.Associative op] (hbit : s / 2 ^ k % 2 = 1) :
    group op y (k + 1) s i = op (group op y k (s ^^^ 2 ^ k) i) (group op y k s i) := by
  have hpeer : (s ^^^ 2 ^ k) / 2 ^ k % 2 = 0 := by rw [xor_bit, hbit]
  have hsame : group op y (k + 1) s i = group op y (k + 1) (s ^^^ 2 ^ k) i := by
    rw [group, group, xor_div_above (Nat.lt_succ_self k)]
  rw [hsame, group_split op y hpeer, xor_xor]

theorem group_step [Std.Associative op] (hcomm : ∀ a b, op a b = op b a) :
    op (group op y k (s ^^^ 2 ^ k) i) (group op y k s i) = group op y (k + 1) s i := by
  rcases Nat.mod_two_eq_zero_or_one (s / 2 ^ k) with hbit | hbit
  · rw [group_split op y hbit, hcomm]
  · rw [group_split_high op y hbit]

end Groups

section Plan
variable {α : Type} (op : α → α → α) (y : Nat → Nat → α) (count m : Nat)

def partner (m k s : Nat) : Option Nat := if s < 2 ^ m then some (s ^^^ 2 ^ k) else none

def halvingAct (k : Nat) : Nat → Act Unit Nat (Nat × α) :=
  exchange () (partner m k) (partner m k)
    (fun s => slice (group op y k s) (windowOff count m (s ^^^ 2 ^ k) (k + 1))
      (windowLen count m (s ^^^ 2 ^ k) (k + 1)))
    fun s => (windowOff count m s (k + 1), windowLen count m s (k + 1))

variable {op y count m} {k s : Nat}

theorem partner_iff (hk : k < m) {p q : Nat} : partner m k p = some q ↔ partner m k q = some p := by
  have hsym : ∀ p q, partner m k p = some q → partner m k q = some p := by
    intro p q h
    unfold partner at h ⊢
    split at h
    · rename_i hp
      obtain rfl := Option.some.inj h
      rw [if_pos (xor_lt hp hk), xor_xor]
    · exact nomatch h
  exact ⟨hsym p q, hsym q p⟩

theorem halvingAct_agree (hk : k < m) : Agree (halvingAct op y count m k) :=
  exchange_agree fun _ _ => partner_iff hk

theorem halvingAct_outside (hs : ¬ s < 2 ^ m) : halvingAct op y count m k s = .idle :=
  exchange_idle (if_neg hs) (if_neg hs)

theorem halvingAct_eq (hs : s < 2 ^ m) : halvingAct op y count m k s =
    .comm [⟨(), s ^^^ 2 ^ k, slice (group op y k s) (windowOff count m (s ^^^ 2 ^ k) (k + 1))
        (windowLen count m (s ^^^ 2 ^ k) (k + 1))⟩]
      [⟨(), s ^^^ 2 ^ k, windowOff count m s (k + 1), windowLen count m s (k + 1),
        slice (group op y k (s ^^^ 2 ^ k)) (windowOff count m s (k + 1))
          (windowLen count m s (k + 1))⟩] := by
  have hpart : partner m k s = some (s ^^^ 2 ^ k) := if_pos hs
  rw [halvingAct, exchange_both hpart hpart, xor_xor]

def Holds (count m s k : Nat) (buf total : Nat → α) : Prop :=
  ∀ i, windowOff count m s k ≤ i → i < windowOff count m s k + windowLen count m s k → buf i = total i

variable {res : Option (Nat → α)} {act : Nat → Act Unit Nat (Nat × α)} {real dstOf : Nat → Nat}
variable {next : Nat → Nat → Nat → (Nat → α) → Prog Unit Nat (Nat × α) (Option (Nat → α))}
variable {rest : Nat → α} {base n : Nat}

theorem halvingSteps_follows [Std.Associative op] (hcomm : ∀ a b, op a b = op b a) (hs : s < 2 ^ m)
    (hreal : ∀ t < 2 ^ m, real t = dstOf t)
    (hact : ∀ k < m, act (base + k) = (halvingAct op y count m k s).rename real)
    (hnext : ∀ lastIdx buf, (0 < m → lastIdx = startAt m s (m - 1) + 2) →
      Holds count m s m buf (group op y m s) → (∀ i, count ≤ i → buf i = rest i) →
        Follows SameRange res (staged act (base + m) n) (next (2 ^ m) (startAt m s m) lastIdx buf))
    {fuel k : Nat} (hk : k ≤ m) (hfuel : m ≤ k + fuel) {lastIdx : Nat} {recvbuf tmpBuf : Nat → α}
    (hlast : k < m → lastIdx = startAt m s k + 2 ^ (m - k))
    (hend : k = m → 0 < m → lastIdx = startAt m s (m - 1) + 2)
    (hbuf : Holds count m s k recvbuf (group op y k s)) (hrest : ∀ i, count ≤ i → recvbuf i = rest i) :
    Follows SameRange res (staged act (base + k) (m - k + n))
      (halvingSteps op (cntsOf count (2 ^ m)) (dispsOf (cntsOf count (2 ^ m))) (2 ^ m) s dstOf next
        fuel (2 ^ k) (startAt m s k) (startAt m s k) lastIdx recvbuf tmpBuf) := by
  induction fuel generalizing k lastIdx recvbuf tmpBuf with
  | zero =>
    obtain rfl : k = m := by omega
    rw [Nat.sub_self, Nat.zero_add]
    exact hnext lastIdx recvbuf (hend rfl) hbuf hrest
  | succ fuel ih =>
    rw [halvingSteps]
    by_cases hlt : k < m
    · have hmask : 2 ^ k < 2 ^ m := Nat.pow_lt_pow_right Nat.one_lt_two hlt
      have hpeer : s ^^^ 2 ^ k < 2 ^ m := xor_lt hs hlt
      have hsub : m - k + n = m - (k + 1) + n + 1 := by omega
      have hthis := hact k hlt
      rw [halvingAct_eq hs] at hthis
      simp only [Act.rename, List.map_cons, List.map_nil] at hthis
      rw [if_pos hmask, hlast hlt, halve_eq count hlt, hsub, staged_send hthis]
      dsimp only [fetch]
      rw [dispsOf_get (startAt_lt hlt), dispsOf_get (startAt_lt hlt)]
      dsimp only
      have hmsg : slice (group op y k s) (windowOff count m (s ^^^ 2 ^ k) (k + 1))
          (windowLen count m (s ^^^ 2 ^ k) (k + 1)) =
            slice recvbuf (windowOff count m (s ^^^ 2 ^ k) (k + 1))
              (windowLen count m (s ^^^ 2 ^ k) (k + 1)) := by
        refine slice_congr fun i hlow hhigh => (hbuf i ?_ ?_).symm
        · have hin := (window_next hlt hlow hhigh).1
          rw [windowOff, startAt_xor (Nat.le_refl k)] at hin
          exact hin
        · have hin := (window_next hlt hlow hhigh).2
          rw [windowOff, windowLen, startAt_xor (Nat.le_refl k)] at hin
          exact hin
      rw [hmsg, hreal _ hpeer]
      refine follows_sendrecv ?_
      rw [store_slice, ← Nat.pow_succ']
      have hnew : (if 2 ^ (k + 1) < 2 ^ m then startAt m s (k + 1) + 2 ^ m / 2 ^ (k + 1)
          else startAt m s k + 2 ^ (m - k)) =
            if k + 1 < m then startAt m s (k + 1) + 2 ^ (m - (k + 1)) else startAt m s k + 2 ^ (m - k) := by
        by_cases hmore : k + 1 < m
        · rw [if_pos hmore, if_pos (Nat.pow_lt_pow_right Nat.one_lt_two hmore),
            Nat.pow_div (Nat.le_of_lt hmore) Nat.two_pos]
        · have hge : ¬ 2 ^ (k + 1) < 2 ^ m := Nat.not_lt.mpr (Nat.pow_le_pow_right Nat.two_pos (by omega))
          rw [if_neg hmore, if_neg hge]
      rw [hnew]
      have hmore : m ≤ k + 1 + fuel := by omega
      refine ih hlt hmore (fun h => if_pos h) (fun h hpos => ?_) (fun i hlow hhigh => ?_) fun i hi => ?_
      · have hprev : m - 1 = k := by omega
        have hone : m - k = 1 := by omega
        have hlastStep : ¬ k + 1 < m := by omega
        rw [if_neg hlastStep, hprev, hone, Nat.pow_one]
      · have hin := window_next hlt hlow hhigh
        change reduceLocal op _ recvbuf (windowOff count m s (k + 1)) _ i = _
        rw [reduceLocal, if_pos ⟨hlow, hhigh⟩, hbuf i hin.1 hin.2]
        rw [if_pos ⟨hlow, hhigh⟩]
        exact group_step op y hcomm
      · have hle : windowOff count m s (k + 1) + windowLen count m s (k + 1) ≤ count := window_le count
        change reduceLocal op _ recvbuf (windowOff count m s (k + 1)) _ i = _
        rw [reduceLocal, if_neg (by omega), hrest i hi]
    · obtain rfl : k = m := by omega
      rw [if_neg (Nat.lt_irrefl _), Nat.sub_self, Nat.zero_add]
      exact hnext lastIdx recvbuf (hend rfl) hbuf hrest

end Plan

section Back
variable {α : Type} {count m j s : Nat} {total : Nat → α}

theorem holds_merge {buf : Nat → α} (hj : j < m) (hown : Holds count m s (j + 1) buf total)
    (hother : Holds count m (s ^^^ 2 ^ j) (j + 1) buf total) : Holds count m s j buf total := by
  intro i hlow hhigh
  have htwice := twice_half hj
  have hsub : m - (j + 1) = m - j - 1 := by omega
  rw [windowOff_add] at hhigh
  have hmid : startAt m s j + 2 ^ (m - j - 1) + 2 ^ (m - j - 1) = startAt m s j + 2 ^ (m - j) := by omega
  unfold Holds at hown hother
  rw [windowOff_add, hsub] at hown hother
  unfold windowOff at hlow hown hother
  rcases Nat.mod_two_eq_zero_or_one (s / 2 ^ j) with hbit | hbit
  · rw [startAt_low hbit] at hown
    rw [startAt_peer_low hbit, hmid] at hother
    rcases Nat.lt_or_ge i (edge count m (startAt m s j + 2 ^ (m - j - 1))) with hlt | hge
    · exact hown i hlow hlt
    · exact hother i hge hhigh
  · rw [startAt_high hbit, hmid] at hown
    rw [startAt_peer_high hbit] at hother
    rcases Nat.lt_or_ge i (edge count m (startAt m s j + 2 ^ (m - j - 1))) with hlt | hge
    · exact hother i hlow hlt
    · exact hown i hge hhigh

theorem windows_apart {i : Nat} (hlow : windowOff count m s (j + 1) ≤ i)
    (hhigh : i < windowOff count m s (j + 1) + windowLen count m s (j + 1)) :
    ¬ (windowOff count m (s ^^^ 2 ^ j) (j + 1) ≤ i ∧
      i < windowOff count m (s ^^^ 2 ^ j) (j + 1) + windowLen count m (s ^^^ 2 ^ j) (j + 1)) := by
  have hsub : m - (j + 1) = m - j - 1 := by omega
  rw [windowOff_add, hsub] at hhigh ⊢
  unfold windowOff at hlow ⊢
  rcases Nat.mod_two_eq_zero_or_one (s / 2 ^ j) with hbit | hbit
  · rw [startAt_low hbit] at hhigh
    rw [startAt_peer_low hbit]
    omega
  · rw [startAt_high hbit] at hlow
    rw [startAt_peer_high hbit]
    omega

theorem holds_all {buf : Nat → α} (h : Holds count m s 0 buf total) : ∀ i < count, buf i = total i := by
  intro i hi
  refine h i ?_ ?_
  · rw [windowOff, startAt, edge_zero]
    exact Nat.zero_le _
  · rw [windowOff_add, startAt, Nat.zero_add, Nat.sub_zero, edge_end]
    exact hi

structure Back (count m : Nat) (total rest : Nat → α) (s k lastIdx : Nat) (buf : Nat → α) : Prop where
  last : 0 < k → lastIdx = if k = m then startAt m s (m - 1) + 2 else startAt m s k + 2 ^ (m - k)
  holds : Holds count m s k buf total
  rest : ∀ i, count ≤ i → buf i = rest i

variable {rest buf : Nat → α} {lastIdx : Nat}

theorem Back.message (h : Back count m total rest s (j + 1) lastIdx buf) :
    slice total (windowOff count m s (j + 1)) (windowLen count m s (j + 1)) =
      slice buf (windowOff count m s (j + 1)) (windowLen count m s (j + 1)) :=
  slice_congr fun i hlow hhigh => (h.holds i hlow hhigh).symm

theorem Back.merged (h : Back count m total rest s (j + 1) lastIdx buf) (hj : j < m) :
    Back count m total rest s j (startAt m s j + 2 ^ (m - j)) (store buf (windowOff count m (s ^^^ 2 ^ j) (j + 1))
      (slice total (windowOff count m (s ^^^ 2 ^ j) (j + 1)) (windowLen count m (s ^^^ 2 ^ j) (j + 1)))) := by
  rw [store_slice]
  refine ⟨fun _ => ?_, holds_merge hj (fun i hlow hhigh => ?_) fun i hlow hhigh => ?_, fun i hi => ?_⟩
  · rw [if_neg (Nat.ne_of_lt hj)]
  · rw [if_neg (windows_apart hlow hhigh)]
    exact h.holds i hlow hhigh
  · exact if_pos ⟨hlow, hhigh⟩
  · have hle : windowOff count m (s ^^^ 2 ^ j) (j + 1) + windowLen count m (s ^^^ 2 ^ j) (j + 1) ≤ count :=
      window_le count
    rw [if_neg (by omega), h.rest i hi]

end Back

section Pairs
variable {α : Type} (count rem : Nat) (x : Nat → Nat → α)

def toEven : Nat → Act Unit Nat (Nat × α) :=
  exchange () (fun p => if p < 2 * rem ∧ p % 2 ≠ 0 then some (p - 1) else none)
    (fun p => if p < 2 * rem ∧ p % 2 = 0 then some (p + 1) else none) (fun p => slice (x p) 0 count)
    fun _ => (0, count)

def toOdd : Nat → Act Unit Nat (Nat × α) :=
  exchange () (fun p => if p < 2 * rem ∧ p % 2 = 0 then some (p + 1) else none)
    (fun p => if p < 2 * rem ∧ p % 2 ≠ 0 then some (p - 1) else none) (fun p => slice (x p) 0 count)
    fun _ => (0, count)

variable {count rem x} {p q : Nat}

theorem neighbours : (if p < 2 * rem ∧ p % 2 ≠ 0 then some (p - 1) else none) = some q ↔
    (if q < 2 * rem ∧ q % 2 = 0 then some (q + 1) else none) = some p := by
  constructor
  · intro h
    split at h
    · obtain rfl := Option.some.inj h
      rw [if_pos (by omega)]
      congr 1
      omega
    · exact nomatch h
  · intro h
    split at h
    · obtain rfl := Option.some.inj h
      rw [if_pos (by omega)]
      congr 1
    · exact nomatch h

theorem toEven_agree : Agree (toEven count rem x) := exchange_agree fun _ _ => neighbours

theorem toOdd_agree : Agree (toOdd count rem x) := exchange_agree fun _ _ => neighbours.symm

theorem left_none (h : ¬ (p < 2 * rem ∧ p % 2 ≠ 0)) :
    (if p < 2 * rem ∧ p % 2 ≠ 0 then some (p - 1) else none) = none := if_neg h

theorem right_none (h : ¬ (p < 2 * rem ∧ p % 2 = 0)) :
    (if p < 2 * rem ∧ p % 2 = 0 then some (p + 1) else none) = none := if_neg h

theorem toEven_odd (h : p < 2 * rem) (hodd : p % 2 ≠ 0) :
    toEven count rem x p = .comm [⟨(), p - 1, slice (x p) 0 count⟩] [] :=
  exchange_send (if_pos ⟨h, hodd⟩) (right_none fun hand => hodd hand.2)

theorem toEven_even (h : p < 2 * rem) (heven : p % 2 = 0) :
    toEven count rem x p = .comm [] [⟨(), p + 1, 0, count, slice (x (p + 1)) 0 count⟩] :=
  exchange_recv (left_none fun hand => hand.2 heven) (if_pos ⟨h, heven⟩)

theorem toEven_other (h : ¬ p < 2 * rem) : toEven count rem x p = .idle :=
  exchange_idle (left_none fun hand => h hand.1) (right_none fun hand => h hand.1)

theorem toOdd_even (h : p < 2 * rem) (heven : p % 2 = 0) :
    toOdd count rem x p = .comm [⟨(), p + 1, slice (x p) 0 count⟩] [] :=
  exchange_send (if_pos ⟨h, heven⟩) (left_none fun hand => hand.2 heven)

theorem toOdd_odd (h : p < 2 * rem) (hodd : p % 2 ≠ 0) :
    toOdd count rem x p = .comm [] [⟨(), p - 1, 0, count, slice (x (p - 1)) 0 count⟩] :=
  exchange_recv (right_none fun hand => hodd hand.2) (if_pos ⟨h, hodd⟩)

theorem toOdd_other (h : ¬ p < 2 * rem) : toOdd count rem x p = .idle :=
  exchange_idle (right_none fun hand => h hand.1) (left_none fun hand => h hand.1)

theorem pairs_fold (op : α → α → α) [Std.Associative op] {commSize m : Nat} (hsum : 2 ^ m + rem = commSize)
    (hrem : rem < 2 ^ m) (z : Nat → α) :
    fold op (fun t => if t < rem then op (z (t * 2)) (z (t * 2 + 1)) else z (t + rem)) 0 (2 ^ m - 1) =
      fold op z 0 (commSize - 1) := by
  have hpos := Nat.two_pow_pos m
  obtain ⟨hfold, -⟩ := fold_blocks op (x := z) (a := 0) (n := 2 ^ m - 1)
    (y := fun t => if t < rem then op (z (t * 2)) (z (t * 2 + 1)) else z (t + rem))
    (fun s => if s < rem then s * 2 else s + rem) (fun s _ _ => by split <;> split <;> omega)
    (fun s _ _ => by
      by_cases hs : s < rem
      · have hnext : (if s + 1 < rem then (s + 1) * 2 else s + 1 + rem) - s * 2 - 1 = 1 := by
          split <;> omega
        rw [if_pos hs, if_pos hs, hnext]
        rfl
      · have hnext : (if s + 1 < rem then (s + 1) * 2 else s + 1 + rem) - (s + rem) - 1 = 0 := by
          split <;> omega
        rw [if_neg hs, if_neg hs, hnext]
        rfl)
  have hfirst : (if 0 < rem then 0 * 2 else 0 + rem) = 0 := by split <;> omega
  have hend : (if 0 + (2 ^ m - 1) + 1 < rem then (0 + (2 ^ m - 1) + 1) * 2
      else 0 + (2 ^ m - 1) + 1 + rem) = commSize := by
    split <;> omega
  rw [hfirst, hend] at hfold
  exact hfold

end Pairs

end FgMpi.Coll.Halving
