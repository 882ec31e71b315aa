import FgMpi.Coll.Allreduce
import FgMpi.Coll.HalvingPlan

/-! The plan of a reduction to all ranks. -/

namespace FgMpi.Coll.Allreduce
open Machine.Dialogues Machine.Bits Machine.Folds Buffers Halving

section Results
variable {α : Type} (op : α → α → α) (commSize count : Nat) (args : Nat → Args α)

def input (rank : Nat) : Nat → α :=
  if (args rank).inPlace = true then (args rank).recvbuf else (args rank).sendbuf

def result (rank : Nat) : Option (Nat → α) :=
  some fun i =>
    if i < count then fold op (fun r => input args r i) 0 (commSize - 1) else (args rank).recvbuf i

end Results

section Doubling
variable {α : Type} (op : α → α → α) (y : Nat → Nat → α) (count m : Nat)

def doublingAct (k : Nat) : Nat → Act Unit Nat (Nat × α) :=
  exchange () (partner m k) (partner m k) (fun s => slice (group op y k s) 0 count) fun _ => (0, count)

variable {op y count m} {k s rank rem base n : Nat} {res : Option (Nat → α)}
variable {act : Nat → Act Unit Nat (Nat × α)} {next : (Nat → α) → RankProg α} {rest : Nat → α}

theorem doublingAct_agree (hk : k < m) : Agree (doublingAct op y count m k) :=
  exchange_agree fun _ _ => partner_iff hk

theorem doublingAct_outside (hs : ¬ s < 2 ^ m) : doublingAct op y count m k s = .idle :=
  exchange_idle (if_neg hs) (if_neg hs)

theorem doublingAct_eq (hs : s < 2 ^ m) : doublingAct op y count m k s =
    .comm [⟨(), s ^^^ 2 ^ k, slice (group op y k s) 0 count⟩]
      [⟨(), s ^^^ 2 ^ k, 0, count, slice (group op y k (s ^^^ 2 ^ k)) 0 count⟩] := by
  have hpart : partner m k s = some (s ^^^ 2 ^ k) := if_pos hs
  rw [doublingAct, exchange_both hpart hpart]

theorem realRank_lt {t : Nat} : realRank rem t < realRank rem s ↔ t < s := by
  unfold realRank
  split <;> split <;> omega

theorem doublingSteps_follows [Std.Associative op] {isCommutative : Bool}
    (hcomm : isCommutative = true → ∀ a b, op a b = op b a) (hs : s < 2 ^ m) (hrank : realRank rem s = rank)
    (hact : ∀ k < m, act (base + k) = (doublingAct op y count m k s).rename (realRank rem))
    (hnext : ∀ buf, (∀ i < count, buf i = group op y m s i) → (∀ i, count ≤ i → buf i = rest i) →
      Follows SameRange res (staged act (base + m) n) (next buf))
    {fuel k : Nat} (hk : k ≤ m) (hfuel : m ≤ k + fuel) {recvbuf tmpBuf : Nat → α}
    (hbuf : ∀ i < count, recvbuf i = group op y k s i) (hrest : ∀ i, count ≤ i → recvbuf i = rest i) :
    Follows SameRange res (staged act (base + k) (m - k + n))
      (doublingSteps op isCommutative rank count rem (2 ^ m) s next fuel (2 ^ k) recvbuf tmpBuf) := by
  induction fuel generalizing k recvbuf tmpBuf with
  | zero =>
    obtain rfl : k = m := by omega
    rw [Nat.sub_self, Nat.zero_add]
    exact hnext recvbuf hbuf hrest
  | succ fuel ih =>
    rw [doublingSteps]
    by_cases hlt : k < m
    · have hthis := hact k hlt
      rw [doublingAct_eq hs] at hthis
      simp only [Act.rename, List.map_cons, List.map_nil] at hthis
      have hsub : m - k + n = m - (k + 1) + n + 1 := by omega
      have hmsg : slice (group op y k s) 0 count = slice recvbuf 0 count :=
        slice_congr fun i _ hi => (hbuf i (by omega)).symm
      have hin : ∀ i < count, 0 ≤ i ∧ i < 0 + count := fun i hi => ⟨Nat.zero_le _, by omega⟩
      have hout : ∀ i, count ≤ i → ¬ (0 ≤ i ∧ i < 0 + count) := fun i hi h => by omega
      have hmore : m ≤ k + 1 + fuel := by omega
      rw [if_pos (Nat.pow_lt_pow_right Nat.one_lt_two hlt), hsub, staged_send hthis, hmsg]
      refine follows_sendrecv ?_
      rw [store_slice, ← Nat.pow_succ']
      by_cases hflag : isCommutative = true ∨ realRank rem (s ^^^ 2 ^ k) < rank
      · -- the order does not matter, or it is already right
        have hnew : ∀ i, op (group op y k (s ^^^ 2 ^ k) i) (group op y k s i) = group op y (k + 1) s i := by
          intro i
          rcases hflag with hflag | horder
          · exact group_step op y (hcomm hflag)
          · rw [← hrank, realRank_lt] at horder
            have hbit : s / 2 ^ k % 2 = 1 := by
              rcases Nat.mod_two_eq_zero_or_one (s / 2 ^ k) with hzero | hone
              · have := lt_xor.mpr hzero
                omega
              · exact hone
            exact (group_split_high op y hbit).symm
        rw [if_pos hflag]
        refine ih hlt hmore (fun i hi => ?_) fun i hi => ?_
        · rw [reduceLocal, if_pos (hin i hi), if_pos (hin i hi), hbuf i hi, hnew]
        · rw [reduceLocal, if_neg (hout i hi), hrest i hi]
      · have hbit : s / 2 ^ k % 2 = 0 := by
          rcases Nat.mod_two_eq_zero_or_one (s / 2 ^ k) with hzero | hone
          · exact hzero
          · have hhigh := xor_high hone
            have hle := pow_le_of_high hone
            have hpos := Nat.two_pow_pos k
            refine absurd (.inr ?_) hflag
            rw [← hrank, realRank_lt]
            omega
        rw [if_neg hflag]
        refine ih hlt hmore (fun i hi => ?_) fun i hi => ?_
        · rw [localcopy, if_pos hi, reduceLocal, if_pos (hin i hi), if_pos (hin i hi), hbuf i hi]
          exact (group_split op y hbit).symm
        · rw [localcopy, if_neg (Nat.not_lt.mpr hi), hrest i hi]
    · obtain rfl : k = m := by omega
      rw [if_neg (Nat.lt_irrefl _), Nat.sub_self, Nat.zero_add]
      exact hnext recvbuf hbuf hrest

end Doubling

section Allgather
variable {α : Type} (count m : Nat) (total : Nat → α)

def allgatherAct (j : Nat) : Nat → Act Unit Nat (Nat × α) :=
  exchange () (partner m j) (partner m j)
    (fun s => slice total (windowOff count m s (j + 1)) (windowLen count m s (j + 1)))
    fun s => (windowOff count m (s ^^^ 2 ^ j) (j + 1), windowLen count m (s ^^^ 2 ^ j) (j + 1))

variable {count m total} {j s rem base n : Nat} {res : Option (Nat → α)}
variable {act : Nat → Act Unit Nat (Nat × α)} {next : (Nat → α) → RankProg α} {rest : Nat → α}

theorem allgatherAct_agree (hj : j < m) : Agree (allgatherAct count m total j) :=
  exchange_agree fun _ _ => partner_iff hj

theorem allgatherAct_outside (hs : ¬ s < 2 ^ m) : allgatherAct count m total j s = .idle :=
  exchange_idle (if_neg hs) (if_neg hs)

theorem allgatherAct_eq (hs : s < 2 ^ m) : allgatherAct count m total j s =
    .comm [⟨(), s ^^^ 2 ^ j, slice total (windowOff count m s (j + 1)) (windowLen count m s (j + 1))⟩]
      [⟨(), s ^^^ 2 ^ j, windowOff count m (s ^^^ 2 ^ j) (j + 1), windowLen count m (s ^^^ 2 ^ j) (j + 1),
        slice total (windowOff count m (s ^^^ 2 ^ j) (j + 1)) (windowLen count m (s ^^^ 2 ^ j) (j + 1))⟩] := by
  have hpart : partner m j s = some (s ^^^ 2 ^ j) := if_pos hs
  rw [allgatherAct, exchange_both hpart hpart]

theorem allgatherSteps_follows (hs : s < 2 ^ m)
    (hact : ∀ d < m, act (base + d) = (allgatherAct count m total (m - 1 - d) s).rename (realRank rem))
    (hnext : ∀ buf, (∀ i < count, buf i = total i) → (∀ i, count ≤ i → buf i = rest i) →
      Follows SameRange res (staged act (base + m) n) (next buf))
    {fuel k : Nat} (hk : k ≤ m) (hfuel : k ≤ fuel) {lastIdx : Nat} {recvbuf : Nat → α}
    (hback : Back count m total rest s k lastIdx recvbuf) :
    Follows SameRange res (staged act (base + (m - k)) (k + n))
      (allgatherSteps rem (2 ^ m) s (cntsOf count (2 ^ m)) (dispsOf (cntsOf count (2 ^ m))) next
        fuel (2 ^ k / 2) (startAt m s k) lastIdx recvbuf) := by
  induction fuel generalizing k lastIdx recvbuf with
  | zero =>
    obtain rfl : k = 0 := by omega
    rw [Nat.sub_zero, Nat.zero_add]
    exact hnext recvbuf (holds_all hback.holds) hback.rest
  | succ fuel ih =>
    rw [allgatherSteps]
    cases k with
    | zero =>
      rw [if_neg (by decide), Nat.sub_zero, Nat.zero_add]
      exact hnext recvbuf (holds_all hback.holds) hback.rest
    | succ j =>
      have hj : j < m := hk
      have hmask : 2 ^ (j + 1) / 2 = 2 ^ j := by rw [Nat.pow_succ, Nat.mul_div_cancel _ Nat.two_pos]
      have hthis := hact (m - (j + 1)) (by omega)
      have hlevel : m - 1 - (m - (j + 1)) = j := by omega
      have hturns : j + 1 + n = j + n + 1 := by omega
      have hstep : base + (m - (j + 1)) + 1 = base + (m - j) := by omega
      rw [hlevel, allgatherAct_eq hs] at hthis
      simp only [Act.rename, List.map_cons, List.map_nil] at hthis
      have hown : (dispsOf (cntsOf count (2 ^ m)))[startAt m s (j + 1)]? =
          some (windowOff count m s (j + 1)) := dispsOf_get (startAt_lt hk)
      have hother : (dispsOf (cntsOf count (2 ^ m)))[startAt m (s ^^^ 2 ^ j) (j + 1)]? =
          some (windowOff count m (s ^^^ 2 ^ j) (j + 1)) := dispsOf_get (startAt_lt hk)
      rw [hmask, if_pos (Nat.two_pow_pos j), merge_eq count hj (hback.last (Nat.succ_pos j))]
      dsimp only [fetch]
      rw [hown, hother, hturns, staged_send hthis, hback.message]
      refine follows_sendrecv ?_
      rw [merged_start, hstep]
      exact ih (by omega) (by omega) (hback.merged hj)

end Allgather

section Ranks
variable {commSize rem m p s : Nat}

def newRank (commSize rem p : Nat) : Option Nat :=
  if p < 2 * rem then if p % 2 = 0 then none else some (p / 2)
  else if p < commSize then some (p - rem)
  else none

theorem newRank_some (hsum : 2 ^ m + rem = commSize) (hrem : rem < 2 ^ m) (h : newRank commSize rem p = some s) :
    s < 2 ^ m ∧ realRank rem s = p := by
  unfold newRank at h
  split at h
  · split at h
    · exact nomatch h
    · obtain rfl := Option.some.inj h
      refine ⟨by omega, ?_⟩
      rw [realRank, if_pos (by omega)]
      omega
  · split at h
    · obtain rfl := Option.some.inj h
      refine ⟨by omega, ?_⟩
      rw [realRank, if_neg (by omega)]
      omega
    · exact nomatch h

theorem newRank_real (hsum : 2 ^ m + rem = commSize) (hs : s < 2 ^ m) :
    newRank commSize rem (realRank rem s) = some s := by
  unfold realRank
  split
  · rw [newRank, if_pos (by omega), if_neg (by omega)]
    congr 1
    omega
  · rw [newRank, if_neg (by omega), if_pos (by omega), Nat.add_sub_cancel]

end Ranks

section Plan
variable {α : Type} (op : α → α → α) (short : Prop) [Decidable short] (commSize count m rem : Nat)
variable (x : Nat → Nat → α)

def paired (s : Nat) : Nat → α := fun i =>
  if s < rem then op (x (s * 2) i) (x (s * 2 + 1) i) else x (s + rem) i

def wholeOf : Nat → α := fun i => fold op (fun t => paired op rem x t i) 0 (2 ^ m - 1)

def allreduceAct (p k : Nat) : Act Unit Nat (Nat × α) :=
  if k = 0 then toOdd count rem x p
  else if k < 1 + m then
    if short then playing (newRank commSize rem) (realRank rem) (doublingAct op (paired op rem x) count m (k - 1)) p
    else playing (newRank commSize rem) (realRank rem) (halvingAct op (paired op rem x) count m (k - 1)) p
  else if k < 1 + m + m then
    if short then .idle
    else
      playing (newRank commSize rem) (realRank rem)
        (allgatherAct count m (wholeOf op m rem x) (m - 1 - (k - (1 + m)))) p
  else toEven count rem (fun _ => wholeOf op m rem x) p

variable {op short commSize count m rem x}

theorem wholeOf_eq [Std.Associative op] (hsum : 2 ^ m + rem = commSize) (hrem : rem < 2 ^ m) (i : Nat) :
    wholeOf op m rem x i = fold op (fun r => x r i) 0 (commSize - 1) :=
  pairs_fold op hsum hrem fun r => x r i

theorem allreduce_plan (hsum : 2 ^ m + rem = commSize) (hrem : rem < 2 ^ m) :
    Plan (Finset.range commSize) (fun _ : Unit => Finset.range commSize) fun p =>
      staged (allreduceAct op short commSize count m rem x p) 0 (m + (m + 1) + 1) := by
  refine staged_plan (fun k hk => ?_) (fun p k c mine needs h => ?_) fun p hp k _ => ?_
  · unfold allreduceAct
    by_cases h0 : k = 0
    · simp only [if_pos h0]
      exact toOdd_agree
    · simp only [if_neg h0]
      by_cases h1 : k < 1 + m
      · simp only [if_pos h1]
        by_cases hshort : short
        · simp only [if_pos hshort]
          exact playing_agree (doublingAct_agree (by omega)) (fun s hs => doublingAct_outside hs)
            (fun p s hs => newRank_some hsum hrem hs) fun s hs => newRank_real hsum hs
        · simp only [if_neg hshort]
          exact playing_agree (halvingAct_agree (by omega)) (fun s hs => halvingAct_outside hs)
            (fun p s hs => newRank_some hsum hrem hs) fun s hs => newRank_real hsum hs
      · simp only [if_neg h1]
        by_cases h2 : k < 1 + m + m
        · simp only [if_pos h2]
          by_cases hshort : short
          · simp only [if_pos hshort]
            exact fun _ _ _ _ => rfl
          · simp only [if_neg hshort]
            exact playing_agree (allgatherAct_agree (by omega)) (fun s hs => allgatherAct_outside hs)
              (fun p s hs => newRank_some hsum hrem hs) fun s hs => newRank_real hsum hs
        · simp only [if_neg h2]
          exact toEven_agree
  · unfold allreduceAct playing at h
    split at h
    · exact nomatch h
    · split at h
      · split at h
        · split at h <;> exact nomatch h
        · split at h <;> exact nomatch h
      · split at h
        · split at h
          · exact nomatch h
          · split at h <;> exact nomatch h
        · exact nomatch h
  · have hout : ¬ p < commSize := fun h => hp (Finset.mem_range.mpr h)
    have hnew : newRank commSize rem p = none := by
      rw [newRank, if_neg (by omega), if_neg hout]
    unfold allreduceAct
    rw [playing_none hnew, playing_none hnew, playing_none hnew, toOdd_other (by omega),
      toEven_other (by omega)]
    simp only [ite_self]

section Follows
variable [Std.Associative op] {isCommutative isBuiltin : Bool} {typeSize rank : Nat} {shortMsgSize : Int}
variable (hcomm : isCommutative = true → ∀ a b, op a b = op b a)
variable (hbuiltin : isBuiltin = true → ∀ a b, op a b = op b a)
variable (hsum : 2 ^ m + rem = commSize) (hrem : rem < 2 ^ m)
include hcomm hbuiltin hsum hrem

theorem combine_follows (hshort : short ↔ ((count * typeSize : Nat) ≤ shortMsgSize ∨ isBuiltin = false ∨
      count < 2 ^ m)) {s : Nat} (hnew : newRank commSize rem rank = some s) {res : Option (Nat → α)}
    {next : (Nat → α) → RankProg α} {recvbuf tmpBuf : Nat → α}
    (hbuf : ∀ i < count, recvbuf i = paired op rem x s i)
    (hnext : ∀ buf, (∀ i < count, buf i = wholeOf op m rem x i) → (∀ i, count ≤ i → buf i = recvbuf i) →
      Follows SameRange res (staged (allreduceAct op short commSize count m rem x rank) (1 + m + m) 1)
        (next buf)) :
    Follows SameRange res
      (staged (allreduceAct op short commSize count m rem x rank) (1 + 0) (m - 0 + (m + 1)))
      (combine op isCommutative isBuiltin rank count typeSize shortMsgSize rem (2 ^ m) s next recvbuf
        tmpBuf) := by
  obtain ⟨hs, hreal⟩ := newRank_some hsum hrem hnew
  have hfuel : m ≤ 0 + 2 ^ m := by
    rw [Nat.zero_add]
    exact Nat.le_of_lt Nat.lt_two_pow_self
  have hstart : ∀ i < count, recvbuf i = group op (paired op rem x) 0 s i := by
    intro i hi
    rw [group_zero, hbuf i hi]
  have hgroup : group op (paired op rem x) m s = wholeOf op m rem x := group_all op _ hs
  unfold combine
  by_cases hthis : short
  · rw [if_pos (hshort.mp hthis)]
    refine doublingSteps_follows (k := 0) hcomm hs hreal (fun k hk => ?_) (fun buf hdone hkeep => ?_)
      (Nat.zero_le m) hfuel hstart fun _ _ => rfl
    · rw [allreduceAct, if_neg (by omega), if_pos (by omega), if_pos hthis, playing_some hnew,
        Nat.add_sub_cancel_left]
    · have hskip : ∀ j, 1 + m ≤ j → j < 1 + m + m →
          allreduceAct op short commSize count m rem x rank j = .idle := by
        intro j hlow hhigh
        rw [allreduceAct, if_neg (by omega), if_neg (by omega), if_pos hhigh, if_pos hthis]
      rw [staged_skip hskip]
      rw [hgroup] at hdone
      exact hnext buf hdone hkeep
  · have hlong : ¬ ((count * typeSize : Nat) ≤ shortMsgSize ∨ isBuiltin = false ∨ count < 2 ^ m) :=
      fun h => hthis (hshort.mpr h)
    have hflag : isBuiltin = true := by
      cases isBuiltin with
      | true => rfl
      | false => exact absurd (.inr (.inl rfl)) hlong
    rw [if_neg hlong]
    refine halvingSteps_follows (k := 0) (y := paired op rem x) (hbuiltin hflag) hs (fun t _ => rfl) (fun k hk => ?_)
      (fun lastIdx buf hlast hholds hkeep => ?_) (Nat.zero_le m) hfuel (fun _ => ?_)
      (fun hzero hpos => by omega) (fun i _ hhigh => ?_) fun _ _ => rfl
    · rw [allreduceAct, if_neg (by omega), if_pos (by omega), if_neg hthis, playing_some hnew,
        Nat.add_sub_cancel_left]
    · rw [hgroup] at hholds
      have hgather : Follows SameRange res
          (staged (allreduceAct op short commSize count m rem x rank) (1 + m + (m - m)) (m + 1))
          (allgatherSteps rem (2 ^ m) s (cntsOf count (2 ^ m)) (dispsOf (cntsOf count (2 ^ m))) next
            (2 ^ m) (2 ^ m / 2) (startAt m s m) lastIdx buf) := by
        refine allgatherSteps_follows hs (fun d hd => ?_) (fun b hdone hsame => ?_) (Nat.le_refl m)
          (Nat.le_of_lt Nat.lt_two_pow_self) ⟨fun hpos => ?_, hholds, fun _ _ => rfl⟩
        · rw [allreduceAct, if_neg (by omega), if_neg (by omega), if_pos (by omega), if_neg hthis,
            playing_some hnew, Nat.add_sub_cancel_left]
        · exact hnext b hdone fun i hi => by rw [hsame i hi, hkeep i hi]
        · rw [if_pos rfl]
          exact hlast hpos
      rw [Nat.sub_self] at hgather
      exact hgather
    · rw [startAt, Nat.zero_add, Nat.sub_zero]
    · have hle : windowOff count m s 0 + windowLen count m s 0 ≤ count := window_le count
      exact hstart i (by omega)

variable {args : Nat → Args α}

theorem allreduceFlat_follows (hcount : 0 < count) (hrank : rank < commSize)
    (hshort : short ↔ ((count * typeSize : Nat) ≤ shortMsgSize ∨ isBuiltin = false ∨ count < 2 ^ m)) :
    Follows SameRange (result op commSize count args rank)
      (staged (allreduceAct op short commSize count m rem (input args) rank) 0 (m + (m + 1) + 1))
      (allreduceFlat op isCommutative isBuiltin commSize rank count typeSize shortMsgSize (args rank)) := by
  have hpow : 2 ^ (m + 1) = 2 * 2 ^ m := Nat.pow_succ'
  have hpof2 : pof2Of commSize = 2 ^ m := pof2Of_eq (by omega) (by omega)
  have hremEq : commSize - 2 ^ m = rem := by omega
  have hne : ¬ count = 0 := by omega
  have hfirst : allreduceAct op short commSize count m rem (input args) rank 0 =
      toOdd count rem (input args) rank := if_pos rfl
  have hlast : allreduceAct op short commSize count m rem (input args) rank (1 + m + m) =
      toEven count rem (fun _ => wholeOf op m rem (input args)) rank := by
    rw [allreduceAct, if_neg (by omega), if_neg (by omega), if_neg (Nat.lt_irrefl _)]
  -- who has the whole is done
  have hdone : ∀ {buf : Nat → α}, (∀ i < count, buf i = wholeOf op m rem (input args) i) →
      (∀ i, count ≤ i → buf i = (args rank).recvbuf i) →
        result op commSize count args rank = some buf := by
    intro buf hwhole hkeep
    refine congrArg some (funext fun i => ?_)
    by_cases hi : i < count
    · rw [if_pos hi, hwhole i hi, wholeOf_eq hsum hrem]
    · rw [if_neg hi, hkeep i (Nat.le_of_not_lt hi)]
  rw [allreduceFlat, if_neg hne]
  dsimp only
  rw [hpof2, hremEq]
  generalize hwork : (if (args rank).inPlace = false then
    localcopy (args rank).sendbuf (args rank).recvbuf count else (args rank).recvbuf) = recvbuf
  have hinput : ∀ i < count, recvbuf i = input args rank i := by
    intro i hi
    rw [← hwork, input]
    cases (args rank).inPlace with
    | true => rfl
    | false => exact if_pos hi
  have hrest : ∀ i, count ≤ i → recvbuf i = (args rank).recvbuf i := by
    intro i hi
    rw [← hwork]
    cases (args rank).inPlace with
    | true => rfl
    | false => exact if_neg (Nat.not_lt.mpr hi)
  by_cases hpair : rank < 2 * rem
  · rw [if_pos hpair]
    by_cases heven : rank % 2 = 0
    · -- left out, and told the result
      rw [toOdd_even hpair heven] at hfirst
      rw [toEven_even hpair heven] at hlast
      have hmsg : slice (input args rank) 0 count = slice recvbuf 0 count :=
        slice_congr fun i _ hi => (hinput i (by omega)).symm
      have hnew : newRank commSize rem rank = none := by rw [newRank, if_pos hpair, if_pos heven]
      have hskip : ∀ j, 0 + 1 ≤ j → j < 0 + 1 + (m + m) →
          allreduceAct op short commSize count m rem (input args) rank j = .idle := by
        intro j hlow hhigh
        rw [allreduceAct, if_neg (by omega), playing_none hnew, playing_none hnew, playing_none hnew]
        by_cases hj : j < 1 + m
        · rw [if_pos hj, ite_self]
        · rw [if_neg hj, if_pos (by omega), ite_self]
      have hturns : m + (m + 1) = m + m + 1 := by omega
      have hstart : 0 + 1 + (m + m) = 1 + m + m := by omega
      rw [if_pos heven, staged_send hfirst, hmsg]
      refine follows_send ?_
      rw [hturns, staged_skip hskip, hstart, staged_recv hlast]
      refine follows_recv (hdone (fun i hi => ?_) fun i hi => ?_).symm
      · rw [store_slice]
        exact if_pos ⟨Nat.zero_le _, by omega⟩
      · rw [store_slice]
        dsimp only
        rw [if_neg (by omega), hrest i hi]
    · have hodd : rank % 2 ≠ 0 := heven
      have hnew : newRank commSize rem rank = some (rank / 2) := by rw [newRank, if_pos hpair, if_neg heven]
      have hleft : rank / 2 * 2 = rank - 1 := by omega
      have hright : rank - 1 + 1 = rank := by omega
      rw [toOdd_odd hpair hodd] at hfirst
      rw [toEven_odd hpair hodd] at hlast
      rw [if_neg heven, staged_recv hfirst]
      refine follows_recv (combine_follows hcomm hbuiltin hsum hrem hshort hnew (fun i hi => ?_)
        fun buf hwhole hkeep => ?_)
      · rw [reduceLocal, if_pos ⟨Nat.zero_le _, by omega⟩, store_slice, hinput i hi, paired,
          if_pos (by omega), hleft, hright]
        dsimp only
        rw [if_pos ⟨Nat.zero_le _, by omega⟩]
      · have hmsg : slice (wholeOf op m rem (input args)) 0 count = slice buf 0 count :=
          slice_congr fun i _ hi => (hwhole i (by omega)).symm
        rw [staged_send hlast, hmsg]
        refine follows_send (hdone hwhole fun i hi => ?_).symm
        rw [hkeep i hi, reduceLocal, if_neg (by omega), hrest i hi]
  · have hnew : newRank commSize rem rank = some (rank - rem) := by
      rw [newRank, if_neg hpair, if_pos hrank]
    have hback : rank - rem + rem = rank := by omega
    rw [toOdd_other hpair] at hfirst
    rw [toEven_other hpair] at hlast
    rw [if_neg hpair, staged_idle hfirst]
    refine combine_follows hcomm hbuiltin hsum hrem hshort hnew (fun i hi => ?_) fun buf hwhole hkeep => ?_
    · rw [hinput i hi, paired, if_neg (by omega), hback]
    · rw [staged_idle hlast]
      exact (hdone hwhole fun i hi => by rw [hkeep i hi, hrest i hi]).symm

end Follows

theorem allreduceFlat_computes [Std.Associative op] {isCommutative isBuiltin : Bool} {typeSize : Nat}
    {shortMsgSize : Int} {args : Nat → Args α} (hcomm : isCommutative = true → ∀ a b, op a b = op b a)
    (hbuiltin : isBuiltin = true → ∀ a b, op a b = op b a) (hsize : 0 < commSize) (hcount : 0 < count) :
    Computes (fun _ : Unit => Finset.range commSize) SameRange
      (ofRank commSize (fun rank => allreduceFlat op isCommutative isBuiltin commSize rank count typeSize
          shortMsgSize (args rank)) (result op commSize count args))
      (result op commSize count args) := by
  obtain ⟨m, hlow, hhigh⟩ : ∃ m, 2 ^ m ≤ commSize ∧ commSize < 2 ^ (m + 1) :=
    ⟨Nat.log2 commSize, Nat.log2_self_le (by omega), Nat.lt_log2_self⟩
  have hpow : 2 ^ (m + 1) = 2 * 2 ^ m := Nat.pow_succ'
  obtain ⟨rem, hsum⟩ := Nat.exists_eq_add_of_le hlow
  have hrem : rem < 2 ^ m := by omega
  have hplan : Plan (Finset.range commSize) (fun _ : Unit => Finset.range commSize) fun p =>
      staged (allreduceAct op ((count * typeSize : Nat) ≤ shortMsgSize ∨ isBuiltin = false ∨ count < 2 ^ m)
        commSize count m rem (input args) p) 0 (m + (m + 1) + 1) := allreduce_plan hsum.symm hrem
  refine hplan.computes sameRange_le fun p => ?_
  unfold ofRank
  by_cases hp : p < commSize
  · rw [if_pos hp]
    exact allreduceFlat_follows hcomm hbuiltin hsum.symm hrem hcount hp Iff.rfl
  · rw [if_neg hp]
    have hnone := hplan.outside p fun h => hp (Finset.mem_range.mp h)
    rw [hnone]
    rfl

end Plan

end FgMpi.Coll.Allreduce
