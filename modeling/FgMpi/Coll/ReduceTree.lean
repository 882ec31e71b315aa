import FgMpi.Coll.Reduce

/-! The plan of `MPIR_Reduce_binomial`. -/

namespace FgMpi.Coll.Reduce
open Machine.Dialogues Machine.Bits Machine.Folds Buffers

section Results
variable {α : Type} (op : α → α → α) (commSize root count : Nat) (args : Nat → Args α)

def input (rank : Nat) : Nat → α :=
  if rank = root ∧ (args rank).inPlace = true then (args rank).recvbuf else (args rank).sendbuf

def result (rank : Nat) : Option (Nat → α) :=
  some (if rank = root then fun i =>
      if i < count then fold op (fun r => input root args r i) 0 (commSize - 1) else (args rank).recvbuf i
    else (args rank).recvbuf)

theorem workBuf_input {rank i : Nat} (hi : i < count) :
    workBuf (args rank) root rank count i = input root args rank i := by
  unfold workBuf input
  by_cases hrank : rank = root
  · cases hplace : (args rank).inPlace with
    | true => simp [hrank]
    | false => simp [hrank, localcopy, hi]
  · simp [hrank, localcopy, hi]

theorem workBuf_rest {i : Nat} (hi : count ≤ i) :
    workBuf (args root) root root count i = (args root).recvbuf i := by
  unfold workBuf
  cases (args root).inPlace with
  | true => simp
  | false => simp [localcopy, Nat.not_lt.mpr hi]

end Results

section Tree
variable {commSize k p q r : Nat}

def sendsTo (commSize k r : Nat) : Option Nat :=
  if r < commSize ∧ r % 2 ^ (k + 1) = 2 ^ k then some (r - 2 ^ k) else none

def receivesFrom (commSize k r : Nat) : Option Nat :=
  if r + 2 ^ k < commSize ∧ r % 2 ^ (k + 1) = 0 then some (r + 2 ^ k) else none

theorem sendsTo_iff : sendsTo commSize k p = some q ↔ receivesFrom commSize k q = some p := by
  have hpow : 2 ^ (k + 1) = 2 * 2 ^ k := Nat.pow_succ'
  have hpos := Nat.two_pow_pos k
  unfold sendsTo receivesFrom
  constructor
  · intro h
    split at h
    · rename_i hp
      obtain rfl := Option.some.inj h
      have hle : 2 ^ k ≤ p := hp.2 ▸ Nat.mod_le _ _
      have hdiv := Nat.div_add_mod p (2 ^ (k + 1))
      have hmul : p - 2 ^ k = 2 ^ (k + 1) * (p / 2 ^ (k + 1)) := by omega
      rw [if_pos ⟨by omega, by rw [hmul, Nat.mul_mod_right]⟩]
      congr 1
      omega
    · exact nomatch h
  · intro h
    split at h
    · rename_i hq
      obtain rfl := Option.some.inj h
      have hmod : (q + 2 ^ k) % 2 ^ (k + 1) = 2 ^ k := by
        rw [Nat.add_mod, hq.2, Nat.zero_add, Nat.mod_mod, Nat.mod_eq_of_lt (by omega)]
      rw [if_pos ⟨hq.1, hmod⟩]
      congr 1
      omega
    · exact nomatch h

theorem next_bit (hlow : r % 2 ^ k = 0) : r % 2 ^ (k + 1) = 2 ^ k * (r / 2 ^ k % 2) := by
  rw [Nat.pow_succ, Nat.mod_mul, hlow, Nat.zero_add]

theorem low_of_next (h : r % 2 ^ (k + 1) = 2 ^ k) {j : Nat} (hj : k < j) :
    sendsTo commSize j r = none ∧ receivesFrom commSize j r = none := by
  have hpos := Nat.two_pow_pos k
  have hdvd : ∀ m, k < m → r % 2 ^ m ≠ 0 := by
    intro m hm hzero
    have hlow : 2 ^ (k + 1) ∣ r := Nat.dvd_trans (Nat.pow_dvd_pow 2 hm) (Nat.dvd_of_mod_eq_zero hzero)
    rw [Nat.mod_eq_zero_of_dvd hlow] at h
    omega
  constructor
  · refine if_neg fun hand => hdvd j hj ?_
    have hbelow : r % 2 ^ (j + 1) % 2 ^ j = r % 2 ^ j := Nat.mod_mod_of_dvd _ (Nat.pow_dvd_pow 2 (Nat.le_succ j))
    rw [← hbelow, hand.2, Nat.mod_self]
  · exact if_neg fun hand => hdvd (j + 1) (by omega) hand.2

end Tree

section Plan
variable {α : Type} (op : α → α → α) (isCommutative : Bool) (commSize lroot root count : Nat)
variable (y : Nat → Nat → α)

def part (k r : Nat) : Nat → α := fun i =>
  fold op (fun r => y r i) r (min (r + 2 ^ k) commSize - r - 1)

def treeAct (k : Nat) : Nat → Act Unit Nat (Nat × α) :=
  exchange () (sendsTo commSize k) (receivesFrom commSize k)
    (fun r => slice (part op commSize y k r) 0 count) fun _ => (0, count)

def passOn (total : Nat → α) (cnt : Nat) : Nat → Act Unit Nat (Nat × α) :=
  exchange () (fun p => if p = 0 then some root else none) (fun p => if p = root then some 0 else none)
    (fun _ => slice total 0 cnt) fun _ => (0, cnt)

def binomialAct (p k : Nat) : Act Unit Nat (Nat × α) :=
  if k < commSize then
    playing (relativeOf commSize lroot) (fun r => (r + lroot) % commSize) (treeAct op commSize count y k) p
  else if isCommutative = false ∧ root ≠ 0 then passOn root (part op commSize y commSize 0) count p
  else .idle

variable {op isCommutative commSize lroot root count y} {k r : Nat}

theorem part_zero (hr : r < commSize) : part op commSize y 0 r = y r := by
  funext i
  have hnone : min (r + 2 ^ 0) commSize - r - 1 = 0 := by
    rw [Nat.pow_zero]
    omega
  rw [part, hnone]
  rfl

theorem part_all (h : commSize ≤ 2 ^ k) :
    part op commSize y k 0 = fun i => fold op (fun r => y r i) 0 (commSize - 1) := by
  funext i
  rw [part, Nat.zero_add, Nat.min_eq_right h, Nat.sub_zero]

theorem part_alone (h : commSize ≤ r + 2 ^ k) : part op commSize y (k + 1) r = part op commSize y k r := by
  have hpow : 2 ^ (k + 1) = 2 * 2 ^ k := Nat.pow_succ'
  funext i
  rw [part, part, Nat.min_eq_right h, Nat.min_eq_right (by omega)]

theorem part_step [Std.Associative op] (h : r + 2 ^ k < commSize) (i : Nat) :
    part op commSize y (k + 1) r i = op (part op commSize y k r i) (part op commSize y k (r + 2 ^ k) i) := by
  have hpow : 2 ^ (k + 1) = 2 * 2 ^ k := Nat.pow_succ'
  have hpos := Nat.two_pow_pos k
  have hsum : r + 2 ^ k + 2 ^ k = r + 2 ^ (k + 1) := by omega
  rw [part, part, part, hsum, Nat.min_eq_left (Nat.le_of_lt h)]
  exact fold_split op (by omega) (by omega)

variable {relrank : Nat} {act : Nat → Act Unit Nat (Nat × α)} {res : Option (Nat → α)}
variable {next : (Nat → α) → RankProg α} {rest : Nat → α}

theorem binomialSteps_follows [Std.Associative op] (hcomm : isCommutative = true → ∀ a b, op a b = op b a)
    (hrel : relrank < commSize) (hact : ∀ k < commSize,
      act k = (treeAct op commSize count y k relrank).rename fun r => (r + lroot) % commSize)
    (hnext : ∀ buf, (∀ i, count ≤ i → buf i = rest i) →
      (relrank = 0 → ∀ i < count, buf i = part op commSize y commSize 0 i) →
        Follows SameRange res (staged act commSize 1) (next buf))
    {fuel k : Nat} (hfuel : k + fuel = commSize) (hlow : relrank % 2 ^ k = 0) {recvbuf tmpBuf : Nat → α}
    (hbuf : ∀ i < count, recvbuf i = part op commSize y k relrank i)
    (hrest : ∀ i, count ≤ i → recvbuf i = rest i) :
    Follows SameRange res (staged act k (fuel + 1))
      (binomialSteps op isCommutative commSize count relrank lroot next fuel (2 ^ k) recvbuf tmpBuf) := by
  -- at the end only the first rank has something to say
  have hend : ∀ {k : Nat}, commSize ≤ 2 ^ k → relrank % 2 ^ k = 0 → ∀ {buf : Nat → α},
      (∀ i < count, buf i = part op commSize y k relrank i) →
        relrank = 0 → ∀ i < count, buf i = part op commSize y commSize 0 i := by
    intro k hk hlow buf hbuf hzero i hi
    rw [hbuf i hi, hzero, part_all hk, part_all (Nat.le_of_lt Nat.lt_two_pow_self)]
  induction fuel generalizing k recvbuf tmpBuf with
  | zero =>
    obtain rfl : k = commSize := by omega
    exact hnext recvbuf hrest (hend (Nat.le_of_lt Nat.lt_two_pow_self) hlow hbuf)
  | succ fuel ih =>
    have hpow : 2 ^ (k + 1) = 2 * 2 ^ k := Nat.pow_succ'
    have hpos := Nat.two_pow_pos k
    have hk := hact k (by omega)
    have hbit := next_bit hlow
    rw [binomialSteps]
    by_cases hmask : 2 ^ k < commSize
    · rw [if_pos hmask]
      rcases Nat.mod_two_eq_zero_or_one (relrank / 2 ^ k) with hzero | hone
      · -- receive
        rw [hzero, Nat.mul_zero] at hbit
        rw [if_pos (and_eq_zero.mpr hzero), or_low hzero]
        have hnot : sendsTo commSize k relrank = none := if_neg fun h => by omega
        by_cases hsource : relrank + 2 ^ k < commSize
        · have hfrom : receivesFrom commSize k relrank = some (relrank + 2 ^ k) := if_pos ⟨hsource, hbit⟩
          rw [treeAct, exchange_recv hnot hfrom] at hk
          rw [if_pos hsource, staged_recv hk]
          refine follows_recv ?_
          have hstored : ∀ i < count, store tmpBuf 0
              (slice (part op commSize y k (relrank + 2 ^ k)) 0 count) i =
                part op commSize y k (relrank + 2 ^ k) i := by
            intro i hi
            rw [store_slice]
            exact if_pos ⟨Nat.zero_le _, by omega⟩
          have hnew : ∀ i < count, op (recvbuf i) (store tmpBuf 0
              (slice (part op commSize y k (relrank + 2 ^ k)) 0 count) i) =
                part op commSize y (k + 1) relrank i := by
            intro i hi
            rw [hstored i hi, hbuf i hi, part_step hsource]
          have hin : ∀ i < count, 0 ≤ i ∧ i < 0 + count := fun i hi => ⟨Nat.zero_le _, by omega⟩
          have hout : ∀ i, count ≤ i → ¬ (0 ≤ i ∧ i < 0 + count) := fun i hi h => by omega
          rw [← hpow]
          by_cases hflag : isCommutative = true
          · rw [if_pos hflag]
            refine ih (by omega) hbit (fun i hi => ?_) fun i hi => ?_
            · rw [reduceLocal, if_pos (hin i hi), hcomm hflag, hnew i hi]
            · rw [reduceLocal, if_neg (hout i hi), hrest i hi]
          · rw [if_neg hflag]
            refine ih (by omega) hbit (fun i hi => ?_) fun i hi => ?_
            · rw [localcopy, if_pos hi, reduceLocal, if_pos (hin i hi), hnew i hi]
            · rw [localcopy, if_neg (Nat.not_lt.mpr hi), hrest i hi]
        · have hfrom : receivesFrom commSize k relrank = none := if_neg fun h => hsource h.1
          rw [treeAct, exchange_idle hnot hfrom] at hk
          rw [if_neg hsource, staged_idle hk, ← hpow]
          refine ih (by omega) hbit (fun i hi => ?_) hrest
          rw [hbuf i hi, part_alone (by omega)]
      · -- send
        rw [hone, Nat.mul_one] at hbit
        have hto : sendsTo commSize k relrank = some (relrank - 2 ^ k) := if_pos ⟨hrel, hbit⟩
        have hnot : receivesFrom commSize k relrank = none := if_neg fun h => by omega
        rw [treeAct, exchange_send hto hnot] at hk
        have hset : ¬ relrank &&& 2 ^ k = 0 := fun h => by
          rw [and_eq_zero, hone] at h
          exact nomatch h
        rw [if_neg hset, ldiff_high hone, staged_send hk]
        have hmsg : slice (part op commSize y k relrank) 0 count = slice recvbuf 0 count :=
          slice_congr fun i _ hi => (hbuf i (by omega)).symm
        dsimp only [Act.rename]
        rw [hmsg]
        refine follows_send ?_
        have hskip : ∀ j, k + 1 ≤ j → j < k + 1 + fuel → act j = .idle := by
          intro j hj hlt
          obtain ⟨hsend, hrecv⟩ : sendsTo commSize j relrank = none ∧ _ := low_of_next hbit hj
          rw [hact j (by omega), treeAct, exchange_idle hsend hrecv]
          rfl
        rw [staged_skip hskip]
        have hlast : k + 1 + fuel = commSize := by omega
        rw [hlast]
        refine hnext recvbuf hrest fun hzero => ?_
        rw [hzero, Nat.zero_div] at hone
        exact nomatch hone
    · -- the loop is over
      rw [if_neg hmask]
      have hskip : ∀ j, k ≤ j → j < k + (fuel + 1) → act j = .idle := by
        intro j hj hlt
        have hbig : 2 ^ k ≤ 2 ^ j := Nat.pow_le_pow_right (by omega) hj
        have hmod : relrank % 2 ^ (j + 1) ≤ relrank := Nat.mod_le _ _
        have hto : sendsTo commSize j relrank = none := if_neg fun h => by omega
        have hfrom : receivesFrom commSize j relrank = none := if_neg fun h => by omega
        rw [hact j (by omega), treeAct, exchange_idle hto hfrom]
        rfl
      rw [staged_skip hskip, hfuel]
      exact hnext recvbuf hrest (hend (Nat.le_of_not_lt hmask) hlow hbuf)

end Plan

section Ranks
variable {α : Type} {op : α → α → α} {isCommutative : Bool} {commSize lroot root count : Nat}
variable {y : Nat → Nat → α} {args : Nat → Args α}

theorem treeAct_agree (k : Nat) : Agree (treeAct op commSize count y k) :=
  exchange_agree fun _ _ => sendsTo_iff

theorem treeAct_outside {k r : Nat} (hr : ¬ r < commSize) : treeAct op commSize count y k r = .idle :=
  exchange_idle (if_neg fun h => hr h.1) (if_neg fun h => by omega)

section PassOn
variable {total : Nat → α} {cnt rank : Nat}

theorem passOn_agree : Agree (passOn root total cnt) := by
  refine exchange_agree fun p q => ?_
  by_cases hp : p = 0
  · by_cases hq : q = root
    · simp [hp, hq]
    · simp [hp, hq, Ne.symm hq]
  · by_cases hq : q = root
    · simp [hp, hq, Ne.symm hp]
    · simp [hp, hq]

theorem passOn_first (hfirst : rank = 0) (hnot : rank ≠ root) :
    passOn root total cnt rank = .comm [⟨(), root, slice total 0 cnt⟩] [] := by
  have hsrc : (if rank = root then some 0 else none) = none := if_neg hnot
  exact exchange_send (if_pos hfirst) hsrc

theorem passOn_root (hnot : rank ≠ 0) (hroot : rank = root) :
    passOn root total cnt rank = .comm [] [⟨(), 0, 0, cnt, slice total 0 cnt⟩] := by
  have hdst : (if rank = 0 then some root else none) = none := if_neg hnot
  exact exchange_recv hdst (if_pos hroot)

theorem passOn_other (hnot : rank ≠ 0) (hroot : rank ≠ root) : passOn root total cnt rank = .idle := by
  have hdst : (if rank = 0 then some root else none) = none := if_neg hnot
  have hsrc : (if rank = root then some 0 else none) = none := if_neg hroot
  exact exchange_idle hdst hsrc

end PassOn

theorem binomial_plan (hroot : root < commSize) (hlroot : lroot < commSize) :
    Plan (Finset.range commSize) (fun _ : Unit => Finset.range commSize) fun p =>
      staged (binomialAct op isCommutative commSize lroot root count y p) 0 (commSize + 1) := by
  refine staged_plan (fun k _ => ?_) (fun p k c mine needs h => ?_) fun p hp k _ => ?_
  · unfold binomialAct
    by_cases hk : k < commSize
    · simp only [if_pos hk]
      exact playing_agree (treeAct_agree k) (fun s hs => treeAct_outside hs)
        (fun p s hs => relativeOf_some hlroot hs) fun s hs => relativeOf_rotate hlroot hs
    · simp only [if_neg hk]
      by_cases hflag : isCommutative = false ∧ root ≠ 0
      · simp only [if_pos hflag]
        exact passOn_agree
      · simp only [if_neg hflag]
        exact fun _ _ _ _ => rfl
  · unfold binomialAct playing at h
    split at h
    · split at h <;> exact nomatch h
    · split at h <;> exact nomatch h
  · have hout : ¬ p < commSize := fun h => hp (Finset.mem_range.mpr h)
    unfold binomialAct
    split
    · exact playing_none (if_neg hout)
    · split
      · exact passOn_other (by omega) (by omega)
      · rfl

theorem total_eq [Std.Associative op] {x : Nat → α} (hlroot : lroot < commSize)
    (horder : lroot = 0 ∨ ∀ a b, op a b = op b a) :
    fold op (fun r => x ((r + lroot) % commSize)) 0 (commSize - 1) = fold op x 0 (commSize - 1) := by
  rcases horder with rfl | hcomm
  · refine fold_congr op fun i _ hi => ?_
    rw [Nat.add_zero, Nat.mod_eq_of_lt (by omega)]
  · have : Std.Commutative op := ⟨hcomm⟩
    exact fold_rotate op hlroot

theorem leave_follows {fits : List (Nat × α) → Inp Unit Nat → Prop} {rank : Nat} {buf : Nat → α}
    (hdone : rank = root → ∀ i < count, buf i = fold op (fun r => input root args r i) 0 (commSize - 1))
    (hrest : rank = root → ∀ i, count ≤ i → buf i = (args root).recvbuf i) :
    Follows fits (result op commSize root count args rank) [] (leave (args rank) root rank buf) := by
  change some _ = some _
  congr 1
  by_cases hrank : rank = root
  · rw [if_pos hrank, if_pos hrank]
    funext i
    by_cases hi : i < count
    · rw [if_pos hi, hdone hrank i hi]
    · rw [if_neg hi, hrest hrank i (Nat.le_of_not_lt hi), hrank]
  · rw [if_neg hrank, if_neg hrank]

theorem reduceBinomial_follows [Std.Associative op] (hcomm : isCommutative = true → ∀ a b, op a b = op b a)
    (hroot : root < commSize) (hcount : 0 < count) {rank : Nat} (hrank : rank < commSize) :
    Follows SameRange (result op commSize root count args rank)
      (staged (binomialAct op isCommutative commSize (if isCommutative = true then root else 0) root count
        (fun r => input root args ((r + if isCommutative = true then root else 0) % commSize)) rank)
        0 (commSize + 1))
      (reduceBinomial op isCommutative commSize root rank count (args rank)) := by
  have hne : ¬ count = 0 := by omega
  rw [reduceBinomial, if_neg hne]
  dsimp only
  generalize hl : (if isCommutative = true then root else 0) = lroot
  have hlroot : lroot < commSize := by
    rw [← hl]
    split <;> omega
  have horder : lroot = 0 ∨ ∀ a b, op a b = op b a := by
    by_cases hflag : isCommutative = true
    · exact .inr (hcomm hflag)
    · rw [if_neg hflag] at hl
      exact .inl hl.symm
  have hrel : relativeOf commSize lroot rank = some ((rank + commSize - lroot) % commSize) :=
    relativeOf_eq hrank
  obtain ⟨hlt, hback⟩ := relativeOf_some hlroot hrel
  have htotal : ∀ i, part op commSize (fun r => input root args ((r + lroot) % commSize)) commSize 0 i =
      fold op (fun r => input root args r i) 0 (commSize - 1) := by
    intro i
    rw [part_all (Nat.le_of_lt Nat.lt_two_pow_self)]
    exact total_eq (x := fun r => input root args r i) hlroot horder
  refine binomialSteps_follows (y := fun r => input root args ((r + lroot) % commSize)) hcomm hlt
    (fun k hk => ?_) (fun buf hkeep hfirst => ?_) (Nat.zero_add _) (Nat.mod_one _) (fun i hi => ?_)
    fun i (_ : count ≤ i) => (rfl : workBuf (args rank) root rank count i = _)
  · rw [binomialAct, if_pos hk]
    exact playing_some hrel
  · have hwork : rank = root → ∀ i, count ≤ i → buf i = (args root).recvbuf i := by
      intro h i hi
      rw [hkeep i hi, h, workBuf_rest root count args hi]
    have hlast : binomialAct op isCommutative commSize lroot root count
        (fun r => input root args ((r + lroot) % commSize)) rank commSize =
          if isCommutative = false ∧ root ≠ 0 then
            passOn root (part op commSize (fun r => input root args ((r + lroot) % commSize)) commSize 0)
              count rank
          else .idle := if_neg (Nat.lt_irrefl _)
    by_cases hflag : isCommutative = false ∧ root ≠ 0
    · rw [if_pos hflag] at hlast ⊢
      have hzero : lroot = 0 := by
        rw [← hl, hflag.1]
        rfl
      by_cases hfirst' : rank = 0
      · have hnot : rank ≠ root := fun h => hflag.2 (h ▸ hfirst')
        rw [passOn_first hfirst' hnot] at hlast
        have hrz : (rank + commSize - lroot) % commSize = 0 := by
          rw [hfirst', hzero, Nat.zero_add, Nat.sub_zero, Nat.mod_self]
        rw [if_pos hfirst', staged_send hlast,
          ← slice_congr fun i _ hi => hfirst hrz i (by omega)]
        exact follows_send (leave_follows (fun h => absurd h hnot) fun h => absurd h hnot)
      · rw [if_neg hfirst']
        by_cases hthis : rank = root
        · rw [passOn_root hfirst' hthis] at hlast
          rw [if_pos hthis, staged_recv hlast]
          refine follows_recv (leave_follows (fun _ i hi => ?_) fun h i hi => ?_)
          · rw [store_slice]
            dsimp only
            rw [if_pos ⟨Nat.zero_le _, by omega⟩, htotal]
          · rw [store_slice]
            dsimp only
            rw [if_neg (by omega), hwork h i hi]
        · rw [passOn_other hfirst' hthis] at hlast
          rw [if_neg hthis, staged_idle hlast]
          exact leave_follows (fun h => absurd h hthis) fun h => absurd h hthis
    · rw [if_neg hflag] at hlast ⊢
      rw [staged_idle hlast]
      refine leave_follows (fun h i hi => ?_) hwork
      have hrl : lroot = root := by
        rw [← hl]
        split
        · rfl
        · rename_i hnc
          by_contra hne
          exact hflag ⟨Bool.eq_false_iff.mpr hnc, fun h => hne h.symm⟩
      have hrz : (rank + commSize - lroot) % commSize = 0 := by
        have hsum : rank + commSize - lroot = commSize := by omega
        rw [hsum, Nat.mod_self]
      rw [hfirst hrz i hi, htotal]
  · rw [part_zero hlt, hback]
    exact workBuf_input root count args hi

theorem binomial_computes [Std.Associative op] (hcomm : isCommutative = true → ∀ a b, op a b = op b a)
    (hroot : root < commSize) (hcount : 0 < count) :
    Computes (fun _ : Unit => Finset.range commSize) SameRange
      (ofRank commSize (fun rank => reduceBinomial op isCommutative commSize root rank count (args rank))
        (result op commSize root count args))
      (result op commSize root count args) := by
  have hlroot : (if isCommutative = true then root else 0) < commSize := by
    split <;> omega
  have hplan : Plan (Finset.range commSize) (fun _ : Unit => Finset.range commSize) fun p =>
      staged (binomialAct op isCommutative commSize (if isCommutative = true then root else 0) root count
        (fun r => input root args ((r + if isCommutative = true then root else 0) % commSize)) p)
        0 (commSize + 1) := binomial_plan hroot hlroot
  refine hplan.computes sameRange_le fun p => ?_
  unfold ofRank
  by_cases hp : p < commSize
  · rw [if_pos hp]
    exact reduceBinomial_follows hcomm hroot hcount hp
  · rw [if_neg hp, staged_nothing fun k _ _ => ?_]
    · rfl
    · unfold binomialAct
      split
      · exact playing_none (if_neg hp)
      · split
        · exact passOn_other (by omega) (by omega)
        · rfl

end Ranks

end FgMpi.Coll.Reduce
