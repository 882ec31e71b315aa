import FgMpi.Coll.AllreducePlan

/-! `MPIR_Scan_generic` (`mpi/coll/scan.c:76`) and `MPIR_Exscan` (`mpi/coll/exscan.c:77`). -/

namespace FgMpi.Coll.Scan
open Machine.Dialogues Machine.Bits Machine.Folds Buffers Allreduce Halving

section Code
variable {α σ : Type} (op : α → α → α) (isCommutative : Bool) (commSize rank count : Nat)

/-- The loop of both; `lower` is what they do to `recvbuf` if `rank > dst`.  The fuel is `commSize`. -/
def scanSteps (lower : (Nat → α) → σ → σ) (next : σ → RankProg α) :
    Nat → Nat → (Nat → α) → (Nat → α) → σ → RankProg α
  | 0, _, _, _, recv => next recv
  | fuel + 1, mask, partialScan, tmpBuf, recv =>
    if mask < commSize then
      let dst := rank ^^^ mask
      if dst < commSize then
        mpicSendrecv () dst partialScan 0 count dst tmpBuf 0 count fun tmpBuf =>
          if rank > dst then
            scanSteps lower next fuel (2 * mask) (reduceLocal op tmpBuf partialScan 0 count) tmpBuf
              (lower tmpBuf recv)
          else if isCommutative = true then
            scanSteps lower next fuel (2 * mask) (reduceLocal op tmpBuf partialScan 0 count) tmpBuf recv
          else
            let tmpBuf := reduceLocal op partialScan tmpBuf 0 count
            scanSteps lower next fuel (2 * mask) (localcopy tmpBuf partialScan count) tmpBuf recv
      else scanSteps lower next fuel (2 * mask) partialScan tmpBuf recv
    else next recv

def scanGeneric (args : Args α) : RankProg α :=
  if count = 0 then .done (some args.recvbuf)
  else
    let recvbuf := if args.inPlace = false then localcopy args.sendbuf args.recvbuf count else args.recvbuf
    let partialScan := localcopy (if args.inPlace = false then args.sendbuf else recvbuf) args.heap count
    scanSteps op isCommutative commSize rank count (fun tmpBuf recvbuf => reduceLocal op tmpBuf recvbuf 0 count)
      (fun recvbuf => .done (some recvbuf)) commSize 1 partialScan args.heap recvbuf

/-- `MPIR_Exscan`; with `recvbuf` goes `flag`. -/
def exscan (args : Args α) : RankProg α :=
  if count = 0 then .done (some args.recvbuf)
  else
    let partialScan := localcopy (if args.inPlace = true then args.recvbuf else args.sendbuf) args.heap count
    scanSteps op isCommutative commSize rank count
      (fun tmpBuf (recv : (Nat → α) × Bool) =>
        if rank ≠ 0 then
          if recv.2 = false then (localcopy tmpBuf recv.1 count, true)
          else (reduceLocal op tmpBuf recv.1 0 count, recv.2)
        else recv)
      (fun recv => .done (some recv.1)) commSize 1 partialScan args.heap (args.recvbuf, false)

end Code

def first (k r : Nat) : Nat := r / 2 ^ k * 2 ^ k

section First
variable {k r n : Nat}

theorem first_zero : first 0 r = r := by rw [first, Nat.pow_zero, Nat.div_one, Nat.mul_one]

theorem first_le : first k r ≤ r := Nat.div_mul_le_self r (2 ^ k)

theorem lt_first : r < first k r + 2 ^ k := by
  have hmod := Nat.mod_lt r (Nat.two_pow_pos k)
  have hdiv := Nat.div_add_mod' r (2 ^ k)
  rw [first]
  omega

theorem first_next : first k r = first (k + 1) r + r / 2 ^ k % 2 * 2 ^ k := by
  have hdiv : r / 2 ^ (k + 1) = r / 2 ^ k / 2 := by rw [Nat.pow_succ, Nat.div_div_eq_div_mul]
  rw [first, first, hdiv, Nat.pow_succ', ← Nat.mul_assoc, ← Nat.add_mul, Nat.div_add_mod']

theorem first_peer : first k (r ^^^ 2 ^ k) = first (k + 1) r + (1 - r / 2 ^ k % 2) * 2 ^ k := by
  rw [first_next, xor_bit, first, xor_div_above (Nat.lt_succ_self k), ← first]

theorem peer_lt (hr : r < n) (hbit : r / 2 ^ k % 2 = 1) : r ^^^ 2 ^ k < n ∧ first k (r ^^^ 2 ^ k) + 2 ^ k ≤ n := by
  have hfirst := @first_next k r
  have hpeer := @first_peer k r
  have hle := @first_le k r
  rw [hbit] at hfirst hpeer
  rw [xor_high hbit]
  rw [xor_high hbit] at hpeer
  omega

end First

section Plan
variable {α : Type} (op : α → α → α) (commSize count : Nat) (y : Nat → Nat → α)

def peer (k p : Nat) : Option Nat :=
  if p < commSize ∧ p ^^^ 2 ^ k < commSize then some (p ^^^ 2 ^ k) else none

def scanned : Nat → Nat → Nat → α
  | 0, r, i => y r i
  | k + 1, r, i =>
    if r ^^^ 2 ^ k < commSize then
      if r > r ^^^ 2 ^ k then op (scanned k (r ^^^ 2 ^ k) i) (scanned k r i)
      else op (scanned k r i) (scanned k (r ^^^ 2 ^ k) i)
    else scanned k r i

def scanAct (p k : Nat) : Act Unit Nat (Nat × α) :=
  exchange () (peer commSize k) (peer commSize k) (fun s => slice (scanned op commSize y k s) 0 count)
    (fun _ => (0, count)) p

variable {op commSize count y} {k p r i : Nat}

theorem peer_iff {q : Nat} : peer commSize k p = some q ↔ peer commSize k q = some p := by
  have hsym : ∀ p q, peer commSize k p = some q → peer commSize k q = some p := by
    intro p q h
    unfold peer at h ⊢
    split at h
    · rename_i hand
      obtain rfl := Option.some.inj h
      rw [xor_xor, if_pos hand.symm]
    · cases h
  exact ⟨hsym p q, hsym q p⟩

theorem scanAct_idle (h : ¬ (p < commSize ∧ p ^^^ 2 ^ k < commSize)) :
    scanAct op commSize count y p k = .idle := exchange_idle (if_neg h) (if_neg h)

theorem no_peer (hp : p < commSize) (hk : commSize ≤ 2 ^ k) : ¬ p ^^^ 2 ^ k < commSize := by
  have hbit : p / 2 ^ k % 2 = 0 := by rw [Nat.div_eq_of_lt (by omega)]
  rw [xor_low hbit]
  omega

theorem scan_plan (n : Nat) : Plan (Finset.range commSize) (fun _ : Unit => Finset.range commSize) fun p =>
    staged (scanAct op commSize count y p) 0 n := by
  refine staged_plan (fun k _ => exchange_agree fun _ _ => peer_iff) (fun p k c mine needs h => ?_) fun p hp k _ => ?_
  · cases h
  · exact scanAct_idle fun h => hp (Finset.mem_range.mpr h.1)

theorem scanned_group [Std.Associative op] (h : first k r + 2 ^ k ≤ commSize) :
    scanned op commSize y k r i = group op y k r i := by
  induction k generalizing r with
  | zero => rw [scanned, group_zero]
  | succ k ih =>
    have hpow : 2 ^ (k + 1) = 2 * 2 ^ k := Nat.pow_succ'
    have hfirst := @first_next k r
    have hpeer := @first_peer k r
    have hlt := @lt_first k (r ^^^ 2 ^ k)
    have hpos := Nat.two_pow_pos k
    rcases Nat.mod_two_eq_zero_or_one (r / 2 ^ k) with hbit | hbit
    · have horder := lt_xor.mpr hbit
      rw [hbit] at hfirst hpeer
      rw [scanned, if_pos (by omega), if_neg (by omega), ih (by omega), ih (by omega), group_split op y hbit]
    · have horder := xor_high hbit
      have hle := pow_le_of_high hbit
      rw [hbit] at hfirst hpeer
      rw [scanned, if_pos (by omega), if_pos (by omega), ih (by omega), ih (by omega),
        group_split_high op y hbit]

section Loop
variable [Std.Associative op] {isCommutative : Bool} {σ : Type} {lower : (Nat → α) → σ → σ}
variable {next : σ → RankProg α} {res : Option (Nat → α)} {I : Nat → σ → Prop}
variable (hcomm : isCommutative = true → ∀ a b, op a b = op b a) (hp : p < commSize)
include hcomm hp

theorem scanSteps_follows
    (hlow : ∀ k s tmp, p / 2 ^ k % 2 = 1 → (∀ i < count, tmp i = group op y k (p ^^^ 2 ^ k) i) → I k s →
      I (k + 1) (lower tmp s))
    (hkeep : ∀ k s, p / 2 ^ k % 2 = 0 → I k s → I (k + 1) s)
    (hnext : ∀ k s, commSize ≤ 2 ^ k → I k s → Follows SameRange res [] (next s))
    {fuel k : Nat} (hfuel : commSize ≤ 2 ^ (k + fuel)) {partialScan tmpBuf : Nat → α} {recv : σ}
    (hpart : ∀ i < count, partialScan i = scanned op commSize y k p i) (hrecv : I k recv) :
    Follows SameRange res (staged (scanAct op commSize count y p) k fuel)
      (scanSteps op isCommutative commSize p count lower next fuel (2 ^ k) partialScan tmpBuf recv) := by
  induction fuel generalizing k partialScan tmpBuf recv with
  | zero => exact hnext k recv hfuel hrecv
  | succ fuel ih =>
    have hmore : commSize ≤ 2 ^ (k + 1 + fuel) := by rwa [Nat.add_assoc, Nat.add_comm 1]
    rw [scanSteps]
    by_cases hlt : 2 ^ k < commSize
    · rw [if_pos hlt, ← Nat.pow_succ']
      by_cases hdst : p ^^^ 2 ^ k < commSize
      · have hpeer : peer commSize k p = some (p ^^^ 2 ^ k) := if_pos ⟨hp, hdst⟩
        have hact : scanAct op commSize count y p k = .comm [⟨(), _, _⟩] [⟨(), _, 0, count, _⟩] :=
          exchange_both hpeer hpeer
        have hmsg : slice (scanned op commSize y k p) 0 count = slice partialScan 0 count :=
          slice_congr fun i _ hi => (hpart i (by omega)).symm
        have hin : ∀ i < count, 0 ≤ i ∧ i < 0 + count := fun i hi => ⟨Nat.zero_le _, by omega⟩
        rw [if_pos hdst, staged_send hact, hmsg]
        refine follows_sendrecv ?_
        rw [store_slice]
        rcases Nat.mod_two_eq_zero_or_one (p / 2 ^ k) with hbit | hbit
        · -- the partner is higher
          have horder : ¬ p > p ^^^ 2 ^ k := Nat.not_lt.mpr (Nat.le_of_lt (lt_xor.mpr hbit))
          rw [if_neg horder]
          by_cases hflag : isCommutative = true
          · rw [if_pos hflag]
            refine ih hmore (fun i hi => ?_) (hkeep k recv hbit hrecv)
            rw [reduceLocal, if_pos (hin i hi), if_pos (hin i hi), hpart i hi, scanned, if_pos hdst, if_neg horder,
              hcomm hflag]
          · rw [if_neg hflag]
            refine ih hmore (fun i hi => ?_) (hkeep k recv hbit hrecv)
            rw [localcopy, if_pos hi, reduceLocal, if_pos (hin i hi), if_pos (hin i hi), hpart i hi, scanned,
              if_pos hdst, if_neg horder]
        · have horder : p > p ^^^ 2 ^ k := by
            have hpow := Nat.two_pow_pos k
            have hle := pow_le_of_high hbit
            rw [xor_high hbit]
            omega
          rw [if_pos horder]
          refine ih hmore (fun i hi => ?_) (hlow k recv _ hbit (fun i hi => ?_) hrecv)
          · rw [reduceLocal, if_pos (hin i hi), if_pos (hin i hi), hpart i hi, scanned, if_pos hdst, if_pos horder]
          · rw [if_pos (hin i hi), scanned_group (peer_lt hp hbit).2]
      · have hbit : p / 2 ^ k % 2 = 0 := by
          rcases Nat.mod_two_eq_zero_or_one (p / 2 ^ k) with hbit | hbit
          · exact hbit
          · exact absurd (peer_lt hp hbit).1 hdst
        rw [if_neg hdst, staged_idle (scanAct_idle fun h => hdst h.2)]
        refine ih hmore (fun i hi => ?_) (hkeep k recv hbit hrecv)
        rw [hpart i hi, scanned, if_neg hdst]
    · rw [if_neg hlt, staged_nothing]
      · exact hnext k recv (Nat.le_of_not_lt hlt) hrecv
      · intro j hj _
        have hpow := Nat.pow_le_pow_right Nat.two_pos hj
        exact scanAct_idle fun h => no_peer hp (by omega) h.2

end Loop

theorem scans_compute (op : α → α → α) (commSize count : Nat) (y : Nat → Nat → α)
    {prog : Nat → RankProg α} {result : Nat → Option (Nat → α)} {n : Nat}
    (hfollows : ∀ p < commSize, Follows SameRange (result p) (staged (scanAct op commSize count y p) 0 n) (prog p)) :
    Computes (fun _ : Unit => Finset.range commSize) SameRange (ofRank commSize prog result) result := by
  have hplan := @scan_plan α op commSize count y n
  refine hplan.computes sameRange_le fun p => ?_
  unfold ofRank
  by_cases hp : p < commSize
  · rw [if_pos hp]
    exact hfollows p hp
  · rw [if_neg hp, hplan.outside p fun h => hp (Finset.mem_range.mp h)]
    rfl

end Plan

section Results
variable {α : Type} (op : α → α → α) (count : Nat) (args : Nat → Args α)

def combined (n rank : Nat) : Option (Nat → α) :=
  some fun i =>
    if i < count ∧ 0 < n then fold op (fun r => input args r i) 0 (n - 1) else (args rank).recvbuf i

/-- What `recvbuf` of the rank `p` is before a step: of the first `n` ranks, those in its group. -/
def Received (n p k : Nat) (buf : Nat → α) : Prop := ∀ i, buf i =
  if i < count ∧ first k p < n then fold op (fun r => input args r i) (first k p) (n - first k p - 1)
  else (args p).recvbuf i

variable {count args} {k p n : Nat} {tmp buf : Nat → α}

theorem received_keep (hbit : p / 2 ^ k % 2 = 0) (h : Received op count args n p k buf) :
    Received op count args n p (k + 1) buf := by
  have hfirst := @first_next k p
  rw [hbit, Nat.zero_mul, Nat.add_zero] at hfirst
  rwa [Received, ← hfirst]

theorem received_end {commSize : Nat} (hk : commSize ≤ 2 ^ k) (hp : p < commSize)
    (h : Received op count args n p k buf) : some buf = combined op count args n p := by
  have hfirst : first k p = 0 := by rw [first, Nat.div_eq_of_lt (by omega), Nat.zero_mul]
  refine congrArg some (funext fun i => ?_)
  rw [h i, hfirst, Nat.sub_zero]

theorem received_lower [Std.Associative op] (hbit : p / 2 ^ k % 2 = 1) (hn : p ≤ n)
    (htmp : ∀ i < count, tmp i = group op (input args) k (p ^^^ 2 ^ k) i) (h : Received op count args n p k buf) :
    Received op count args n p (k + 1)
      (if first k p < n then reduceLocal op tmp buf 0 count else localcopy tmp buf count) := by
  intro i
  have hpos := Nat.two_pow_pos k
  have hle := @first_le k p
  have hfirst := @first_next k p
  have hpeer := @first_peer k p
  rw [hbit] at hfirst hpeer
  have hlen : 2 ^ k - 1 = first k p - first (k + 1) p - 1 := by omega
  by_cases hi : i < count
  · have hgroup : tmp i = fold op (fun r => input args r i) (first (k + 1) p) (first k p - first (k + 1) p - 1) := by
      rw [htmp i hi, group, ← first, hpeer, Nat.sub_self, Nat.zero_mul, Nat.add_zero, hlen]
    have hnew : i < count ∧ first (k + 1) p < n := ⟨hi, by omega⟩
    rw [if_pos hnew]
    by_cases hlt : first k p < n
    · rw [if_pos hlt, reduceLocal, if_pos ⟨Nat.zero_le _, by omega⟩, h i, if_pos ⟨hi, hlt⟩, hgroup,
        ← fold_split op (by omega) hlt]
    · have hend : first k p = n := by omega
      rw [if_neg hlt, localcopy, if_pos hi, hgroup, hend]
  · have hsame : (if first k p < n then reduceLocal op tmp buf 0 count else localcopy tmp buf count) i = buf i := by
      split
      · exact if_neg (by omega)
      · exact if_neg hi
    rw [hsame, h i, if_neg fun hand => hi hand.1, if_neg fun hand => hi hand.1]

variable [Std.Associative op] {isCommutative : Bool} (hcomm : isCommutative = true → ∀ a b, op a b = op b a)
include hcomm

/-- Each rank ends with the combination of the ranks up to its own. -/
theorem scanGeneric_computes (commSize count : Nat) (args : Nat → Args α) :
    Computes (fun _ : Unit => Finset.range commSize) SameRange
      (ofRank commSize (fun rank => scanGeneric op isCommutative commSize rank count (args rank))
        fun rank => combined op count args (rank + 1) rank) fun rank => combined op count args (rank + 1) rank := by
  refine scans_compute op commSize count (input args) (n := if count = 0 then 0 else commSize) fun p hp => ?_
  unfold scanGeneric
  by_cases hcount : count = 0
  · subst hcount
    exact rfl
  · rw [if_neg hcount, if_neg hcount]
    refine scanSteps_follows (k := 0) (I := Received op count args (p + 1) p) hcomm hp
      (fun k buf tmp hbit htmp hbuf => ?_) (fun k buf => received_keep op)
      (fun k buf hk hbuf => ?_) (by rw [Nat.zero_add]; exact Nat.le_of_lt Nat.lt_two_pow_self)
      (fun i hi => ?_) fun i => ?_
    · have hnew := received_lower op hbit (Nat.le_succ p) htmp hbuf
      rwa [if_pos (Nat.lt_succ_of_le first_le)] at hnew
    · exact received_end op hk hp hbuf
    · rw [localcopy, if_pos hi, scanned, input]
      cases (args p).inPlace <;> simp
    · rw [first_zero, Nat.add_sub_cancel_left, Nat.sub_self, fold, input]
      cases (args p).inPlace <;> simp [localcopy]

/-- Each rank but 0 ends with the combination of the ranks before its own. -/
theorem exscan_computes (commSize count : Nat) (args : Nat → Args α) :
    Computes (fun _ : Unit => Finset.range commSize) SameRange
      (ofRank commSize (fun rank => exscan op isCommutative commSize rank count (args rank))
        fun rank => combined op count args rank rank) fun rank => combined op count args rank rank := by
  refine scans_compute op commSize count (input args) (n := if count = 0 then 0 else commSize) fun p hp => ?_
  unfold exscan
  by_cases hcount : count = 0
  · subst hcount
    exact rfl
  · rw [if_neg hcount, if_neg hcount]
    refine scanSteps_follows (k := 0)
      (I := fun k recv => (recv.2 = false ↔ ¬ first k p < p) ∧ Received op count args p p k recv.1) hcomm hp
      (fun k recv tmp hbit htmp hrecv => ?_) (fun k recv hbit hrecv => ?_)
      (fun k recv hk hrecv => ?_) (by rw [Nat.zero_add]; exact Nat.le_of_lt Nat.lt_two_pow_self)
      (fun i hi => ?_) ⟨?_, fun i => ?_⟩
    · have hpow := Nat.two_pow_pos k
      have hle := @first_le k p
      have hfirst := @first_next k p
      rw [hbit] at hfirst
      have hnew := received_lower op hbit (Nat.le_refl p) htmp hrecv.2
      rw [if_pos (by omega)]
      by_cases hflag : recv.2 = false
      · rw [if_neg (hrecv.1.mp hflag)] at hnew
        rw [if_pos hflag]
        exact ⟨iff_of_false (by simp) (by omega), hnew⟩
      · rw [if_pos (not_not.mp fun h => hflag (hrecv.1.mpr h))] at hnew
        rw [if_neg hflag]
        exact ⟨iff_of_false hflag (by omega), hnew⟩
    · have hfirst := @first_next k p
      rw [hbit, Nat.zero_mul, Nat.add_zero] at hfirst
      exact ⟨by rw [← hfirst]; exact hrecv.1, received_keep op hbit hrecv.2⟩
    · exact received_end op hk hp hrecv.2
    · rw [localcopy, if_pos hi, scanned, input]
    · rw [first_zero]
      exact iff_of_true rfl (Nat.lt_irrefl p)
    · rw [first_zero, if_neg fun h => Nat.lt_irrefl p h.2]

end Results

theorem scanGeneric_append :
    let args : Nat → Args (List Nat) := fun rank => ⟨fun i => [rank, i], rank == 1, fun i => [i], fun _ => []⟩
    Computes (fun _ : Unit => Finset.range 3) SameRange
      (ofRank 3 (fun rank => scanGeneric (· ++ ·) false 3 rank 2 (args rank))
        fun rank => combined (· ++ ·) 2 args (rank + 1) rank) fun rank => combined (· ++ ·) 2 args (rank + 1) rank :=
  scanGeneric_computes (fun a b : List Nat => a ++ b) (by rintro ⟨⟩) 3 2 _

theorem exscan_append :
    let args : Nat → Args (List Nat) := fun rank => ⟨fun i => [rank, i], rank == 1, fun i => [i], fun _ => []⟩
    Computes (fun _ : Unit => Finset.range 3) SameRange
      (ofRank 3 (fun rank => exscan (· ++ ·) false 3 rank 2 (args rank))
        fun rank => combined (· ++ ·) 2 args rank rank) fun rank => combined (· ++ ·) 2 args rank rank :=
  exscan_computes (fun a b : List Nat => a ++ b) (by rintro ⟨⟩) 3 2 _

end FgMpi.Coll.Scan
