import FgMpi.Coll.HalvingPlan
import FgMpi.Coll.ReduceTree

/-! The plan of `MPIR_Reduce_redscat_gather`. -/

namespace FgMpi.Coll.Reduce
open Machine.Dialogues Machine.Bits Machine.Folds Buffers Halving

section Gather
variable {α : Type} (count m newroot : Nat) (total : Nat → α)

def gatherDst (j s : Nat) : Option Nat :=
  if s < 2 ^ m ∧ s / 2 ^ (j + 1) = newroot / 2 ^ (j + 1) ∧ s / 2 ^ j ≠ newroot / 2 ^ j then
    some (s ^^^ 2 ^ j)
  else none

def gatherSrc (j s : Nat) : Option Nat :=
  if s < 2 ^ m ∧ s / 2 ^ (j + 1) = newroot / 2 ^ (j + 1) ∧ s / 2 ^ j = newroot / 2 ^ j then
    some (s ^^^ 2 ^ j)
  else none

def gatherAct (j : Nat) : Nat → Act Unit Nat (Nat × α) :=
  exchange () (gatherDst m newroot j) (gatherSrc m newroot j)
    (fun s => slice total (windowOff count m s (j + 1)) (windowLen count m s (j + 1)))
    fun s => (windowOff count m (s ^^^ 2 ^ j) (j + 1), windowLen count m (s ^^^ 2 ^ j) (j + 1))

variable {count m newroot total} {j k s : Nat}

theorem xor_side (h : s / 2 ^ (j + 1) = newroot / 2 ^ (j + 1)) :
    s / 2 ^ j ≠ newroot / 2 ^ j ↔ (s ^^^ 2 ^ j) / 2 ^ j = newroot / 2 ^ j := by
  have hhigh : (s ^^^ 2 ^ j) / 2 ^ (j + 1) = s / 2 ^ (j + 1) := xor_div_above (Nat.lt_succ_self j)
  have hbit := @xor_bit s j
  rw [Nat.pow_succ, ← Nat.div_div_eq_div_mul, ← Nat.div_div_eq_div_mul] at h hhigh
  omega

theorem gather_iff (hj : j < m) {p q : Nat} :
    gatherDst m newroot j p = some q ↔ gatherSrc m newroot j q = some p := by
  unfold gatherDst gatherSrc
  constructor
  · intro h
    split at h
    · rename_i hp
      obtain rfl := Option.some.inj h
      obtain ⟨hlt, hhigh, hside⟩ := hp
      have hsame : (p ^^^ 2 ^ j) / 2 ^ (j + 1) = newroot / 2 ^ (j + 1) := by
        rw [xor_div_above (Nat.lt_succ_self j), hhigh]
      rw [if_pos ⟨xor_lt hlt hj, hsame, (xor_side hhigh).mp hside⟩, xor_xor]
    · exact nomatch h
  · intro h
    split at h
    · rename_i hq
      obtain rfl := Option.some.inj h
      obtain ⟨hlt, hhigh, hside⟩ := hq
      have hsame : (q ^^^ 2 ^ j) / 2 ^ (j + 1) = newroot / 2 ^ (j + 1) := by
        rw [xor_div_above (Nat.lt_succ_self j), hhigh]
      have hother : (q ^^^ 2 ^ j) / 2 ^ j ≠ newroot / 2 ^ j := by
        rw [xor_side hsame, xor_xor]
        exact hside
      rw [if_pos ⟨xor_lt hlt hj, hsame, hother⟩, xor_xor]
    · exact nomatch h

theorem gatherAct_agree (hj : j < m) : Agree (gatherAct count m newroot total j) :=
  exchange_agree fun _ _ => gather_iff hj

theorem gatherAct_outside (hs : ¬ s < 2 ^ m) : gatherAct count m newroot total j s = .idle :=
  exchange_idle (if_neg fun h => hs h.1) (if_neg fun h => hs h.1)

theorem gatherAct_done (h : s / 2 ^ (j + 1) ≠ newroot / 2 ^ (j + 1)) :
    gatherAct count m newroot total j s = .idle :=
  exchange_idle (if_neg fun hand => h hand.2.1) (if_neg fun hand => h hand.2.1)

theorem gatherAct_send (hs : s < 2 ^ m) (hhigh : s / 2 ^ (j + 1) = newroot / 2 ^ (j + 1))
    (hside : s / 2 ^ j ≠ newroot / 2 ^ j) :
    gatherAct count m newroot total j s = .comm [⟨(), s ^^^ 2 ^ j,
      slice total (windowOff count m s (j + 1)) (windowLen count m s (j + 1))⟩] [] :=
  exchange_send (if_pos ⟨hs, hhigh, hside⟩) (if_neg fun hand => hside hand.2.2)

theorem gatherAct_recv (hs : s < 2 ^ m) (hhigh : s / 2 ^ (j + 1) = newroot / 2 ^ (j + 1))
    (hside : s / 2 ^ j = newroot / 2 ^ j) :
    gatherAct count m newroot total j s = .comm [] [⟨(), s ^^^ 2 ^ j,
      windowOff count m (s ^^^ 2 ^ j) (j + 1), windowLen count m (s ^^^ 2 ^ j) (j + 1),
      slice total (windowOff count m (s ^^^ 2 ^ j) (j + 1)) (windowLen count m (s ^^^ 2 ^ j) (j + 1))⟩] :=
  exchange_recv (if_neg fun hand => hand.2.2 hside) (if_pos ⟨hs, hhigh, hside⟩)

theorem topMask_eq {fuel k : Nat} (hk : k ≤ m) (hfuel : m ≤ k + fuel) :
    topMask (2 ^ m) fuel (2 ^ k) k = (2 ^ m / 2, m - 1) := by
  induction fuel generalizing k with
  | zero =>
    obtain rfl : k = m := by omega
    rfl
  | succ fuel ih =>
    rw [topMask]
    by_cases hlt : k < m
    · rw [if_pos (Nat.pow_lt_pow_right Nat.one_lt_two hlt), ← Nat.pow_succ']
      exact ih hlt (by omega)
    · obtain rfl : k = m := by omega
      rw [if_neg (Nat.lt_irrefl _)]

theorem treeRoot_eq {a b : Nat} : a >>> j <<< j = b >>> j <<< j ↔ a / 2 ^ j = b / 2 ^ j := by
  rw [Nat.shiftLeft_eq, Nat.shiftLeft_eq, Nat.shiftRight_eq_div_pow, Nat.shiftRight_eq_div_pow,
    Nat.mul_left_inj (Nat.ne_of_gt (Nat.two_pow_pos j))]

variable {root rem base n : Nat} {res : Option (Nat → α)} {act : Nat → Act Unit Nat (Nat × α)}
variable {real : Nat → Nat} {next : (Nat → α) → RankProg α} {rest : Nat → α}

theorem gatherSteps_follows (hs : s < 2 ^ m)
    (hreal : ∀ t < 2 ^ m, real t = if t = 0 ∧ root < 2 * rem ∧ root % 2 ≠ 0 then root
      else if t < rem then t * 2 else t + rem)
    (hact : ∀ d < m, act (base + d) = (gatherAct count m newroot total (m - 1 - d) s).rename real)
    (hnext : ∀ buf, (s = newroot → ∀ i < count, buf i = total i) → (∀ i, count ≤ i → buf i = rest i) →
      Follows SameRange res (staged act (base + m) n) (next buf))
    {fuel k : Nat} (hk : k ≤ m) (hfuel : k ≤ fuel) (hsame : s / 2 ^ k = newroot / 2 ^ k)
    {lastIdx : Nat} {recvbuf : Nat → α}
    (hback : Back count m total rest s k lastIdx recvbuf) :
    Follows SameRange res (staged act (base + (m - k)) (k + n))
      (gatherSteps root rem (2 ^ m) newroot s (cntsOf count (2 ^ m)) (dispsOf (cntsOf count (2 ^ m))) next
        fuel (2 ^ k / 2) (k - 1) (startAt m s k) lastIdx recvbuf) := by
  induction fuel generalizing k lastIdx recvbuf with
  | zero =>
    obtain rfl : k = 0 := by omega
    rw [Nat.sub_zero, Nat.zero_add]
    exact hnext recvbuf (fun _ => holds_all hback.holds) hback.rest
  | succ fuel ih =>
    rw [gatherSteps]
    cases k with
    | zero =>
      rw [if_neg (by decide), Nat.sub_zero, Nat.zero_add]
      exact hnext recvbuf (fun _ => holds_all hback.holds) hback.rest
    | succ j =>
      have hj : j < m := hk
      have hmask : 2 ^ (j + 1) / 2 = 2 ^ j := by rw [Nat.pow_succ, Nat.mul_div_cancel _ Nat.two_pos]
      have hpeer : s ^^^ 2 ^ j < 2 ^ m := xor_lt hs hj
      have hthis := hact (m - (j + 1)) (by omega)
      have hlevel : m - 1 - (m - (j + 1)) = j := by omega
      rw [hlevel] at hthis
      have hturns : j + 1 + n = j + n + 1 := by omega
      have hstep : base + (m - (j + 1)) + 1 = base + (m - j) := by omega
      rw [hmask, if_pos (Nat.two_pow_pos j), merge_eq count hj (hback.last (Nat.succ_pos j)), Nat.add_sub_cancel]
      dsimp only [fetch]
      rw [← hreal _ hpeer]
      by_cases hside : (s ^^^ 2 ^ j) / 2 ^ j = newroot / 2 ^ j
      · -- send and exit
        have hmine : s / 2 ^ j ≠ newroot / 2 ^ j := (xor_side hsame).mpr hside
        rw [gatherAct_send hs hsame hmine] at hthis
        simp only [Act.rename, List.map_cons, List.map_nil] at hthis
        rw [if_pos (treeRoot_eq.mpr hside), dispsOf_get (startAt_lt hk), hturns, staged_send hthis]
        dsimp only
        rw [hback.message]
        refine follows_send ?_
        have hskip : ∀ d, base + (m - (j + 1)) + 1 ≤ d → d < base + (m - (j + 1)) + 1 + j →
            act d = .idle := by
          intro d hlow hhigh
          obtain ⟨e, rfl⟩ := Nat.exists_eq_add_of_le (show base ≤ d by omega)
          rw [hact e (by omega), gatherAct_done]
          · rfl
          · intro heq
            have hle : m - 1 - e + 1 ≤ j := by omega
            obtain ⟨f, hf⟩ := Nat.exists_eq_add_of_le hle
            refine hmine ?_
            rw [hf, Nat.pow_add, ← Nat.div_div_eq_div_mul, ← Nat.div_div_eq_div_mul, heq]
        have hend : base + (m - (j + 1)) + 1 + j = base + m := by omega
        rw [staged_skip hskip, hend]
        exact hnext recvbuf (fun heq => absurd (by rw [heq]) hmine) hback.rest
      · -- receive and continue
        have hmine : s / 2 ^ j = newroot / 2 ^ j := by
          by_contra hne
          exact hside ((xor_side hsame).mp hne)
        rw [gatherAct_recv hs hsame hmine] at hthis
        simp only [Act.rename, List.map_cons, List.map_nil] at hthis
        have hdisp : (dispsOf (cntsOf count (2 ^ m)))[startAt m (s ^^^ 2 ^ j) (j + 1)]? =
            some (windowOff count m (s ^^^ 2 ^ j) (j + 1)) := dispsOf_get (startAt_lt hk)
        rw [if_neg fun h => hside (treeRoot_eq.mp h), hdisp, hturns, staged_recv hthis]
        refine follows_recv ?_
        rw [merged_start, hstep]
        exact ih (by omega) (by omega) hmine (hback.merged hj)

end Gather

section Ranks
variable {commSize root rem m p s rank : Nat}

def oldRank (rem s : Nat) : Nat := if s < rem then s * 2 else s + rem

def newRank (commSize rem p : Nat) : Option Nat :=
  if p < 2 * rem then if p % 2 = 0 then some (p / 2) else none
  else if p < commSize then some (p - rem)
  else none

theorem newRank_some (hsum : 2 ^ m + rem = commSize) (hrem : rem < 2 ^ m) (h : newRank commSize rem p = some s) :
    s < 2 ^ m ∧ oldRank rem s = p := by
  unfold newRank at h
  split at h
  · split at h
    · obtain rfl := Option.some.inj h
      refine ⟨by omega, ?_⟩
      rw [oldRank, if_pos (by omega)]
      omega
    · exact nomatch h
  · split at h
    · obtain rfl := Option.some.inj h
      refine ⟨by omega, ?_⟩
      rw [oldRank, if_neg (by omega)]
      omega
    · exact nomatch h

theorem newRank_old (hsum : 2 ^ m + rem = commSize) (hs : s < 2 ^ m) :
    newRank commSize rem (oldRank rem s) = some s := by
  unfold oldRank
  split
  · rw [newRank, if_pos (by omega), if_pos (by omega)]
    congr 1
    omega
  · rw [newRank, if_neg (by omega), if_pos (by omega), Nat.add_sub_cancel]

def Excluded (root rem : Nat) : Prop := root < 2 * rem ∧ root % 2 ≠ 0

instance : Decidable (Excluded root rem) := inferInstanceAs (Decidable (_ ∧ _))

def gatherRank (commSize root rem p : Nat) : Option Nat :=
  if Excluded root rem then
    if p = root then some 0 else if p = 0 then none else newRank commSize rem p
  else newRank commSize rem p

def gatherOld (root rem s : Nat) : Nat :=
  if s = 0 ∧ root < 2 * rem ∧ root % 2 ≠ 0 then root else if s < rem then s * 2 else s + rem

def newRoot (root rem : Nat) : Nat :=
  if root < 2 * rem then if root % 2 ≠ 0 then 0 else root / 2 else root - rem

section
variable (hsum : 2 ^ m + rem = commSize)
include hsum

theorem gatherRank_some (hrem : rem < 2 ^ m)
    (h : gatherRank commSize root rem p = some s) : s < 2 ^ m ∧ gatherOld root rem s = p := by
  unfold gatherRank at h
  unfold gatherOld
  split at h
  · rename_i hex
    split at h
    · rename_i hp
      obtain rfl := Option.some.inj h
      rw [if_pos ⟨rfl, hex⟩]
      exact ⟨Nat.two_pow_pos m, hp.symm⟩
    · split at h
      · exact nomatch h
      · rename_i hzero
        obtain ⟨hs, hold⟩ := newRank_some hsum hrem h
        have hne : s ≠ 0 := by
          rintro rfl
          have hpos : 0 < rem := by
            have := hex.1
            omega
          rw [oldRank, if_pos hpos] at hold
          omega
        rw [if_neg fun hand => hne hand.1]
        exact ⟨hs, hold⟩
  · rename_i hex
    obtain ⟨hs, hold⟩ := newRank_some hsum hrem h
    rw [if_neg fun hand => hex hand.2]
    exact ⟨hs, hold⟩

theorem gatherRank_old (hs : s < 2 ^ m) : gatherRank commSize root rem (gatherOld root rem s) = some s := by
  have hback := newRank_old hsum hs
  by_cases hex : Excluded root rem
  · by_cases hzero : s = 0
    · have hold : gatherOld root rem s = root := if_pos ⟨hzero, hex⟩
      rw [gatherRank, if_pos hex, hold, if_pos rfl, hzero]
    · have hold : gatherOld root rem s = oldRank rem s := if_neg fun hand => hzero hand.1
      obtain ⟨hlt, hodd⟩ := hex
      have hne : oldRank rem s ≠ root ∧ oldRank rem s ≠ 0 := by
        unfold oldRank
        split <;> omega
      rw [gatherRank, if_pos ⟨hlt, hodd⟩, hold, if_neg hne.1, if_neg hne.2]
      exact hback
  · have hold : gatherOld root rem s = oldRank rem s := if_neg fun hand => hex hand.2
    rw [gatherRank, if_neg hex, hold]
    exact hback

theorem newRoot_lt (hrem : rem < 2 ^ m) (hroot : root < commSize) : newRoot root rem < 2 ^ m := by
  have hpos := Nat.two_pow_pos m
  unfold newRoot
  split
  · split <;> omega
  · omega

end

theorem gatherRank_root (hroot : root < commSize) :
    gatherRank commSize root rem root = some (newRoot root rem) := by
  unfold gatherRank newRoot Excluded newRank
  by_cases hlt : root < 2 * rem
  · by_cases hodd : root % 2 = 0
    · simp [hlt, hodd]
    · simp [hlt, hodd]
  · simp [hlt, hroot]

end Ranks

section Plan
variable {α : Type} (op : α → α → α) (commSize root count m rem : Nat) (x : Nat → Nat → α)

def paired (s : Nat) : Nat → α := fun i =>
  if s < rem then op (x (s * 2 + 1) i) (x (s * 2) i) else x (s + rem) i

def wholeOf : Nat → α := fun i => fold op (fun t => paired op rem x t i) 0 (2 ^ m - 1)

def redscatAct (p k : Nat) : Act Unit Nat (Nat × α) :=
  if k = 0 then toEven count rem x p
  else if k < 1 + m then
    playing (newRank commSize rem) (oldRank rem) (halvingAct op (paired op rem x) count m (k - 1)) p
  else if k = 1 + m then
    if Excluded root rem then passOn root (wholeOf op m rem x) (windowLen count m 0 m) p else .idle
  else
    playing (gatherRank commSize root rem) (gatherOld root rem)
      (gatherAct count m (newRoot root rem) (wholeOf op m rem x) (m - 1 - (k - (m + 2)))) p

variable {op commSize root count m rem x}

theorem wholeOf_eq [Std.Associative op] (hcomm : ∀ a b, op a b = op b a) (hsum : 2 ^ m + rem = commSize)
    (hrem : rem < 2 ^ m) (i : Nat) : wholeOf op m rem x i = fold op (fun r => x r i) 0 (commSize - 1) := by
  rw [← pairs_fold op hsum hrem fun r => x r i]
  refine fold_congr op fun t _ _ => ?_
  rw [paired]
  split
  · exact hcomm _ _
  · rfl

theorem redscat_plan (hsum : 2 ^ m + rem = commSize) (hrem : rem < 2 ^ m) (hroot : root < commSize) :
    Plan (Finset.range commSize) (fun _ : Unit => Finset.range commSize) fun p =>
      staged (redscatAct op commSize root count m rem x p) 0 (m + 2 + m) := by
  refine staged_plan (fun k hk => ?_) (fun p k c mine needs h => ?_) fun p hp k _ => ?_
  · unfold redscatAct
    by_cases h0 : k = 0
    · simp only [if_pos h0]
      exact toEven_agree
    · simp only [if_neg h0]
      by_cases h1 : k < 1 + m
      · simp only [if_pos h1]
        exact playing_agree (halvingAct_agree (by omega)) (fun s hs => halvingAct_outside hs)
          (fun p s hs => newRank_some hsum hrem hs) fun s hs => newRank_old hsum hs
      · simp only [if_neg h1]
        by_cases h2 : k = 1 + m
        · simp only [if_pos h2]
          by_cases hex : Excluded root rem
          · simp only [if_pos hex]
            exact passOn_agree
          · simp only [if_neg hex]
            exact fun _ _ _ _ => rfl
        · simp only [if_neg h2]
          exact playing_agree (gatherAct_agree (by omega)) (fun s hs => gatherAct_outside hs)
            (fun p s hs => gatherRank_some hsum hrem hs) fun s hs => gatherRank_old hsum hs
  · unfold redscatAct playing at h
    split at h
    · cases h
    · split at h
      · split at h <;> cases h
      · split at h
        · split at h <;> cases h
        · split at h <;> cases h
  · have hout : ¬ p < commSize := fun h => hp (Finset.mem_range.mpr h)
    have hnew : newRank commSize rem p = none := by
      rw [newRank, if_neg (by omega), if_neg hout]
    unfold redscatAct
    split
    · exact toEven_other (by omega)
    · split
      · exact playing_none hnew
      · split
        · split
          · exact passOn_other (by omega) (by omega)
          · rfl
        · refine playing_none ?_
          rw [gatherRank, hnew]
          split
          · rw [if_neg (by omega), if_neg (by omega)]
          · rfl

variable {args : Nat → Args α} {rank : Nat}

section Gathering
variable (hsum : 2 ^ m + rem = commSize) (hrem : rem < 2 ^ m) (hroot : root < commSize)
variable (hwhole : ∀ i < count, wholeOf op m rem x i = fold op (fun r => input root args r i) 0 (commSize - 1))
include hsum hrem hroot hwhole

theorem gatherAs_follows {role : Option Nat} (hrole : gatherRank commSize root rem rank = role)
    {sendIdx lastIdx : Nat} {buf : Nat → α} (hwindow : ∀ s, role = some s →
      Holds count m s m buf (wholeOf op m rem x) ∧ sendIdx = startAt m s m ∧
        (0 < m → lastIdx = startAt m s (m - 1) + 2))
    (hrest : rank = root → ∀ i, count ≤ i → buf i = (args root).recvbuf i) :
    Follows SameRange (result op commSize root count args rank)
      (staged (redscatAct op commSize root count m rem x rank) (m + 2) m)
      (gatherAs root rem (2 ^ m) (cntsOf count (2 ^ m)) (dispsOf (cntsOf count (2 ^ m)))
        (leave (args rank) root rank) (newRoot root rem) role sendIdx lastIdx buf) := by
  have hlevel : ∀ d, redscatAct op commSize root count m rem x rank (m + 2 + d) =
      playing (gatherRank commSize root rem) (gatherOld root rem)
        (gatherAct count m (newRoot root rem) (wholeOf op m rem x) (m - 1 - d)) rank := by
    intro d
    rw [redscatAct, if_neg (by omega), if_neg (by omega), if_neg (by omega), Nat.add_sub_cancel_left]
  cases role with
  | none =>
    have hskip : ∀ j, m + 2 ≤ j → j < m + 2 + m →
        redscatAct op commSize root count m rem x rank j = .idle := by
      intro j hlow _
      obtain ⟨d, rfl⟩ := Nat.exists_eq_add_of_le hlow
      rw [hlevel, playing_none hrole]
    rw [staged_nothing hskip]
    have hnot : rank ≠ root := by
      rintro rfl
      rw [gatherRank_root hroot] at hrole
      exact nomatch hrole
    exact leave_follows (fun h => absurd h hnot) fun h => absurd h hnot
  | some s =>
    obtain ⟨hs, hold⟩ := gatherRank_some hsum hrem hrole
    obtain ⟨hbuf, rfl, hlast⟩ := hwindow s rfl
    have htop : topMask (2 ^ m) (2 ^ m) 1 0 = (2 ^ m / 2, m - 1) :=
      topMask_eq (k := 0) (Nat.zero_le m) (by rw [Nat.zero_add]; exact Nat.le_of_lt Nat.lt_two_pow_self)
    have hfollows : Follows SameRange (result op commSize root count args rank)
        (staged (redscatAct op commSize root count m rem x rank) (m + 2 + (m - m)) (m + 0))
        (gatherSteps root rem (2 ^ m) (newRoot root rem) s (cntsOf count (2 ^ m))
          (dispsOf (cntsOf count (2 ^ m))) (leave (args rank) root rank) (2 ^ m) (2 ^ m / 2) (m - 1)
          (startAt m s m) lastIdx buf) := by
      refine gatherSteps_follows hs (fun t _ => rfl) (fun d _ => ?_) (fun b hdone hkeep => ?_)
        (Nat.le_refl m) (Nat.le_of_lt Nat.lt_two_pow_self) ?_ ⟨fun hpos => ?_, hbuf, fun _ _ => rfl⟩
      · rw [hlevel, playing_some hrole]
        rfl
      · refine leave_follows (fun h i hi => ?_) fun h i hi => ?_
        · rw [h, gatherRank_root hroot] at hrole
          rw [hdone (Option.some.inj hrole).symm i hi, hwhole i hi]
        · rw [hkeep i hi, hrest h i hi]
      · rw [Nat.div_eq_of_lt hs, Nat.div_eq_of_lt (newRoot_lt hsum hrem hroot)]
      · rw [if_pos rfl]
        exact hlast hpos
    rw [Nat.sub_self] at hfollows
    rw [gatherAs, htop]
    exact hfollows

theorem gatherToRoot_follows {newrank : Option Nat} (hnew : newRank commSize rem rank = newrank)
    {sendIdx lastIdx : Nat} {buf : Nat → α} (hwindow : ∀ s, newrank = some s →
      Holds count m s m buf (wholeOf op m rem x) ∧ sendIdx = startAt m s m ∧
        (0 < m → lastIdx = startAt m s (m - 1) + 2))
    (hrest : rank = root → ∀ i, count ≤ i → buf i = (args root).recvbuf i) :
    Follows SameRange (result op commSize root count args rank)
      (staged (redscatAct op commSize root count m rem x rank) (1 + m) (m + 1))
      (gatherToRoot root rank rem (2 ^ m) (cntsOf count (2 ^ m)) (dispsOf (cntsOf count (2 ^ m)))
        (leave (args rank) root rank) newrank sendIdx lastIdx buf) := by
  have hlevel : redscatAct op commSize root count m rem x rank (1 + m) =
      if Excluded root rem then passOn root (wholeOf op m rem x) (windowLen count m 0 m) rank
      else .idle := by
    rw [redscatAct, if_neg (by omega), if_neg (Nat.lt_irrefl _), if_pos rfl]
  have hnext : 1 + m + 1 = m + 2 := by omega
  have hcnt : (cntsOf count (2 ^ m))[0]? = some (windowLen count m 0 m) := by
    rw [cntsOf_get (Nat.two_pow_pos m), windowLen, startAt_zero, Nat.sub_self, Nat.pow_zero]
  have hoff : windowOff count m 0 m = 0 := by rw [windowOff, startAt_zero, edge_zero]
  rw [gatherToRoot]
  by_cases hex : Excluded root rem
  · obtain ⟨hlt, hodd⟩ := hex
    have hzero : newRoot root rem = 0 := by rw [newRoot, if_pos hlt, if_pos hodd]
    have hgather : gatherRank commSize root rem rank =
        if rank = root then some 0 else if rank = 0 then none else newRank commSize rem rank :=
      if_pos ⟨hlt, hodd⟩
    have hgo := @gatherAs_follows α op commSize root count m rem x args rank hsum hrem hroot hwhole
    rw [hzero] at hgo
    rw [if_pos ⟨hlt, hodd⟩] at hlevel
    rw [if_pos hlt, if_pos hodd, hcnt]
    dsimp only [fetch]
    by_cases hthis : rank = root
    · -- take on the role of process 0
      rw [passOn_root (by omega) hthis] at hlevel
      rw [if_pos hthis] at hgather ⊢
      rw [staged_recv hlevel, hnext]
      refine follows_recv (hgo hgather (fun s hs => ?_) fun h i hi => ?_)
      · obtain rfl := Option.some.inj hs
        refine ⟨fun i hlow hhigh => ?_, (startAt_zero m m).symm, fun _ => by rw [startAt_zero]⟩
        rw [hoff, Nat.zero_add] at hhigh
        rw [store_slice]
        exact if_pos ⟨Nat.zero_le _, by omega⟩
      · have hle : windowOff count m 0 m + windowLen count m 0 m ≤ count := window_le count
        rw [store_slice]
        dsimp only
        rw [if_neg (by omega), hrest h i hi]
    · rw [if_neg hthis] at hgather ⊢
      by_cases hfirst : newrank = some 0
      · -- hand over what process 0 has
        have hrank : rank = 0 := by
          rw [hfirst] at hnew
          rw [← (newRank_some hsum hrem hnew).2, oldRank, if_pos (by omega)]
        rw [passOn_first hrank hthis] at hlevel
        rw [if_pos hrank] at hgather
        obtain ⟨hbuf, -, -⟩ := hwindow 0 hfirst
        have hmsg : slice (wholeOf op m rem x) 0 (windowLen count m 0 m) =
            slice buf 0 (windowLen count m 0 m) := by
          refine slice_congr fun i hlow hhigh => (hbuf i ?_ ?_).symm
          · rw [hoff]
            exact hlow
          · rw [hoff]
            exact hhigh
        rw [if_pos hfirst, staged_send hlevel, hnext, hmsg]
        exact follows_send (hgo hgather (by rintro s ⟨⟩) hrest)
      · rw [if_neg hfirst]
        have hne : rank ≠ 0 := by
          rintro rfl
          rw [newRank, if_pos (by omega), if_pos rfl] at hnew
          exact hfirst hnew.symm
        rw [passOn_other hne hthis] at hlevel
        rw [if_neg hne] at hgather
        rw [staged_idle hlevel, hnext]
        exact hgo (hgather.trans hnew) hwindow hrest
  · have hgather : gatherRank commSize root rem rank = newrank := by
      rw [gatherRank, if_neg hex, hnew]
    have hdone := gatherAs_follows hsum hrem hroot hwhole hgather hwindow hrest
    rw [if_neg hex] at hlevel
    rw [staged_idle hlevel, hnext]
    unfold newRoot at hdone
    by_cases hlt : root < 2 * rem
    · have heven : ¬ root % 2 ≠ 0 := fun hodd => hex ⟨hlt, hodd⟩
      rw [if_pos hlt, if_neg heven] at hdone ⊢
      exact hdone
    · rw [if_neg hlt] at hdone ⊢
      exact hdone

end Gathering

section Scattering
variable (hcomm : ∀ a b, op a b = op b a) (hsum : 2 ^ m + rem = commSize) (hrem : rem < 2 ^ m)
variable (hroot : root < commSize)
include hcomm hsum hrem hroot

theorem scatter_follows [Std.Associative op] {s : Nat} (hnew : newRank commSize rem rank = some s)
    {recvbuf tmpBuf : Nat → α} (hbuf : ∀ i < count, recvbuf i = paired op rem (input root args) s i)
    (hrest : rank = root → ∀ i, count ≤ i → recvbuf i = (args root).recvbuf i) :
    Follows SameRange (result op commSize root count args rank)
      (staged (redscatAct op commSize root count m rem (input root args) rank) (1 + 0) (m - 0 + (m + 1)))
      (halvingSteps op (cntsOf count (2 ^ m)) (dispsOf (cntsOf count (2 ^ m))) (2 ^ m) s (oldRank rem)
        (fun _ => gatherToRoot root rank rem (2 ^ m) (cntsOf count (2 ^ m)) (dispsOf (cntsOf count (2 ^ m)))
          (leave (args rank) root rank) (some s)) (2 ^ m) (2 ^ 0) (startAt m s 0) (startAt m s 0) (2 ^ m)
        recvbuf tmpBuf) := by
  obtain ⟨hs, -⟩ := newRank_some hsum hrem hnew
  refine halvingSteps_follows (y := paired op rem (input root args)) hcomm hs (fun t _ => rfl)
    (fun k hk => ?_) (fun lastIdx buf hlast hholds hkeep => ?_) (Nat.zero_le m)
    (by rw [Nat.zero_add]; exact Nat.le_of_lt Nat.lt_two_pow_self) (fun _ => ?_)
    (fun hzero hpos => by omega) (fun i _ hhigh => ?_) fun i _ => rfl
  · rw [redscatAct, if_neg (by omega), if_pos (by omega), playing_some hnew, Nat.add_sub_cancel_left]
  · refine gatherToRoot_follows hsum hrem hroot (fun i _ => wholeOf_eq hcomm hsum hrem i) hnew
      (fun t ht => ?_) fun h i hi => ?_
    · obtain rfl := Option.some.inj ht
      rw [group_all op _ hs] at hholds
      exact ⟨hholds, rfl, hlast⟩
    · rw [hkeep i hi, hrest h i hi]
  · rw [startAt, Nat.zero_add, Nat.sub_zero]
  · have hle : windowOff count m s 0 + windowLen count m s 0 ≤ count := window_le count
    rw [group_zero, hbuf i (by omega)]

theorem redscatGather_follows [Std.Associative op] (hrank : rank < commSize) :
    Follows SameRange (result op commSize root count args rank)
      (staged (redscatAct op commSize root count m rem (input root args) rank) 0 (m + 2 + m))
      (reduceRedscatGather op commSize root rank count (args rank)) := by
  have hpow : 2 ^ (m + 1) = 2 * 2 ^ m := Nat.pow_succ'
  have hpos := Nat.two_pow_pos m
  have hpof2 : pof2Of commSize = 2 ^ m := pof2Of_eq (by omega) (by omega)
  have hremEq : commSize - 2 ^ m = rem := by omega
  have hlevels : m + 2 + m = m + (m + 1) + 1 := by omega
  have hfirst : redscatAct op commSize root count m rem (input root args) rank 0 =
      toEven count rem (input root args) rank := if_pos rfl
  have hwork : ∀ i < count, workBuf (args rank) root rank count i = input root args rank i :=
    fun i hi => workBuf_input root count args hi
  have hrest : rank = root → ∀ i, count ≤ i → workBuf (args rank) root rank count i = (args root).recvbuf i := by
    rintro rfl i hi
    exact workBuf_rest rank count args hi
  rw [reduceRedscatGather]
  dsimp only
  rw [hpof2, hremEq, hlevels]
  by_cases hpair : rank < 2 * rem
  · rw [if_pos hpair]
    by_cases hodd : rank % 2 ≠ 0
    · -- left out
      rw [toEven_odd hpair hodd] at hfirst
      have hmsg : slice (input root args rank) 0 count = slice (workBuf (args rank) root rank count) 0 count :=
        slice_congr fun i _ hi => (hwork i (by omega)).symm
      have hnew : newRank commSize rem rank = none := by rw [newRank, if_pos hpair, if_neg hodd]
      have hskip : ∀ j, 0 + 1 ≤ j → j < 0 + 1 + m →
          redscatAct op commSize root count m rem (input root args) rank j = .idle := by
        intro j hlow hhigh
        rw [redscatAct, if_neg (by omega), if_pos (by omega), playing_none hnew]
      have hstart : 0 + 1 + m = 1 + m := by omega
      rw [if_pos hodd, staged_send hfirst, hmsg]
      refine follows_send ?_
      rw [staged_skip hskip, hstart]
      exact gatherToRoot_follows hsum hrem hroot (fun i _ => wholeOf_eq hcomm hsum hrem i) hnew
        (fun s hs => (nomatch hs)) hrest
    · have heven : rank % 2 = 0 := by omega
      have hnew : newRank commSize rem rank = some (rank / 2) := by rw [newRank, if_pos hpair, if_pos heven]
      have htwice : rank / 2 * 2 = rank := by omega
      rw [toEven_even hpair heven] at hfirst
      rw [if_neg hodd, staged_recv hfirst]
      refine follows_recv ?_
      refine scatter_follows hcomm hsum hrem hroot hnew (fun i hi => ?_) fun h i hi => ?_
      · rw [reduceLocal, if_pos ⟨Nat.zero_le _, by omega⟩, store_slice, hwork i hi, paired,
          if_pos (by omega), htwice]
        dsimp only
        rw [if_pos ⟨Nat.zero_le _, by omega⟩]
      · rw [reduceLocal, if_neg (by omega), hrest h i hi]
  · have hnew : newRank commSize rem rank = some (rank - rem) := by
      rw [newRank, if_neg hpair, if_pos hrank]
    have hback : rank - rem + rem = rank := by omega
    rw [toEven_other hpair] at hfirst
    rw [if_neg hpair, staged_idle hfirst]
    refine scatter_follows hcomm hsum hrem hroot hnew (fun i hi => ?_) hrest
    rw [hwork i hi, paired, if_neg (by omega), hback]

end Scattering

theorem redscatGather_computes [Std.Associative op] (hcomm : ∀ a b, op a b = op b a)
    (hroot : root < commSize) :
    Computes (fun _ : Unit => Finset.range commSize) SameRange
      (ofRank commSize (fun rank => reduceRedscatGather op commSize root rank count (args rank))
        (result op commSize root count args))
      (result op commSize root count args) := by
  obtain ⟨m, hlow, hhigh⟩ : ∃ m, 2 ^ m ≤ commSize ∧ commSize < 2 ^ (m + 1) :=
    ⟨Nat.log2 commSize, Nat.log2_self_le (by omega), Nat.lt_log2_self⟩
  have hpow : 2 ^ (m + 1) = 2 * 2 ^ m := Nat.pow_succ'
  obtain ⟨rem, hsum⟩ := Nat.exists_eq_add_of_le hlow
  have hplan : Plan (Finset.range commSize) (fun _ : Unit => Finset.range commSize) fun p =>
      staged (redscatAct op commSize root count m rem (input root args) p) 0 (m + 2 + m) :=
    redscat_plan hsum.symm (by omega) hroot
  refine hplan.computes sameRange_le fun p => ?_
  unfold ofRank
  by_cases hp : p < commSize
  · rw [if_pos hp]
    exact redscatGather_follows hcomm hsum.symm (by omega) hroot hp
  · rw [if_neg hp]
    have hnone := hplan.outside p fun h => hp (Finset.mem_range.mp h)
    rw [hnone]
    rfl

end Plan

/-- Whatever the order of delivery, the root gets the combination of all ranks in their order. -/
theorem reduce_to_root {α : Type} (op : α → α → α) [Std.Associative op] (commSize root count : Nat)
    (args : Nat → Args α) (hroot : root < commSize) (hcount : 0 < count) :
    (∀ isCommutative : Bool, (isCommutative = true → ∀ a b, op a b = op b a) →
      Computes (fun _ : Unit => Finset.range commSize) SameRange
        (ofRank commSize (fun rank => reduceBinomial op isCommutative commSize root rank count (args rank))
          (result op commSize root count args))
        (result op commSize root count args)) ∧
    ((∀ a b, op a b = op b a) →
      Computes (fun _ : Unit => Finset.range commSize) SameRange
        (ofRank commSize (fun rank => reduceRedscatGather op commSize root rank count (args rank))
          (result op commSize root count args))
        (result op commSize root count args)) :=
  ⟨fun _ hcomm => binomial_computes hcomm hroot hcount,
    fun hcomm => redscatGather_computes hcomm hroot⟩

theorem reduce_to_root_sum :
    let args : Nat → Args Nat := fun rank => ⟨fun i => rank + i, rank == 1, fun i => rank + i, fun _ => 7⟩
    Computes (fun _ : Unit => Finset.range 3) SameRange
      (ofRank 3 (fun rank => reduceBinomial (· + ·) true 3 1 rank 2 (args rank))
        (result (· + ·) 3 1 2 args)) (result (· + ·) 3 1 2 args) ∧
    Computes (fun _ : Unit => Finset.range 3) SameRange
      (ofRank 3 (fun rank => reduceRedscatGather (· + ·) 3 1 rank 2 (args rank))
        (result (· + ·) 3 1 2 args)) (result (· + ·) 3 1 2 args) :=
  ⟨(reduce_to_root (fun a b : Nat => a + b) 3 1 2 _ (by decide) (by decide)).1 true fun _ => Nat.add_comm,
    (reduce_to_root (fun a b : Nat => a + b) 3 1 2 _ (by decide) (by decide)).2 Nat.add_comm⟩

end FgMpi.Coll.Reduce
