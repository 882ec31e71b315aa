import FgMpi.Coll.Buffers
import FgMpi.Machine.Ints
import Mathlib.Data.Finset.Prod
import Mathlib.Data.Fintype.Basic

/-! `MPIR_Alltoall_inter` (`mpi/coll/alltoall.c:463`). -/

namespace FgMpi.Coll.AlltoallInter
open Machine.Dialogues Machine.Ints Buffers

abbrev Proc := Bool × Nat

section Code
variable {α : Type} (remote : Bool) (remoteSize sendcount recvcount : Nat) (sendbuf : Nat → α)

def orNull (rank : Nat) : Option Proc := if rank ≥ remoteSize then none else some (remote, rank)

/-- `src*recvcount` and `dst*sendcount` -/
@[irreducible] def place (rank count : Nat) : Int := toInt (rank * count)

/-- `MPIC_Sendrecv`, with the addresses; nothing comes of a block before its buffer. -/
def sendrecv (dst src : Option Proc) (recvbuf : Nat → α)
    (next : (Nat → α) → Prog Unit Proc (Nat × α) (Option (Nat → α))) : Prog Unit Proc (Nat × α) (Option (Nat → α)) :=
  if dst = none ∧ src = none then next recvbuf
  else if (∀ q ∈ dst, 0 ≤ place q.2 sendcount) ∧ ∀ q ∈ src, 0 ≤ place q.2 recvcount then
    .comm (dst.toList.map fun q => ⟨(), q, slice sendbuf (place q.2 sendcount).toNat sendcount⟩)
      (src.toList.map fun q => ⟨(), q, (place q.2 recvcount).toNat, recvcount⟩) fun msgs =>
        next (src.elim recvbuf fun q => store recvbuf (place q.2 recvcount).toNat (msgs.headD []))
  else .done none

def exchanges (maxSize rank : Nat) : Nat → Nat → (Nat → α) → Prog Unit Proc (Nat × α) (Option (Nat → α))
  | 0, _, recvbuf => .done (some recvbuf)
  | turns + 1, i, recvbuf =>
    let src := (rank + maxSize - i) % maxSize
    let dst := (rank + i) % maxSize
    sendrecv sendcount recvcount sendbuf (orNull remote remoteSize dst) (orNull remote remoteSize src) recvbuf
      (exchanges maxSize rank turns (i + 1))

def alltoallInter (localSize rank : Nat) (recvbuf : Nat → α) : Prog Unit Proc (Nat × α) (Option (Nat → α)) :=
  let maxSize := max localSize remoteSize
  exchanges remote remoteSize sendcount recvcount sendbuf maxSize rank maxSize 0 recvbuf

end Code

section Plan
variable {α : Type} (size count : Bool → Nat) (sendbuf recvbuf : Proc → Nat → α)

def maxSize : Nat := max (size false) (size true)

def partner (p : Proc) (rank : Nat) : Option Proc := if p.2 < size p.1 then orNull (!p.1) (size !p.1) rank else none

def dst (k : Nat) (p : Proc) : Option Proc := partner size p ((p.2 + k) % maxSize size)
def src (k : Nat) (p : Proc) : Option Proc := partner size p ((p.2 + maxSize size - k) % maxSize size)

def exchangeAct (p : Proc) (k : Nat) : Act Unit Proc (Nat × α) :=
  exchange () (dst size k) (src size k)
    (fun q => slice (sendbuf q) ((q.2 + k) % maxSize size * count q.1) (count q.1))
    (fun q => ((q.2 + maxSize size - k) % maxSize size * count !q.1, count !q.1)) p

def delivered (p : Proc) : Nat → α := fun i =>
  if i < (size !p.1) * (count !p.1) then
    sendbuf (!p.1, i / (count !p.1)) (p.2 * (count !p.1) + i % (count !p.1))
  else recvbuf p i

def received (k : Nat) (p : Proc) : Nat → α := fun i =>
  if (p.2 + maxSize size - i / (count !p.1)) % maxSize size < k then delivered size count sendbuf recvbuf p i
  else recvbuf p i

variable {size count sendbuf recvbuf} {k r u n : Nat} {p q : Proc}

theorem size_le (s : Bool) : size s ≤ maxSize size := by
  cases s with
  | false => exact le_max_left _ _
  | true => exact le_max_right _ _

theorem partner_iff {rank : Nat} :
    partner size p rank = some q ↔ p.2 < size p.1 ∧ rank < (size !p.1) ∧ q = (!p.1, rank) := by
  unfold partner orNull
  split
  · split
    · exact iff_of_false (by simp) (by omega)
    · rename_i hp hrank
      exact ⟨fun h => ⟨hp, Nat.lt_of_not_le hrank, (Option.some.inj h).symm⟩, fun h => h.2.2 ▸ rfl⟩
  · rename_i hp
    exact iff_of_false (by simp) fun h => hp h.1

theorem turn_iff (hr : r < n) (hu : u < n) (hk : k < n) : (r + k) % n = u ↔ (u + n - k) % n = r := by
  rw [rotate_eq hr hk, unrotate_eq hu hk]
  split <;> split <;> omega

theorem step_iff (hr : r < n) (hu : u < n) (hk : k < n) : (r + n - u) % n = k ↔ (r + n - k) % n = u := by
  rw [unrotate_eq hr hu, unrotate_eq hr hk]
  split <;> split <;> omega

theorem dst_iff (hk : k < maxSize size) : dst size k p = some q ↔ src size k q = some p := by
  obtain ⟨s, r⟩ := p
  obtain ⟨t, u⟩ := q
  have hpos := Nat.zero_lt_of_lt hk
  rw [dst, src, partner_iff, partner_iff, Prod.mk.injEq, Prod.mk.injEq]
  constructor
  · rintro ⟨hr, hu, rfl, rfl⟩
    have hback := (turn_iff (Nat.lt_of_lt_of_le hr (size_le s)) (Nat.mod_lt _ hpos) hk).mp rfl
    rw [Bool.not_not, hback]
    exact ⟨hu, hr, rfl, rfl⟩
  · rintro ⟨hu, hr, rfl, rfl⟩
    have hback := (turn_iff (Nat.mod_lt _ hpos) (Nat.lt_of_lt_of_le hu (size_le t)) hk).mpr rfl
    rw [Bool.not_not, hback]
    exact ⟨hr, hu, rfl, rfl⟩

theorem exchangeAct_idle (hp : ¬ p.2 < size p.1) : exchangeAct size count sendbuf p k = .idle :=
  exchange_idle (if_neg hp) (if_neg hp)

theorem exchange_plan : Plan (Finset.univ ×ˢ Finset.range (maxSize size)) (fun _ : Unit => (∅ : Finset Proc)) fun p =>
    staged (exchangeAct size count sendbuf p) 0 (maxSize size) := by
  refine staged_plan (fun k hk => exchange_agree fun _ _ => dst_iff hk) (fun p k c mine needs h => ?_)
    fun p hp k _ => exchangeAct_idle fun h => hp ?_
  · cases h
  · exact Finset.mem_product.mpr ⟨Finset.mem_univ _, Finset.mem_range.mpr (Nat.lt_of_lt_of_le h (size_le p.1))⟩

def Fills (msg : List (Nat × α)) (inp : Inp Unit Proc) : Prop := msg.length = inp.cap

theorem store_block (buf b : Nat → α) (off off' n i : Nat) :
    store buf off (slice b off' n) i = if off ≤ i ∧ i < off + n then b (off' + (i - off)) else buf i := by
  rw [store, slice_get]
  by_cases hlow : off ≤ i
  · rw [if_pos hlow]
    by_cases hhigh : i < off + n
    · rw [if_pos (by omega), if_pos ⟨hlow, hhigh⟩]
    · rw [if_neg (by omega), if_neg fun h => hhigh h.2]
  · rw [if_neg hlow, if_neg fun h => hlow h.1]

section Steps
variable (hp : p.2 < size p.1) (hk : k < maxSize size)
include hp hk

theorem received_next {i : Nat}
    (hi : i < (size !p.1) * (count !p.1) → i / (count !p.1) < (size !p.1) →
      i / (count !p.1) ≠ (p.2 + maxSize size - k) % maxSize size) :
    received size count sendbuf recvbuf (k + 1) p i = received size count sendbuf recvbuf k p i := by
  rw [received, received, delivered]
  by_cases hin : i < (size !p.1) * (count !p.1)
  · have hu : i / (count !p.1) < size !p.1 := Nat.div_lt_of_lt_mul (by rwa [Nat.mul_comm])
    have hne := mt (step_iff (Nat.lt_of_lt_of_le hp (size_le _)) (Nat.lt_of_lt_of_le hu (size_le _)) hk).mp
      (Ne.symm (hi hin hu))
    exact if_congr (by omega) rfl rfl
  · rw [if_neg hin, ite_self, ite_self]

theorem received_none (h : src size k p = none) :
    received size count sendbuf recvbuf (k + 1) p = received size count sendbuf recvbuf k p := by
  refine funext fun i => received_next hp hk fun _ hu heq => ?_
  have hsome := partner_iff.mpr ⟨hp, heq ▸ hu, rfl⟩
  rw [← src, h] at hsome
  cases hsome

theorem received_some (h : src size k p = some q) :
    store (received size count sendbuf recvbuf k p) (q.2 * (count !p.1))
      (slice (sendbuf q) (p.2 * (count !p.1)) (count !p.1)) = received size count sendbuf recvbuf (k + 1) p := by
  obtain ⟨-, hu, rfl⟩ := partner_iff.mp h
  generalize hblock : (p.2 + maxSize size - k) % maxSize size = u at hu ⊢
  funext i
  rw [store_block]
  have hdiv := Nat.div_add_mod' i (count !p.1)
  by_cases hin : u * (count !p.1) ≤ i ∧ i < u * (count !p.1) + (count !p.1)
  · have hthis : i / (count !p.1) = u := Nat.div_eq_of_lt_le hin.1 (by rw [Nat.succ_mul]; exact hin.2)
    have hend := Nat.mul_le_mul_right (count !p.1) (Nat.succ_le_of_lt hu)
    have hstep := (step_iff (Nat.lt_of_lt_of_le hp (size_le _)) (Nat.lt_of_lt_of_le hu (size_le _)) hk).mpr hblock
    rw [Nat.succ_mul] at hend
    rw [hthis] at hdiv
    have hmod : i - u * (count !p.1) = i % (count !p.1) := by omega
    rw [if_pos hin, received, hthis, hstep, if_pos (Nat.lt_succ_self k), delivered,
      if_pos (Nat.lt_of_lt_of_le hin.2 hend), hthis, hmod]
  · rw [if_neg hin]
    refine (received_next hp hk fun hlt _ heq => hin ?_).symm
    have hmod := Nat.mod_lt i (Nat.pos_of_mul_pos_left (Nat.zero_lt_of_lt hlt))
    rw [heq, hblock] at hdiv
    omega

end Steps

theorem place_eq {rank n : Nat} (h : rank * n < 2 ^ 31) : place rank n = (rank * n : Nat) := by
  have hlow : (0 : Int) ≤ (rank * n : Nat) := Int.natCast_nonneg _
  have hfits := toInt_eq (x := (rank * n : Nat)) (by omega) (by omega)
  unfold place
  push_cast at hfits ⊢
  exact hfits

theorem sendrecv_eq {sendcount recvcount : Nat} {buf into : Nat → α} {dst src : Option Proc}
    {next : (Nat → α) → Prog Unit Proc (Nat × α) (Option (Nat → α))} (hdst : ∀ q ∈ dst, q.2 * sendcount < 2 ^ 31)
    (hsrc : ∀ q ∈ src, q.2 * recvcount < 2 ^ 31) (hnull : ¬ (dst = none ∧ src = none)) :
    sendrecv sendcount recvcount buf dst src into next =
      .comm (dst.toList.map fun q => ⟨(), q, slice buf (q.2 * sendcount) sendcount⟩)
        (src.toList.map fun q => ⟨(), q, q.2 * recvcount, recvcount⟩) fun msgs =>
          next (src.elim into fun q => store into (q.2 * recvcount) (msgs.headD [])) := by
  have hplaced : (∀ q ∈ dst, 0 ≤ place q.2 sendcount) ∧ ∀ q ∈ src, 0 ≤ place q.2 recvcount :=
    ⟨fun q hq => by rw [place_eq (hdst q hq)]; exact Int.natCast_nonneg _,
      fun q hq => by rw [place_eq (hsrc q hq)]; exact Int.natCast_nonneg _⟩
  rw [sendrecv, if_neg hnull, if_pos hplaced]
  have hout : (dst.toList.map fun q : Proc => (⟨(), q, slice buf (place q.2 sendcount).toNat sendcount⟩ : Out _ _ _)) =
      dst.toList.map fun q => ⟨(), q, slice buf (q.2 * sendcount) sendcount⟩ := by
    refine List.map_congr_left fun q hq => ?_
    rw [place_eq (hdst q (Option.mem_toList.mp hq)), Int.toNat_natCast]
  have hinp : (src.toList.map fun q : Proc => (⟨(), q, (place q.2 recvcount).toNat, recvcount⟩ : Inp _ _)) =
      src.toList.map fun q => ⟨(), q, q.2 * recvcount, recvcount⟩ := by
    refine List.map_congr_left fun q hq => ?_
    rw [place_eq (hsrc q (Option.mem_toList.mp hq)), Int.toNat_natCast]
  have hstored : ∀ b, (src.elim into fun q => store into (place q.2 recvcount).toNat b) =
      src.elim into fun q => store into (q.2 * recvcount) b := by
    intro b
    cases src with
    | none => rw [Option.elim_none, Option.elim_none]
    | some q => rw [Option.elim_some, Option.elim_some, place_eq (hsrc q rfl), Int.toNat_natCast]
  rw [hout, hinp]
  simp only [hstored]

theorem exchanges_follows (hint : ∀ s t, ∀ r < size s, r * count t < 2 ^ 31) (hp : p.2 < size p.1) {turns : Nat} (hturns : k + turns = maxSize size) :
    Follows Fills (some (received size count sendbuf recvbuf (maxSize size) p))
      (staged (exchangeAct size count sendbuf p) k turns)
      (exchanges (!p.1) (size !p.1) (count p.1) (count !p.1) (sendbuf p) (maxSize size) p.2 turns k
        (received size count sendbuf recvbuf k p)) := by
  induction turns generalizing k with
  | zero =>
    rw [Nat.add_zero] at hturns
    rw [hturns]
    exact rfl
  | succ turns ih =>
    have hk : k < maxSize size := by omega
    have hnext := @ih (k + 1) (by omega)
    have hdst : orNull (!p.1) (size !p.1) ((p.2 + k) % maxSize size) = dst size k p := (if_pos hp).symm
    have hsrc : orNull (!p.1) (size !p.1) ((p.2 + maxSize size - k) % maxSize size) = src size k p := (if_pos hp).symm
    have hout : ∀ q ∈ dst size k p, q.2 * count p.1 < 2 ^ 31 := by
      intro q hq
      obtain ⟨-, hrank, rfl⟩ := partner_iff.mp hq
      exact hint (!p.1) p.1 _ hrank
    have hinp : ∀ q ∈ src size k p, q.2 * (count !p.1) < 2 ^ 31 := by
      intro q hq
      obtain ⟨-, hrank, rfl⟩ := partner_iff.mp hq
      exact hint (!p.1) (!p.1) _ hrank
    rw [exchanges, hdst, hsrc]
    by_cases hnull : dst size k p = none ∧ src size k p = none
    · have hidle : exchangeAct size count sendbuf p k = .idle := exchange_idle hnull.1 hnull.2
      rw [sendrecv, if_pos hnull, staged_idle hidle, ← received_none hp hk hnull.2]
      exact hnext
    · have hbusy : exchangeAct size count sendbuf p k ≠ .idle := by
        intro hidle
        obtain ⟨hout, hgot⟩ := Act.comm.inj hidle
        exact hnull ⟨Option.toList_eq_nil_iff.mp (List.map_eq_nil_iff.mp hout),
          Option.toList_eq_nil_iff.mp (List.map_eq_nil_iff.mp hgot)⟩
      rw [sendrecv_eq hout hinp hnull, staged_busy hbusy]
      refine ⟨List.map_congr_left fun q hq => ?_, ?_, fun g hg => ?_, ?_⟩
      · obtain ⟨-, -, rfl⟩ := partner_iff.mp (Option.mem_toList.mp hq)
        rfl
      · rw [List.map_map]
        refine List.map_congr_left fun q hq => ?_
        obtain ⟨-, -, rfl⟩ := partner_iff.mp (Option.mem_toList.mp hq)
        rfl
      · obtain ⟨q, hq, rfl⟩ := List.mem_map.mp hg
        obtain ⟨-, -, rfl⟩ := partner_iff.mp (Option.mem_toList.mp hq)
        exact (List.length_map _).trans List.length_range
      · cases hq : src size k p with
        | none =>
          rw [received_none hp hk hq] at hnext
          exact hnext
        | some q =>
          obtain ⟨-, -, hback⟩ := partner_iff.mp ((dst_iff hk).mpr hq)
          obtain ⟨-, -, hthis⟩ := partner_iff.mp hq
          have hsent : (q.2 + k) % maxSize size = p.2 := (congrArg Prod.snd hback).symm
          have hmsg : slice (sendbuf q) ((q.2 + k) % maxSize size * count q.1) (count q.1) =
              slice (sendbuf q) (p.2 * (count !p.1)) (count !p.1) := by
            rw [hsent, congrArg Prod.fst hthis]
          rw [← received_some hp hk hq, ← hmsg] at hnext
          exact hnext

end Plan

/-- The processes that the groups do not have do nothing. -/
theorem alltoallInter_computes {α : Type} (size count : Bool → Nat) (sendbuf recvbuf : Proc → Nat → α)
    (hint : ∀ s t, ∀ r < size s, r * count t < 2 ^ 31) :
    Computes (fun _ : Unit => ∅) Fills
      (fun p : Proc =>
        if p.2 < size p.1 then
          alltoallInter (!p.1) (size !p.1) (count p.1) (count !p.1) (sendbuf p) (size p.1) p.2 (recvbuf p)
        else .done (some (delivered size count sendbuf recvbuf p)))
      fun p => some (delivered size count sendbuf recvbuf p) := by
  refine (@exchange_plan α size count sendbuf).computes (fun _ _ h => Nat.le_of_eq h) fun p => ?_
  by_cases hp : p.2 < size p.1
  · have hpos : 0 < maxSize size := Nat.lt_of_le_of_lt (Nat.zero_le _) (Nat.lt_of_lt_of_le hp (size_le _))
    have hend : received size count sendbuf recvbuf (maxSize size) p = delivered size count sendbuf recvbuf p :=
      funext fun i => if_pos (Nat.mod_lt _ hpos)
    have hsizes : max (size p.1) (size !p.1) = maxSize size := by
      cases p.1 with
      | false => rfl
      | true => exact max_comm _ _
    have hrun := @exchanges_follows α size count sendbuf recvbuf 0 p hint hp (maxSize size) (Nat.zero_add _)
    rw [hend] at hrun
    rw [if_pos hp, alltoallInter, hsizes]
    exact hrun
  · have hidle : staged (exchangeAct size count sendbuf p) 0 (maxSize size) = [] :=
      staged_nothing fun k _ _ => exchangeAct_idle hp
    rw [if_neg hp, hidle]
    exact rfl

theorem alltoallInter_computes_five :
    Computes (fun _ : Unit => ∅) Fills
      (fun p : Proc =>
        if p.2 < (if p.1 then 3 else 2) then
          alltoallInter (!p.1) (if !p.1 then 3 else 2) (if p.1 then 2 else 1) (if !p.1 then 2 else 1) (fun i => p.2 + i)
            (if p.1 then 3 else 2) p.2 (fun _ => 0)
        else .done (some (delivered (fun s => if s then 3 else 2) (fun s => if s then 2 else 1) (fun p i => p.2 + i)
          (fun _ _ => 0) p)))
      fun p => some (delivered (fun s => if s then 3 else 2) (fun s => if s then 2 else 1) (fun p i => p.2 + i)
        (fun _ _ => 0) p) :=
  alltoallInter_computes (fun s => if s then 3 else 2) (fun s => if s then 2 else 1) (fun p i => p.2 + i)
    (fun _ _ => 0) (by decide)

end FgMpi.Coll.AlltoallInter
