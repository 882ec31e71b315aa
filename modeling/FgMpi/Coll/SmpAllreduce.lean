import FgMpi.Coll.AllreducePlan
import FgMpi.Coll.SmpSums

/-! The SMP branch of `MPIR_Allreduce_intra` (`mpi/coll/allreduce.c`). -/

namespace FgMpi.Coll.SmpAllreduce
open Comm.NestedMaps Hierarchy SmpCalls Machine.Dialogues
open SmpBcast (Kind CommId leaderOf nodeRoot)
open Buffers (localcopy)
open Allreduce (Args)

/-- The `MPIR_CVAR_` variables with these names. -/
structure Cvars where
  enableSmpCollectives : Bool
  enableSmpAllreduce : Bool
  maxSmpAllreduceMsgSize : Int

section Program
variable {α : Type} (op : α → α → α) (count : Nat) (args : Args α)

def send : SendBuf α := if args.inPlace = true then .inPlace else .buf (.mem true args.sendbuf)

def recv : Memory α := .mem args.inPlace args.recvbuf

/-- "In each os-process, do a reduce to the colocated leader". -/
def colocatedReduce (sub : Option SubComm) (next : Memory α → SmpProg α) : SmpProg α :=
  match sub with
  | some c =>
    if args.inPlace = true ∧ c.rank ≠ 0 then
      reduceImpl op count ⟨.osprocColocatedComm, c.members⟩ c.rank (.buf (recv args)) .null 0 fun _ =>
        next (recv args)
    else reduceImpl op count ⟨.osprocColocatedComm, c.members⟩ c.rank (send args) (recv args) 0 next
  | none => next (if args.inPlace = false then .mem true (localcopy args.sendbuf args.recvbuf count) else recv args)

def allreduceSmp (typeSize : Nat) (sub : SubComms) : SmpProg α :=
  colocatedReduce op count args sub.osprocColocatedComm fun recvbuf =>
    allreduceStep op count .nodeComm sub.nodeComm recvbuf fun recvbuf =>
    allreduceStep op count .nodeRootsComm sub.nodeRootsComm recvbuf fun recvbuf =>
    bcastStep count typeSize .nodeComm sub.nodeComm recvbuf fun recvbuf =>
    bcastStep count typeSize .osprocColocatedComm sub.osprocColocatedComm recvbuf fun recvbuf =>
    .done (.ok recvbuf)

/-- The rest of `MPIR_Allreduce_intra`, taken as a whole. -/
def allreduceWhole (ranks : List Proc) : SmpProg α :=
  allreduceImpl op count ⟨.comm, ranks⟩ (send args) (recv args) fun recvbuf => .done (.ok recvbuf)

def allowsSmp (cv : Cvars) (isCommutative : Bool) (typeSize : Nat) : Bool :=
  cv.enableSmpCollectives && cv.enableSmpAllreduce && isCommutative &&
    decide ((if cv.maxSmpAllreduceMsgSize ≠ 0 then nbytes typeSize count else 0) ≤ cv.maxSmpAllreduceMsgSize)

def allreduceIntra (cv : Cvars) (isCommutative : Bool) (typeSize : Nat) (place : Placement) (ranks : List Proc)
    (w : Proc) : SmpProg α :=
  if count = 0 then .done (.ok (recv args))
  else
    match commit place ranks w with
    | some sub =>
      if allowsSmp count cv isCommutative typeSize = true then allreduceSmp op count args typeSize sub
      else allreduceWhole op count args ranks
    | none => allreduceWhole op count args ranks

end Program

section Plan
variable {α : Type} (op : α → α → α) (count : Nat) (place : Placement) (ranks : List Proc) (args : Proc → Args α)

def smpAct (w : Proc) : Nat → Act CommId Proc (Item α)
  | 0 => reduceLevel count (osprocGroup place ranks) (fun _ => 0) (Allreduce.input args) w
  | 1 => allreduceLevel count (nodeGroup place ranks) (osprocSum op place ranks (Allreduce.input args)) w
  | 2 => allreduceLevel count (rootsGroup place ranks) (nodeSum op place ranks (Allreduce.input args)) w
  | 3 => bcastLevel count (nodeGroup place ranks) (fun _ => 0) (fun _ => allSum op ranks (Allreduce.input args)) w
  | 4 => bcastLevel count (osprocGroup place ranks) (fun _ => 0) (fun _ => allSum op ranks (Allreduce.input args)) w
  | _ => .idle

def wholeAct (w : Proc) : Nat → Act CommId Proc (Item α)
  | 0 => allreduceLevel count (wholeGroup ranks) (Allreduce.input args) w
  | _ => .idle

def result (w : Proc) : Except Fault (Memory α) :=
  if w ∈ ranks then .ok (.mem true (localcopy (allSum op ranks (Allreduce.input args)) (args w).recvbuf count))
  else .ok (recv (args w))

def lostResult (w : Proc) : Except Fault (Memory α) :=
  .ok (if w ∈ roots place ranks then
      .mem true (localcopy (allSum op ranks (Allreduce.input args)) (args w).recvbuf count)
    else if w ∈ leaders place ranks (nodeOf place w) then
      .mem true (localcopy (nodeSum op place ranks (Allreduce.input args) w) (args w).recvbuf count)
    else recv (args w))

variable {op count place ranks args} {w : Proc}

theorem smpAct_agree (k : Nat) : LevelAgree procsOf fun w => smpAct op count place ranks args w k := by
  match k with
  | 0 => exact reduceLevel_agree (osprocGroup_grouped place ranks) _
  | 1 => exact allreduceLevel_agree (nodeGroup_grouped place ranks) _
  | 2 => exact allreduceLevel_agree (rootsGroup_grouped place ranks) _
  | 3 => exact bcastLevel_agree (nodeGroup_grouped place ranks) (fun w c h => groupOf_length h) _
  | 4 => exact bcastLevel_agree (osprocGroup_grouped place ranks) (fun w c h => groupOf_length h) _
  | k + 5 => exact Agree.level (fun _ _ _ _ => rfl) fun _ _ _ _ h => (nomatch h)

theorem smpAct_outside (hw : w ∉ ranks) (k : Nat) : smpAct op count place ranks args w k = .idle := by
  match k with
  | 0 => exact reduceLevel_none (osprocGroup_outside hw) _
  | 1 => exact allreduceLevel_none (nodeGroup_outside hw) _
  | 2 => exact allreduceLevel_none (rootsGroup_outside hw) _
  | 3 => exact bcastLevel_none (nodeGroup_outside hw) _
  | 4 => exact bcastLevel_none (osprocGroup_outside hw) _
  | k + 5 => rfl

theorem smp_plan (n : Nat) : Plan ranks.toFinset procsOf fun w => staged (smpAct op count place ranks args w) 0 n :=
  levels_plan (fun k _ => smpAct_agree k) fun _ hp k _ => smpAct_outside (mt List.mem_toFinset.mpr hp) k

theorem whole_plan : Plan ranks.toFinset procsOf fun w => staged (wholeAct count ranks args w) 0 1 := by
  refine levels_plan (fun k hk => ?_) fun p hp k hk => ?_
  · obtain rfl : k = 0 := by omega
    exact allreduceLevel_agree (wholeGroup_grouped ranks) _
  · obtain rfl : k = 0 := by omega
    exact allreduceLevel_none (if_neg (mt List.mem_toFinset.mpr hp)) _

end Plan

section Follows
variable {α : Type} {op : α → α → α} {count : Nat} {place : Placement} {ranks : List Proc}
variable {args : Proc → Args α} {fits : List (Item α) → Inp CommId Proc → Prop} {w : Proc}
variable {r : Except Fault (Memory α)} {act : Nat → Act CommId Proc (Item α)} {k n : Nat}

theorem contribution_send (atRoot : Bool) (h : (args w).inPlace = true → atRoot = true) :
    contribution atRoot (send (args w)) (recv (args w)) = .ok (Allreduce.input args w) := by
  unfold send recv Allreduce.input
  cases hplace : (args w).inPlace with
  | true =>
    rw [h hplace]
    rfl
  | false => rfl

theorem leaderOf_iff (hw : w ∈ ranks) :
    w = (colocated place ranks (place.pid w)).headD 0 ↔ w ∈ leaders place ranks (nodeOf place w) := by
  rw [SmpBcast.mem_leaders_iff_eq place hw, eq_comm]
  rfl

theorem colocatedReduce_follows {next : Memory α → SmpProg α} (hw : w ∈ ranks)
    (hact : act k = reduceLevel count (osprocGroup place ranks) (fun _ => 0) (Allreduce.input args) w)
    (hnext : ∀ recvbuf, (w ∈ leaders place ranks (nodeOf place w) → recvbuf =
        .mem true (localcopy (osprocSum op place ranks (Allreduce.input args) w) (args w).recvbuf count)) →
      (w ∉ leaders place ranks (nodeOf place w) → recvbuf = recv (args w)) →
      Follows fits r (staged act (k + 1) n) (next recvbuf)) :
    Follows fits r (staged act k (n + 1))
      (colocatedReduce op count (args w) (subComm (colocated place ranks (place.pid w)) w) next) := by
  have hmem := mem_colocated place hw
  by_cases hlen : 1 < (colocated place ranks (place.pid w)).length
  · have hgroup : osprocGroup place ranks w = some ⟨.osprocColocatedComm, colocated place ranks (place.pid w)⟩ :=
      groupOf_pos hlen hmem
    have hmates : ∀ v ∈ colocated place ranks (place.pid w), osprocGroup place ranks v =
        some ⟨.osprocColocatedComm, colocated place ranks (place.pid w)⟩ :=
      fun v hv => (osprocGroup_grouped place ranks w _ hgroup).2 v (List.mem_toFinset.mpr hv)
    rw [SmpBcast.subComm_of_mem hmem, if_pos hlen, colocatedReduce]
    dsimp only
    by_cases hzero : (colocated place ranks (place.pid w)).idxOf w = 0
    · have hwants : (if (colocated place ranks (place.pid w)).idxOf w = 0 then
          colocated place ranks (place.pid w) else []) = colocated place ranks (place.pid w) := if_pos hzero
      rw [reduceLevel, calling_some hgroup (by rw [hwants]; exact hmates), hwants] at hact
      rw [staged_coll hact, if_neg (fun hand => hand.2 hzero)]
      refine follows_reduce_root hzero hmem (contribution_send true fun _ => rfl) (fun _ _ => rfl) ?_
      exact hnext _ (fun _ => rfl) fun hnot => absurd ((mem_leaders_iff place hw).mpr hzero) hnot
    · have hwants : (if (colocated place ranks (place.pid w)).idxOf w = 0 then
          colocated place ranks (place.pid w) else []) = [] := if_neg hzero
      have hnot : w ∉ leaders place ranks (nodeOf place w) := mt (mem_leaders_iff place hw).mp hzero
      rw [reduceLevel, calling_some hgroup (by rw [hwants]; rintro v ⟨⟩), hwants] at hact
      rw [staged_coll hact]
      by_cases hplace : (args w).inPlace = true
      · have hdata : contribution false (.buf (recv (args w))) .null = .ok (Allreduce.input args w) := by
          rw [recv, hplace, Allreduce.input, if_pos hplace]
          rfl
        rw [if_pos ⟨hplace, hzero⟩]
        exact follows_reduce_other hzero hdata (fun _ _ => rfl) (hnext _ (fun h => absurd h hnot) fun _ => rfl)
      · rw [if_neg (fun hand => hplace hand.1)]
        exact follows_reduce_other hzero (contribution_send false fun h => absurd h hplace) (fun _ _ => rfl)
          (hnext _ (fun h => absurd h hnot) fun _ => rfl)
  · have hin : ¬ (1 < (colocated place ranks (place.pid w)).length ∧
        w ∈ colocated place ranks (place.pid w)) := fun hand => hlen hand.1
    have halone : osprocSum op place ranks (Allreduce.input args) w = Allreduce.input args w := sumOf_alone hmem hin
    have hnone : osprocGroup place ranks w = none := groupOf_neg hin
    have hlead : w ∈ leaders place ranks (nodeOf place w) := by
      rw [mem_leaders_iff place hw, alone hmem hin]
      exact List.idxOf_cons_self
    rw [reduceLevel_none hnone] at hact
    rw [staged_idle hact, subComm, if_neg hin, colocatedReduce]
    by_cases hplace : (args w).inPlace = true
    · rw [if_neg (by rw [hplace]; rintro ⟨⟩)]
      refine hnext _ (fun _ => ?_) fun _ => rfl
      rw [halone, Allreduce.input, if_pos hplace, localcopy_self, recv, hplace]
    · rw [if_pos (Bool.eq_false_iff.mpr hplace)]
      refine hnext _ (fun _ => ?_) fun hnot => absurd hlead hnot
      rw [halone, Allreduce.input, if_neg hplace]

theorem sums_follow [Std.Associative op] [Std.Commutative op] (hnodup : ranks.Nodup) (hw : w ∈ ranks)
    {next : Memory α → SmpProg α}
    (hnext : ∀ recvbuf, (w ∈ roots place ranks → recvbuf =
        .mem true (localcopy (allSum op ranks (Allreduce.input args)) (args w).recvbuf count)) →
      (w ∉ roots place ranks → w ∈ leaders place ranks (nodeOf place w) → recvbuf =
        .mem true (localcopy (nodeSum op place ranks (Allreduce.input args) w) (args w).recvbuf count)) →
      (w ∉ leaders place ranks (nodeOf place w) → recvbuf = recv (args w)) →
      Follows fits r (staged (smpAct op count place ranks args w) 3 n) (next recvbuf)) :
    Follows fits r (staged (smpAct op count place ranks args w) 0 (n + 3))
      (colocatedReduce op count (args w) (subComm (colocated place ranks (place.pid w)) w) fun recvbuf =>
        allreduceStep op count .nodeComm (subComm (leaders place ranks (nodeOf place w)) w) recvbuf fun recvbuf =>
        allreduceStep op count .nodeRootsComm (subComm (roots place ranks) w) recvbuf next) := by
  refine colocatedReduce_follows hw rfl fun buf₀ hlead₀ hnot₀ => ?_
  refine allreduceStep_follows (nodeGroup_grouped place ranks) rfl rfl hlead₀ fun buf₁ hin₁ hout₁ => ?_
  have hlead₁ : w ∈ leaders place ranks (nodeOf place w) → buf₁ =
      .mem true (localcopy (nodeSum op place ranks (Allreduce.input args) w) (args w).recvbuf count) := by
    intro hlead
    rw [hin₁ hlead, localcopy_congr fun i _ => leaders_sum hnodup hlead i]
  refine allreduceStep_follows (rootsGroup_grouped place ranks) rfl rfl
    (fun hroot => hlead₁ (SmpBcast.roots_leaders place hroot)) fun buf₂ hin₂ hout₂ => ?_
  refine hnext buf₂ (fun hroot => ?_) (fun hroot hlead => ?_) fun hlead => ?_
  · rw [hin₂ hroot, localcopy_congr fun i _ => roots_sum hnodup hroot i]
  · rw [hout₂ hroot, hlead₁ hlead]
  · rw [hout₂ fun hroot => hlead (SmpBcast.roots_leaders place hroot), hout₁ hlead, hnot₀ hlead]

section
variable {typeSize : Nat} {sub : SubComms}
variable (hnode : sub.nodeComm = subComm (leaders place ranks (nodeOf place w)) w)
variable (hroots : sub.nodeRootsComm = subComm (roots place ranks) w)
variable (hosproc : sub.osprocColocatedComm = subComm (colocated place ranks (place.pid w)) w)
include hnode hroots hosproc

theorem allreduceSmp_follows [Std.Associative op] [Std.Commutative op] (hnodup : ranks.Nodup) (hw : w ∈ ranks)
    (hbytes : nbytes typeSize count ≠ 0) :
    Follows fits (result op count ranks args w) (staged (smpAct op count place ranks args w) 0 5)
      (allreduceSmp op count (args w) typeSize sub) := by
  have hleader : w = (leaders place ranks (nodeOf place w)).headD 0 →
      w ∈ leaders place ranks (nodeOf place w) → w ∈ roots place ranks := by
    intro hhead _
    exact (SmpBcast.mem_roots_iff_eq place hw).mpr hhead.symm
  rw [allreduceSmp, hnode, hroots, hosproc]
  refine sums_follow hnodup hw fun buf₂ hroot₂ hlead₂ hnot₂ => ?_
  have hsome₂ : ∃ written b, buf₂ = .mem written (localcopy b (args w).recvbuf count) := by
    by_cases hlead : w ∈ leaders place ranks (nodeOf place w)
    · by_cases hroot : w ∈ roots place ranks
      · exact ⟨true, _, hroot₂ hroot⟩
      · exact ⟨true, _, hlead₂ hroot hlead⟩
    · refine ⟨(args w).inPlace, (args w).recvbuf, ?_⟩
      rw [hnot₂ hlead, localcopy_self]
      rfl
  refine bcastStep_follows hbytes (nodeGroup_grouped place ranks) rfl rfl
    (fun hhead hlead => hroot₂ (hleader hhead hlead)) (fun _ => hsome₂) fun buf₃ hin₃ hout₃ => ?_
  have hsome₃ : ∃ written b, buf₃ = .mem written (localcopy b (args w).recvbuf count) := by
    by_cases hlead : w ∈ leaders place ranks (nodeOf place w)
    · exact ⟨true, _, hin₃ hlead⟩
    · rw [hout₃ hlead]
      exact hsome₂
  refine bcastStep_follows hbytes (osprocGroup_grouped place ranks) rfl rfl
    (fun hhead _ => hin₃ ((leaderOf_iff hw).mp hhead)) (fun _ => hsome₃) fun buf₄ hin₄ _ => ?_
  rw [result, if_pos hw, hin₄ (mem_colocated place hw)]
  rfl

theorem allreduceSmp_lost [Std.Associative op] [Std.Commutative op] (hnodup : ranks.Nodup) (hw : w ∈ ranks)
    (hbytes : nbytes typeSize count = 0) :
    Follows fits (lostResult op count place ranks args w) (staged (smpAct op count place ranks args w) 0 3)
      (allreduceSmp op count (args w) typeSize sub) := by
  rw [allreduceSmp, hnode, hroots, hosproc]
  refine sums_follow hnodup hw fun buf hroot hlead hnot => ?_
  rw [bcastStep_lost hbytes, bcastStep_lost hbytes, lostResult]
  by_cases hmem : w ∈ leaders place ranks (nodeOf place w)
  · by_cases hfirst : w ∈ roots place ranks
    · rw [if_pos hfirst, hroot hfirst]
      rfl
    · rw [if_neg hfirst, if_pos hmem, hlead hfirst hmem]
      rfl
  · rw [if_neg fun hfirst => hmem (SmpBcast.roots_leaders place hfirst), if_neg hmem, hnot hmem]
    rfl

end

theorem allreduceWhole_follows (hw : w ∈ ranks) : Follows fits (result op count ranks args w)
    (staged (wholeAct count ranks args w) 0 1) (allreduceWhole op count (args w) ranks) := by
  have hgroup : wholeGroup ranks w = some ⟨.comm, ranks⟩ := if_pos hw
  have hmates : ∀ v ∈ ranks, wholeGroup ranks v = some ⟨.comm, ranks⟩ := fun v hv => if_pos hv
  have hact : wholeAct count ranks args w 0 = allreduceLevel count (wholeGroup ranks) (Allreduce.input args) w := rfl
  have hdone : Follows fits (result op count ranks args w) (staged (wholeAct count ranks args w) 1 0)
      (.done (.ok (.mem true (localcopy (sumOf op (Allreduce.input args) ranks w) (args w).recvbuf count)))) := by
    rw [result, if_pos hw, localcopy_congr fun i _ => sumOf_eq hw (total_allSum hw i)]
    rfl
  rw [allreduceLevel, calling_some hgroup hmates] at hact
  rw [staged_coll hact]
  exact follows_allreduce hw (contribution_send true fun _ => rfl) (fun _ _ => rfl) hdone

theorem outside_follows {prog : SmpProg α} {plan : Proc → List (Op CommId Proc (Item α))}
    (hplan : Plan ranks.toFinset procsOf plan) (hw : w ∉ ranks) :
    Follows fits (.ok (recv (args w))) (plan w) (if w ∈ ranks then prog else .done (.ok (recv (args w)))) := by
  rw [if_neg hw, hplan.outside w (mt List.mem_toFinset.mp hw)]
  rfl

theorem result_outside (hw : w ∉ ranks) : result op count ranks args w = .ok (recv (args w)) := if_neg hw

theorem lostResult_outside (hw : w ∉ ranks) : lostResult op count place ranks args w = .ok (recv (args w)) := by
  rw [lostResult, if_neg fun hroot => hw (mem_ranks_of_roots place hroot),
    if_neg fun hlead => hw (mem_of_mem_leaders place hlead).1]

end Follows

section Lengths
variable {cv : Cvars} {isCommutative : Bool} {count typeSize : Nat} {place : Placement} {ranks : List Proc}

def UsesSmp (cv : Cvars) (isCommutative : Bool) (count typeSize : Nat) (place : Placement) (ranks : List Proc) :
    Prop :=
  (roots place ranks).length ≠ ranks.length ∧ allowsSmp count cv isCommutative typeSize = true

def OneNode (place : Placement) (ranks : List Proc) : Prop :=
  ∀ v ∈ ranks, ∀ w ∈ ranks, nodeOf place v = nodeOf place w ∧ (place.pid v = place.pid w → v = w)

def Everywhere (cv : Cvars) (isCommutative : Bool) (count typeSize : Nat) (place : Placement) (ranks : List Proc) :
    Prop :=
  ∀ {α : Type} (op : α → α → α) [Std.Associative op], (isCommutative = true → ∀ a b, op a b = op b a) →
    ∀ args : Proc → Args α, Computes procsOf (fun msg inp => msg.length ≤ inp.cap)
      (fun w => if w ∈ ranks then allreduceIntra op count (args w) cv isCommutative typeSize place ranks w
        else .done (.ok (recv (args w))))
      (result op count ranks args)

theorem UsesSmp.commutative (h : UsesSmp cv isCommutative count typeSize place ranks) : isCommutative = true := by
  have hallow := h.2
  unfold allowsSmp at hallow
  simp only [Bool.and_eq_true] at hallow
  exact hallow.1.2

theorem intra_smp {α : Type} (op : α → α → α) (args : Args α) (hnodup : ranks.Nodup) (hcount : 0 < count) {w : Proc}
    (hw : w ∈ ranks) (hsmp : UsesSmp cv isCommutative count typeSize place ranks) :
    ∃ sub : SubComms, sub.nodeComm = subComm (leaders place ranks (nodeOf place w)) w ∧
      sub.nodeRootsComm = subComm (roots place ranks) w ∧
      sub.osprocColocatedComm = subComm (colocated place ranks (place.pid w)) w ∧
      allreduceIntra op count args cv isCommutative typeSize place ranks w =
        allreduceSmp op count args typeSize sub := by
  refine ⟨⟨_, _, _⟩, rfl, rfl, rfl, ?_⟩
  rw [allreduceIntra, if_neg (by omega), commit_eq place hnodup hw, if_neg hsmp.1]
  exact if_pos hsmp.2

theorem smp_computes {α : Type} (op : α → α → α) [Std.Associative op] [Std.Commutative op] (hnodup : ranks.Nodup)
    (hcount : 0 < count) (args : Proc → Args α) (hsmp : UsesSmp cv isCommutative count typeSize place ranks) :
    Computes procsOf (fun msg inp => msg.length ≤ inp.cap)
      (fun w => if w ∈ ranks then allreduceIntra op count (args w) cv isCommutative typeSize place ranks w
        else .done (.ok (recv (args w))))
      (if nbytes typeSize count = 0 then lostResult op count place ranks args else result op count ranks args) := by
  by_cases hbytes : nbytes typeSize count = 0
  · rw [if_pos hbytes]
    have hplan : Plan ranks.toFinset procsOf fun w => staged (smpAct op count place ranks args w) 0 3 := smp_plan 3
    refine hplan.computes (fun _ _ h => h) fun w => ?_
    by_cases hw : w ∈ ranks
    · obtain ⟨sub, hnode, hroots, hosproc, heq⟩ := intra_smp op (args w) hnodup hcount hw hsmp
      rw [if_pos hw, heq]
      exact allreduceSmp_lost hnode hroots hosproc hnodup hw hbytes
    · rw [lostResult_outside hw]
      exact outside_follows hplan hw
  · rw [if_neg hbytes]
    have hplan : Plan ranks.toFinset procsOf fun w => staged (smpAct op count place ranks args w) 0 5 := smp_plan 5
    refine hplan.computes (fun _ _ h => h) fun w => ?_
    by_cases hw : w ∈ ranks
    · obtain ⟨sub, hnode, hroots, hosproc, heq⟩ := intra_smp op (args w) hnodup hcount hw hsmp
      rw [if_pos hw, heq]
      exact allreduceSmp_follows hnode hroots hosproc hnodup hw hbytes
    · rw [result_outside hw]
      exact outside_follows hplan hw

theorem whole_computes {α : Type} {op : α → α → α} (hnodup : ranks.Nodup) (hcount : 0 < count)
    (args : Proc → Args α) (hsmp : ¬ UsesSmp cv isCommutative count typeSize place ranks) :
    Computes procsOf (fun msg inp => msg.length ≤ inp.cap)
      (fun w => if w ∈ ranks then allreduceIntra op count (args w) cv isCommutative typeSize place ranks w
        else .done (.ok (recv (args w))))
      (result op count ranks args) := by
  have hplan : Plan ranks.toFinset procsOf fun w => staged (wholeAct count ranks args w) 0 1 := whole_plan
  refine hplan.computes (fun _ _ h => h) fun w => ?_
  by_cases hw : w ∈ ranks
  · have hwhole : allreduceIntra op count (args w) cv isCommutative typeSize place ranks w =
        allreduceWhole op count (args w) ranks := by
      rw [allreduceIntra, if_neg (by omega), commit_eq place hnodup hw]
      by_cases haware : (roots place ranks).length = ranks.length
      · rw [if_pos haware]
      · rw [if_neg haware]
        exact if_neg fun hallow => hsmp ⟨haware, hallow⟩
    rw [if_pos hw, hwhole]
    exact allreduceWhole_follows hw
  · rw [result_outside hw]
    exact outside_follows hplan hw

theorem lostResult_oneNode {α : Type} {op : α → α → α} (hone : OneNode place ranks) (args : Proc → Args α) :
    lostResult op count place ranks args = result op count ranks args := by
  funext w
  by_cases hw : w ∈ ranks
  · have hlead : w ∈ leaders place ranks (nodeOf place w) :=
      (SmpBcast.mem_leaders_iff_eq place hw).mpr
        ((hone _ (SmpBcast.leaderOf_mem place hw) w hw).2 (SmpBcast.pid_leaderOf place hw))
    have hnode : onNode place ranks w = ranks :=
      List.filter_eq_self.mpr fun v hv => decide_eq_true (hone v hv w hw).1
    have hsum : nodeSum op place ranks (Allreduce.input args) w = allSum op ranks (Allreduce.input args) := by
      funext i
      rw [nodeSum, hnode]
      exact sumOf_eq hw (total_allSum hw i)
    rw [lostResult, if_pos hlead, hsum, ite_self, result, if_pos hw]
  · rw [lostResult_outside hw, result_outside hw]

theorem everywhere_of (hnodup : ranks.Nodup) (hcount : 0 < count)
    (h : UsesSmp cv isCommutative count typeSize place ranks → nbytes typeSize count ≠ 0 ∨ OneNode place ranks) :
    Everywhere cv isCommutative count typeSize place ranks := by
  intro α op hassoc hcomm args
  by_cases hsmp : UsesSmp cv isCommutative count typeSize place ranks
  · have hop : Std.Commutative op := ⟨hcomm hsmp.commutative⟩
    have hcomputes := smp_computes op hnodup hcount args hsmp
    by_cases hbytes : nbytes typeSize count = 0
    · have hone : OneNode place ranks := (h hsmp).resolve_left fun hne => hne hbytes
      rw [if_pos hbytes, lostResult_oneNode hone] at hcomputes
      exact hcomputes
    · rw [if_neg hbytes] at hcomputes
      exact hcomputes
  · exact whole_computes hnodup hcount args hsmp

theorem total_sum {l : List Nat} {n : Nat} (h : Machine.Folds.total (fun a b => a + b) l = some n) : n = l.sum := by
  induction l using List.reverseRecOn generalizing n with
  | nil => exact absurd h (Option.some_ne_none n).symm
  | append_singleton l a ih =>
    rw [Machine.Folds.total_snoc] at h
    rw [List.sum_append, List.sum_singleton]
    cases hsum : Machine.Folds.total (fun a b => a + b) l with
    | none =>
      obtain rfl := (Machine.Folds.total_eq_none _).mp hsum
      exact (Option.some.inj h).symm.trans (Nat.zero_add a).symm
    | some m =>
      rw [hsum] at h
      rw [← ih hsum]
      exact (Option.some.inj h).symm

def oneElsewhere (place : Placement) (x p : Proc) : Args Nat :=
  ⟨fun _ => if nodeOf place p = nodeOf place x then 0 else 1, false, fun _ => 0, fun _ => 0⟩

theorem nodeSum_lt {x u : Proc} (hx : x ∈ ranks) (hu : u ∈ ranks) (hne : nodeOf place u ≠ nodeOf place x) :
    nodeSum (fun a b => a + b) place ranks (Allreduce.input (oneElsewhere place x)) x 0 <
      allSum (fun a b => a + b) ranks (Allreduce.input (oneElsewhere place x)) 0 := by
  have hnode : nodeSum (fun a b => a + b) place ranks (Allreduce.input (oneElsewhere place x)) x 0 =
      ((onNode place ranks x).map fun v => Allreduce.input (oneElsewhere place x) v 0).sum :=
    total_sum (total_sumOf (mem_onNode hx) 0)
  have hzero : ((onNode place ranks x).map fun v => Allreduce.input (oneElsewhere place x) v 0).sum = 0 := by
    refine List.sum_eq_zero_iff_forall_eq_nat.mpr fun n hn => ?_
    obtain ⟨v, hv, rfl⟩ := List.mem_map.mp hn
    exact if_pos (of_decide_eq_true (List.mem_filter.mp hv).2)
  have hall : allSum (fun a b => a + b) ranks (Allreduce.input (oneElsewhere place x)) 0 =
      (ranks.map fun v => Allreduce.input (oneElsewhere place x) v 0).sum := total_sum (total_allSum hx 0)
  have hone : (1 : Nat) ∈ ranks.map fun v => Allreduce.input (oneElsewhere place x) v 0 :=
    List.mem_map.mpr ⟨u, hu, if_neg hne⟩
  rw [hnode, hzero, hall]
  exact List.sum_pos_iff_exists_pos_nat.mpr ⟨1, hone, Nat.one_pos⟩

theorem oneNode_of (hnodup : ranks.Nodup) (hcount : 0 < count)
    (hsmp : UsesSmp cv isCommutative count typeSize place ranks) (hbytes : nbytes typeSize count = 0)
    (h : Everywhere cv isCommutative count typeSize place ranks) : OneNode place ranks := by
  have hsame : ∀ args : Proc → Args Nat, lostResult (fun a b => a + b) count place ranks args =
      result (fun a b => a + b) count ranks args := by
    intro args
    have hevery := h (fun a b : Nat => a + b) (fun _ => Nat.add_comm) args
    have hcomputes := smp_computes (fun a b : Nat => a + b) hnodup hcount args hsmp
    rw [if_pos hbytes] at hcomputes
    exact hcomputes.result_eq hevery
  have hlead : ∀ u ∈ ranks, u ∈ leaders place ranks (nodeOf place u) := by
    intro u hu
    by_contra hnot
    have hresult := congrFun (hsame (oneElsewhere place u)) u
    rw [lostResult, if_neg fun hroot => hnot (SmpBcast.roots_leaders place hroot), if_neg hnot, result,
      if_pos hu] at hresult
    cases hresult
  have hpid : ∀ v ∈ ranks, ∀ w ∈ ranks, place.pid v = place.pid w → v = w := by
    intro v hv w hw heq
    rw [← (SmpBcast.mem_leaders_iff_eq place hv).mp (hlead v hv), heq]
    exact (SmpBcast.mem_leaders_iff_eq place hw).mp (hlead w hw)
  obtain ⟨x, hx, hroot⟩ : ∃ x ∈ ranks, x ∉ roots place ranks := by
    by_contra hnone
    have hperm : (roots place ranks).Perm ranks :=
      (List.perm_ext_iff_of_nodup (roots_nodup place) hnodup).mpr fun y =>
        ⟨mem_ranks_of_roots place, fun hy => by_contra fun hnot => hnone ⟨y, hy, hnot⟩⟩
    exact hsmp.1 hperm.length_eq
  have hnode : ∀ u ∈ ranks, nodeOf place u = nodeOf place x := by
    intro u hu
    by_contra hne
    have hresult := congrFun (hsame (oneElsewhere place x)) x
    rw [lostResult, if_neg hroot, if_pos (hlead x hx), result, if_pos hx] at hresult
    injection hresult with hmem
    injection hmem with _ hbuf
    have hat := congrFun hbuf 0
    rw [localcopy_below hcount, localcopy_below hcount] at hat
    exact absurd hat (Nat.ne_of_lt (nodeSum_lt hx hu hne))
  exact fun v hv w hw => ⟨(hnode v hv).trans (hnode w hw).symm, hpid v hv w hw⟩

end Lengths

end FgMpi.Coll.SmpAllreduce
