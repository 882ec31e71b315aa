import FgMpi.Coll.Hierarchy
import FgMpi.Machine.Collectives
import FgMpi.Machine.Ints

/-! `MPIR_SMP_Bcast` and `MPIR_Bcast_intra` (`mpi/coll/bcast.c`). -/

namespace FgMpi.Coll.SmpBcast
open Comm.NestedMaps Hierarchy Machine.Collectives Machine.Ints

inductive Kind
  | comm
  | nodeRootsComm
  | nodeComm
  | osprocColocatedComm
deriving Repr, DecidableEq

/-- A communicator; its ranks are the places in `members`. -/
structure CommId where
  kind : Kind
  members : List Proc
deriving Repr, DecidableEq

inductive Algorithm
  | binomial
  | scatterDoublingAllgather
  | scatterRingAllgather
deriving Repr, DecidableEq

/-- `MPIC_Send`, `MPIC_Recv`, and a broadcast that is taken as a whole. -/
inductive Call
  | send (comm : CommId) (dst : Nat)
  | recv (comm : CommId) (src : Nat)
  | bcast (algorithm : Algorithm) (comm : CommId) (root : Nat)
deriving Repr, DecidableEq

/-- The `MPIR_CVAR_` variables with these names. -/
structure Cvars where
  enableSmpCollectives : Bool
  enableSmpBcast : Bool
  maxSmpBcastMsgSize : Int
  bcastShortMsgSize : Int
  bcastLongMsgSize : Int
  bcastMinProcs : Int

/-- `while (pof2 < val) pof2 *= 2;`.  The fuel is `val`. -/
def ceilPof2 (val : Nat) : Nat → Nat → Nat
  | 0, pof2 => pof2
  | fuel + 1, pof2 => if pof2 < val then ceilPof2 val fuel (pof2 * 2) else pof2

/-- `MPIU_is_pof2` (`mpi/coll/collutil.h`). -/
def isPof2 (val : Nat) : Bool := ceilPof2 val val 1 = val

section Smp
variable (rank root : Nat) (sub : SubComms) (t : ParentToNested)

def osprocComm (c : SubComm) : CommId := ⟨.osprocColocatedComm, c.members⟩
def nodeCommId (c : SubComm) : CommId := ⟨.nodeComm, c.members⟩
def nodeRootsId (c : SubComm) : CommId := ⟨.nodeRootsComm, c.members⟩

/-- To rank 0 of the root's OS process, `if (osproc_local_rank > 0)`. -/
def osprocSend : List Call :=
  match sub.osprocColocatedComm, t.intraOsprocFgRank with
  | some c, some osprocLocalRank =>
    if osprocLocalRank > 0 then
      if root = rank then [.send (osprocComm c) 0]
      else if 0 = c.rank then [.recv (osprocComm c) osprocLocalRank]
      else []
    else []
  | _, _ => []

def nodeSend : List Call :=
  match sub.nodeComm, t.intranodeCommRoot with
  | some c, some osprocLeaderRank =>
    if osprocLeaderRank > 0 then
      if osprocLeaderRank = c.rank then [.send (nodeCommId c) 0]
      else if 0 = c.rank then [.recv (nodeCommId c) osprocLeaderRank]
      else []
    else []
  | _, _ => []

/-- "perform the intranode broadcast on the root's node" -/
def rootNodeBcast : List Call :=
  match sub.nodeComm, t.intranodeCommRoot with
  | some c, some intranodeRank =>
    if intranodeRank > 0 then [.bcast .binomial (nodeCommId c) intranodeRank] else []
  | _, _ => []

def internodeBcast (algorithm : Nat → Algorithm) : List Call :=
  match sub.nodeRootsComm with
  | some c => [.bcast (algorithm c.members.length) (nodeRootsId c) t.internodeCommRoot]
  | none => []

def intranodeBcast : List Call :=
  match sub.nodeComm with
  | some c => [.bcast .binomial (nodeCommId c) 0]
  | none => []

/-- "perform the intranode broadcast on all except for the root's node"; -1 is less than 0. -/
def otherNodesBcast : List Call :=
  match sub.nodeComm, t.intranodeCommRoot with
  | some c, some intranodeRank =>
    if intranodeRank ≤ 0 then [.bcast .binomial (nodeCommId c) 0] else []
  | some c, none => [.bcast .binomial (nodeCommId c) 0]
  | none, _ => []

def osprocBcast : List Call :=
  match sub.osprocColocatedComm with
  | some c => [.bcast .binomial (osprocComm c) 0]
  | none => []

end Smp

/-- `MPIU_Get_internode_rank` and its like read the entry of a rank in the caller's tables. -/
def lookup (place : Placement) (ranks : List Proc) (w : Proc) (r : Nat) : Option ParentToNested :=
  (nestedMaps place (place.pid w) ranks).ptn[r]?

section Bcast
variable (cv : Cvars) (place : Placement) (ranks : List Proc) (w : Proc) (root count typeSize : Nat)

/-- `MPIR_SMP_Bcast`, whose `nbytes` is an `MPI_Aint`. -/
def smpBcast (sub : SubComms) : List Call :=
  let nbytes := typeSize * count
  if nbytes = 0 then []
  else
    match lookup place ranks w root with
    | none => []
    | some t =>
      osprocSend (ranks.idxOf w) root sub t ++
        if nbytes < cv.bcastShortMsgSize ∨ ranks.length < cv.bcastMinProcs then
          nodeSend sub t ++ internodeBcast sub t (fun _ => .binomial) ++ intranodeBcast sub ++
            osprocBcast sub
        else if nbytes < cv.bcastLongMsgSize ∧ isPof2 ranks.length then
          rootNodeBcast sub t ++
            internodeBcast sub t (fun localSize =>
              if isPof2 localSize then .scatterDoublingAllgather else .scatterRingAllgather) ++
            otherNodesBcast sub t ++ osprocBcast sub
        else [.bcast .scatterRingAllgather ⟨.comm, ranks⟩ root]

/-- The rest of `MPIR_Bcast_intra`, whose `nbytes` is an `int`. -/
def flatBcast : List Call :=
  let nbytes := toInt (typeSize * count : Nat)
  if nbytes = 0 then []
  else if nbytes < cv.bcastShortMsgSize ∨ ranks.length < cv.bcastMinProcs then
    [.bcast .binomial ⟨.comm, ranks⟩ root]
  else if nbytes < cv.bcastLongMsgSize ∧ isPof2 ranks.length then
    [.bcast .scatterDoublingAllgather ⟨.comm, ranks⟩ root]
  else [.bcast .scatterRingAllgather ⟨.comm, ranks⟩ root]

def bcastIntra : List Call :=
  if count = 0 then []
  else
    let nbytes := if cv.maxSmpBcastMsgSize ≠ 0 then toInt (typeSize * count : Nat) else 0
    match commit place ranks w with
    | some sub =>
      if cv.enableSmpCollectives ∧ cv.enableSmpBcast ∧ nbytes ≤ cv.maxSmpBcastMsgSize then
        smpBcast cv place ranks w root count typeSize sub
      else flatBcast cv ranks root count typeSize
    | none => flatBcast cv ranks root count typeSize

end Bcast

def CommId.process (comm : CommId) (rank : Nat) : Proc := comm.members.getD rank 0

def Call.act : Call → Act CommId Proc
  | .send comm dst => .send comm (comm.process dst)
  | .recv comm src => .recv comm (comm.process src)
  | .bcast _ comm root => .bcast comm (comm.process root)

def program (cv : Cvars) (place : Placement) (ranks : List Proc) (root count typeSize : Nat)
    (w : Proc) : List (Act CommId Proc) :=
  if w ∈ ranks then (bcastIntra cv place ranks w root count typeSize).map Call.act else []

def Call.on (comm : CommId) : Call → Option (Algorithm × Nat)
  | .bcast algorithm c root => if c = comm then some (algorithm, root) else none
  | _ => none

def bcastsOn (comm : CommId) (calls : List Call) : List (Algorithm × Nat) :=
  calls.filterMap (Call.on comm)

end FgMpi.Coll.SmpBcast
