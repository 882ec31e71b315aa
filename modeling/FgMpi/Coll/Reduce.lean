import FgMpi.Coll.Halving

/-! `MPIR_Reduce_binomial` and `MPIR_Reduce_redscat_gather` (`mpi/coll/reduce.c`). -/

namespace FgMpi.Coll.Reduce
open Machine.Dialogues Buffers Halving

/-- What a rank passes; `inPlace` is `sendbuf == MPI_IN_PLACE`, which is for the root.  `heap` is what
allocated memory contains. -/
structure Args (α : Type) where
  sendbuf : Nat → α
  inPlace : Bool
  recvbuf : Nat → α
  heap : Nat → α

abbrev RankProg (α : Type) := Prog Unit Nat (Nat × α) (Option (Nat → α))

section Buffers
variable {α : Type} (args : Args α) (root rank count : Nat)

def workBuf : Nat → α :=
  let recvbuf := if rank ≠ root then args.heap else args.recvbuf
  if rank ≠ root ∨ args.inPlace = false then localcopy args.sendbuf recvbuf count else recvbuf

def leave (recvbuf : Nat → α) : RankProg α := .done (some (if rank = root then recvbuf else args.recvbuf))

end Buffers

section Binomial
variable {α : Type} (op : α → α → α) (isCommutative : Bool) (commSize root rank count : Nat)

/-- `while (mask < comm_size)`; the fuel is `comm_size`. -/
def binomialSteps (relrank lroot : Nat) (next : (Nat → α) → RankProg α) :
    Nat → Nat → (Nat → α) → (Nat → α) → RankProg α
  | 0, _, recvbuf, _ => next recvbuf
  | fuel + 1, mask, recvbuf, tmpBuf =>
    if mask < commSize then
      if relrank &&& mask = 0 then
        let source := relrank ||| mask
        if source < commSize then
          mpicRecv () ((source + lroot) % commSize) tmpBuf 0 count fun tmpBuf =>
            if isCommutative then
              let recvbuf := reduceLocal op tmpBuf recvbuf 0 count
              binomialSteps relrank lroot next fuel (2 * mask) recvbuf tmpBuf
            else
              let tmpBuf := reduceLocal op recvbuf tmpBuf 0 count
              let recvbuf := localcopy tmpBuf recvbuf count
              binomialSteps relrank lroot next fuel (2 * mask) recvbuf tmpBuf
        else binomialSteps relrank lroot next fuel (2 * mask) recvbuf tmpBuf
      else
        let source := (Nat.ldiff relrank mask + lroot) % commSize
        mpicSend () source recvbuf 0 count (next recvbuf)
    else next recvbuf

def reduceBinomial (args : Args α) : RankProg α :=
  if count = 0 then .done (some args.recvbuf)
  else
    let recvbuf := workBuf args root rank count
    let lroot := if isCommutative then root else 0
    let relrank := (rank + commSize - lroot) % commSize
    let next := fun recvbuf =>
      if isCommutative = false ∧ root ≠ 0 then
        if rank = 0 then mpicSend () root recvbuf 0 count (leave args root rank recvbuf)
        else if rank = root then mpicRecv () 0 recvbuf 0 count (leave args root rank)
        else leave args root rank recvbuf
      else leave args root rank recvbuf
    binomialSteps op isCommutative commSize count relrank lroot next commSize 1 recvbuf args.heap

end Binomial

section RedscatGather
variable {α : Type} (op : α → α → α) (commSize root rank count : Nat)

/-- `mask = 0x1; while (mask < pof2) { mask <<= 1; j++; } mask >>= 1; j--;` -/
def topMask (pof2 : Nat) : Nat → Nat → Nat → Nat × Nat
  | 0, mask, j => (mask / 2, j - 1)
  | fuel + 1, mask, j => if mask < pof2 then topMask pof2 fuel (2 * mask) (j + 1) else (mask / 2, j - 1)

section Gather
variable (rem pof2 newroot newrank : Nat) (cnts disps : List Nat)

/-- `while (mask > 0)`; the fuel is `pof2`. -/
def gatherSteps (next : (Nat → α) → RankProg α) : Nat → Nat → Nat → Nat → Nat → (Nat → α) → RankProg α
  | 0, _, _, _, _, recvbuf => next recvbuf
  | fuel + 1, mask, j, sendIdx, lastIdx, recvbuf =>
    if mask > 0 then
      let newdst := newrank ^^^ mask
      let dst := if newdst < rem then newdst * 2 else newdst + rem
      let dst := if newdst = 0 ∧ root < 2 * rem ∧ root % 2 ≠ 0 then root else dst
      let newdstTreeRoot := newdst >>> j <<< j
      let newrootTreeRoot := newroot >>> j <<< j
      fetch (merge cnts pof2 newrank mask sendIdx lastIdx) fun x =>
      if newdstTreeRoot = newrootTreeRoot then
        fetch disps[x.sendIdx]? fun sendOff =>
        mpicSend () dst recvbuf sendOff x.sendCnt (next recvbuf)
      else
        fetch disps[x.recvIdx]? fun recvOff =>
        mpicRecv () dst recvbuf recvOff x.recvCnt fun recvbuf =>
          let sendIdx := if newrank > newdst then x.recvIdx else x.sendIdx
          gatherSteps next fuel (mask / 2) (j - 1) sendIdx x.lastIdx recvbuf
    else next recvbuf

end Gather

def gatherAs (rem pof2 : Nat) (cnts disps : List Nat) (next : (Nat → α) → RankProg α) (newroot : Nat)
    (newrank : Option Nat) (sendIdx lastIdx : Nat) (recvbuf : Nat → α) : RankProg α :=
  let top := topMask pof2 pof2 1 0
  match newrank with
  | none => next recvbuf
  | some newrank =>
    gatherSteps root rem pof2 newroot newrank cnts disps next pof2 top.1 top.2 sendIdx lastIdx recvbuf

/-- "now do the gather to root". -/
def gatherToRoot (rem pof2 : Nat) (cnts disps : List Nat) (next : (Nat → α) → RankProg α)
    (newrank : Option Nat) (sendIdx lastIdx : Nat) (recvbuf : Nat → α) : RankProg α :=
  let gather := gatherAs root rem pof2 cnts disps next
  if root < 2 * rem then
    if root % 2 ≠ 0 then
      if rank = root then
        fetch cnts[0]? fun cnt => mpicRecv () 0 recvbuf 0 cnt fun recvbuf => gather 0 (some 0) 0 2 recvbuf
      else if newrank = some 0 then
        fetch cnts[0]? fun cnt =>
        mpicSend () root recvbuf 0 cnt (gather 0 none sendIdx lastIdx recvbuf)
      else gather 0 newrank sendIdx lastIdx recvbuf
    else gather (root / 2) newrank sendIdx lastIdx recvbuf
  else gather (root - rem) newrank sendIdx lastIdx recvbuf

/-- `MPIR_Reduce_redscat_gather`; `newrank` is `none` for -1. -/
def reduceRedscatGather (args : Args α) : RankProg α :=
  let recvbuf := workBuf args root rank count
  let pof2 := pof2Of commSize
  let rem := commSize - pof2
  let cnts := cntsOf count pof2
  let disps := dispsOf cnts
  let gather := gatherToRoot root rank rem pof2 cnts disps (leave args root rank)
  let dstOf := fun newdst => if newdst < rem then newdst * 2 else newdst + rem
  let scatter := fun newrank recvbuf tmpBuf =>
    halvingSteps op cnts disps pof2 newrank dstOf (fun _ => gather (some newrank)) pof2 1 0 0 pof2
      recvbuf tmpBuf
  if rank < 2 * rem then
    if rank % 2 ≠ 0 then
      mpicSend () (rank - 1) recvbuf 0 count (gather none 0 0 recvbuf)
    else
      mpicRecv () (rank + 1) args.heap 0 count fun tmpBuf =>
        scatter (rank / 2) (reduceLocal op tmpBuf recvbuf 0 count) tmpBuf
  else scatter (rank - rem) recvbuf args.heap

end RedscatGather

end FgMpi.Coll.Reduce
