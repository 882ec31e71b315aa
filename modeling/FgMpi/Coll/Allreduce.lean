import FgMpi.Coll.Halving

/-! The algorithms of `MPIR_Allreduce_intra` (`mpi/coll/allreduce.c`). -/

namespace FgMpi.Coll.Allreduce
open Machine.Dialogues Buffers Halving

/-- What a rank passes; `inPlace` is `sendbuf == MPI_IN_PLACE`, on all ranks.  `heap` is what allocated
memory contains. -/
structure Args (α : Type) where
  sendbuf : Nat → α
  inPlace : Bool
  recvbuf : Nat → α
  heap : Nat → α

abbrev RankProg (α : Type) := Prog Unit Nat (Nat × α) (Option (Nat → α))

section Flat
variable {α : Type} (op : α → α → α) (isCommutative : Bool) (rank count rem pof2 newrank : Nat)
variable (cnts disps : List Nat) (next : (Nat → α) → RankProg α)

def realRank (newdst : Nat) : Nat := if newdst < rem then newdst * 2 + 1 else newdst + rem

/-- "use recursive doubling"; the fuel is `pof2`. -/
def doublingSteps : Nat → Nat → (Nat → α) → (Nat → α) → RankProg α
  | 0, _, recvbuf, _ => next recvbuf
  | fuel + 1, mask, recvbuf, tmpBuf =>
    if mask < pof2 then
      let newdst := newrank ^^^ mask
      let dst := realRank rem newdst
      mpicSendrecv () dst recvbuf 0 count dst tmpBuf 0 count fun tmpBuf =>
        if isCommutative = true ∨ dst < rank then
          doublingSteps fuel (2 * mask) (reduceLocal op tmpBuf recvbuf 0 count) tmpBuf
        else
          let tmpBuf := reduceLocal op recvbuf tmpBuf 0 count
          doublingSteps fuel (2 * mask) (localcopy tmpBuf recvbuf count) tmpBuf
    else next recvbuf

/-- "now do the allgather"; the fuel is `pof2`. -/
def allgatherSteps : Nat → Nat → Nat → Nat → (Nat → α) → RankProg α
  | 0, _, _, _, recvbuf => next recvbuf
  | fuel + 1, mask, sendIdx, lastIdx, recvbuf =>
    if mask > 0 then
      let newdst := newrank ^^^ mask
      let dst := realRank rem newdst
      fetch (merge cnts pof2 newrank mask sendIdx lastIdx) fun x =>
      fetch disps[x.sendIdx]? fun sendOff =>
      fetch disps[x.recvIdx]? fun recvOff =>
      mpicSendrecv () dst recvbuf sendOff x.sendCnt dst recvbuf recvOff x.recvCnt fun recvbuf =>
        let sendIdx := if newrank > newdst then x.recvIdx else x.sendIdx
        allgatherSteps fuel (mask / 2) sendIdx x.lastIdx recvbuf
    else next recvbuf

end Flat

section Allreduce
variable {α : Type} (op : α → α → α) (isCommutative isBuiltin : Bool) (commSize rank count typeSize : Nat)
variable (shortMsgSize : Int)

/-- What the ranks that have a `newrank` do; `shortMsgSize` is `MPIR_CVAR_ALLREDUCE_SHORT_MSG_SIZE`. -/
def combine (rem pof2 newrank : Nat) (next : (Nat → α) → RankProg α) (recvbuf tmpBuf : Nat → α) :
    RankProg α :=
  if (count * typeSize : Nat) ≤ shortMsgSize ∨ isBuiltin = false ∨ count < pof2 then
    doublingSteps op isCommutative rank count rem pof2 newrank next pof2 1 recvbuf tmpBuf
  else
    let cnts := cntsOf count pof2
    let disps := dispsOf cnts
    halvingSteps op cnts disps pof2 newrank (realRank rem)
      (fun mask sendIdx lastIdx recvbuf =>
        allgatherSteps rem pof2 newrank cnts disps next pof2 (mask / 2) sendIdx lastIdx recvbuf)
      pof2 1 0 0 pof2 recvbuf tmpBuf

/-- `MPIR_Allreduce_intra` without the SMP branch. -/
def allreduceFlat (args : Args α) : RankProg α :=
  if count = 0 then .done (some args.recvbuf)
  else
    let recvbuf := if args.inPlace = false then localcopy args.sendbuf args.recvbuf count else args.recvbuf
    let pof2 := pof2Of commSize
    let rem := commSize - pof2
    let leave := fun recvbuf : Nat → α => (.done (some recvbuf) : RankProg α)
    if rank < 2 * rem then
      if rank % 2 = 0 then
        mpicSend () (rank + 1) recvbuf 0 count (mpicRecv () (rank + 1) recvbuf 0 count leave)
      else
        mpicRecv () (rank - 1) args.heap 0 count fun tmpBuf =>
          combine op isCommutative isBuiltin rank count typeSize shortMsgSize rem pof2 (rank / 2)
            (fun recvbuf => mpicSend () (rank - 1) recvbuf 0 count (leave recvbuf))
            (reduceLocal op tmpBuf recvbuf 0 count) tmpBuf
    else
      combine op isCommutative isBuiltin rank count typeSize shortMsgSize rem pof2 (rank - rem) leave
        recvbuf args.heap

end Allreduce

end FgMpi.Coll.Allreduce
