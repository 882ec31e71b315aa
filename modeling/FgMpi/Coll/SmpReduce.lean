import FgMpi.Coll.SmpSums

/-! The SMP branch of `MPIR_Reduce_intra` (`mpi/coll/reduce.c`). -/

namespace FgMpi.Coll.SmpReduce
open Comm.NestedMaps Hierarchy SmpCalls
open SmpBcast (Kind CommId)

/-- The `MPIR_CVAR_` variables with these names. -/
structure Cvars where
  enableSmpCollectives : Bool
  enableSmpReduce : Bool
  maxSmpReduceMsgSize : Int

/-- What a process passes.  `inPlace` and `recvbuf` are for the root; `elsewhere` is what the others pass for
`recvbuf`.  `heap` is what allocated memory contains. -/
structure Args (α : Type) where
  sendbuf : Nat → α
  inPlace : Bool
  recvbuf : Nat → α
  elsewhere : Memory α
  heap : Nat → α

/-- The local variables of `MPIR_Reduce_intra`. -/
structure Bufs (α : Type) where
  sendbuf : SendBuf α
  tmpBuf : Memory α
  recvbuf : Memory α
  didReduce : Bool

def assert {α : Type} (cond : Prop) [Decidable cond] (next : SmpProg α) : SmpProg α :=
  if cond then next else .done (.error .assertion)

theorem assert_pos {α : Type} {cond : Prop} [Decidable cond] {next : SmpProg α} (h : cond) :
    assert cond next = next := if_pos h

section Program
variable {α : Type} (op : α → α → α) (count rank root : Nat) (sub : SubComms) (t : ParentToNested)

/-- "Create a temporary buffer on leaders of all os-processes". -/
def tmpBuf (heap : Nat → α) : Memory α :=
  match sub.nodeComm, sub.osprocColocatedComm with
  | some _, _ => .mem false heap
  | none, some c => if 0 = c.rank then .mem false heap else .null
  | none, none => .null

/-- "do osproc_colocated_comm reduce within all os-processes other than the root's os-process". -/
def otherOsprocs (b : Bufs α) (next : Bufs α → SmpProg α) : SmpProg α :=
  match sub.osprocColocatedComm, t.intraOsprocFgRank with
  | some c, none =>
    assert (0 = c.rank → b.tmpBuf.isNull = false) <|
      reduceImpl op count ⟨.osprocColocatedComm, c.members⟩ c.rank b.sendbuf b.tmpBuf 0 fun tmpBuf =>
        next { b with tmpBuf := tmpBuf, didReduce := true }
  | _, _ => next b

/-- "do the intranode reduce on all nodes other than the root's node". -/
def otherNodes (b : Bufs α) (next : Bufs α → SmpProg α) : SmpProg α :=
  match sub.nodeComm, t.intranodeCommRoot with
  | some c, none =>
    let reduce := fun buf : SendBuf α =>
      reduceImpl op count ⟨.nodeComm, c.members⟩ c.rank buf b.tmpBuf 0 fun tmpBuf =>
        next { b with tmpBuf := tmpBuf, didReduce := true }
    match sub.osprocColocatedComm with
    | some o =>
      assert (b.didReduce = true) <| assert (0 = o.rank) <|
        reduce (if 0 = c.rank then .inPlace else .buf b.tmpBuf)
    | none => reduce b.sendbuf
  | _, _ => next b

/-- "do the internode reduce to the root's node". -/
def amongRoots (b : Bufs α) (next : Bufs α → SmpProg α) : SmpProg α :=
  match sub.nodeRootsComm with
  | some c =>
    let reduce := reduceImpl op count ⟨.nodeRootsComm, c.members⟩ c.rank
    if c.rank ≠ t.internodeCommRoot then
      if sub.nodeComm = none ∧ sub.osprocColocatedComm = none then
        reduce b.sendbuf .null t.internodeCommRoot fun _ => next { b with didReduce := true }
      else
        assert (b.didReduce = true) <|
          reduce (.buf b.tmpBuf) .null t.internodeCommRoot fun _ => next { b with didReduce := true }
    else if rank ≠ root then
      if sub.osprocColocatedComm ≠ none ∧ t.intraOsprocFgRank = none then
        assert (b.didReduce = true) <|
          reduce .inPlace b.tmpBuf t.internodeCommRoot fun tmpBuf =>
            next { b with tmpBuf := tmpBuf, didReduce := true, sendbuf := .buf tmpBuf }
      else
        reduce b.sendbuf b.tmpBuf t.internodeCommRoot fun tmpBuf =>
          next { b with tmpBuf := tmpBuf, didReduce := true, sendbuf := .buf tmpBuf }
    else
      reduce b.sendbuf b.recvbuf t.internodeCommRoot fun recvbuf =>
        next { b with recvbuf := recvbuf, didReduce := true, sendbuf := .inPlace }
  | none => next b

/-- "do the intranode reduce on the root's node". -/
def rootNode (b : Bufs α) (next : Bufs α → SmpProg α) : SmpProg α :=
  match sub.nodeComm, t.intranodeCommRoot with
  | some c, some leaderRank =>
    let reduce := reduceImpl op count ⟨.nodeComm, c.members⟩ c.rank
    if c.rank ≠ leaderRank then
      if sub.osprocColocatedComm ≠ none ∨ sub.nodeRootsComm ≠ none then
        assert (b.didReduce = true) <| reduce (.buf b.tmpBuf) .null leaderRank fun _ => next b
      else reduce b.sendbuf .null leaderRank fun _ => next b
    else if rank ≠ root then
      if sub.nodeRootsComm ≠ none then
        assert (b.didReduce = true) <|
          reduce .inPlace b.tmpBuf leaderRank fun tmpBuf =>
            next { b with tmpBuf := tmpBuf, sendbuf := .buf tmpBuf }
      else
        reduce b.sendbuf b.tmpBuf leaderRank fun tmpBuf =>
          next { b with tmpBuf := tmpBuf, sendbuf := .buf tmpBuf }
    else
      reduce b.sendbuf b.recvbuf leaderRank fun recvbuf =>
        next { b with recvbuf := recvbuf, sendbuf := .inPlace }
  | _, _ => next b

def rootOsproc (b : Bufs α) (next : Bufs α → SmpProg α) : SmpProg α :=
  match sub.osprocColocatedComm, t.intraOsprocFgRank with
  | some c, some osprocRank =>
    reduceImpl op count ⟨.osprocColocatedComm, c.members⟩ c.rank b.sendbuf b.recvbuf osprocRank fun recvbuf =>
      next { b with recvbuf := recvbuf }
  | _, _ => next b

def start (args : Args α) : Bufs α where
  sendbuf := if rank = root ∧ args.inPlace = true then .inPlace else .buf (.mem true args.sendbuf)
  tmpBuf := tmpBuf sub args.heap
  recvbuf := if rank = root then .mem args.inPlace args.recvbuf else args.elsewhere
  didReduce := false

def reduceSmp (args : Args α) : SmpProg α :=
  otherOsprocs op count sub t (start rank root sub args) fun b =>
    otherNodes op count sub t b fun b =>
    amongRoots op count rank root sub t b fun b =>
    rootNode op count rank root sub t b fun b =>
    rootOsproc op count sub t b fun b =>
    .done (.ok b.recvbuf)

def allowsSmp (cv : Cvars) (isCommutative : Bool) (typeSize : Nat) : Bool :=
  cv.enableSmpCollectives && cv.enableSmpReduce && isCommutative &&
    decide ((if cv.maxSmpReduceMsgSize ≠ 0 then nbytes typeSize count else 0) ≤ cv.maxSmpReduceMsgSize)

end Program

/-- `MPIR_Reduce_intra`; the algorithms for the communicator as a whole are one call. -/
def reduceIntra {α : Type} (op : α → α → α) (count : Nat) (cv : Cvars) (isCommutative : Bool) (typeSize root : Nat)
    (place : Placement) (ranks : List Proc) (args : Args α) (w : Proc) : SmpProg α :=
  let rank := ranks.idxOf w
  let whole := start rank root ⟨none, none, none⟩ args
  if count = 0 then .done (.ok whole.recvbuf)
  else
    match commit place ranks w, SmpBcast.lookup place ranks w root with
    | some sub, some t =>
      if allowsSmp count cv isCommutative typeSize = true then reduceSmp op count rank root sub t args
      else reduceImpl op count ⟨.comm, ranks⟩ rank whole.sendbuf whole.recvbuf root fun recvbuf => .done (.ok recvbuf)
    | _, _ =>
      reduceImpl op count ⟨.comm, ranks⟩ rank whole.sendbuf whole.recvbuf root fun recvbuf => .done (.ok recvbuf)

end FgMpi.Coll.SmpReduce
