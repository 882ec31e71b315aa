import FgMpi.Comm.Communicator
import FgMpi.Coll.NestedTables

/-! `MPIR_Comm_copy` to a smaller size (`mpi/comm/commutil.c:1019`). -/

namespace FgMpi.Comm.CopyTables
open Machine.Checked
open Comm.NestedMaps Comm.SharedVars
open Comm.Communicator (Key colocatedOffset)
open Coll.Hierarchy

/-- An `rtw_map` as it lies in memory; `none` was allocated and never written. -/
abbrev RankArray := List (Option Proc)

/-- `Coproclet_shared_vars_t` with `nested_uniform_vars`; `none` is `NULL`. -/
structure CoShared where
  rtwMap : RankArray
  ptn : Option (List ParentToNested) := none
  externalSize : Nat := 0
  localSize : Nat := 0
  fgLocalSize : Nat := 0
  internode : Option (List Proc) := none
  intranode : Option (List Proc) := none
  intraOsproc : Option (List Proc) := none
deriving Repr, DecidableEq

/-- `contextLeader_hshtbl` of an OS process. -/
abbrev Table := Key → Option CoShared

def rtwpMapFind (rtwMap : RankArray) (lrank : Nat) : Except Fault Proc :=
  match rtwMap[lrank]? with
  | some (some worldrank) => .ok worldrank
  | _ => .error .abort

def rtwpMapFinds (rtwMap : RankArray) : List Nat → Except Fault (List Proc)
  | [] => .ok []
  | lrank :: lranks => do
    let worldrank ← rtwpMapFind rtwMap lrank
    let worldranks ← rtwpMapFinds rtwMap lranks
    .ok (worldrank :: worldranks)

/-- `EXTRACT_ARRAY_FREE_HASH`, `hashmap.h:258`: without a hash the array is left as it is. -/
def extractArray (hash : Option (List Proc)) (arraysize : Nat) : Except Fault RankArray :=
  match hash with
  | none => .ok (List.replicate arraysize none)
  | some worldranks => do
    require (arraysize ≤ worldranks.length) .abort
    .ok ((worldranks.take arraysize).map some)

/-- The maps of `node_comm`, `node_roots_comm` and `osproc_colocated_comm`. -/
structure Nested where
  nodeComm : Option RankArray := none
  nodeRootsComm : Option RankArray := none
  osprocColocatedComm : Option RankArray := none
deriving Repr, DecidableEq

section Commit
variable (place : Placement) (mypid : Nat)

/-- `commutil.c:592-616`. -/
def findNested (size : Nat) (co : CoShared) : Except Fault CoShared :=
  match co.ptn with
  | some _ => .ok co
  | none => do
    let ranks ← rtwpMapFinds co.rtwMap (List.range size)
    let s := nestedMaps place mypid ranks
    .ok { co with
      ptn := some s.ptn
      externalSize := s.internode.length
      localSize := s.intranode.length
      fgLocalSize := s.intraOsproc.length
      internode := some s.internode
      intranode := some s.intranode
      intraOsproc := some s.intraOsproc }

/-- The lookup and the defensive checks, `commutil.c:648-660`. -/
def findEntry (rank : Nat) (co : CoShared) : Except Fault ParentToNested :=
  match (co.ptn.getD [])[rank]? with
  | none => .error .abort
  | some entry => do
    require (0 < co.localSize) .abort
    require (0 < co.fgLocalSize) .abort
    require (1 < co.fgLocalSize ∨ entry.intranodeCommLocalRank ≠ none) .abort
    require (1 < co.fgLocalSize ∨ 1 < co.localSize ∨ entry.internodeCommExternalRank ≠ none) .abort
    .ok entry

/-- `node_comm`, `commutil.c:680-748`. -/
def makeNodeComm (entry : ParentToNested) (co : CoShared) : Except Fault (Option RankArray × CoShared) :=
  if 1 < co.localSize then
    if entry.intraOsprocFgRank = some 0 then do
      let rtwMap ← extractArray co.intranode co.localSize
      .ok (some rtwMap, { co with intranode := none })
    else .ok (none, co)
  else .ok (none, { co with intranode := none })

/-- `node_roots_comm`, `commutil.c:751-813`. -/
def makeNodeRootsComm (entry : ParentToNested) (co : CoShared) :
    Except Fault (Option RankArray × CoShared) :=
  if 1 < co.externalSize then
    if entry.intranodeCommLocalRank = some 0 then do
      let rtwMap ← extractArray co.internode co.externalSize
      .ok (some rtwMap, { co with internode := none })
    else .ok (none, co)
  else .ok (none, { co with internode := none })

/-- `osproc_colocated_comm`, `commutil.c:815-871`; the others find what the first has made. -/
def makeColocatedComm (key : Key) (co : CoShared) (table : Table) :
    Except Fault (Option RankArray × Table) :=
  if 1 < co.fgLocalSize then
    match table ⟨key.contextId + colocatedOffset, key.leader⟩ with
    | some stored => .ok (some stored.rtwMap, Function.update table key (some co))
    | none => do
      let rtwMap ← extractArray co.intraOsproc co.fgLocalSize
      .ok (some rtwMap,
        Function.update (Function.update table key (some { co with intraOsproc := none }))
          ⟨key.contextId + colocatedOffset, key.leader⟩ (some { rtwMap := rtwMap }))
  else .ok (none, Function.update table key (some { co with intraOsproc := none }))

/-- `MPIR_Comm_commit` of a process whose shared variables are found under `key`. -/
def commit (key : Key) (rank size : Nat) (table : Table) : Except Fault (Nested × Table) :=
  match table key with
  | none => .error .nullPointer
  | some co => do
    let co ← findNested place mypid size co
    let entry ← findEntry rank co
    if co.externalSize = size then do
      require (co.localSize = 1) .abort
      let freed := { co with internode := none, intranode := none, intraOsproc := none }
      .ok ({}, Function.update table key (some freed))
    else do
      let (nodeComm, co) ← makeNodeComm entry co
      let (nodeRootsComm, co) ← makeNodeRootsComm entry co
      let (colocated, table) ← makeColocatedComm key co table
      .ok (⟨nodeComm, nodeRootsComm, colocated⟩, table)

end Commit

/-- `MPIR_Comm_copy_share` for a smaller size. -/
def copyShare (parent : CoShared) (size : Nat) (key : Key) (table : Table) : Except Fault Table :=
  match table key with
  | some _ => .ok table
  | none => do
    let worldranks ← rtwpMapFinds parent.rtwMap (List.range size)
    .ok (Function.update table key (some {
      rtwMap := worldranks.map some
      ptn := parent.ptn
      externalSize := parent.externalSize
      localSize := parent.localSize
      fgLocalSize := parent.fgLocalSize }))

structure NewComm where
  contextId : Nat
  leader : Proc
  rank : Nat
  size : Nat
  shared : CoShared
  nested : Nested
deriving Repr, DecidableEq

/-- `MPIR_Comm_copy` to a smaller size, after the context id has been agreed on; `parentKey` is
the key of the parent. -/
def copy (place : Placement) (mypid : Nat) (parentKey : Key) (rank size contextId : Nat)
    (table : Table) : Except Fault (Option NewComm × Table) :=
  if size ≤ rank then .ok (none, table)
  else
    match table parentKey with
    | none => .error .nullPointer
    | some parent => do
      let worldranks ← rtwpMapFinds parent.rtwMap (List.range size)
      let leader ← Communicator.findLeader worldranks
      let table ← copyShare parent size ⟨contextId, leader⟩ table
      let (nested, table) ← commit place mypid ⟨contextId, leader⟩ rank size table
      match table ⟨contextId, leader⟩ with
      | none => .error .nullPointer
      | some shared => .ok (some ⟨contextId, leader, rank, size, shared, nested⟩, table)

def copyStep (place : Placement) (ranks : List Proc) (parentKey : Key) (size contextId : Nat)
    (st : (Nat → Table) × List (Nat × Option NewComm)) (rank : Nat) :
    Except Fault ((Nat → Table) × List (Nat × Option NewComm)) := do
  let mypid := place.pid (ranks.getD rank 0)
  let (comm, table) ← copy place mypid parentKey rank size contextId (st.1 mypid)
  .ok (Function.update st.1 mypid table, st.2 ++ [(rank, comm)])

def copyAll (place : Placement) (ranks : List Proc) (parentKey : Key) (size contextId : Nat)
    (order : List Nat) (tables : Nat → Table) :
    Except Fault ((Nat → Table) × List (Nat × Option NewComm)) :=
  order.foldlM (copyStep place ranks parentKey size contextId) (tables, [])

end FgMpi.Comm.CopyTables
