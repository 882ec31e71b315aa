import FgMpi.ContextId.Mask
import FgMpi.Comm.SharedVars

/-! Communicators and groups of the processes of a job (`mpi/comm`, `mpi/group`). -/

namespace FgMpi.Comm.Communicator
open Machine.Checked ContextId.Mask
open Comm.NestedMaps Comm.SharedVars

abbrev CommRef := Nat

structure Key where
  contextId : Nat
  leader : Proc
deriving Repr, DecidableEq

/-- `osproc_colocated_comm`. -/
structure Colocated where
  co : CoRef
  rank : Option Nat
  localSize : Nat
deriving Repr, DecidableEq

/-- `MPID_Comm` of one process.  `creation` tells the communicators apart that reuse an id and
`members` are the processes that it is meant to have; no operation on the shared variables reads
them. -/
structure Intracomm where
  proc : Proc
  contextId : Nat
  leader : Proc
  rank : Nat
  localSize : Nat
  co : CoRef
  localGroup : Option GroupRef := none
  colocated : Option Colocated := none
  live : Bool := true
  creation : Nat
  members : List Proc
deriving Repr, DecidableEq

/-- What a process passes to `MPIR_Comm_split_impl` (`none` is `MPI_UNDEFINED`),
`MPIR_Comm_create_intra` and `MPIR_Comm_copy`. -/
inductive Arg
  | split (color : Option Int) (key : Int)
  | createIntra (group : GroupRef)
  | copy (size : Nat)
deriving Repr, DecidableEq

/-- A process that has got its context id; `args` are those of all members. -/
structure Pending where
  proc : Proc
  parent : CommRef
  contextId : Nat
  creation : Nat
  args : List Arg
deriving Repr, DecidableEq

structure World where
  heap : Heap
  masks : Proc → ContextMask
  table : Nat → Key → Option CoRef
  comms : List Intracomm
  pending : List Pending
  started : Proc → Bool
  creations : Nat

/-- `context_id_init`, `contextid.c:164`. -/
def contextIdInit : ContextMask := fun i => if i = 0 then 0xFFFFFFF8 else 0xFFFFFFFF

def worldContextId : Nat := 0
def selfContextId : Nat := 16
def icommWorldContextId : Nat := 32

def worldComm (place : Placement) (p : Proc) : Intracomm where
  proc := p
  contextId := worldContextId
  leader := 0
  rank := p
  localSize := place.totprocs
  co := place.pid p
  creation := 0
  members := List.range place.totprocs

/-- It shares everything with `MPI_COMM_WORLD`, `mpid_init.c:375`. -/
def selfComm (place : Placement) (p : Proc) : Intracomm where
  proc := p
  contextId := selfContextId
  leader := 0
  rank := 0
  localSize := 1
  co := place.pid p
  creation := 1
  members := [p]

/-- Every OS process has its own objects for `MPI_COMM_WORLD`, `mpid_init.c:188-241`. -/
def World.init (place : Placement) : World where
  heap :=
    { maps := (List.range place.numOsprocs).map (fun _ => ⟨List.range place.totprocs, 0⟩)
      cells := (List.range place.numOsprocs).map (fun i => ⟨1, false, i⟩)
      cos := (List.range place.numOsprocs).map (fun i =>
        { rtwMap := some i, across := i, pinned := true })
      groups := [] }
  masks _ := contextIdInit
  table pid key :=
    if pid < place.numOsprocs ∧ key.leader = 0 ∧
        key.contextId ∈ [worldContextId, selfContextId, icommWorldContextId]
    then some pid else none
  comms := (List.range place.totprocs).map (worldComm place) ++
    (List.range place.totprocs).map (selfComm place)
  pending := []
  started _ := false
  creations := 2

/-- `RTWPmapFind`, `fginit.c:301`; a rank that is not there ends the program. -/
def lookupRank (ranks : List Proc) (key : Nat) : Except Fault Proc :=
  match ranks[key]? with
  | some r => .ok r
  | none => .error .abort

def lookupRanks (ranks : List Proc) : List Nat → Except Fault (List Proc)
  | [] => .ok []
  | key :: keys => do
    let r ← lookupRank ranks key
    let rs ← lookupRanks ranks keys
    .ok (r :: rs)

/-- The smallest one, also in the loop of `MPIR_Comm_split_impl`. -/
def findLeader (ranks : List Proc) : Except Fault Proc :=
  match ranks.min? with
  | some r => .ok r
  | none => .error .abort

/-- `RTWmapFindLeader`, `include/fgmpiimpl.h:64`. -/
def rtwmapFindLeader (h : Heap) (rtwMap : Option MapRef) (size : Nat) : Except Fault Proc := do
  let ranks ← h.findMap rtwMap
  let ranks ← lookupRanks ranks (List.range size)
  findLeader ranks

def World.getComm (w : World) (c : CommRef) : Except Fault Intracomm :=
  match w.comms[c]? with
  | some comm => .ok comm
  | none => .error .useAfterFree

/-- `CL_LookupHashFind`; what is not found is made and inserted. -/
def World.findOrMake (w : World) (pid : Nat) (key : Key) (join : CoRef → Except Fault Heap)
    (make : Except Fault (Heap × CoRef)) : Except Fault (World × CoRef) :=
  match w.table pid key with
  | some i => do
    let h ← join i
    .ok ({ w with heap := h }, i)
  | none => do
    let (h, i) ← make
    .ok ({ w with
        heap := h
        table := Function.update w.table pid (Function.update (w.table pid) key (some i)) }, i)

def colocatedOffset : Nat := 6

section Commit
variable (place : Placement) (junk : Nat → Proc)

/-- `MPIU_Nested_maps_for_communicators` on the members that the map gives. -/
def nestedOf (h : Heap) (c : Intracomm) (rtwMap : Option MapRef) : Except Fault Nested := do
  let ranks ← h.findMap rtwMap
  let ranks ← lookupRanks ranks (List.range c.localSize)
  let me ← lookupRank ranks c.rank
  let s := nestedMaps place (place.pid me) ranks
  .ok
    { ptn := s.ptn
      externalSize := s.internode.length
      localSize := s.intranode.length
      fgLocalSize := s.intraOsproc.length
      intraOsproc := some s.intraOsproc }

/-- The defensive checks, `commutil.c:658-668`. -/
def checkNested (nested : Nested) (rank : Nat) : Except Fault ParentToNested :=
  match nested.ptn[rank]? with
  | none => .error .abort
  | some entry => do
    require (0 < nested.localSize) .abort
    require (0 < nested.fgLocalSize) .abort
    require (1 < nested.fgLocalSize ∨ entry.intranodeCommLocalRank ≠ none) .abort
    require (1 < nested.fgLocalSize ∨ 1 < nested.localSize ∨
      entry.internodeCommExternalRank ≠ none) .abort
    .ok entry

/-- `EXTRACT_ARRAY_FREE_HASH`: where there is no hash the array stays as it was allocated. -/
def extractColocated (h : Heap) (i : CoRef) (nested : Nested) : Except Fault (Heap × CoRef) :=
  match nested.intraOsproc with
  | some hash => do
    let ranks ← lookupRanks hash (List.range nested.fgLocalSize)
    let h ← h.setNested i { nested with intraOsproc := none }
    .ok (h.newShared ranks none true)
  | none => .ok (h.newShared ((List.range nested.fgLocalSize).map junk) none true)

def World.setColocated (w : World) (ci : CommRef) (c : Intracomm) (k : Colocated) : World :=
  { w with comms := w.comms.set ci { c with colocated := some k } }

/-- The first process that commits computes the nested variables, `commutil.c:592-616`. -/
def findNested (h : Heap) (c : Intracomm) (co : Co) : Except Fault Nested :=
  match co.nested with
  | some nested => .ok nested
  | none => nestedOf place h c co.rtwMap

def commitNested (w : World) (ci : CommRef) (c : Intracomm) (nested : Nested) :
    Except Fault World := do
  let h ← w.heap.setNested c.co nested
  let w := { w with heap := h }
  let entry ← checkNested nested c.rank
  if nested.externalSize = c.localSize then do
    let h ← w.heap.setNested c.co { nested with intraOsproc := none }
    require (nested.localSize = 1) .abort
    .ok { w with heap := h }
  else if 1 < nested.fgLocalSize then do
    let (w, i) ← w.findOrMake (place.pid c.proc) ⟨c.contextId + colocatedOffset, c.leader⟩
      w.heap.addAllRef (extractColocated junk w.heap c.co nested)
    .ok (w.setColocated ci c ⟨i, entry.intraOsprocFgRank, nested.fgLocalSize⟩)
  else do
    let h ← w.heap.setNested c.co { nested with intraOsproc := none }
    .ok { w with heap := h }

/-- `MPIR_Comm_commit`, `commutil.c:558`, without `node_comm` and `node_roots_comm`. -/
def commit (w : World) (ci : CommRef) : Except Fault World := do
  let c ← w.getComm ci
  let co ← w.heap.liveCo c.co
  let nested ← findNested place w.heap c co
  commitNested place junk w ci c nested

/-- `MPIR_Comm_share_commit`, `commutil.c:1506`: `c` is a copy of `parent`. -/
def shareCommit (w : World) (parent : Intracomm) (ci : CommRef) : Except Fault World := do
  let c ← w.getComm ci
  let co ← w.heap.liveCo parent.co
  match co.nested with
  | none => .error .abort
  | some nested => do
    let entry ← checkNested nested parent.rank
    if nested.externalSize = parent.localSize then do
      require (nested.localSize = 1) .abort
      .ok w
    else if 1 < nested.fgLocalSize then do
      let (w, i) ← w.findOrMake (place.pid c.proc) ⟨c.contextId + colocatedOffset, parent.leader⟩
        w.heap.addAllRef
        (match parent.colocated with
          | none => .error .nullPointer
          | some k => do
            let kco ← w.heap.liveCo k.co
            w.heap.shareAcross kco.rtwMap kco.across none true)
      .ok (w.setColocated ci c ⟨i, entry.intraOsprocFgRank, nested.fgLocalSize⟩)
    else .ok w

end Commit

def Arg.color : Arg → Option Int
  | .split color _ => color
  | _ => none

def Arg.key : Arg → Int
  | .split _ key => key
  | _ => 0

def colorClass (args : List Arg) (color : Int) : List Nat :=
  (List.range args.length).filter (fun i => (args[i]?.bind Arg.color) = some color)

/-- `MPIU_Sort_inttable`: by key, those with equal keys in their old order. -/
def sortInttable (args : List Arg) (ranks : List Nat) : List Nat :=
  ranks.insertionSort (fun i j => (args[i]?.map Arg.key).getD 0 ≤ (args[j]?.map Arg.key).getD 0)

/-- The members that the new communicator of a process is meant to have, in the order of their
ranks. -/
def newMembers (h : Heap) (parent : Intracomm) (args : List Arg) : Arg → List Proc
  | .split none _ => []
  | .split (some color) _ =>
    (sortInttable args (colorClass args color)).filterMap (fun i => parent.members[i]?)
  | .createIntra j => (h.groups[j]?.map Group.members).getD []
  | .copy size => parent.members.take size

section Attach
variable (place : Placement) (junk : Nat → Proc)

def World.addComm (w : World) (c : Intracomm) : World := { w with comms := w.comms ++ [c] }

/-- The rest of `MPIR_Comm_split_impl` after the allocation of the context id. -/
def attachSplit (w : World) (q : Pending) (parent : Intracomm) (color : Int) (arg : Arg) :
    Except Fault World := do
  let co ← w.heap.liveCo parent.co
  let ranks ← w.heap.findMap co.rtwMap
  let worldranks ← lookupRanks ranks (colorClass q.args color)
  let leader ← findLeader worldranks
  let keytable := sortInttable q.args (colorClass q.args color)
  let (w', i) ← w.findOrMake (place.pid q.proc) ⟨q.contextId, leader⟩ w.heap.addAllRef (do
    let ranks ← lookupRanks ranks keytable
    .ok (w.heap.newShared ranks none false))
  commit place junk
    (w'.addComm {
      proc := q.proc
      contextId := q.contextId
      leader := leader
      rank := keytable.idxOf parent.rank
      localSize := keytable.length
      co := i
      creation := q.creation
      members := newMembers w.heap parent q.args arg })
    w.comms.length

/-- `MPIR_Comm_create_intra`. -/
def attachCreateIntra (w : World) (q : Pending) (parent : Intracomm) (j : GroupRef) (arg : Arg) :
    Except Fault World := do
  let g ← w.heap.getGroup j
  match g.rank with
  | none => .ok w
  | some rank => do
    let leader ← rtwmapFindLeader w.heap g.rtwGrpMap g.size
    let (w', i) ← w.findOrMake (place.pid q.proc) ⟨q.contextId, leader⟩
      (w.heap.retargetGroup j) (w.heap.shareGroup j)
    commit place junk
      (w'.addComm {
        proc := q.proc
        contextId := q.contextId
        leader := leader
        rank := rank
        localSize := g.size
        co := i
        localGroup := some j
        creation := q.creation
        members := newMembers w.heap parent q.args arg })
      w.comms.length

/-- `MPIR_Comm_copy_share`: the shared variables of a copy. -/
def copyShare (w : World) (pid : Nat) (parent : Intracomm) (size : Nat) :
    Except Fault (Heap × CoRef) := do
  let co ← w.heap.liveCo parent.co
  let nested := co.nested.map (fun n => { n with intraOsproc := none })
  if size = parent.localSize then
    match w.table pid ⟨parent.contextId, parent.leader⟩ with
    | none => .error .abort
    | some k => do
      let stored ← w.heap.liveCo k
      w.heap.shareAcross co.rtwMap stored.across nested false
  else do
    let ranks ← w.heap.findMap co.rtwMap
    let ranks ← lookupRanks ranks (List.range size)
    .ok (w.heap.newShared ranks nested false)

/-- `commutil.c:1114-1119`. -/
def copyLeader (h : Heap) (parent : Intracomm) (co : Co) (size : Nat) : Except Fault Proc :=
  if size = parent.localSize then .ok parent.leader else rtwmapFindLeader h co.rtwMap size

/-- `MPIR_Comm_copy`; the processes behind the new size give their context id back. -/
def attachCopy (w : World) (q : Pending) (parent : Intracomm) (size : Nat) (arg : Arg) :
    Except Fault World :=
  if size ≤ parent.rank then
    match freeContextid (w.masks q.proc) q.contextId with
    | none => .error .abort
    | some mask => .ok { w with masks := Function.update w.masks q.proc mask }
  else do
    let co ← w.heap.liveCo parent.co
    let leader ← copyLeader w.heap parent co size
    let (w', i) ← w.findOrMake (place.pid q.proc) ⟨q.contextId, leader⟩ w.heap.addAllRef
      (copyShare w (place.pid q.proc) parent size)
    let w' := w'.addComm {
      proc := q.proc
      contextId := q.contextId
      leader := leader
      rank := parent.rank
      localSize := size
      co := i
      creation := q.creation
      members := newMembers w.heap parent q.args arg }
    if size = parent.localSize then shareCommit place w' parent w.comms.length
    else commit place junk w' w.comms.length

def attach (w : World) (q : Pending) : Except Fault World := do
  let parent ← w.getComm q.parent
  let w := { w with pending := w.pending.erase q }
  match q.args[parent.rank]? with
  | some (.split (some color) key) => attachSplit place junk w q parent color (.split color key)
  | some (.createIntra j) => attachCreateIntra place junk w q parent j (.createIntra j)
  | some (.copy size) => attachCopy place junk w q parent size (.copy size)
  | _ => .ok w

end Attach

section Calls
variable (place : Placement)

/-- The entry goes with the last process: `CL_DeleteHashEntry`, `comm_free.c:60-69`. -/
def World.clearEntry (w : World) (pid : Nat) (key : Key) (freed : Bool) :
    Except Fault (Nat → Key → Option CoRef) :=
  if freed then
    match w.table pid key with
    | none => .error .abort
    | some _ => .ok (Function.update w.table pid (Function.update (w.table pid) key none))
  else .ok w.table

/-- `MPIR_Comm_free_impl` with `MPIR_Comm_delete_internal`. -/
def commFree (w : World) (ci : CommRef) (c : Intracomm) : Except Fault World := do
  let pid := place.pid c.proc
  let key : Key := ⟨c.contextId, c.leader⟩
  let worldMap := w.heap.cos[pid]?.bind Co.rtwMap
  let (h, freed) ← w.heap.releaseAllRef c.co worldMap
  let table ← w.clearEntry pid key freed
  match freeContextid (w.masks c.proc) c.contextId with
  | none => .error .abort
  | some mask => .ok { w with
      heap := h
      table := table
      comms := w.comms.set ci { c with live := false }
      masks := Function.update w.masks c.proc mask }

/-- `MPIR_Comm_group_impl`. -/
def commGroup (w : World) (ci : CommRef) (c : Intracomm) : Except Fault World :=
  match c.localGroup with
  | none => do
    let (h, j) ← w.heap.newGroup c.co (fun m x =>
      { proc := c.proc
        rank := some c.rank
        size := c.localSize
        rtwGrpMap := m
        ref := some x
        members := c.members
        ofSelf := decide (c.creation = 1) })
    .ok { w with heap := h, comms := w.comms.set ci { c with localGroup := some j } }
  | some j => do
    let h ← w.heap.addGroupRef c.co j
    .ok { w with heap := h }

/-- `MPIR_Group_incl_impl`. -/
def groupIncl (w : World) (g : Group) (ranks : List Nat) : Except Fault World :=
  if ranks = [] then .ok w
  else do
    let old ← w.heap.findMap g.rtwGrpMap
    let new ← lookupRanks old ranks
    .ok { w with heap := w.heap.looseGroup new (fun m =>
      { proc := g.proc
        rank := ranks.findIdx? (fun r => some r = g.rank)
        size := ranks.length
        rtwGrpMap := m
        ref := none
        members := ranks.filterMap (fun r => g.members[r]?)
        ofSelf := g.ofSelf }) }

end Calls

def World.busy (w : World) (p : Proc) : Prop := w.started p = false ∨ ∃ q ∈ w.pending, q.proc = p

instance (w : World) (p : Proc) : Decidable (w.busy p) := inferInstanceAs (Decidable (_ ∨ _))

def takesPart (h : Heap) : Arg → Bool
  | .split color _ => color.isSome
  | .createIntra j => (h.groups[j]?.bind SharedVars.Group.rank).isSome
  | .copy _ => true

def IsContextId (id : Nat) : Prop := id = prefixField id <<< 4

instance (id : Nat) : Decidable (IsContextId id) := inferInstanceAs (Decidable (_ = _))

def Arg.isSplit : Arg → Bool
  | .split _ _ => true
  | _ => false

def groupOf (h : Heap) : Arg → Option Group
  | .createIntra j => h.groups[j]?
  | _ => none

def groupFits (h : Heap) (calls : List (Proc × Arg)) (p : Proc) (a : Arg) : Bool :=
  (groupOf h a).any (fun g => g.proc == p && decide (0 < g.handles) &&
    (g.rank.isNone || g.members.all (fun r => calls.any (fun call => call.1 == r &&
      (groupOf h call.2).any (fun g' => g'.rank.isSome && g'.members == g.members)))))

def argsFit (h : Heap) (members : List Proc) (args : List Arg) : Bool :=
  match args with
  | [] => false
  | .split _ _ :: _ => args.all Arg.isSplit
  | .copy size :: _ =>
    decide (0 < size ∧ size ≤ members.length) && args.all (fun a => a == .copy size)
  | .createIntra _ :: _ =>
    (members.zip args).all (fun call => groupFits h (members.zip args) call.1 call.2)

def World.agree (w : World) (contextId : Nat) (calls : List (CommRef × Arg)) : World :=
  match calls.head?.bind (fun call => w.comms[call.1]?) with
  | none => w
  | some parent =>
    let args := calls.map Prod.snd
    let takers := (parent.members.zip calls).filter (fun t => takesPart w.heap t.2.2)
    if calls.map (fun call =>
          w.comms[call.1]?.map (fun c => (c.proc, c.live, c.creation, c.members))) =
          parent.members.map (fun p => some (p, true, parent.creation, parent.members)) ∧
        (∀ p ∈ parent.members, ¬ w.busy p) ∧ argsFit w.heap parent.members args = true ∧
        IsContextId contextId ∧ ∀ t ∈ takers, hasBit (w.masks t.1) contextId = true
    then
      { w with
        masks := fun p =>
          if p ∈ takers.map Prod.fst then
            (allocateContextBit (w.masks p) contextId).getD (w.masks p)
          else w.masks p
        pending := w.pending ++
          takers.map (fun t => ⟨t.1, t.2.1, contextId, w.creations, args⟩)
        creations := w.creations + 1 }
    else w

inductive Op
  | init (p : Proc) (junk : Nat → Proc)
  | agree (contextId : Nat) (calls : List (CommRef × Arg))
  | attach (p : Proc) (junk : Nat → Proc)
  | commFree (c : CommRef)
  | commGroup (c : CommRef)
  | groupIncl (g : GroupRef) (ranks : List Nat)
  | groupFree (g : GroupRef)

def World.usable (w : World) (ci : CommRef) : Option Intracomm :=
  w.comms[ci]?.filter (fun c => c.live && decide (¬ w.busy c.proc))

def World.usableGroup (w : World) (j : GroupRef) : Option Group :=
  w.heap.groups[j]?.filter (fun g => decide (0 < g.handles) && decide (¬ w.busy g.proc))

def step (place : Placement) (w : World) : Op → Except Fault World
  | .init p junk =>
    if p < place.totprocs ∧ w.started p = false then do
      let w ← commit place junk w p
      .ok { w with started := Function.update w.started p true }
    else .ok w
  | .agree contextId calls => .ok (w.agree contextId calls)
  | .attach p junk =>
    match w.pending.find? (fun q => q.proc == p) with
    | none => .ok w
    | some q => attach place junk w q
  | .commFree ci =>
    match w.usable ci with
    | none => .ok w
    | some c => if 2 ≤ c.creation then commFree place w ci c else .ok w
  | .commGroup ci =>
    match w.usable ci with
    | none => .ok w
    | some c => commGroup w ci c
  | .groupIncl j ranks =>
    match w.usableGroup j with
    | none => .ok w
    | some g =>
      -- `MPIR_Group_check_valid_ranks`; MPI asks for different ranks
      if ranks.Nodup ∧ ∀ r ∈ ranks, r < g.size then groupIncl w g ranks else .ok w
  | .groupFree j =>
    match w.usableGroup j with
    | none => .ok w
    | some _ => do
      let h ← w.heap.groupFree j
      .ok { w with heap := h }

end FgMpi.Comm.Communicator
