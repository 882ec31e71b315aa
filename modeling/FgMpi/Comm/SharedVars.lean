import FgMpi.Machine.Checked
import FgMpi.Machine.Slots
import FgMpi.Comm.NestedMaps

/-! `Coproclet_shared_vars_t` (`include/fgmpiimpl.h:111`) and the rank maps behind it. -/

namespace FgMpi.Comm.SharedVars
open Machine.Checked Comm.NestedMaps

abbrev MapRef := Nat
abbrev CellRef := Nat
abbrev CoRef := Nat
abbrev GroupRef := Nat

inductive Fault
  | useAfterFree
  | nullPointer
  | abort
deriving Repr, DecidableEq

structure RtwMap where
  ranks : List Proc
  kills : Nat := 0
deriving Repr, DecidableEq

/-- What `ref_acrossComm_countptr` points to.  `guards` is the map whose users it counts; no
operation reads it. -/
structure Cell where
  count : Nat
  freed : Bool := false
  guards : MapRef
deriving Repr, DecidableEq

/-- `ptn_hash` with `nested_uniform_vars`. -/
structure Nested where
  ptn : List ParentToNested
  externalSize : Nat
  localSize : Nat
  fgLocalSize : Nat
  intraOsproc : Option (List Proc)
deriving Repr, DecidableEq

/-- `Coproclet_shared_vars_t`.  `pinned` marks those that no function releases, the one of
`MPI_COMM_WORLD` and those of colocated communicators; no operation reads it. -/
structure Co where
  rtwMap : Option MapRef
  across : CellRef
  within : Nat := 1
  nested : Option Nested := none
  freed : Bool := false
  pinned : Bool
deriving Repr, DecidableEq

/-- `MPID_Group`.  `handles` is how often the user holds it, `members` the processes that it is
meant to have and `ofSelf` whether it comes from `MPI_COMM_SELF`; no operation reads the last
two. -/
structure Group where
  proc : Proc
  rank : Option Nat
  size : Nat
  rtwGrpMap : Option MapRef
  ref : Option CellRef
  handles : Nat := 1
  members : List Proc
  ofSelf : Bool
deriving Repr, DecidableEq

structure Heap where
  maps : List RtwMap
  cells : List Cell
  cos : List Co
  groups : List Group
deriving Repr, DecidableEq

namespace Heap
variable (h : Heap)

def findMap : Option MapRef → Except Fault (List Proc)
  | none => .error .nullPointer
  | some m =>
    match h.maps[m]? with
    | some a => if a.kills = 0 then .ok a.ranks else .error .useAfterFree
    | none => .error .useAfterFree

def liveCo (i : CoRef) : Except Fault Co :=
  match h.cos[i]? with
  | some co => if co.freed then .error .useAfterFree else .ok co
  | none => .error .useAfterFree

def liveCell (x : CellRef) : Except Fault Cell :=
  match h.cells[x]? with
  | some cell => if cell.freed then .error .useAfterFree else .ok cell
  | none => .error .useAfterFree

def getGroup (j : GroupRef) : Except Fault Group :=
  match h.groups[j]? with
  | some g => .ok g
  | none => .error .useAfterFree

/-- `RTWmapKill`; it ignores `NULL`. -/
def killMap : Option MapRef → List RtwMap
  | none => h.maps
  | some m =>
    match h.maps[m]? with
    | some a => h.maps.set m { a with kills := a.kills + 1 }
    | none => h.maps

/-- A new map with counts of its own: `MPIR_Comm_init_coshared_all_ref`. -/
def newShared (ranks : List Proc) (nested : Option Nested) (pinned : Bool) : Heap × CoRef :=
  ({ h with
      maps := h.maps ++ [{ ranks := ranks }]
      cells := h.cells ++ [{ count := 1, guards := h.maps.length }]
      cos := h.cos ++ [{
        rtwMap := some h.maps.length
        across := h.cells.length
        nested := nested
        pinned := pinned }] },
    h.cos.length)

/-- A map that is in use already: `MPIR_Comm_add_coshared_acrossComm_ref` and
`MPIR_Comm_init_coshared_withinComm_ref`. -/
def shareAcross (rtwMap : Option MapRef) (x : CellRef) (nested : Option Nested) (pinned : Bool) :
    Except Fault (Heap × CoRef) := do
  let cell ← h.liveCell x
  .ok ({ h with
      cells := h.cells.set x { cell with count := cell.count + 1 }
      cos := h.cos ++ [{ rtwMap := rtwMap, across := x, nested := nested, pinned := pinned }] },
    h.cos.length)

/-- `MPIR_Comm_add_coshared_all_ref`. -/
def addAllRef (i : CoRef) : Except Fault Heap := do
  let co ← h.liveCo i
  let cell ← h.liveCell co.across
  .ok { h with
    cells := h.cells.set co.across { cell with count := cell.count + 1 }
    cos := h.cos.set i { co with within := co.within + 1 } }

/-- `MPIR_Comm_free_impl`, `comm_free.c:38-58`; the result says whether the object was freed. -/
def releaseAllRef (i : CoRef) (worldMap : Option MapRef) : Except Fault (Heap × Bool) := do
  let co ← h.liveCo i
  let cell ← h.liveCell co.across
  let within := co.within - 1
  let across := cell.count - 1
  require (co.rtwMap = worldMap → 1 ≤ across) .abort
  if across = 0 then do
    require (within = 0) .abort
    .ok ({ h with
        maps := h.killMap co.rtwMap
        cells := h.cells.set co.across { cell with count := 0, freed := true }
        cos := h.cos.set i { co with within := within, rtwMap := none, freed := true } }, true)
  else
    .ok ({ h with
        cells := h.cells.set co.across { cell with count := across }
        cos := h.cos.set i { co with within := within, freed := decide (within = 0) } },
      decide (within = 0))

/-- `MPIR_Coshared_group_release`, `commutil.c:1753`. -/
def coshareGroupRelease (j : GroupRef) : Except Fault Heap := do
  let g ← h.getGroup j
  match g.ref with
  | some x => do
    require (g.rtwGrpMap ≠ none) .abort
    let cell ← h.liveCell x
    if cell.count - 1 = 0 then
      .ok { h with
        maps := h.killMap g.rtwGrpMap
        cells := h.cells.set x { cell with count := 0, freed := true }
        groups := h.groups.set j { g with rtwGrpMap := none } }
    else .ok { h with cells := h.cells.set x { cell with count := cell.count - 1 } }
  | none =>
    .ok { h with
      maps := h.killMap g.rtwGrpMap
      groups := h.groups.set j { g with rtwGrpMap := none } }

/-- `MPIR_Group_free_impl`, `group_free.c:31`. -/
def groupFree (j : GroupRef) : Except Fault Heap := do
  let h ← h.coshareGroupRelease j
  let g ← h.getGroup j
  .ok { h with groups := h.groups.set j { g with handles := g.handles - 1 } }

/-- The first process in `MPIR_Comm_create_intra`, `comm_create.c:258-279`. -/
def shareGroup (j : GroupRef) : Except Fault (Heap × CoRef) := do
  let g ← h.getGroup j
  match g.ref, g.rtwGrpMap with
  | some x, m => h.shareAcross m x none false
  | none, none => .error .nullPointer
  | none, some m =>
    .ok ({ h with
        cells := h.cells ++ [{ count := 2, guards := m }]
        cos := h.cos ++ [{ rtwMap := some m, across := h.cells.length, pinned := false }]
        groups := h.groups.set j { g with ref := some h.cells.length } },
      h.cos.length)

/-- The later ones, `comm_create.c:251-256`: the group leaves its map for the one that is there. -/
def retargetGroup (j : GroupRef) (i : CoRef) : Except Fault Heap := do
  let h ← h.addAllRef i
  let co ← h.liveCo i
  let h ← h.coshareGroupRelease j
  let g ← h.getGroup j
  let cell ← h.liveCell co.across
  .ok { h with
    cells := h.cells.set co.across { cell with count := cell.count + 1 }
    groups := h.groups.set j { g with rtwGrpMap := co.rtwMap, ref := some co.across } }

/-- `MPIR_Comm_group_impl`, `comm_group.c:44-77`: a group for the communicator with `co`, or one
more reference to the group that it has. -/
def newGroup (i : CoRef) (g : Option MapRef → CellRef → Group) : Except Fault (Heap × GroupRef) := do
  let co ← h.liveCo i
  let cell ← h.liveCell co.across
  .ok ({ h with
      cells := h.cells.set co.across { cell with count := cell.count + 1 }
      groups := h.groups ++ [g co.rtwMap co.across] },
    h.groups.length)

def addGroupRef (i : CoRef) (j : GroupRef) : Except Fault Heap := do
  let co ← h.liveCo i
  let g ← h.getGroup j
  let cell ← h.liveCell co.across
  .ok { h with
    cells := h.cells.set co.across { cell with count := cell.count + 1 }
    groups := h.groups.set j { g with ref := some co.across, handles := g.handles + 1 } }

/-- A group with a map of its own, `MPIR_Group_incl_impl`. -/
def looseGroup (ranks : List Proc) (g : Option MapRef → Group) : Heap :=
  { h with
    maps := h.maps ++ [{ ranks := ranks }]
    groups := h.groups ++ [g (some h.maps.length)] }

def setNested (i : CoRef) (nested : Nested) : Except Fault Heap := do
  let co ← h.liveCo i
  .ok { h with cos := h.cos.set i { co with nested := some nested } }

end Heap

end FgMpi.Comm.SharedVars
