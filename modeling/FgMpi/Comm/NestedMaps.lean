import Mathlib.Data.List.Basic

/-! `MPIU_Nested_maps_for_communicators` (`util/procmap/local_proc.c:211`). -/

namespace FgMpi.Comm.NestedMaps

abbrev Proc := Nat

/-- Where the processes of the job live: `FG_worldrank_to_pid` and `MPID_Get_node_id`. -/
structure Placement where
  totprocs : Nat
  numOsprocs : Nat
  pid : Proc → Nat
  nodeId : Nat → Nat
  pid_lt : ∀ p, p < totprocs → pid p < numOsprocs

/-- `Parent_to_Nested_comm_tables_t`; `none` is -1. -/
structure ParentToNested where
  internodeCommRoot : Nat
  internodeCommExternalRank : Option Nat
  intranodeCommRoot : Option Nat
  intranodeCommLocalRank : Option Nat
  intraOsprocFgRank : Option Nat
deriving Repr, DecidableEq

/-- The state of the loop over the members; the sizes are the numbers of entries so far. -/
structure Scan where
  nodes : Nat → Option Nat := fun _ => none
  osprocs : Nat → Option Nat := fun _ => none
  internode : List Proc := []
  intranode : List Proc := []
  intraOsproc : List Proc := []
  ptn : List ParentToNested := []

section Loop
variable (place : Placement) (mypid : Nat)

def scan (s : Scan) (worldrank : Proc) : Scan :=
  let pid := place.pid worldrank
  let node := place.nodeId pid
  let colocated := mypid = pid
  let firstOnNode := s.nodes node = none
  let firstInOsproc := node = place.nodeId mypid ∧ s.osprocs pid = none
  let nodes :=
    if firstOnNode then Function.update s.nodes node (some s.internode.length) else s.nodes
  let osprocs :=
    if firstInOsproc then Function.update s.osprocs pid (some s.intranode.length) else s.osprocs
  { nodes := nodes
    osprocs := osprocs
    internode := if firstOnNode then s.internode ++ [worldrank] else s.internode
    intranode := if firstInOsproc then s.intranode ++ [worldrank] else s.intranode
    intraOsproc := if colocated then s.intraOsproc ++ [worldrank] else s.intraOsproc
    ptn := s.ptn ++ [{
      internodeCommRoot := (nodes node).getD 0
      internodeCommExternalRank := if firstOnNode then some s.internode.length else none
      intranodeCommRoot := osprocs pid
      intranodeCommLocalRank := if firstInOsproc then some s.intranode.length else none
      intraOsprocFgRank := if colocated then some s.intraOsproc.length else none }] }

def nestedMaps (ranks : List Proc) : Scan := ranks.foldl (scan place mypid) {}

end Loop

theorem foldl_scan_intraOsproc (place : Placement) (mypid : Nat) (ranks : List Proc) (s : Scan) :
    (ranks.foldl (scan place mypid) s).intraOsproc =
      s.intraOsproc ++ ranks.filter (fun r => place.pid r = mypid) := by
  induction ranks generalizing s with
  | nil => simp
  | cons r ranks ih =>
    rw [List.foldl_cons, ih]
    by_cases hr : mypid = place.pid r
    · simp [scan, hr]
    · simp [scan, hr, Ne.symm hr]

theorem nestedMaps_intraOsproc (place : Placement) (mypid : Nat) (ranks : List Proc) :
    (nestedMaps place mypid ranks).intraOsproc = ranks.filter (fun r => place.pid r = mypid) := by
  rw [nestedMaps, foldl_scan_intraOsproc]
  rfl

end FgMpi.Comm.NestedMaps
