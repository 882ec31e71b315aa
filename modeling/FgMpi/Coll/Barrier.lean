import FgMpi.Coll.ByteBcast
import FgMpi.Coll.Hierarchy

/-! `barrier_smp_intra` and `MPIR_Barrier_intra` (`mpi/coll/barrier.c`). -/

namespace FgMpi.Coll.Barrier
open Comm.NestedMaps Hierarchy FlatBarrier

/-- `struct coproclet_barrier_vars`. -/
structure BarrierVars where
  coprocletSignal : Nat := 0
  coprocletCounter : Nat := 0
  leaderSignal : Nat := 0
deriving Repr, DecidableEq

/-- Where a process waits: for the flip of `coproclet_signal` with the sense that it has read, for
`leader_signal`, or for a message of a barrier or broadcast. -/
inductive Stage
  | signal (colocatedSense : Nat)
  | leader
  | node
  | roots
  | bcast
  | flat
deriving Repr, DecidableEq

/-- The state of one communicator.  The variables belong to OS processes, the groups to nodes. -/
structure CommState where
  stage : Proc → Option Stage := fun _ => none
  entered : Proc → Nat := fun _ => 0
  left : Proc → Nat := fun _ => 0
  vars : Nat → BarrierVars := fun _ => {}
  node : Nat → Group := fun _ => {}
  bcast : Nat → Group := fun _ => {}
  roots : Group := {}
  flat : Group := {}

namespace CommState

def setStage (s : CommState) (w : Proc) (stage : Option Stage) : CommState :=
  { s with stage := Function.update s.stage w stage }

def setVars (s : CommState) (pid : Nat) (v : BarrierVars) : CommState :=
  { s with vars := Function.update s.vars pid v }

def setNode (s : CommState) (n : Nat) (g : Group) : CommState :=
  { s with node := Function.update s.node n g }

def setBcast (s : CommState) (n : Nat) (g : Group) : CommState :=
  { s with bcast := Function.update s.bcast n g }

end CommState

def countEntry (s : CommState) (w : Proc) : CommState :=
  { s with entered := Function.update s.entered w (s.entered w + 1) }

def leave (s : CommState) (w : Proc) : CommState :=
  { s.setStage w none with left := Function.update s.left w (s.left w + 1) }

section Step
variable (place : Placement) (sub : SubComms) (w : Proc)

def release (s : CommState) : CommState :=
  match sub.osprocColocatedComm with
  | none => leave s w
  | some c =>
    if c.rank = 0 then
      let v := s.vars (place.pid w)
      leave (s.setVars (place.pid w)
        { leaderSignal := 0, coprocletCounter := 0, coprocletSignal := 1 - v.coprocletSignal }) w
    else leave s w

def advance (g : Group) (rank : Nat) (next waits : CommState) : CommState :=
  if g.mask rank = none then next else waits

def startBcast (s : CommState) : CommState :=
  match sub.nodeComm with
  | none => release place sub w s
  | some c =>
    let g := ByteBcast.enter c.members.length c.rank (s.bcast (nodeOf place w))
    let s := s.setBcast (nodeOf place w) g
    advance g c.rank (release place sub w s) (s.setStage w (some .bcast))

def startRoots (s : CommState) : CommState :=
  match sub.nodeRootsComm with
  | none => startBcast place sub w s
  | some c =>
    let g := FlatBarrier.enter c.members.length c.rank s.roots
    let s := { s with roots := g }
    advance g c.rank (startBcast place sub w s) (s.setStage w (some .roots))

def startNode (s : CommState) : CommState :=
  match sub.nodeComm with
  | none => startRoots place sub w s
  | some c =>
    let g := FlatBarrier.enter c.members.length c.rank (s.node (nodeOf place w))
    let s := s.setNode (nodeOf place w) g
    advance g c.rank (startRoots place sub w s) (s.setStage w (some .node))

/-- `barrier_smp_intra` up to the first place where the process may be switched away. -/
def smpIntra (s : CommState) : CommState :=
  match sub.osprocColocatedComm with
  | none => startNode place sub w s
  | some c =>
    let v := s.vars (place.pid w)
    if c.rank ≠ 0 then
      let counter := v.coprocletCounter + 1
      let leaderSignal := if counter = c.members.length - 1 then 1 else v.leaderSignal
      (s.setVars (place.pid w)
        { v with coprocletCounter := counter, leaderSignal := leaderSignal }).setStage w
        (some (.signal v.coprocletSignal))
    else if v.leaderSignal = 0 then s.setStage w (some .leader)
    else startNode place sub w s

/-- `barrier_smp_intra` from there on. -/
def resumeSmp (stage : Stage) (s : CommState) : CommState :=
  match stage with
  | .signal colocatedSense =>
    if (s.vars (place.pid w)).coprocletSignal = colocatedSense then s else startNode place sub w s
  | .leader =>
    if (s.vars (place.pid w)).leaderSignal = 0 then s else startNode place sub w s
  | .node =>
    match sub.nodeComm with
    | none => s
    | some c =>
      let g := FlatBarrier.receive c.members.length c.rank (s.node (nodeOf place w))
      let s := s.setNode (nodeOf place w) g
      advance g c.rank (startRoots place sub w s) s
  | .roots =>
    match sub.nodeRootsComm with
    | none => s
    | some c =>
      let g := FlatBarrier.receive c.members.length c.rank s.roots
      let s := { s with roots := g }
      advance g c.rank (startBcast place sub w s) s
  | .bcast =>
    match sub.nodeComm with
    | none => s
    | some c =>
      let g := ByteBcast.receive c.members.length c.rank (s.bcast (nodeOf place w))
      let s := s.setBcast (nodeOf place w) g
      advance g c.rank (release place sub w s) s
  | .flat => s

end Step

section Intra
variable (smp : Bool) (place : Placement) (ranks : List Proc) (w : Proc)

/-- The sub-communicators that are used; `smp` stands for `MPIR_CVAR_ENABLE_SMP_COLLECTIVES` and
`MPIR_CVAR_ENABLE_SMP_BARRIER`. -/
def nodeAware : Option SubComms := if smp then commit place ranks w else none

def barrierIntra (s : CommState) : CommState :=
  let s := countEntry s w
  if ranks.length = 1 then leave s w
  else
    match nodeAware smp place ranks w with
    | some sub => smpIntra place sub w s
    | none =>
      let g := FlatBarrier.enter ranks.length (ranks.idxOf w) s.flat
      let s := { s with flat := g }
      advance g (ranks.idxOf w) (leave s w) (s.setStage w (some .flat))

def resume (s : CommState) : CommState :=
  match s.stage w, nodeAware smp place ranks w with
  | none, _ => s
  | some stage, some sub => resumeSmp place sub w stage s
  | some _, none =>
    let g := FlatBarrier.receive ranks.length (ranks.idxOf w) s.flat
    let s := { s with flat := g }
    advance g (ranks.idxOf w) (leave s w) s

end Intra

structure Comm where
  ranks : List Proc
  nodup : ranks.Nodup

/-- `inside` is the communicator whose barrier a process has not left. -/
structure World where
  comms : Nat → CommState := fun _ => {}
  inside : Proc → Option Nat := fun _ => none

inductive Event
  | barrier (w : Proc) (c : Nat)
  | run (w : Proc)
deriving Repr, DecidableEq

def World.update (world : World) (w : Proc) (c : Nat) (s : CommState) : World where
  comms := Function.update world.comms c s
  inside := Function.update world.inside w (if s.stage w = none then none else some c)

/-- A process that is inside a barrier, or not a member, does not call another one. -/
def step (smp : Bool) (place : Placement) (comm : Nat → Comm) (world : World) : Event → World
  | .barrier w c =>
    if world.inside w = none ∧ w ∈ (comm c).ranks then
      world.update w c (barrierIntra smp place (comm c).ranks w (world.comms c))
    else world
  | .run w =>
    match world.inside w with
    | none => world
    | some c => world.update w c (resume smp place (comm c).ranks w (world.comms c))

def run (smp : Bool) (place : Placement) (comm : Nat → Comm) (es : List Event) : World :=
  es.foldl (step smp place comm) {}

end FgMpi.Coll.Barrier
