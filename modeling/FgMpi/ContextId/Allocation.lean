import FgMpi.Machine.Checked
import FgMpi.Machine.Runs
import FgMpi.ContextId.Mask

/-! `MPIR_Get_contextid_sparse_group` and its nonblocking variant (`mpi/comm/contextid.c:388-924`). -/

namespace FgMpi.ContextId.Allocation
open Machine.Checked ContextId.Mask

abbrev Proc := Nat

abbrev AllocId := Nat

/-- One collective call: who takes part, whether it is the blocking variant, which members only
pass `ignore_id`, and what orders it among the pending allocations of a process. -/
structure Alloc where
  members : List Proc
  blocking : Bool
  ignoreId : Proc → Bool
  contextId : Nat
  tag : Nat

/-- `eager_nelem` is `MPIR_CVAR_CTXID_EAGER_SIZE`. -/
structure Config where
  eagerNelem : Nat
  alloc : AllocId → Alloc

def Config.ignores (cfg : Config) (p : Proc) (a : AllocId) : Bool :=
  (cfg.alloc a).blocking && (cfg.alloc a).ignoreId p

inductive Phase
  | idle
  | reserving
  | waiting
  | settling (id : Nat) (allOwn : Bool)
  | exhausted
  | failing
  | done
  | failed
deriving Repr, DecidableEq

/-- `struct gcn_state` of one process for one allocation, with the point its call has reached, the
number of reductions behind it, the id it was given and the id it still holds. -/
structure Gcn where
  phase : Phase := .idle
  iter : Nat := 0
  firstIter : Bool := true
  ownMask : Bool := false
  ownEagerMask : Bool := false
  result : Option Nat := none
  holds : Option Nat := none
deriving Repr, DecidableEq

/-- `local_mask` with `local_mask[ALL_OWN_MASK_FLAG]`. -/
abbrev Contribution := ContextMask × Bool

structure Local where
  mask : ContextMask
  eagerInUse : Bool
  maskInUse : Bool
  nextGcn : List AllocId
  gcn : AllocId → Gcn
  sent : AllocId → Nat → Option Contribution

abbrev World := Proc → Local

def World.init (mask : Proc → ContextMask) : World := fun p =>
  { mask := mask p
    eagerInUse := false
    maskInUse := false
    nextGcn := []
    gcn _ := {}
    sent _ _ := none }

inductive Fault
  | allocated
  | notInUse
  | emptyList
  | notListed
deriving Repr, DecidableEq

def Local.set (l : Local) (a : AllocId) (st : Gcn) : Local :=
  { l with gcn := Function.update l.gcn a st }

/-- `add_gcn_to_list`, `contextid.c:346`: behind all that are not greater. -/
def addGcnToList (cfg : Config) (a : AllocId) : List AllocId → List AllocId
  | [] => [a]
  | b :: bs =>
    if (cfg.alloc b).contextId > (cfg.alloc a).contextId ∨
        (cfg.alloc b).contextId = (cfg.alloc a).contextId ∧ (cfg.alloc b).tag > (cfg.alloc a).tag
    then a :: b :: bs
    else b :: addGcnToList cfg a bs

/-- The removals from the list; they follow `next` until they find the element. -/
def unlist (a : AllocId) (l : List AllocId) : Except Fault (List AllocId) :=
  if a ∈ l then .ok (l.erase a) else .error .notListed

def unlistIf (c : Prop) [Decidable c] (a : AllocId) (l : List AllocId) : Except Fault (List AllocId) :=
  if c then unlist a l else .ok l

/-- The result of an `MPI_BAND` reduction, once every member has sent its part. -/
def allreduce (cfg : Config) (w : World) (a : AllocId) (k : Nat) : Option Contribution :=
  if ∀ q ∈ (cfg.alloc a).members, ((w q).sent a k).isSome = true then
    some (fun i => ((cfg.alloc a).members.map (fun q =>
        (((w q).sent a k).getD (fun _ => 0, false)).1 i)).foldr (· &&& ·) (BitVec.allOnes 32),
      (cfg.alloc a).members.all (fun q => (((w q).sent a k).getD (fun _ => 0, false)).2))
  else none

section Steps
variable (cfg : Config) (p : Proc) (a : AllocId)

def start (l : Local) : Local :=
  if (l.gcn a).phase = .idle ∧ p ∈ (cfg.alloc a).members then
    l.set a { l.gcn a with phase := .reserving }
  else l

/-- The first critical section of the loop (`contextid.c:416-491`) and `sched_cb_gcn_copy_mask`
(`:871`): what is sent into the reduction. -/
def reserve (l : Local) : Except Fault Local :=
  let st := l.gcn a
  let send (l : Local) (st : Gcn) (m : ContextMask) (flag : Bool) : Local :=
    { l.set a { st with phase := .waiting } with
      sent := Function.update l.sent a (Function.update (l.sent a) st.iter (some (m, flag))) }
  if st.phase ≠ .reserving then .ok l
  else if cfg.ignores p a then
    .ok (send l { st with ownMask := false } (fun _ => BitVec.allOnes 32) true)
  else if st.firstIter then
    if l.eagerInUse = false ∧ 0 < cfg.eagerNelem then
      .ok (send { l with eagerInUse := true } { st with ownEagerMask := true }
        (fun i => if i < cfg.eagerNelem then l.mask i else 0) st.ownMask)
    else .ok (send l { st with ownEagerMask := false } (fun _ => 0) st.ownMask)
  else do
    require ((cfg.alloc a).blocking = false ∨ l.nextGcn ≠ []) .emptyList
    if l.maskInUse = true ∨ l.nextGcn.head? ≠ some a then
      .ok (send l { st with ownMask := false } (fun _ => 0) false)
    else
      .ok (send { l with maskInUse := true } { st with ownMask := true }
        (fun i => if i < cfg.eagerNelem then 0 else l.mask i) true)

def Gcn.obtain (st : Gcn) (id : Nat) : Gcn :=
  if id = 0 then st else { st with result := some id, holds := some id }

/-- The second critical section (`contextid.c:519-580`) and the first part of
`sched_cb_gcn_allocate_cid` (`:752`); `reduced` is the result of the reduction. -/
def take (reduced : Option Contribution) (l : Local) : Except Fault Local :=
  let st := l.gcn a
  match st.phase, reduced with
  | .waiting, some (m, flag) =>
    if cfg.ignores p a then
      .ok (l.set a { st with phase := .settling (locateContextBit m) flag })
    else if st.ownEagerMask then
      match findAndAllocateContextId l.mask m with
      | none => .error .allocated
      | some (mask, id) =>
        .ok ({ l with mask := mask, eagerInUse := false }.set a
          ({ st with phase := .settling id flag, ownEagerMask := false }.obtain id))
    else if st.ownMask then
      match findAndAllocateContextId l.mask m with
      | none => .error .allocated
      | some (mask, id) => do
        let list ← unlistIf (0 < id) a l.nextGcn
        .ok ({ l with mask := mask, maskInUse := false, nextGcn := list }.set a
          ({ st with phase := .settling id flag }.obtain id))
    else .ok (l.set a { st with phase := .settling 0 flag })
  | _, _ => .ok l

def Gcn.pastFirst (st : Gcn) (blocking : Bool) (id : Nat) : Gcn :=
  if blocking = true ∨ id = 0 then { st with firstIter := false } else st

/-- The bookkeeping of the first iteration: `contextid.c:626-632`, `:806-827`. -/
def enlist (id : Nat) (l : Local) : Local :=
  let st := l.gcn a
  { l.set a (st.pastFirst (cfg.alloc a).blocking id) with
    nextGcn := if st.firstIter = true ∧ cfg.ignores p a = false ∧ id = 0 then
      addGcnToList cfg a l.nextGcn else l.nextGcn }

def settle (l : Local) : Local :=
  match (l.gcn a).phase with
  | .settling id allOwn =>
    if id = 0 ∧ allOwn = true then
      l.set a { l.gcn a with
        phase := if (cfg.alloc a).blocking then .exhausted else .failing }
    else
      let l' := enlist cfg p a id l
      let st := l'.gcn a
      if id = 0 then l'.set a { st with phase := .reserving, iter := st.iter + 1 }
      else l'.set a { st with phase := .done }
  | _ => l

/-- `contextid.c:594-602`; a reduction over the free ids follows. -/
def release (l : Local) : Local :=
  let st := l.gcn a
  if st.phase = .exhausted then
    { l.set a { st with phase := .failing } with
      maskInUse := if st.ownMask then false else l.maskInUse }
  else l

/-- `fn_fail`, `contextid.c:644-661` and `:844-857`. -/
def fnFail (l : Local) : Except Fault Local := do
  let st := l.gcn a
  let list ← unlistIf (st.firstIter = false ∧ cfg.ignores p a = false) a l.nextGcn
  .ok { l.set a { st with phase := .failed } with
    maskInUse := if (cfg.alloc a).blocking && st.ownMask then false else l.maskInUse
    nextGcn := list }

def fail (l : Local) : Except Fault Local :=
  if (l.gcn a).phase = .failing then fnFail cfg p a l else .ok l

def allreduceFail (l : Local) : Except Fault Local :=
  if (l.gcn a).phase = .waiting ∧ (cfg.alloc a).blocking = true then fnFail cfg p a l else .ok l

/-- `MPID_Sched_cb` fails in `sched_cb_gcn_allocate_cid`. -/
def schedFail (l : Local) : Except Fault Local :=
  match (l.gcn a).phase with
  | .settling id allOwn =>
    if (cfg.alloc a).blocking = true ∨ id = 0 ∧ allOwn = true then .ok l
    else fnFail cfg p a (enlist cfg p a id l)
  | _ => .ok l

/-- `MPIR_Free_contextid` of the id that the allocation gave. -/
def free (l : Local) : Except Fault Local :=
  let st := l.gcn a
  match st.phase, st.holds with
  | .done, some id =>
    match freeContextid l.mask id with
    | none => .error .notInUse
    | some mask => .ok ({ l with mask := mask }.set a { st with holds := none })
  | _, _ => .ok l

end Steps

inductive Act
  | start
  | reserve
  | take
  | settle
  | release
  | fail
  | allreduceFail
  | schedFail
  | free
deriving Repr, DecidableEq

structure Op where
  proc : Proc
  alloc : AllocId
  act : Act
deriving Repr, DecidableEq

def localStep (cfg : Config) (p : Proc) (a : AllocId) (reduced : Option Contribution) (l : Local) :
    Act → Except Fault Local
  | .start => .ok (start cfg p a l)
  | .reserve => reserve cfg p a l
  | .take => take cfg p a reduced l
  | .settle => .ok (settle cfg p a l)
  | .release => .ok (release a l)
  | .fail => fail cfg p a l
  | .allreduceFail => allreduceFail cfg p a l
  | .schedFail => schedFail cfg p a l
  | .free => free a l

def step (cfg : Config) (w : World) (o : Op) : Except Fault World := do
  let l ← localStep cfg o.proc o.alloc
    (allreduce cfg w o.alloc ((w o.proc).gcn o.alloc).iter) (w o.proc) o.act
  .ok (Function.update w o.proc l)

end FgMpi.ContextId.Allocation
