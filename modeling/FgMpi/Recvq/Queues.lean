import FgMpi.Recvq.Match
import FgMpi.Machine.Checked
import FgMpi.Machine.LinkedQueue

/-! `mpid/ch3/src/ch3u_recvq.c`, in both builds. -/

namespace FgMpi.Recvq.Queues
open Machine.LinkedQueue
open Tag Recvq.Match

abbrev ReqId := Nat

/-- The fields of `MPID_Request` the receive queues read; `next` is kept beside them. -/
structure Request where
  info : MessageMatch
  mask : MessageMatch
  senderReqId : Nat
  comm : Nat
deriving Repr, DecidableEq

inductive Kind
  | posted
  | unexpected
deriving Repr, DecidableEq

/-- `FG_recvq_posted_head[i]` and so on; the plain build has queue 0 only. -/
abbrev QId := Kind × Nat

/-- The FG build has a pair of queues for each of the `nfg` processes of the OS process,
which have the ranks from `startrank` on. -/
inductive Build
  | plain
  | fineGrain (startrank nfg : Nat)
deriving Repr, DecidableEq

def Build.fg : Build → Bool
  | .plain => false
  | .fineGrain _ _ => true

def Build.numQueues : Build → Nat
  | .plain => 1
  | .fineGrain _ nfg => nfg

structure State where
  req : ReqId → Request
  next : ReqId → Option ReqId
  queue : QId → Queue ReqId
  postedLength : BitVec 32
  unexpectedLength : BitVec 32
  clock : Nat

def State.init : State where
  req _ := ⟨⟨0, 0, 0, 0⟩, ⟨0, 0, 0, 0⟩, 0, 0⟩
  next _ := none
  queue _ := Queue.empty
  postedLength := 0
  unexpectedLength := 0
  clock := 0

def State.list (s : State) (q : QId) : List ReqId := walk s.next (s.clock + 1) (s.queue q).head

inductive Fault
  | queueIndex
deriving Repr, DecidableEq

/-- What an operation returns: nothing, a request it found and dequeued, one it allocated and
enqueued, one it allocated and completed with an error, or one it threw away. -/
inductive Ret
  | nothing
  | found (r : ReqId)
  | enqueued (r : ReqId)
  | failed (r : ReqId)
  | discarded
deriving Repr, DecidableEq

/-- `GET_MATCH_QUEUE_INDEX`, `ch3u_recvq.c:47`. -/
def queueIndex (b : Build) (rank : BitVec 32) : Except Fault Nat :=
  match b with
  | .plain => .ok 0
  | .fineGrain startrank nfg =>
    let i := rank.toInt - startrank
    if 0 ≤ i ∧ i < nfg then .ok i.toNat else .error .queueIndex

/-- The unlinking that every function but `dequeue_and_set_error` has, and the counter it
decrements. -/
def dequeue (s : State) (q : QId) (prev : Option ReqId) (x : ReqId) : State :=
  let r := unlink s.next (s.queue q) prev x
  { s with
    next := r.1
    queue := Function.update s.queue q r.2
    postedLength := if q.1 = .posted then s.postedLength - 1 else s.postedLength
    unexpectedLength := if q.1 = .unexpected then s.unexpectedLength - 1 else s.unexpectedLength }

def enqueue (s : State) (q : QId) (req : Request) : State :=
  let r := append s.next (s.queue q) s.clock
  { s with
    req := Function.update s.req s.clock req
    next := r.1
    queue := Function.update s.queue q r.2
    postedLength := if q.1 = .posted then s.postedLength + 1 else s.postedLength
    unexpectedLength := if q.1 = .unexpected then s.unexpectedLength + 1 else s.unexpectedLength }

def searchUnexpected (b : Build) (s : State) (i : Nat) (source : BitVec 32) (tag : TagVal)
    (contextId : BitVec 16) (me : BitVec 32) : Option (Option ReqId × ReqId) :=
  search s.next (fun r => matchWithLeftMask b.fg (s.req r).info
    (searchMatch source tag contextId me) (searchMask source tag))
    (s.clock + 1) none (s.queue (.unexpected, i)).head

/-- `MPIDI_CH3U_Recvq_FU`, `ch3u_recvq.c:267`. -/
def recvqFU (b : Build) (source : BitVec 32) (tag : TagVal) (contextId : BitVec 16)
    (me : BitVec 32) (s : State) : Except Fault (State × Ret) := do
  let i ← queueIndex b me
  match searchUnexpected b s i source tag contextId me with
  | some r => .ok (s, .found r.2)
  | none => .ok (s, .nothing)

/-- `MPIDI_CH3U_Recvq_FDU`, `ch3u_recvq.c:358`: the last match is dequeued. -/
def recvqFDU (b : Build) (sreqId : Nat) (info : MessageMatch) (s : State) :
    Except Fault (State × Ret) := do
  let mask : MessageMatch :=
    ⟨maskErrorBits (BitVec.allOnes 32), BitVec.allOnes 32, BitVec.allOnes 16, BitVec.allOnes 32⟩
  let i ← queueIndex b info.destRank
  let found := searchLast s.next (fun r => (s.req r).senderReqId == sreqId &&
    matchWithLeftMask b.fg (s.req r).info info mask)
    (s.clock + 1) none (s.queue (.unexpected, i)).head none
  match found with
  | some r => .ok (dequeue s (.unexpected, i) r.1 r.2, .found r.2)
  | none => .ok (s, .nothing)

def setComm (s : State) (r : ReqId) (comm : Nat) : State :=
  { s with req := Function.update s.req r { s.req r with comm := comm } }

/-- `MPIDI_CH3U_Recvq_FDU_matchonly`, `ch3u_recvq.c:458`. -/
def recvqFDUMatchonly (b : Build) (source : BitVec 32) (tag : TagVal) (contextId : BitVec 16)
    (me : BitVec 32) (comm : Nat) (s : State) : Except Fault (State × Ret) := do
  let i ← queueIndex b me
  match searchUnexpected b s i source tag contextId me with
  | some r => .ok (setComm (dequeue s (.unexpected, i) r.1 r.2) r.2 comm, .found r.2)
  | none => .ok (s, .nothing)

/-- `MPIDI_CH3U_Recvq_FDU_or_AEP`, `ch3u_recvq.c:603`.  `moribund` is the state of the source's
virtual connection, looked at only for a definite source. -/
def recvqFDUOrAEP (b : Build) (source : BitVec 32) (tag : TagVal) (contextId : BitVec 16)
    (me : BitVec 32) (comm : Nat) (moribund : Bool) (s : State) :
    Except Fault (State × Ret) := do
  let i ← queueIndex b me
  match searchUnexpected b s i source tag contextId me with
  | some r => .ok (setComm (dequeue s (.unexpected, i) r.1 r.2) r.2 comm, .found r.2)
  | none =>
    let info : MessageMatch := ⟨tag, source, contextId, me⟩
    let req : Request := ⟨info, postedMask info, 0, comm⟩
    if source ≠ anySource ∧ moribund = true then
      .ok ({ s with req := Function.update s.req s.clock req }, .failed s.clock)
    else .ok (enqueue s (.posted, i) req, .enqueued s.clock)

/-- `MPIDI_CH3U_Recvq_DP`, `ch3u_recvq.c:825`; `hook` is what `MPIDI_POSTED_RECV_DEQUEUE_HOOK`
returns. -/
def recvqDP (b : Build) (rreq : ReqId) (hook : Bool) (s : State) :
    Except Fault (State × Ret) := do
  let i ← queueIndex b (s.req rreq).info.destRank
  match search s.next (fun r => r == rreq) (s.clock + 1) none (s.queue (.posted, i)).head with
  | some r => .ok (dequeue s (.posted, i) r.1 r.2, if hook then .nothing else .found r.2)
  | none => .ok (s, .nothing)

/-- The loop of `ch3u_recvq.c:966-1022`.  A request the channel has matched already is
dequeued too, and the search goes on behind it. -/
def fdpLoop (b : Build) (hook : ReqId → Bool) (i : Nat) (info : MessageMatch) :
    Nat → State → Option ReqId → Option ReqId → State × Option ReqId
  | 0, s, _, _ => (s, none)
  | _ + 1, s, _, none => (s, none)
  | n + 1, s, prev, some x =>
    if matchWithLeftRightMask b.fg (s.req x).info info (s.req x).mask then
      let s' := dequeue s (.posted, i) prev x
      if hook x then fdpLoop b hook i info n s' prev (s'.next x) else (s', some x)
    else fdpLoop b hook i info n s (some x) (s.next x)

/-- The error bits are taken off the tag for the search (`ch3u_recvq.c:939-943`) and put back
before the message is stored (`:1049-1051`). -/
def workingTag (tag : TagVal) : TagVal :=
  if checkErrorBit tag then maskErrorBits tag else tag

def restoredTag (tag : TagVal) : TagVal :=
  let t := if checkErrorBit tag then setErrorBit (workingTag tag) else workingTag tag
  if checkErrorBit tag && checkProcFailureBit tag then setProcFailureBit t else t

def agreeTag : TagVal := 30

def shrinkTag : TagVal := 29

/-- `MPIDI_CH3U_Recvq_FDP_or_AEU`, `ch3u_recvq.c:918`.  `revoked` says that the communicator of
the context id is found and revoked (plain build).  The packet handlers that call it set the
sender's request on what they get. -/
def recvqFDPOrAEU (b : Build) (info : MessageMatch) (hook : ReqId → Bool) (revoked : Bool)
    (sreqId : Nat) (s : State) : Except Fault (State × Ret) := do
  let working := { info with tag := workingTag info.tag }
  let i ← queueIndex b info.destRank
  match fdpLoop b hook i working (s.clock + 1) s none (s.queue (.posted, i)).head with
  | (s', some x) => .ok (s', .found x)
  | (s', none) =>
    if b.fg = false ∧ revoked = true ∧ maskErrorBits working.tag ≠ agreeTag ∧
        maskErrorBits working.tag ≠ shrinkTag then .ok (s', .discarded)
    else
      let stored := { info with tag := restoredTag info.tag }
      .ok (enqueue s' (.unexpected, i) ⟨stored, ⟨0, 0, 0, 0⟩, sreqId, 0⟩, .enqueued s'.clock)

/-- `dequeue_and_set_error`, `ch3u_recvq.c:1107`.  It compares with head and tail instead of
looking at `prev` and `next`, and it decrements the posted counter when it removes the head of
whatever queue it is given (in the plain build: when that head is the posted head); it never
touches the unexpected counter. -/
def dequeueAndSetError (b : Build) (s : State) (q : QId) (prev : Option ReqId) (x : ReqId) : State :=
  let atHead := (s.queue q).head = some x
  let counted := atHead ∧ (b.fg = true ∨ (s.queue q).head = (s.queue (.posted, 0)).head)
  { s with
    next := if atHead then s.next else
      match prev with
      | some y => Function.update s.next y (s.next x)
      | none => s.next
    queue := Function.update s.queue q
      ⟨if atHead then s.next x else (s.queue q).head,
        if (s.queue q).tail = some x then prev else (s.queue q).tail⟩
    postedLength := if counted then s.postedLength - 1 else s.postedLength }

/-- The loops of `MPIDI_CH3U_Clean_recvq` and `MPIDI_CH3U_Complete_posted_with_error` over one
queue. -/
def sweepLoop (b : Build) (q : QId) (p : Request → Bool) :
    Nat → State → Option ReqId → Option ReqId → State
  | 0, s, _, _ => s
  | _ + 1, s, _, none => s
  | n + 1, s, prev, some x =>
    if p (s.req x) then sweepLoop b q p n (dequeueAndSetError b s q prev x) prev (s.next x)
    else sweepLoop b q p n s (some x) (s.next x)

def sweep (b : Build) (p : Request → Bool) (s : State) (q : QId) : State :=
  sweepLoop b q p (s.clock + 1) s none (s.queue q).head

def sweepAll (b : Build) (kind : Kind) (p : Request → Bool) (s : State) : State :=
  (List.range b.numQueues).foldl (fun s i => sweep b p s (kind, i)) s

/-- What `MPIDI_CH3U_Clean_recvq` reads of the communicator. -/
structure CommInfo where
  recvcontextId : BitVec 16
  nodeAware : Bool
deriving Repr, DecidableEq

/-- `MPID_CONTEXT_INTRANODE_OFFSET`, `MPID_CONTEXT_INTERNODE_OFFSET`; the point-to-point and
collective offsets are 0 and 1 for both kinds of communicators. -/
def contextIntranodeOffset : BitVec 16 := 1 <<< 1

def contextInternodeOffset : BitVec 16 := 2 <<< 1

def contextPt2pt : BitVec 16 := 0

def contextColl : BitVec 16 := 1

def inAgreement (r : Request) : Bool :=
  maskErrorBits r.info.tag == agreeTag || maskErrorBits r.info.tag == shrinkTag

/-- The comparison with the mask of `ch3u_recvq.c:1173-1182` leaves the context id only. -/
def inContext (r : Request) (contextId : BitVec 16) : Bool := r.info.contextId == contextId

/-- The six checks of `ch3u_recvq.c:1187-1284` (unexpected) and `:1301-1397` (posted). -/
def cleans (c : CommInfo) (r : Request) : Bool :=
  inContext r (c.recvcontextId + contextPt2pt) ||
    (inContext r (c.recvcontextId + contextColl) && !inAgreement r) ||
    (c.nodeAware &&
      ((inContext r (c.recvcontextId + contextIntranodeOffset + contextPt2pt) && !inAgreement r) ||
        (inContext r (c.recvcontextId + contextIntranodeOffset + contextColl) && !inAgreement r) ||
        (inContext r (c.recvcontextId + contextInternodeOffset + contextPt2pt) && !inAgreement r) ||
        (inContext r (c.recvcontextId + contextInternodeOffset + contextColl) && !inAgreement r)))

/-- `MPIDI_CH3U_Clean_recvq`, `ch3u_recvq.c:1151`. -/
def cleanRecvq (b : Build) (c : CommInfo) (s : State) : State :=
  sweepAll b .posted (cleans c) (sweepAll b .unexpected (cleans c) s)

/-- The test of `ch3u_recvq.c:1462`; `usesVc` is `req_uses_vc` for the failed connection. -/
def usesFailed (usesVc : Nat → BitVec 32 → Bool) (r : Request) : Bool :=
  r.info.rank != anySource && usesVc r.comm r.info.rank

/-- `MPIDI_CH3U_Complete_posted_with_error`, `ch3u_recvq.c:1434`. -/
def completePostedWithError (b : Build) (usesVc : Nat → BitVec 32 → Bool) (s : State) : State :=
  sweepAll b .posted (usesFailed usesVc) s

/-- The calls.  An arriving message has the tag the sender was given and the error flag it was
stamped with. -/
inductive Op
  | post (source : BitVec 32) (tag : TagVal) (contextId : BitVec 16) (me : BitVec 32) (comm : Nat)
      (moribund : Bool)
  | arrive (sent : MessageMatch) (flag : Errflag) (sreqId : Nat) (hook : ReqId → Bool)
      (revoked : Bool)
  | probe (source : BitVec 32) (tag : TagVal) (contextId : BitVec 16) (me : BitVec 32)
  | matchedProbe (source : BitVec 32) (tag : TagVal) (contextId : BitVec 16) (me : BitVec 32)
      (comm : Nat)
  | cancelSend (sreqId : Nat) (info : MessageMatch)
  | cancelRecv (rreq : ReqId) (hook : Bool)
  | clean (c : CommInfo)
  | completePosted (usesVc : Nat → BitVec 32 → Bool)

def onWire (sent : MessageMatch) (flag : Errflag) : MessageMatch :=
  { sent with tag := stampTag sent.tag flag }

def call (b : Build) (s : State) : Op → Except Fault (State × Ret)
  | .post source tag contextId me comm moribund =>
    recvqFDUOrAEP b source tag contextId me comm moribund s
  | .arrive sent flag sreqId hook revoked =>
    recvqFDPOrAEU b (onWire sent flag) hook revoked sreqId s
  | .probe source tag contextId me => recvqFU b source tag contextId me s
  | .matchedProbe source tag contextId me comm => recvqFDUMatchonly b source tag contextId me comm s
  | .cancelSend sreqId info => recvqFDU b sreqId info s
  | .cancelRecv rreq hook => recvqDP b rreq hook s
  | .clean c => .ok (cleanRecvq b c s, .nothing)
  | .completePosted usesVc => .ok (completePostedWithError b usesVc s, .nothing)

/-- One operation, and the tick that names the next request. -/
def exec (b : Build) (s : State) (o : Op) : Except Fault (State × Ret) := do
  let r ← call b s o
  .ok ({ r.1 with clock := r.1.clock + 1 }, r.2)

structure World where
  state : State
  hist : List (Op × Ret)

def World.init : World := ⟨State.init, []⟩

def step (b : Build) (w : World) (o : Op) : Except Fault World := do
  let r ← exec b w.state o
  .ok ⟨r.1, w.hist ++ [(o, r.2)]⟩

end FgMpi.Recvq.Queues
