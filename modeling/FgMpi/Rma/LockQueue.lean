import FgMpi.Machine.Checked
import FgMpi.Machine.Runs

/-! The lock of a window at its target (`mpid/ch3/src/ch3u_handle_recv_req.c`). -/

namespace FgMpi.Rma.LockQueue
open Machine.Checked

/-- `MPI_LOCK_SHARED` and `MPI_LOCK_EXCLUSIVE`; `none` of `Option Lock` is `MPID_LOCK_NONE`. -/
inductive Lock
  | shared
  | exclusive
deriving Repr, DecidableEq

/-- A LOCK packet, or an operation (`op`) with a piggybacked lock.  `read`: the operation has a
response, and its final action waits until that is sent.  `inHeader`: no data follows the packet.
The last three say what happens to this packet: its data came with it, its response is sent off at
once, `MPIU_Malloc` has memory for its data. -/
structure Packet where
  lock : Lock
  op : Bool
  unlock : Bool
  read : Bool
  inHeader : Bool
  bufSize : Nat
  arrived : Bool
  sent : Bool
  memory : Bool
deriving Repr, DecidableEq

/-- `MPIDI_RMA_Target_lock_entry_t`.  `id` is the request that it was made for; `data` says that it
has a buffer. -/
structure Entry where
  id : Nat
  pkt : Packet
  allDataRecved : Bool
  data : Bool
deriving Repr, DecidableEq

structure Holder where
  id : Nat
  lock : Lock
deriving Repr, DecidableEq

structure Win where
  currentLockType : Option Lock := none
  sharedLockRefCnt : Int := 0
  queue : List Entry := []
  /- `target_lock_entry_pool_head`, the number of free entries -/
  pool : Nat
  currentTargetLockDataBytes : Int := 0
  holders : List Holder := []
deriving Repr, DecidableEq

/-- A receive whose data has not arrived: `dev.target_lock_queue_entry` and `dev.drop_data`. -/
structure Drain where
  win : Nat
  entry : Option Nat
  dropData : Bool
deriving Repr, DecidableEq

/-- `granted`, `performed` and `freed` are the queue entries to which this has happened. -/
structure Process where
  wins : Nat → Win
  drains : List Drain := []
  next : Nat := 0
  enteredFlag : Bool := false
  enteredCount : Nat := 0
  granted : List Nat := []
  performed : List Nat := []
  freed : List Nat := []

inductive Fault
  | useAfterFree
  | absent
deriving Repr, DecidableEq

def Process.setWin (s : Process) (i : Nat) (w : Win) : Process :=
  { s with wins := Function.update s.wins i w }

/-- `MPIDI_CH3I_Try_acquire_win_lock`: whether the request can be granted. -/
def grants (existing : Option Lock) (requested : Lock) : Bool :=
  match requested, existing with
  | .shared, none | .shared, some .shared | .exclusive, none => true
  | _, _ => false

def acquire (w : Win) (id : Nat) (requested : Lock) : Win :=
  { w with
    currentLockType := some requested
    sharedLockRefCnt :=
      if requested = .shared then w.sharedLockRefCnt + 1 else w.sharedLockRefCnt
    holders := w.holders ++ [⟨id, requested⟩] }

def tryAcquireWinLock (w : Win) (id : Nat) (requested : Lock) : Option Win :=
  if grants w.currentLockType requested then some (acquire w id requested) else none

/-- `MPIDI_CH3I_Release_lock` up to the walk over the queue; true if it goes on to the walk.  The
holder that is released is `id`. -/
def releaseHead (s : Process) (i id : Nat) : Process × Bool :=
  let w := s.wins i
  let cnt := if w.currentLockType = some .shared then w.sharedLockRefCnt - 1 else w.sharedLockRefCnt
  let s := s.setWin i
    { w with sharedLockRefCnt := cnt, holders := w.holders.filter (·.id ≠ id) }
  if cnt = 0 then
    if s.enteredFlag then ({ s with enteredCount := s.enteredCount + 1 }, false)
    else ({ s with enteredFlag := true }, true)
  else (s, false)

/-- The final action of an operation that is taken from the queue runs inside
`perform_op_in_lock_queue`. -/
def Packet.passing (p : Packet) : Bool := p.op && p.unlock && (!p.read || p.sent)

/-- `perform_op_in_lock_queue`; `release` is the call of `MPIDI_CH3I_Release_lock`. -/
def performOpInLockQueue (release : Process → Nat → Nat → Process) (s : Process) (i : Nat)
    (e : Entry) : Process :=
  let s := { s with performed := s.performed ++ [e.id] }
  if e.pkt.passing then release s i e.id else s

def lockEntryFree (s : Process) (i : Nat) (e : Entry) : Process :=
  let w := s.wins i
  { s.setWin i
      { w with
        pool := w.pool + 1
        currentTargetLockDataBytes :=
          if e.data then w.currentTargetLockDataBytes - e.pkt.bufSize
          else w.currentTargetLockDataBytes } with
    freed := s.freed ++ [e.id] }

def serve (release : Process → Nat → Nat → Process) (s : Process) (i : Nat) (e : Entry)
    (w : Win) : Process :=
  let s := { s.setWin i { w with queue := w.queue.filter (·.id ≠ e.id) } with
    granted := s.granted ++ [e.id] }
  lockEntryFree (performOpInLockQueue release s i e) i e

/-- One walk over the queue.  A call of `MPIDI_CH3I_Release_lock` from here finds `entered_flag`
set and returns before its own walk. -/
def walk (i : Nat) : Process → List Entry → Process
  | s, [] => s
  | s, e :: rest =>
    if e.allDataRecved then
      match tryAcquireWinLock (s.wins i) e.id e.pkt.lock with
      | some w =>
        let s := serve (fun s i id => (releaseHead s i id).1) s i e w
        if e.pkt.lock = .exclusive then s else walk i s rest
      | none => walk i s rest
    else walk i s rest

def clearLock (s : Process) (i : Nat) : Process :=
  s.setWin i { s.wins i with currentLockType := none }

/-- The `do` loop; `temp` is `temp_entered_count`. -/
def passes (i : Nat) : Nat → Nat → Process → Process
  | 0, _, s => s
  | fuel + 1, temp, s =>
    let temp := if temp ≠ s.enteredCount then temp + 1 else temp
    let s := clearLock s i
    let s := walk i s (s.wins i).queue
    if temp ≠ s.enteredCount then passes i fuel temp s else s

def releaseLock (s : Process) (i id : Nat) : Process :=
  match releaseHead s i id with
  | (s, false) => s
  | (s, true) =>
    let s := passes i ((s.wins i).queue.length + 1) s.enteredCount s
    { s with enteredCount := 0, enteredFlag := false }

def piggybackLockOpRecvComplete (s : Process) (i : Nat) (entry : Option Nat) : Except Fault Process :=
  match entry with
  | none => .ok s
  | some id =>
    match (s.wins i).queue.find? (·.id = id) with
    | none => .error .useAfterFree
    | some e =>
      let w := s.wins i
      let w := { w with
        queue := w.queue.map fun x => if x.id = id then { x with allDataRecved := true } else x }
      let s := s.setWin i w
      match tryAcquireWinLock w id e.pkt.lock with
      | some w => .ok (serve releaseLock s i { e with allDataRecved := true } w)
      | none => .ok s

def append (s : Process) (i : Nat) (e : Entry) (bytes : Int) : Process :=
  let w := s.wins i
  s.setWin i
    { w with
      queue := w.queue ++ [e]
      pool := w.pool - 1
      currentTargetLockDataBytes := w.currentTargetLockDataBytes + bytes }

def receiveData (s : Process) (i : Nat) (entry : Option Nat) (dropData arrived : Bool) :
    Except Fault Process :=
  if arrived then piggybackLockOpRecvComplete s i entry
  else .ok { s with drains := s.drains ++ [⟨i, entry, dropData⟩] }

/-- `enqueue_lock_origin`; `limit` is `MPIR_CVAR_CH3_RMA_TARGET_LOCK_DATA_BYTES`. -/
def enqueueLockOrigin (limit : Int) (s : Process) (i id : Nat) (p : Packet) : Except Fault Process :=
  let w := s.wins i
  if p.op = false ∨ p.inHeader then
    if w.pool = 0 then .ok s
    else .ok (append s i ⟨id, p, true, false⟩ 0)
  else if w.pool = 0 then receiveData s i none true p.arrived
  else if w.currentTargetLockDataBytes + p.bufSize < limit ∧ p.memory then
    receiveData (append s i ⟨id, p, false, true⟩ p.bufSize) i (some id) false p.arrived
  else
    -- the data is dropped, and the entry becomes a LOCK packet with the same flags
    receiveData (append s i ⟨id, { p with op := false }, true, false⟩ 0) i (some id) true p.arrived

/-- `MPIDI_CH3_PktHandler_Lock`, and the packet handlers of the operations with a piggybacked lock:
what a granted operation does at once. -/
def Packet.finishing (p : Packet) : Bool :=
  p.op && p.unlock && (p.inHeader || p.arrived) && (!p.read || p.sent)

def arrive (limit : Int) (s : Process) (i : Nat) (p : Packet) : Except Fault Process :=
  let id := s.next
  let s := { s with next := s.next + 1 }
  match tryAcquireWinLock (s.wins i) id p.lock with
  | some w =>
    let s := s.setWin i w
    .ok (if p.finishing then releaseLock s i id else s)
  | none => enqueueLockOrigin limit s i id p

/-- `acquire_local_lock`; without a free entry the request is discarded, and made again later. -/
def acquireLocalLock (s : Process) (i : Nat) (requested : Lock) : Process :=
  let id := s.next
  let s := { s with next := s.next + 1 }
  match tryAcquireWinLock (s.wins i) id requested with
  | some w => s.setWin i w
  | none =>
    if (s.wins i).pool = 0 then s
    else append s i ⟨id, ⟨requested, false, false, false, true, 0, true, true, true⟩, true, false⟩ 0

/-- `release` is an UNLOCK packet, the final action of an operation that has the UNLOCK flag and was
granted before, or a local release; it answers the grant of `id`. -/
inductive Event
  | arrive (i : Nat) (p : Packet)
  | acquireLocal (i : Nat) (requested : Lock)
  | release (i id : Nat)
  | recvComplete (k : Nat)
deriving Repr, DecidableEq

def step (limit : Int) (s : Process) : Event → Except Fault Process
  | .arrive i p => arrive limit s i p
  | .acquireLocal i requested => .ok (acquireLocalLock s i requested)
  | .release i id => do
    require (id ∈ (s.wins i).holders.map (·.id)) .absent
    .ok (releaseLock s i id)
  | .recvComplete k =>
    match s.drains[k]? with
    | none => .error .absent
    | some d => piggybackLockOpRecvComplete { s with drains := s.drains.eraseIdx k } d.win d.entry

/-- All windows are created with `pool` free entries. -/
def Process.init (pool : Nat) : Process where
  wins _ := { pool := pool }

end FgMpi.Rma.LockQueue
