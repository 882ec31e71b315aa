import FgMpi.Machine.Checked
import FgMpi.Machine.Runs

/-! `fgutil/src/threadlib.c` with the block-queue scheduler (`fgutil/src/sched_global_rr.c:143`). -/

namespace FgMpi.Threads.Scheduler
open Machine.Checked

/-- A `fgmpi_thread_t *`. -/
abbrev Tid := Nat

inductive ThreadState
  | runnable
  | suspended
  | zombie
  | ghost
deriving Repr, DecidableEq

/-- `fgmpi_thread_t`; `joining` is the thread that it waits for in `thread_join`, `sleep` the time at which
it is to be woken, with `none` for -1. -/
structure Thread where
  state : ThreadState := .runnable
  joinable : Bool := true
  daemon : Bool := false
  joinThread : Option Tid := none
  joining : Option Tid := none
  sleep : Option Nat := none
deriving Repr, DecidableEq

/-- The globals; `current` is `none` while the scheduler runs, and `ended` when `main_thread` leaves
`exit_func`. -/
structure State where
  current : Option Tid
  threadlist : List Tid
  thread : Tid → Thread
  runlist : List Tid
  blocklist : List (Int × Tid)
  sleepq : List Tid
  numDaemonThreads : Int
  numSuspendedThreads : Int
  numRunnableThreads : Int
  numZombieThreads : Int
  maxTid : Tid
  progressThreadRunning : Bool
  ended : Bool

def mainThread : Tid := 0

/-- `thread_init`, `threadlib.c:556`, before its `thread_yield_internal`. -/
def State.init : State where
  current := some mainThread
  threadlist := [mainThread]
  thread := Function.update (fun _ => {}) mainThread { joinable := false }
  runlist := []
  blocklist := []
  sleepq := []
  numDaemonThreads := 0
  numSuspendedThreads := 0
  numRunnableThreads := 1
  numZombieThreads := 0
  maxTid := 1
  progressThreadRunning := false
  ended := false

/-- The assertions, and the read of a name that is `NULL`. -/
inductive Fault
  | sanity
  | notSuspended
  | resumedSleeping
  | pickedSleeping
  | notZombie
  | ghost
  | addQueued
  | removeNotFound
  | progressRunning
  | nullName
deriving Repr, DecidableEq

def State.set (s : State) (t : Tid) (th : Thread) : State := { s with thread := Function.update s.thread t th }

/-- `sanity_check_threadcounts`, `threadlib.c:92`. -/
def Sane (s : State) : Prop :=
  0 ≤ s.numDaemonThreads ∧ 0 ≤ s.numSuspendedThreads ∧ 0 ≤ s.numRunnableThreads ∧ 0 ≤ s.numZombieThreads ∧
    s.numRunnableThreads + s.numSuspendedThreads + s.numZombieThreads = s.threadlist.length

instance (s : State) : Decidable (Sane s) := inferInstanceAs (Decidable (_ ∧ _ ∧ _ ∧ _ ∧ _))

def sanityCheckThreadcounts (s : State) : Except Fault Unit := require (Sane s) .sanity

def progressThreadRank : Int := -200

def schedAddThread (t : Tid) (s : State) : State := { s with runlist := s.runlist ++ [t] }

/-- `SchedulerHashInsert`: `hshinsert` leaves an item that is there. -/
def schedBlockThread (worldrank : Int) (t : Tid) (s : State) : State :=
  { s with blocklist :=
      if worldrank ∈ s.blocklist.map Prod.fst then s.blocklist else s.blocklist ++ [(worldrank, t)] }

def schedUnblockThread (worldrank : Int) (s : State) : State :=
  match s.blocklist.find? (·.1 = worldrank) with
  | none => s
  | some stored => schedAddThread stored.2 { s with blocklist := s.blocklist.erase stored }

def schedStartProgressThread (s : State) : State :=
  if s.progressThreadRunning then s
  else { schedUnblockThread progressThreadRank s with progressThreadRunning := true }

/-- `_thread_resume`, `threadlib.c:775`. -/
def resumeInternal (t : Tid) (s : State) : Except Fault State :=
  if (s.thread t).state ≠ .suspended then .ok s
  else do
    let s : State := { s with
      numSuspendedThreads := s.numSuspendedThreads - 1
      numRunnableThreads := s.numRunnableThreads + 1 }
    sanityCheckThreadcounts s
    require ((s.thread t).state = .suspended) .notSuspended
    let s := s.set t { s.thread t with state := .runnable }
    require ((s.thread t).sleep = none) .resumedSleeping
    .ok (schedAddThread t s)

def sleepqRemoveThread (t : Tid) (s : State) : Except Fault State := do
  require (t ∈ s.sleepq) .removeNotFound
  .ok { s.set t { s.thread t with sleep := none } with sleepq := s.sleepq.erase t }

/-- `thread_resume`, `threadlib.c:788`. -/
def threadResume (t : Tid) (s : State) : Except Fault State := do
  let s ← if (s.thread t).sleep ≠ none then sleepqRemoveThread t s else .ok s
  resumeInternal t s

/-- One round of the loop of `fgmpi_sleepq_check`, `threadlib.c:989`. -/
def wake (s : State) (t : Tid) : Except Fault State := do
  let s ← resumeInternal t (s.set t { s.thread t with sleep := none })
  .ok { s with sleepq := s.sleepq.erase t }

def Due (s : State) (now : Nat) (t : Tid) : Prop := ∃ deadline ∈ (s.thread t).sleep, deadline ≤ now

instance (s : State) (now : Nat) (t : Tid) : Decidable (Due s now t) :=
  inferInstanceAs (Decidable (∃ _ ∈ _, _))

/-- `fgmpi_sleepq_check`: whoever is due is woken, in the order of the queue. -/
def sleepqCheck (now : Nat) (s : State) : Except Fault State :=
  (s.sleepq.filter (Due s now ·)).foldlM wake s

/-- `fgmpi_sleepq_add_thread`: the queue is in the order of the times. -/
def sleepqAddThread (t : Tid) (timeout now : Nat) (s : State) : Except Fault State := do
  let s ← sleepqCheck now s
  require ((s.thread t).sleep = none) .addQueued
  .ok { s.set t { s.thread t with sleep := some (now + timeout) } with
    sleepq := s.sleepq.takeWhile (Due s (now + timeout) ·) ++ t :: s.sleepq.dropWhile (Due s (now + timeout) ·) }

section Calls
variable (c : Tid)

def leave (s : State) : State := { s with current := none }

/-- `new_thread`, `threadlib.c:252`, for `thread_spawn`; `none` is the name `NULL`, which `strcmp` reads. -/
def threadSpawn (name : Option String) (s : State) : Except Fault State :=
  match name with
  | none => .error .nullName
  | some name => do
    let t := s.maxTid
    let s : State := { s.set t {} with
      maxTid := t + 1
      threadlist := s.threadlist ++ [t]
      numRunnableThreads := s.numRunnableThreads + 1 }
    let s := if name = "FG_PROGRESS_THREAD" then s else schedAddThread t s
    sanityCheckThreadcounts s
    .ok s

def initProgressThread (s : State) : Except Fault State := do
  require (s.progressThreadRunning = false) .progressRunning
  let t := s.maxTid
  let s ← threadSpawn (some "FG_PROGRESS_THREAD") s
  .ok (schedBlockThread progressThreadRank t s)

def threadYield (s : State) : State := schedAddThread c (leave s)

/-- `thread_yield_on_event` with `BLOCK`; any other event is a `thread_yield`. -/
def threadYieldOnEvent (worldrank : Int) (s : State) : State :=
  schedBlockThread worldrank c (schedStartProgressThread (leave s))

/-- `thread_suspend_self`, `threadlib.c:764`. -/
def threadSuspendSelf (timeout now : Nat) (s : State) : Except Fault State := do
  let s : State := { leave s with
    numSuspendedThreads := s.numSuspendedThreads + 1
    numRunnableThreads := s.numRunnableThreads - 1 }
  sanityCheckThreadcounts s
  let s := s.set c { s.thread c with state := .suspended }
  if timeout = 0 then .ok s else sleepqAddThread c timeout now s

/-- `free_thread`, `threadlib.c:307`. -/
def freeThread (t : Tid) (s : State) : Except Fault State := do
  let s : State := { s with threadlist := s.threadlist.erase t }
  require ((s.thread t).state = .zombie) .notZombie
  .ok { s.set t { s.thread t with state := .ghost } with numZombieThreads := s.numZombieThreads - 1 }

/-- `thread_join`, `threadlib.c:734`, up to where it returns or suspends. -/
def threadJoin (t : Tid) (s : State) : Except Fault State :=
  if (s.thread t).joinable = false then .ok s
  else do
    require ((s.thread t).state ≠ .ghost) .ghost
    if (s.thread t).joinThread ≠ none then .ok s
    else
      let s := s.set t { s.thread t with joinThread := some c }
      if (s.thread t).state = .zombie then freeThread t s
      else threadSuspendSelf c 0 0 (s.set c { s.thread c with joining := some t })

/-- `thread_exit`, `threadlib.c:684`, and what the scheduler does then. -/
def threadExit (s : State) : Except Fault State := do
  sanityCheckThreadcounts s
  let th := s.thread c
  let s : State := { (leave s).set c { th with state := .zombie } with
    numRunnableThreads := s.numRunnableThreads - 1
    numDaemonThreads := if th.daemon then s.numDaemonThreads - 1 else s.numDaemonThreads
    numZombieThreads := s.numZombieThreads + 1 }
  let s ← if th.joinable then
      match th.joinThread with
      | none => .ok s
      | some joiner => threadResume joiner s
    else .ok s
  sanityCheckThreadcounts s
  if th.joinable = false ∧ c ≠ mainThread then freeThread c s else .ok s

end Calls

/-- The top of the loop of `do_scheduler`, `threadlib.c:156-160`. -/
def check (now : Nat) (s : State) : Except Fault State := do
  sanityCheckThreadcounts s
  let s ← sleepqCheck now s
  sanityCheckThreadcounts s
  .ok s

/-- The rest of the loop; a thread that was in `thread_join` goes on to free the other one. -/
def pick (s : State) : Except Fault State :=
  if s.numSuspendedThreads = 0 ∧ s.numRunnableThreads = s.numDaemonThreads then .ok { s with ended := true }
  else
    match s.runlist with
    | [] => .ok s
    | t :: rest => do
      let s : State := { s with current := some t, runlist := rest }
      require ((s.thread t).sleep = none) .pickedSleeping
      sanityCheckThreadcounts s
      match (s.thread t).joining with
      | none => .ok s
      | some dead => freeThread dead (s.set t { s.thread t with joining := none })

inductive Op
  | spawn (name : Option String)
  | initProgressThread
  | yield
  | yieldOnEvent (worldrank : Int)
  | notifyOnEvent (worldrank : Int)
  | suspendSelf (timeout now : Nat)
  | resume (t : Tid)
  | join (t : Tid)
  | exit
  | check (now : Nat)
  | pick
deriving Repr, DecidableEq

def step (s : State) (o : Op) : Except Fault State :=
  if s.ended then .ok s
  else
    match s.current, o with
    | some _, .spawn name => threadSpawn name s
    | some _, .initProgressThread => initProgressThread s
    | some c, .yield => .ok (threadYield c s)
    | some c, .yieldOnEvent worldrank => .ok (threadYieldOnEvent c worldrank s)
    | some _, .notifyOnEvent worldrank => .ok (schedUnblockThread worldrank s)
    | some c, .suspendSelf timeout now => threadSuspendSelf c timeout now s
    | some _, .resume t => threadResume t s
    | some c, .join t => threadJoin c t s
    | some c, .exit => threadExit c s
    | none, .check now => check now s
    | none, .pick => pick s
    | _, _ => .ok s

end FgMpi.Threads.Scheduler
