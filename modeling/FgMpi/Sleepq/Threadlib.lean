import FgMpi.Machine.Runs
import FgMpi.Machine.Checked

/-! The sleep queue (`fgutil/src/threadlib.c:915-1115`). -/

namespace FgMpi.Sleepq.Threadlib
open Machine.Checked

/-- A `fgmpi_thread_t *`. -/
abbrev Tid := Nat

/-- The two fields of `fgmpi_thread_t` the sleep queue reads and writes. -/
structure Thread where
  sleep : Int
  timeout : Bool
deriving Repr, DecidableEq

/-- The assertions of the three functions, in source order, and signed overflow. -/
inductive Fault
  | sanity
  | addQueued
  | appendNegative
  | queuedNegative
  | totalNegative
  | insertNotPositive
  | nextNotPositive
  | addNotFound
  | removeNotQueued
  | staleTimeout
  | removeNotFound
  | signedOverflow
deriving Repr, DecidableEq

/-- The globals of `threadlib.c:117-120` and the threads. -/
structure State where
  sleepq : List Tid
  lastCheckTime : Nat
  maxSleepTime : Nat
  firstWakeUsecs : Nat
  thread : Tid → Thread

/-- After `thread_init` (`threadlib.c:631-635`); a new thread has `sleep = -1`. -/
def State.init : State where
  sleepq := []
  lastCheckTime := 0
  maxSleepTime := 0
  firstWakeUsecs := 0
  thread _ := ⟨-1, false⟩

def State.sleep (s : State) (t : Tid) : Int := (s.thread t).sleep

def setSleep (th : Tid → Thread) (t : Tid) (x : Int) : Tid → Thread :=
  Function.update th t { th t with sleep := x }

/-- `fgmpi_sleepq_sanity_check`, `threadlib.c:920`. -/
def Sane (s : State) : Prop :=
  (0 < s.maxSleepTime ∧ 0 < s.sleepq.length) ∨ (s.maxSleepTime = 0 ∧ s.sleepq.length = 0)

instance (s : State) : Decidable (Sane s) := inferInstanceAs (Decidable (_ ∨ _))

/-- Threads, queue and `first_wake_usecs` while the wake-up loop runs. -/
structure Wake where
  sleepq : List Tid
  thread : Tid → Thread
  firstWakeUsecs : Nat

/-- The loop of `threadlib.c:989-1006`.  It stops as soon as the interval is used
up, so a thread with delta 0 behind the last one woken stays queued.  Both
operands of `interval -= t->sleep` lie in `[0, 2^63)`: no overflow is possible. -/
def wakeLoop (now : Nat) : Int → List Tid → (Tid → Thread) → Nat → Wake
  | _, [], th, fw => ⟨[], th, fw⟩
  | interval, t :: rest, th, fw =>
    if 0 < interval then
      if (th t).sleep > interval then
        ⟨t :: rest, setSleep th t ((th t).sleep - interval), toUnsigned (now + ((th t).sleep - interval))⟩
      else
        wakeLoop now (interval - (th t).sleep) rest
          (Function.update th t { sleep := -1, timeout := true }) fw
    else ⟨t :: rest, th, fw⟩

/-- `interval` of `threadlib.c:976-979`. -/
def elapsed (s : State) (now : Nat) : Int :=
  if s.lastCheckTime < now then toLongLong (now - s.lastCheckTime) else 0

/-- `threadlib.c:980-1011`: everything between the two sanity checks. -/
def wakeUp (s : State) (now : Nat) : State :=
  let interval := elapsed s now
  let w := wakeLoop now interval s.sleepq s.thread s.firstWakeUsecs
  { sleepq := w.sleepq
    lastCheckTime := now
    maxSleepTime :=
      if s.maxSleepTime < toUnsigned interval then 0
      else s.maxSleepTime - toUnsigned interval
    firstWakeUsecs := if w.sleepq.length = 0 then 0 else w.firstWakeUsecs
    thread := w.thread }

/-- `fgmpi_sleepq_check`, `threadlib.c:962`; `now` is what `current_usecs` reads. -/
def sleepqCheck (sync : Bool) (now : Nat) (s : State) : Except Fault State :=
  if sync = false ∧ s.maxSleepTime = 0 then .ok { s with firstWakeUsecs := 0 }
  else do
    require (Sane s) .sanity
    require (Sane (wakeUp s now)) .sanity
    .ok (wakeUp s now)

/-- Where the backward search of `sleepqAddThread` stopped: `total` is the sum of
the deltas of `before`, and the new thread goes between `before` and `tt`. -/
structure Slot where
  total : Int
  before : List Tid
  tt : Tid
  after : List Tid
deriving Repr, DecidableEq

/-- The loop of `threadlib.c:1046-1070`, from the tail (the list is reversed) to the
head; `none` is the exit with `e == NULL`. -/
def findSlot (th : Tid → Thread) (timeout : Nat) : Int → List Tid → List Tid → Except Fault (Option Slot)
  | _, [], _ => .ok none
  | total, tt :: rev, after => do
    require (0 ≤ (th tt).sleep) .queuedNegative
    let total ← longLong .signedOverflow (total - (th tt).sleep)
    require (0 ≤ total) .totalNegative
    if toUnsigned total ≤ timeout then .ok (some ⟨total, rev.reverse, tt, after⟩)
    else findSlot th timeout total rev (tt :: after)

/-- `threadlib.c:1028-1041`: the new thread sleeps longest.  `pl_view_head` is never NULL (it is
-1 for an empty list), so `first_wake_usecs` is not set here. -/
def appendThread (t : Tid) (timeout : Nat) (s : State) : Except Fault State := do
  let s' : State :=
    { s with
      sleepq := s.sleepq ++ [t]
      thread := setSleep s.thread t (toLongLong (timeout - s.maxSleepTime))
      maxSleepTime := timeout }
  require (0 ≤ s'.sleep t) .appendNegative
  require (Sane s') .sanity
  .ok s'

/-- `threadlib.c:1053-1067`: the new thread goes right before `tt`, and `tt` sleeps that
much less after it. -/
def placeThread (t : Tid) (timeout now : Nat) (s : State) (slot : Slot) :
    Except Fault State := do
  let th := setSleep s.thread t (toLongLong (timeout - toUnsigned slot.total))
  require (0 < (th t).sleep) .insertNotPositive
  let next ← longLong .signedOverflow ((th slot.tt).sleep - (th t).sleep)
  require (0 < next) .nextNotPositive
  .ok { s with
    firstWakeUsecs :=
      if slot.total = 0 then toUnsigned (now + timeout) else s.firstWakeUsecs
    sleepq := slot.before ++ t :: slot.tt :: slot.after
    thread := setSleep th slot.tt next }

/-- `threadlib.c:1044-1075`: the new thread does not sleep longest. -/
def insertThread (t : Tid) (timeout now : Nat) (s : State) : Except Fault State := do
  match ← findSlot s.thread timeout (toLongLong s.maxSleepTime) s.sleepq.reverse [] with
  | none => .error .addNotFound
  | some slot =>
    let s' ← placeThread t timeout now s slot
    require (Sane s') .sanity
    .ok s'

/-- `fgmpi_sleepq_add_thread`, `threadlib.c:1019`.  `now` is the reading taken inside
`fgmpi_sleepq_check(1)`, `now'` the one taken for `first_wake_usecs`. -/
def sleepqAddThread (t : Tid) (timeout now now' : Nat) (s : State) : Except Fault State := do
  let s ← sleepqCheck true now s
  require (s.sleep t = -1) .addQueued
  require (Sane s) .sanity
  if s.maxSleepTime ≤ timeout then appendThread t timeout s
  else insertThread t timeout now' s

/-- `threadlib.c:1092-1101`: unlinking the last thread shortens `max_sleep_time`, any
other lengthens the next thread's delta. -/
def passOnSleep (t : Tid) (s : State) : List Tid → Except Fault State
  | nextt :: _ => do
    let x ← longLong .signedOverflow (s.sleep nextt + s.sleep t)
    .ok { s with thread := setSleep s.thread nextt x }
  | [] => .ok { s with maxSleepTime := toUnsigned (s.maxSleepTime - s.sleep t) }

/-- `threadlib.c:1091-1106`, with `t` between `before` and `rest`. -/
def unlinkThread (t : Tid) (s : State) (before rest : List Tid) : Except Fault State := do
  let s' ← passOnSleep t s rest
  require ((s'.thread t).timeout = false) .staleTimeout
  .ok { s' with sleepq := before ++ rest, thread := setSleep s'.thread t (-1) }

/-- The loop of `threadlib.c:1088-1109`: `before` has been walked over. -/
def removeLoop (t : Tid) (s : State) : List Tid → List Tid → Except Fault State
  | _, [] => .error .removeNotFound
  | before, tt :: rest =>
    if tt = t then unlinkThread t s before rest
    else removeLoop t s (before ++ [tt]) rest

/-- `fgmpi_sleepq_remove_thread`, `threadlib.c:1079`. -/
def sleepqRemoveThread (t : Tid) (s : State) : Except Fault State := do
  require (0 ≤ s.sleep t) .removeNotQueued
  require (Sane s) .sanity
  let s' ← removeLoop t s [] s.sleepq
  require (Sane s') .sanity
  .ok s'

/-- The scheduler's calls.  `add` is `thread_suspend_self` with a timeout, `remove` is
`thread_resume`, `check` is the scheduler's poll, and `runs` is a timed out thread that
runs again and clears its `timeout` flag (`threadlib.c:490-493`). -/
inductive Op
  | add (t : Tid) (timeout now now' : Nat)
  | remove (t : Tid)
  | check (sync : Bool) (now : Nat)
  | runs (t : Tid)
deriving Repr, DecidableEq

/-- The queue with two histories beside it: the last clock reading, and the absolute
deadline each thread asked for when it was last added. -/
structure World where
  state : State
  clock : Nat
  deadline : Tid → Nat

def World.init : World := ⟨State.init, 0, fun _ => 0⟩

def step (w : World) : Op → Except Fault World
  | .add t timeout now now' => do
    let s ← sleepqAddThread t timeout now now' w.state
    .ok ⟨s, now', Function.update w.deadline t (now + timeout)⟩
  | .remove t => do
    let s ← sleepqRemoveThread t w.state
    .ok { w with state := s }
  | .check sync now => do
    let s ← sleepqCheck sync now w.state
    .ok { w with state := s, clock := now }
  | .runs t =>
    .ok { w with state := { w.state with
      thread := Function.update w.state.thread t
        { w.state.thread t with timeout := false } } }

/-- What the callers promise.  `current_usecs` is a `long long`, so a reading is below
`2^63`; the thread that is added is the running one, so it is not queued and has
cleared its flag; `thread_resume` removes a thread only when `sleep != -1`. -/
def Legal (w : World) : Op → Prop
  | .add t timeout now now' =>
    w.state.thread t = ⟨-1, false⟩ ∧ 0 < timeout ∧ timeout < 2 ^ 64 ∧
      w.clock ≤ now ∧ now ≤ now' ∧ now' < 2 ^ 63
  | .remove t => w.state.sleep t ≠ -1
  | .check _ now => w.clock ≤ now ∧ now < 2 ^ 63
  | .runs t => w.state.sleep t = -1

instance (w : World) : (o : Op) → Decidable (Legal w o)
  | .add _ _ _ _ => inferInstanceAs (Decidable (_ ∧ _))
  | .remove _ => inferInstanceAs (Decidable (_ ≠ _))
  | .check _ _ => inferInstanceAs (Decidable (_ ∧ _))
  | .runs _ => inferInstanceAs (Decidable (_ = _))

end FgMpi.Sleepq.Threadlib
