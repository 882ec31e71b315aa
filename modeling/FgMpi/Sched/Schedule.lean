import FgMpi.Machine.Runs
import FgMpi.Machine.Checked
import FgMpi.Tag

/-! `mpid/common/sched/mpid_sched.c`. -/

namespace FgMpi.Sched.Schedule
open Machine.Checked Tag

/-- `enum MPIDU_Sched_entry_type`, with what selects the call in `_start_entry`. -/
inductive Kind
  | send (isSync deferred : Bool)
  | recv
  | reduce
  | copy
  | nop
  | cb (two : Bool)
deriving Repr, DecidableEq

/-- `enum MPIDU_Sched_entry_status`. -/
inductive Status
  | notStarted
  | started
  | complete
  | failed
deriving Repr, DecidableEq

/-- `status >= MPIDU_SCHED_ENTRY_STATUS_COMPLETE`. -/
def Status.finished : Status → Bool
  | .complete | .failed => true
  | .notStarted | .started => false

/-- `sreq` or `rreq` of an entry: `NULL`, a posted request, or one that is complete and
whose status carries the given error. -/
inductive SubReq
  | null
  | posted
  | done (err : Errflag)
deriving Repr, DecidableEq

structure Entry where
  kind : Kind
  status : Status
  isBarrier : Bool
  sub : SubReq
deriving Repr, DecidableEq

/-- Where control is: outside (`building`, `idle`), in the loop of `_continue` at `i`
(`caller` is the position of the visiting loop that called it, none when it is
`MPID_Sched_start`), or in the loop of `_progress_state` at `i`.  `freed` is a schedule that
was dequeued and freed, `abandoned` one whose `MPID_Sched_start` failed. -/
inductive Pc
  | building
  | continuing (i : Nat) (caller : Option Nat)
  | idle
  | visiting (i : Nat)
  | freed
  | abandoned
deriving Repr, DecidableEq

/-- `struct MPIDU_Sched` with its request: `errflag` and `completions` are the request's error
flag and the number of `MPID_Request_complete` calls on it, `queued` is membership in
`all_schedules`. -/
structure State where
  entries : Nat → Entry
  numEntries : Nat
  idx : Nat
  errflag : Errflag
  queued : Bool
  completions : Nat
  pc : Pc

/-- `MPID_Sched_create`, `mpid_sched.c:328`. -/
def State.init : State where
  entries _ := ⟨.nop, .notStarted, false, .null⟩
  numEntries := 0
  idx := 0
  errflag := .none
  queued := false
  completions := 0
  pc := .building

def State.status (s : State) (i : Nat) : Status := (s.entries i).status

def State.isBarrier (s : State) (i : Nat) : Bool := (s.entries i).isBarrier

/-- The builder functions of `mpid_sched.c:496-848`. -/
inductive Build
  | send
  | ssend
  | sendDefer
  | recv
  | recvStatus
  | reduce
  | copy
  | cb
  | cb2
  | barrier
deriving Repr, DecidableEq

/-- `MPIDU_Sched_add_entry` and the initialisation all builders share. -/
def addEntry (kind : Kind) (s : State) : State :=
  { s with
    entries := Function.update s.entries s.numEntries ⟨kind, .notStarted, false, .null⟩
    numEntries := s.numEntries + 1 }

/-- `MPID_Sched_barrier`, `mpid_sched.c:769`. -/
def schedBarrier (s : State) : State :=
  if 0 < s.numEntries then
    { s with
      entries := Function.update s.entries (s.numEntries - 1)
        { s.entries (s.numEntries - 1) with isBarrier := true } }
  else s

def build : Build → State → State
  | .send => addEntry (.send false false)
  | .ssend => addEntry (.send true false)
  | .sendDefer => addEntry (.send false true)
  | .recv => addEntry .recv
  | .recvStatus => addEntry .recv
  | .reduce => addEntry .reduce
  | .copy => addEntry .copy
  | .cb => addEntry (.cb false)
  | .cb2 => addEntry (.cb true)
  | .barrier => schedBarrier

def buildAll (bs : List Build) (s : State) : State := bs.foldl (fun s b => build b s) s

/-- What the environment does when an entry is started: a posted sub-request, a failure of
the point-to-point call with the class of its error, success or failure of the local
operation, or a callback's builder calls and its return code. -/
inductive Outcome
  | posted
  | postFailed (err : Errflag)
  | localDone
  | localFailed
  | called (bs : List Build) (ret : Errflag)
  | nothing
deriving Repr, DecidableEq

inductive Fault
  | startAssert
  | sanityAssert
  | impossible
deriving Repr, DecidableEq

def settle (s : State) (i : Nat) (st : Status) (sub : SubReq) (flag : Errflag) : State :=
  { s with
    entries := Function.update s.entries i { s.entries i with status := st, sub := sub }
    errflag := flag }

/-- `if (MPIR_ERR_NONE == r->errflag) r->errflag = ...`. -/
def raise (old new : Errflag) : Errflag := if old = .none then new else old

/-- `MPIDU_Sched_start_entry`, `mpid_sched.c:136`: the new state, and whether an error code is
returned.  A callback's entry ends COMPLETE whatever it returned (the assignment after the
inner branches). -/
def startEntry (s : State) (i : Nat) (o : Outcome) : Except Fault (State × Bool) := do
  let e := s.entries i
  require (e.status = .notStarted) .startAssert
  match e.kind, o with
  | .send _ _, .posted | .recv, .posted =>
    .ok (settle s i .started .posted s.errflag, false)
  | .send _ _, .postFailed err | .recv, .postFailed err =>
    if err = .none then .error .impossible
    else .ok (settle s i .failed e.sub (raise s.errflag err), false)
  | .reduce, .localDone | .copy, .localDone =>
    .ok (settle s i .complete e.sub s.errflag, false)
  | .reduce, .localFailed | .copy, .localFailed =>
    .ok (settle s i .failed e.sub s.errflag, true)
  | .nop, .nothing => .ok (s, false)
  | .cb _, .called bs ret =>
    let s' := buildAll bs s
    .ok (settle s' i .complete (s'.entries i).sub (raise s'.errflag ret), false)
  | _, _ => .error .impossible

/-- `MPIDU_Sched_continue` returns: `MPID_Sched_start` enqueues the schedule or gives it up,
the visiting loop goes on or leaves with the error. -/
def leaveContinue (s : State) (caller : Option Nat) (failed : Bool) : State :=
  match caller, failed with
  | none, false => { s with queued := true, pc := .idle }
  | none, true => { s with pc := .abandoned }
  | some p, false => { s with pc := .visiting (p + 1) }
  | some _, true => { s with pc := .idle }

/-- The second half of one iteration of `MPIDU_Sched_continue`, `mpid_sched.c:299-311`. -/
def afterStart (s : State) (i : Nat) (caller : Option Nat) : State :=
  let s := if i = s.idx ∧ (s.status i).finished then { s with idx := s.idx + 1 } else s
  if s.isBarrier i ∧ (¬(s.status i).finished ∨ s.idx ≠ i + 1) then leaveContinue s caller false
  else { s with pc := .continuing (i + 1) caller }

/-- One iteration of the loop of `MPIDU_Sched_continue`, `mpid_sched.c:281`. -/
def continueStep (s : State) (i : Nat) (caller : Option Nat) (o : Outcome) : Except Fault State :=
  if i < s.numEntries then
    if s.status i = .notStarted then do
      let r ← startEntry s i o
      if r.2 then .ok (leaveContinue r.1 caller true) else .ok (afterStart r.1 i caller)
    else .ok (afterStart s i caller)
  else .ok (leaveContinue s caller false)

/-- `mpid_sched.c:868-902`: a sub-request that is complete finishes its entry. -/
def reap (s : State) (i : Nat) : State :=
  match (s.entries i).kind, (s.entries i).sub with
  | .send _ _, .done _ =>
    settle s i (if s.errflag ≠ .none then .failed else .complete) .null s.errflag
  | .recv, .done err =>
    settle s i (if raise s.errflag err ≠ .none then .failed else .complete) .null
      (raise s.errflag err)
  | _, _ => s

/-- `mpid_sched.c:919-950`: after the visiting loop. -/
def leaveVisit (s : State) : State :=
  if s.idx = s.numEntries then
    { s with queued := false, completions := s.completions + 1, pc := .freed }
  else { s with pc := .idle }

/-- One iteration of the visiting loop of `MPIDU_Sched_progress_state`, `mpid_sched.c:865`. -/
def visitStep (s : State) (i : Nat) : State :=
  if i < s.numEntries then
    let s := reap s i
    if i = s.idx ∧ (s.status i).finished then
      let s := { s with idx := s.idx + 1 }
      if s.isBarrier i then { s with pc := .continuing s.idx (some i) }
      else { s with pc := .visiting (i + 1) }
    else if s.isBarrier i ∧ ¬(s.status i).finished then leaveVisit s
    else { s with pc := .visiting (i + 1) }
  else leaveVisit s

/-- `build` before the start, `start`, one iteration of whichever loop runs, a call of
`MPIDU_Sched_progress`, and the completion of a posted sub-request. -/
inductive Op
  | build (b : Build)
  | start
  | proceed (o : Outcome)
  | progress
  | finishes (j : Nat) (err : Errflag)
deriving Repr, DecidableEq

def step (s : State) : Op → Except Fault State
  | .build b => if s.pc = .building then .ok (build b s) else .error .impossible
  | .start =>
    if s.pc = .building then do
      require (s.numEntries = 0 ∨ s.idx < s.numEntries) .sanityAssert
      .ok { s with pc := .continuing s.idx none }
    else .error .impossible
  | .proceed o =>
    match s.pc with
    | .continuing i caller => continueStep s i caller o
    | .visiting i => .ok (visitStep s i)
    | _ => .error .impossible
  | .progress =>
    if s.pc = .idle then .ok { s with pc := .visiting s.idx } else .error .impossible
  | .finishes j err =>
    if j < s.numEntries ∧ (s.entries j).sub = .posted then
      .ok (settle s j (s.status j) (.done err) s.errflag)
    else .error .impossible

end FgMpi.Sched.Schedule
