import FgMpi.Machine.Checked
import FgMpi.Machine.Runs
import FgMpi.Machine.Slots

/-! The close protocol (`mpid/ch3/src/ch3u_handle_connection.c`, `mpidi_pg.c`). -/

namespace FgMpi.Connection.CloseProtocol
open Machine.Checked Machine.Runs Machine.Slots

/-- `MPIDI_VC_State`, `include/mpidimpl.h:742`. -/
inductive VcState
  | inactive
  | active
  | localClose
  | remoteClose
  | closeAcked
  | closed
  | inactiveClosed
  | moribund
deriving Repr, DecidableEq

inductive Fault
  | assertion
  | unhandledConnectionState
deriving Repr, DecidableEq

/-- `MPIDI_CH3U_Handle_connection` with a TERMINATED event: the new state, and what is added to
`MPIDI_Outstanding_close_ops`. -/
def handleConnection : VcState → Except Fault (VcState × Int)
  | .closed => .ok (.inactive, -1)
  | .inactive => .ok (.moribund, 0)
  | .active | .remoteClose => .ok (.moribund, 0)
  | .localClose | .closeAcked => .ok (.moribund, -1)
  | .inactiveClosed | .moribund => .error .unhandledConnectionState

/-- `MPIDI_CH3U_VC_SendClose`: the new state, the `ack` field of the packet and what is added to
`MPIDI_Outstanding_close_ops`. -/
def sendClose (state : VcState) : Except Fault (VcState × Bool × Int) := do
  require (state = .active ∨ state = .remoteClose) .assertion
  if state = .active then .ok (.localClose, false, 1)
  else do
    require (state = .remoteClose) .assertion
    .ok (.closeAcked, true, 1)

/-- `MPIDI_CH3_PktHandler_Close`: the new state, the packets that are sent in response, and whether
`MPIDI_CH3_Connection_terminate` is called. -/
def pktHandlerClose (state : VcState) (ack : Bool) : Except Fault (VcState × List Bool × Bool) :=
  let resp := if state = .localClose then [true] else []
  if ack = false then
    if state = .localClose then .ok (.closeAcked, resp, false)
    else do
      require (state = .active) .assertion
      .ok (.remoteClose, resp, false)
  else do
    require (state = .localClose ∨ state = .closeAcked) .assertion
    .ok (.closed, resp, true)

inductive Side
  | left
  | right
deriving Repr, DecidableEq

def Side.other : Side → Side
  | .left => .right
  | .right => .left

/-- `sent` and `received` are all close packets so far; no function reads them.  `terminating`: the
channel will report that the connection was closed. -/
structure End where
  state : VcState
  sent : List Bool := []
  received : List Bool := []
  terminating : Bool := false
  failed : Bool := false
deriving Repr, DecidableEq

/-- `flight s` are the packets on their way to `s`. -/
structure Vc where
  connected : Bool
  ends : Side → End
  flight : Side → List Bool

structure State where
  vcs : List Vc
  outstandingCloseOps : Side → Int

inductive Kind
  | closeVcs
  | deliver
  | terminated
  | failed
deriving Repr, DecidableEq

structure Event where
  vc : Nat
  side : Side
  kind : Kind
deriving Repr, DecidableEq

def Vc.put (vc : Vc) (s : Side) (e : End) (packets : List Bool) : Vc :=
  { vc with
    ends := Function.update vc.ends s { e with sent := e.sent ++ packets }
    flight := Function.update vc.flight s.other (vc.flight s.other ++ packets) }

/-- One connection in the loop of `MPIDI_PG_Close_VCs`. -/
def closeVcs (vc : Vc) (s : Side) : Except Fault (Vc × Int) :=
  let e := vc.ends s
  if e.state = .active ∨ e.state = .remoteClose then do
    let (state, ack, ops) ← sendClose e.state
    .ok (vc.put s { e with state := state } [ack], ops)
  -- a connection request that comes later is rejected
  else if e.state = .inactive then .ok (vc.put s { e with state := .inactiveClosed } [], 0)
  else .ok (vc, 0)

def vcStep (vc : Vc) (s : Side) : Kind → Except Fault (Vc × Int)
  | .closeVcs => closeVcs vc s
  | .deliver =>
    let e := vc.ends s
    match vc.flight s with
    | [] => .ok (vc, 0)
    | ack :: rest =>
      if e.failed then .ok (vc, 0)
      else do
        let (state, resp, terminate) ← pktHandlerClose e.state ack
        let e := { e with
          state := state
          received := e.received ++ [ack]
          terminating := e.terminating || terminate }
        .ok (({ vc with flight := Function.update vc.flight s rest }).put s e resp, 0)
  | .terminated =>
    let e := vc.ends s
    if e.terminating then do
      let (state, ops) ← handleConnection e.state
      .ok (vc.put s { e with state := state, terminating := false } [], ops)
    else .ok (vc, 0)
  | .failed =>
    let e := vc.ends s
    if e.failed then .ok (vc, 0)
    else do
      let (state, ops) ← handleConnection e.state
      .ok (vc.put s { e with state := state, failed := true } [], ops)

def step (st : State) (ev : Event) : Except Fault State :=
  match st.vcs[ev.vc]? with
  | none => .ok st
  | some vc => do
    let (vc, ops) ← vcStep vc ev.side ev.kind
    .ok
      { vcs := st.vcs.set ev.vc vc
        outstandingCloseOps := Function.update st.outstandingCloseOps ev.side
          (st.outstandingCloseOps ev.side + ops) }

/-- `MPIDI_CH3U_Handle_connection` has no case for INACTIVE_CLOSED. -/
def vcHandled (vc : Vc) (s : Side) : Kind → Bool
  | .terminated => (vc.ends s).terminating = true → (vc.ends s).state ≠ .inactiveClosed
  | .failed => (vc.ends s).failed = false → (vc.ends s).state ≠ .inactiveClosed
  | _ => true

def handled (st : State) (ev : Event) : Bool :=
  match st.vcs[ev.vc]? with
  | none => true
  | some vc => vcHandled vc ev.side ev.kind

def Vc.init (connected : Bool) : Vc where
  connected := connected
  ends _ := { state := if connected then .active else .inactive }
  flight _ := []

def State.init (connected : List Bool) : State where
  vcs := connected.map Vc.init
  outstandingCloseOps _ := 0

def Logs (sent received : List Bool) : Prop :=
  (sent, received) ∈ ([([], []), ([false], []), ([], [false]), ([true], [false]),
    ([false, true], [false]), ([false, true], [true]), ([true], [false, true]),
    ([false, true], [false, true])] : List (List Bool × List Bool))

def Done (e : End) : Prop :=
  (e.sent, e.received) ∈ ([([false, true], [true]), ([true], [false, true]),
    ([false, true], [false, true])] : List (List Bool × List Bool))

def Resting (connected : Bool) (e : End) : Prop :=
  connected = false ∧ e.sent = [] ∧ e.received = [] ∧ e.failed = false ∧ e.terminating = false ∨
    connected = true ∧ Done e ∧ (e.terminating = true → e.failed = true)

def EndOk (connected : Bool) (e : End) : Prop :=
  match e.state with
  | .inactive | .inactiveClosed => Resting connected e
  | .active => connected = true ∧ e.sent = [] ∧ e.received = [] ∧ e.failed = false ∧
      e.terminating = false
  | .localClose => connected = true ∧ e.sent = [false] ∧ e.received = [] ∧ e.failed = false ∧
      e.terminating = false
  | .remoteClose => connected = true ∧ e.sent = [] ∧ e.received = [false] ∧ e.failed = false ∧
      e.terminating = false
  | .closeAcked => connected = true ∧ (e.sent = [true] ∨ e.sent = [false, true]) ∧
      e.received = [false] ∧ e.failed = false ∧ e.terminating = false
  | .closed => connected = true ∧ Done e ∧ e.failed = false ∧ e.terminating = true
  | .moribund => (connected = false → e.sent = [] ∧ e.received = []) ∧
      Logs e.sent e.received ∧ e.failed = true ∧ e.terminating = false

structure Pair (connected : Bool) (me peer : End) (toMe toPeer : List Bool) : Prop where
  here : EndOk connected me
  there : EndOk connected peer
  mine : me.sent = peer.received ++ toPeer
  theirs : peer.sent = me.received ++ toMe

variable {connected : Bool} {me peer e : End} {toMe toPeer : List Bool}

theorem Pair.symm (h : Pair connected me peer toMe toPeer) : Pair connected peer me toPeer toMe :=
  ⟨h.there, h.here, h.theirs, h.mine⟩

theorem Done.logs (h : Done e) : Logs e.sent e.received := by
  unfold Done at h
  unfold Logs
  simp only [List.mem_cons, List.not_mem_nil, or_false] at h ⊢
  tauto

theorem EndOk.logs (h : EndOk connected e) : Logs e.sent e.received := by
  unfold EndOk at h
  split at h
  · rcases h with ⟨_, hs, hr, _⟩ | ⟨_, hd, _⟩
    · simp [Logs, hs, hr]
    · exact hd.logs
  · rcases h with ⟨_, hs, hr, _⟩ | ⟨_, hd, _⟩
    · simp [Logs, hs, hr]
    · exact hd.logs
  · simp [Logs, h.2.1, h.2.2.1]
  · simp [Logs, h.2.1, h.2.2.1]
  · simp [Logs, h.2.1, h.2.2.1]
  · rcases h.2.1 with hs | hs
    · simp [Logs, hs, h.2.2.1]
    · simp [Logs, hs, h.2.2.1]
  · exact h.2.1.logs
  · exact h.2.1

theorem EndOk.silent (h : EndOk false e) : e.sent = [] := by
  unfold EndOk at h
  split at h
  · rcases h with ⟨_, hs, _⟩ | ⟨hc, _⟩
    · exact hs
    · cases hc
  · rcases h with ⟨_, hs, _⟩ | ⟨hc, _⟩
    · exact hs
    · cases hc
  · cases h.1
  · cases h.1
  · cases h.1
  · cases h.1
  · cases h.1
  · exact (h.1 rfl).1

theorem Logs.sent {sent received : List Bool} (h : Logs sent received) :
    sent = [] ∨ sent = [false] ∨ sent = [true] ∨ sent = [false, true] := by
  simp only [Logs, List.mem_cons, List.not_mem_nil, or_false, Prod.mk.injEq] at h
  tauto

theorem Logs.count {sent received : List Bool} (h : Logs sent received) (ack : Bool) :
    sent.count ack ≤ 1 := by
  rcases h.sent with hs | hs | hs | hs <;> subst hs <;> cases ack <;> decide

theorem Done.drained (h : Done me)
    (hlogs : Logs peer.sent peer.received) (htheirs : peer.sent = me.received ++ toMe) :
    toMe = [] := by
  simp only [Done, List.mem_cons, List.not_mem_nil, or_false, Prod.mk.injEq] at h
  have hend : me.received = [true] ∨ me.received = [false, true] := by tauto
  rcases hlogs.sent with hs | hs | hs | hs <;> rcases hend with hr | hr <;>
    simp [hs, hr] at htheirs
  · exact htheirs
  · exact htheirs

theorem Pair.resting (h : Pair connected me peer toMe toPeer) (hme : Resting connected me) :
    toMe = [] := by
  rcases hme with ⟨hc, hs, hr, _⟩ | ⟨_, hd, _⟩
  · have hthere := h.there
    rw [hc] at hthere
    have hsilent := hthere.silent
    have htheirs := h.theirs
    rw [hsilent, hr] at htheirs
    exact htheirs.symm
  · exact hd.drained h.there.logs h.theirs

theorem Pair.drained (h : Pair connected me peer toMe toPeer)
    (hst : me.state = .closed ∨ me.state = .inactive ∨ me.state = .inactiveClosed) :
    toMe = [] := by
  have hme := h.here
  unfold EndOk at hme
  rcases hst with hst | hst | hst
  · simp only [hst] at hme
    exact hme.2.1.drained h.there.logs h.theirs
  · simp only [hst] at hme
    exact h.resting hme
  · simp only [hst] at hme
    exact h.resting hme

theorem Pair.closed
    (h : Pair connected me peer toMe toPeer) (hst : me.state = .closed) :
    me.sent ≠ [] ∧ peer.sent ≠ [] ∧ true ∈ me.received := by
  have hme := h.here
  unfold EndOk at hme
  simp only [hst] at hme
  have hd := hme.2.1
  have htheirs := h.theirs
  simp only [Done, List.mem_cons, List.not_mem_nil, or_false, Prod.mk.injEq] at hd
  rcases hd with ⟨hs, hr⟩ | ⟨hs, hr⟩ | ⟨hs, hr⟩ <;> simp [hs, hr, htheirs]

@[simp] theorem Side.other_other (s : Side) : s.other.other = s := by
  cases s <;> rfl

theorem Side.other_ne (s : Side) : s.other ≠ s := by
  cases s <;> decide

theorem Side.eq_or_other (s t : Side) : t = s ∨ t = s.other := by
  cases s <;> cases t <;> simp [Side.other]

@[simp] theorem Vc.put_ends (vc : Vc) (s : Side) (e : End) (packets : List Bool) :
    (vc.put s e packets).ends s = { e with sent := e.sent ++ packets } := by
  simp [Vc.put]

@[simp] theorem Vc.put_ends_other (vc : Vc) (s : Side) (e : End) (packets : List Bool) :
    (vc.put s e packets).ends s.other = vc.ends s.other := by
  simp [Vc.put, s.other_ne]

@[simp] theorem Vc.put_flight (vc : Vc) (s : Side) (e : End) (packets : List Bool) :
    (vc.put s e packets).flight s = vc.flight s := by
  simp [Vc.put, s.other_ne.symm]

@[simp] theorem Vc.put_flight_other (vc : Vc) (s : Side) (e : End) (packets : List Bool) :
    (vc.put s e packets).flight s.other = vc.flight s.other ++ packets := by
  simp [Vc.put]

def Good (vc : Vc) : Prop :=
  ∀ s, Pair vc.connected (vc.ends s) (vc.ends s.other) (vc.flight s) (vc.flight s.other)

variable {vc : Vc}

theorem good_of_pair (s : Side)
    (h : Pair vc.connected (vc.ends s) (vc.ends s.other) (vc.flight s) (vc.flight s.other)) :
    Good vc := by
  intro t
  rcases s.eq_or_other t with rfl | rfl
  · exact h
  · rw [s.other_other]
    exact h.symm

def closing (e : End) : Nat :=
  if e.state = .localClose ∨ e.state = .closeAcked ∨ e.state = .closed then 1 else 0

structure Moves (vc : Vc) (s : Side) (vc' : Vc) (ops : Int) : Prop where
  good : Good vc'
  counted : (closing (vc'.ends s) : Int) = closing (vc.ends s) + ops
  other : vc'.ends s.other = vc.ends s.other

theorem moves_idle (hg : Good vc) (s : Side) : Moves vc s vc 0 :=
  ⟨hg, by simp, rfl⟩

theorem moves_put {s : Side} {p : List Bool} {ops : Int} (hg : Good vc)
    (hend : EndOk vc.connected { e with sent := e.sent ++ p })
    (hsent : e.sent = (vc.ends s).sent) (hreceived : e.received = (vc.ends s).received)
    (hcount : (closing e : Int) = closing (vc.ends s) + ops) :
    Moves vc s (vc.put s e p) ops where
  good := by
    refine good_of_pair s ?_
    rw [Vc.put_ends, Vc.put_ends_other, Vc.put_flight, Vc.put_flight_other]
    refine ⟨hend, (hg s).there, ?_, ?_⟩
    · dsimp only
      rw [hsent, (hg s).mine, List.append_assoc]
    · dsimp only
      rw [hreceived]
      exact (hg s).theirs
  counted := by
    rw [Vc.put_ends, ← hcount]
    rfl
  other := Vc.put_ends_other vc s e p

theorem closeVcs_moves (hg : Good vc) (s : Side) :
    ∃ vc' ops, vcStep vc s .closeVcs = .ok (vc', ops) ∧ Moves vc s vc' ops := by
  have hme := (hg s).here
  unfold EndOk at hme
  by_cases hact : (vc.ends s).state = .active
  · simp only [hact] at hme
    obtain ⟨hc, hs, hr, hf, ht⟩ := hme
    refine ⟨vc.put s { vc.ends s with state := .localClose } [false], 1, ?_, ?_⟩
    · simp [vcStep, closeVcs, sendClose, hact, require, bind, Except.bind]
    · refine moves_put hg ?_ rfl rfl ?_
      · simp [EndOk, hc, hs, hr, hf, ht]
      · simp [closing, hact]
  by_cases hrem : (vc.ends s).state = .remoteClose
  · simp only [hrem] at hme
    obtain ⟨hc, hs, hr, hf, ht⟩ := hme
    refine ⟨vc.put s { vc.ends s with state := .closeAcked } [true], 1, ?_, ?_⟩
    · simp [vcStep, closeVcs, sendClose, hrem, require, bind, Except.bind]
    · refine moves_put hg ?_ rfl rfl ?_
      · simp [EndOk, hc, hs, hr, hf, ht]
      · simp [closing, hrem]
  by_cases hin : (vc.ends s).state = .inactive
  · simp only [hin] at hme
    refine ⟨vc.put s { vc.ends s with state := .inactiveClosed } [], 0, ?_, ?_⟩
    · simp [vcStep, closeVcs, hin]
    · refine moves_put hg ?_ rfl rfl ?_
      · simpa [EndOk, Resting, Done] using hme
      · simp [closing, hin]
  · exact ⟨vc, 0, by simp [vcStep, closeVcs, hact, hrem, hin], moves_idle hg s⟩

theorem moves_take {s : Side} {ack : Bool} {rest p : List Bool}
    (hg : Good vc) (hflight : vc.flight s = ack :: rest)
    (hend : EndOk vc.connected { e with sent := e.sent ++ p })
    (hsent : e.sent = (vc.ends s).sent) (hreceived : e.received = (vc.ends s).received ++ [ack])
    (hcount : closing e = closing (vc.ends s)) :
    Moves vc s (({ vc with flight := Function.update vc.flight s rest }).put s e p) 0 where
  good := by
    refine good_of_pair s ?_
    rw [Vc.put_ends, Vc.put_ends_other, Vc.put_flight, Vc.put_flight_other]
    refine ⟨hend, (hg s).there, ?_, ?_⟩
    · simp only [Function.update_of_ne s.other_ne]
      rw [hsent, (hg s).mine, List.append_assoc]
    · simp only [Function.update_self]
      rw [hreceived, List.append_assoc, List.singleton_append, ← hflight]
      exact (hg s).theirs
  counted := by
    rw [Vc.put_ends, ← hcount]
    simp [closing]
  other := Vc.put_ends_other _ s e p

theorem Pair.arrival {rest : List Bool} {ack : Bool}
    (h : Pair connected me peer (ack :: rest) toPeer) (hf : me.failed = false) :
    me.state = .active ∧ ack = false ∨ me.state = .localClose ∨
      me.state = .closeAcked ∧ ack = true := by
  have hme := h.here
  have hlogs := h.there.logs
  have hmine := h.mine
  have htheirs := h.theirs
  simp only [Logs, List.mem_cons, List.not_mem_nil, or_false, Prod.mk.injEq] at hlogs
  cases hst : me.state with
  | inactive => cases h.drained (Or.inr (Or.inl hst))
  | inactiveClosed => cases h.drained (Or.inr (Or.inr hst))
  | closed => cases h.drained (Or.inl hst)
  | active =>
    simp only [EndOk, hst] at hme
    obtain ⟨_, hs, hr, _⟩ := hme
    rw [hs] at hmine
    rw [hr] at htheirs
    have hpeer : peer.received = [] := (List.append_eq_nil_iff.mp hmine.symm).1
    rcases hlogs with hl | hl | hl | hl | hl | hl | hl | hl <;> simp_all
  | localClose => exact Or.inr (Or.inl rfl)
  | remoteClose =>
    simp only [EndOk, hst] at hme
    obtain ⟨_, hs, hr, _⟩ := hme
    rw [hs] at hmine
    rw [hr] at htheirs
    have hpeer : peer.received = [] := (List.append_eq_nil_iff.mp hmine.symm).1
    rcases hlogs with hl | hl | hl | hl | hl | hl | hl | hl <;> simp_all
  | closeAcked =>
    simp only [EndOk, hst] at hme
    obtain ⟨_, _, hr, _⟩ := hme
    rw [hr] at htheirs
    rcases hlogs with hl | hl | hl | hl | hl | hl | hl | hl <;> simp_all
  | moribund => simp [EndOk, hst, hf] at hme

theorem deliver_moves (hg : Good vc) (s : Side) :
    ∃ vc' ops, vcStep vc s .deliver = .ok (vc', ops) ∧ Moves vc s vc' ops := by
  cases hflight : vc.flight s with
  | nil => exact ⟨vc, 0, by simp [vcStep, hflight], moves_idle hg s⟩
  | cons ack rest =>
    by_cases hf : (vc.ends s).failed = true
    · exact ⟨vc, 0, by simp [vcStep, hflight, hf], moves_idle hg s⟩
    rw [Bool.not_eq_true] at hf
    have hpair := hg s
    rw [hflight] at hpair
    have hme := (hg s).here
    rcases hpair.arrival hf with ⟨hst, rfl⟩ | hst | ⟨hst, rfl⟩
    · simp only [EndOk, hst] at hme
      obtain ⟨hc, hs, hr, _, ht⟩ := hme
      refine ⟨_, 0, ?_, moves_take hg hflight (e := { vc.ends s with
        state := .remoteClose, received := (vc.ends s).received ++ [false],
        terminating := (vc.ends s).terminating || false }) (p := []) ?_ rfl rfl ?_⟩
      · simp [vcStep, hflight, hf, pktHandlerClose, hst, require, bind, Except.bind]
      · simp [EndOk, hc, hs, hr, hf, ht]
      · simp [closing, hst]
    · simp only [EndOk, hst] at hme
      obtain ⟨hc, hs, hr, _, ht⟩ := hme
      cases ack with
      | false =>
        refine ⟨_, 0, ?_, moves_take hg hflight (e := { vc.ends s with
          state := .closeAcked, received := (vc.ends s).received ++ [false],
          terminating := (vc.ends s).terminating || false }) (p := [true]) ?_ rfl rfl ?_⟩
        · simp [vcStep, hflight, hf, pktHandlerClose, hst, bind, Except.bind]
        · simp [EndOk, hc, hs, hr, hf, ht]
        · simp [closing, hst]
      | true =>
        refine ⟨_, 0, ?_, moves_take hg hflight (e := { vc.ends s with
          state := .closed, received := (vc.ends s).received ++ [true],
          terminating := (vc.ends s).terminating || true }) (p := [true]) ?_ rfl rfl ?_⟩
        · simp [vcStep, hflight, hf, pktHandlerClose, hst, require, bind, Except.bind]
        · simp [EndOk, Done, hc, hs, hr, hf]
        · simp [closing, hst]
    · simp only [EndOk, hst] at hme
      obtain ⟨hc, hs, hr, _, ht⟩ := hme
      refine ⟨_, 0, ?_, moves_take hg hflight (e := { vc.ends s with
        state := .closed, received := (vc.ends s).received ++ [true],
        terminating := (vc.ends s).terminating || true }) (p := []) ?_ rfl rfl ?_⟩
      · simp [vcStep, hflight, hf, pktHandlerClose, hst, require, bind, Except.bind]
      · rcases hs with hs | hs
        · simp [EndOk, Done, hc, hs, hr, hf]
        · simp [EndOk, Done, hc, hs, hr, hf]
      · simp [closing, hst]

theorem terminated_moves (hg : Good vc) (s : Side) (hh : vcHandled vc s .terminated) :
    ∃ vc' ops, vcStep vc s .terminated = .ok (vc', ops) ∧ Moves vc s vc' ops := by
  have hme := (hg s).here
  by_cases ht : (vc.ends s).terminating = true
  · cases hst : (vc.ends s).state with
    | closed =>
      simp only [EndOk, hst] at hme
      obtain ⟨hc, hd, hf, _⟩ := hme
      refine ⟨_, -1, ?_, moves_put hg (e := { vc.ends s with
        state := .inactive, terminating := false }) (p := []) ?_ rfl rfl ?_⟩
      · simp [vcStep, ht, handleConnection, hst, bind, Except.bind]
      · simpa [EndOk, Resting, Done, hc] using hd
      · simp [closing, hst]
    | inactive =>
      have hlogs := hme.logs
      simp only [EndOk, hst] at hme
      have hfc : (vc.ends s).failed = true ∧ vc.connected = true := by
        rcases hme with ⟨_, _, _, _, hn⟩ | ⟨hc, _, hf⟩
        · rw [ht] at hn
          cases hn
        · exact ⟨hf ht, hc⟩
      refine ⟨_, 0, ?_, moves_put hg (e := { vc.ends s with
        state := .moribund, terminating := false }) (p := []) ?_ rfl rfl ?_⟩
      · simp [vcStep, ht, handleConnection, hst, bind, Except.bind]
      · simp [EndOk, hfc, hlogs]
      · simp [closing, hst]
    | active => simp [EndOk, hst, ht] at hme
    | localClose => simp [EndOk, hst, ht] at hme
    | remoteClose => simp [EndOk, hst, ht] at hme
    | closeAcked => simp [EndOk, hst, ht] at hme
    | inactiveClosed => exact absurd hst (of_decide_eq_true hh ht)
    | moribund => simp [EndOk, hst, ht] at hme
  · exact ⟨vc, 0, by simp [vcStep, ht], moves_idle hg s⟩

theorem moves_moribund {s : Side} {ops : Int} (hg : Good vc) (ht : (vc.ends s).terminating = false)
    (hsilent : vc.connected = false → (vc.ends s).sent = [] ∧ (vc.ends s).received = [])
    (hcount : 0 = (closing (vc.ends s) : Int) + ops) :
    Moves vc s (vc.put s { vc.ends s with state := .moribund, failed := true } []) ops := by
  refine moves_put hg ?_ rfl rfl ?_
  · have hlogs := (hg s).here.logs
    simpa [EndOk, ht, hlogs] using hsilent
  · rw [← hcount]
    simp [closing]

theorem failed_moves (hg : Good vc) (s : Side) (hh : vcHandled vc s .failed) :
    ∃ vc' ops, vcStep vc s .failed = .ok (vc', ops) ∧ Moves vc s vc' ops := by
  have hme := (hg s).here
  by_cases hf : (vc.ends s).failed = true
  · exact ⟨vc, 0, by simp [vcStep, hf], moves_idle hg s⟩
  cases hst : (vc.ends s).state with
  | closed =>
    simp only [EndOk, hst] at hme
    obtain ⟨hc, hd, _, _⟩ := hme
    refine ⟨_, -1, ?_, moves_put hg (e := { vc.ends s with
      state := .inactive, failed := true }) (p := []) ?_ rfl rfl ?_⟩
    · simp [vcStep, hf, handleConnection, hst, bind, Except.bind]
    · simpa [EndOk, Resting, Done, hc] using hd
    · simp [closing, hst]
  | inactive =>
    refine ⟨_, 0, by simp [vcStep, hf, handleConnection, hst, bind, Except.bind],
      moves_moribund hg ?_ ?_ (by simp [closing, hst])⟩
    · simp only [EndOk, hst] at hme
      rcases hme with ⟨_, _, _, _, hn⟩ | ⟨_, _, hn⟩
      · exact hn
      · exact Bool.eq_false_iff.mpr (fun h => hf (hn h))
    · intro hc
      simp only [EndOk, hst, hc] at hme
      rcases hme with ⟨_, hs, hr, _⟩ | ⟨hc, _⟩
      · exact ⟨hs, hr⟩
      · cases hc
  | active =>
    simp only [EndOk, hst] at hme
    exact ⟨_, 0, by simp [vcStep, hf, handleConnection, hst, bind, Except.bind],
      moves_moribund hg hme.2.2.2.2 (by simp [hme.1]) (by simp [closing, hst])⟩
  | remoteClose =>
    simp only [EndOk, hst] at hme
    exact ⟨_, 0, by simp [vcStep, hf, handleConnection, hst, bind, Except.bind],
      moves_moribund hg hme.2.2.2.2 (by simp [hme.1]) (by simp [closing, hst])⟩
  | localClose =>
    simp only [EndOk, hst] at hme
    exact ⟨_, -1, by simp [vcStep, hf, handleConnection, hst, bind, Except.bind],
      moves_moribund hg hme.2.2.2.2 (by simp [hme.1]) (by simp [closing, hst])⟩
  | closeAcked =>
    simp only [EndOk, hst] at hme
    exact ⟨_, -1, by simp [vcStep, hf, handleConnection, hst, bind, Except.bind],
      moves_moribund hg hme.2.2.2.2 (by simp [hme.1]) (by simp [closing, hst])⟩
  | inactiveClosed => exact absurd hst (of_decide_eq_true hh (Bool.not_eq_true _ ▸ hf))
  | moribund => simp [EndOk, hst, hf] at hme

theorem vcStep_moves {s : Side} {kind : Kind} (hg : Good vc) (hh : vcHandled vc s kind) :
    ∃ vc' ops, vcStep vc s kind = .ok (vc', ops) ∧ Moves vc s vc' ops := by
  cases kind with
  | closeVcs => exact closeVcs_moves hg s
  | deliver => exact deliver_moves hg s
  | terminated => exact terminated_moves hg s hh
  | failed => exact failed_moves hg s hh

theorem vcStep_unhandled {s : Side} {kind : Kind} (hh : ¬vcHandled vc s kind) :
    vcStep vc s kind = .error .unhandledConnectionState := by
  cases kind with
  | closeVcs => exact absurd rfl hh
  | deliver => exact absurd rfl hh
  | terminated =>
    obtain ⟨ht, hst⟩ := Classical.not_imp.mp (mt decide_eq_true hh)
    rw [not_not] at hst
    simp [vcStep, ht, hst, handleConnection, bind, Except.bind]
  | failed =>
    obtain ⟨hf, hst⟩ := Classical.not_imp.mp (mt decide_eq_true hh)
    rw [not_not] at hst
    simp [vcStep, hf, hst, handleConnection, bind, Except.bind]

structure Balanced (st : State) : Prop where
  good : ∀ vc ∈ st.vcs, Good vc
  count : ∀ s, st.outstandingCloseOps s = tally (fun vc => closing (vc.ends s)) st.vcs

theorem init_balanced (connected : List Bool) : Balanced (State.init connected) where
  good := by
    intro vc hvc
    obtain ⟨c, _, rfl⟩ := List.mem_map.mp hvc
    intro s
    cases c <;>
      exact ⟨by simp [Vc.init, EndOk, Resting], by simp [Vc.init, EndOk, Resting], rfl, rfl⟩
  count := by
    intro s
    have hzero : tally (fun vc => closing (vc.ends s)) (connected.map Vc.init) = 0 := by
      induction connected with
      | nil => rfl
      | cons c cs ih =>
        rw [List.map_cons, tally_cons, ih]
        cases c <;> simp [Vc.init, closing]
    simp [State.init, hzero]

theorem step_balanced {st : State} {ev : Event} (h : Balanced st) (hh : handled st ev) :
    ∃ st', step st ev = .ok st' ∧ Balanced st' := by
  cases hget : st.vcs[ev.vc]? with
  | none => exact ⟨st, by simp [step, hget], h⟩
  | some vc =>
    obtain ⟨vc', ops, hstep, hm⟩ :=
      vcStep_moves (h.good vc (List.mem_of_getElem? hget)) (by simpa [handled, hget] using hh)
    refine ⟨_, by simp only [step, hget, hstep, bind, Except.bind]; rfl, ?_, ?_⟩
    · intro x hx
      rcases List.mem_or_eq_of_mem_set hx with hx | rfl
      · exact h.good x hx
      · exact hm.good
    · intro s
      have htally := tally_set (fun v => closing (v.ends s)) vc' hget
      dsimp only at htally ⊢
      rcases ev.side.eq_or_other s with rfl | rfl
      · rw [Function.update_self, h.count]
        have hcount := hm.counted
        omega
      · rw [Function.update_of_ne ev.side.other_ne, h.count]
        simp only [hm.other] at htally
        omega

theorem handled_of_step {st st' : State} {ev : Event} (h : step st ev = .ok st') :
    handled st ev := by
  cases hget : st.vcs[ev.vc]? with
  | none => simp [handled, hget]
  | some vc =>
    by_contra hh
    simp only [handled, hget] at hh
    simp only [step, hget, vcStep_unhandled hh] at h
    cases h

theorem run_ok_iff_handled {st : State} (h : Balanced st) (evs : List Event) :
    (∃ st', run step st evs = .ok st') ↔ Along step (fun st ev => handled st ev) st evs := by
  have hany : Along step (fun _ _ => True) st evs := Along.of_forall (fun _ _ => trivial) st evs
  refine run_ok_iff_along (I := Balanced) ?_ ?_ h hany
  · intro st ev hst _
    constructor
    · rintro ⟨st', hstep⟩
      exact handled_of_step hstep
    · intro hh
      obtain ⟨st', hstep, _⟩ := step_balanced hst hh
      exact ⟨st', hstep⟩
  · intro st ev st' hst _ hstep
    obtain ⟨_, hstep', hbal⟩ := step_balanced hst (handled_of_step hstep)
    rw [hstep] at hstep'
    cases hstep'
    exact hbal

structure Orderly (vc : Vc) (s : Side) : Prop where
  closed : (vc.ends s).state = .closed →
    (vc.ends s).sent ≠ [] ∧ (vc.ends s.other).sent ≠ [] ∧ true ∈ (vc.ends s).received
  drained : (vc.ends s).state = .closed ∨ (vc.ends s).state = .inactive ∨
    (vc.ends s).state = .inactiveClosed → vc.flight s = []
  once : ∀ ack, (vc.ends s).sent.count ack ≤ 1

/-- Whatever the events and their order: a function faults only when an INACTIVE_CLOSED end is
terminated, the counter of each side is the number of its connections that are being closed, and
the closes are exchanged once. -/
theorem close_protocol_safe (connected : List Bool) (evs : List Event) :
    ((∃ st, run step (State.init connected) evs = .ok st) ↔
      Along step (fun st ev => handled st ev) (State.init connected) evs) ∧
    ∀ st, run step (State.init connected) evs = .ok st →
      (∀ s, st.outstandingCloseOps s = (st.vcs.countP fun vc =>
        (vc.ends s).state ∈ [.localClose, .closeAcked, .closed] : Nat)) ∧
      ∀ vc ∈ st.vcs, ∀ s, Orderly vc s := by
  have hexact := run_ok_iff_handled (init_balanced connected) evs
  refine ⟨hexact, ?_⟩
  intro st hrun
  obtain ⟨_, hrun', hst⟩ := run_of_along (fun _ _ h hh => step_balanced h hh)
    (init_balanced connected) (hexact.mp ⟨st, hrun⟩)
  rw [hrun] at hrun'
  cases hrun'
  refine ⟨?_, ?_⟩
  · intro s
    have hclosing : (fun vc : Vc => closing (vc.ends s)) = fun vc =>
        if (vc.ends s).state ∈ [.localClose, .closeAcked, .closed] then 1 else 0 := by
      funext vc
      simp [closing]
    rw [hst.count, hclosing, tally_ite]
  · intro vc hvc s
    have hp := hst.good vc hvc s
    exact ⟨hp.closed, hp.drained, hp.here.logs.count⟩

theorem close_protocol_unhandled :
    ¬∃ st, run step (State.init [false]) [⟨0, .left, .closeVcs⟩, ⟨0, .left, .failed⟩] = .ok st := by
  rintro ⟨_, h⟩
  cases h

end FgMpi.Connection.CloseProtocol
