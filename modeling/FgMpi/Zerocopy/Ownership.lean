import FgMpi.Machine.Runs
import FgMpi.Zerocopy.Requests

/-! `MPID_Izsend`, `MPIDI_Isend_self`, `MPIDI_CH3_RecvFromSelf` and `MPIDI_CH3U_Buffer_free`. -/

namespace FgMpi.Zerocopy
open Machine
open Function (update update_idem update_of_ne update_self)

/-- `place` is `FG_worldrank_to_pid`. -/
structure Comm (place : Nat → Nat) where
  worldcomm : Bool
  rtwMap : List Nat
  rank : Nat
  pRank : Nat
  nodup : rtwMap.Nodup
  world_eq : worldcomm = true → rtwMap = List.range rtwMap.length
  pRank_eq : (rtwMap[rank]?).map place = some pRank

inductive Fault
  | assertion
  | notPossible
deriving DecidableEq

section Code
variable {place : Nat → Nat}

def Comm.localSize (comm : Comm place) : Nat := comm.rtwMap.length

/-- `RTWPmapFind`: the world rank and the OS process of a rank. -/
def rtwPmapFind (comm : Comm place) (lrank : Nat) : Except Fault (Nat × Nat) :=
  if comm.worldcomm then .ok (lrank, place lrank)
  else
    match comm.rtwMap[lrank]? with
    | some worldrank => .ok (worldrank, place worldrank)
    | none => .error .assertion

def fgIsWithinSameHWP (reqfgrank : Nat) (comm : Comm place) : Except Fault Bool :=
  if reqfgrank < comm.localSize then
    match rtwPmapFind comm reqfgrank with
    | .ok (_, reqpid) => .ok (decide (comm.pRank = reqpid))
    | .error e => .error e
  else .error .assertion

inductive Fate
  | queued
  | copied
  | handed
  | remote
deriving DecidableEq

/-- `destRank` is `dev.match.parts.dest_rank`, `buf` is `*(dev.user_buf_handle)`. -/
structure Sreq (place : Nat → Nat) where
  state : BitVec 32
  destRank : Nat
  comm : Comm place
  buf : Nat
  complete : Bool
  waited : Bool
  fate : Fate

structure Posted where
  dest : Nat
  state : BitVec 32

inductive Holder
  | nobody
  | process (world : Nat)
  | inFlight (req : Nat)
  | freed
  | userFreed
deriving DecidableEq

/-- `frees` are the library's calls of `MPIU_Free`, each with its request, `holder` tells who has a
buffer.  Buffers and requests from `nextBuf` and `nextReq` on are new. -/
structure State (place : Nat → Nat) where
  sreqs : Nat → Option (Sreq place)
  posted : List Posted
  unexpected : List (Nat × Nat)
  frees : List (Nat × Nat)
  holder : Nat → Holder
  nextBuf : Nat
  nextReq : Nat

def init : State place where
  sreqs := fun _ => none
  posted := []
  unexpected := []
  frees := []
  holder := fun _ => .nobody
  nextBuf := 0
  nextReq := 0

def setSreq (s : State place) (h : Nat) (r : Sreq place) : State place :=
  { s with sreqs := update s.sreqs h (some r) }

def mpiuFree (s : State place) (h buf : Nat) : State place :=
  { s with
    frees := s.frees ++ [(h, buf)]
    holder := update s.holder buf .freed }

/-- `*(rreq->dev.user_buf_handle) = buf` -/
def handOver (s : State place) (dest buf : Nat) : State place :=
  { s with holder := update s.holder buf (.process dest) }

/-- The case split of `MPIDI_Isend_self` and of `MPIDI_CH3_RecvFromSelf`, on the flags of both requests. -/
def deliver (s : State place) (h : Nat) (sreq : Sreq place) (dest : Nat) (rstate : BitVec 32) :
    State place :=
  if getSelfZerocopyFlag sreq.state && getSelfZerocopyFlag rstate then
    setSreq (handOver s dest sreq.buf) h { sreq with complete := true, fate := .handed }
  else if getSelfZerocopyFlag sreq.state && !getSelfZerocopyFlag rstate then
    setSreq (mpiuFree s h sreq.buf) h { sreq with complete := true, fate := .copied }
  else setSreq s h { sreq with complete := true, fate := .copied }

/-- `found` is the posted receive that `MPIDI_CH3U_Recvq_FDP_or_AEU` finds. -/
def isendSelf (s : State place) (buf : Nat) (comm : Comm place) (destworldrank : Nat)
    (type : BitVec 32) (found : Option Nat) : Except Fault (State place) :=
  let h := s.nextReq
  let sreq : Sreq place := ⟨selfSendState type, destworldrank, comm, buf, false, false, .queued⟩
  let s := { s with nextReq := h + 1 }
  match found with
  | some k =>
    match s.posted[k]? with
    | some rreq =>
      if rreq.dest = destworldrank then
        .ok (deliver { s with posted := s.posted.eraseIdx k } h sreq rreq.dest rreq.state)
      else .error .notPossible
    | none => .error .notPossible
  | none => .ok (setSreq { s with unexpected := s.unexpected ++ [(h, destworldrank)] } h sreq)

def recvFromSelf (s : State place) (h dest : Nat) (rstate : BitVec 32) : Except Fault (State place) :=
  match s.sreqs h with
  | some sreq => .ok (deliver s h sreq dest rstate)
  | none => .error .assertion

/-- A receive by the process `world`; `found` is the message that `MPIDI_CH3U_Recvq_FDU_or_AEP` finds. -/
def recv (s : State place) (world : Nat) (zerocopy : Bool) (found : Option Nat) :
    Except Fault (State place) :=
  match found with
  | some k =>
    match s.unexpected[k]? with
    | some (h, dest) =>
      if dest = world then
        recvFromSelf { s with unexpected := s.unexpected.eraseIdx k } h world (recvState zerocopy)
      else .error .notPossible
    | none => .error .notPossible
  | none => .ok { s with posted := s.posted ++ [⟨world, recvState zerocopy⟩] }

/-- `MPID_Izsend` to a rank of the communicator. -/
def izsend (s : State place) (buf rank : Nat) (comm : Comm place) (found : Option Nat) :
    Except Fault (State place) :=
  match rtwPmapFind comm rank with
  | .ok (destworldrank, destpid) =>
    -- COMPARE_RANKS
    if rank = comm.rank ∨ destpid = comm.pRank then
      isendSelf s buf comm destworldrank requestTypeZsend found
    else
      .ok (setSreq { s with nextReq := s.nextReq + 1 } s.nextReq
        ⟨remoteSendState, destworldrank, comm, buf, false, false, .remote⟩)
  | .error e => .error e

def bufferFree (s : State place) (h : Nat) (req : Sreq place) : Except Fault (State place) :=
  if getType req.state = requestTypeSend ∧ getSelfZerocopyFlag req.state = true then
    match fgIsWithinSameHWP req.destRank req.comm with
    | .ok false => .ok (mpiuFree s h req.buf)
    | .ok true => .ok s
    | .error e => .error e
  else .ok s

/-- `MPI_Wait`, or a test of a complete request. -/
def wait (s : State place) (h : Nat) : Except Fault (State place) :=
  match s.sreqs h with
  | some req =>
    if req.complete = true ∧ req.waited = false then
      match bufferFree s h req with
      | .ok t => .ok (setSreq t h { req with waited := true })
      | .error e => .error e
    else .error .notPossible
  | none => .error .notPossible

/-- A sender gives a buffer of its own, and leaves it alone until the request is complete. -/
inductive Event (place : Nat → Nat)
  | malloc (world : Nat)
  | free (world buf : Nat)
  | izsend (comm : Comm place) (rank buf : Nat) (found : Option Nat)
  | recv (world : Nat) (zerocopy : Bool) (found : Option Nat)
  | sent (req : Nat)
  | wait (req : Nat)

/-- `sent` is the end of the transfer to another OS process. -/
def step (s : State place) : Event place → Except Fault (State place)
  | .malloc world =>
    .ok { s with
      holder := update s.holder s.nextBuf (.process world)
      nextBuf := s.nextBuf + 1 }
  | .free world buf =>
    if s.holder buf = .process world then
      .ok { s with holder := update s.holder buf .userFreed }
    else .error .notPossible
  | .izsend comm rank buf found =>
    if rank < comm.localSize ∧ (comm.rtwMap[comm.rank]?).map Holder.process = some (s.holder buf) then
      izsend { s with holder := update s.holder buf (.inFlight s.nextReq) } buf rank comm found
    else .error .notPossible
  | .recv world zerocopy found => recv s world zerocopy found
  | .sent h =>
    match s.sreqs h with
    | some req =>
      if req.fate = .remote then .ok (setSreq s h { req with complete := true })
      else .error .notPossible
    | none => .error .notPossible
  | .wait h => wait s h

end Code

section Ownership
variable {place : Nat → Nat}

/-- The destination is in the OS process of the sender, or the test of its world rank as a rank of the
communicator says that it is not. -/
def Placed (comm : Comm place) (rank : Nat) : Prop :=
  ∀ destworldrank, comm.rtwMap[rank]? = some destworldrank →
    place destworldrank = comm.pRank ∨
      ∃ worldrank, comm.rtwMap[destworldrank]? = some worldrank ∧ place worldrank ≠ comm.pRank

def Event.Placed : Event place → Prop
  | .izsend comm rank _ _ => Zerocopy.Placed comm rank
  | _ => True

def freesOf (s : State place) (h : Nat) : Nat := s.frees.countP fun f => f.1 = h

def Waits (s : State place) (h : Nat) (r : Sreq place) : Prop :=
  (∃ dest, (h, dest) ∈ s.unexpected) ∨ r.fate = .remote ∧ r.waited = false

/-- The buffer of every send is freed exactly when it should be, no buffer is freed twice or while a
process has it, and every buffer is held, freed or on its way. -/
structure Owned (s : State place) : Prop where
  exact : ∀ h r, s.sreqs h = some r →
    freesOf s h = if r.fate = .copied ∨ r.fate = .remote ∧ r.waited = true then 1 else 0
  once : (s.frees.map Prod.snd).Nodup
  given : ∀ f ∈ s.frees, s.holder f.2 = .freed
  kept : ∀ buf < s.nextBuf, (∃ world, s.holder buf = .process world) ∨ s.holder buf = .userFreed ∨
    buf ∈ s.frees.map Prod.snd ∨ ∃ h r, s.sreqs h = some r ∧ r.buf = buf ∧ Waits s h r

def Sreq.away (r : Sreq place) : Prop := r.fate = .queued ∨ r.fate = .remote ∧ r.waited = false

structure Inv (s : State place) : Prop where
  newReq : ∀ h, s.nextReq ≤ h → s.sreqs h = none
  newBuf : ∀ buf, s.holder buf = .nobody ↔ s.nextBuf ≤ buf
  self : ∀ h r, s.sreqs h = some r → r.fate ≠ .remote → r.state = selfSendState requestTypeZsend
  remote : ∀ h r, s.sreqs h = some r → r.fate = .remote →
    r.state = remoteSendState ∧ fgIsWithinSameHWP r.destRank r.comm = .ok false
  flight : ∀ buf h, s.holder buf = .inFlight h ↔ ∃ r, s.sreqs h = some r ∧ r.buf = buf ∧ r.away
  queue : ∀ h, (∃ dest, (h, dest) ∈ s.unexpected) ↔ ∃ r, s.sreqs h = some r ∧ r.fate = .queued
  distinct : (s.unexpected.map Prod.fst).Nodup
  exact : ∀ h r, s.sreqs h = some r →
    freesOf s h = if r.fate = .copied ∨ r.fate = .remote ∧ r.waited = true then 1 else 0
  none : ∀ h, s.sreqs h = none → freesOf s h = 0
  freed : ∀ buf, s.holder buf = .freed ↔ buf ∈ s.frees.map Prod.snd
  once : (s.frees.map Prod.snd).Nodup

theorem Inv.owned {s : State place} (h : Inv s) : Owned s where
  exact := h.exact
  once := h.once
  given f hf := (h.freed f.2).mpr (List.mem_map_of_mem hf)
  kept buf hbuf := by
    cases hholder : s.holder buf with
    | nobody =>
      have hge := (h.newBuf buf).mp hholder
      omega
    | process world => exact .inl ⟨world, rfl⟩
    | inFlight req =>
      obtain ⟨r, hr, hb, haway⟩ := (h.flight buf req).mp hholder
      refine .inr (.inr (.inr ⟨req, r, hr, hb, ?_⟩))
      rcases haway with hqueued | hremote
      · exact .inl ((h.queue req).mpr ⟨r, hr, hqueued⟩)
      · exact .inr hremote
    | freed => exact .inr (.inr (.inl ((h.freed buf).mp hholder)))
    | userFreed => exact .inr (.inl rfl)

variable {s t : State place}

theorem init_inv : Inv (init : State place) where
  newReq _ _ := rfl
  newBuf _ := ⟨fun _ => Nat.zero_le _, fun _ => rfl⟩
  self _ _ h := (nomatch h)
  remote _ _ h := (nomatch h)
  flight _ _ := ⟨fun hholder => (nomatch hholder), fun ⟨_, hr, _⟩ => (nomatch hr)⟩
  queue _ := ⟨fun ⟨_, hmem⟩ => (nomatch hmem), fun ⟨_, hr, _⟩ => (nomatch hr)⟩
  distinct := List.nodup_nil
  exact _ _ h := (nomatch h)
  none _ _ := rfl
  freed _ := ⟨fun hholder => (nomatch hholder), fun hmem => (nomatch hmem)⟩
  once := List.nodup_nil

variable {buf world req : Nat}

theorem Inv.hold (h : Inv s) {holder : Holder} {nextBuf : Nat}
    (hold : s.holder buf = .nobody ∨ ∃ world, s.holder buf = .process world)
    (hnew : (∃ world, holder = .process world) ∨ holder = .userFreed)
    (hnext : ∀ b, (b ≠ buf ∧ s.nextBuf ≤ b) ↔ nextBuf ≤ b) :
    Inv { s with holder := update s.holder buf holder, nextBuf := nextBuf } := by
  have hother : ∀ b x, (x = .freed ∨ ∃ req, x = .inFlight req) →
      (update s.holder buf holder b = x ↔ s.holder b = x) := by
    intro b x hx
    by_cases hb : b = buf
    · subst hb
      rw [update_self]
      constructor
      · rintro rfl
        rcases hnew with ⟨w, rfl⟩ | rfl <;> rcases hx with hx | ⟨req, hx⟩ <;> exact nomatch hx
      · rintro hsame
        rcases hold with hold | ⟨w, hold⟩ <;> rw [hold] at hsame <;> subst hsame <;>
          rcases hx with hx | ⟨req, hx⟩ <;> exact nomatch hx
    · rw [update_of_ne hb]
  refine ⟨h.newReq, fun b => ?_, h.self, h.remote, fun b req => ?_, h.queue, h.distinct, h.exact,
    h.none, fun b => ?_, h.once⟩
  · dsimp only
    rw [← hnext, ← h.newBuf]
    by_cases hb : b = buf
    · subst hb
      rw [update_self]
      refine ⟨fun hnobody => ?_, fun hand => absurd rfl hand.1⟩
      rcases hnew with ⟨w, rfl⟩ | rfl <;> exact nomatch hnobody
    · rw [update_of_ne hb]
      exact ⟨fun hnobody => ⟨hb, hnobody⟩, fun hand => hand.2⟩
  · exact (hother b _ (.inr ⟨req, rfl⟩)).trans (h.flight b req)
  · exact (hother b _ (.inl rfl)).trans (h.freed b)

theorem update_eq {α : Type} {f : Nat → α} {a b : Nat} {x y : α} :
    update f a x b = y ↔ b = a ∧ x = y ∨ b ≠ a ∧ f b = y := by
  by_cases h : b = a
  · subst h
    rw [update_self]
    tauto
  · rw [update_of_ne h]
    tauto

variable {r : Sreq place}

theorem Inv.start (h : Inv s) (hold : s.holder buf = .process world) (hbuf : r.buf = buf) (hwaited : r.waited = false)
    {unexpected : List (Nat × Nat)}
    (hfate : (∃ dest, r.fate = .queued ∧ r.state = selfSendState requestTypeZsend ∧
        unexpected = s.unexpected ++ [(s.nextReq, dest)]) ∨
      r.fate = .remote ∧ r.state = remoteSendState ∧
        fgIsWithinSameHWP r.destRank r.comm = .ok false ∧ unexpected = s.unexpected) :
    Inv { s with
      sreqs := update s.sreqs s.nextReq (some r)
      unexpected := unexpected
      holder := update s.holder buf (.inFlight s.nextReq)
      nextReq := s.nextReq + 1 } := by
  have hnew := h.newReq s.nextReq (Nat.le_refl _)
  have haway : r.away := by
    rcases hfate with ⟨d, hf, -⟩ | ⟨hf, -⟩
    · exact .inl hf
    · exact .inr ⟨hf, hwaited⟩
  have hnotin : ∀ dest, (s.nextReq, dest) ∉ s.unexpected := by
    intro dest hmem
    obtain ⟨r', hr', -⟩ := (h.queue s.nextReq).mp ⟨dest, hmem⟩
    rw [hnew] at hr'
    cases hr'
  refine ⟨?_, ?_, ?_, ?_, ?_, ?_, ?_, ?_, ?_, ?_, h.once⟩
  · intro req hreq
    dsimp only at hreq ⊢
    rw [update_of_ne (by omega)]
    exact h.newReq req (by omega)
  · intro b
    dsimp only
    rw [update_eq, ← h.newBuf]
    refine ⟨fun hand => ?_, fun hnobody => .inr ⟨?_, hnobody⟩⟩
    · rcases hand with ⟨-, hand⟩ | ⟨-, hand⟩
      · cases hand
      · exact hand
    · rintro rfl
      rw [hold] at hnobody
      cases hnobody
  · intro req r' hr' hne
    rcases update_eq.mp hr' with ⟨-, heq⟩ | ⟨-, hr'⟩
    · obtain rfl := Option.some.inj heq
      rcases hfate with ⟨d, -, hstate, -⟩ | ⟨hf, -⟩
      · exact hstate
      · exact absurd hf hne
    · exact h.self req r' hr' hne
  · intro req r' hr' hremote
    rcases update_eq.mp hr' with ⟨-, heq⟩ | ⟨-, hr'⟩
    · obtain rfl := Option.some.inj heq
      rcases hfate with ⟨d, hf, -⟩ | ⟨-, hstate, htest, -⟩
      · rw [hf] at hremote
        cases hremote
      · exact ⟨hstate, htest⟩
    · exact h.remote req r' hr' hremote
  · intro b req
    dsimp only
    by_cases hreq : req = s.nextReq
    · subst hreq
      rw [update_self, update_eq]
      constructor
      · rintro (⟨rfl, -⟩ | ⟨-, hflight⟩)
        · exact ⟨r, rfl, hbuf, haway⟩
        · obtain ⟨r', hr', -⟩ := (h.flight b s.nextReq).mp hflight
          rw [hnew] at hr'
          cases hr'
      · rintro ⟨r', hr', hb, -⟩
        obtain rfl := Option.some.inj hr'
        exact .inl ⟨hb.symm.trans hbuf, rfl⟩
    · rw [update_of_ne hreq, ← h.flight, update_eq]
      constructor
      · rintro (⟨-, heq⟩ | ⟨-, hflight⟩)
        · exact absurd (Holder.inFlight.inj heq).symm hreq
        · exact hflight
      · intro hflight
        refine .inr ⟨?_, hflight⟩
        rintro rfl
        rw [hold] at hflight
        cases hflight
  · intro req
    dsimp only
    by_cases hreq : req = s.nextReq
    · subst hreq
      rw [update_self]
      constructor
      · rintro ⟨dest, hmem⟩
        rcases hfate with ⟨d, hf, -⟩ | ⟨-, -, -, rfl⟩
        · exact ⟨r, rfl, hf⟩
        · exact absurd hmem (hnotin dest)
      · rintro ⟨r', hr', hqueued⟩
        obtain rfl := Option.some.inj hr'
        rcases hfate with ⟨d, -, -, rfl⟩ | ⟨hf, -⟩
        · exact ⟨d, List.mem_append_right _ List.mem_cons_self⟩
        · rw [hf] at hqueued
          cases hqueued
    · rw [update_of_ne hreq, ← h.queue]
      rcases hfate with ⟨d, -, -, rfl⟩ | ⟨-, -, -, rfl⟩
      · refine exists_congr fun dest => ?_
        rw [List.mem_append, List.mem_singleton, Prod.mk.injEq]
        exact ⟨fun hand => hand.resolve_right fun heq => hreq heq.1, .inl⟩
      · rfl
  · rcases hfate with ⟨d, -, -, rfl⟩ | ⟨-, -, -, rfl⟩
    · dsimp only
      rw [List.map_append]
      refine List.nodup_append.mpr ⟨h.distinct, List.nodup_singleton _, ?_⟩
      intro a ha b hb hab
      obtain ⟨⟨a', d'⟩, hmem, rfl⟩ := List.mem_map.mp ha
      obtain rfl : b = s.nextReq := List.mem_singleton.mp hb
      exact hnotin d' (hab ▸ hmem)
    · exact h.distinct
  · intro req r' hr'
    rcases update_eq.mp hr' with ⟨rfl, heq⟩ | ⟨-, hr'⟩
    · obtain rfl := Option.some.inj heq
      rw [if_neg]
      · exact h.none _ hnew
      · rintro (hf | ⟨-, hw⟩)
        · rcases haway with hq | ⟨hq, -⟩ <;> rw [hf] at hq <;> cases hq
        · rw [hwaited] at hw
          cases hw
    · exact h.exact req r' hr'
  · intro req hnone
    rcases update_eq.mp hnone with ⟨-, heq⟩ | ⟨-, hnone⟩
    · cases heq
    · exact h.none req hnone
  · intro b
    dsimp only
    rw [update_eq, ← h.freed]
    constructor
    · rintro (⟨-, heq⟩ | ⟨-, hfreed⟩)
      · cases heq
      · exact hfreed
    · intro hfreed
      refine .inr ⟨?_, hfreed⟩
      rintro rfl
      rw [hold] at hfreed
      cases hfreed

theorem freesOf_free (s : State place) (h h' buf : Nat) :
    freesOf (mpiuFree s h buf) h' = freesOf s h' + if h' = h then 1 else 0 := by
  rw [freesOf, mpiuFree, List.countP_append, freesOf]
  by_cases hh : h' = h
  · simp [hh]
  · simp [hh, Ne.symm hh]

theorem Inv.release (h : Inv s) {r' : Sreq place} (hr : s.sreqs req = some r)
    (haway : r.away) (hnot : ¬ r'.away) {holder : Holder} {frees unexpected : List (Nat × Nat)}
    (hself : r'.fate ≠ .remote → r'.state = selfSendState requestTypeZsend) (hremote : r'.fate = .remote →
      r'.state = remoteSendState ∧ fgIsWithinSameHWP r'.destRank r'.comm = .ok false)
    (hqueue : ∀ q, (∃ dest, (q, dest) ∈ unexpected) ↔ q ≠ req ∧ ∃ dest, (q, dest) ∈ s.unexpected)
    (hdistinct : (unexpected.map Prod.fst).Nodup)
    (hgone : (∃ world, holder = .process world) ∧ frees = s.frees ∧ r'.fate = .handed ∨
      holder = .freed ∧ frees = s.frees ++ [(req, r.buf)] ∧
        (r'.fate = .copied ∨ r'.fate = .remote ∧ r'.waited = true)) :
    Inv { s with
      sreqs := update s.sreqs req (some r')
      unexpected := unexpected
      frees := frees
      holder := update s.holder r.buf holder } := by
  have hflight : s.holder r.buf = .inFlight req := (h.flight r.buf req).mpr ⟨r, hr, rfl, haway⟩
  have hholder : ∀ q, holder ≠ .inFlight q := by
    rintro q rfl
    rcases hgone with ⟨⟨w, hw⟩, -⟩ | ⟨hf, -⟩ <;> contradiction
  have hzero : freesOf s req = 0 := by
    rw [h.exact req r hr, if_neg]
    rintro (hf | ⟨hf, hw⟩)
    · rcases haway with ha | ⟨ha, -⟩ <;> rw [hf] at ha <;> exact nomatch ha
    · rcases haway with ha | ⟨-, ha⟩
      · rw [hf] at ha
        exact nomatch ha
      · rw [hw] at ha
        exact nomatch ha
  have hcount : ∀ q, (frees.countP fun f => f.1 = q) = freesOf s q +
      if q = req ∧ holder = .freed then 1 else 0 := by
    intro q
    rcases hgone with ⟨⟨w, rfl⟩, rfl, -⟩ | ⟨rfl, rfl, -⟩
    · rw [if_neg (fun hand => nomatch hand.2)]
      rfl
    · have hfree := freesOf_free s req q r.buf
      by_cases hq : q = req
      · rw [if_pos hq] at hfree
        rw [if_pos ⟨hq, rfl⟩]
        exact hfree
      · rw [if_neg hq] at hfree
        rw [if_neg (fun hand => hq hand.1)]
        exact hfree
  have hunfreed : r.buf ∉ s.frees.map Prod.snd := by
    rw [← h.freed, hflight]
    exact fun heq => nomatch heq
  refine ⟨?_, ?_, ?_, ?_, ?_, ?_, hdistinct, ?_, ?_, ?_, ?_⟩
  · intro q hq
    have hne : q ≠ req := by
      rintro rfl
      rw [h.newReq q hq] at hr
      exact nomatch hr
    dsimp only
    rw [update_of_ne hne]
    exact h.newReq q hq
  · intro b
    dsimp only
    rw [update_eq, ← h.newBuf]
    constructor
    · rintro (⟨-, rfl⟩ | ⟨-, hb⟩)
      · rcases hgone with ⟨⟨w, hw⟩, -⟩ | ⟨hf, -⟩ <;> contradiction
      · exact hb
    · intro hb
      refine .inr ⟨?_, hb⟩
      rintro rfl
      rw [hflight] at hb
      exact nomatch hb
  · intro q x hx hne
    rcases update_eq.mp hx with ⟨-, heq⟩ | ⟨-, hx⟩
    · obtain rfl := Option.some.inj heq
      exact hself hne
    · exact h.self q x hx hne
  · intro q x hx hfate
    rcases update_eq.mp hx with ⟨-, heq⟩ | ⟨-, hx⟩
    · obtain rfl := Option.some.inj heq
      exact hremote hfate
    · exact h.remote q x hx hfate
  · intro b q
    dsimp only
    constructor
    · intro hb
      rcases update_eq.mp hb with ⟨-, heq⟩ | ⟨hne, hb⟩
      · exact absurd heq (hholder q)
      · obtain ⟨x, hx, hxb, hxa⟩ := (h.flight b q).mp hb
        have hq : q ≠ req := by
          rintro rfl
          rw [hr] at hx
          obtain rfl := Option.some.inj hx
          exact hne hxb.symm
        exact ⟨x, by rw [update_of_ne hq]; exact hx, hxb, hxa⟩
    · rintro ⟨x, hx, hxb, hxa⟩
      rcases update_eq.mp hx with ⟨-, heq⟩ | ⟨hq, hx⟩
      · obtain rfl := Option.some.inj heq
        exact absurd hxa hnot
      · have hb := (h.flight b q).mpr ⟨x, hx, hxb, hxa⟩
        refine update_eq.mpr (.inr ⟨?_, hb⟩)
        rintro rfl
        rw [hflight] at hb
        exact hq (Holder.inFlight.inj hb).symm
  · intro q
    rw [hqueue, h.queue]
    constructor
    · rintro ⟨hq, x, hx, hf⟩
      exact ⟨x, by dsimp only; rw [update_of_ne hq]; exact hx, hf⟩
    · rintro ⟨x, hx, hf⟩
      rcases update_eq.mp hx with ⟨-, heq⟩ | ⟨hq, hx⟩
      · obtain rfl := Option.some.inj heq
        exact absurd (.inl hf) hnot
      · exact ⟨hq, x, hx, hf⟩
  · intro q x hx
    rw [freesOf, hcount]
    rcases update_eq.mp hx with ⟨rfl, heq⟩ | ⟨hq, hx⟩
    · obtain rfl := Option.some.inj heq
      rw [hzero]
      rcases hgone with ⟨⟨w, rfl⟩, -, hf⟩ | ⟨rfl, -, hf⟩
      · rw [if_neg (fun hand => nomatch hand.2), if_neg]
        rintro (hc | ⟨hc, -⟩) <;> rw [hf] at hc <;> exact nomatch hc
      · rw [if_pos ⟨rfl, rfl⟩, if_pos hf]
    · rw [if_neg (fun hand => hq hand.1)]
      exact h.exact q x hx
  · intro q hnone
    rcases update_eq.mp hnone with ⟨-, heq⟩ | ⟨hq, hnone⟩
    · exact nomatch heq
    · rw [freesOf, hcount, if_neg (fun hand => hq hand.1), h.none q hnone]
  · intro b
    dsimp only
    rw [update_eq]
    rcases hgone with ⟨⟨w, rfl⟩, rfl, -⟩ | ⟨rfl, rfl, -⟩
    · rw [← h.freed]
      constructor
      · rintro (⟨-, heq⟩ | ⟨-, hb⟩)
        · exact nomatch heq
        · exact hb
      · intro hb
        refine .inr ⟨?_, hb⟩
        rintro rfl
        rw [hflight] at hb
        exact nomatch hb
    · rw [List.map_append, List.mem_append, ← h.freed]
      simp only [List.map_cons, List.map_nil, List.mem_singleton]
      tauto
  · dsimp only
    rcases hgone with ⟨-, rfl, -⟩ | ⟨-, rfl, -⟩
    · exact h.once
    · rw [List.map_append]
      refine List.nodup_append.mpr ⟨h.once, List.nodup_singleton _, ?_⟩
      intro a ha b hb hab
      obtain rfl : b = r.buf := List.mem_singleton.mp hb
      exact hunfreed (hab ▸ ha)

theorem mem_fst_iff {l : List (Nat × Nat)} {h : Nat} : h ∈ l.map Prod.fst ↔ ∃ dest, (h, dest) ∈ l := by
  constructor
  · intro hmem
    obtain ⟨⟨h', dest⟩, hpair, rfl⟩ := List.mem_map.mp hmem
    exact ⟨dest, hpair⟩
  · rintro ⟨dest, hmem⟩
    exact List.mem_map_of_mem hmem

theorem mem_eraseIdx_fst {l : List (Nat × Nat)} {k h dest : Nat} (hnodup : (l.map Prod.fst).Nodup)
    (hk : l[k]? = some (h, dest)) (q : Nat) :
    q ∈ (l.eraseIdx k).map Prod.fst ↔ q ≠ h ∧ q ∈ l.map Prod.fst := by
  have hmap : (l.eraseIdx k).map Prod.fst = (l.map Prod.fst).eraseIdx k := (List.eraseIdx_map _ _ k).symm
  obtain ⟨hlt, hget⟩ := List.getElem?_eq_some_iff.mp hk
  have hlt' : k < (l.map Prod.fst).length := by rwa [List.length_map]
  have hget' : (l.map Prod.fst)[k] = h := by rw [List.getElem_map, hget]
  rw [hmap, ← hnodup.erase_getElem k hlt', hget', hnodup.mem_erase_iff]

theorem deliver_inv (h : Inv s) {k dest : Nat} (hk : s.unexpected[k]? = some (req, dest)) (hr : s.sreqs req = some r) (world : Nat) (rstate : BitVec 32) :
    Inv (deliver { s with unexpected := s.unexpected.eraseIdx k } req r world rstate) := by
  have hqueued : r.fate = .queued := by
    obtain ⟨r', hr', hf⟩ := (h.queue req).mp ⟨dest, List.mem_of_getElem? hk⟩
    rw [hr] at hr'
    obtain rfl := Option.some.inj hr'
    exact hf
  have hstate := h.self req r hr (by rw [hqueued]; exact fun heq => nomatch heq)
  have hqueue : ∀ q, (∃ d, (q, d) ∈ s.unexpected.eraseIdx k) ↔ q ≠ req ∧ ∃ d, (q, d) ∈ s.unexpected := by
    intro q
    rw [← mem_fst_iff, ← mem_fst_iff]
    exact mem_eraseIdx_fst h.distinct hk q
  have hdistinct : ((s.unexpected.eraseIdx k).map Prod.fst).Nodup :=
    h.distinct.sublist ((List.eraseIdx_sublist _ _).map _)
  unfold deliver
  rw [hstate, selfSendState_flag]
  cases getSelfZerocopyFlag rstate with
  | true =>
    exact h.release hr (.inl hqueued) (by rintro (hf | ⟨hf, -⟩) <;> exact nomatch hf) (fun _ => rfl)
      (fun hf => nomatch hf) hqueue hdistinct (.inl ⟨⟨world, rfl⟩, rfl, rfl⟩)
  | false =>
    exact h.release hr (.inl hqueued) (by rintro (hf | ⟨hf, -⟩) <;> exact nomatch hf) (fun _ => rfl)
      (fun hf => nomatch hf) hqueue hdistinct (.inr ⟨rfl, rfl, .inl rfl⟩)

theorem rtwPmapFind_eq (comm : Comm place) {lrank worldrank : Nat}
    (h : comm.rtwMap[lrank]? = some worldrank) :
    rtwPmapFind comm lrank = .ok (worldrank, place worldrank) := by
  unfold rtwPmapFind
  split
  · rename_i hworld
    obtain ⟨hlt, hget⟩ := List.getElem?_eq_some_iff.mp h
    have hlrank : comm.rtwMap[lrank] = lrank := by
      have hmap := comm.world_eq hworld
      have hone : comm.rtwMap[lrank]? = (List.range comm.rtwMap.length)[lrank]? := by rw [← hmap]
      rw [h, List.getElem?_range hlt] at hone
      rw [hget]
      exact Option.some.inj hone
    rw [← hget, hlrank]
  · rw [h]

theorem fgIsWithinSameHWP_eq (comm : Comm place) (reqfgrank : Nat) :
    fgIsWithinSameHWP reqfgrank comm = .ok false ↔
      ∃ worldrank, comm.rtwMap[reqfgrank]? = some worldrank ∧ place worldrank ≠ comm.pRank := by
  unfold fgIsWithinSameHWP Comm.localSize
  by_cases hlt : reqfgrank < comm.rtwMap.length
  · have hget := List.getElem?_eq_getElem hlt
    rw [if_pos hlt, rtwPmapFind_eq comm hget, hget]
    dsimp only
    rw [Except.ok.injEq, decide_eq_false_iff_not]
    constructor
    · intro hne
      exact ⟨_, rfl, Ne.symm hne⟩
    · rintro ⟨w, hw, hne⟩
      rw [Option.some.inj hw]
      exact Ne.symm hne
  · rw [if_neg hlt]
    constructor
    · intro h
      exact nomatch h
    · rintro ⟨w, hw, -⟩
      rw [List.getElem?_eq_none (Nat.not_lt.mp hlt)] at hw
      exact nomatch hw

theorem Inv.post (h : Inv s) (posted : List Posted) : Inv { s with posted := posted } :=
  ⟨h.newReq, h.newBuf, h.self, h.remote, h.flight, h.queue, h.distinct, h.exact, h.none, h.freed, h.once⟩

variable {comm : Comm place} {found : Option Nat}

theorem isendSelf_inv (h : Inv s) {destworldrank : Nat} (hold : s.holder buf = .process world)
    (hok : isendSelf { s with holder := update s.holder buf (.inFlight s.nextReq) } buf comm
      destworldrank requestTypeZsend found = .ok t) : Inv t := by
  have hqueued := h.start hold (r := ⟨selfSendState requestTypeZsend, destworldrank, comm, buf, false,
    false, .queued⟩) rfl rfl (.inl ⟨destworldrank, rfl, rfl, rfl⟩)
  unfold isendSelf at hok
  cases found with
  | none =>
    obtain rfl := Except.ok.inj hok
    exact hqueued
  | some k =>
    dsimp only at hok
    cases hk : s.posted[k]? with
    | none =>
      rw [hk] at hok
      exact nomatch hok
    | some rreq =>
      rw [hk] at hok
      dsimp only at hok
      split at hok
      · obtain rfl := Except.ok.inj hok
        have hlast : (s.unexpected ++ [(s.nextReq, destworldrank)])[s.unexpected.length]? =
            some (s.nextReq, destworldrank) := by
          rw [List.getElem?_append_right (Nat.le_refl _), Nat.sub_self]
          rfl
        have herase : (s.unexpected ++ [(s.nextReq, destworldrank)]).eraseIdx s.unexpected.length =
            s.unexpected := by
          rw [List.eraseIdx_append_of_length_le (Nat.le_refl _), Nat.sub_self]
          exact List.append_nil _
        have hinv := (deliver_inv hqueued hlast (update_self ..) rreq.dest rreq.state).post
          (s.posted.eraseIdx k)
        dsimp only at hinv
        rw [herase] at hinv
        unfold deliver at hinv ⊢
        dsimp only at hinv ⊢
        rw [selfSendState_flag] at hinv ⊢
        cases hflag : getSelfZerocopyFlag rreq.state with
        | true =>
          rw [hflag] at hinv
          simp only [setSreq, handOver, update_idem] at hinv ⊢
          exact hinv
        | false =>
          rw [hflag] at hinv
          simp only [setSreq, mpiuFree, update_idem] at hinv ⊢
          exact hinv
      · exact nomatch hok

theorem placed_remote {rank destworldrank : Nat} (hplaced : Placed comm rank)
    (hdest : comm.rtwMap[rank]? = some destworldrank) (hremote : place destworldrank ≠ comm.pRank) :
    fgIsWithinSameHWP destworldrank comm = .ok false :=
  (fgIsWithinSameHWP_eq comm destworldrank).mpr ((hplaced _ hdest).resolve_left hremote)

theorem izsend_inv (h : Inv s) {rank : Nat}
    (hplaced : Placed comm rank) (hok : step s (.izsend comm rank buf found) = .ok t) : Inv t := by
  rw [step] at hok
  split at hok
  · rename_i hcaller
    obtain ⟨hrank, howner⟩ := hcaller
    obtain ⟨world, -, hold⟩ := Option.map_eq_some_iff.mp howner
    have hdest := List.getElem?_eq_getElem hrank
    unfold izsend at hok
    rw [rtwPmapFind_eq comm hdest] at hok
    dsimp only at hok
    split at hok
    · exact isendSelf_inv h hold.symm hok
    · rename_i hself
      rw [not_or] at hself
      obtain rfl := Except.ok.inj hok
      have htest := placed_remote hplaced hdest hself.2
      exact h.start hold.symm (r := ⟨remoteSendState, _, comm, buf, false, false, .remote⟩) rfl rfl
        (.inr ⟨rfl, rfl, htest, rfl⟩)
  · exact nomatch hok

theorem recv_inv (h : Inv s) {zerocopy : Bool} (hok : recv s world zerocopy found = .ok t) : Inv t := by
  unfold recv at hok
  cases found with
  | none =>
    obtain rfl := Except.ok.inj hok
    exact h.post _
  | some k =>
    dsimp only at hok
    cases hk : s.unexpected[k]? with
    | none =>
      rw [hk] at hok
      exact nomatch hok
    | some entry =>
      obtain ⟨req, dest⟩ := entry
      rw [hk] at hok
      dsimp only at hok
      split at hok
      · unfold recvFromSelf at hok
        dsimp only at hok
        cases hr : s.sreqs req with
        | none =>
          rw [hr] at hok
          exact nomatch hok
        | some sreq =>
          rw [hr] at hok
          obtain rfl := Except.ok.inj hok
          exact deliver_inv h hk hr world _
      · exact nomatch hok

section
variable (h : Inv s) (hr : s.sreqs req = some r)
include h hr

theorem Inv.touch {r' : Sreq place}
    (hstate : r'.state = r.state) (hdest : r'.destRank = r.destRank) (hcomm : r'.comm = r.comm)
    (hbuf : r'.buf = r.buf) (hfate : r'.fate = r.fate)
    (hwaited : r.fate = .remote → r'.waited = r.waited) : Inv (setSreq s req r') := by
  have hback : ∀ q x, (setSreq s req r').sreqs q = some x → ∃ y, s.sreqs q = some y ∧
      x.state = y.state ∧ fgIsWithinSameHWP x.destRank x.comm = fgIsWithinSameHWP y.destRank y.comm ∧
      x.buf = y.buf ∧ x.fate = y.fate ∧ (y.fate = .remote → x.waited = y.waited) := by
    intro q x hx
    rcases update_eq.mp hx with ⟨rfl, heq⟩ | ⟨-, hx⟩
    · obtain rfl := Option.some.inj heq
      exact ⟨r, hr, hstate, by rw [hdest, hcomm], hbuf, hfate, hwaited⟩
    · exact ⟨x, hx, rfl, rfl, rfl, rfl, fun _ => rfl⟩
  have hforth : ∀ q y, s.sreqs q = some y → ∃ x, (setSreq s req r').sreqs q = some x ∧
      x.buf = y.buf ∧ x.fate = y.fate ∧ (y.fate = .remote → x.waited = y.waited) := by
    intro q y hy
    by_cases hq : q = req
    · subst hq
      rw [hr] at hy
      obtain rfl := Option.some.inj hy
      exact ⟨r', update_self .., hbuf, hfate, hwaited⟩
    · exact ⟨y, by rw [setSreq]; dsimp only; rw [update_of_ne hq]; exact hy, rfl, rfl, fun _ => rfl⟩
  refine ⟨?_, h.newBuf, ?_, ?_, ?_, ?_, h.distinct, ?_, ?_, h.freed, h.once⟩
  · intro q hq
    have hne : q ≠ req := by
      rintro rfl
      rw [h.newReq q hq] at hr
      exact nomatch hr
    exact update_eq.mpr (.inr ⟨hne, h.newReq q hq⟩)
  · intro q x hx hne
    obtain ⟨y, hy, hs, -, -, hf, -⟩ := hback q x hx
    rw [hs]
    exact h.self q y hy (hf ▸ hne)
  · intro q x hx hremote
    obtain ⟨y, hy, hs, ht, -, hf, -⟩ := hback q x hx
    rw [hs, ht]
    exact h.remote q y hy (hf ▸ hremote)
  · intro b q
    rw [show (setSreq s req r').holder = s.holder from rfl, h.flight]
    constructor
    · rintro ⟨y, hy, hb, haway⟩
      obtain ⟨x, hx, hxb, hxf, hxw⟩ := hforth q y hy
      refine ⟨x, hx, hxb.trans hb, haway.imp (fun hq => hxf.trans hq) fun hand => ?_⟩
      exact ⟨hxf.trans hand.1, (hxw hand.1).trans hand.2⟩
    · rintro ⟨x, hx, hb, haway⟩
      obtain ⟨y, hy, -, -, hxb, hxf, hxw⟩ := hback q x hx
      refine ⟨y, hy, hxb.symm.trans hb, haway.imp (fun hq => hxf.symm.trans hq) fun hand => ?_⟩
      have hremote := hxf.symm.trans hand.1
      exact ⟨hremote, (hxw hremote).symm.trans hand.2⟩
  · intro q
    rw [show (setSreq s req r').unexpected = s.unexpected from rfl, h.queue]
    constructor
    · rintro ⟨y, hy, hf⟩
      obtain ⟨x, hx, -, hxf, -⟩ := hforth q y hy
      exact ⟨x, hx, hxf.trans hf⟩
    · rintro ⟨x, hx, hf⟩
      obtain ⟨y, hy, -, -, -, hxf, -⟩ := hback q x hx
      exact ⟨y, hy, hxf.symm.trans hf⟩
  · intro q x hx
    obtain ⟨y, hy, -, -, -, hxf, hxw⟩ := hback q x hx
    have hold := h.exact q y hy
    change freesOf s q = _
    rw [hold]
    refine if_congr (or_congr (by rw [hxf]) ?_) rfl rfl
    rw [hxf]
    exact and_congr_right fun hremote => by rw [hxw hremote]
  · intro q hnone
    rcases update_eq.mp hnone with ⟨-, heq⟩ | ⟨-, hnone⟩
    · exact nomatch heq
    · exact h.none q hnone

theorem bufferFree_eq :
    bufferFree s req r = .ok (if r.fate = .remote then mpiuFree s req r.buf else s) := by
  unfold bufferFree
  by_cases hremote : r.fate = .remote
  · obtain ⟨hstate, htest⟩ := h.remote req r hr hremote
    rw [hstate, if_pos ⟨remoteSendState_type, remoteSendState_flag⟩, htest, if_pos hremote]
  · rw [h.self req r hr hremote, if_neg (fun hand => selfSendState_type hand.1), if_neg hremote]

theorem wait_ok
    (hcomplete : r.complete = true) (hwaited : r.waited = false) :
    ∃ t, wait s req = .ok t ∧ Inv t := by
  unfold wait
  rw [hr]
  dsimp only
  rw [if_pos ⟨hcomplete, hwaited⟩, bufferFree_eq h hr]
  refine ⟨_, rfl, ?_⟩
  by_cases hremote : r.fate = .remote
  · rw [if_pos hremote]
    have hdone : ¬ ({ r with waited := true } : Sreq place).away := by
      rintro (hf | ⟨-, hf⟩)
      · rw [hremote] at hf
        exact nomatch hf
      · exact nomatch hf
    refine h.release hr (.inr ⟨hremote, hwaited⟩) hdone ?_ ?_ ?_
      h.distinct (.inr ⟨rfl, rfl, .inr ⟨hremote, rfl⟩⟩)
    · exact fun hne => absurd hremote hne
    · exact fun _ => h.remote req r hr hremote
    · intro q
      refine ⟨fun hq => ⟨?_, hq⟩, fun hand => hand.2⟩
      rintro rfl
      obtain ⟨r', hr', hf⟩ := (h.queue q).mp hq
      rw [hr] at hr'
      obtain rfl := Option.some.inj hr'
      rw [hremote] at hf
      exact nomatch hf
  · rw [if_neg hremote]
    exact h.touch hr rfl rfl rfl rfl rfl fun hf => absurd hf hremote

end

theorem step_inv (h : Inv s) {e : Event place} (hplaced : e.Placed) (hok : step s e = .ok t) : Inv t := by
  cases e with
  | malloc world =>
    obtain rfl := Except.ok.inj hok
    have hnobody := (h.newBuf s.nextBuf).mpr (Nat.le_refl _)
    exact h.hold (.inl hnobody) (.inl ⟨world, rfl⟩) fun b => by omega
  | free world buf =>
    rw [step] at hok
    split at hok
    · rename_i hold
      obtain rfl := Except.ok.inj hok
      refine h.hold (.inr ⟨world, hold⟩) (.inr rfl) fun b => ⟨fun hand => hand.2, fun hb => ⟨?_, hb⟩⟩
      rintro rfl
      rw [(h.newBuf b).mpr hb] at hold
      exact nomatch hold
    · exact nomatch hok
  | izsend comm rank buf found => exact izsend_inv h hplaced hok
  | recv world zerocopy found => exact recv_inv h hok
  | sent req =>
    rw [step] at hok
    cases hr : s.sreqs req with
    | none =>
      rw [hr] at hok
      exact nomatch hok
    | some r =>
      rw [hr] at hok
      dsimp only at hok
      split at hok
      · obtain rfl := Except.ok.inj hok
        exact h.touch hr rfl rfl rfl rfl rfl fun _ => rfl
      · exact nomatch hok
  | wait req =>
    change wait s req = .ok t at hok
    unfold wait at hok
    cases hr : s.sreqs req with
    | none =>
      rw [hr] at hok
      exact nomatch hok
    | some r =>
      rw [hr] at hok
      dsimp only at hok
      split at hok
      · rename_i hready
        obtain ⟨t', ht', hinv⟩ := wait_ok h hr hready.1 hready.2
        unfold wait at ht'
        rw [hr] at ht'
        dsimp only at ht'
        rw [if_pos hready] at ht'
        rw [hok] at ht'
        obtain rfl := Except.ok.inj ht'
        exact hinv
      · exact nomatch hok

theorem run_inv (h : Inv s) {es : List (Event place)} (hplaced : ∀ e ∈ es, e.Placed)
    (hrun : Runs.run step s es = .ok t) : Inv t := by
  induction es generalizing s with
  | nil =>
    obtain rfl := Except.ok.inj hrun
    exact h
  | cons e es ih =>
    obtain ⟨u, hu, hrest⟩ := Runs.run_cons_eq_ok hrun
    exact ih (step_inv h (hplaced e List.mem_cons_self) hu)
      (fun e' he' => hplaced e' (List.mem_cons_of_mem _ he')) hrest

/-- In every run whose sends are all placed so, buffers are freed as they should be, and no complete
request fails when it is waited for. -/
theorem izsend_owned (place : Nat → Nat) (es : List (Event place)) (s : State place)
    (hrun : Runs.run step init es = .ok s) (hplaced : ∀ e ∈ es, e.Placed) :
    Owned s ∧ ∀ h r, s.sreqs h = some r → r.complete = true → r.waited = false →
      ∃ t, step s (.wait h) = .ok t := by
  have hinv := run_inv init_inv hplaced hrun
  refine ⟨hinv.owned, fun h r hr hcomplete hwaited => ?_⟩
  obtain ⟨t, ht, -⟩ := wait_ok hinv hr hcomplete hwaited
  exact ⟨t, ht⟩

end Ownership

def apart (world : Nat) : Nat := if world = 1 then 1 else 0

def worldComm : Comm apart := ⟨true, [0, 1, 2], 0, 0, by decide, by decide, rfl⟩

def swappedComm : Comm apart := ⟨false, [0, 2, 1], 0, 0, by decide, by decide, rfl⟩

def worldRun : List (Event apart) :=
  [.malloc 0, .malloc 0, .malloc 0, .izsend worldComm 2 0 none, .recv 2 true (some 0), .recv 2 false none,
    .izsend worldComm 2 1 (some 0), .izsend worldComm 1 2 none, .sent 2, .wait 0, .wait 1, .wait 2]

theorem izsend_owned_world : ∃ s, Runs.run step init worldRun = .ok s ∧ Owned s ∧
    s.frees = [(1, 1), (2, 2)] ∧ s.holder 0 = .process 2 := by
  have hplaced : ∀ rank, Placed worldComm rank := by
    intro rank destworldrank hdest
    match rank with
    | 0 => exact .inl (by cases hdest; rfl)
    | 1 => exact .inr ⟨1, by cases hdest; rfl, by decide⟩
    | 2 => exact .inl (by cases hdest; rfl)
    | rank + 3 => exact nomatch hdest
  have hend : ∃ s, Runs.run step init worldRun = .ok s ∧ s.frees = [(1, 1), (2, 2)] ∧
      s.holder 0 = .process 2 := ⟨_, rfl, rfl, rfl⟩
  obtain ⟨s, hrun, hfrees, hholder⟩ := hend
  refine ⟨s, hrun, (izsend_owned apart worldRun s hrun ?_).1, hfrees, hholder⟩
  intro e he
  simp only [worldRun, List.mem_cons, List.not_mem_nil, or_false] at he
  rcases he with rfl | rfl | rfl | rfl | rfl | rfl | rfl | rfl | rfl | rfl | rfl | rfl
  all_goals first | exact trivial | exact hplaced _

theorem izsend_leaked : ∃ s : State apart,
    Runs.run step init [.malloc 0, .izsend swappedComm 2 0 none, .sent 0, .wait 0] = .ok s ∧ ¬ Owned s := by
  refine ⟨_, rfl, fun howned => ?_⟩
  have hone := howned.exact 0 _ rfl
  exact absurd hone (by decide)

end FgMpi.Zerocopy
