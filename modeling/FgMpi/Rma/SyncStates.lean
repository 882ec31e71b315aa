import FgMpi.Machine.Checked
import FgMpi.Machine.Runs

/-! The access state of a window (`mpid/ch3/src/ch3u_rma_sync.c`). -/

namespace FgMpi.Rma.SyncStates
open Machine.Checked Machine.Runs

/-- `MPIDI_RMA_states`, the states of a window, `include/mpidpre.h:258`. -/
inductive RmaState
  | none
  | fenceIssued
  | fenceGranted
  | pscwIssued
  | pscwGranted
  | pscwExpo
  | perTarget
  | lockAllCalled
  | lockAllIssued
  | lockAllGranted
deriving Repr, DecidableEq

/-- Where a call waits: `MPID_Win_fence` before `MPIR_Ibarrier_impl`, in
`MPIR_Reduce_scatter_block_impl`, and for the operations of the epoch; `MPID_Win_start` for the
receives from its own node; `MPID_Win_complete` for the state, and for the operations. -/
inductive Call
  | idle
  | ibarrier
  | reduceScatter (noSucceed : Bool)
  | fenceFlush (scalable noSucceed : Bool)
  | startWait
  | completeWait
  | completeFlush
deriving Repr, DecidableEq

/-- `fences` and `starts` are the requests that have not completed yet and have the callback
`fence_barrier_complete` or `start_req_complete`. -/
structure Win where
  accessState : RmaState := .none
  exposureState : RmaState := .none
  syncRequestCnt : Int := 0
  lockEpochCount : Int := 0
  fences : Nat := 0
  starts : Nat := 0
  call : Call := .idle
deriving Repr, DecidableEq

/-- `rmaSync` is `MPI_ERR_RMA_SYNC`, an illegal call; `absent` is an event that cannot happen. -/
inductive Fault
  | rmaSync
  | assertion
  | absent
deriving Repr, DecidableEq

def fenceBarrierComplete (w : Win) : Except Fault Win := do
  require (0 < w.fences) .absent
  let cnt := w.syncRequestCnt - 1
  require (0 ≤ cnt) .assertion
  .ok { w with
    syncRequestCnt := cnt
    fences := w.fences - 1
    accessState :=
      if cnt = 0 then
        if w.accessState = .fenceIssued then .fenceGranted else w.accessState
      else w.accessState }

def startReqComplete (w : Win) : Except Fault Win := do
  require (0 < w.starts) .absent
  let cnt := w.syncRequestCnt - 1
  require (0 ≤ cnt) .assertion
  .ok { w with
    syncRequestCnt := cnt
    starts := w.starts - 1
    accessState := if cnt = 0 then .pscwGranted else w.accessState }

def Free (s : RmaState) : Prop := s = .none ∨ s = .fenceIssued ∨ s = .fenceGranted

instance (s : RmaState) : Decidable (Free s) := inferInstanceAs (Decidable (_ ∨ _))

/-- `MPID_Win_fence`, up to the first point where it waits.  `scalable` is
`scalable_fence_enabled`. -/
def fence (w : Win) (scalable noPrecede noSucceed : Bool) : Except Fault Win := do
  require (w.call = .idle) .absent
  require (Free w.accessState ∧ w.exposureState = .none) .rmaSync
  if noPrecede then
    if noSucceed then .ok w else .ok { w with call := .ibarrier }
  else if scalable then .ok { w with call := .fenceFlush true noSucceed }
  else .ok { w with call := .reduceScatter noSucceed }

/-- What `MPIR_Ibarrier_impl` returns: no request, a request that is complete, or one that is not. -/
inductive Ibarrier
  | null
  | complete
  | pending
deriving Repr, DecidableEq

/-- After `MPIR_Ibarrier_impl`, the same code twice: lines 530-552 and 655-676. -/
def fenceSync (w : Win) (req : Ibarrier) : Except Fault Win := do
  require (w.call = .ibarrier) .absent
  match req with
  | .null | .complete => .ok { w with accessState := .fenceGranted, call := .idle }
  | .pending =>
    .ok { w with
      accessState := .fenceIssued
      syncRequestCnt := w.syncRequestCnt + 1
      fences := w.fences + 1
      call := .idle }

def fenceReduced (w : Win) : Except Fault Win :=
  match w.call with
  | .reduceScatter noSucceed =>
    .ok { w with accessState := .fenceGranted, call := .fenceFlush false noSucceed }
  | _ => .error .absent

def fenceFlushed (w : Win) : Except Fault Win :=
  match w.call with
  | .fenceFlush scalable noSucceed =>
    if noSucceed then .ok { w with accessState := .none, call := .idle }
    else if scalable then .ok { w with accessState := .fenceGranted, call := .idle }
    else .ok { w with call := .ibarrier }
  | _ => .error .absent

/-- A receive that `MPID_Win_start` posts: none for the process itself, one that is waited for in
the call, or one from another node that has or has not completed. -/
inductive Recv
  | self
  | intra
  | complete
  | pending
deriving Repr, DecidableEq

/-- The end of `MPID_Win_start`, lines 936-940. -/
def startIssued (w : Win) : Win :=
  { w with
    accessState := if w.syncRequestCnt = 0 then .pscwGranted else .pscwIssued
    call := .idle }

/-- `MPID_Win_start`, up to the point where it waits. -/
def start (w : Win) (noCheck : Bool) (recvs : List Recv) : Except Fault Win := do
  require (w.call = .idle) .absent
  require (Free w.accessState) .rmaSync
  if noCheck then .ok (startIssued w)
  else
    let w := { w with
      syncRequestCnt := w.syncRequestCnt + recvs.count .pending
      starts := w.starts + recvs.count .pending }
    if Recv.intra ∈ recvs then .ok { w with call := .startWait }
    else .ok (startIssued w)

def startWaited (w : Win) : Except Fault Win := do
  require (w.call = .startWait) .absent
  .ok (startIssued w)

/-- `MPID_Win_complete`, up to the point where it waits. -/
def complete (w : Win) : Except Fault Win := do
  require (w.call = .idle) .absent
  require (w.accessState = .pscwIssued ∨ w.accessState = .pscwGranted) .rmaSync
  .ok { w with call := .completeWait }

def completeGranted (w : Win) : Except Fault Win := do
  require (w.call = .completeWait ∧ w.accessState = .pscwGranted) .absent
  .ok { w with call := .completeFlush }

def completeFlushed (w : Win) : Except Fault Win := do
  require (w.call = .completeFlush) .absent
  .ok { w with accessState := .none, call := .idle }

/-- `MPID_Win_lock`; `found` says that there is a target object for `dest` already. -/
def lock (w : Win) (found : Bool) : Except Fault Win := do
  require (w.call = .idle) .absent
  require (if w.lockEpochCount = 0 then Free w.accessState else w.accessState = .perTarget) .rmaSync
  require (found = false) .rmaSync
  .ok { w with
    accessState := if w.lockEpochCount = 0 then .perTarget else w.accessState
    lockEpochCount := w.lockEpochCount + 1 }

def unlock (w : Win) : Except Fault Win := do
  require (w.call = .idle) .absent
  require (w.accessState = .perTarget) .rmaSync
  .ok { w with
    lockEpochCount := w.lockEpochCount - 1
    accessState := if w.lockEpochCount - 1 = 0 then .none else w.accessState }

def lockAll (w : Win) (noCheck : Bool) : Except Fault Win := do
  require (w.call = .idle) .absent
  require (Free w.accessState) .rmaSync
  .ok { w with accessState := if noCheck then .lockAllGranted else .lockAllCalled }

def unlockAll (w : Win) : Except Fault Win := do
  require (w.call = .idle) .absent
  require (w.accessState = .lockAllCalled ∨ w.accessState = .lockAllIssued ∨
    w.accessState = .lockAllGranted) .rmaSync
  .ok { w with accessState := .none }

/-- `MPIDI_CH3I_RMA_Cleanup_target_aggressive` switches to the window-wide protocol. -/
def lockAllIssue (w : Win) : Except Fault Win := do
  require (w.accessState = .lockAllCalled) .absent
  .ok { w with accessState := .lockAllIssued }

/-- `handle_lock_ack`, for the last lock of the window-wide protocol. -/
def lockAllAcked (w : Win) : Except Fault Win := do
  require (w.accessState = .lockAllIssued) .absent
  .ok { w with accessState := .lockAllGranted }

def post (w : Win) : Except Fault Win := do
  require (w.call = .idle) .absent
  require (w.exposureState = .none) .rmaSync
  .ok { w with exposureState := .pscwExpo }

/-- `MPID_Win_wait`, and `MPID_Win_test` with `flag` set. -/
def wait (w : Win) : Except Fault Win := do
  require (w.call = .idle) .absent
  require (w.exposureState = .pscwExpo) .rmaSync
  .ok { w with exposureState := .none }

inductive Event
  | fence (scalable noPrecede noSucceed : Bool)
  | fenceSync (req : Ibarrier)
  | fenceReduced
  | fenceFlushed
  | start (noCheck : Bool) (recvs : List Recv)
  | startWaited
  | complete
  | completeGranted
  | completeFlushed
  | lock (found : Bool)
  | unlock
  | lockAll (noCheck : Bool)
  | unlockAll
  | lockAllIssue
  | lockAllAcked
  | post
  | wait
  | fenceCallback
  | startCallback
deriving Repr, DecidableEq

def step (w : Win) : Event → Except Fault Win
  | .fence scalable noPrecede noSucceed => fence w scalable noPrecede noSucceed
  | .fenceSync req => fenceSync w req
  | .fenceReduced => fenceReduced w
  | .fenceFlushed => fenceFlushed w
  | .start noCheck recvs => start w noCheck recvs
  | .startWaited => startWaited w
  | .complete => complete w
  | .completeGranted => completeGranted w
  | .completeFlushed => completeFlushed w
  | .lock found => lock w found
  | .unlock => unlock w
  | .lockAll noCheck => lockAll w noCheck
  | .unlockAll => unlockAll w
  | .lockAllIssue => lockAllIssue w
  | .lockAllAcked => lockAllAcked w
  | .post => post w
  | .wait => wait w
  | .fenceCallback => fenceBarrierComplete w
  | .startCallback => startReqComplete w

def Fits : Call → RmaState → Prop
  | .idle, _ => True
  | .ibarrier, s | .reduceScatter _, s | .fenceFlush _ _, s => Free s
  | .startWait, s => Free s ∨ s = .pscwGranted
  | .completeWait, s => s = .pscwIssued ∨ s = .pscwGranted
  | .completeFlush, s => s = .pscwGranted

/-- While `MPID_Win_start` waits, the state is still that of the fence before, and is about to be
replaced. -/
structure Awaited (w : Win) : Prop where
  counted : w.syncRequestCnt = w.fences + w.starts
  fence : w.accessState = .fenceIssued → 0 < w.fences ∨ w.call = .startWait ∧ 0 < w.starts
  pscw : w.accessState = .pscwIssued → 0 < w.starts

structure Steady (w : Win) : Prop extends Awaited w where
  fits : Fits w.call w.accessState
  posted : 0 < w.starts → w.accessState = .pscwIssued ∨ w.call = .startWait

/-- The last start callback does not come before a fence callback, neither after `MPID_Win_start` has
set the state nor before. -/
def InOrder (w : Win) : Event → Prop
  | .startCallback => w.accessState = .pscwIssued → w.starts = 1 → w.fences = 0
  | .start noCheck recvs =>
    noCheck = true ∨ Recv.intra ∉ recvs → w.fences ≠ 0 → noCheck = false ∧ Recv.pending ∈ recvs
  | .startWaited => w.fences ≠ 0 → w.starts ≠ 0
  | _ => True

instance (w : Win) (e : Event) : Decidable (InOrder w e) :=
  match e with
  | .startCallback => inferInstanceAs (Decidable (_ → _))
  | .start noCheck recvs => inferInstanceAs (Decidable (noCheck = true ∨ Recv.intra ∉ recvs → _))
  | .startWaited => inferInstanceAs (Decidable (_ → _))
  | .fence _ _ _ | .fenceSync _ | .fenceReduced | .fenceFlushed | .complete | .completeGranted
  | .completeFlushed | .lock _ | .unlock | .lockAll _ | .unlockAll | .lockAllIssue
  | .lockAllAcked | .post | .wait | .fenceCallback => inferInstanceAs (Decidable True)

theorem init_steady : Steady {} where
  counted := rfl
  fence h := by cases h
  pscw h := by cases h
  fits := trivial
  posted h := by cases h

variable {w w' : Win}

theorem Steady.starts_eq (h : Steady w) (hcall : w.call ≠ .startWait)
    (hstate : w.accessState ≠ .pscwIssued) : w.starts = 0 := by
  rcases Nat.eq_zero_or_pos w.starts with h0 | hpos
  · exact h0
  · rcases h.posted hpos with hp | hp
    · exact absurd hp hstate
    · exact absurd hp hcall

theorem Free.ne_pscwIssued {s : RmaState} (h : Free s) : s ≠ .pscwIssued := by
  rintro rfl
  simp [Free] at h

theorem startIssued_steady (hcounted : w.syncRequestCnt = w.fences + w.starts)
    (horder : w.fences ≠ 0 → w.starts ≠ 0) : Steady (startIssued w) := by
  unfold startIssued
  by_cases hcnt : w.syncRequestCnt = 0
  · simp only [hcnt, if_true]
    refine ⟨⟨by dsimp only; omega, ?_, ?_⟩, trivial, ?_⟩
    · intro h
      cases h
    · intro h
      cases h
    · intro hpos
      simp only at hpos
      omega
  · simp only [hcnt, if_false]
    refine ⟨⟨hcounted, ?_, ?_⟩, trivial, ?_⟩
    · intro h
      cases h
    · intro _
      simp only
      omega
    · intro _
      exact Or.inl rfl

section
variable (h : Steady w)
include h

theorem fenceBarrierComplete_steady (hstep : fenceBarrierComplete w = .ok w') : Steady w' := by
  obtain ⟨⟨hcounted, hfence, hpscw⟩, hfits, hposted⟩ := h
  simp only [fenceBarrierComplete, require_bind_eq_ok, Except.ok.injEq] at hstep
  obtain ⟨hpos, hcnt, rfl⟩ := hstep
  by_cases h0 : w.syncRequestCnt - 1 = 0
  · by_cases hs : w.accessState = .fenceIssued
    · simp only [h0, hs, if_true]
      refine ⟨⟨by dsimp only; omega, ?_, ?_⟩, ?_, ?_⟩
      · intro h
        cases h
      · intro h
        cases h
      · rw [hs] at hfits
        cases hcall : w.call <;> simp_all [Fits, Free]
      · intro hstarts
        simp only at hstarts
        omega
    · simp only [h0, hs, if_true, if_false]
      refine ⟨⟨by dsimp only; omega, fun h => absurd h hs, ?_⟩, hfits, hposted⟩
      intro h
      exact hpscw h
  · simp only [h0, if_false]
    refine ⟨⟨by dsimp only; omega, ?_, hpscw⟩, hfits, hposted⟩
    intro h
    rcases hfence h with hf | hf
    · rcases Nat.eq_zero_or_pos (w.fences - 1) with h1 | h1
      · -- the fence was the last one, and the callbacks left are those of a start that waits
        refine Or.inr ?_
        have hstarts : 0 < w.starts := by omega
        rcases hposted hstarts with hp | hp
        · rw [h] at hp
          cases hp
        · exact ⟨hp, hstarts⟩
      · exact Or.inl h1
    · exact Or.inr hf

theorem startReqComplete_steady (horder : InOrder w .startCallback)
    (hstep : startReqComplete w = .ok w') : Steady w' := by
  obtain ⟨⟨hcounted, hfence, hpscw⟩, hfits, hposted⟩ := h
  simp only [startReqComplete, require_bind_eq_ok, Except.ok.injEq] at hstep
  obtain ⟨hpos, hcnt, rfl⟩ := hstep
  by_cases h0 : w.syncRequestCnt - 1 = 0
  · simp only [h0, if_true]
    refine ⟨⟨by dsimp only; omega, ?_, ?_⟩, ?_, ?_⟩
    · intro h
      cases h
    · intro h
      cases h
    · rcases hposted hpos with hp | hp
      · rw [hp] at hfits
        cases hcall : w.call <;> simp_all [Fits, Free]
      · rw [hp]
        exact Or.inr rfl
    · intro hstarts
      simp only at hstarts
      omega
  · simp only [h0, if_false]
    refine ⟨⟨by dsimp only; omega, ?_, ?_⟩, hfits, ?_⟩
    · intro h
      rcases hfence h with hf | ⟨hf, hs⟩
      · exact Or.inl hf
      · rcases Nat.eq_zero_or_pos w.fences with h1 | h1
        · exact Or.inr ⟨hf, by simp only; omega⟩
        · exact Or.inl h1
    · intro h
      have h1 := horder h
      simp only
      omega
    · intro hstarts
      refine hposted ?_
      simp only at hstarts
      omega

theorem Steady.set (s x : RmaState) (n : Int) (c : Call)
    (hcall : w.call ≠ .startWait) (hstate : w.accessState ≠ .pscwIssued)
    (hs : s = w.accessState ∨ s ≠ .fenceIssued ∧ s ≠ .pscwIssued) (hfits : Fits c s) :
    Steady { w with accessState := s, exposureState := x, lockEpochCount := n, call := c } := by
  have hstarts := h.starts_eq hcall hstate
  refine ⟨⟨h.counted, ?_, ?_⟩, hfits, ?_⟩
  · intro hfence
    rcases hs with rfl | hne
    · rcases h.fence hfence with hf | ⟨hf, _⟩
      · exact Or.inl hf
      · exact absurd hf hcall
    · exact absurd hfence hne.1
  · intro hissued
    rcases hs with rfl | hne
    · exact absurd hissued hstate
    · exact absurd hissued hne.2
  · intro hpos
    simp only [hstarts] at hpos
    omega

theorem Steady.setIdle (s x : RmaState) (n : Int) (hidle : w.call = .idle) (hstate : w.accessState ≠ .pscwIssued)
    (hs : s = w.accessState ∨ s ≠ .fenceIssued ∧ s ≠ .pscwIssued) :
    Steady { w with accessState := s, exposureState := x, lockEpochCount := n } :=
  h.set s x n w.call (by rw [hidle]; decide) hstate hs (by rw [hidle]; trivial)

theorem start_steady {noCheck : Bool} {recvs : List Recv}
    (horder : InOrder w (.start noCheck recvs)) (hstep : start w noCheck recvs = .ok w') :
    Steady w' := by
  simp only [start, require_bind_eq_ok] at hstep
  obtain ⟨hidle, hfree, hstep⟩ := hstep
  have hstarts : w.starts = 0 := h.starts_eq (by rw [hidle]; decide) hfree.ne_pscwIssued
  have hcounted := h.counted
  split at hstep
  · rename_i hno
    cases hstep
    refine startIssued_steady hcounted ?_
    intro hf
    have := (horder (Or.inl hno) hf).1
    rw [hno] at this
    cases this
  · split at hstep
    · cases hstep
      refine ⟨⟨by dsimp only; omega, ?_, fun hp => absurd hp hfree.ne_pscwIssued⟩, Or.inl hfree,
        fun _ => Or.inr rfl⟩
      intro hf
      rcases h.fence hf with hpos | ⟨hwait, _⟩
      · exact Or.inl hpos
      · rw [hidle] at hwait
        cases hwait
    · rename_i hintra
      cases hstep
      refine startIssued_steady (by dsimp only; omega) ?_
      intro hf
      have hpending := (horder (Or.inr hintra) hf).2
      have := List.count_pos_iff.mpr hpending
      dsimp only
      omega

theorem fence_steady {scalable noPrecede noSucceed : Bool} (hstep : fence w scalable noPrecede noSucceed = .ok w') :
    Steady w' := by
  simp only [fence, require_bind_eq_ok] at hstep
  obtain ⟨hidle, ⟨hfree, _⟩, hstep⟩ := hstep
  have hcall : w.call ≠ .startWait := by rw [hidle]; decide
  have hset : ∀ c, Fits c w.accessState → Steady { w with call := c } := fun c hc =>
    h.set _ _ _ c hcall hfree.ne_pscwIssued (Or.inl rfl) hc
  split at hstep
  · split at hstep
    · cases hstep
      exact h
    · cases hstep
      exact hset _ hfree
  · split at hstep
    · cases hstep
      exact hset _ hfree
    · cases hstep
      exact hset _ hfree

theorem fenceSync_steady {req : Ibarrier} (hstep : fenceSync w req = .ok w') : Steady w' := by
  have hfits := h.fits
  simp only [fenceSync, require_bind_eq_ok] at hstep
  obtain ⟨hcall, hstep⟩ := hstep
  rw [hcall] at hfits
  have hwait : w.call ≠ .startWait := by rw [hcall]; decide
  have hstarts := h.starts_eq hwait (Free.ne_pscwIssued hfits)
  have hgranted : Steady { w with accessState := .fenceGranted, call := .idle } :=
    h.set .fenceGranted _ _ .idle hwait (Free.ne_pscwIssued hfits) (Or.inr (by decide)) trivial
  cases req with
  | null =>
    cases hstep
    exact hgranted
  | complete =>
    cases hstep
    exact hgranted
  | pending =>
    cases hstep
    have hcounted := h.counted
    refine ⟨⟨by dsimp only; omega, fun _ => Or.inl (Nat.succ_pos _), ?_⟩, trivial, ?_⟩
    · intro hp
      cases hp
    · intro hpos
      simp only [hstarts] at hpos
      omega

theorem fenceReduced_steady (hstep : fenceReduced w = .ok w') : Steady w' := by
  have hfits := h.fits
  simp only [fenceReduced] at hstep
  split at hstep
  · rename_i noSucceed hcall
    cases hstep
    rw [hcall] at hfits
    have hwait : w.call ≠ .startWait := by rw [hcall]; intro hc; cases hc
    exact h.set .fenceGranted _ _ (.fenceFlush false noSucceed) hwait (Free.ne_pscwIssued hfits)
      (Or.inr (by decide)) (Or.inr (Or.inr rfl))
  · cases hstep

theorem fenceFlushed_steady (hstep : fenceFlushed w = .ok w') : Steady w' := by
  have hfits := h.fits
  simp only [fenceFlushed] at hstep
  split at hstep
  · rename_i scalable noSucceed hcall
    rw [hcall] at hfits
    have hwait : w.call ≠ .startWait := by rw [hcall]; intro hc; cases hc
    have hne := Free.ne_pscwIssued hfits
    split at hstep
    · cases hstep
      exact h.set .none _ _ .idle hwait hne (Or.inr (by decide)) trivial
    · split at hstep
      · cases hstep
        exact h.set .fenceGranted _ _ .idle hwait hne (Or.inr (by decide)) trivial
      · cases hstep
        exact h.set _ _ _ .ibarrier hwait hne (Or.inl rfl) hfits
  · cases hstep

theorem complete_steady (hstep : complete w = .ok w') : Steady w' := by
  simp only [complete, require_bind_eq_ok] at hstep
  obtain ⟨hidle, hstate, hstep⟩ := hstep
  cases hstep
  refine ⟨⟨h.counted, ?_, h.pscw⟩, hstate, ?_⟩
  · intro hf
    rcases h.fence hf with hpos | ⟨hwait, _⟩
    · exact Or.inl hpos
    · rw [hidle] at hwait
      cases hwait
  · intro hpos
    rcases h.posted hpos with hp | hwait
    · exact Or.inl hp
    · rw [hidle] at hwait
      cases hwait

theorem completeGranted_steady (hstep : completeGranted w = .ok w') : Steady w' := by
  simp only [completeGranted, require_bind_eq_ok] at hstep
  obtain ⟨⟨hcall, hstate⟩, hstep⟩ := hstep
  cases hstep
  have hwait : w.call ≠ .startWait := by rw [hcall]; decide
  have hne : w.accessState ≠ .pscwIssued := by rw [hstate]; decide
  exact h.set _ _ _ .completeFlush hwait hne (Or.inl rfl) hstate

theorem completeFlushed_steady (hstep : completeFlushed w = .ok w') : Steady w' := by
  have hfits := h.fits
  simp only [completeFlushed, require_bind_eq_ok] at hstep
  obtain ⟨hcall, hstep⟩ := hstep
  cases hstep
  rw [hcall] at hfits
  have hwait : w.call ≠ .startWait := by rw [hcall]; decide
  have hstate : w.accessState = .pscwGranted := hfits
  exact h.set .none _ _ .idle hwait (by rw [hstate]; decide) (Or.inr (by decide)) trivial

theorem lock_steady {found : Bool} (hstep : lock w found = .ok w') : Steady w' := by
  simp only [lock, require_bind_eq_ok] at hstep
  obtain ⟨hidle, hstate, _, hstep⟩ := hstep
  cases hstep
  split
  · rename_i h0
    rw [if_pos h0] at hstate
    exact h.setIdle .perTarget _ _ hidle hstate.ne_pscwIssued (Or.inr (by decide))
  · rename_i h0
    rw [if_neg h0] at hstate
    exact h.setIdle _ _ _ hidle (by rw [hstate]; decide) (Or.inl rfl)

theorem unlock_steady (hstep : unlock w = .ok w') : Steady w' := by
  simp only [unlock, require_bind_eq_ok] at hstep
  obtain ⟨hidle, hstate, hstep⟩ := hstep
  cases hstep
  refine h.setIdle _ _ _ hidle (by rw [hstate]; decide) ?_
  split
  · exact Or.inr (by decide)
  · exact Or.inl rfl

theorem lockAll_steady {noCheck : Bool} (hstep : lockAll w noCheck = .ok w') : Steady w' := by
  simp only [lockAll, require_bind_eq_ok] at hstep
  obtain ⟨hidle, hfree, hstep⟩ := hstep
  cases hstep
  refine h.setIdle _ _ _ hidle hfree.ne_pscwIssued (Or.inr ?_)
  cases noCheck <;> decide

theorem unlockAll_steady (hstep : unlockAll w = .ok w') : Steady w' := by
  simp only [unlockAll, require_bind_eq_ok] at hstep
  obtain ⟨hidle, hstate, hstep⟩ := hstep
  cases hstep
  refine h.setIdle .none _ _ hidle ?_ (Or.inr (by decide))
  rcases hstate with hs | hs | hs <;> rw [hs] <;> decide

theorem Steady.setLockAll (s : RmaState) (hstate : w.accessState = .lockAllCalled ∨ w.accessState = .lockAllIssued)
    (hs : s ≠ .fenceIssued ∧ s ≠ .pscwIssued) : Steady { w with accessState := s } := by
  have hfits := h.fits
  have hidle : w.call = .idle := by
    rcases hstate with hstate | hstate <;> rw [hstate] at hfits <;> cases hc : w.call <;> simp_all [Fits, Free]
  refine h.setIdle s _ _ hidle ?_ (Or.inr hs)
  rcases hstate with hstate | hstate <;> rw [hstate] <;> decide

theorem step_steady {e : Event} (horder : InOrder w e) (hstep : step w e = .ok w') : Steady w' := by
  cases e with
  | fence scalable noPrecede noSucceed => exact fence_steady h hstep
  | fenceSync req => exact fenceSync_steady h hstep
  | fenceReduced => exact fenceReduced_steady h hstep
  | fenceFlushed => exact fenceFlushed_steady h hstep
  | start noCheck recvs => exact start_steady h horder hstep
  | startWaited =>
    simp only [step, startWaited, require_bind_eq_ok] at hstep
    obtain ⟨_, hstep⟩ := hstep
    cases hstep
    exact startIssued_steady h.counted horder
  | complete => exact complete_steady h hstep
  | completeGranted => exact completeGranted_steady h hstep
  | completeFlushed => exact completeFlushed_steady h hstep
  | lock found => exact lock_steady h hstep
  | unlock => exact unlock_steady h hstep
  | lockAll noCheck => exact lockAll_steady h hstep
  | unlockAll => exact unlockAll_steady h hstep
  | lockAllIssue =>
    simp only [step, lockAllIssue, require_bind_eq_ok] at hstep
    obtain ⟨hstate, hstep⟩ := hstep
    cases hstep
    exact h.setLockAll .lockAllIssued (Or.inl hstate) (by decide)
  | lockAllAcked =>
    simp only [step, lockAllAcked, require_bind_eq_ok] at hstep
    obtain ⟨hstate, hstep⟩ := hstep
    cases hstep
    exact h.setLockAll .lockAllGranted (Or.inr hstate) (by decide)
  | post =>
    simp only [step, post, require_bind_eq_ok] at hstep
    obtain ⟨_, _, hstep⟩ := hstep
    cases hstep
    exact ⟨⟨h.counted, h.fence, h.pscw⟩, h.fits, h.posted⟩
  | wait =>
    simp only [step, wait, require_bind_eq_ok] at hstep
    obtain ⟨_, _, hstep⟩ := hstep
    cases hstep
    exact ⟨⟨h.counted, h.fence, h.pscw⟩, h.fits, h.posted⟩
  | fenceCallback => exact fenceBarrierComplete_steady h hstep
  | startCallback => exact startReqComplete_steady h horder hstep

theorem inOrder_of_awaited {e : Event} (hstep : step w e = .ok w') (h' : Awaited w') : InOrder w e := by
  have hstarted : ∀ v : Win, v.syncRequestCnt = v.fences + v.starts → Awaited (startIssued v) →
      v.fences ≠ 0 → v.starts ≠ 0 := by
    intro v hcounted hv hf h0
    have hcnt : v.syncRequestCnt ≠ 0 := by omega
    have := hv.pscw (by simp only [startIssued, hcnt, if_false])
    simp only [startIssued] at this
    omega
  cases e with
  | startCallback =>
    intro hstate h1
    simp only [step, startReqComplete, require_bind_eq_ok, Except.ok.injEq] at hstep
    obtain ⟨hpos, hcnt, rfl⟩ := hstep
    have hcounted := h.counted
    by_contra hf
    have h0 : w.syncRequestCnt - 1 ≠ 0 := by omega
    have := h'.pscw (by simp only [h0, if_false]; exact hstate)
    simp only at this
    omega
  | start noCheck recvs =>
    intro hend hf
    simp only [step, start, require_bind_eq_ok] at hstep
    obtain ⟨hidle, hfree, hstep⟩ := hstep
    have hstarts : w.starts = 0 := h.starts_eq (by rw [hidle]; decide) hfree.ne_pscwIssued
    have hcounted := h.counted
    split at hstep
    · cases hstep
      exact absurd hstarts (hstarted w hcounted h' hf)
    · rename_i hno
      rcases hend with hc | hintra
      · exact absurd hc hno
      · rw [if_neg hintra] at hstep
        cases hstep
        have := hstarted _ (by dsimp only; omega) h' hf
        dsimp only at this
        refine ⟨by simpa using hno, List.count_pos_iff.mp (by omega)⟩
  | startWaited =>
    simp only [step, startWaited, require_bind_eq_ok] at hstep
    obtain ⟨_, hstep⟩ := hstep
    cases hstep
    exact hstarted w h.counted h'
  | _ => trivial

end

def Event.isCallback : Event → Bool
  | .fenceCallback | .startCallback => true
  | _ => false

def MovesOn (w : Win) : Prop :=
  ∀ cs t, (∀ e ∈ cs, e.isCallback = true) → run step w cs = .ok t → Along step InOrder w cs →
    t.syncRequestCnt = 0 →
    (w.accessState = .fenceIssued → w.call ≠ .startWait → t.accessState = .fenceGranted) ∧
    (w.accessState = .pscwIssued → t.accessState = .pscwGranted)

theorem callback_cases {e : Event} (he : e.isCallback = true) (hstep : step w e = .ok w') :
    w'.call = w.call ∧ (w'.accessState = w.accessState ∨
      e = .fenceCallback ∧ w.accessState = .fenceIssued ∧ w'.accessState = .fenceGranted ∨
      e = .startCallback ∧ 0 < w.starts ∧ w'.accessState = .pscwGranted) := by
  cases e with
  | fenceCallback =>
    simp only [step, fenceBarrierComplete, require_bind_eq_ok, Except.ok.injEq] at hstep
    obtain ⟨_, _, rfl⟩ := hstep
    refine ⟨rfl, ?_⟩
    dsimp only
    split
    · split
      · rename_i h
        exact Or.inr (Or.inl ⟨rfl, h, rfl⟩)
      · exact Or.inl rfl
    · exact Or.inl rfl
  | startCallback =>
    simp only [step, startReqComplete, require_bind_eq_ok, Except.ok.injEq] at hstep
    obtain ⟨hpos, _, rfl⟩ := hstep
    refine ⟨rfl, ?_⟩
    dsimp only
    split
    · exact Or.inr (Or.inr ⟨rfl, hpos, rfl⟩)
    · exact Or.inl rfl
  | _ => cases he

theorem run_callbacks {t : Win} {cs : List Event} (h : Steady w)
    (hcs : ∀ e ∈ cs, e.isCallback = true) (hrun : run step w cs = .ok t) (halong : Along step InOrder w cs) :
    Steady t ∧ t.call = w.call ∧
    (w.accessState = .fenceIssued ∨ w.accessState = .fenceGranted → w.call ≠ .startWait →
      t.accessState = .fenceIssued ∨ t.accessState = .fenceGranted) ∧
    (w.accessState = .pscwIssued ∨ w.accessState = .pscwGranted →
      t.accessState = .pscwIssued ∨ t.accessState = .pscwGranted) := by
  induction cs generalizing w with
  | nil =>
    simp only [run_nil, Except.ok.injEq] at hrun
    subst hrun
    exact ⟨h, rfl, fun hs _ => hs, fun hs => hs⟩
  | cons e cs ih =>
    obtain ⟨w', hstep, hrest⟩ := run_cons_eq_ok hrun
    have hsteady := step_steady h halong.1 hstep
    obtain ⟨hcall, hcases⟩ := callback_cases (hcs e List.mem_cons_self) hstep
    obtain ⟨ht, htcall, hfence, hpscw⟩ :=
      ih hsteady (fun x hx => hcs x (List.mem_cons_of_mem _ hx)) hrest (halong.2 w' hstep)
    refine ⟨ht, htcall.trans hcall, ?_, ?_⟩
    · intro hs hwait
      refine hfence ?_ (hcall ▸ hwait)
      rcases hcases with heq | ⟨_, _, hg⟩ | ⟨_, hpos, _⟩
      · rw [heq]
        exact hs
      · exact Or.inr hg
      · -- no start callback is outstanding in a fence epoch
        exfalso
        rcases h.posted hpos with hp | hp
        · rw [hp] at hs
          rcases hs with hs | hs <;> cases hs
        · exact hwait hp
    · intro hs
      refine hpscw ?_
      rcases hcases with heq | ⟨_, hf, _⟩ | ⟨_, _, hg⟩
      · rw [heq]
        exact hs
      · rw [hf] at hs
        rcases hs with hs | hs <;> cases hs
      · exact Or.inr hg

theorem Steady.movesOn (h : Steady w) : MovesOn w := by
  intro cs t hcs hrun halong hcnt
  obtain ⟨ht, hcall, hfence, hpscw⟩ := run_callbacks h hcs hrun halong
  have hcounted := ht.counted
  constructor
  · intro hs hwait
    rcases hfence (Or.inl hs) hwait with hissued | hgranted
    · rcases ht.fence hissued with hpos | ⟨_, hpos⟩ <;> omega
    · exact hgranted
  · intro hs
    rcases hpscw (Or.inl hs) with hissued | hgranted
    · have := ht.pscw hissued
      omega
    · exact hgranted

def fenceThenStart : List Event :=
  [.fence false true false, .fenceSync .pending, .start false [.self, .pending, .complete],
    .fenceCallback, .startCallback, .complete, .completeGranted, .completeFlushed,
    .fence false false false, .fenceReduced, .fenceFlushed, .fenceSync .pending]

end FgMpi.Rma.SyncStates
