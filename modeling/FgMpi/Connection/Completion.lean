import FgMpi.Connection.CloseProtocol

namespace FgMpi.Connection.Completion
open Machine.Checked Machine.Runs Machine.Slots CloseProtocol

def vcEnabled (vc : Vc) (s : Side) : Kind → Bool
  | .closeVcs => (vc.ends s).state = .active ∨ (vc.ends s).state = .remoteClose ∨
      (vc.ends s).state = .inactive
  | .deliver => vc.flight s ≠ [] ∧ (vc.ends s).failed = false
  | .terminated => (vc.ends s).terminating
  | .failed => !(vc.ends s).failed

def enabled (st : State) (ev : Event) : Bool :=
  match st.vcs[ev.vc]? with
  | none => false
  | some vc => vcEnabled vc ev.side ev.kind

def vcPending (vc : Vc) (s : Side) (kind : Kind) : Bool :=
  kind ≠ .failed ∧ (vc.ends s).state ≠ .inactive ∧ vcEnabled vc s kind

def EndEnded (e : End) : Prop :=
  e.state = .inactive ∨ e.state = .inactiveClosed ∨ e.state = .moribund ∧ e.failed = true

structure Ended (st : State) : Prop where
  ends : ∀ vc ∈ st.vcs, ∀ s, EndEnded (vc.ends s)
  ops : ∀ s, st.outstandingCloseOps s = 0

def stateWork : VcState → Nat
  | .active => 5
  | .remoteClose => 4
  | .localClose => 3
  | .closeAcked => 2
  | .closed | .inactive => 1
  | .inactiveClosed | .moribund => 0

def endWork (e : End) : Nat :=
  stateWork e.state + e.terminating.toNat + (!e.failed).toNat

def work (vc : Vc) : Nat :=
  endWork (vc.ends .left) + endWork (vc.ends .right) +
    ((vc.flight .left).length + (vc.flight .right).length)

variable {vc vc' : Vc} {s : Side} {state state' : VcState} {ops : Int}

theorem work_put (vc : Vc) (s : Side) (e : End) (packets : List Bool) :
    work (vc.put s e packets) + endWork (vc.ends s) = work vc + endWork e + packets.length := by
  cases s
  · simp [work, Vc.put, endWork, Side.other]
    omega
  · simp [work, Vc.put, endWork, Side.other]
    omega

theorem work_take {ack : Bool} {rest : List Bool} (h : vc.flight s = ack :: rest) :
    work { vc with flight := Function.update vc.flight s rest } + 1 = work vc := by
  cases s
  · simp [work, h]
    omega
  · simp [work, h]
    omega

theorem sendClose_work {ack : Bool} (h : sendClose state = .ok (state', ack, ops)) :
    stateWork state' + 2 ≤ stateWork state := by
  unfold sendClose at h
  obtain ⟨hst, h⟩ := require_bind_eq_ok.mp h
  rcases hst with rfl | rfl
  · simp at h
    rw [← h.1]
    decide
  · simp [require_bind] at h
    rw [← h.1]
    decide

theorem pktHandlerClose_work {ack terminate : Bool} {resp : List Bool}
    (h : pktHandlerClose state ack = .ok (state', resp, terminate)) :
    stateWork state' + resp.length + terminate.toNat ≤ stateWork state := by
  unfold pktHandlerClose at h
  cases state <;> cases ack <;> simp [require_bind] at h <;> obtain ⟨rfl, rfl, rfl⟩ := h <;> decide

theorem handleConnection_work (h : handleConnection state = .ok (state', ops)) :
    stateWork state' ≤ stateWork state := by
  cases state <;> cases h <;> decide

theorem vcStep_work {kind : Kind} (h : vcStep vc s kind = .ok (vc', ops))
    (hen : vcEnabled vc s kind) : work vc' < work vc := by
  cases kind with
  | closeVcs =>
    simp only [vcStep, closeVcs] at h
    split at h
    · obtain ⟨⟨state, ack, n⟩, hsend, h⟩ := bind_eq_ok.mp h
      cases h
      have hless := sendClose_work hsend
      have hput := work_put vc s { vc.ends s with state := state } [ack]
      simp only [endWork, List.length_singleton] at hput
      dsimp only
      omega
    next hact =>
      have hin : (vc.ends s).state = .inactive := by
        have hor := of_decide_eq_true hen
        tauto
      rw [if_pos hin] at h
      cases h
      have hput := work_put vc s { vc.ends s with state := .inactiveClosed } []
      simp only [endWork, hin, stateWork, List.length_nil] at hput
      omega
  | deliver =>
    obtain ⟨hflight, hf⟩ := of_decide_eq_true hen
    cases hpkts : vc.flight s with
    | nil => exact absurd hpkts hflight
    | cons ack rest =>
      simp only [vcStep, hpkts, hf, Bool.false_eq_true, if_false] at h
      obtain ⟨⟨state, resp, terminate⟩, hpkt, h⟩ := bind_eq_ok.mp h
      cases h
      have hless := pktHandlerClose_work hpkt
      have htake := work_take hpkts
      have hput := work_put { vc with flight := Function.update vc.flight s rest } s
        { vc.ends s with
          state := state
          received := (vc.ends s).received ++ [ack]
          terminating := (vc.ends s).terminating || terminate } resp
      have hor : ((vc.ends s).terminating || terminate).toNat ≤
          (vc.ends s).terminating.toNat + terminate.toNat := by
        cases (vc.ends s).terminating <;> cases terminate <;> decide
      simp only [endWork, hf] at hput
      dsimp only
      omega
  | terminated =>
    have hterm : (vc.ends s).terminating = true := hen
    simp only [vcStep, hterm, if_true] at h
    obtain ⟨⟨state, n⟩, hconn, h⟩ := bind_eq_ok.mp h
    cases h
    have hless := handleConnection_work hconn
    have hput := work_put vc s { vc.ends s with state := state, terminating := false } []
    simp only [endWork, hterm, Bool.toNat_true, Bool.toNat_false, List.length_nil] at hput
    dsimp only
    omega
  | failed =>
    have hf : (vc.ends s).failed = false := by simpa [vcEnabled] using hen
    simp only [vcStep, hf, Bool.false_eq_true, if_false] at h
    obtain ⟨⟨state, n⟩, hconn, h⟩ := bind_eq_ok.mp h
    cases h
    have hless := handleConnection_work hconn
    have hput := work_put vc s { vc.ends s with state := state, failed := true } []
    simp only [endWork, hf, Bool.not_true, Bool.not_false, Bool.toNat_true, Bool.toNat_false,
      List.length_nil] at hput
    dsimp only
    omega

theorem step_work {st st' : State} {ev : Event} (h : step st ev = .ok st') (hen : enabled st ev) :
    tally work st'.vcs < tally work st.vcs := by
  cases hget : st.vcs[ev.vc]? with
  | none => simp [enabled, hget] at hen
  | some vc =>
    simp only [step, hget] at h
    obtain ⟨⟨vc', ops⟩, hvc, h⟩ := bind_eq_ok.mp h
    cases h
    have hless := vcStep_work hvc (by simpa [enabled, hget] using hen)
    have htally := tally_set work vc' hget
    dsimp only
    omega

theorem init_work (connected : List Bool) :
    tally work (State.init connected).vcs ≤ 12 * connected.length := by
  induction connected with
  | nil => exact Nat.le_refl 0
  | cons c cs ih =>
    have hone : work (Vc.init c) ≤ 12 := by
      cases c <;> decide
    simp only [State.init, List.map_cons, tally_cons, List.length_cons] at ih ⊢
    omega

structure Waiting (e : End) : Prop where
  failed : e.failed = false
  terminating : e.terminating = false
  active : e.state ≠ .active
  remoteClose : e.state ≠ .remoteClose

theorem Waiting.logs {connected : Bool} {e : End} (hw : Waiting e) (h : EndOk connected e) :
    (e.state = .inactive ∨ e.state = .inactiveClosed) ∧ (connected = true → Done e) ∨
      connected = true ∧ (e.sent, e.received) ∈
        ([([false], []), ([true], [false]), ([false, true], [false])] :
          List (List Bool × List Bool)) := by
  unfold EndOk at h
  split at h
  next hst =>
    rcases h with ⟨hc, _⟩ | ⟨_, hd, _⟩
    · exact Or.inl ⟨Or.inl hst, by simp [hc]⟩
    · exact Or.inl ⟨Or.inl hst, fun _ => hd⟩
  next hst =>
    rcases h with ⟨hc, _⟩ | ⟨_, hd, _⟩
    · exact Or.inl ⟨Or.inr hst, by simp [hc]⟩
    · exact Or.inl ⟨Or.inr hst, fun _ => hd⟩
  next hst => exact absurd hst hw.active
  next => exact Or.inr ⟨h.1, by simp [h.2.1, h.2.2.1]⟩
  next hst => exact absurd hst hw.remoteClose
  next =>
    obtain ⟨hc, hs, hr, _⟩ := h
    rcases hs with hs | hs
    · exact Or.inr ⟨hc, by simp [hs, hr]⟩
    · exact Or.inr ⟨hc, by simp [hs, hr]⟩
  next => simp [hw.terminating] at h
  next => simp [hw.failed] at h

theorem inactive_of_waiting {connected : Bool} {me peer : End}
    (h : Pair connected me peer [] []) (hme : Waiting me) (hpeer : Waiting peer) :
    me.state = .inactive ∨ me.state = .inactiveClosed := by
  have hmine : me.sent = peer.received := by
    rw [h.mine, List.append_nil]
  have htheirs : peer.sent = me.received := by
    rw [h.theirs, List.append_nil]
  rcases hme.logs h.here with ⟨hst, _⟩ | ⟨hc, hlogs⟩
  · exact hst
  · have hthere := hpeer.logs h.there
    rw [← hmine, htheirs] at hthere
    simp only [Done, List.mem_cons, List.not_mem_nil, or_false, Prod.mk.injEq] at hlogs hthere
    rcases hlogs with ⟨hs, hr⟩ | ⟨hs, hr⟩ | ⟨hs, hr⟩ <;>
      simp [hc, hs, hr, htheirs, ← hmine] at hthere

theorem ends_of_stuck (hg : Good vc) (hsame : ∀ s, (vc.ends s).failed = (vc.ends s.other).failed)
    (hstuck : ∀ s kind, ¬vcPending vc s kind) (s : Side) : EndEnded (vc.ends s) := by
  by_cases hin : (vc.ends s).state = .inactive
  · exact Or.inl hin
  cases hf : (vc.ends s).failed with
  | true =>
    have hend := (hg s).here
    cases hst : (vc.ends s).state with
    | inactive => exact absurd hst hin
    | inactiveClosed => exact Or.inr (Or.inl hst)
    | moribund => exact Or.inr (Or.inr ⟨hst, hf⟩)
    | active => simp [EndOk, hst, hf] at hend
    | localClose => simp [EndOk, hst, hf] at hend
    | remoteClose => simp [EndOk, hst, hf] at hend
    | closeAcked => simp [EndOk, hst, hf] at hend
    | closed => simp [EndOk, hst, hf] at hend
  | false =>
    have hwait : ∀ t, (vc.ends t).failed = false → Waiting (vc.ends t) ∧ vc.flight t = [] := by
      intro t ht
      by_cases hrest : (vc.ends t).state = .inactive
      · have hend := (hg t).here
        simp only [EndOk, hrest] at hend
        have hterm : (vc.ends t).terminating = false := by
          rcases hend with ⟨_, _, _, _, h⟩ | ⟨_, _, h⟩
          · exact h
          · exact Bool.eq_false_iff.mpr (fun hc => Bool.eq_false_iff.mp ht (h hc))
        exact ⟨⟨ht, hterm, by simp [hrest], by simp [hrest]⟩,
          (hg t).drained (Or.inr (Or.inl hrest))⟩
      have hsend := hstuck t .closeVcs
      have hdeliver := hstuck t .deliver
      have hterm := hstuck t .terminated
      simp [vcPending, vcEnabled, hrest] at hsend hdeliver hterm
      simp [ht] at hdeliver
      exact ⟨⟨ht, hterm, hsend.1, hsend.2⟩, hdeliver⟩
    obtain ⟨hme, hflight⟩ := hwait s hf
    obtain ⟨hpeer, hflight'⟩ := hwait s.other (by rw [← hsame, hf])
    have hpair := hg s
    rw [hflight, hflight'] at hpair
    exact Or.inr (Or.inl ((inactive_of_waiting hpair hme hpeer).resolve_left hin))

/-- In any order, at most twelve events for each connection do something; and if both ends of a
connection notice its failures, a run does not stop before everything is closed. -/
theorem close_protocol_completes (connected : List Bool) (evs : List Event)
    (hen : Along step (fun st ev => enabled st ev ∧ handled st ev) (State.init connected) evs) :
    evs.length ≤ 12 * connected.length ∧ ∃ st, run step (State.init connected) evs = .ok st ∧
      ((∀ vc ∈ st.vcs, ∀ s, (vc.ends s).failed = (vc.ends s.other).failed) →
        Ended st ∨ ∃ vc ∈ st.vcs, ∃ s kind, vcPending vc s kind) := by
  constructor
  · refine (length_le_of_along (fun st : State => tally work st.vcs) ?_ (init_balanced connected)
      hen).trans (init_work connected)
    intro st ev hst hev
    obtain ⟨st', hstep, hst'⟩ := step_balanced hst hev.2
    exact ⟨st', hstep, hst', step_work hstep hev.1⟩
  · obtain ⟨st, hrun, hst⟩ := run_of_along (fun _ _ h hh => step_balanced h hh.2)
      (init_balanced connected) hen
    refine ⟨st, hrun, fun hsame => ?_⟩
    by_cases hgo : ∃ vc ∈ st.vcs, ∃ s kind, vcPending vc s kind
    · exact Or.inr hgo
    have hends : ∀ vc ∈ st.vcs, ∀ s, EndEnded (vc.ends s) := by
      intro vc hvc
      exact ends_of_stuck (hst.good vc hvc) (hsame vc hvc)
        (fun s kind hp => hgo ⟨vc, hvc, s, kind, hp⟩)
    refine Or.inl ⟨hends, fun s => ?_⟩
    rw [hst.count, tally_eq_zero]
    · rfl
    · intro i vc hi
      rcases hends vc (List.mem_of_getElem? hi) s with h | h | ⟨h, _⟩
      · simp [closing, h]
      · simp [closing, h]
      · simp [closing, h]

def crossing : List Event :=
  [⟨0, .left, .closeVcs⟩, ⟨0, .right, .closeVcs⟩, ⟨0, .left, .deliver⟩, ⟨0, .right, .deliver⟩,
    ⟨1, .left, .failed⟩, ⟨0, .left, .deliver⟩, ⟨0, .right, .deliver⟩, ⟨0, .left, .terminated⟩,
    ⟨1, .right, .closeVcs⟩, ⟨0, .right, .terminated⟩]

theorem close_protocol_completes_crossing :
    crossing.length ≤ 24 ∧ ∃ st, run step (State.init [true, false]) crossing = .ok st ∧
      ((∀ vc ∈ st.vcs, ∀ s, (vc.ends s).failed = (vc.ends s.other).failed) →
        Ended st ∨ ∃ vc ∈ st.vcs, ∃ s kind, vcPending vc s kind) :=
  close_protocol_completes [true, false] crossing (by decide)

end FgMpi.Connection.Completion
