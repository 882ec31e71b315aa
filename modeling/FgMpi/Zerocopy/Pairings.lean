import FgMpi.Zerocopy.Copies
import FgMpi.Zerocopy.Requests

/-! `MPIDI_Isend_self` finds a posted receive, or `MPIDI_CH3_RecvFromSelf` finds the send. -/

namespace FgMpi.Zerocopy.Copies

inductive Target
  | userBuf
  | senderBuf
  | allocated (size : Nat)
  | unset
deriving DecidableEq

inductive Call
  | allocate (rErr : Err)
  | copy
deriving DecidableEq

structure Outcome (β : Type) where
  target : Target
  writes : List (Int × β)
  count : Nat
  sErr : Err
  rErr : Err
  calls : List Call

section Code
variable {β : Type}

/-- A call of `MPIDI_CH3U_Buffer_copy`, which sets both errors and the count of the status. -/
def copyInto (target : Target) (calls : List Call) (sbuf : Int → β) (S R : Layout) :
    Except Abort (Outcome β) :=
  match bufferCopy S sbuf R with
  | .ok c => .ok ⟨target, c.writes, c.rsz, c.sErr, c.rErr, calls ++ [.copy]⟩
  | .error e => .error e

/-- A call of `MPIDI_CH3U_Buffer_allocate`, then one of `MPIDI_CH3U_Buffer_copy` to `*user_buf_handle`. -/
def allocateAndCopy (sbuf : Int → β) (S R : Layout) : Except Abort (Outcome β) :=
  let a := bufferAllocate S R
  let target :=
    match a.buffer with
    | some size => Target.allocated size
    | none => .unset
  copyInto target [.allocate a.rErr] sbuf S R

/-- The receive was posted first.  `S` are the arguments of the send, `rreq` is what the receive request
says. -/
def isendSelf (sstate rstate : BitVec 32) (sbuf : Int → β) (S rreq : Layout) : Except Abort (Outcome β) :=
  if getSelfZerocopyFlag sstate && getSelfZerocopyFlag rstate then
    .ok ⟨.senderBuf, [], S.size, .success, .success, []⟩
  else if getSelfZerocopyFlag sstate && !getSelfZerocopyFlag rstate then
    copyInto .userBuf [] sbuf S rreq
  else if !getSelfZerocopyFlag sstate && getSelfZerocopyFlag rstate then
    allocateAndCopy sbuf S rreq
  else copyInto .userBuf [] sbuf S rreq

/-- The send came first.  `R` are the arguments of the receive, `sreq` and `rreq` is what the requests
say. -/
def recvFromSelf (sstate rstate : BitVec 32) (sbuf : Int → β) (sreq R rreq : Layout) :
    Except Abort (Outcome β) :=
  if getSelfZerocopyFlag sstate && getSelfZerocopyFlag rstate then
    .ok ⟨.senderBuf, [], R.size, .success, .success, []⟩
  else if getSelfZerocopyFlag sstate && !getSelfZerocopyFlag rstate then
    copyInto .userBuf [] sbuf sreq R
  else if !getSelfZerocopyFlag sstate && getSelfZerocopyFlag rstate then
    allocateAndCopy sbuf sreq rreq
  else copyInto .userBuf [] sbuf sreq R

/-- The state of the send request of `MPIX_Zsend` and the others. -/
def sendState (zerocopy : Bool) : BitVec 32 :=
  selfSendState (if zerocopy then requestTypeZsend else requestTypeSend)

end Code

section Outcomes
variable {β : Type}

def Target.Inside (R : Layout) : Target → Int → Prop
  | .userBuf, x => ∃ i < R.size, x = R.disp i
  | .senderBuf, _ => False
  | .allocated size, x => 0 ≤ x ∧ x < size
  | .unset, _ => False

/-- A transfer counts the bytes that both sides have, reports a truncation exactly where the send is longer, and puts
every packed byte in its place in the user's or the allocated buffer, within its bounds; an allocation that failed
stays reported and nothing is copied. -/
structure Right (S R : Layout) (sbuf : Int → β) (o : Outcome β) : Prop where
  count : o.count = min S.size R.size
  truncate : o.rErr = .truncate ↔ R.size < S.size
  placed : o.target ≠ .senderBuf → o.writes = moved S R sbuf 0 (min S.size R.size)
  inside : ∀ w ∈ o.writes, o.target.Inside R w.1
  kept : .allocate .zcopybufalloc ∈ o.calls → o.rErr = .zcopybufalloc ∧ .copy ∉ o.calls

/-- Two zero-copy sides agree on the size; a buffer that is allocated is for contiguous data that starts
at its beginning; the segment code does not have to stop inside an element. -/
def Agrees : Bool → Bool → Layout → Layout → Prop
  | true, true, S, R => S.size = R.size
  | false, true, S, R =>
    min S.size R.size = 0 ∨ S.contig = true ∧ R.contig = true ∧ R.trueLb = 0
  | _, false, S, R => Breaks S R (min S.size R.size)

variable {S R : Layout} {sbuf : Int → β} {o : Outcome β}

theorem copyInto_ok (target : Target) (calls : List Call) (h : Breaks S R (min S.size R.size)) :
    copyInto target calls sbuf S R = .ok ⟨target, moved S R sbuf 0 (min S.size R.size),
      min S.size R.size, .success, if S.size > R.size then .truncate else .success, calls ++ [.copy]⟩ := by
  rw [copyInto, bufferCopy_ok h]

theorem copyInto_breaks {target : Target} {calls : List Call} (h : copyInto target calls sbuf S R = .ok o)
    (hcount : o.count = min S.size R.size) : Breaks S R (min S.size R.size) := by
  unfold copyInto at h
  cases hc : bufferCopy S sbuf R with
  | error e =>
    rw [hc] at h
    exact nomatch h
  | ok c =>
    rw [hc] at h
    cases h
    exact bufferCopy_breaks hc hcount

theorem copyInto_calls {target : Target} {calls : List Call}
    (h : copyInto target calls sbuf S R = .ok o) : o.target = target ∧ o.calls = calls ++ [.copy] := by
  unfold copyInto at h
  cases hc : bufferCopy S sbuf R with
  | error e =>
    rw [hc] at h
    exact nomatch h
  | ok c =>
    rw [hc] at h
    cases h
    exact ⟨rfl, rfl⟩

theorem truncate_iff : (if S.size > R.size then Err.truncate else .success) = .truncate ↔ R.size < S.size := by
  split
  · rename_i hlt
    exact ⟨fun _ => hlt, fun _ => rfl⟩
  · rename_i hnot
    exact ⟨fun h => (nomatch h), fun h => absurd h hnot⟩

theorem mem_moved {w : Int × β} {n : Nat} (h : w ∈ moved S R sbuf 0 n) : ∃ i < n, w.1 = R.disp i := by
  rw [moved, Nat.sub_zero, ← List.range_eq_range'] at h
  obtain ⟨i, hi, rfl⟩ := List.mem_map.mp h
  exact ⟨i, List.mem_range.mp hi, rfl⟩

theorem moved_mem {i n : Nat} (h : i < n) : (R.disp i, sbuf (S.disp i)) ∈ moved S R sbuf 0 n := by
  rw [moved, Nat.sub_zero, ← List.range_eq_range']
  exact List.mem_map_of_mem (List.mem_range.mpr h)

theorem userCopy_right : (∃ o, copyInto .userBuf [] sbuf S R = .ok o ∧ Right S R sbuf o) ↔
    Breaks S R (min S.size R.size) := by
  constructor
  · rintro ⟨o, hcopy, hright⟩
    exact copyInto_breaks hcopy hright.count
  · intro h
    refine ⟨_, copyInto_ok .userBuf [] h, rfl, truncate_iff, fun _ => rfl, ?_, ?_⟩
    · intro w hw
      obtain ⟨i, hi, hdisp⟩ := mem_moved hw
      exact ⟨i, Nat.lt_of_lt_of_le hi (Nat.min_le_right _ _), hdisp⟩
    · intro hmem
      exact nomatch List.mem_singleton.mp hmem

theorem bufferAllocate_zero (h : min S.size R.size = 0) :
    bufferAllocate S R = ⟨0, .success, if S.size > R.size then .truncate else .success, none⟩ := by
  rw [← sdataSz_eq] at h
  exact if_pos h

theorem bufferAllocate_contig (h : min S.size R.size ≠ 0) (hs : S.contig = true) (hr : R.contig = true) :
    bufferAllocate S R = ⟨min S.size R.size, .success,
      if S.size > R.size then .truncate else .success, some (min S.size R.size)⟩ := by
  unfold bufferAllocate
  dsimp only
  rw [sdataSz_eq, if_neg h, hs, hr]
  rfl

theorem bufferAllocate_other (h : min S.size R.size ≠ 0) (hnot : ¬ (S.contig = true ∧ R.contig = true)) :
    bufferAllocate S R = ⟨0, .zcopybufalloc, .zcopybufalloc, none⟩ := by
  unfold bufferAllocate
  dsimp only
  rw [sdataSz_eq, if_neg h, if_neg]
  rw [Bool.and_eq_true]
  exact hnot

theorem allocated_inside (hr : R.contig = true) {n : Nat} (hn : n ≠ 0) :
    (∀ w ∈ moved S R sbuf 0 n, Target.Inside R (.allocated n) w.1) ↔ R.trueLb = 0 := by
  constructor
  · intro h
    have hfirst := h _ (moved_mem (i := 0) (Nat.pos_of_ne_zero hn))
    have hlast := h _ (moved_mem (i := n - 1) (by omega))
    rw [R.contig_disp hr] at hfirst hlast
    have h₁ : 0 ≤ R.trueLb + ((0 : Nat) : Int) := hfirst.1
    have h₂ : R.trueLb + ((n - 1 : Nat) : Int) < n := hlast.2
    omega
  · intro h w hw
    obtain ⟨i, hi, hdisp⟩ := mem_moved hw
    rw [R.contig_disp hr, h] at hdisp
    rw [hdisp]
    exact ⟨by omega, by omega⟩

theorem allocateAndCopy_right : (∃ o, allocateAndCopy sbuf S R = .ok o ∧ Right S R sbuf o) ↔
    min S.size R.size = 0 ∨ S.contig = true ∧ R.contig = true ∧ R.trueLb = 0 := by
  unfold allocateAndCopy
  dsimp only
  by_cases hzero : min S.size R.size = 0
  · rw [bufferAllocate_zero hzero]
    dsimp only
    refine iff_of_true ?_ (.inl hzero)
    have hbreaks : Breaks S R (min S.size R.size) := by
      rw [hzero]
      exact ⟨.inr S.stops_zero, .inr R.stops_zero⟩
    refine ⟨_, copyInto_ok .unset _ hbreaks, rfl, truncate_iff, fun _ => rfl, ?_, ?_⟩
    · dsimp only
      rw [hzero]
      exact fun w hw => nomatch hw
    · intro hmem
      rcases List.mem_cons.mp hmem with heq | hmem
      · split at heq <;> exact nomatch heq
      · exact nomatch List.mem_singleton.mp hmem
  · by_cases hcontig : S.contig = true ∧ R.contig = true
    · obtain ⟨hs, hr⟩ := hcontig
      rw [bufferAllocate_contig hzero hs hr]
      dsimp only
      have hcopy := @copyInto_ok β S R sbuf (.allocated (min S.size R.size))
        [.allocate (if S.size > R.size then .truncate else .success)] ⟨.inl hs, .inl hr⟩
      have hinside := @allocated_inside β S R sbuf hr _ hzero
      constructor
      · rintro ⟨o, ho, hright⟩
        rw [hcopy] at ho
        obtain rfl := Except.ok.inj ho
        exact .inr ⟨hs, hr, hinside.mp hright.inside⟩
      · intro hcond
        obtain ⟨-, -, hlb⟩ := hcond.resolve_left hzero
        refine ⟨_, hcopy, rfl, truncate_iff, fun _ => rfl, hinside.mpr hlb, ?_⟩
        intro hmem
        rcases List.mem_cons.mp hmem with heq | hmem
        · split at heq <;> exact nomatch heq
        · exact nomatch List.mem_singleton.mp hmem
    · rw [bufferAllocate_other hzero hcontig]
      dsimp only
      refine iff_of_false ?_ ?_
      · rintro ⟨o, ho, hright⟩
        obtain ⟨-, hcalls⟩ := copyInto_calls ho
        have hkept := hright.kept (by rw [hcalls]; exact List.mem_cons_self)
        rw [hcalls] at hkept
        exact hkept.2 (List.mem_append_right _ List.mem_cons_self)
      · rintro (h | ⟨hs, hr, -⟩)
        · exact hzero h
        · exact hcontig ⟨hs, hr⟩

theorem sendState_flag (zerocopy : Bool) : getSelfZerocopyFlag (sendState zerocopy) = zerocopy := by
  cases zerocopy <;> decide

/-- Both orders have the same, right outcome exactly if the two sides agree. -/
theorem colocated_transfer (szero rzero : Bool) (sbuf : Int → β) (S R : Layout) :
    (∃ o, isendSelf (sendState szero) (recvState rzero) sbuf S R = .ok o ∧
      recvFromSelf (sendState szero) (recvState rzero) sbuf S R R = .ok o ∧ Right S R sbuf o) ↔
      Agrees szero rzero S R := by
  unfold isendSelf recvFromSelf
  rw [sendState_flag, recvState_flag]
  have hboth : ∀ x : Except Abort (Outcome β),
      (∃ o, x = .ok o ∧ x = .ok o ∧ Right S R sbuf o) ↔ ∃ o, x = .ok o ∧ Right S R sbuf o := by
    intro x
    refine exists_congr fun o => ?_
    tauto
  cases szero with
  | true =>
    cases rzero with
    | true =>
      constructor
      · rintro ⟨o, hsend, hrecv, -⟩
        obtain rfl := Except.ok.inj hsend
        have heq := congrArg Outcome.count (Except.ok.inj hrecv)
        exact heq.symm
      · intro hsize
        have hsize' : S.size = R.size := hsize
        refine ⟨_, rfl, ?_, ?_, ?_, ?_, ?_, ?_⟩
        · rw [hsize']
          rfl
        · dsimp only
          omega
        · exact ⟨fun h => (nomatch h), fun h => by omega⟩
        · exact fun h => absurd rfl h
        · exact fun w hw => nomatch hw
        · exact fun h => nomatch h
    | false => exact (hboth _).trans userCopy_right
  | false =>
    cases rzero with
    | true => exact (hboth _).trans allocateAndCopy_right
    | false => exact (hboth _).trans userCopy_right

def bytes (n : Nat) (lb : Int) : Layout := bytewise n true lb (fun i => lb + i) fun _ _ => rfl

theorem colocated_transfer_wrong :
    ¬ (∃ o, isendSelf (sendState true) (recvState true) (fun _ => true) (bytes 8 0) (bytes 4 0) = .ok o ∧
      recvFromSelf (sendState true) (recvState true) (fun _ => true) (bytes 8 0) (bytes 4 0)
        (bytes 4 0) = .ok o ∧ Right (bytes 8 0) (bytes 4 0) (fun _ => true) o) ∧
    ¬ ∃ o, isendSelf (sendState false) (recvState true) (fun _ => true) (bytes 4 0) (bytes 4 4) = .ok o ∧
      Right (bytes 4 0) (bytes 4 4) (fun _ => true) o := by
  constructor
  · rintro ⟨o, hsend, hrecv, -⟩
    cases hsend
    exact absurd (congrArg Outcome.count (Except.ok.inj hrecv)) (by decide)
  · rintro ⟨o, hsend, hright⟩
    unfold isendSelf at hsend
    rw [sendState_flag, recvState_flag] at hsend
    have hcopy : allocateAndCopy (fun _ => true) (bytes 4 0) (bytes 4 4) = .ok o := hsend
    have hcond := allocateAndCopy_right.mp ⟨o, hcopy, hright⟩
    revert hcond
    decide

end Outcomes

end FgMpi.Zerocopy.Copies
