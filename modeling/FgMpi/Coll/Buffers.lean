import FgMpi.Machine.Stages

/-! A buffer holds elements at places from 0 on. -/

namespace FgMpi.Coll.Buffers
open Machine.Dialogues

section Operations
variable {C α R : Type}

def slice (buf : Nat → α) (off count : Nat) : List (Nat × α) :=
  (List.range count).map fun j => (off + j, buf (off + j))

def store (buf : Nat → α) (off : Nat) (msg : List (Nat × α)) : Nat → α := fun i =>
  if off ≤ i then
    match msg[i - off]? with
    | some x => x.2
    | none => buf i
  else buf i

def mpicSend (comm : C) (dst : Nat) (buf : Nat → α) (off count : Nat) (next : Prog C Nat (Nat × α) R) :
    Prog C Nat (Nat × α) R :=
  .comm [⟨comm, dst, slice buf off count⟩] [] fun _ => next

def mpicRecv (comm : C) (src : Nat) (buf : Nat → α) (off count : Nat)
    (next : (Nat → α) → Prog C Nat (Nat × α) R) : Prog C Nat (Nat × α) R :=
  .comm [] [⟨comm, src, off, count⟩] fun msgs => next (store buf off (msgs.headD []))

def mpicSendrecv (comm : C) (dst : Nat) (sendbuf : Nat → α) (sendOff sendCount src : Nat)
    (recvbuf : Nat → α) (recvOff recvCount : Nat) (next : (Nat → α) → Prog C Nat (Nat × α) R) :
    Prog C Nat (Nat × α) R :=
  .comm [⟨comm, dst, slice sendbuf sendOff sendCount⟩] [⟨comm, src, recvOff, recvCount⟩] fun msgs =>
    next (store recvbuf recvOff (msgs.headD []))

def localcopy (inbuf outbuf : Nat → α) (count : Nat) : Nat → α := fun i =>
  if i < count then inbuf i else outbuf i

/-- `MPIR_Reduce_local_impl`: `inoutbuf[i] = inbuf[i] op inoutbuf[i]`. -/
def reduceLocal (op : α → α → α) (inbuf inoutbuf : Nat → α) (off count : Nat) : Nat → α := fun i =>
  if off ≤ i ∧ i < off + count then op (inbuf i) (inoutbuf i) else inoutbuf i

def ofRank (commSize : Nat) (prog : Nat → Prog C Nat (Nat × α) R) (result : Nat → R) (rank : Nat) :
    Prog C Nat (Nat × α) R :=
  if rank < commSize then prog rank else .done (result rank)

end Operations

section Messages
variable {C P α R : Type} {buf b b' : Nat → α} {off count i : Nat}

/-- A message comes from the range of the sender's buffer that it goes to. -/
def SameRange (msg : List (Nat × α)) (inp : Inp C P) : Prop :=
  msg.map Prod.fst = List.range' inp.off inp.cap

theorem sameRange_slice (buf : Nat → α) (comm : C) (src : P) (off count : Nat) :
    SameRange (slice buf off count) ⟨comm, src, off, count⟩ := by
  rw [SameRange, slice, List.map_map, List.range'_eq_map_range]
  rfl

theorem sameRange_le (msg : List (Nat × α)) (inp : Inp C P) (h : SameRange msg inp) :
    msg.length ≤ inp.cap := by
  have hlen := congrArg List.length h
  rw [List.length_map, List.length_range'] at hlen
  exact Nat.le_of_eq hlen

theorem slice_congr (h : ∀ i, off ≤ i → i < off + count → b i = b' i) :
    slice b off count = slice b' off count := by
  refine List.map_congr_left fun j hj => ?_
  have hlt := List.mem_range.mp hj
  rw [h (off + j) (Nat.le_add_right _ _) (by omega)]

theorem slice_get (buf : Nat → α) (off count j : Nat) :
    (slice buf off count)[j]? = if j < count then some (off + j, buf (off + j)) else none := by
  rw [slice, List.getElem?_map]
  split
  · rename_i h
    rw [List.getElem?_range h]
    rfl
  · rename_i h
    rw [List.getElem?_eq_none (by rw [List.length_range]; omega)]
    rfl

theorem store_slice (buf b : Nat → α) (off count : Nat) :
    store buf off (slice b off count) = fun i => if off ≤ i ∧ i < off + count then b i else buf i := by
  funext i
  rw [store, slice_get]
  by_cases hlow : off ≤ i
  · rw [if_pos hlow]
    by_cases hhigh : i < off + count
    · have hplace : off + (i - off) = i := by omega
      rw [if_pos (by omega), if_pos ⟨hlow, hhigh⟩]
      dsimp only
      rw [hplace]
    · rw [if_neg (by omega), if_neg fun h => hhigh h.2]
  · rw [if_neg hlow, if_neg fun h => hlow h.1]

end Messages

section Ranks
variable {commSize root rank r : Nat}

theorem rotate_eq (hr : r < commSize) (hroot : root < commSize) :
    (r + root) % commSize = if r + root < commSize then r + root else r + root - commSize := by
  split
  · rename_i h
    exact Nat.mod_eq_of_lt h
  · rename_i h
    rw [Nat.mod_eq_sub_mod (Nat.le_of_not_lt h), Nat.mod_eq_of_lt (by omega)]

theorem unrotate_eq (hrank : rank < commSize) (hroot : root < commSize) :
    (rank + commSize - root) % commSize = if root ≤ rank then rank - root else rank + commSize - root := by
  split
  · have hsum : rank + commSize - root = rank - root + commSize := by omega
    rw [hsum, Nat.add_mod_right, Nat.mod_eq_of_lt (by omega)]
  · exact Nat.mod_eq_of_lt (by omega)

def relativeOf (commSize root rank : Nat) : Option Nat :=
  if rank < commSize then some ((rank + commSize - root) % commSize) else none

theorem relativeOf_eq (hrank : rank < commSize) :
    relativeOf commSize root rank = some ((rank + commSize - root) % commSize) := if_pos hrank

theorem relativeOf_some (hroot : root < commSize) (h : relativeOf commSize root rank = some r) :
    r < commSize ∧ (r + root) % commSize = rank := by
  unfold relativeOf at h
  split at h
  · rename_i hrank
    obtain rfl := Option.some.inj h
    have hlt : (rank + commSize - root) % commSize < commSize := Nat.mod_lt _ (by omega)
    refine ⟨hlt, ?_⟩
    rw [rotate_eq hlt hroot, unrotate_eq hrank hroot]
    split <;> split <;> omega
  · exact nomatch h

theorem relativeOf_rotate (hroot : root < commSize) (hr : r < commSize) :
    relativeOf commSize root ((r + root) % commSize) = some r := by
  have hlt : (r + root) % commSize < commSize := Nat.mod_lt _ (by omega)
  rw [relativeOf_eq hlt, unrotate_eq hlt hroot, rotate_eq hr hroot]
  congr 1
  split <;> split <;> omega

end Ranks

section Following
variable {C α R : Type} {comm : C} {buf sendbuf recvbuf b : Nat → α} {off count k dst src : Nat} {r : R}
variable {sendOff sendCount recvOff recvCount : Nat} {rest : List (Op C Nat (Nat × α))}

theorem follows_send {fits : List (Nat × α) → Inp C Nat → Prop} {next : Prog C Nat (Nat × α) R}
    (h : Follows fits r rest next) :
    Follows fits r (⟨k, .comm [⟨comm, dst, slice buf off count⟩] []⟩ :: rest)
      (mpicSend comm dst buf off count next) :=
  ⟨rfl, rfl, fun _ hg => (nomatch hg), h⟩

theorem follows_recv {next : (Nat → α) → Prog C Nat (Nat × α) R}
    (h : Follows SameRange r rest (next (store buf off (slice b off count)))) :
    Follows SameRange r (⟨k, .comm [] [⟨comm, src, off, count, slice b off count⟩]⟩ :: rest)
      (mpicRecv comm src buf off count next) := by
  refine ⟨rfl, rfl, fun g hg => ?_, h⟩
  obtain rfl := List.mem_singleton.mp hg
  exact sameRange_slice ..

theorem follows_sendrecv {next : (Nat → α) → Prog C Nat (Nat × α) R}
    (h : Follows SameRange r rest (next (store recvbuf recvOff (slice b recvOff recvCount)))) :
    Follows SameRange r (⟨k, .comm [⟨comm, dst, slice sendbuf sendOff sendCount⟩]
        [⟨comm, src, recvOff, recvCount, slice b recvOff recvCount⟩]⟩ :: rest)
      (mpicSendrecv comm dst sendbuf sendOff sendCount src recvbuf recvOff recvCount next) := by
  refine ⟨rfl, rfl, fun g hg => ?_, h⟩
  obtain rfl := List.mem_singleton.mp hg
  exact sameRange_slice ..

end Following

end FgMpi.Coll.Buffers
