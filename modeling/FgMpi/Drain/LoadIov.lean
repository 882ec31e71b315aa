import FgMpi.Machine.Checked
import FgMpi.Machine.Ints
import FgMpi.Machine.Runs

/-! `MPIDI_CH3U_Request_load_recv_iov` (`mpid/ch3/src/ch3u_request.c:238`). -/

namespace FgMpi.Drain.LoadIov
open Machine.Checked Machine.Ints

/-- `MPL_IOV_LIMIT`, `MPIDI_IOV_DENSITY_MIN` and `MPIDI_CH3U_SRBuf_size`. -/
def iovLimit : Nat := 16
def iovDensityMin : Int := 16 * 1024
def srbufSize : Int := 256 * 1024

/-- A number as `size_t`. -/
def toLength (x : Int) : Nat := (x % 2 ^ 64).toNat

/-- The functions of the segment: a datatype with its count and its buffer, and how far the segment has come.
`vector` is `MPID_Segment_unpack_vector`, which says where the bytes from `first` on belong; `unpack` is
`MPID_Segment_unpack`, which puts them there.  Both say where they stopped. -/
structure Segments (δ σ : Type) where
  init : σ
  vector : δ → σ → Int → Int → Nat → σ × Int × List (Int × Nat)
  unpack : δ → σ → Int → Int → σ × Int × List Int

inductive RequestType
  | recv
  | putRecv
  | accumRecv
  | getAccumRecv
  | getAccumResp
deriving Repr, DecidableEq

/-- An entry of the IOV: user memory, or a place in the staging buffer. -/
inductive Iov
  | user (address : Int) (len : Nat)
  | tmpbuf (off : Int) (len : Nat)
deriving Repr, DecidableEq

def Iov.len : Iov → Nat
  | .user _ len => len
  | .tmpbuf _ len => len

/-- `OnDataAvail`; `final` is `OnFinal`. -/
inductive Handler
  | final
  | reloadIov
  | unpackSrbufReloadIov
  | unpackSrbufComplete
deriving Repr, DecidableEq

/-- What is to be done next for a request; `arrive` is for the channel to do. -/
inductive Stage
  | load
  | arrive (onDataAvail : Handler)
  | unpack (complete : Bool)
  | done
deriving Repr, DecidableEq

structure Message (β : Type) where
  dataSz : Int
  bytes : Nat → β

/-- What the callers set up: `MPIDI_CH3U_Receive_data_found` and the one-sided handlers that read from the
start, or the ones that go on at an offset of the stream. -/
inductive Caller
  | receiveDataFound (userbufSz : Int)
  | stream (offset : Int)
deriving Repr, DecidableEq

structure Receive (δ β : Type) where
  type : RequestType
  datatype : δ
  caller : Caller
  message : Message β
  tmpbuf : Nat → β

section Fresh
variable {δ β : Type} (r : Receive δ β)

def Receive.segmentFirst : Int :=
  match r.caller with
  | .receiveDataFound _ => 0
  | .stream offset => offset

def Receive.segmentSize : Int :=
  match r.caller with
  | .receiveDataFound userbufSz => if r.message.dataSz ≤ userbufSz then r.message.dataSz else userbufSz
  | .stream offset => offset + r.message.dataSz

def RequestType.accum (type : RequestType) : Prop := type = .accumRecv ∨ type = .getAccumRecv

instance (type : RequestType) : Decidable type.accum := inferInstanceAs (Decidable (_ ∨ _))

end Fresh

/-- The fields of `dev`; `consumed` counts the bytes read from the connection and `written` has what has been put
into the user buffer, in order. -/
structure Request (δ σ β : Type) where
  receive : Receive δ β
  segment : σ
  segmentFirst : Int
  segmentSize : Int
  srbuf : Bool
  tmpbuf : Nat → β
  tmpbufOff : Int
  tmpbufSz : Int
  iov : List Iov
  stage : Stage
  mpiError : Bool
  consumed : Nat
  written : List (Int × β)

inductive Fault
  | nothingToStage
  | pastTheEnd
  | firstNotBeforeLast
  | lastNotPositive
  | iovCount
  | srbufInUse
  | notRecv
deriving Repr, DecidableEq

section Loading
variable {δ σ β : Type} (S : Segments δ σ)

def Receive.request (r : Receive δ β) : Request δ σ β where
  receive := r
  segment := S.init
  segmentFirst := r.segmentFirst
  segmentSize := r.segmentSize
  srbuf := r.type.accum
  tmpbuf := r.tmpbuf
  tmpbufOff := 0
  tmpbufSz := if r.type.accum then srbufSize else 0
  iov := []
  stage := .load
  mpiError := false
  consumed := 0
  written := []

def Request.recvDataSz (r : Request δ σ β) : Int := r.receive.message.dataSz

/-- The branch for an SRBuf in use, `ch3u_request.c:278-314`; `orig` is the value of `orig_segment_first`, and what is
returned with the request its value afterwards, `none` for unset. -/
def loadStaged (orig : Int) (r : Request δ σ β) : Except Fault (Option Int × Request δ σ β) := do
  let dataSz := r.segmentSize - r.segmentFirst - r.tmpbufOff
  require (0 < dataSz) .nothingToStage
  let tmpbufSz := r.tmpbufSz - r.tmpbufOff
  let dataSz := if dataSz > tmpbufSz then tmpbufSz else dataSz
  let r := { r with iov := [.tmpbuf r.tmpbufOff (toLength dataSz)] }
  require (r.segmentFirst - orig + dataSz + r.tmpbufOff ≤ r.recvDataSz) .pastTheEnd
  if r.segmentFirst - orig + dataSz + r.tmpbufOff = r.recvDataSz then
    .ok (none, { r with stage := .arrive .unpackSrbufComplete })
  else .ok (some orig, { r with stage := .arrive .unpackSrbufReloadIov })

/-- The branch that receives and tosses the extra data, `ch3u_request.c:404-445`. -/
def loadOverflow (orig : Int) (r : Request δ σ β) : Except Fault (Option Int × Request δ σ β) :=
  let dataSz := r.recvDataSz - r.segmentFirst
  let r := if r.srbuf then r else { r with srbuf := true, tmpbufSz := srbufSize }
  if dataSz ≤ r.tmpbufSz then do
    require (r.receive.type = .recv) .notRecv
    .ok (none, { r with iov := [.tmpbuf 0 (toLength dataSz)], stage := .arrive .final })
  else
    .ok (some orig, { r with
      iov := [.tmpbuf 0 (toLength r.tmpbufSz)]
      segmentFirst := r.segmentFirst + r.tmpbufSz
      stage := .arrive .reloadIov })

/-- `MPIDI_CH3U_Request_load_recv_iov`; its two calls of itself go to the branches that they take. -/
def loadRecvIov (static : Option Int) (r : Request δ σ β) : Except Fault (Option Int × Request δ σ β) :=
  let orig := static.getD r.segmentFirst
  if r.segmentFirst < r.segmentSize then
    if ¬ r.receive.type.accum ∧ r.srbuf then loadStaged orig r
    else do
      require (r.segmentFirst < r.segmentSize) .firstNotBeforeLast
      require (0 < r.segmentSize) .lastNotPositive
      let (segment, last, pieces) :=
        S.vector r.receive.datatype r.segment r.segmentFirst r.segmentSize iovLimit
      let r := { r with segment := segment, iov := pieces.map fun piece : Int × Nat => .user piece.1 piece.2 }
      require (pieces.length ≤ iovLimit) .iovCount
      if pieces.length = 0 then
        loadOverflow orig { r with mpiError := true, segmentSize := r.segmentFirst }
      else if last = r.recvDataSz + orig then .ok (none, { r with stage := .arrive .final })
      else if r.receive.type.accum ∨ last = r.segmentSize ∨
          iovDensityMin ≤ (last - r.segmentFirst) / pieces.length then
        .ok (some orig, { r with segmentFirst := last, stage := .arrive .reloadIov })
      else do
        require (r.srbuf = false) .srbufInUse
        loadStaged orig { r with srbuf := true, tmpbufSz := srbufSize, tmpbufOff := 0 }
  else loadOverflow orig r

def unpackSrbuf (r : Request δ σ β) : Request δ σ β :=
  let tmpbufLast := toInt (r.segmentFirst + r.tmpbufSz)
  let tmpbufLast := if r.segmentSize < tmpbufLast then toInt r.segmentSize else tmpbufLast
  let (segment, last, places) := S.unpack r.receive.datatype r.segment r.segmentFirst tmpbufLast
  let r := { r with
    segment := segment
    written := r.written ++ places.mapIdx fun k address => (address, r.tmpbuf k) }
  if last = 0 ∨ last = r.segmentFirst then
    -- no data can be unpacked: the rest is thrown away
    { r with
      segmentSize := r.segmentFirst
      segmentFirst := r.segmentFirst + tmpbufLast
      mpiError := true }
  else if tmpbufLast = r.segmentSize then
    if last ≠ tmpbufLast then { r with segmentSize := last, segmentFirst := tmpbufLast, mpiError := true } else r
  else
    let off := toInt (tmpbufLast - last)
    { r with
      tmpbufOff := off
      tmpbuf := if 0 < off then
          fun k => if k < off.toNat then r.tmpbuf (k + (last - r.segmentFirst).toNat) else r.tmpbuf k
        else r.tmpbuf
      segmentFirst := last }

def fill (r : Request δ σ β) : Iov → Request δ σ β
  | .user address len => { r with
      written := r.written ++ (List.range len).map fun k : Nat =>
        (address + k, r.receive.message.bytes (r.consumed + k))
      consumed := r.consumed + len }
  | .tmpbuf off len => { r with
      tmpbuf := fun k =>
        if off.toNat ≤ k ∧ k < off.toNat + len then r.receive.message.bytes (r.consumed + (k - off.toNat)) else r.tmpbuf k
      consumed := r.consumed + len }

/-- The IOV is filled and `OnDataAvail` called; the two calls of `UnpackSRBufReloadIOV` come next, one after the
other. -/
def arrive (onDataAvail : Handler) (r : Request δ σ β) : Request δ σ β :=
  let r := r.iov.foldl fill r
  match onDataAvail with
  | .final => { r with stage := .done }
  | .reloadIov => { r with stage := .load }
  | .unpackSrbufReloadIov => { r with stage := .unpack false }
  | .unpackSrbufComplete => { r with stage := .unpack true }

structure World (δ σ β : Type) where
  origSegmentFirst : Option Int
  request : Nat → Option (Request δ σ β)

def World.init : World δ σ β := ⟨none, fun _ => none⟩

def World.set (w : World δ σ β) (i : Nat) (r : Request δ σ β) : World δ σ β :=
  { w with request := Function.update w.request i (some r) }

inductive Op (δ β : Type)
  | start (i : Nat) (r : Receive δ β)
  | load (i : Nat)
  | arrive (i : Nat)
  | unpack (i : Nat)

def step (w : World δ σ β) : Op δ β → Except Fault (World δ σ β)
  | .start i r =>
    match w.request i with
    | some _ => .ok w
    | none => .ok (w.set i (r.request S))
  | .load i =>
    match w.request i with
    | some r =>
      if r.stage = .load then do
        let (static, r) ← loadRecvIov S w.origSegmentFirst r
        .ok { w.set i r with origSegmentFirst := static }
      else .ok w
    | none => .ok w
  | .arrive i =>
    match w.request i with
    | some r =>
      match r.stage with
      | .arrive onDataAvail => .ok (w.set i (arrive onDataAvail r))
      | _ => .ok w
    | none => .ok w
  | .unpack i =>
    match w.request i with
    | some r =>
      match r.stage with
      | .unpack complete => .ok (w.set i { unpackSrbuf S r with stage := if complete then .done else .load })
      | _ => .ok w
    | none => .ok w

end Loading

end FgMpi.Drain.LoadIov
