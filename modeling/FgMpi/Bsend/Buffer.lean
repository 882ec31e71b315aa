import FgMpi.Machine.DoublyLinked
import FgMpi.Machine.Ints
import FgMpi.Machine.Runs

/-! `mpi/pt2pt/bsendutil.c`. -/

namespace FgMpi.Bsend.Buffer
open Machine.DoublyLinked Machine.Ints

/-- `BSENDDATA_HEADER_TRUE_SIZE`; two sizes, four pointers and more are in it. -/
structure Layout where
  header : Nat
  pos : 8 ≤ header

/-- `MPI_BSEND_OVERHEAD` is `sizeof(MPIR_Bsend_data_t)`, that is the header and the `double` that
aligns it. -/
def Layout.overhead (L : Layout) : Nat := L.header + 8

/-- `MPIR_Bsend_kind_t` -/
inductive Kind
  | bsend
  | ibsend
  | bsendInit
deriving Repr, DecidableEq

inductive Errno
  | success
  | bufexists
  | bsendbufsmall
  | bsendpending
  | bufbsend
  | intern
  | other
deriving Repr, DecidableEq

/-- The calls of `MPIR_Bsend_take_buffer` and `MPIR_Bsend_free_segment`, in the order in which they are
made. -/
inductive Event
  | taken (segment : Nat)
  | freed (segment : Nat)
deriving Repr, DecidableEq

/-- `MPIR_Bsend_data_t`, at every address. -/
structure Headers where
  size : Nat → Nat
  totalSize : Nat → Nat
  next : Nat → Option Nat
  prev : Nat → Option Nat
  kind : Nat → Kind
  request : Nat → Option Nat
  msgbuf : Nat → Nat
  count : Nat → Int

/-- `BsendBuffer` -/
structure Arena extends Headers where
  buffer : Option Nat
  bufferSize : Nat
  origbuffer : Option Nat
  origbufferSize : Nat
  avail : Option Nat
  pending : Option Nat
  active : Option Nat
  events : List Event

/-- The conversion to `size_t`. -/
def toSize (n : Int) : Nat := (n % 2 ^ 64).toNat

section Stores
variable (L : Layout) (s : Arena)

def setNext (p : Nat) (v : Option Nat) : Arena :=
  { s with next := Function.update s.next p v }

/-- `if (u) u->next = v; else BsendBuffer.avail = v;` -/
def setAvail (u v : Option Nat) : Arena :=
  match u with
  | some q => setNext s q v
  | none => { s with avail := v }

/-- `if (u) u->next = v; else BsendBuffer.active = v;` -/
def setActive (u v : Option Nat) : Arena :=
  match u with
  | some q => setNext s q v
  | none => { s with active := v }

/-- `if (q) q->prev = v;` -/
def setPrev (q v : Option Nat) : Arena :=
  match q with
  | some q => { s with prev := Function.update s.prev q v }
  | none => s

def setTotal (p n : Nat) : Arena :=
  { s with
    totalSize := Function.update s.totalSize p n
    size := Function.update s.size p (n - L.header) }

end Stores

section Functions
variable (L : Layout) (fuel : Nat)

def removeActive (s : Arena) (p : Nat) : Arena :=
  let t := setActive s (s.prev p) (s.next p)
  setPrev t (t.next p) (s.prev p)

def mergeNext (s : Arena) (p : Nat) (avail : Option Nat) : Arena :=
  match avail with
  | some q =>
    if p + s.totalSize p = q then
      let t := setTotal L s p (s.totalSize p + s.totalSize q)
      let t := setNext t p (t.next q)
      setPrev t (t.next q) (some p)
    else setPrev (setNext s p (some q)) (some q) (some p)
  | none => setNext s p none

def mergePrev (s : Arena) (p : Nat) (availPrev : Option Nat) : Arena :=
  match availPrev with
  | some q =>
    if q + s.totalSize q = p then
      let t := setTotal L s q (s.totalSize q + s.totalSize p)
      let t := setNext t q (t.next p)
      setPrev t (t.next p) (some q)
    else setPrev (setNext s q (some p)) (some p) (some q)
  | none => setPrev { s with avail := some p } (some p) none

def freeSegment (s : Arena) (p : Nat) : Option Arena :=
  let t := removeActive s p
  match seek t.next (fun q => p < q) fuel none s.avail with
  | none => none
  | some (availPrev, avail) =>
    let t := mergePrev L (mergeNext L t p avail) p availPrev
    some { t with events := t.events ++ [.freed p] }

/-- What the requests answer to a check: the reference count, the outcome of `MPIR_Test_impl` (`none`
for an error) and the one of `MPID_Progress_test`, for the request of every segment. -/
structure Progress where
  ref : Nat → Nat
  test : Nat → Option Bool
  progress : Nat → Bool

def testActive (e : Progress) (s : Arena) (p : Nat) : Option Bool :=
  if s.kind p = .ibsend then
    if e.ref p = 1 then e.test p
    else if e.progress p then some false
    else none
  else e.test p

def checkLoop (e : Progress) : Nat → Arena → Option Nat → Option (Arena × Errno)
  | _, s, none => some (s, .success)
  | 0, _, some _ => none
  | n + 1, s, some p =>
    let nextActive := s.next p
    match testActive e s p with
    | none => some (s, .other)
    | some false => checkLoop e n s nextActive
    | some true =>
      match freeSegment L fuel s p with
      | none => none
      | some s => checkLoop e n s nextActive

def checkActive (e : Progress) (s : Arena) : Option (Arena × Errno) := checkLoop L fuel e fuel s s.active

def freeReqLoop (req : Nat) : Nat → Arena → Option Nat → Errno → Option (Arena × Errno)
  | _, s, none, errno => some (s, errno)
  | 0, _, some _, _ => none
  | n + 1, s, some p, errno =>
    if s.request p = some req then
      match freeSegment L fuel s p with
      | none => none
      | some s => freeReqLoop req n s (s.next p) .success
    else freeReqLoop req n s (s.next p) errno

def freeReqSeg (s : Arena) (req : Nat) : Option (Arena × Errno) :=
  freeReqLoop L fuel req fuel s s.active .intern

def findBuffer (s : Arena) (size : Int) : Option (Option Nat) :=
  (seek s.next (fun p => toSize size ≤ s.size p) fuel none s.avail).map Prod.snd

def minBufferBlock : Nat := 8

def allocSize (size : Int) : Int :=
  if size % 8 ≠ 0 then toInt (size + (8 - size % 8)) else size

/-- Break the block into used and new.  The new header is written but for its kind and its request,
which are what the bytes there hold. -/
def splitBlock (bytes : Headers) (s : Arena) (p : Nat) (alloc : Nat) : Arena :=
  let newp := p + L.header + alloc
  let t := setTotal L s newp (s.totalSize p - alloc - L.header)
  let t := { t with
    msgbuf := Function.update t.msgbuf newp (newp + L.header)
    kind := Function.update t.kind newp (bytes.kind newp)
    request := Function.update t.request newp (bytes.request newp) }
  let t := setNext t newp (t.next p)
  let t := setPrev t (some newp) (some p)
  let t := setPrev t (t.next p) (some newp)
  let t := setNext t p (some newp)
  setTotal L t p (newp - p)

def moveToActive (s : Arena) (p : Nat) : Arena :=
  let t := setAvail s (s.prev p) (s.next p)
  let t := setPrev t (t.next p) (t.prev p)
  let t := setPrev t t.active (some p)
  let t := setNext t p t.active
  let t := setPrev t (some p) none
  { t with active := some p, events := t.events ++ [.taken p] }

def takeBuffer (bytes : Headers) (s : Arena) (p : Nat) (size : Int) : Arena :=
  let alloc := allocSize size
  if toSize (toInt (toInt (alloc + toInt L.header) + minBufferBlock)) ≤ s.size p then
    moveToActive (splitBlock L bytes s p alloc.toNat) p
  else moveToActive s p

/-- What the calls of one send answer: the two checks, whether the pack and `MPID_Isend` succeed, and
the request.  `bytes` is what the overwritten bytes read as when they are taken for headers. -/
structure Send where
  first : Progress
  second : Progress
  packs : Bool
  sends : Bool
  request : Option Nat
  bytes : Headers

def overwrite (s : Arena) (bytes : Headers) (lo n : Nat) : Arena :=
  let hit (x : Nat) : Bool := 0 < n ∧ x < lo + n ∧ lo < x + L.header
  { s with
    size := fun x => if hit x then bytes.size x else s.size x
    totalSize := fun x => if hit x then bytes.totalSize x else s.totalSize x
    next := fun x => if hit x then bytes.next x else s.next x
    prev := fun x => if hit x then bytes.prev x else s.prev x
    kind := fun x => if hit x then bytes.kind x else s.kind x
    request := fun x => if hit x then bytes.request x else s.request x
    msgbuf := fun x => if hit x then bytes.msgbuf x else s.msgbuf x
    count := fun x => if hit x then bytes.count x else s.count x }

/-- `MPIR_Pack_impl` writes all of the `packsize` bytes and counts them in an `int`; `MPID_Isend` gives
the request. -/
def packInto (e : Send) (s : Arena) (p packsize : Nat) : Arena :=
  let t := overwrite L s e.bytes (s.msgbuf p) packsize
  { t with
    count := Function.update t.count p (toInt packsize)
    request := Function.update t.request p e.request }

def sendFrom (e : Send) (s : Arena) (p packsize : Nat) (kind : Kind) : Arena × Errno :=
  let t := { s with count := Function.update s.count p 0 }
  if e.packs = false then (t, .other)
  else
    let t := packInto L e t p packsize
    if e.sends = false then (t, .intern)
    else if e.request = none then (t, .success)
    else
      let t := takeBuffer L e.bytes t p (toInt (t.count p))
      ({ t with kind := Function.update t.kind p kind }, .success)

def isend (e : Send) (s : Arena) (packsize : Nat) (kind : Kind) : Option (Arena × Errno) :=
  match checkActive L fuel e.first s with
  | none => none
  | some (s, errno) =>
    if errno ≠ .success then some (s, errno)
    else
      match findBuffer fuel s (toInt packsize) with
      | none => none
      | some (some p) => some (sendFrom L e s p packsize kind)
      | some none =>
        -- the errors of the second check are not looked at, and nothing is ever pending
        match checkActive L fuel e.second s with
        | none => none
        | some (s, _) =>
          match findBuffer fuel s (toInt packsize) with
          | none => none
          | some (some p) => some (sendFrom L e s p packsize kind)
          | some none => some (s, .bufbsend)

/-- The first block gets the size the user gave, also when the buffer has been aligned. -/
def attach (s : Arena) (buffer : Nat) (bufferSize : Int) : Arena × Errno :=
  if s.buffer ≠ none then (s, .bufexists)
  else if bufferSize < L.overhead then (s, .bsendbufsmall)
  else
    let offset := if buffer % 8 ≠ 0 then 8 - buffer % 8 else 0
    let p := buffer + offset
    let t := { s with
      origbuffer := some buffer
      origbufferSize := bufferSize.toNat
      buffer := some p
      bufferSize := bufferSize.toNat - offset
      avail := some p
      pending := none
      active := none }
    let t := setTotal L t p bufferSize.toNat
    let t := setPrev (setNext t p none) (some p) none
    ({ t with msgbuf := Function.update t.msgbuf p (p + L.header) }, .success)

def detach (s : Arena) : Option (Arena × Errno) :=
  if s.pending ≠ none then some (s, .bsendpending)
  else
    match seek s.next (fun _ => false) fuel none s.active with
    | none => none
    | some _ =>
      some ({ s with
        origbuffer := none
        origbufferSize := 0
        buffer := none
        bufferSize := 0
        avail := none
        active := none
        pending := none }, .success)

inductive Op
  | attach (buffer : Nat) (bufferSize : Int)
  | detach
  | isend (packsize : Nat) (kind : Kind) (e : Send)
  | checkActive (e : Progress)
  | freeReqSeg (req : Nat)

def call (s : Arena) : Op → Option (Arena × Errno)
  | .attach buffer bufferSize => some (attach L s buffer bufferSize)
  | .detach => detach fuel s
  | .isend packsize kind e => isend L fuel e s packsize kind
  | .checkActive e => checkActive L fuel e s
  | .freeReqSeg req => freeReqSeg L fuel s req

/-- `error ()` when a loop does not end within the fuel. -/
def step (s : Arena) (op : Op) : Except Unit Arena :=
  match call L fuel s op with
  | none => .error ()
  | some (s, _) => .ok s

end Functions

def blank : Headers where
  size := fun _ => 0
  totalSize := fun _ => 0
  next := fun _ => none
  prev := fun _ => none
  kind := fun _ => .bsend
  request := fun _ => none
  msgbuf := fun _ => 0
  count := fun _ => 0

def initial (bytes : Headers) : Arena where
  toHeaders := bytes
  buffer := none
  bufferSize := 0
  origbuffer := none
  origbufferSize := 0
  avail := none
  pending := none
  active := none
  events := []

end FgMpi.Bsend.Buffer
