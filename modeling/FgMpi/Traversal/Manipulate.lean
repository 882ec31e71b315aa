import FgMpi.Machine.Turns
import FgMpi.Traversal.Dataloops

/-! `DLOOP_Segment_init` and `DLOOP_Segment_manipulate` (`mpid/common/datatype/dataloop/segment.c`). -/

namespace FgMpi.Traversal.Manipulate
open Types.Constructors (Builtin)
open Machine.Turns Traversal.Dataloops

/-- An array of a loop with `count` blocks is read, something is divided by, or a stack element is
used. -/
inductive Event
  | read (index : Int) (count : Nat)
  | divide (divisor : Int)
  | element (sp : Int)
deriving Repr, DecidableEq

/-- `DLOOP_Assert`, a pointer to nothing, and a loop that goes round more often than the dataloop
allows. -/
inductive Fault
  | assertion
  | pointer
  | rounds
deriving Repr, DecidableEq

/-- `DLOOP_Dataloop_stackelm`. -/
structure Stackelm where
  mayRequireReloading : Bool
  curcount : Int
  curoffset : Int
  curblock : Int
  origCount : Int
  origOffset : Int
  origBlock : Int
  loopP : Dataloop

/-- `DLOOP_MAX_DATATYPE_DEPTH` and `SEGMENT_IGNORE_LAST`. -/
def maxDatatypeDepth : Nat := 16
def ignoreLast : Int := -1

structure Segment where
  ptr : Int
  streamOff : Int
  stackelm : Nat → Stackelm
  curSp : Int

section Arrays
variable (beyond : Int → Int)

def readArray (xs : List Int) (i : Int) : Int :=
  match i with
  | .ofNat n => xs.getD n (beyond n)
  | .negSucc n => beyond (.negSucc n)

def readBlocksizes (xs : List Nat) (i : Int) : Int := readArray beyond (xs.map fun n : Nat => (n : Int)) i

def paramsBlocksize (i : Int) : Params → Int
  | .contig count => count
  | .vector _ blocksize _ => blocksize
  | .blockindexed _ blocksize _ => blocksize
  | .indexed _ blocksizeArray _ _ => readBlocksizes beyond blocksizeArray i

def paramsOffset (i : Int) : Params → Int
  | .contig _ => 0
  | .vector _ _ _ => 0
  | .blockindexed _ _ offsetArray => readArray beyond offsetArray i
  | .indexed _ _ offsetArray _ => readArray beyond offsetArray i

def blocksizeAt (i : Int) : Dataloop → Int
  | .leaf p _ => paramsBlocksize beyond i p
  | .node p _ _ => paramsBlocksize beyond i p
  | .struct ms => readBlocksizes beyond (ms.list.map (·.blocksize)) i

def offsetAt (i : Int) : Dataloop → Int
  | .leaf p _ => paramsOffset beyond i p
  | .node p _ _ => paramsOffset beyond i p
  | .struct ms => readArray beyond (ms.list.map (·.offset)) i

/-- `DLOOP_Stackelm_blocksize` and `DLOOP_Stackelm_offset`. -/
def stackelmBlocksize (elm : Stackelm) : Int :=
  blocksizeAt beyond (elm.origCount - elm.curcount) elm.loopP

def stackelmOffset (elm : Stackelm) : Int := offsetAt beyond (elm.origCount - elm.curcount) elm.loopP

end Arrays

def paramsBlocksizeLog (i : Int) : Params → List Event
  | .indexed count _ _ _ => [.read i count]
  | _ => []

def paramsOffsetLog (i : Int) : Params → List Event
  | .blockindexed count _ _ => [.read i count]
  | .indexed count _ _ _ => [.read i count]
  | _ => []

def blocksizeLog (i : Int) : Dataloop → List Event
  | .leaf p _ => paramsBlocksizeLog i p
  | .node p _ _ => paramsBlocksizeLog i p
  | .struct ms => [.read i ms.list.length]

def offsetLog (i : Int) : Dataloop → List Event
  | .leaf p _ => paramsOffsetLog i p
  | .node p _ _ => paramsOffsetLog i p
  | .struct ms => [.read i ms.list.length]

def paramsOrigCount : Params → Nat
  | .contig _ => 1
  | p => p.count

def loopOrigCount : Dataloop → Nat
  | .leaf p _ => paramsOrigCount p
  | .node p _ _ => paramsOrigCount p
  | .struct ms => ms.list.length

def isStruct : Dataloop → Bool
  | .struct _ => true
  | _ => false

/-- `DLOOP_KIND_INDEXED` and `DLOOP_KIND_STRUCT`: every block has a size of its own. -/
def ownBlocksizes : Dataloop → Bool
  | .leaf (.indexed _ _ _ _) _ => true
  | .node (.indexed _ _ _ _) _ _ => true
  | .struct _ => true
  | _ => false

section Init
variable (beyond : Int → Int)

def stackelmLoad (elm : Stackelm) (dlp : Dataloop) (branchFlag : Bool) : Stackelm :=
  let elm :=
    { elm with
      loopP := dlp
      origCount := loopOrigCount dlp
      mayRequireReloading := branchFlag || isStruct dlp
      curcount := loopOrigCount dlp }
  { elm with origBlock := stackelmBlocksize beyond elm }

/-- What the macros say of a datatype for the loops of one flag. -/
structure TypeLoop where
  size : Nat
  extent : Int
  basicType : Builtin
  loop : Option (Dataloop × Nat)

def contigOf : Dataloop → Option (Nat × El)
  | .leaf (.contig count) el => some (count, el)
  | .node (.contig count) el _ => some (count, el)
  | _ => none

/-- The loop of `DLOOP_Segment_init`, that of the type or `builtin_loop`, and its depth.  `el_type` is
not set when the count is 0. -/
def initLoop (handle : TypeLoop) (count : Nat) : Dataloop × Nat :=
  match handle.loop with
  | none => (.leaf (.contig count) ⟨handle.size, handle.extent, handle.basicType⟩, 1)
  | some (oldloop, depth) =>
    if count = 0 then (.leaf (.contig 0) ⟨0, 0, handle.basicType⟩, 1)
    else if count = 1 then (oldloop, depth)
    else
      let general : Dataloop × Nat :=
        (.node (.contig count) ⟨handle.size, handle.extent, handle.basicType⟩ oldloop, depth + 1)
      match contigOf oldloop with
      | some (oldcount, el) =>
        if depth = 1 then
          if (handle.size : Int) = handle.extent then (.leaf (.contig (count * oldcount)) el, depth)
          else (.leaf (.vector count oldcount handle.extent) el, depth)
        else general
      | none => general

mutual

/-- The loop of `DLOOP_Segment_init` that fills the stack elements below the first one. -/
def loadRest : Dataloop → Bool → Nat → (Nat → Stackelm) → Except Fault (Nat → Stackelm)
  | .leaf _ _, _, _, st => .ok st
  | .node _ _ dlp, branchDetected, i, st =>
    if i < maxDatatypeDepth then
      let elm := stackelmLoad beyond (st i) dlp branchDetected
      loadRest dlp elm.mayRequireReloading (i + 1) (Function.update st i elm)
    else .error .assertion
  | .struct ms, branchDetected, i, st => loadFirst ms branchDetected i st

def loadFirst : Members → Bool → Nat → (Nat → Stackelm) → Except Fault (Nat → Stackelm)
  | .nil, _, _, _ => .error .pointer
  | .cons _ _ _ dlp _, branchDetected, i, st =>
    if i < maxDatatypeDepth then
      let elm := stackelmLoad beyond (st i) dlp branchDetected
      loadRest dlp elm.mayRequireReloading (i + 1) (Function.update st i elm)
    else .error .assertion

end

/-- `DLOOP_Segment_init` with its loop; `st` is what the stack elements held before. -/
def segmentInit (buf : Int) (st : Nat → Stackelm) (dlp : Dataloop) (depth : Nat) : Except Fault Segment :=
  if depth < maxDatatypeDepth then
    let elm := stackelmLoad beyond (st 0) dlp false
    let elm := { elm with origOffset := 0, curblock := elm.origBlock }
    let elm := { elm with curoffset := stackelmOffset beyond elm }
    match loadRest beyond dlp elm.mayRequireReloading 1 (Function.update st 0 elm) with
    | .error f => .error f
    | .ok stackelm => .ok ⟨buf, 0, stackelm, 0⟩
  else .error .assertion

end Init

inductive Piece
  | contig (elType : Builtin) (relOff : Int)
  | vector (count blklen stride : Int) (elType : Builtin) (relOff : Int)
  | blkidx (count blklen : Int) (offsetarray : List Int) (elType : Builtin) (relOff : Int)
  | index (count : Int) (blockarray : List Nat) (offsetarray : List Int) (elType : Builtin)
    (relOff : Int)
deriving Repr, DecidableEq

/-- What it returns: the blocks it has processed, and whether to quit.  `failed` is an assertion in
it. -/
structure Ret (σ : Type) where
  blocks : Int
  exit : Bool
  pieceparams : σ
  failed : Bool

/-- The function arguments of `DLOOP_Segment_manipulate`: which pointers are not `NULL`, and what the
functions do. -/
structure Pieces (σ : Type) where
  contigfn : Bool
  vectorfn : Bool
  blkidxfn : Bool
  indexfn : Bool
  apply : Piece → Int → Int → σ → Ret σ
  sizefn : Option (Builtin → Nat)

def nullPieces (sizefn : Option (Builtin → Nat)) : Pieces Unit where
  contigfn := false
  vectorfn := false
  blkidxfn := false
  indexfn := false
  apply := fun _ blocks _ params => ⟨blocks, false, params, false⟩
  sizefn := sizefn

structure Local (σ : Type) where
  stackelm : Nat → Stackelm
  curSp : Int
  streamOff : Int
  pieceparams : σ
  log : List Event
  fault : Option Fault

section Turn
variable {σ : Type} (beyond : Int → Int)

def Local.curElmp (m : Local σ) : Stackelm := m.stackelm m.curSp.toNat

def Local.set (m : Local σ) (elm : Stackelm) : Local σ :=
  { m with stackelm := Function.update m.stackelm m.curSp.toNat elm }

def Local.add (m : Local σ) (events : List Event) : Local σ := { m with log := m.log ++ events }

def Local.fail (m : Local σ) (f : Fault) : Turn (Local σ) (Local σ) :=
  .leave { m with fault := some f }

/-- `DLOOP_SEGMENT_POP_AND_MAYBE_EXIT`, and then the exit that a piece function has asked for. -/
def Local.pop (m : Local σ) (exit : Bool) : Turn (Local σ) (Local σ) :=
  if m.curSp - 1 < 0 ∨ exit = true then .leave { m with curSp := m.curSp - 1 }
  else .again ({ m with curSp := m.curSp - 1 }.add [.element (m.curSp - 1)])

variable (fns : Pieces σ)

def streamElSize (el : El) : Nat :=
  match fns.sizefn with
  | some sizefn => sizefn el.type
  | none => el.size

/-- The piece function to use, `none` if there is none, and the blocks for it. -/
def choose (p : Params) (el : El) (elm : Stackelm) : Option Piece × Int :=
  let plain : Option Piece × Int :=
    (if fns.contigfn then some (.contig el.type elm.curoffset) else none, elm.curblock)
  match p with
  | .contig _ => plain
  | .blockindexed _ _ offsetArray =>
    if fns.blkidxfn = true ∧ elm.origBlock = elm.curblock ∧ elm.origCount = elm.curcount then
      (some (.blkidx elm.curcount elm.origBlock offsetArray el.type elm.origOffset),
        elm.curblock * elm.curcount)
    else plain
  | .indexed _ blocksizeArray offsetArray totalBlocks =>
    if fns.indexfn = true ∧ elm.origCount = elm.curcount ∧
        elm.curblock = readBlocksizes beyond blocksizeArray 0 then
      (some (.index elm.curcount blocksizeArray offsetArray el.type elm.origOffset), totalBlocks)
    else plain
  | .vector _ _ stride =>
    if fns.vectorfn = true ∧ elm.origBlock = elm.curblock then
      (some (.vector elm.curcount elm.origBlock stride el.type elm.curoffset),
        elm.curblock * elm.curcount)
    else plain

def chooseLog (p : Params) (elm : Stackelm) : List Event :=
  match p with
  | .indexed count _ _ _ =>
    if fns.indexfn = true ∧ elm.origCount = elm.curcount then [.read 0 count] else []
  | _ => []

structure Skip where
  myblocks : Int
  curcount : Int
  curblock : Int
  countIndex : Int
  log : List Event

/-- `while (myblocks > 0 && myblocks >= curblock)`; `none` if the assertion in it fails. -/
def skipBlocks (origCount : Int) (next : Int → Int) (nextLog : Int → List Event) :
    Nat → Skip → Option Skip
  | 0, s => some s
  | n + 1, s =>
    if s.myblocks > 0 ∧ s.myblocks ≥ s.curblock then
      let countIndex := origCount - (s.curcount - 1)
      if s.curcount - 1 < 0 then none
      else
        skipBlocks origCount next nextLog n
          { myblocks := s.myblocks - s.curblock
            curcount := s.curcount - 1
            curblock := next countIndex
            countIndex := countIndex
            log := s.log ++ nextLog countIndex }
    else some s

/-- The stack element after whole blocks of a leaf have been processed; it is popped when its count
is exhausted.  No result if an assertion fails. -/
structure Advance where
  elm : Stackelm
  pop : Bool
  log : List Event

def skipped (el : El) (elm : Stackelm) (offsetArray : List Int) (count : Nat) (newOrig : Int → Int)
    (s : Skip) : Option Advance :=
  if s.curcount = 0 then
    if s.myblocks = 0 then
      some ⟨{ elm with curcount := s.curcount, curblock := s.curblock }, true, s.log⟩
    else none
  else
    some
      ⟨{ elm with
          curcount := s.curcount
          origBlock := newOrig s.curblock
          curoffset := elm.origOffset + readArray beyond offsetArray s.countIndex + s.myblocks * el.size
          curblock := s.curblock - s.myblocks },
        false, s.log ++ [.read s.countIndex count]⟩

def advance (p : Params) (el : El) (elm : Stackelm) (myblocks : Int) : Option Advance :=
  match p with
  | .indexed count blocksizeArray offsetArray _ =>
    (skipBlocks elm.origCount (readBlocksizes beyond blocksizeArray) (fun i => [.read i count])
      (elm.curcount.toNat + 1) ⟨myblocks, elm.curcount, elm.curblock, 0, []⟩).bind
      (skipped beyond el elm offsetArray count fun curblock => curblock)
  | .vector _ _ stride =>
    let curcount := elm.curcount - myblocks.tdiv elm.curblock
    if curcount = 0 then
      if myblocks.tmod elm.curblock = 0 then
        some ⟨{ elm with curcount := curcount }, true, [.divide elm.curblock]⟩
      else none
    else
      let curblock := elm.origBlock - myblocks.tmod elm.curblock
      some
        ⟨{ elm with
            curcount := curcount
            curblock := curblock
            curoffset := elm.origOffset + (elm.origCount - curcount) * stride +
              (elm.origBlock - curblock) * el.size },
          false, [.divide elm.curblock]⟩
  | .contig _ => if myblocks = elm.curblock ∧ elm.curcount = 1 then some ⟨elm, true, []⟩ else none
  | .blockindexed count _ offsetArray =>
    (skipBlocks elm.origCount (fun _ => elm.origBlock) (fun _ => []) (elm.curcount.toNat + 1)
      ⟨myblocks, elm.curcount, elm.curblock, 0, []⟩).bind
      (skipped beyond el elm offsetArray count fun _ => elm.origBlock)

def update (p : Params) (el : El) (m : Local σ) (ret : Ret σ) : Turn (Local σ) (Local σ) :=
  let elm := m.curElmp
  let m :=
    { m with
      streamOff := m.streamOff + ret.blocks * streamElSize fns el
      pieceparams := ret.pieceparams }
  if ret.failed = true ∨ ret.blocks < 0 then m.fail .assertion
  else if ret.blocks = 0 then .leave m
  else if ret.blocks < elm.curblock then
    .leave (m.set
      { elm with
        curoffset := elm.curoffset + ret.blocks * el.size
        curblock := elm.curblock - ret.blocks })
  else
    match advance beyond p el elm ret.blocks with
    | none => m.fail .assertion
    | some a =>
      let m := (m.set a.elm).add a.log
      if a.pop then m.pop ret.exit else if ret.exit then .leave m else .again m

variable (ptr last : Int)

/-- The blocks for the piece function when `last` cuts them. -/
def cuts (el : El) (m : Local σ) (blocks : Int) : Prop :=
  last ≠ ignoreLast ∧ m.streamOff + blocks * streamElSize fns el > last

instance (el : El) (m : Local σ) (blocks : Int) : Decidable (cuts fns last el m blocks) :=
  inferInstanceAs (Decidable (_ ∧ _))

def limit (el : El) (m : Local σ) (blocks : Int) : Int :=
  if cuts fns last el m blocks then (last - m.streamOff).tdiv (streamElSize fns el) else blocks

def limitLog (el : El) (m : Local σ) (blocks : Int) : List Event :=
  if cuts fns last el m blocks then [.divide (streamElSize fns el)] else []

def callPiece (piece : Option Piece) (myblocks : Int) (params : σ) : Ret σ :=
  match piece with
  | none => ⟨myblocks, false, params, false⟩
  | some pc => fns.apply pc myblocks ptr params

/-- The assertion before the contig function is called. -/
def fitsBlock (piece : Option Piece) (myblocks curblock : Int) : Prop :=
  match piece with
  | some (.contig _ _) => myblocks ≤ curblock
  | _ => True

instance (piece : Option Piece) (myblocks curblock : Int) :
    Decidable (fitsBlock piece myblocks curblock) :=
  match piece with
  | none => isTrue trivial
  | some (.contig _ _) => inferInstanceAs (Decidable (myblocks ≤ curblock))
  | some (.vector _ _ _ _ _) => isTrue trivial
  | some (.blkidx _ _ _ _ _) => isTrue trivial
  | some (.index _ _ _ _ _) => isTrue trivial

def leafTurn (p : Params) (el : El) (m : Local σ) : Turn (Local σ) (Local σ) :=
  let (piece, blocks) := choose beyond fns p el m.curElmp
  let myblocks := limit fns last el m blocks
  let logged := m.add (chooseLog fns p m.curElmp ++ limitLog fns last el m blocks)
  if cuts fns last el m blocks ∧ myblocks = 0 then .leave logged
  else if fitsBlock piece myblocks m.curElmp.curblock then
    update beyond fns p el logged (callPiece fns ptr piece myblocks m.pieceparams)
  else logged.fail .assertion

/-- The stack element may be no leaf here: it can be the one below a leaf that was popped. -/
def pieceTurn (m : Local σ) : Turn (Local σ) (Local σ) :=
  match m.curElmp.loopP with
  | .leaf p el => leafTurn beyond fns ptr last p el m
  | .node p el _ => leafTurn beyond fns ptr last p el m
  | .struct _ => m.fail .assertion

/-- `curblock == 0`: the end of a block. -/
def endOfBlock (m : Local σ) : Turn (Local σ) (Local σ) :=
  let elm := m.curElmp
  let curcount := elm.curcount - 1
  let index := if curcount ≠ 0 then elm.origCount - curcount else 0
  let origBlock :=
    if ownBlocksizes elm.loopP then blocksizeAt beyond index elm.loopP else elm.origBlock
  let m := m.set { elm with curcount := curcount, origBlock := origBlock, curblock := origBlock }
  let m := m.add (blocksizeLog index elm.loopP)
  if curcount = 0 then m.pop false else .again m

/-- The dataloop below, `none` if `dataloop_array` is read outside. -/
def loadDlp (countIndex : Int) : Dataloop → Option Dataloop
  | .leaf _ _ => none
  | .node _ _ dlp => some dlp
  | .struct ms =>
    match countIndex with
    | .ofNat n => ms.list[n]?.map (·.dataloop)
    | .negSucc _ => none

/-- `orig_offset` of the next stack element. -/
def nextOffset (elm : Stackelm) : Int :=
  let countIndex := elm.origCount - elm.curcount
  let blockIndex := elm.origBlock - elm.curblock
  match elm.loopP with
  | .leaf p el | .node p el _ =>
    match p with
    | .contig _ => elm.curoffset + blockIndex * el.extent
    | .vector _ _ stride => elm.origOffset + countIndex * stride + blockIndex * el.extent
    | .blockindexed _ _ offsetArray =>
      elm.origOffset + blockIndex * el.extent + readArray beyond offsetArray countIndex
    | .indexed _ _ offsetArray _ =>
      elm.origOffset + blockIndex * el.extent + readArray beyond offsetArray countIndex
  | .struct ms =>
    elm.origOffset + blockIndex * readArray beyond (ms.list.map (·.elExtent)) countIndex +
      readArray beyond (ms.list.map (·.offset)) countIndex

def structLog (countIndex : Int) : Dataloop → List Event
  | .struct ms => [.read countIndex ms.list.length]
  | _ => []

def startElm (next : Stackelm) : Stackelm :=
  { next with
    curcount := next.origCount
    curblock := if ownBlocksizes next.loopP then blocksizeAt beyond 0 next.loopP else next.origBlock
    curoffset := next.origOffset + offsetAt beyond 0 next.loopP }

def push (m : Local σ) : Turn (Local σ) (Local σ) :=
  let elm := m.curElmp
  let countIndex := elm.origCount - elm.curcount
  let sp := m.curSp + 1
  let next := m.stackelm sp.toNat
  let loaded : Option Stackelm :=
    if elm.mayRequireReloading then
      (loadDlp countIndex elm.loopP).map fun dlp => stackelmLoad beyond next dlp true
    else some next
  match loaded with
  | none => m.fail .pointer
  | some next =>
    let next := startElm beyond { next with origOffset := nextOffset beyond elm }
    let log := Event.element sp :: structLog countIndex elm.loopP ++ offsetLog countIndex elm.loopP ++
      blocksizeLog 0 next.loopP ++ offsetLog 0 next.loopP
    let m := m.set { elm with curblock := elm.curblock - 1 }
    .again ({ m with stackelm := Function.update m.stackelm sp.toNat next, curSp := sp }.add log)

def turn (m : Local σ) : Turn (Local σ) (Local σ) :=
  let elm := m.curElmp
  if elm.loopP.isLeaf then
    -- pop immediately on zero count; there is no `continue`
    if elm.curcount = 0 then
      match m.pop false with
      | .again m => pieceTurn beyond fns ptr last m
      | .leave m => .leave m
    else pieceTurn beyond fns ptr last m
  else if elm.curblock = 0 then endOfBlock beyond m
  else push beyond m

end Turn

section Manipulate
variable {σ : Type} (beyond : Int → Int)

structure Outcome (σ : Type) where
  segment : Segment
  lastp : Int
  pieceparams : σ
  log : List Event
  fault : Option Fault

/-- `DLOOP_SEGMENT_RESET_VALUES`. -/
def reset (segp : Segment) : Segment :=
  let elm := segp.stackelm 0
  let elm := { elm with curcount := elm.origCount }
  let elm := { elm with origBlock := stackelmBlocksize beyond elm }
  let elm :=
    { elm with
      curblock := elm.origBlock
      curoffset := elm.origOffset + stackelmOffset beyond elm }
  { segp with streamOff := 0, curSp := 0, stackelm := Function.update segp.stackelm 0 elm }

def resetLog (segp : Segment) : List Event :=
  blocksizeLog 0 (segp.stackelm 0).loopP ++ offsetLog 0 (segp.stackelm 0).loopP

/-- `DLOOP_SEGMENT_LOAD_LOCAL_VALUES`. -/
def loadLocal (segp : Segment) (params : σ) (log : List Event) : Local σ :=
  ⟨segp.stackelm, segp.curSp, segp.streamOff, params, log ++ [.element segp.curSp], none⟩

/-- `DLOOP_SEGMENT_SAVE_LOCAL_VALUES`. -/
def saveLocal (ptr : Int) (m : Local σ) : Outcome σ :=
  ⟨⟨ptr, m.streamOff, m.stackelm, m.curSp⟩, m.streamOff, m.pieceparams, m.log, m.fault⟩

def fuel (segp : Segment) : Nat := (segp.stackelm 0).loopP.steps + 1

def process (fns : Pieces σ) (segp : Segment) (last : Int) (params : σ) (log : List Event) : Outcome σ :=
  let m := loadLocal segp params log
  if segp.curSp < 0 then saveLocal segp.ptr { m with fault := some .pointer }
  else
    saveLocal segp.ptr ((rounds (turn beyond fns segp.ptr last) (fuel segp) m).getD
      { m with fault := some .rounds })

def manipulate (fns : Pieces σ) (segp : Segment) (first last : Int) (params : σ) : Outcome σ :=
  if first = last then ⟨segp, last, params, [], none⟩
  else if first = segp.streamOff then process beyond fns segp last params []
  else
    let (segp, log) :=
      if first < segp.streamOff then (reset beyond segp, resetLog segp) else (segp, [])
    if first = segp.streamOff then process beyond fns segp last params log
    else
      let out := process beyond (nullPieces fns.sizefn) segp first () log
      if out.fault.isSome then ⟨out.segment, out.lastp, params, out.log, out.fault⟩
      else if out.lastp = first then process beyond fns out.segment last params out.log
      else ⟨out.segment, out.lastp, params, out.log, some .assertion⟩

end Manipulate

end FgMpi.Traversal.Manipulate
