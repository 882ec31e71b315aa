import Mathlib.Algebra.Order.Ring.Int

/-! The `MPID_Type_` constructors of `mpid/common/datatype`. -/

namespace FgMpi.Types.Constructors

/-- `MPID_Type_struct_alignsize` has rules of its own for the floating point types. -/
inductive FpKind
  | float
  | double
  | longDouble
  | other
deriving Repr, DecidableEq

structure Basic where
  size : Nat
  kind : FpKind
  pos : 0 < size
deriving Repr, DecidableEq

inductive Builtin
  | basic (b : Basic)
  | lb
  | ub
deriving Repr, DecidableEq

/-- `MPID_Datatype_get_basic_size`; the handles of `MPI_LB` and `MPI_UB` say 0. -/
def Builtin.size : Builtin → Int
  | .basic b => b.size
  | .lb => 0
  | .ub => 0

/-- The fields of `MPID_Datatype` that the constructors compute from each other. -/
structure Dtype where
  size : Int
  hasStickyUb : Bool
  hasStickyLb : Bool
  trueLb : Int
  lb : Int
  trueUb : Int
  ub : Int
  extent : Int
  alignsize : Int
  isContig : Bool
  maxContigBlocks : Nat
deriving Repr, DecidableEq

inductive Handle
  | builtin (b : Builtin)
  | derived (d : Dtype)
deriving Repr, DecidableEq

/-- The configure-time constants of `MPID_Type_struct_alignsize`. -/
structure Config where
  doubleAlignmentException : Option Int
  maxLongDoubleFpAlignment : Option Int
  maxDoubleFpAlignment : Option Int
  maxFpAlignment : Option Int
  doublePosAlignment : Bool
  maxIntegerAlignment : Option Int
deriving Repr, DecidableEq

def contigLbUb (cnt : Nat) (oldLb oldUb oldExtent : Int) : Int × Int :=
  if cnt = 0 then (oldLb, oldUb)
  else if oldUb ≥ oldLb then (oldLb, oldUb + oldExtent * ((cnt : Int) - 1))
  else (oldLb + oldExtent * ((cnt : Int) - 1), oldUb)

def vectorLbUb (cnt : Nat) (stride : Int) (blklen : Nat) (oldLb oldUb oldExtent : Int) : Int × Int :=
  if cnt = 0 ∨ blklen = 0 then (oldLb, oldUb)
  else if stride ≥ 0 ∧ oldExtent ≥ 0 then
    (oldLb, oldUb + oldExtent * ((blklen : Int) - 1) + stride * ((cnt : Int) - 1))
  else if stride < 0 ∧ oldExtent ≥ 0 then
    (oldLb + stride * ((cnt : Int) - 1), oldUb + oldExtent * ((blklen : Int) - 1))
  else if stride ≥ 0 ∧ oldExtent < 0 then
    (oldLb + oldExtent * ((blklen : Int) - 1), oldUb + stride * ((cnt : Int) - 1))
  else (oldLb + oldExtent * ((blklen : Int) - 1) + stride * ((cnt : Int) - 1), oldUb)

def blockLbUb (cnt : Nat) (disp oldLb oldUb oldExtent : Int) : Int × Int :=
  if cnt = 0 then (oldLb + disp, oldUb + disp)
  else if oldUb ≥ oldLb then
    (oldLb + disp, oldUb + disp + oldExtent * ((cnt : Int) - 1))
  else (oldLb + disp + oldExtent * ((cnt : Int) - 1), oldUb + disp)

/-- The fields of the object that a constructor may leave as it finds them: what the object held before. -/
structure Left where
  maxContigBlocks : Nat
  alignsize : Int
deriving Repr, DecidableEq

/-- `MPID_Type_zerolen` leaves `max_contig_blocks`. -/
def typeZerolen (left : Left) : Dtype where
  size := 0
  hasStickyUb := false
  hasStickyLb := false
  trueLb := 0
  lb := 0
  trueUb := 0
  ub := 0
  extent := 0
  alignsize := 0
  isContig := true
  maxContigBlocks := left.maxContigBlocks

def typeContiguous (left : Left) (count : Nat) (oldtype : Handle) : Dtype :=
  if count = 0 then typeZerolen left
  else
    match oldtype with
    | .builtin b =>
      let elSz := b.size
      { size := count * elSz
        hasStickyUb := false
        hasStickyLb := false
        trueLb := 0
        lb := 0
        trueUb := count * elSz
        ub := count * elSz
        extent := count * elSz
        alignsize := elSz
        isContig := true
        maxContigBlocks := 1 }
    | .derived old =>
      let (lb, ub) := contigLbUb count old.lb old.ub old.extent
      { size := count * old.size
        hasStickyUb := old.hasStickyUb
        hasStickyLb := old.hasStickyLb
        trueLb := lb + (old.trueLb - old.lb)
        lb := lb
        trueUb := ub + (old.trueUb - old.ub)
        ub := ub
        extent := ub - lb
        alignsize := old.alignsize
        isContig := old.isContig
        maxContigBlocks := if old.isContig then 1 else count * old.maxContigBlocks }

/-- The local variables in which `MPID_Type_vector`, `MPID_Type_blockindexed` and `MPID_Type_indexed`
hold what they read of the old type. -/
structure Old where
  lb : Int
  trueLb : Int
  ub : Int
  trueUb : Int
  sz : Int
  extent : Int
  isContig : Bool
  hasStickyLb : Bool
  hasStickyUb : Bool
  alignsize : Int
deriving Repr, DecidableEq

def Handle.old : Handle → Old
  | .builtin b =>
    { lb := 0, trueLb := 0, ub := b.size, trueUb := b.size, sz := b.size, extent := b.size,
      isContig := true, hasStickyLb := false, hasStickyUb := false, alignsize := b.size }
  | .derived d =>
    { lb := d.lb, trueLb := d.trueLb, ub := d.ub, trueUb := d.trueUb, sz := d.size,
      extent := d.extent, isContig := d.isContig, hasStickyLb := d.hasStickyLb,
      hasStickyUb := d.hasStickyUb, alignsize := d.alignsize }

def typeVector (left : Left) (count blocklength : Nat) (stride : Int) (strideinbytes : Bool)
    (oldtype : Handle) : Dtype :=
  if count = 0 then typeZerolen left
  else
    let old := oldtype.old
    let maxContigBlocks :=
      match oldtype with
      | .builtin _ => count
      | .derived d => d.maxContigBlocks * count * blocklength
    let size : Int := count * blocklength * old.sz
    let effStride := if strideinbytes then stride else stride * old.extent
    let (lb, ub) := vectorLbUb count effStride blocklength old.lb old.ub old.extent
    let contig := decide (size = ub - lb ∧ effStride = blocklength * old.sz ∧ old.isContig = true)
    { size := size
      hasStickyUb := old.hasStickyUb
      hasStickyLb := old.hasStickyLb
      trueLb := lb + (old.trueLb - old.lb)
      lb := lb
      trueUb := ub + (old.trueUb - old.ub)
      ub := ub
      extent := ub - lb
      alignsize := old.alignsize
      isContig := contig
      maxContigBlocks := if contig then 1 else maxContigBlocks }

def effDisp (dispinbytes : Bool) (oldExtent disp : Int) : Int :=
  if dispinbytes then disp else disp * oldExtent

/-- `if (tmp_lb < min_lb) min_lb = tmp_lb; if (tmp_ub > max_ub) max_ub = tmp_ub;` -/
def widen (bounds tmp : Int × Int) : Int × Int :=
  (if tmp.1 < bounds.1 then tmp.1 else bounds.1, if tmp.2 > bounds.2 then tmp.2 else bounds.2)

/-- `MPID_Type_blockindexed_count_contig`, from the second displacement on. -/
def blockindexedCountContigLoop (blklen : Nat) (dispinbytes : Bool) (oldExtent : Int) :
    Int → Nat → List Int → Nat
  | _, contigCount, [] => contigCount
  | cur, contigCount, next :: rest =>
    let adjacent := if dispinbytes then cur + blklen * oldExtent = next else cur + blklen = next
    blockindexedCountContigLoop blklen dispinbytes oldExtent next
      (if adjacent then contigCount else contigCount + 1) rest

/-- `MPID_Type_blockindexed`, with at least one displacement. -/
def typeBlockindexedFrom (blocklength : Nat) (first : Int) (rest : List Int) (dispinbytes : Bool)
    (oldtype : Handle) : Dtype :=
  let count := rest.length + 1
  let old := oldtype.old
  let maxContigBlocks :=
    match oldtype with
    | .builtin _ => count
    | .derived d => d.maxContigBlocks * count * blocklength
  let size : Int := count * blocklength * old.sz
  let block (disp : Int) :=
    blockLbUb blocklength (effDisp dispinbytes old.extent disp) old.lb old.ub old.extent
  let (minLb, maxUb) := rest.foldl (fun bounds disp => widen bounds (block disp)) (block first)
  let contigCount := blockindexedCountContigLoop blocklength dispinbytes old.extent first 1 rest
  { size := size
    hasStickyUb := old.hasStickyUb
    hasStickyLb := old.hasStickyLb
    trueLb := minLb + (old.trueLb - old.lb)
    lb := minLb
    trueUb := maxUb + (old.trueUb - old.ub)
    ub := maxUb
    extent := maxUb - minLb
    alignsize := old.alignsize
    isContig := old.isContig && decide (contigCount = 1 ∧ size = maxUb - minLb)
    maxContigBlocks := if old.isContig then contigCount else maxContigBlocks }

def typeBlockindexed (left : Left) (blocklength : Nat) (disps : List Int) (dispinbytes : Bool)
    (oldtype : Handle) : Dtype :=
  match disps with
  | [] => typeZerolen left
  | first :: rest => typeBlockindexedFrom blocklength first rest dispinbytes oldtype

/-- An entry of `blocklength_array` and of `displacement_array`. -/
structure Block where
  blocklength : Nat
  disp : Int
deriving Repr, DecidableEq

/-- `MPID_Type_indexed_count_contig`, after the first block that is not empty. -/
def indexedCountContigLoop (dispinbytes : Bool) (oldExtent : Int) : Int → Nat → Nat → List Block → Nat
  | _, _, contigCount, [] => contigCount
  | cur, curBlklen, contigCount, next :: rest =>
    if next.blocklength = 0 then
      indexedCountContigLoop dispinbytes oldExtent cur curBlklen contigCount rest
    else if (if dispinbytes then cur + curBlklen * oldExtent = next.disp
        else cur + curBlklen = next.disp) then
      indexedCountContigLoop dispinbytes oldExtent cur (curBlklen + next.blocklength) contigCount
        rest
    else
      indexedCountContigLoop dispinbytes oldExtent next.disp next.blocklength (contigCount + 1) rest

/-- One round of the second loop of `MPID_Type_indexed`: the bounds and `old_ct`. -/
def widenIndexed (dispinbytes : Bool) (old : Old) (acc : (Int × Int) × Nat) (block : Block) :
    (Int × Int) × Nat :=
  if block.blocklength > 0 then
    (widen acc.1 (blockLbUb block.blocklength (effDisp dispinbytes old.extent block.disp)
      old.lb old.ub old.extent), acc.2 + block.blocklength)
  else acc

/-- `MPID_Type_indexed`, when `first` is the first block that is not empty and `total` are the
blocklengths of all blocks; `alignsize` is set for a builtin type only. -/
def typeIndexedFrom (left : Left) (count total : Nat) (first : Block) (rest : List Block) (dispinbytes : Bool)
    (oldtype : Handle) : Dtype :=
  let old := oldtype.old
  let maxContigBlocks :=
    match oldtype with
    | .builtin _ => count
    | .derived d => d.maxContigBlocks * total
  let bounds := blockLbUb first.blocklength (effDisp dispinbytes old.extent first.disp)
    old.lb old.ub old.extent
  let ((minLb, maxUb), oldCt) := rest.foldl (widenIndexed dispinbytes old) (bounds, first.blocklength)
  let size : Int := oldCt * old.sz
  let contigCount := indexedCountContigLoop dispinbytes old.extent first.disp first.blocklength 1 rest
  { size := size
    hasStickyUb := old.hasStickyUb
    hasStickyLb := old.hasStickyLb
    trueLb := minLb + (old.trueLb - old.lb)
    lb := minLb
    trueUb := maxUb + (old.trueUb - old.ub)
    ub := maxUb
    extent := maxUb - minLb
    alignsize := match oldtype with
      | .builtin b => b.size
      | .derived _ => left.alignsize
    isContig := old.isContig && decide (contigCount = 1 ∧ size = maxUb - minLb)
    maxContigBlocks := if old.isContig then contigCount else maxContigBlocks }

def typeIndexed (left : Left) (blocks : List Block) (dispinbytes : Bool) (oldtype : Handle) : Dtype :=
  match blocks.dropWhile (·.blocklength = 0) with
  | [] => typeZerolen left
  | first :: rest =>
    typeIndexedFrom left blocks.length (blocks.map (·.blocklength)).sum first rest dispinbytes oldtype

def typeCreateResized (oldtype : Handle) (lb extent : Int) : Dtype :=
  match oldtype with
  | .builtin b =>
    { size := b.size
      hasStickyUb := false
      hasStickyLb := false
      trueLb := 0
      lb := lb
      trueUb := b.size
      ub := lb + extent
      extent := extent
      alignsize := b.size
      isContig := decide (extent = b.size)
      maxContigBlocks := 3 }
  | .derived old =>
    { size := old.size
      hasStickyUb := false
      hasStickyLb := false
      trueLb := old.trueLb
      lb := lb
      trueUb := old.trueUb
      ub := lb + extent
      extent := extent
      alignsize := old.alignsize
      isContig := if extent = old.size then old.isContig else false
      maxContigBlocks := old.maxContigBlocks }

/-- `MPID_Type_dup`; `max_contig_blocks` is not copied. -/
def typeDup (left : Left) (oldtype : Handle) : Dtype :=
  match oldtype with
  | .builtin b => typeContiguous left 1 (.builtin b)
  | .derived old => { old with maxContigBlocks := left.maxContigBlocks }

structure Member where
  blocklength : Nat
  disp : Int
  oldtype : Handle
deriving Repr, DecidableEq

def Member.isMarker (m : Member) : Bool := decide (m.oldtype = .builtin .lb ∨ m.oldtype = .builtin .ub)

def capped (limit : Option Int) (a : Int) : Int :=
  match limit with
  | some l => if a > l then l else a
  | none => a

/-- The builtin types in `MPID_Type_struct_alignsize`. -/
def basicAlignsize (cfg : Config) (b : Basic) (disp : Int) : Int :=
  let size : Int :=
    match b.kind, cfg.doubleAlignmentException with
    | .double, some a => a
    | _, _ => b.size
  match b.kind with
  | .other => capped cfg.maxIntegerAlignment size
  | kind =>
    let size :=
      match cfg.maxLongDoubleFpAlignment, cfg.maxDoubleFpAlignment with
      | some ld, some d =>
        match kind with
        | .longDouble => capped (some ld) size
        | .double => capped (some d) size
        | _ => size
      | _, _ => capped cfg.maxFpAlignment size
    if cfg.doublePosAlignment ∧ kind = .double ∧ disp ≠ 0 then 4 else size

/-- One round of `MPID_Type_struct_alignsize`; `none` for `MPI_LB` and `MPI_UB`. -/
def Member.alignsize? (cfg : Config) (m : Member) : Option Int :=
  match m.oldtype with
  | .builtin (.basic b) => some (basicAlignsize cfg b m.disp)
  | .builtin _ => none
  | .derived d => some d.alignsize

def structAlignsize (cfg : Config) (members : List Member) : Int :=
  members.foldl (fun maxAlignsize m =>
    match m.alignsize? cfg with
    | some a => if maxAlignsize < a then a else maxAlignsize
    | none => maxAlignsize) 0

/-- The variables of the loop of `MPID_Type_struct`; a `found_` flag and its value are one option. -/
structure Scan where
  size : Int := 0
  maxContigBlocks : Nat := 0
  stickyLb : Option Int := none
  stickyUb : Option Int := none
  trueLb : Option Int := none
  lb : Option Int := none
  trueUb : Option Int := none
  ub : Option Int := none
  oldAreContig : Bool := true
  definitelyNotContig : Bool := false
deriving Repr, DecidableEq

def keepLowest (found : Option Int) (tmp : Int) : Int :=
  match found with
  | none => tmp
  | some d => if d > tmp then tmp else d

def keepHighest (found : Option Int) (tmp : Int) : Int :=
  match found with
  | none => tmp
  | some d => if d < tmp then tmp else d

def startsBefore (found : Option Int) (tmp : Int) : Bool :=
  match found with
  | none => false
  | some d => decide (d > tmp)

def endsBefore (found : Option Int) (tmp : Int) : Bool :=
  match found with
  | none => false
  | some d => !decide (d < tmp)

/-- The bounds of a member with their true bounds: `tmp_lb`, `tmp_ub`, `tmp_true_lb`,
`tmp_true_ub`. -/
def Member.tmp (m : Member) : (Int × Int) × (Int × Int) :=
  match m.oldtype with
  | .builtin b =>
    let bounds := blockLbUb m.blocklength m.disp 0 b.size b.size
    (bounds, bounds)
  | .derived old =>
    let (lb, ub) := blockLbUb m.blocklength m.disp old.lb old.ub old.extent
    ((lb, ub), (lb + (old.trueLb - old.lb), ub + (old.trueUb - old.ub)))

def Member.size (m : Member) : Int :=
  match m.oldtype with
  | .builtin b => b.size * m.blocklength
  | .derived old => old.size * m.blocklength

def Member.hasStickyLb (m : Member) : Bool :=
  match m.oldtype with
  | .builtin b => decide (b = .lb)
  | .derived old => old.hasStickyLb

def Member.hasStickyUb (m : Member) : Bool :=
  match m.oldtype with
  | .builtin b => decide (b = .ub)
  | .derived old => old.hasStickyUb

def Member.maxContigBlocks (m : Member) : Nat :=
  match m.oldtype with
  | .builtin _ => 1
  | .derived old => old.maxContigBlocks

def Member.oldIsContig (m : Member) : Bool :=
  match m.oldtype with
  | .builtin _ => true
  | .derived old => old.isContig

/-- The part of the loop that `MPI_LB` and `MPI_UB` skip. -/
def Scan.bounds (s : Scan) (m : Member) : Scan :=
  if m.isMarker then s
  else
    let ((tmpLb, tmpUb), (tmpTrueLb, tmpTrueUb)) := m.tmp
    { s with
      trueLb := some (keepLowest s.trueLb tmpTrueLb)
      lb := some (keepLowest s.lb tmpLb)
      trueUb := some (keepHighest s.trueUb tmpTrueUb)
      ub := some (keepHighest s.ub tmpUb)
      definitelyNotContig := s.definitelyNotContig || startsBefore s.trueLb tmpTrueLb ||
        startsBefore s.lb tmpLb || endsBefore s.trueUb tmpTrueUb || endsBefore s.ub tmpUb }

/-- One round of the loop of `MPID_Type_struct`. -/
def Scan.member (s : Scan) (m : Member) : Scan :=
  if m.blocklength = 0 then s
  else
    { s.bounds m with
      size := s.size + m.size
      maxContigBlocks := s.maxContigBlocks + m.maxContigBlocks
      stickyLb := if m.hasStickyLb then some (keepLowest s.stickyLb m.tmp.1.1) else s.stickyLb
      stickyUb := if m.hasStickyUb then some (keepHighest s.stickyUb m.tmp.1.2) else s.stickyUb
      oldAreContig := s.oldAreContig && m.oldIsContig }

def paddedUb (sticky : Bool) (alignsize lb ub : Int) : Int :=
  if sticky then ub
  else
    let epsilon := if alignsize > 0 then (ub - lb).tmod alignsize else 0
    if epsilon ≠ 0 then ub + (alignsize - epsilon) else ub

def typeStruct (cfg : Config) (left : Left) (members : List Member) : Dtype :=
  if members.all (·.blocklength = 0) then typeZerolen left
  else
    let s := members.foldl Scan.member {}
    let lb := (s.stickyLb.or s.lb).getD 0
    let alignsize := structAlignsize cfg members
    let ub := paddedUb (s.stickyLb.isSome || s.stickyUb.isSome) alignsize lb
      ((s.stickyUb.or s.ub).getD 0)
    { size := s.size
      hasStickyUb := s.stickyUb.isSome
      hasStickyLb := s.stickyLb.isSome
      trueLb := s.trueLb.getD 0
      lb := lb
      trueUb := s.trueUb.getD 0
      ub := ub
      extent := ub - lb
      alignsize := alignsize
      isContig := decide (s.size = ub - lb) && s.oldAreContig && !s.definitelyNotContig
      maxContigBlocks := s.maxContigBlocks }

mutual

inductive Datatype
  | builtin (b : Builtin)
  | contiguous (count : Nat) (oldtype : Datatype)
  | vector (count blocklength : Nat) (stride : Int) (strideinbytes : Bool) (oldtype : Datatype)
  | indexed (blocks : List Block) (dispinbytes : Bool) (oldtype : Datatype)
  | blockindexed (blocklength : Nat) (disps : List Int) (dispinbytes : Bool) (oldtype : Datatype)
  | struct (members : Members)
  | resized (oldtype : Datatype) (lb extent : Int)
  | dup (oldtype : Datatype)

inductive Members
  | nil
  | cons (blocklength : Nat) (disp : Int) (oldtype : Datatype) (rest : Members)

end

mutual

/-- `left t` is what the object of the new type `t` held before: the objects are zeroed once and
then recycled. -/
def Datatype.handle (cfg : Config) (left : Datatype → Left) : Datatype → Handle
  | .builtin b => .builtin b
  | .contiguous count old =>
    .derived (typeContiguous (left (.contiguous count old)) count (old.handle cfg left))
  | .vector count blocklength stride strideinbytes old =>
    .derived (typeVector (left (.vector count blocklength stride strideinbytes old)) count
      blocklength stride strideinbytes (old.handle cfg left))
  | .indexed blocks dispinbytes old =>
    .derived (typeIndexed (left (.indexed blocks dispinbytes old)) blocks dispinbytes
      (old.handle cfg left))
  | .blockindexed blocklength disps dispinbytes old =>
    .derived (typeBlockindexed (left (.blockindexed blocklength disps dispinbytes old)) blocklength
      disps dispinbytes (old.handle cfg left))
  | .struct members =>
    .derived (typeStruct cfg (left (.struct members)) (members.handles cfg left))
  | .resized old lb extent => .derived (typeCreateResized (old.handle cfg left) lb extent)
  | .dup old => .derived (typeDup (left (.dup old)) (old.handle cfg left))

def Members.handles (cfg : Config) (left : Datatype → Left) : Members → List Member
  | .nil => []
  | .cons blocklength disp old rest =>
    ⟨blocklength, disp, old.handle cfg left⟩ :: rest.handles cfg left

end

structure MemberTerm where
  blocklength : Nat
  disp : Int
  oldtype : Datatype

def Members.list : Members → List MemberTerm
  | .nil => []
  | .cons blocklength disp old rest => ⟨blocklength, disp, old⟩ :: rest.list

theorem Members.handles_eq (cfg : Config) (left : Datatype → Left) (ms : Members) :
    ms.handles cfg left =
      ms.list.map fun m => ⟨m.blocklength, m.disp, m.oldtype.handle cfg left⟩ := by
  match ms with
  | .nil => rfl
  | .cons blocklength disp old rest =>
    rw [Members.handles, Members.list, List.map_cons, Members.handles_eq cfg left rest]

@[induction_eliminator]
theorem Datatype.ind {motive : Datatype → Prop} (builtin : ∀ b, motive (.builtin b))
    (contiguous : ∀ count old, motive old → motive (.contiguous count old))
    (vector : ∀ count blocklength stride strideinbytes old, motive old →
      motive (.vector count blocklength stride strideinbytes old))
    (indexed : ∀ blocks dispinbytes old, motive old → motive (.indexed blocks dispinbytes old))
    (blockindexed : ∀ blocklength disps dispinbytes old, motive old →
      motive (.blockindexed blocklength disps dispinbytes old))
    (struct : ∀ members : Members, (∀ m ∈ members.list, motive m.oldtype) → motive (.struct members))
    (resized : ∀ old lb extent, motive old → motive (.resized old lb extent))
    (dup : ∀ old, motive old → motive (.dup old)) (t : Datatype) : motive t :=
  @Datatype.rec motive (fun ms => ∀ m ∈ ms.list, motive m.oldtype) builtin contiguous vector indexed
    blockindexed struct resized dup
    (fun _ h => nomatch h)
    (fun _ _ _ _ hold hrest m hm => by
      rcases List.mem_cons.mp hm with rfl | hm
      · exact hold
      · exact hrest m hm)
    t

end FgMpi.Types.Constructors
