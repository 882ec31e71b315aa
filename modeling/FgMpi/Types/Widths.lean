import FgMpi.Machine.Ints
import FgMpi.Types.Constructors
import Mathlib.Tactic.Ring

/-! Sizes and bounds with operands as wide as in the source. -/

namespace FgMpi.Types.Widths
open Machine Types.Constructors

inductive CValue
  | int (n : Int)
  | aint (n : Int)

namespace CValue

def val : CValue → Int
  | int n => n
  | aint n => n

def arith (f : Int → Int → Int) : CValue → CValue → CValue
  | int a, int b => int (Ints.toInt (f a b))
  | a, b => aint (f a.val b.val)

instance : Mul CValue := ⟨arith (· * ·)⟩
instance : Add CValue := ⟨arith (· + ·)⟩
instance : Sub CValue := ⟨arith (· - ·)⟩

/-- `(MPI_Aint) x` and `(int) x`. -/
def toAint (x : CValue) : CValue := aint x.val
def toInt (x : CValue) : CValue := int (Ints.toInt x.val)

variable (a b : Int)

@[simp] theorem val_int : (int a).val = a := (rfl)
@[simp] theorem val_aint : (aint a).val = a := (rfl)
@[simp] theorem toAint_int : (int a).toAint = aint a := (rfl)
@[simp] theorem toInt_aint : (aint a).toInt = int (Ints.toInt a) := (rfl)
@[simp] theorem int_mul_int : int a * int b = int (Ints.toInt (a * b)) := (rfl)
@[simp] theorem int_mul_aint : int a * aint b = aint (a * b) := (rfl)
@[simp] theorem aint_mul_int : aint a * int b = aint (a * b) := (rfl)
@[simp] theorem aint_mul_aint : aint a * aint b = aint (a * b) := (rfl)
@[simp] theorem aint_add_aint : aint a + aint b = aint (a + b) := (rfl)
@[simp] theorem aint_add_int : aint a + int b = aint (a + b) := (rfl)
@[simp] theorem aint_sub_aint : aint a - aint b = aint (a - b) := (rfl)
@[simp] theorem aint_sub_int : aint a - int b = aint (a - b) := (rfl)

end CValue

open CValue

structure Stored where
  size : Int
  lb : Int
  ub : Int
  extent : Int
deriving DecidableEq

def stored (d : Dtype) : Stored := ⟨d.size, d.lb, d.ub, d.extent⟩

def stored' (size lb ub : CValue) : Stored := ⟨size.val, lb.val, ub.val, (ub - lb).val⟩

def zerolen : Stored := ⟨0, 0, 0, 0⟩

def contigBounds (cnt lb ub e : CValue) : CValue × CValue :=
  if cnt.val = 0 then (lb, ub)
  else if ub.val ≥ lb.val then (lb, ub + e * (cnt - int 1))
  else (lb + e * (cnt - int 1), ub)

def vectorBounds (cnt stride blklen lb ub e : CValue) : CValue × CValue :=
  if cnt.val = 0 ∨ blklen.val = 0 then (lb, ub)
  else if stride.val ≥ 0 ∧ e.val ≥ 0 then (lb, ub + e * (blklen - int 1) + stride * (cnt - int 1))
  else if stride.val < 0 ∧ e.val ≥ 0 then (lb + stride * (cnt - int 1), ub + e * (blklen - int 1))
  else if stride.val ≥ 0 ∧ e.val < 0 then (lb + e * (blklen - int 1), ub + stride * (cnt - int 1))
  else (lb + e * (blklen - int 1) + stride * (cnt - int 1), ub)

def blockBounds (cnt disp lb ub e : CValue) : CValue × CValue :=
  if cnt.val = 0 then (lb + disp, ub + disp)
  else if ub.val ≥ lb.val then (lb + disp, ub + disp + e * (cnt - int 1))
  else (lb + disp + e * (cnt - int 1), ub + disp)

def contiguous (count : Nat) : Handle → Stored
  | .builtin b =>
    if count = 0 then zerolen
    else
      let elSz := aint b.size
      stored' (int count * elSz) (aint 0) (int count * elSz)
  | .derived old =>
    if count = 0 then zerolen
    else
      let (lb, ub) := contigBounds (int count).toAint (aint old.lb) (aint old.ub) (aint old.extent)
      stored' (int count * aint old.size) lb ub

def vectorSize (count blocklength : Nat) : Handle → CValue
  | .builtin b => (int count).toAint * (int blocklength).toAint * aint b.size
  | .derived d => int count * int blocklength * aint d.size

def vector (count blocklength : Nat) (stride : Int) (strideinbytes : Bool) (oldtype : Handle) : Stored :=
  if count = 0 then zerolen
  else
    let old := oldtype.old
    let effStride := if strideinbytes then aint stride else aint stride * aint old.extent
    let (lb, ub) := vectorBounds (int count).toAint effStride (int blocklength).toAint (aint old.lb)
      (aint old.ub) (aint old.extent)
    stored' (vectorSize count blocklength oldtype) lb ub

/-- `eff_disp`: displacements in elements are an array of `int`. -/
def effDisp' (dispinbytes : Bool) (oldExtent disp : Int) : CValue :=
  if dispinbytes then aint disp else (int disp).toAint * aint oldExtent

/-- The bounds of one block of `MPID_Type_indexed` and `MPID_Type_blockindexed`. -/
def block (dispinbytes : Bool) (old : Old) (b : Block) : Int × Int :=
  let (lb, ub) := blockBounds (int b.blocklength).toAint (effDisp' dispinbytes old.extent b.disp)
    (aint old.lb) (aint old.ub) (aint old.extent)
  (lb.val, ub.val)

def blockindexed (blocklength : Nat) (disps : List Int) (dispinbytes : Bool) (oldtype : Handle) :
    Stored :=
  match disps with
  | [] => zerolen
  | first :: rest =>
    let old := oldtype.old
    let size :=
      match oldtype with
      | .builtin b => (int disps.length).toAint * (int blocklength).toAint * aint b.size
      | .derived d => (int disps.length).toAint * (int blocklength).toAint * (aint d.size)
    let bounds := rest.foldl (fun bounds disp => widen bounds (block dispinbytes old ⟨blocklength, disp⟩))
      (block dispinbytes old ⟨blocklength, first⟩)
    stored' size (aint bounds.1) (aint bounds.2)

/-- One round of the second loop of `MPID_Type_indexed`; `old_ct` is an `MPI_Aint`. -/
def indexedRound (dispinbytes : Bool) (old : Old) (acc : (Int × Int) × CValue) (b : Block) :
    (Int × Int) × CValue :=
  if b.blocklength > 0 then (widen acc.1 (block dispinbytes old b), acc.2 + int b.blocklength) else acc

def indexed (blocks : List Block) (dispinbytes : Bool) (oldtype : Handle) : Stored :=
  match blocks.dropWhile (·.blocklength = 0) with
  | [] => zerolen
  | first :: rest =>
    let old := oldtype.old
    let (bounds, oldCt) := rest.foldl (indexedRound dispinbytes old)
      (block dispinbytes old first, aint first.blocklength)
    stored' (oldCt * aint old.sz) (aint bounds.1) (aint bounds.2)

/-- `tmp_lb`, `tmp_ub` and what a member adds to the size, in `MPID_Type_struct`. -/
def memberBounds (m : Member) : Int × Int :=
  let old := m.oldtype.old
  let (lb, ub) := blockBounds (int m.blocklength).toAint (aint m.disp) (aint old.lb) (aint old.ub)
    (aint old.extent)
  (lb.val, ub.val)

def memberSize (m : Member) : CValue := aint m.oldtype.old.sz * int m.blocklength

structure Loop where
  size : CValue := aint 0
  stickyLb : Option Int := none
  stickyUb : Option Int := none
  lb : Option Int := none
  ub : Option Int := none

def Loop.member (s : Loop) (m : Member) : Loop :=
  if m.blocklength = 0 then s
  else
    let tmp := memberBounds m
    { size := s.size + memberSize m
      stickyLb := if m.hasStickyLb then some (keepLowest s.stickyLb tmp.1) else s.stickyLb
      stickyUb := if m.hasStickyUb then some (keepHighest s.stickyUb tmp.2) else s.stickyUb
      lb := if m.isMarker then s.lb else some (keepLowest s.lb tmp.1)
      ub := if m.isMarker then s.ub else some (keepHighest s.ub tmp.2) }

def struct (cfg : Config) (members : List Member) : Stored :=
  if members.all (·.blocklength = 0) then zerolen
  else
    let s := members.foldl Loop.member {}
    let lb := (s.stickyLb.or s.lb).getD 0
    let ub := paddedUb (s.stickyLb.isSome || s.stickyUb.isSome) (structAlignsize cfg members) lb
      ((s.stickyUb.or s.ub).getD 0)
    stored' s.size (aint lb) (aint ub)

/-- `tmp_blklens` of `Dataloop_create_basic_all_bytes_struct`, whose members are builtin types; the size
is cast to `int`. -/
def allBytes (members : List (Builtin × Nat)) : List Int :=
  (members.filter fun m => decide (m.1 ≠ .lb ∧ m.1 ≠ .ub ∧ m.2 ≠ 0)).map fun m =>
    ((aint m.1.size).toInt * int m.2).val

@[simp] theorem blockBounds_eq (cnt : Nat) (disp lb ub e : Int) :
    blockBounds (aint cnt) (aint disp) (aint lb) (aint ub) (aint e) =
      Prod.map aint aint (blockLbUb cnt disp lb ub e) := by
  unfold blockBounds blockLbUb
  simp [apply_ite (Prod.map aint aint)]

theorem block_eq (dispinbytes : Bool) (old : Old) (b : Block) : block dispinbytes old b =
    blockLbUb b.blocklength (effDisp dispinbytes old.extent b.disp) old.lb old.ub old.extent := by
  cases dispinbytes <;> simp [block, effDisp', effDisp]

theorem contiguous_eq (left : Left) (count : Nat) (h : Handle) :
    contiguous count h = stored (typeContiguous left count h) := by
  by_cases hn : count = 0
  · cases h <;> simp [contiguous, typeContiguous, hn, stored, zerolen, typeZerolen]
  · cases h with
    | builtin b => simp [contiguous, typeContiguous, hn, stored, stored']
    | derived old =>
      have hbounds : contigBounds (aint count) (aint old.lb) (aint old.ub) (aint old.extent) =
          Prod.map aint aint (contigLbUb count old.lb old.ub old.extent) := by
        unfold contigBounds contigLbUb
        simp [apply_ite (Prod.map aint aint)]
      simp [contiguous, typeContiguous, hn, stored, stored', hbounds]

theorem vector_eq (left : Left) (count blocklength : Nat) (stride : Int) (strideinbytes : Bool) (h : Handle) :
    vector count blocklength stride strideinbytes h =
      { stored (typeVector left count blocklength stride strideinbytes h) with
        size := if count = 0 then 0 else (vectorSize count blocklength h).val } := by
  have hbounds : ∀ s lb ub e : Int, vectorBounds (aint count) (aint s) (aint blocklength) (aint lb)
      (aint ub) (aint e) = Prod.map aint aint (vectorLbUb count s blocklength lb ub e) := by
    intro s lb ub e
    unfold vectorBounds vectorLbUb
    simp [apply_ite (Prod.map aint aint)]
  unfold vector typeVector
  by_cases hn : count = 0
  · rw [if_pos hn, if_pos hn, if_pos hn]
    rfl
  · rw [if_neg hn, if_neg hn, if_neg hn]
    cases strideinbytes <;> simp [stored, stored', hbounds]

theorem blockindexed_eq (left : Left) (blocklength : Nat) (disps : List Int) (dispinbytes : Bool) (h : Handle) :
    blockindexed blocklength disps dispinbytes h =
      stored (typeBlockindexed left blocklength disps dispinbytes h) := by
  cases disps with
  | nil => rfl
  | cons first rest =>
    cases h <;> simp [blockindexed, typeBlockindexed, typeBlockindexedFrom, stored, stored', block_eq,
      Handle.old]

theorem indexed_eq (left : Left) (blocks : List Block) (dispinbytes : Bool) (h : Handle) :
    indexed blocks dispinbytes h = stored (typeIndexed left blocks dispinbytes h) := by
  have hround : ∀ (rest : List Block) (bounds : Int × Int) (n : Nat),
      rest.foldl (indexedRound dispinbytes h.old) (bounds, aint n) =
        ((rest.foldl (widenIndexed dispinbytes h.old) (bounds, n)).1,
          aint (rest.foldl (widenIndexed dispinbytes h.old) (bounds, n)).2) := by
    intro rest
    induction rest with
    | nil => intro bounds n; rfl
    | cons b rest ih =>
      intro bounds n
      rw [List.foldl_cons, List.foldl_cons]
      by_cases hb : b.blocklength > 0
      · rw [indexedRound, widenIndexed, if_pos hb, if_pos hb, block_eq, ← ih]
        simp
      · rw [indexedRound, widenIndexed, if_neg hb, if_neg hb, ih]
  unfold indexed typeIndexed
  cases hdrop : blocks.dropWhile (·.blocklength = 0) with
  | nil => rfl
  | cons first rest =>
    simp [typeIndexedFrom, stored, stored', block_eq, hround]

def Loop.Agrees (s : Loop) (t : Scan) : Prop :=
  s.size = aint t.size ∧ s.stickyLb = t.stickyLb ∧ s.stickyUb = t.stickyUb ∧ s.lb = t.lb ∧ s.ub = t.ub

theorem memberBounds_eq (m : Member) : memberBounds m = m.tmp.1 := by
  unfold memberBounds Member.tmp
  cases m.oldtype <;> simp [Handle.old]

theorem memberSize_eq (m : Member) : memberSize m = aint m.size := by
  unfold memberSize Member.size
  cases m.oldtype <;> simp [Handle.old]

theorem Loop.Agrees.member {s : Loop} {t : Scan} (h : s.Agrees t) (m : Member) :
    (s.member m).Agrees (t.member m) := by
  obtain ⟨hsize, hslb, hsub, hlb, hub⟩ := h
  unfold Loop.member Scan.member
  split
  · exact ⟨hsize, hslb, hsub, hlb, hub⟩
  · simp only [Loop.Agrees, Scan.bounds, memberBounds_eq, memberSize_eq, hsize, hslb, hsub, hlb, hub,
      aint_add_aint]
    split <;> simp

theorem struct_eq (cfg : Config) (left : Left) (members : List Member) :
    struct cfg members = stored (typeStruct cfg left members) := by
  have hloop : ∀ (ms : List Member) (s : Loop) (t : Scan), s.Agrees t →
      (ms.foldl Loop.member s).Agrees (ms.foldl Scan.member t) := by
    intro ms
    induction ms with
    | nil => intro s t h; exact h
    | cons m ms ih => intro s t h; exact ih _ _ (h.member m)
  obtain ⟨hsize, hslb, hsub, hlb, hub⟩ := hloop members {} {} ⟨rfl, rfl, rfl, rfl, rfl⟩
  unfold struct typeStruct
  split
  · rfl
  · simp [stored, stored', hsize, hslb, hsub, hlb, hub]

inductive Call
  | contiguous (count : Nat) (oldtype : Handle)
  | vector (count blocklength : Nat) (stride : Int) (strideinbytes : Bool) (oldtype : Handle)
  | indexed (blocks : List Block) (dispinbytes : Bool) (oldtype : Handle)
  | blockindexed (blocklength : Nat) (disps : List Int) (dispinbytes : Bool) (oldtype : Handle)
  | struct (cfg : Config) (members : List Member)
  | allBytes (members : List (Builtin × Nat))

def Call.Exact (left : Left) : Call → Prop
  | .contiguous count h => Widths.contiguous count h = stored (typeContiguous left count h)
  | .vector count blocklength stride strideinbytes h =>
    Widths.vector count blocklength stride strideinbytes h =
      stored (typeVector left count blocklength stride strideinbytes h)
  | .indexed blocks dispinbytes h =>
    Widths.indexed blocks dispinbytes h = stored (typeIndexed left blocks dispinbytes h)
  | .blockindexed blocklength disps dispinbytes h =>
    Widths.blockindexed blocklength disps dispinbytes h =
      stored (typeBlockindexed left blocklength disps dispinbytes h)
  | .struct cfg members => Widths.struct cfg members = stored (typeStruct cfg left members)
  | .allBytes members => Widths.allBytes members =
      (members.filter fun m => decide (m.1 ≠ .lb ∧ m.1 ≠ .ub ∧ m.2 ≠ 0)).map fun m => m.1.size * (m.2 : Int)

/-- No product of two `int` leaves the range of an `int`. -/
def Call.Fits : Call → Prop
  | .vector count blocklength _ _ (.derived d) => d.size = 0 ∨ count * blocklength < 2 ^ 31
  | .allBytes members => ∀ m ∈ members, m.1.size * (m.2 : Int) < 2 ^ 31
  | _ => True

theorem toInt_eq_self_iff (n : Nat) : Ints.toInt n = n ↔ n < 2 ^ 31 := by
  rw [Ints.toInt_eq_iff]
  omega

theorem vector_exact (left : Left) (count blocklength : Nat) (stride : Int) (strideinbytes : Bool) (d : Dtype) :
    vector count blocklength stride strideinbytes (.derived d) =
        stored (typeVector left count blocklength stride strideinbytes (.derived d)) ↔
      d.size = 0 ∨ count * blocklength < 2 ^ 31 := by
  have hiff := toInt_eq_self_iff (count * blocklength)
  have hsize : (vectorSize count blocklength (.derived d)).val = Ints.toInt (count * blocklength) * d.size := by
    simp only [vectorSize, int_mul_int, int_mul_aint, val_aint]
  rw [Int.natCast_mul] at hiff
  rw [← hiff, vector_eq left, hsize]
  unfold typeVector
  by_cases hn : count = 0
  · subst hn
    have hzero : Ints.toInt 0 = 0 := Int.zero_bmod
    simp [stored, typeZerolen, hzero]
  · rw [if_neg hn, if_neg hn]
    clear hiff hsize
    generalize Ints.toInt (count * blocklength) = w
    by_cases hz : d.size = 0
    · simp [stored, Handle.old, hz]
    · simp [stored, Handle.old, hz]

theorem vector_builtin (left : Left) (count blocklength : Nat) (stride : Int) (strideinbytes : Bool) (b : Builtin) :
    vector count blocklength stride strideinbytes (.builtin b) =
      stored (typeVector left count blocklength stride strideinbytes (.builtin b)) := by
  rw [vector_eq left]
  unfold typeVector
  by_cases hn : count = 0
  · rw [if_pos hn, if_pos hn]
    rfl
  · rw [if_neg hn, if_neg hn]
    simp [stored, vectorSize, Handle.old]

theorem bytes_exact (b : Builtin) {n : Nat} (hn : n ≠ 0) :
    ((aint b.size).toInt * int n).val = b.size * n ↔ b.size * n < 2 ^ 31 := by
  obtain ⟨s, hs⟩ := Int.eq_ofNat_of_zero_le (show 0 ≤ b.size by cases b <;> simp [Builtin.size])
  rw [hs, toInt_aint, int_mul_int, val_int]
  constructor
  · intro h
    rw [← h]
    exact (Ints.toInt_bounds _).2
  · intro h
    have hle : s * 1 ≤ s * n := Nat.mul_le_mul_left s (by omega)
    have hprod : s * n < 2 ^ 31 := by exact_mod_cast h
    rw [(toInt_eq_self_iff s).mpr (by omega)]
    exact_mod_cast (toInt_eq_self_iff (s * n)).mpr hprod

/-- The stored values are exact if and only if no product of two `int` wraps. -/
theorem exact_iff (left : Left) (c : Call) : c.Exact left ↔ c.Fits := by
  cases c with
  | contiguous count h => exact iff_true_intro (contiguous_eq left count h)
  | vector count blocklength stride strideinbytes h =>
    cases h with
    | builtin b => exact iff_true_intro (vector_builtin left count blocklength stride strideinbytes b)
    | derived d => exact vector_exact left count blocklength stride strideinbytes d
  | indexed blocks dispinbytes h => exact iff_true_intro (indexed_eq left blocks dispinbytes h)
  | blockindexed blocklength disps dispinbytes h =>
    exact iff_true_intro (blockindexed_eq left blocklength disps dispinbytes h)
  | struct cfg members => exact iff_true_intro (struct_eq cfg left members)
  | allBytes members =>
    simp only [Call.Exact, Call.Fits, allBytes, List.map_inj_left, List.mem_filter, decide_eq_true_eq]
    constructor
    · intro h m hm
      by_cases hdata : m.1 ≠ .lb ∧ m.1 ≠ .ub ∧ m.2 ≠ 0
      · exact (bytes_exact m.1 hdata.2.2).mp (h m ⟨hm, hdata⟩)
      · -- a marker, or an empty block
        have hzero : m.1.size * m.2 = 0 := by
          by_cases hn : m.2 = 0
          · simp [hn]
          · by_cases hlb : m.1 = .lb
            · simp [hlb, Builtin.size]
            · have hub : m.1 = .ub := by_contra fun hub => hdata ⟨hlb, hub, hn⟩
              simp [hub, Builtin.size]
        omega
    · intro h m hm
      exact (bytes_exact m.1 hm.2.2.2).mpr (h m hm.1)

theorem sizes_wrap :
    (vector 65536 32768 32768 false (.derived (typeContiguous ⟨0, 0⟩ 1 (.builtin (.basic ⟨1, .other, by decide⟩))))).size =
        -2147483648 ∧
      allBytes [(.basic ⟨4, .other, by decide⟩, 536870912), (.basic ⟨8, .double, by decide⟩, 1)] =
        [-2147483648, 8] ∧
      ¬ ∀ c : Call, c.Exact ⟨0, 0⟩ := by
  refine ⟨by decide, by decide, ?_⟩
  intro h
  have hfits := (exact_iff ⟨0, 0⟩ _).mp
    (h (.allBytes [(.basic ⟨4, .other, by decide⟩, 536870912), (.basic ⟨8, .double, by decide⟩, 1)]))
  exact absurd (hfits _ List.mem_cons_self) (by decide)

end FgMpi.Types.Widths
