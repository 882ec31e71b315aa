import FgMpi.Machine.Ints
import FgMpi.Machine.LinkedQueue
import FgMpi.Machine.Runs

/-! `util/mem/handlemem.c` and the macros of `mpihandlemem.h`. -/

namespace FgMpi.Handles.Allocator
open Machine.Ints

/-- `MPID_Object_kind` -/
inductive ObjectKind
  | comm
  | group
  | datatype
  | file
  | errhandler
  | op
  | info
  | win
  | keyval
  | attr
  | request
  | procgroup
  | vconn
  | greqClass
deriving Repr, DecidableEq

def ObjectKind.value : ObjectKind → BitVec 32
  | comm => 0x1
  | group => 0x2
  | datatype => 0x3
  | file => 0x4
  | errhandler => 0x5
  | op => 0x6
  | info => 0x7
  | win => 0x8
  | keyval => 0x9
  | attr => 0xa
  | request => 0xb
  | procgroup => 0xc
  | vconn => 0xd
  | greqClass => 0xf

abbrev Handle := BitVec 32

section Fields
variable (a : Handle)

def handleGetMpiKind : BitVec 32 := (a &&& 0x3c000000) >>> 26

def handleGetKind : BitVec 32 := (a &&& 0xc0000000) >>> 30

def handleBlock : Nat := ((a &&& 0x03fff000) >>> 12).toNat

def handleBlockIndex : Nat := (a &&& 0x00000fff).toNat

def handleIndex : Nat := (a &&& 0x03ffffff).toNat

end Fields

def handleKindDirect : BitVec 32 := 0x2

def handleKindIndirect : BitVec 32 := 0x3

def handleNumBlocks : Nat := 8192

def handleNumIndices : Nat := 1024

def directHandle (kind : ObjectKind) (i : Nat) : Handle :=
  handleKindDirect <<< 30 ||| kind.value <<< 26 ||| BitVec.ofNat 32 i

def indirectHandle (kind : ObjectKind) (block i : Nat) : Handle :=
  handleKindIndirect <<< 30 ||| kind.value <<< 26 ||| BitVec.ofNat 32 block <<< 12 |||
    BitVec.ofNat 32 i

section FieldLemmas
variable (kind : ObjectKind) {block i : Nat}

theorem ofNat_shiftRight {k : Nat} (h : i < 2 ^ k) (hk : k ≤ 32) : BitVec.ofNat 32 i >>> k = 0 := by
  have hlt : i < 2 ^ 32 := Nat.lt_of_lt_of_le h (Nat.pow_le_pow_right (by decide) hk)
  apply BitVec.eq_of_toNat_eq
  rw [BitVec.toNat_ushiftRight, BitVec.toNat_ofNat, Nat.mod_eq_of_lt hlt,
    Nat.shiftRight_eq_div_pow, Nat.div_eq_of_lt h]
  rfl

theorem ofNat_and_mask {k : Nat} (h : i < 2 ^ k) (hk : k ≤ 32) :
    BitVec.ofNat 32 i &&& BitVec.ofNat 32 (2 ^ k - 1) = BitVec.ofNat 32 i := by
  have hle : 2 ^ k ≤ 2 ^ 32 := Nat.pow_le_pow_right (by decide) hk
  have hpos : 0 < 2 ^ k := Nat.two_pow_pos k
  apply BitVec.eq_of_toNat_eq
  rw [BitVec.toNat_and, BitVec.toNat_ofNat, BitVec.toNat_ofNat, Nat.mod_eq_of_lt (a := i) (by omega),
    Nat.mod_eq_of_lt (a := 2 ^ k - 1) (by omega), Nat.and_two_pow_sub_one_eq_mod, Nat.mod_eq_of_lt h]

theorem getMpiKind_direct (h : i < 2 ^ 26) : handleGetMpiKind (directHandle kind i) = kind.value := by
  unfold handleGetMpiKind directHandle
  rw [BitVec.ushiftRight_and_distrib, BitVec.ushiftRight_or_distrib, ofNat_shiftRight h (by decide)]
  cases kind <;> rfl

theorem getKind_direct (h : i < 2 ^ 26) : handleGetKind (directHandle kind i) = handleKindDirect := by
  have hlt : i < 2 ^ 30 := Nat.lt_of_lt_of_le h (by decide)
  unfold handleGetKind directHandle
  rw [BitVec.ushiftRight_and_distrib, BitVec.ushiftRight_or_distrib,
    ofNat_shiftRight hlt (by decide)]
  cases kind <;> rfl

theorem index_direct (h : i < 2 ^ 26) : handleIndex (directHandle kind i) = i := by
  have hmask : BitVec.ofNat 32 i &&& 0x03ffffff = BitVec.ofNat 32 i := ofNat_and_mask h (by decide)
  have hupper : (handleKindDirect <<< 30 ||| kind.value <<< 26) &&& 0x03ffffff = 0#32 := by
    cases kind <;> rfl
  unfold handleIndex directHandle
  rw [BitVec.and_or_distrib_right, hmask, hupper, BitVec.zero_or, BitVec.toNat_ofNat,
    Nat.mod_eq_of_lt (Nat.lt_of_lt_of_le h (by decide))]

theorem ofNat_shiftLeft (h : block < 2 ^ 14) :
    BitVec.ofNat 32 block <<< 12 = BitVec.ofNat 32 (block * 2 ^ 12) := by
  apply BitVec.eq_of_toNat_eq
  rw [BitVec.toNat_shiftLeft, BitVec.toNat_ofNat, BitVec.toNat_ofNat, Nat.shiftLeft_eq,
    Nat.mod_eq_of_lt (a := block) (by omega)]

theorem block_shiftRight (h : block < 2 ^ 14) :
    BitVec.ofNat 32 (block * 2 ^ 12) >>> 12 = BitVec.ofNat 32 block := by
  apply BitVec.eq_of_toNat_eq
  rw [BitVec.toNat_ushiftRight, BitVec.toNat_ofNat, BitVec.toNat_ofNat, Nat.shiftRight_eq_div_pow,
    Nat.mod_eq_of_lt (a := block) (by omega), Nat.mod_eq_of_lt (a := block * 2 ^ 12) (by omega),
    Nat.mul_div_cancel _ (by decide)]

theorem block_and_mask (h : block < 2 ^ 14) : BitVec.ofNat 32 (block * 2 ^ 12) &&& 0xfff = 0#32 := by
  apply BitVec.eq_of_toNat_eq
  have hmask : (0xfff : BitVec 32).toNat = 2 ^ 12 - 1 := rfl
  rw [BitVec.toNat_and, hmask, Nat.and_two_pow_sub_one_eq_mod, BitVec.toNat_ofNat,
    Nat.mod_eq_of_lt (a := block * 2 ^ 12) (by omega), Nat.mul_mod_left]
  rfl

section Indirect
variable (hblock : block < 2 ^ 14) (hi : i < 2 ^ 12)
include hblock hi

theorem getMpiKind_indirect : handleGetMpiKind (indirectHandle kind block i) = kind.value := by
  unfold handleGetMpiKind indirectHandle
  rw [ofNat_shiftLeft hblock, BitVec.ushiftRight_and_distrib, BitVec.ushiftRight_or_distrib,
    BitVec.ushiftRight_or_distrib, ofNat_shiftRight (i := i) (by omega) (by decide),
    ofNat_shiftRight (i := block * 2 ^ 12) (by omega) (by decide)]
  cases kind <;> rfl

theorem getKind_indirect : handleGetKind (indirectHandle kind block i) = handleKindIndirect := by
  unfold handleGetKind indirectHandle
  rw [ofNat_shiftLeft hblock, BitVec.ushiftRight_and_distrib, BitVec.ushiftRight_or_distrib,
    BitVec.ushiftRight_or_distrib, ofNat_shiftRight (i := i) (by omega) (by decide),
    ofNat_shiftRight (i := block * 2 ^ 12) (by omega) (by decide)]
  cases kind <;> rfl

theorem block_indirect : handleBlock (indirectHandle kind block i) = block := by
  have hmask : BitVec.ofNat 32 block &&& 0x3fff = BitVec.ofNat 32 block :=
    ofNat_and_mask hblock (by decide)
  have hupper : (handleKindIndirect <<< 30 ||| kind.value <<< 26) >>> 12 &&& 0x3fff = 0#32 := by
    cases kind <;> rfl
  have hshift : (0x03fff000 : BitVec 32) >>> 12 = 0x3fff := rfl
  unfold handleBlock indirectHandle
  rw [ofNat_shiftLeft hblock, BitVec.ushiftRight_and_distrib, BitVec.ushiftRight_or_distrib,
    BitVec.ushiftRight_or_distrib, ofNat_shiftRight hi (by decide), block_shiftRight hblock, hshift,
    BitVec.and_or_distrib_right, BitVec.and_or_distrib_right, hupper, hmask]
  show (0#32 ||| BitVec.ofNat 32 block ||| 0#32).toNat = block
  rw [BitVec.zero_or, BitVec.or_zero, BitVec.toNat_ofNat, Nat.mod_eq_of_lt (by omega)]

theorem blockIndex_indirect : handleBlockIndex (indirectHandle kind block i) = i := by
  have hmask : BitVec.ofNat 32 i &&& 0xfff = BitVec.ofNat 32 i := ofNat_and_mask hi (by decide)
  have hupper : (handleKindIndirect <<< 30 ||| kind.value <<< 26) &&& 0xfff = 0#32 := by
    cases kind <;> rfl
  unfold handleBlockIndex indirectHandle
  rw [ofNat_shiftLeft hblock, BitVec.and_or_distrib_right, BitVec.and_or_distrib_right, hmask,
    block_and_mask hblock, hupper, BitVec.zero_or, BitVec.zero_or, BitVec.toNat_ofNat,
    Nat.mod_eq_of_lt (by omega)]

end Indirect

end FieldLemmas

/-- The array `direct`, or a block in the order in which they are allocated. -/
inductive Region
  | direct
  | block (n : Nat)
deriving Repr, DecidableEq

structure Ptr where
  region : Region
  offset : Int
deriving Repr, DecidableEq

def Ptr.add (ptr : Ptr) (n : Nat) : Ptr := { ptr with offset := ptr.offset + n }

/-- `MPIU_Handle_common` -/
structure Common where
  handle : Handle
  next : Option Ptr
deriving Repr, DecidableEq

/-- `sizeof(MPIU_Handle_common)` -/
def headerSize : Nat := 16

/-- The fields of `MPIU_Object_alloc_t` that do not change. -/
structure Pool where
  kind : ObjectKind
  size : Nat
  directSize : Nat
  header : headerSize ≤ size

/-- The others, with the memory of the objects and the number of blocks that `MPIU_Calloc` has handed
out. -/
structure ObjMem where
  avail : Option Ptr
  initialized : Bool
  indirect : Option (List Ptr)
  objects : Ptr → Common
  calloced : Nat

section Functions
variable (pool : Pool)

def initLoop (handle : Nat → Handle) : Nat → Nat → Ptr → Option Ptr → (Ptr → Common) →
    (Ptr → Common) × Option Ptr
  | 0, _, _, hptr, objects => (objects, hptr)
  | n + 1, i, ptr, _, objects =>
    let next := ptr.add pool.size
    initLoop handle n (i + 1) next (some ptr)
      (Function.update objects ptr ⟨handle i, some next⟩)

def initObjects (handle : Nat → Handle) (n : Nat) (ptr : Ptr) (objects : Ptr → Common) :
    Ptr → Common :=
  let r := initLoop pool handle n 0 ptr none objects
  match r.2 with
  | some hptr => Function.update r.1 hptr { r.1 hptr with next := none }
  | none => r.1

/-- `MPIU_Handle_direct_init`, which returns `direct` also where there is no object in it. -/
def handleDirectInit (objects : Ptr → Common) : (Ptr → Common) × Ptr :=
  let direct : Ptr := ⟨.direct, 0⟩
  (initObjects pool (directHandle pool.kind) pool.directSize direct objects, direct)

/-- `MPIU_Handle_indirect_init`; `table` and `block` say whether `MPIU_Calloc` has memory for the table
and for the block. -/
def handleIndirectInit (m : ObjMem) (table block : Bool) : ObjMem × Option Ptr :=
  match m.indirect.or (if table then some [] else none) with
  | none => (m, none)
  | some indirect =>
    if handleNumBlocks ≤ indirect.length then ({ m with indirect := some indirect }, none)
    else if block = false then ({ m with indirect := some indirect }, none)
    else
      let blockPtr : Ptr := ⟨.block m.calloced, 0⟩
      let objects := initObjects pool (indirectHandle pool.kind indirect.length) handleNumIndices
        blockPtr m.objects
      ({ m with
          indirect := some (indirect ++ [blockPtr])
          objects := objects
          calloced := m.calloced + 1 }, some blockPtr)

def handleObjAllocUnsafe (m : ObjMem) (table block : Bool) : ObjMem × Option Ptr :=
  match m.avail with
  | some ptr => ({ m with avail := (m.objects ptr).next }, some ptr)
  | none =>
    if m.initialized then
      let r := handleIndirectInit pool m table block
      match r.2 with
      | some ptr => ({ r.1 with avail := (r.1.objects ptr).next }, some ptr)
      | none => r
    else
      let r := handleDirectInit pool m.objects
      ({ m with initialized := true, objects := r.1, avail := (r.1 r.2).next }, some r.2)

end Functions

def handleObjFree (m : ObjMem) (obj : Ptr) : ObjMem :=
  { m with
    objects := Function.update m.objects obj { m.objects obj with next := m.avail }
    avail := some obj }

section Lookup
variable (pool : Pool) (m : ObjMem)

def handleGetPtrIndirect (handle : Handle) : Option Ptr :=
  if handleGetMpiKind handle ≠ pool.kind.value then none
  else
    match (m.indirect.getD [])[handleBlock handle]? with
    | none => none
    | some blockPtr =>
      some { blockPtr with offset := blockPtr.offset + intMul (handleBlockIndex handle) pool.size }

/-- `MPID_Get_ptr`; the index into the direct array is not multiplied as an `int`. -/
def getPtr (handle : Handle) : Option Ptr :=
  if handleGetKind handle = handleKindDirect then
    some ⟨.direct, ((handleIndex handle * pool.size : Nat) : Int)⟩
  else if handleGetKind handle = handleKindIndirect then handleGetPtrIndirect pool m handle
  else none

end Lookup

section Init
variable (pool : Pool) (r : Region)

def objectAt (i : Nat) : Ptr := ⟨r, ((i * pool.size : Nat) : Int)⟩

theorem objectAt_zero : objectAt pool r 0 = ⟨r, 0⟩ := by
  simp [objectAt]

theorem objectAt_add (i : Nat) : (objectAt pool r i).add pool.size = objectAt pool r (i + 1) := by
  unfold objectAt Ptr.add
  rw [Nat.succ_mul]
  rfl

theorem size_pos : 0 < pool.size := Nat.lt_of_lt_of_le (by decide) pool.header

theorem objectAt_inj {i j : Nat} (h : objectAt pool r i = objectAt pool r j) : i = j := by
  have hoffset : ((i * pool.size : Nat) : Int) = ((j * pool.size : Nat) : Int) :=
    congrArg Ptr.offset h
  exact Nat.eq_of_mul_eq_mul_right (size_pos pool) (Int.ofNat.inj hoffset)

variable (handle : Nat → Handle)

theorem initLoop_other (n i : Nat) (hptr : Option Ptr) (objects : Ptr → Common) {p : Ptr}
    (h : ∀ j < n, p ≠ objectAt pool r (i + j)) :
    (initLoop pool handle n i (objectAt pool r i) hptr objects).1 p = objects p := by
  induction n generalizing i hptr objects with
  | zero => rfl
  | succ n ih =>
    unfold initLoop
    dsimp only
    rw [objectAt_add, ih]
    · exact Function.update_of_ne (h 0 (Nat.succ_pos n)) _ _
    · intro j hj
      rw [Nat.add_assoc, Nat.add_comm 1]
      exact h (j + 1) (by omega)

theorem initLoop_get (n i : Nat) (hptr : Option Ptr) (objects : Ptr → Common) {j : Nat} (hj : j < n) :
    (initLoop pool handle n i (objectAt pool r i) hptr objects).1 (objectAt pool r (i + j)) =
      ⟨handle (i + j), some (objectAt pool r (i + j + 1))⟩ := by
  induction n generalizing i hptr objects j with
  | zero => exact absurd hj (Nat.not_lt_zero _)
  | succ n ih =>
    unfold initLoop
    dsimp only
    rw [objectAt_add]
    cases j with
    | zero =>
      rw [initLoop_other]
      · exact Function.update_self _ _ _
      · intro j _ heq
        have hij := objectAt_inj pool r heq
        omega
    | succ j =>
      have hrest := ih (i + 1) (some (objectAt pool r i)) (Function.update objects
        (objectAt pool r i) ⟨handle i, some (objectAt pool r (i + 1))⟩) (Nat.lt_of_succ_lt_succ hj)
      rw [Nat.add_assoc i 1 j, Nat.add_comm 1 j] at hrest
      exact hrest

theorem initLoop_last (n i : Nat) (hptr : Option Ptr) (objects : Ptr → Common) :
    (initLoop pool handle (n + 1) i (objectAt pool r i) hptr objects).2 =
      some (objectAt pool r (i + n)) := by
  induction n generalizing i hptr objects with
  | zero => rfl
  | succ n ih =>
    unfold initLoop
    dsimp only
    rw [objectAt_add, ih, Nat.add_assoc, Nat.add_comm 1]

variable {n : Nat} (objects : Ptr → Common)

theorem initObjects_eq (hn : 0 < n) :
    initObjects pool handle n ⟨r, 0⟩ objects =
      Function.update (initLoop pool handle n 0 (objectAt pool r 0) none objects).1
        (objectAt pool r (n - 1)) ⟨handle (n - 1), none⟩ := by
  obtain ⟨k, rfl⟩ := Nat.exists_eq_succ_of_ne_zero (Nat.ne_of_gt hn)
  have hlast := initLoop_last pool r handle k 0 none objects
  have hget := initLoop_get pool r handle (k + 1) 0 none objects (Nat.lt_add_one k)
  rw [Nat.zero_add] at hlast hget
  unfold initObjects
  rw [← objectAt_zero pool]
  dsimp only
  rw [hlast]
  dsimp only
  rw [hget]
  rfl

theorem initObjects_other (hn : 0 < n) {p : Ptr} (h : ∀ j < n, p ≠ objectAt pool r j) :
    initObjects pool handle n ⟨r, 0⟩ objects p = objects p := by
  rw [initObjects_eq pool r handle objects hn, Function.update_of_ne (h (n - 1) (by omega))]
  apply initLoop_other
  intro j hj
  rw [Nat.zero_add]
  exact h j hj

theorem initObjects_get {j : Nat} (hj : j < n) :
    initObjects pool handle n ⟨r, 0⟩ objects (objectAt pool r j) =
      ⟨handle j, if j + 1 < n then some (objectAt pool r (j + 1)) else none⟩ := by
  have hn : 0 < n := by omega
  rw [initObjects_eq pool r handle objects hn]
  by_cases hlast : j + 1 < n
  · have hne : objectAt pool r j ≠ objectAt pool r (n - 1) := by
      intro heq
      have hjn := objectAt_inj pool r heq
      omega
    have hget := initLoop_get pool r handle n 0 none objects hj
    rw [Nat.zero_add] at hget
    rw [Function.update_of_ne hne, hget, if_pos hlast]
  · have hj' : j = n - 1 := by omega
    subst hj'
    rw [Function.update_self, if_neg hlast]

end Init

end FgMpi.Handles.Allocator
