import Mathlib.Data.List.Basic
import Mathlib.Tactic.Linarith

/-! `Dataloop_copy` and `Dataloop_update` (`mpid/common/datatype/dataloop/dataloop.c`). -/

namespace FgMpi.Traversal.Relocation

inductive Kind
  | contig
  | vector
  | blockindexed (offsetArray : Int)
  | indexed (blocksizeArray offsetArray : Int)
deriving Repr, DecidableEq

mutual

/-- `final` has `DLOOP_FINAL_MASK`, which no structure is created with. -/
inductive Loop
  | final (address : Int) (kind : Kind)
  | node (address : Int) (kind : Kind) (dataloop : Int) (child : Loop)
  | struct (address blocksizeArray offsetArray dataloopArray elExtentArray : Int) (entries : Entries)

/-- `dataloop_array` and the loops it points to. -/
inductive Entries
  | nil
  | cons (dataloop : Int) (child : Loop) (rest : Entries)

end

section Update
variable (ptrdiff : Int)

/-- `Dataloop_update`; `none` is an assertion. -/
def Kind.update : Kind → Option Kind
  | .contig => some .contig
  | .vector => some .vector
  | .blockindexed offsetArray =>
    if offsetArray = 0 then none else some (.blockindexed (offsetArray + ptrdiff))
  | .indexed blocksizeArray offsetArray =>
    if blocksizeArray = 0 ∨ offsetArray = 0 then none
    else some (.indexed (blocksizeArray + ptrdiff) (offsetArray + ptrdiff))

mutual

def Loop.update : Loop → Option Loop
  | .final address kind => (kind.update ptrdiff).map (.final address)
  | .node address kind dataloop child => do
    let kind ← kind.update ptrdiff
    if dataloop = 0 then none
    else
      let child ← child.update
      some (.node address kind (dataloop + ptrdiff) child)
  | .struct address blocksizeArray offsetArray dataloopArray elExtentArray entries => do
    if blocksizeArray = 0 ∨ offsetArray = 0 ∨ dataloopArray = 0 then none
    else
      let entries ← entries.update
      some (.struct address (blocksizeArray + ptrdiff) (offsetArray + ptrdiff)
        (dataloopArray + ptrdiff) elExtentArray entries)

def Entries.update : Entries → Option Entries
  | .nil => some .nil
  | .cons dataloop child rest => do
    if dataloop = 0 then none
    else
      let child ← child.update
      let rest ← rest.update
      some (.cons (dataloop + ptrdiff) child rest)

end

mutual

/-- The bytes of a tree as `memcpy` puts them elsewhere: the same pointers in loops at other places. -/
def Loop.memcpy : Loop → Loop
  | .final address kind => .final (address + ptrdiff) kind
  | .node address kind dataloop child => .node (address + ptrdiff) kind dataloop child.memcpy
  | .struct address blocksizeArray offsetArray dataloopArray elExtentArray entries =>
    .struct (address + ptrdiff) blocksizeArray offsetArray dataloopArray elExtentArray entries.memcpy

def Entries.memcpy : Entries → Entries
  | .nil => .nil
  | .cons dataloop child rest => .cons dataloop child.memcpy rest.memcpy

end

end Update

/-- `Dataloop_copy`; `Dataloop_dup` is a copy to memory of its own. -/
def dataloopCopy (dest src : Int) (loop : Loop) : Option Loop :=
  (loop.memcpy (dest - src)).update (dest - src)

def sizeofDataloop : Nat := 72

def padded (sz : Nat) : Nat := if sz % 8 ≠ 0 then sz + (8 - sz % 8) else sz

/-- The kind of a new loop; with the sizes of its arrays and the pointers to them. -/
inductive AllocKind
  | contig
  | vector
  | blockindexed
  | indexed
deriving Repr, DecidableEq

def AllocKind.offSz (count : Nat) : AllocKind → Nat
  | .contig | .vector => 0
  | .blockindexed | .indexed => padded (count * 8)

def AllocKind.blkSz (count : Nat) : AllocKind → Nat
  | .indexed => padded (count * 8)
  | _ => 0

def AllocKind.pointers (count : Nat) (newLoop : Int) (kind : AllocKind) : Kind :=
  match kind with
  | .contig => .contig
  | .vector => .vector
  | .blockindexed => .blockindexed (newLoop + padded sizeofDataloop)
  | .indexed =>
    .indexed (newLoop + padded sizeofDataloop) (newLoop + padded sizeofDataloop + kind.blkSz count)

def newLoopSz (kind : AllocKind) (count oldLoopSz : Nat) : Nat :=
  padded sizeofDataloop + kind.offSz count + kind.blkSz count + oldLoopSz

/-- `Dataloop_alloc_and_copy` when there is memory at `newLoop`; with no old loop it is `final`. -/
def allocAndCopy (kind : AllocKind) (count : Nat) (oldLoop : Option (Int × Loop)) (oldLoopSz : Nat)
    (newLoop : Int) : Option Loop :=
  let pos := newLoop + (newLoopSz kind count oldLoopSz - oldLoopSz)
  match oldLoop with
  | none => some (.final newLoop (kind.pointers count newLoop))
  | some (address, loop) =>
    if oldLoopSz % 8 = 0 then
      (dataloopCopy pos address loop).map (.node newLoop (kind.pointers count newLoop) pos)
    else none

/-- A loop that goes into a structure: where it is, its size, and the loop. -/
structure Member where
  address : Int
  size : Nat
  loop : Loop

/-- The loop of `Dataloop_create_struct` that copies the members. -/
def copyMembers : List Member → Int → Option Entries
  | [], _ => some .nil
  | old :: rest, curpos => do
    let child ← dataloopCopy curpos old.address old.loop
    let entries ← copyMembers rest (curpos + old.size)
    some (.cons curpos child entries)

/-- `Dataloop_struct_alloc` for `count` members, and the copies; the basic members have a contiguous loop
each, whose size is in `basic_ct * basic_sz`. -/
def structAllocSz (members : List Member) : Nat :=
  padded sizeofDataloop + padded (members.length * 8) + padded (members.length * 8) +
    padded (members.length * 8) + padded (members.length * 8) + (members.map (·.size)).sum

def structLoop (count : Nat) (newLoop : Int) : Entries → Loop :=
  let arraySz : Int := padded (count * 8)
  let pos : Int := newLoop + padded sizeofDataloop
  .struct newLoop (pos + arraySz) (pos + arraySz + arraySz) pos (pos + arraySz + arraySz + arraySz)

def structAlloc (members : List Member) (newLoop : Int) : Option Loop :=
  let arraySz : Int := padded (members.length * 8)
  (copyMembers members
    (newLoop + padded sizeofDataloop + arraySz + arraySz + arraySz + arraySz)).map
      (structLoop members.length newLoop)

def Kind.stored : Kind → List Int
  | .contig | .vector => []
  | .blockindexed offsetArray => [offsetArray]
  | .indexed blocksizeArray offsetArray => [blocksizeArray, offsetArray]

mutual

def Loop.stored : Loop → List Int
  | .final _ kind => kind.stored
  | .node _ kind dataloop child => kind.stored ++ dataloop :: child.stored
  | .struct _ blocksizeArray offsetArray dataloopArray elExtentArray entries =>
    blocksizeArray :: offsetArray :: dataloopArray :: elExtentArray :: entries.stored

def Entries.stored : Entries → List Int
  | .nil => []
  | .cons dataloop child rest => dataloop :: (child.stored ++ rest.stored)

end

def Loop.NoStruct : Loop → Prop
  | .final _ _ => True
  | .node _ _ _ child => child.NoStruct
  | .struct _ _ _ _ _ _ => False

def Inside (start : Int) (size : Nat) (pointers : List Int) : Prop :=
  ∀ p ∈ pointers, start ≤ p ∧ p < start + size

variable {size : Nat}

theorem inside_append {start : Int} {ps qs : List Int} :
    Inside start size (ps ++ qs) ↔ Inside start size ps ∧ Inside start size qs :=
  List.forall_mem_append

theorem Kind.update_stored {d : Int} {kind : Kind} (h : ∀ p ∈ kind.stored, p ≠ 0) :
    ∃ kind', kind.update d = some kind' ∧ kind'.stored = kind.stored.map (· + d) := by
  cases kind with
  | contig => exact ⟨_, rfl, rfl⟩
  | vector => exact ⟨_, rfl, rfl⟩
  | blockindexed offsetArray =>
    have hne : offsetArray ≠ 0 := h _ (by simp [Kind.stored])
    exact ⟨.blockindexed (offsetArray + d), if_neg hne, rfl⟩
  | indexed blocksizeArray offsetArray =>
    have hne : ¬(blocksizeArray = 0 ∨ offsetArray = 0) := by
      rintro (hzero | hzero)
      · exact h _ (by simp [Kind.stored]) hzero
      · exact h offsetArray (by simp [Kind.stored]) hzero
    exact ⟨.indexed (blocksizeArray + d) (offsetArray + d), if_neg hne, rfl⟩

theorem dataloopCopy_moves (dest src : Int) {loop : Loop} (hloop : loop.NoStruct)
    (h : ∀ p ∈ loop.stored, p ≠ 0) : ∃ copy, dataloopCopy dest src loop = some copy ∧
      copy.stored = loop.stored.map (· + (dest - src)) := by
  unfold dataloopCopy
  generalize dest - src = d
  match loop with
  | .final address kind =>
    obtain ⟨kind', hupdate, hstored⟩ := kind.update_stored (d := d) h
    exact ⟨.final (address + d) kind', by simp [Loop.memcpy, Loop.update, hupdate], hstored⟩
  | .node address kind dataloop child =>
    simp only [Loop.stored, List.mem_append, List.mem_cons] at h
    obtain ⟨kind', hupdate, hstored⟩ := kind.update_stored (d := d) fun p hp => h p (Or.inl hp)
    have hne : dataloop ≠ 0 := h _ (Or.inr (Or.inl rfl))
    obtain ⟨copy, hcopy, hcopied⟩ := dataloopCopy_moves d 0 (show child.NoStruct from hloop)
      fun p hp => h p (Or.inr (Or.inr hp))
    rw [dataloopCopy, Int.sub_zero] at hcopy
    refine ⟨.node (address + d) kind' (dataloop + d) copy, ?_, ?_⟩
    · simp [Loop.memcpy, Loop.update, hupdate, hne, hcopy]
    · simp only [Loop.stored, hstored, hcopied, Int.sub_zero, List.map_append, List.map_cons]
  | .struct _ _ _ _ _ _ => exact hloop.elim

theorem dataloopCopy_stays {dest src : Int} {loop copy : Loop} (hloop : ¬loop.NoStruct)
    (h : dataloopCopy dest src loop = some copy) : ∃ p ∈ copy.stored, p ∈ loop.stored := by
  unfold dataloopCopy at h
  generalize dest - src = d at h
  match loop with
  | .final _ _ => exact absurd trivial hloop
  | .node address kind dataloop child =>
    simp only [Loop.memcpy, Loop.update, Option.bind_eq_bind, Option.bind_eq_some_iff] at h
    obtain ⟨kind', -, h⟩ := h
    split at h
    · cases h
    obtain ⟨child', hchild, h⟩ := Option.bind_eq_some_iff.mp h
    obtain ⟨p, hp, hp'⟩ := dataloopCopy_stays (show ¬child.NoStruct from hloop)
      (show dataloopCopy d 0 child = some child' by rw [dataloopCopy, Int.sub_zero]; exact hchild)
    rw [Option.some.injEq] at h
    subst h
    exact ⟨p, by simp [Loop.stored, hp], by simp [Loop.stored, hp']⟩
  | .struct address blocksizeArray offsetArray dataloopArray elExtentArray entries =>
    simp only [Loop.memcpy, Loop.update] at h
    split at h
    · cases h
    obtain ⟨entries', -, h⟩ := Option.bind_eq_some_iff.mp h
    rw [Option.some.injEq] at h
    subst h
    exact ⟨elExtentArray, by simp [Loop.stored], by simp [Loop.stored]⟩

structure Copying (src : Int) (size : Nat) (loop : Loop) (dest : Int) (destSize : Nat) : Prop where
  positive : 0 < src
  occupied : 0 < size
  inside : Inside src size loop.stored
  apart : src + size ≤ dest ∨ dest + destSize ≤ src

section Copying
variable {src dest : Int} {size destSize : Nat} {loop : Loop}

theorem Copying.copied (h : Copying src size loop dest destSize) (hloop : loop.NoStruct) (pos : Int) :
    ∃ copy, dataloopCopy pos src loop = some copy ∧
      copy.stored = loop.stored.map (· + (pos - src)) ∧ Inside pos size copy.stored := by
  obtain ⟨copy, hcopy, hstored⟩ := dataloopCopy_moves pos src hloop fun p hp => by
    have := (h.inside p hp).1
    have := h.positive
    omega
  refine ⟨copy, hcopy, hstored, fun p hp => ?_⟩
  rw [hstored] at hp
  obtain ⟨q, hq, rfl⟩ := List.mem_map.mp hp
  have := h.inside q hq
  omega

theorem Copying.dangling (h : Copying src size loop dest destSize) (hloop : ¬loop.NoStruct) {pos : Int}
    {copy : Loop} (hcopy : dataloopCopy pos src loop = some copy) :
    ¬Inside dest destSize copy.stored := by
  intro hinside
  obtain ⟨p, hp, hold⟩ := dataloopCopy_stays hloop hcopy
  have := h.inside p hold
  have := hinside p hp
  have := h.apart
  omega

end Copying

def CopyRight (dest src : Int) (size : Nat) (loop : Loop) : Prop :=
  ∃ copy, dataloopCopy dest src loop = some copy ∧
    copy.stored = loop.stored.map (· + (dest - src)) ∧ Inside dest size copy.stored

theorem copyRight_iff {src dest : Int} {loop : Loop} (h : Copying src size loop dest size) :
    CopyRight dest src size loop ↔ loop.NoStruct := by
  constructor
  · rintro ⟨copy, hcopy, -, hinside⟩
    by_contra hloop
    exact h.dangling hloop hcopy hinside
  · intro hloop
    exact h.copied hloop dest

def AllocRight (kind : AllocKind) (count : Nat) (src : Int) (size : Nat) (loop : Loop) (newLoop : Int) :
    Prop :=
  ∃ pos child, allocAndCopy kind count (some (src, loop)) size newLoop =
      some (.node newLoop (kind.pointers count newLoop) pos child) ∧
    child.stored = loop.stored.map (· + (pos - src)) ∧
    Inside newLoop (newLoopSz kind count size) (kind.pointers count newLoop).stored ∧
    Inside newLoop (newLoopSz kind count size) (pos :: child.stored)

theorem pointers_inside (kind : AllocKind) (count : Nat) (newLoop : Int) (hsize : 0 < size) :
    Inside newLoop (newLoopSz kind count size) (kind.pointers count newLoop).stored := by
  intro p hp
  unfold newLoopSz
  cases kind with
  | contig => cases hp
  | vector => cases hp
  | blockindexed =>
    obtain rfl := List.mem_singleton.mp hp
    omega
  | indexed =>
    rcases List.mem_pair.mp hp with rfl | rfl <;> omega

variable {newLoop : Int}

theorem allocRight_iff {kind : AllocKind} {count : Nat} {src : Int} {loop : Loop}
    (h : Copying src size loop newLoop (newLoopSz kind count size)) (hsize : size % 8 = 0) :
    AllocRight kind count src size loop newLoop ↔ loop.NoStruct := by
  constructor
  · rintro ⟨pos, child, halloc, -, -, hinside⟩
    by_contra hloop
    rw [allocAndCopy] at halloc
    simp only [if_pos hsize, Option.map_eq_some_iff, Loop.node.injEq, true_and] at halloc
    obtain ⟨copy, hcopy, -, rfl⟩ := halloc
    exact h.dangling hloop hcopy fun p hp => hinside p (List.mem_cons_of_mem _ hp)
  · intro hloop
    obtain ⟨copy, hcopy, hstored, hinside⟩ := h.copied hloop
      (newLoop + (newLoopSz kind count size - size))
    have hle : size ≤ newLoopSz kind count size := Nat.le_add_left _ _
    have hsz := h.occupied
    refine ⟨_, copy, ?_, hstored, pointers_inside kind count newLoop hsz, fun p hp => ?_⟩
    · rw [allocAndCopy]
      simp only [if_pos hsize, hcopy, Option.map_some]
    · rcases List.mem_cons.mp hp with rfl | hp
      · omega
      · have := hinside p hp
        omega

def movedMembers : List Member → Int → List Int
  | [], _ => []
  | m :: rest, pos => pos :: (m.loop.stored.map (· + (pos - m.address)) ++ movedMembers rest (pos + m.size))

def StructRight (members : List Member) (newLoop : Int) : Prop :=
  ∃ entries, structAlloc members newLoop = some (structLoop members.length newLoop entries) ∧
    entries.stored = movedMembers members (newLoop + (structAllocSz members - (members.map (·.size)).sum)) ∧
    Inside newLoop (structAllocSz members) (structLoop members.length newLoop entries).stored

theorem copyMembers_moves {members : List Member} {sz : Nat}
    (h : ∀ m ∈ members, Copying m.address m.size m.loop newLoop sz)
    (hloops : ∀ m ∈ members, m.loop.NoStruct) (curpos : Int) :
    ∃ entries, copyMembers members curpos = some entries ∧ entries.stored = movedMembers members curpos ∧
      Inside curpos (members.map (·.size)).sum entries.stored := by
  induction members generalizing curpos with
  | nil => exact ⟨.nil, rfl, rfl, fun p hp => nomatch hp⟩
  | cons m rest ih =>
    have hm := h m List.mem_cons_self
    obtain ⟨copy, hcopy, hstored, hinside⟩ := hm.copied (hloops m List.mem_cons_self) curpos
    obtain ⟨entries, hentries, hrest, hrestin⟩ := ih (fun x hx => h x (List.mem_cons_of_mem _ hx))
      (fun x hx => hloops x (List.mem_cons_of_mem _ hx)) (curpos + m.size)
    refine ⟨.cons curpos copy entries, ?_, ?_, fun p hp => ?_⟩
    · simp [copyMembers, hcopy, hentries]
    · rw [Entries.stored, movedMembers, hstored, hrest]
    · have hpos := hm.occupied
      rw [List.map_cons, List.sum_cons]
      simp only [Entries.stored, List.mem_cons, List.mem_append] at hp
      rcases hp with rfl | hp | hp
      · omega
      · have := hinside p hp
        omega
      · have := hrestin p hp
        omega

theorem copyMembers_dangling {members : List Member} {curpos : Int} {sz : Nat} {entries : Entries}
    (h : ∀ m ∈ members, Copying m.address m.size m.loop newLoop sz)
    (hcopy : copyMembers members curpos = some entries) (hinside : Inside newLoop sz entries.stored) :
    ∀ m ∈ members, m.loop.NoStruct := by
  induction members generalizing curpos entries with
  | nil => exact fun m hm => nomatch hm
  | cons m rest ih =>
    obtain ⟨child, hchild, hcopy⟩ := Option.bind_eq_some_iff.mp hcopy
    obtain ⟨entries', hrest, hcopy⟩ := Option.bind_eq_some_iff.mp hcopy
    rw [Option.some.injEq] at hcopy
    subst hcopy
    have hparts : Inside newLoop sz child.stored ∧ Inside newLoop sz entries'.stored :=
      inside_append.mp fun p hp => hinside p (List.mem_cons_of_mem _ hp)
    intro x hx
    rcases List.mem_cons.mp hx with rfl | hx
    · by_contra hloop
      exact (h x List.mem_cons_self).dangling hloop hchild hparts.1
    · exact ih (fun y hy => h y (List.mem_cons_of_mem _ hy)) hrest hparts.2 x hx

theorem structRight_iff {members : List Member} (hne : members ≠ [])
    (h : ∀ m ∈ members, Copying m.address m.size m.loop newLoop (structAllocSz members)) :
    StructRight members newLoop ↔ ∀ m ∈ members, m.loop.NoStruct := by
  constructor
  · rintro ⟨entries, halloc, -, hinside⟩
    simp only [structAlloc, structLoop, Option.map_eq_some_iff, Loop.struct.injEq, true_and] at halloc
    obtain ⟨entries', hcopy, rfl⟩ := halloc
    refine copyMembers_dangling h hcopy fun p hp => hinside p ?_
    simp only [structLoop, Loop.stored, List.mem_cons, hp, or_true]
  · intro hloops
    have hpos : newLoop + (padded sizeofDataloop : Nat) + (padded (members.length * 8) : Nat) +
        (padded (members.length * 8) : Nat) + (padded (members.length * 8) : Nat) +
        (padded (members.length * 8) : Nat) =
        newLoop + (structAllocSz members - (members.map (·.size)).sum) := by
      unfold structAllocSz
      omega
    obtain ⟨entries, hcopy, hstored, hinside⟩ := copyMembers_moves h hloops
      (newLoop + (structAllocSz members - (members.map (·.size)).sum))
    have hsum : 0 < (members.map (·.size)).sum := by
      obtain ⟨m, rest, rfl⟩ := List.exists_cons_of_ne_nil hne
      exact Nat.add_pos_left (h m List.mem_cons_self).occupied _
    refine ⟨entries, ?_, hstored, ?_⟩
    · rw [structAlloc, hpos, hcopy]
      rfl
    · have hsz : (structAllocSz members : Int) = padded sizeofDataloop + padded (members.length * 8) +
          padded (members.length * 8) + padded (members.length * 8) + padded (members.length * 8) +
          (members.map (·.size)).sum := by
        unfold structAllocSz
        push_cast
        rfl
      intro p hp
      simp only [structLoop, Loop.stored, List.mem_cons] at hp
      rcases hp with rfl | rfl | rfl | rfl | hp
      · omega
      · omega
      · omega
      · omega
      · have := hinside p hp
        omega

/-- The copies of `Dataloop_copy` and `Dataloop_dup`, of `Dataloop_alloc_and_copy`, and of
`Dataloop_struct_alloc`. -/
theorem relocation_iff (newLoop : Int) :
    (∀ {src : Int} {size : Nat} {loop : Loop}, Copying src size loop newLoop size →
      (CopyRight newLoop src size loop ↔ loop.NoStruct)) ∧
    (∀ {kind : AllocKind} {count : Nat} {src : Int} {size : Nat} {loop : Loop},
      Copying src size loop newLoop (newLoopSz kind count size) → size % 8 = 0 →
      (AllocRight kind count src size loop newLoop ↔ loop.NoStruct)) ∧
    ∀ {members : List Member}, members ≠ [] →
      (∀ m ∈ members, Copying m.address m.size m.loop newLoop (structAllocSz members)) →
      (StructRight members newLoop ↔ ∀ m ∈ members, m.loop.NoStruct) :=
  ⟨copyRight_iff, allocRight_iff, structRight_iff⟩

def blocks : Loop := .final 1000 (.blockindexed 1072)

theorem blocks_copying {dest : Int} {sz : Nat} (h : 1088 ≤ dest) : Copying 1000 88 blocks dest sz := by
  refine ⟨by decide, by decide, fun p hp => ?_, Or.inl h⟩
  obtain rfl := List.mem_singleton.mp hp
  decide

theorem relocation_blocks : CopyRight 2000 1000 88 blocks ∧ AllocRight .vector 3 1000 88 blocks 2000 ∧
    StructRight [⟨1000, 88, blocks⟩] 2000 :=
  ⟨((relocation_iff 2000).1 (blocks_copying (by decide))).mpr trivial,
    ((relocation_iff 2000).2.1 (blocks_copying (by decide)) rfl).mpr trivial,
    ((relocation_iff 2000).2.2 (List.cons_ne_nil _ _) fun m hm => by
      obtain rfl := List.mem_singleton.mp hm
      exact blocks_copying (by decide)).mpr fun m hm => by
        obtain rfl := List.mem_singleton.mp hm
        trivial⟩

def structure1 : Loop := .struct 1000 1080 1088 1072 1096 (.cons 1104 (.final 1104 .contig) .nil)

theorem copy_dangles : Copying 1000 176 structure1 3000 176 ∧ ¬CopyRight 3000 1000 176 structure1 ∧
    dataloopCopy 3000 1000 structure1 =
      some (.struct 3000 3080 3088 3072 1096 (.cons 3104 (.final 3104 .contig) .nil)) := by
  have hcopying : Copying 1000 176 structure1 3000 176 := by
    refine ⟨by decide, by decide, ?_, Or.inl (by decide)⟩
    unfold Inside structure1
    decide
  exact ⟨hcopying, fun h => (copyRight_iff hcopying).mp h, rfl⟩

end FgMpi.Traversal.Relocation
