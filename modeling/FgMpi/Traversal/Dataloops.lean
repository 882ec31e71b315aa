import FgMpi.Types.Constructors
import Mathlib.Algebra.BigOperators.Group.List.Basic

/-! `DLOOP_Dataloop` (`mpid/common/datatype/dataloop/dataloop_parts.h`). -/

namespace FgMpi.Traversal.Dataloops
open Types.Constructors

/-- `el_size`, `el_extent` and `el_type`. -/
structure El where
  size : Nat
  extent : Int
  type : Builtin
deriving Repr, DecidableEq

/-- `DLOOP_Dataloop_contig`, `_vector`, `_blockindexed` and `_indexed`, without the pointer to the
next dataloop. -/
inductive Params
  | contig (count : Nat)
  | vector (count blocksize : Nat) (stride : Int)
  | blockindexed (count blocksize : Nat) (offsetArray : List Int)
  | indexed (count : Nat) (blocksizeArray : List Nat) (offsetArray : List Int) (totalBlocks : Nat)
deriving Repr, DecidableEq

mutual

inductive Dataloop
  | leaf (params : Params) (el : El)
  | node (params : Params) (el : El) (dataloop : Dataloop)
  | struct (members : Members)

/-- The arrays of `DLOOP_Dataloop_struct`, entry by entry. -/
inductive Members
  | nil
  | cons (blocksize : Nat) (offset elExtent : Int) (dataloop : Dataloop) (rest : Members)

end

def Params.blocks : Params → List Block
  | .contig count => [⟨count, 0⟩]
  | .vector count blocksize stride =>
    (List.range count).map fun i : Nat => ⟨blocksize, i * stride⟩
  | .blockindexed _ blocksize offsetArray => offsetArray.map (⟨blocksize, ·⟩)
  | .indexed _ blocksizeArray offsetArray _ =>
    (blocksizeArray.zip offsetArray).map fun b => ⟨b.1, b.2⟩

structure Child where
  blocksize : Nat
  offset : Int
  elExtent : Int
  dataloop : Dataloop

def Members.list : Members → List Child
  | .nil => []
  | .cons blocksize offset elExtent dl rest => ⟨blocksize, offset, elExtent, dl⟩ :: rest.list

def Dataloop.children : Dataloop → List Child
  | .leaf _ _ => []
  | .node p el dl => p.blocks.map fun B => ⟨B.blocklength, B.disp, el.extent, dl⟩
  | .struct ms => ms.list

/-- `loop_params.count`. -/
def Params.count : Params → Nat
  | .contig count => count
  | .vector count _ _ => count
  | .blockindexed count _ _ => count
  | .indexed count _ _ _ => count

def Dataloop.isLeaf : Dataloop → Bool
  | .leaf _ _ => true
  | _ => false

@[simp] theorem isLeaf_leaf (p : Params) (el : El) : (Dataloop.leaf p el).isLeaf = true := rfl

@[induction_eliminator]
theorem Dataloop.ind {motive : Dataloop → Prop} (leaf : ∀ p el, motive (.leaf p el))
    (node : ∀ p el dl, motive dl → motive (.node p el dl))
    (struct : ∀ ms : Members, (∀ ch ∈ ms.list, motive ch.dataloop) → motive (.struct ms))
    (dl : Dataloop) : motive dl :=
  @Dataloop.rec motive (fun ms => ∀ ch ∈ ms.list, motive ch.dataloop) leaf node struct
    (fun _ h => nomatch h)
    (fun _ _ _ _ _ hdl hrest ch hch => by
      rcases List.mem_cons.mp hch with rfl | hch
      · exact hdl
      · exact hrest ch hch)
    dl

structure Element where
  disp : Int
  el : El
deriving Repr, DecidableEq

def blockElements (el : El) (off : Int) (B : Block) : List Element :=
  (List.range B.blocklength).map fun i : Nat => ⟨off + B.disp + i * el.size, el⟩

mutual

/-- The basic elements in the order of the loops, for a dataloop that starts at `off`. -/
def Dataloop.elements : Dataloop → Int → List Element
  | .leaf p el, off => p.blocks.flatMap (blockElements el off)
  | .node p el dl, off =>
    p.blocks.flatMap fun B => (List.range B.blocklength).flatMap fun i : Nat =>
      dl.elements (off + B.disp + i * el.extent)
  | .struct ms, off => ms.elements off

def Members.elements : Members → Int → List Element
  | .nil, _ => []
  | .cons blocksize offset elExtent dl rest, off =>
    ((List.range blocksize).flatMap fun i : Nat => dl.elements (off + offset + i * elExtent)) ++
      rest.elements off

end

def childElements (off : Int) (ch : Child) : List Element :=
  (List.range ch.blocksize).flatMap fun i : Nat =>
    ch.dataloop.elements (off + ch.offset + i * ch.elExtent)

theorem members_elements (ms : Members) (off : Int) :
    ms.elements off = ms.list.flatMap (childElements off) := by
  match ms with
  | .nil => rfl
  | .cons blocksize offset elExtent dl rest =>
    rw [Members.elements, Members.list, List.flatMap_cons, members_elements rest off]
    rfl

variable {dl : Dataloop}

theorem elements_children (h : dl.isLeaf = false) (off : Int) :
    dl.elements off = dl.children.flatMap (childElements off) := by
  cases dl with
  | leaf p el => cases h
  | node p el dl =>
    rw [Dataloop.elements, Dataloop.children, List.flatMap_map]
    rfl
  | struct ms => rw [Dataloop.elements, Dataloop.children, members_elements]

mutual

def Dataloop.steps : Dataloop → Nat
  | .leaf p _ => p.blocks.length
  | .node p _ dl => (p.blocks.map fun B => 1 + B.blocklength * (1 + dl.steps)).sum
  | .struct ms => ms.steps

def Members.steps : Members → Nat
  | .nil => 0
  | .cons blocksize _ _ dl rest => (1 + blocksize * (1 + dl.steps)) + rest.steps

end

def childSteps (ch : Child) : Nat := 1 + ch.blocksize * (1 + ch.dataloop.steps)

theorem members_steps (ms : Members) : ms.steps = (ms.list.map childSteps).sum := by
  match ms with
  | .nil => rfl
  | .cons blocksize offset elExtent dl rest =>
    rw [Members.steps, Members.list, List.map_cons, List.sum_cons, members_steps rest]
    rfl

theorem steps_children (h : dl.isLeaf = false) : dl.steps = (dl.children.map childSteps).sum := by
  cases dl with
  | leaf p el => cases h
  | node p el dl =>
    rw [Dataloop.steps, Dataloop.children, List.map_map]
    rfl
  | struct ms => rw [Dataloop.steps, Dataloop.children, members_steps]

mutual

def Dataloop.height : Dataloop → Nat
  | .leaf _ _ => 1
  | .node _ _ dl => dl.height + 1
  | .struct ms => ms.height + 1

def Members.height : Members → Nat
  | .nil => 0
  | .cons _ _ _ dl rest => max dl.height rest.height

end

theorem members_height {ms : Members} {ch : Child} (h : ch ∈ ms.list) : ch.dataloop.height ≤ ms.height := by
  match ms with
  | .nil => cases h
  | .cons blocksize offset elExtent dl rest =>
    rw [Members.height]
    rcases List.mem_cons.mp h with rfl | h
    · exact le_max_left _ _
    · exact le_trans (members_height h) (le_max_right _ _)

theorem height_pos (dl : Dataloop) : 0 < dl.height := by
  cases dl with
  | leaf p el => exact Nat.one_pos
  | node p el dl => exact Nat.succ_pos _
  | struct ms => exact Nat.succ_pos _

def Params.Consistent : Params → Prop
  | .contig _ => True
  | .vector count _ _ => 0 < count
  | .blockindexed count blocksize offsetArray =>
    0 < count ∧ 0 < blocksize ∧ offsetArray.length = count
  | .indexed count blocksizeArray offsetArray totalBlocks =>
    0 < count ∧ blocksizeArray.length = count ∧ offsetArray.length = count ∧
      (∀ b ∈ blocksizeArray, 0 < b) ∧ totalBlocks = blocksizeArray.sum

def Params.Full (p : Params) : Prop := ∀ B ∈ p.blocks, 0 < B.blocklength

mutual

def Dataloop.Shaped : Dataloop → Prop
  | .leaf p _ => p.Consistent
  | .node p _ dl => p.Consistent ∧ p.Full ∧ dl.Shaped
  | .struct ms => ms.list ≠ [] ∧ ms.Shaped

def Members.Shaped : Members → Prop
  | .nil => True
  | .cons blocksize _ _ dl rest => 0 < blocksize ∧ dl.Shaped ∧ rest.Shaped

end

mutual

def Dataloop.Filled : Dataloop → Prop
  | .leaf p el => p.Full ∧ 0 < el.size ∧ el.type.size = el.size
  | .node _ _ dl => dl.Filled
  | .struct ms => ms.Filled

def Members.Filled : Members → Prop
  | .nil => True
  | .cons _ _ _ dl rest => dl.Filled ∧ rest.Filled

end

mutual

/-- `el_size` is the size of `el_type`; there is no such type for a leaf without elements. -/
def Dataloop.Sized : Dataloop → Prop
  | .leaf p el => p.Full → el.type.size = el.size
  | .node _ _ dl => dl.Sized
  | .struct ms => ms.Sized

def Members.Sized : Members → Prop
  | .nil => True
  | .cons _ _ _ dl rest => dl.Sized ∧ rest.Sized

end

theorem members_shaped {ms : Members} (h : ms.Shaped) {ch : Child} (hch : ch ∈ ms.list) :
    0 < ch.blocksize ∧ ch.dataloop.Shaped := by
  match ms with
  | .nil => cases hch
  | .cons blocksize offset elExtent dl rest =>
    rw [Members.Shaped] at h
    rcases List.mem_cons.mp hch with rfl | hch
    · exact ⟨h.1, h.2.1⟩
    · exact members_shaped h.2.2 hch

theorem members_filled {ms : Members} (h : ms.Filled) {ch : Child} (hch : ch ∈ ms.list) :
    ch.dataloop.Filled := by
  match ms with
  | .nil => cases hch
  | .cons blocksize offset elExtent dl rest =>
    rw [Members.Filled] at h
    rcases List.mem_cons.mp hch with rfl | hch
    · exact h.1
    · exact members_filled h.2 hch

theorem members_sized {ms : Members} (h : ms.Sized) {ch : Child} (hch : ch ∈ ms.list) :
    ch.dataloop.Sized := by
  match ms with
  | .nil => cases hch
  | .cons blocksize offset elExtent dl rest =>
    rw [Members.Sized] at h
    rcases List.mem_cons.mp hch with rfl | hch
    · exact h.1
    · exact members_sized h.2 hch

theorem shaped_child (h : dl.Shaped) {ch : Child} (hch : ch ∈ dl.children) :
    0 < ch.blocksize ∧ ch.dataloop.Shaped := by
  cases dl with
  | leaf p el => cases hch
  | node p el dl =>
    obtain ⟨B, hB, rfl⟩ := List.mem_map.mp hch
    rw [Dataloop.Shaped] at h
    exact ⟨h.2.1 B hB, h.2.2⟩
  | struct ms =>
    rw [Dataloop.Shaped] at h
    exact members_shaped h.2 hch

theorem filled_child (h : dl.Filled) {ch : Child} (hch : ch ∈ dl.children) : ch.dataloop.Filled := by
  cases dl with
  | leaf p el => cases hch
  | node p el dl =>
    obtain ⟨B, _, rfl⟩ := List.mem_map.mp hch
    rw [Dataloop.Filled] at h
    exact h
  | struct ms =>
    rw [Dataloop.Filled] at h
    exact members_filled h hch

theorem sized_child (h : dl.Sized) {ch : Child} (hch : ch ∈ dl.children) : ch.dataloop.Sized := by
  cases dl with
  | leaf p el => cases hch
  | node p el dl =>
    obtain ⟨B, _, rfl⟩ := List.mem_map.mp hch
    rw [Dataloop.Sized] at h
    exact h
  | struct ms =>
    rw [Dataloop.Sized] at h
    exact members_sized h hch

theorem blocks_ne_nil {p : Params} (h : p.Consistent) : p.blocks ≠ [] := by
  cases p with
  | contig count => exact List.cons_ne_nil _ _
  | vector count blocksize stride =>
    have hcount : 0 < count := h
    simp only [Params.blocks, ne_eq, List.map_eq_nil_iff, List.range_eq_nil]
    omega
  | blockindexed count blocksize offsetArray =>
    obtain ⟨hcount, _, hlen⟩ := h
    have hne : offsetArray ≠ [] := List.ne_nil_of_length_pos (by omega)
    simpa only [Params.blocks, ne_eq, List.map_eq_nil_iff] using hne
  | indexed count blocksizeArray offsetArray totalBlocks =>
    obtain ⟨hcount, hsizes, hoffsets, _⟩ := h
    refine List.ne_nil_of_length_pos ?_
    simp only [Params.blocks, List.length_map, List.length_zip]
    omega

theorem children_ne_nil (h : dl.Shaped) (hleaf : dl.isLeaf = false) : dl.children ≠ [] := by
  cases dl with
  | leaf p el => cases hleaf
  | node p el dl =>
    rw [Dataloop.Shaped] at h
    simpa only [Dataloop.children, ne_eq, List.map_eq_nil_iff] using blocks_ne_nil h.1
  | struct ms =>
    rw [Dataloop.Shaped] at h
    exact h.1

end FgMpi.Traversal.Dataloops
