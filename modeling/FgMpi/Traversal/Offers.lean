import FgMpi.Traversal.Leaves
import Mathlib.Tactic.Ring

namespace FgMpi.Traversal.Offers
open Types.Constructors (Builtin Block)
open Traversal.Dataloops Traversal.Manipulate
open Traversal.Cursors Traversal.Turning Traversal.Leaves

def pieceBlocks (n : Nat) : Piece → List Block
  | .contig _ relOff => [⟨n, relOff⟩]
  | .vector count blklen stride _ relOff =>
    (List.range count.toNat).map fun i : Nat => ⟨blklen.toNat, relOff + i * stride⟩
  | .blkidx count blklen offsetarray _ relOff =>
    (offsetarray.take count.toNat).map fun o => ⟨blklen.toNat, relOff + o⟩
  | .index count blockarray offsetarray _ relOff =>
    ((blockarray.zip offsetarray).take count.toNat).map fun b => ⟨b.1, relOff + b.2⟩

def pieceElements (el : El) (n : Nat) (pc : Piece) : List Element :=
  ((pieceBlocks n pc).flatMap (blockElements el 0)).take n

section Choose
variable {σ : Type}

def Proper (fns : Pieces σ) (el : El) (n : Nat) : Piece → Prop
  | .contig elType _ => fns.contigfn = true ∧ elType = el.type
  | .vector count blklen _ elType _ =>
    fns.vectorfn = true ∧ elType = el.type ∧
      ∃ k v : Nat, count = k ∧ blklen = v ∧ 0 < k ∧ 0 < v ∧ n ≤ k * v
  | .blkidx count blklen offsetarray elType _ =>
    fns.blkidxfn = true ∧ elType = el.type ∧
      ∃ k v : Nat, count = k ∧ blklen = v ∧ 0 < k ∧ 0 < v ∧ n ≤ k * v ∧ offsetarray.length = k
  | .index count blockarray offsetarray elType _ =>
    fns.indexfn = true ∧ elType = el.type ∧
      ∃ k : Nat, count = k ∧ blockarray.length = k ∧ offsetarray.length = k ∧ 0 < k ∧
        (∀ v ∈ blockarray, 0 < v) ∧ n ≤ blockarray.sum

theorem blockElements_shift (el : El) (off : Int) (B : Block) :
    blockElements el off B = blockElements el 0 ⟨B.blocklength, off + B.disp⟩ := by
  simp [blockElements]

theorem flatMap_shift (el : El) (off : Int) (bs : List Block) :
    bs.flatMap (blockElements el off) =
      (bs.map fun B => (⟨B.blocklength, off + B.disp⟩ : Block)).flatMap (blockElements el 0) := by
  rw [List.flatMap_map]
  exact List.flatMap_congr fun B _ => blockElements_shift el off B

theorem blockElements_take (el : El) (off : Int) (B : Block) {b n : Nat} (hn : n ≤ B.blocklength - b) :
    blockElements el 0 ⟨n, off + B.disp + b * el.size⟩ =
      ((blockElements el off B).drop b).take n := by
  refine List.ext_getElem ?_ ?_
  · rw [List.length_take, List.length_drop, blockElements_length, blockElements_length]
    exact (min_eq_left hn).symm
  · intro i _ _
    simp only [blockElements, List.getElem_map, List.getElem_range, List.getElem_take,
      List.getElem_drop, Element.mk.injEq, and_true]
    push_cast
    ring

variable (beyond : Int → Int) {fns : Pieces σ} {exact : Prop} {p : Params} {el : El} {off : Int}
  {c b : Nat} {elm : Stackelm} {B : Block} {later : List Block}

structure Chosen (exact : Prop) (fns : Pieces σ) (p : Params) (el : El) (off : Int) (b : Nat)
    (B : Block) (later : List Block) (choice : Option Piece × Int) (n : Nat) : Prop where
  blocks : choice.2 = n
  fits : B.blocklength - b ≤ n ∧ n ≤ (leafSizes B later b).sum
  cut : b = 0 ∨ n = B.blocklength - b
  contig : ∀ elType relOff, choice.1 = some (.contig elType relOff) → n = B.blocklength - b
  absent : choice.1 = none → fns.contigfn = false
  proper : ∀ pc, choice.1 = some pc → ∀ k ≤ n, Proper fns el k pc
  elements : ∀ pc, choice.1 = some pc → exact → ∀ k ≤ n,
    pieceElements el k pc = (leafRest el off (B :: later) b).take k

theorem leafSizes_sum (B : Block) (later : List Block) (b : Nat) :
    (leafSizes B later b).sum = B.blocklength - b + (later.map (·.blocklength)).sum := rfl

theorem chosen_plain (h : LeafAt exact p el off c b elm B later) (hb : b < B.blocklength) :
    Chosen exact fns p el off b B later
      (if fns.contigfn then some (.contig el.type elm.curoffset) else none, elm.curblock)
      (B.blocklength - b) where
  blocks := by
    rw [h.curblock]
    omega
  fits := by
    rw [leafSizes_sum]
    omega
  cut := Or.inr rfl
  contig := fun _ _ _ => rfl
  absent := by
    intro hnone
    split at hnone
    · cases hnone
    · rename_i hfn
      exact Bool.eq_false_iff.mpr hfn
  proper := by
    intro pc hpc k _
    split at hpc
    · rename_i hfn
      obtain rfl := Option.some.inj hpc
      exact ⟨hfn, rfl⟩
    · cases hpc
  elements := by
    intro pc hpc hexact k hk
    split at hpc
    · obtain rfl := Option.some.inj hpc
      have hlen : ((blockElements el off B).drop b).length = B.blocklength - b := by
        rw [List.length_drop, blockElements_length]
      rw [pieceElements, pieceBlocks, List.flatMap_singleton, h.curoffset hexact,
        blockElements_take el off B hk, List.take_take, min_self, leafRest,
        List.take_append_of_le_length (by omega)]
    · cases hpc

theorem chosen_whole {pc : Piece} {blocks : Int} (hb : b = 0)
    (hblocks : blocks = ((leafSizes B later 0).sum : Nat))
    (hkind : ∀ elType relOff, pc ≠ .contig elType relOff)
    (hproper : ∀ k ≤ (leafSizes B later 0).sum, Proper fns el k pc)
    (helements : exact → ∀ k, pieceBlocks k pc =
      (B :: later).map fun B' => (⟨B'.blocklength, off + B'.disp⟩ : Block)) :
    Chosen exact fns p el off b B later (some pc, blocks) (leafSizes B later 0).sum where
  blocks := hblocks
  fits := by
    subst hb
    rw [leafSizes_sum]
    omega
  cut := Or.inl hb
  contig := fun elType relOff h => absurd (Option.some.inj h) (hkind elType relOff)
  absent := fun h => nomatch h
  proper := by
    intro pc' hpc k hk
    obtain rfl := Option.some.inj hpc
    exact hproper k hk
  elements := by
    intro pc' hpc hexact k _
    obtain rfl := Option.some.inj hpc
    subst hb
    rw [pieceElements, helements hexact, leafRest_zero, flatMap_shift el off]

theorem leafSizes_const {v : Nat} (hB : B.blocklength = v) (hlater : ∀ B' ∈ later, B'.blocklength = v) :
    (leafSizes B later 0).sum = (later.length + 1) * v := by
  have hall : ∀ n ∈ leafSizes B later 0, n = v := by
    intro n hn
    rw [leafSizes] at hn
    rcases List.mem_cons.mp hn with rfl | hn
    · exact hB
    · obtain ⟨B', hB', rfl⟩ := List.mem_map.mp hn
      exact hlater B' hB'
  rw [List.eq_replicate_of_mem hall, List.sum_replicate, leafSizes, List.length_cons, List.length_map]
  rfl

theorem later_const (h : p.blocks.drop c = B :: later) {v : Nat} (hp : paramsBlocksize? p = some v) :
    B.blocklength = v ∧ ∀ B' ∈ later, B'.blocklength = v := by
  have hmem : ∀ B' ∈ B :: later, B'.blocklength = v := by
    intro B' hB'
    rw [← h] at hB'
    exact blocksize_of_block hp (List.mem_of_mem_drop hB')
  exact ⟨hmem B List.mem_cons_self, fun B' hB' => hmem B' (List.mem_cons_of_mem _ hB')⟩

variable {count : Nat}

theorem chosen_vector {blocksize : Nat} {stride : Int}
    (hp : (Params.vector count blocksize stride).Consistent)
    (h : LeafAt exact (.vector count blocksize stride) el off c b elm B later)
    (hfixed : Fixed (.leaf (.vector count blocksize stride) el) elm) (hb : b < B.blocklength)
    (hfn : fns.vectorfn = true) (hblock : elm.origBlock = elm.curblock) :
    Chosen exact fns (.vector count blocksize stride) el off b B later
      (some (.vector elm.curcount elm.origBlock stride el.type elm.curoffset),
        elm.curblock * elm.curcount) (leafSizes B later 0).sum := by
  obtain ⟨hB, hlater⟩ := later_const h.blocks rfl
  have hlen := length_of_drop h.blocks
  have horig : elm.origBlock = blocksize := hfixed.origBlock _ rfl
  have hb0 : b = 0 := by
    have hcur := h.curblock
    omega
  have hcount : elm.curcount = ((later.length + 1 : Nat) : Int) := by
    rw [h.curcount, ← blocks_length hp, hlen]
    push_cast
    omega
  have hsum := leafSizes_const hB hlater
  refine chosen_whole hb0 ?_ (fun _ _ h => nomatch h) ?_ ?_
  · rw [← hblock, horig, hcount, hsum, Nat.mul_comm]
    push_cast
    rfl
  · intro k hk
    exact ⟨hfn, rfl, later.length + 1, blocksize, hcount, horig, Nat.succ_pos _, by omega,
      by rw [← hsum]; exact hk⟩
  · intro hexact k
    have hoffset : elm.curoffset = off + c * stride := by
      rw [h.curoffset hexact, hb0, vector_block (getElem?_of_drop h.blocks)]
      simp
    rw [pieceBlocks, hcount, horig, ← h.blocks, hoffset]
    refine List.ext_getElem ?_ ?_
    · simp only [Int.toNat_natCast, List.length_map, List.length_range, List.length_drop, hlen]
      omega
    · intro i _ _
      simp only [Params.blocks, List.getElem_map, List.getElem_range, List.getElem_drop,
        Int.toNat_natCast, Block.mk.injEq, true_and]
      push_cast
      ring

variable {offsetArray : List Int}

theorem chosen_blkidx {blocksize : Nat} (hp : (Params.blockindexed count blocksize offsetArray).Consistent)
    (h : LeafAt exact (.blockindexed count blocksize offsetArray) el off c b elm B later)
    (hfixed : Fixed (.leaf (.blockindexed count blocksize offsetArray) el) elm)
    (hfn : fns.blkidxfn = true) (hblock : elm.origBlock = elm.curblock)
    (hcount : elm.origCount = elm.curcount) :
    Chosen exact fns (.blockindexed count blocksize offsetArray) el off b B later
      (some (.blkidx elm.curcount elm.origBlock offsetArray el.type elm.origOffset),
        elm.curblock * elm.curcount) (leafSizes B later 0).sum := by
  obtain ⟨hB, hlater⟩ := later_const h.blocks rfl
  have hlen := length_of_drop h.blocks
  have horig : elm.origBlock = blocksize := hfixed.origBlock _ rfl
  have horigCount : elm.origCount = count := hfixed.origCount
  have hb0 : b = 0 := by
    have hcur := h.curblock
    omega
  have hc0 : c = 0 := by
    have hcur := h.curcount
    have hall : (paramsOrigCount (.blockindexed count blocksize offsetArray) : Int) = count := rfl
    omega
  subst hb0 hc0
  have hlength : count = later.length + 1 := by
    have hblocks := blocks_length hp
    rw [hlen] at hblocks
    have hall : paramsOrigCount (.blockindexed count blocksize offsetArray) = count := rfl
    omega
  have hsum := leafSizes_const hB hlater
  refine chosen_whole rfl ?_ (fun _ _ h => nomatch h) ?_ ?_
  · rw [← hblock, ← hcount, horig, horigCount, hsum, hlength, Nat.mul_comm]
    push_cast
    rfl
  · intro k hk
    exact ⟨hfn, rfl, count, blocksize, by rw [← hcount, horigCount], horig, hp.1, hp.2.1,
      by rw [hlength, ← hsum]; exact hk, hp.2.2⟩
  · intro hexact k
    have htake : offsetArray.take count = offsetArray := List.take_of_length_le (le_of_eq hp.2.2)
    rw [pieceBlocks, ← hcount, horigCount, horig, ← h.blocks, h.origOffset hexact, List.drop_zero,
      Params.blocks, List.map_map, Int.toNat_natCast, Int.toNat_natCast, htake]
    rfl

theorem sum_indexed {blocksizeArray : List Nat} {totalBlocks : Nat}
    (hp : (Params.indexed count blocksizeArray offsetArray totalBlocks).Consistent) :
    ((Params.indexed count blocksizeArray offsetArray totalBlocks).blocks.map
      (·.blocklength)).sum = totalBlocks := by
  obtain ⟨_, hsizes, hoffsets, _, htotal⟩ := hp
  rw [htotal, Params.blocks, List.map_map]
  have hmap : (blocksizeArray.zip offsetArray).map Prod.fst = blocksizeArray :=
    List.map_fst_zip (by omega)
  exact congrArg List.sum hmap

theorem chosen_index {blocksizeArray : List Nat} {totalBlocks : Nat}
    (hp : (Params.indexed count blocksizeArray offsetArray totalBlocks).Consistent)
    (h : LeafAt exact (.indexed count blocksizeArray offsetArray totalBlocks) el off c b elm B later)
    (hfixed : Fixed (.leaf (.indexed count blocksizeArray offsetArray totalBlocks) el) elm)
    (hfn : fns.indexfn = true) (hcount : elm.origCount = elm.curcount)
    (hblock : elm.curblock = readBlocksizes beyond blocksizeArray 0) (hb : b < B.blocklength) :
    Chosen exact fns (.indexed count blocksizeArray offsetArray totalBlocks) el off b B later
      (some (.index elm.curcount blocksizeArray offsetArray el.type elm.origOffset), totalBlocks)
      (leafSizes B later 0).sum := by
  have horigCount : elm.origCount = count := hfixed.origCount
  have hc0 : c = 0 := by
    have hcur := h.curcount
    have hall : (paramsOrigCount (.indexed count blocksizeArray offsetArray totalBlocks) : Int) =
        count := rfl
    omega
  subst hc0
  have hzero := indexed_block (getElem?_of_drop h.blocks)
  have hb0 : b = 0 := by
    have hcur := h.curblock
    rw [hblock] at hcur
    have hread : readBlocksizes beyond blocksizeArray 0 = B.blocklength :=
      readBlocksizes_nat beyond (c := 0) hzero.1
    omega
  subst hb0
  have hall : (leafSizes B later 0).sum = totalBlocks := by
    have hblocks := h.blocks
    rw [List.drop_zero] at hblocks
    rw [← sum_indexed hp, hblocks]
    rfl
  obtain ⟨hpos, hsizes, hoffsets, hfull, htotal⟩ := hp
  refine chosen_whole rfl ?_ (fun _ _ h => nomatch h) ?_ ?_
  · rw [hall]
  · intro k hk
    exact ⟨hfn, rfl, count, by rw [← hcount, horigCount], hsizes, hoffsets, hpos, hfull,
      by rw [← htotal, ← hall]; exact hk⟩
  · intro hexact k
    have htake : (blocksizeArray.zip offsetArray).take count = blocksizeArray.zip offsetArray := by
      refine List.take_of_length_le ?_
      rw [List.length_zip, hsizes, hoffsets, min_self]
    rw [pieceBlocks, ← hcount, horigCount, ← h.blocks, h.origOffset hexact, List.drop_zero,
      Params.blocks, List.map_map, Int.toNat_natCast, htake]
    rfl

theorem choose_spec (fns : Pieces σ) (hp : p.Consistent) (h : LeafAt exact p el off c b elm B later)
    (hfixed : Fixed (.leaf p el) elm) (hb : b < B.blocklength) :
    ∃ n, Chosen exact fns p el off b B later (choose beyond fns p el elm) n := by
  cases p with
  | contig count => exact ⟨_, chosen_plain h hb⟩
  | vector count blocksize stride =>
    unfold choose
    dsimp only
    split
    · rename_i hwhole
      exact ⟨_, chosen_vector hp h hfixed hb hwhole.1 hwhole.2⟩
    · exact ⟨_, chosen_plain h hb⟩
  | blockindexed count blocksize offsetArray =>
    unfold choose
    dsimp only
    split
    · rename_i hwhole
      exact ⟨_, chosen_blkidx hp h hfixed hwhole.1 hwhole.2.1 hwhole.2.2⟩
    · exact ⟨_, chosen_plain h hb⟩
  | indexed count blocksizeArray offsetArray totalBlocks =>
    unfold choose
    dsimp only
    split
    · rename_i hwhole
      exact ⟨_, chosen_index beyond hp h hfixed hwhole.1 hwhole.2.1 hwhole.2.2 hb⟩
    · exact ⟨_, chosen_plain h hb⟩

end Choose

end FgMpi.Traversal.Offers
