import FgMpi.Machine.Regions
import FgMpi.Traversal.Calls

namespace FgMpi.Traversal.Filling
open Types.Constructors (Block)
open Machine.Regions Traversal.Dataloops Traversal.Leaves
open Traversal.Manipulate Traversal.Offers

def elementRegion (ptr : Int) (e : Element) : Region := ⟨ptr + e.disp, e.el.size⟩

def elementBytes (ptr : Int) (es : List Element) : List Int := bytes (es.map (elementRegion ptr))

@[simp] theorem elementBytes_nil (ptr : Int) : elementBytes ptr [] = [] := rfl

theorem elementBytes_append (ptr : Int) (es es' : List Element) :
    elementBytes ptr (es ++ es') = elementBytes ptr es ++ elementBytes ptr es' := by
  rw [elementBytes, List.map_append, bytes_append]
  rfl

theorem elementBytes_length (ptr : Int) (es : List Element) :
    (elementBytes ptr es).length = (es.map fun e => e.el.size).sum := by
  induction es with
  | nil => rfl
  | cons e es ih =>
    rw [elementBytes, List.map_cons, bytes_cons, List.length_append, bytes_length_region,
      List.map_cons, List.sum_cons, ← ih]
    rfl

theorem block_bytes (ptr : Int) (el : El) (n : Nat) (disp : Int) :
    elementBytes ptr (blockElements el 0 ⟨n, disp⟩) =
      (⟨ptr + disp, n * el.size⟩ : Region).bytes := by
  induction n with
  | zero => simp [blockElements, Region.bytes]
  | succ n ih =>
    have hsucc : blockElements el 0 ⟨n + 1, disp⟩ =
        blockElements el 0 ⟨n, disp⟩ ++ [⟨disp + n * el.size, el⟩] := by
      simp [blockElements, List.range_succ]
    have hlen : ((n + 1 : Nat) : Int) * el.size = n * el.size + el.size := by
      push_cast
      ring
    rw [hsucc, elementBytes_append, ih, hlen,
      region_bytes_append (by positivity) (by positivity)]
    simp [elementBytes, elementRegion, bytes, Int.add_assoc]

theorem blockElements_take_zero (el : El) (n k : Nat) (disp : Int) (hk : k ≤ n) :
    (blockElements el 0 ⟨n, disp⟩).take k = blockElements el 0 ⟨k, disp⟩ := by
  have h := blockElements_take el 0 ⟨n, disp⟩ (show k ≤ (⟨n, disp⟩ : Block).blocklength - 0 from hk)
  rw [List.drop_zero] at h
  rw [← h]
  simp

theorem strided_succ (n v : Nat) (relOff stride : Int) :
    ((List.range (n + 1)).map fun i : Nat => (⟨v, relOff + i * stride⟩ : Block)) =
      ⟨v, relOff⟩ :: (List.range n).map fun i : Nat => ⟨v, relOff + stride + i * stride⟩ := by
  rw [List.range_succ_eq_map, List.map_cons, List.map_map]
  congr 1
  · simp
  · refine List.map_congr_left ?_
    intro i _
    simp only [Function.comp_apply, Block.mk.injEq, true_and]
    push_cast
    ring

def fillBlocks (limit : Int) (size : Nat) (ptr : Int) : List Block → Nat → List Region → Nat × List Region
  | [], left, rs => (left, rs)
  | B :: more, left, rs =>
    if left = 0 then (0, rs)
    else if rs.length = limit ∧ ¬Adjoins rs (ptr + B.disp) then (left, rs)
    else
      fillBlocks limit size ptr more (left - B.blocklength)
        (place rs (ptr + B.disp) ((min left B.blocklength : Nat) * size))

def placeBlocks (size : Nat) (ptr : Int) : List Block → Nat → List Region → List Region
  | [], _, rs => rs
  | B :: more, left, rs =>
    if left = 0 then rs
    else
      placeBlocks size ptr more (left - B.blocklength)
        (place rs (ptr + B.disp) ((min left B.blocklength : Nat) * size))

theorem placeBlocks_zero (size : Nat) (ptr : Int) (blocks : List Block) (rs : List Region) :
    placeBlocks size ptr blocks 0 rs = rs := by
  cases blocks with
  | nil => rfl
  | cons B more => exact if_pos rfl

theorem placeBlocks_length (size : Nat) (ptr : Int) (blocks : List Block) (left : Nat)
    (rs : List Region) : rs.length ≤ (placeBlocks size ptr blocks left rs).length := by
  induction blocks generalizing left rs with
  | nil => exact le_refl _
  | cons B more ih =>
    rw [placeBlocks]
    split
    · exact le_refl _
    · refine le_trans ?_ (ih _ _)
      rw [length_place]
      split <;> omega

theorem fillBlocks_all {limit : Int} (size : Nat) (ptr : Int) {blocks : List Block} {left : Nat}
    {rs : List Region} (hrs : (rs.length : Int) ≤ limit) (hleft : left ≤ (blocks.map (·.blocklength)).sum) :
    (((placeBlocks size ptr blocks left rs).length : Int) ≤ limit ∧
        fillBlocks limit size ptr blocks left rs = (0, placeBlocks size ptr blocks left rs)) ∨
      (limit < (placeBlocks size ptr blocks left rs).length ∧
        0 < (fillBlocks limit size ptr blocks left rs).1) := by
  induction blocks generalizing left rs with
  | nil =>
    rw [List.map_nil, List.sum_nil, Nat.le_zero] at hleft
    subst hleft
    exact Or.inl ⟨hrs, rfl⟩
  | cons B more ih =>
    rw [fillBlocks, placeBlocks]
    by_cases hzero : left = 0
    · rw [if_pos hzero, if_pos hzero]
      exact Or.inl ⟨hrs, rfl⟩
    rw [if_neg hzero, if_neg hzero]
    by_cases hfull : rs.length = limit ∧ ¬Adjoins rs (ptr + B.disp)
    · rw [if_pos hfull]
      refine Or.inr ⟨?_, Nat.pos_of_ne_zero hzero⟩
      have hmore := placeBlocks_length size ptr more (left - B.blocklength)
        (place rs (ptr + B.disp) ((min left B.blocklength : Nat) * size))
      rw [length_place, if_neg hfull.2] at hmore
      omega
    · rw [if_neg hfull]
      refine ih ?_ ?_
      · rw [length_place]
        by_cases hadj : Adjoins rs (ptr + B.disp)
        · rw [if_pos hadj]
          exact hrs
        · rw [if_neg hadj]
          have hroom : (rs.length : Int) ≠ limit := fun h => hfull ⟨h, hadj⟩
          push_cast
          omega
      · rw [List.map_cons, List.sum_cons] at hleft
        omega

structure Filled (limit : Int) (el : El) (ptr : Int) (blocks : List Block) (left : Nat)
    (rs : List Region) (result : Nat × List Region) : Prop where
  le : result.1 ≤ left
  bytes : bytes result.2 = bytes rs ++ elementBytes ptr
    ((blocks.flatMap (blockElements el 0)).take (left - result.1))
  nonneg : Nonneg result.2
  positive : 0 < el.size → Positive rs → Positive result.2
  apart : Apart rs → Apart result.2
  length : (rs.length : Int) ≤ limit → (result.2.length : Int) ≤ limit
  progress : 0 < left → (rs.length : Int) < limit → result.1 < left
  full : 0 < result.1 → (result.2.length : Int) = limit ∧
    ∃ e, (blocks.flatMap (blockElements el 0))[left - result.1]? = some e ∧ ¬Adjoins result.2 (ptr + e.disp)

theorem blockElements_head (el : El) {B : Block} (hB : 0 < B.blocklength) :
    (blockElements el 0 B)[0]? = some ⟨B.disp, el⟩ := by
  simp [blockElements, List.getElem?_range hB]

theorem fillBlocks_spec (limit : Int) (ptr : Int) (el : El) {blocks : List Block}
    (hpos : ∀ B ∈ blocks, 0 < B.blocklength) {left : Nat} {rs : List Region} (hrs : Nonneg rs)
    (hleft : left ≤ (blocks.map (·.blocklength)).sum) :
    Filled limit el ptr blocks left rs (fillBlocks limit el.size ptr blocks left rs) := by
  induction blocks generalizing left rs with
  | nil =>
    rw [List.map_nil, List.sum_nil, Nat.le_zero] at hleft
    subst hleft
    exact ⟨le_refl 0, by simp [fillBlocks], hrs, fun _ h => h, fun h => h, fun h => h,
      fun h => absurd h (Nat.lt_irrefl 0), fun h => absurd h (Nat.lt_irrefl 0)⟩
  | cons B more ih =>
    rw [fillBlocks]
    by_cases hzero : left = 0
    · subst hzero
      rw [if_pos rfl]
      exact ⟨le_refl 0, by simp, hrs, fun _ h => h, fun h => h, fun h => h,
        fun h => absurd h (Nat.lt_irrefl 0), fun h => absurd h (Nat.lt_irrefl 0)⟩
    rw [if_neg hzero]
    have hB := hpos B List.mem_cons_self
    have hBlen := blockElements_length el 0 B
    by_cases hfull : rs.length = limit ∧ ¬Adjoins rs (ptr + B.disp)
    · rw [if_pos hfull]
      refine ⟨le_refl left, by simp, hrs, fun _ h => h, fun h => h, fun h => h, fun _ hlt => by omega,
        fun _ => ⟨hfull.1, ⟨B.disp, el⟩, ?_, hfull.2⟩⟩
      rw [List.flatMap_cons, Nat.sub_self, List.getElem?_append_left (by omega), blockElements_head el hB]
    rw [if_neg hfull]
    have hmin : 0 < min left B.blocklength := by omega
    have hsize : (0 : Int) ≤ (min left B.blocklength : Nat) * el.size := by positivity
    have hplaced := nonneg_place hrs (ptr + B.disp) hsize
    have hlength : ((place rs (ptr + B.disp) ((min left B.blocklength : Nat) * el.size)).length :
        Int) ≤ limit ∨ limit < rs.length := by
      rw [length_place]
      by_cases hadj : Adjoins rs (ptr + B.disp)
      · rw [if_pos hadj]
        omega
      · rw [if_neg hadj]
        have hroom : (rs.length : Int) ≠ limit := fun h => hfull ⟨h, hadj⟩
        push_cast
        omega
    obtain ⟨hle, hbytes, hnonneg, hpositive, hapart, hlen, hprogress, hnext⟩ := ih
      (fun B' hB' => hpos B' (List.mem_cons_of_mem _ hB')) hplaced
      (show left - B.blocklength ≤ _ by rw [List.map_cons, List.sum_cons] at hleft; omega)
    refine ⟨by omega, ?_, hnonneg, ?_, fun h => hapart (apart_place h _ _), ?_, ?_, ?_⟩
    · rw [hbytes, bytes_place hrs _ hsize, List.append_assoc, List.flatMap_cons]
      congr 1
      by_cases hcut : left ≤ B.blocklength
      · -- the last block that there is something for
        have hnone : left - B.blocklength = 0 := by omega
        rw [hnone] at hle
        have hall : (fillBlocks limit el.size ptr more (left - B.blocklength)
            (place rs (ptr + B.disp) ((min left B.blocklength : Nat) * el.size))).1 = 0 := by
          rw [hnone]
          exact Nat.le_zero.mp hle
        rw [hall, hnone, Nat.sub_zero, Nat.sub_zero, List.take_zero, elementBytes_nil,
          List.append_nil, List.take_append_of_le_length (by omega), min_eq_left hcut,
          blockElements_take_zero el B.blocklength left B.disp hcut, block_bytes]
      · have hsplit : left - (fillBlocks limit el.size ptr more (left - B.blocklength)
            (place rs (ptr + B.disp) ((min left B.blocklength : Nat) * el.size))).1 =
            (blockElements el 0 B).length + (left - B.blocklength -
              (fillBlocks limit el.size ptr more (left - B.blocklength)
                (place rs (ptr + B.disp) ((min left B.blocklength : Nat) * el.size))).1) := by
          omega
        rw [hsplit, List.take_length_add_append, elementBytes_append,
          min_eq_right (by omega), block_bytes ptr el B.blocklength B.disp]
    · intro hel hrs'
      refine hpositive hel (positive_place hrs' _ ?_)
      exact_mod_cast Nat.mul_pos hmin hel
    · intro hle'
      exact hlen (hlength.resolve_right (by omega))
    · intro _ _
      omega
    · intro hmore
      obtain ⟨hlimit, e, he, hapart'⟩ := hnext hmore
      refine ⟨hlimit, e, ?_, hapart'⟩
      rw [List.flatMap_cons, List.getElem?_append_right (by omega), hBlen, ← he]
      congr 1
      omega

section Pieces
variable {σ : Type} {fns : Pieces σ} {el : El} {n : Nat} {pc : Piece}

theorem pieceBlocks_pos (h : Proper fns el n pc) (hn : 0 < n) :
    ∀ B ∈ pieceBlocks n pc, 0 < B.blocklength := by
  intro B hB
  cases pc with
  | contig elType relOff =>
    rw [pieceBlocks, List.mem_singleton] at hB
    rw [hB]
    exact hn
  | vector count blklen stride elType relOff =>
    obtain ⟨_, _, k, v, _, rfl, _, hv, _⟩ := h
    obtain ⟨i, _, rfl⟩ := List.mem_map.mp hB
    exact hv
  | blkidx count blklen offsetarray elType relOff =>
    obtain ⟨_, _, k, v, _, rfl, _, hv, _⟩ := h
    obtain ⟨o, _, rfl⟩ := List.mem_map.mp hB
    exact hv
  | index count blockarray offsetarray elType relOff =>
    obtain ⟨_, _, k, _, _, _, _, hpos, _⟩ := h
    obtain ⟨b, hb, rfl⟩ := List.mem_map.mp hB
    exact hpos b.1 (List.of_mem_zip (List.mem_of_mem_take hb)).1

theorem pieceBlocks_sum (h : Proper fns el n pc) : n ≤ ((pieceBlocks n pc).map (·.blocklength)).sum := by
  cases pc with
  | contig elType relOff => exact le_of_eq (by simp [pieceBlocks])
  | vector count blklen stride elType relOff =>
    obtain ⟨_, _, k, v, rfl, rfl, _, _, hle⟩ := h
    simpa [pieceBlocks, Function.comp_def] using hle
  | blkidx count blklen offsetarray elType relOff =>
    obtain ⟨_, _, k, v, rfl, rfl, _, _, hle, hlen⟩ := h
    simpa [pieceBlocks, Function.comp_def, hlen] using hle
  | index count blockarray offsetarray elType relOff =>
    obtain ⟨_, _, k, rfl, hblocks, hoffsets, _, _, hle⟩ := h
    have htake : (blockarray.zip offsetarray).take k = blockarray.zip offsetarray := by
      refine List.take_of_length_le ?_
      rw [List.length_zip, hblocks, hoffsets, min_self]
    have hmap : (blockarray.zip offsetarray).map Prod.fst = blockarray :=
      List.map_fst_zip (by omega)
    rw [pieceBlocks, Int.toNat_natCast, htake, List.map_map]
    exact le_trans hle (le_of_eq (congrArg List.sum hmap.symm))

theorem pieceElements_take {k : Nat} (hk : k ≤ n) :
    pieceElements el k pc = ((pieceBlocks n pc).flatMap (blockElements el 0)).take k := by
  cases pc with
  | contig elType relOff =>
    rw [pieceElements, pieceBlocks, pieceBlocks, List.flatMap_singleton, List.flatMap_singleton,
      blockElements_take_zero el n k relOff hk]
    exact List.take_of_length_le (by rw [blockElements_length])
  | vector count blklen stride elType relOff => rfl
  | blkidx count blklen offsetarray elType relOff => rfl
  | index count blockarray offsetarray elType relOff => rfl

end Pieces

end FgMpi.Traversal.Filling
