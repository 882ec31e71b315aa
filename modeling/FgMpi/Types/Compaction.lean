import FgMpi.Types.Contig
import Mathlib.Data.List.Chain

/-! `DLOOP_Type_indexed_count_contig` and `DLOOP_Type_indexed_array_copy`. -/

namespace FgMpi.Types.Compaction
open Types.Typemap Types.Constructors Types.Bounds Types.Contig

def typeIndexedCountContig (blocks : List Block) (dispinbytes : Bool) (oldExtent : Int) : Nat :=
  if blocks = [] then 1
  else
    match blocks.dropWhile (·.blocklength = 0) with
    | [] => 0
    | first :: rest =>
      indexedCountContigLoop dispinbytes oldExtent first.disp first.blocklength 1 rest

/-- The loop of `DLOOP_Type_indexed_array_copy`, after the first block that is not empty: `out` are the
entries below `cur_idx`, `cur` is the one there.  No result if an assertion fails. -/
def arrayCopyLoop (contigCount : Nat) (dispinbytes : Bool) (oldExtent : Int) :
    List Block → List Block → Block → Option (List Block)
  | [], out, cur => if (out.length : Int) = contigCount - 1 then some (out ++ [cur]) else none
  | next :: rest, out, cur =>
    if next.blocklength = 0 then arrayCopyLoop contigCount dispinbytes oldExtent rest out cur
    else if cur.disp + cur.blocklength * oldExtent = effDisp dispinbytes oldExtent next.disp then
      arrayCopyLoop contigCount dispinbytes oldExtent rest out
        { cur with blocklength := cur.blocklength + next.blocklength }
    else if out.length + 1 < contigCount then
      arrayCopyLoop contigCount dispinbytes oldExtent rest (out ++ [cur])
        ⟨next.blocklength, effDisp dispinbytes oldExtent next.disp⟩
    else none

/-- `DLOOP_Type_indexed_array_copy`; the displacements of its result are in bytes. -/
def typeIndexedArrayCopy (contigCount : Nat) (blocks : List Block) (dispinbytes : Bool)
    (oldExtent : Int) : Option (List Block) :=
  match blocks.dropWhile (·.blocklength = 0) with
  | [] => none
  | first :: rest =>
    arrayCopyLoop contigCount dispinbytes oldExtent rest []
      ⟨first.blocklength, effDisp dispinbytes oldExtent first.disp⟩

theorem blockOffset_empty (dispinbytes : Bool) (e : Int) {b : Block} (hb : b.blocklength = 0) :
    blockOffset dispinbytes e b = [] := by
  rw [blockOffset, hb]
  rfl

theorem blockOffset_merge {e cur d : Int} {blklen : Nat} (n : Nat) (h : cur + blklen * e = d) :
    blockOffset true e ⟨blklen + n, cur⟩ =
      blockOffset true e ⟨blklen, cur⟩ ++ blockOffset true e ⟨n, d⟩ := by
  subst h
  simp only [blockOffset, effDisp, if_true, steps_add, List.map_append, List.map_map]
  congr 1
  refine List.map_congr_left ?_
  intro x _
  simp only [Function.comp_apply]
  omega

theorem blockOffset_bytes (dispinbytes : Bool) (e : Int) (b : Block) :
    blockOffset true e ⟨b.blocklength, effDisp dispinbytes e b.disp⟩ = blockOffset dispinbytes e b := rfl

theorem adjacent_iff {dispinbytes : Bool} {e : Int} (h : dispinbytes = true ∨ e ≠ 0)
    (cur d : Int) (blklen : Nat) :
    effDisp dispinbytes e cur + blklen * e = effDisp dispinbytes e d ↔
      if dispinbytes then cur + blklen * e = d else cur + blklen = d := by
  cases dispinbytes with
  | true => rfl
  | false =>
    have he : e ≠ 0 := h.resolve_left Bool.false_ne_true
    simp only [effDisp, Bool.false_eq_true, if_false]
    rw [← Int.add_mul]
    exact Int.mul_eq_mul_right_iff he

theorem arrayCopyLoop_spec {dispinbytes : Bool} {e : Int} (h : dispinbytes = true ∨ e ≠ 0)
    (rest out : List Block) (cur : Int) (blklen : Nat) :
    let total := indexedCountContigLoop dispinbytes e cur blklen (out.length + 1) rest
    ∃ merged, arrayCopyLoop total dispinbytes e rest out
        ⟨blklen, effDisp dispinbytes e cur⟩ = some merged ∧ merged.length = total ∧
      blockOffsets merged true e = blockOffsets out true e ++
        (blockOffset true e ⟨blklen, effDisp dispinbytes e cur⟩ ++
          blockOffsets rest dispinbytes e) := by
  induction rest generalizing out cur blklen with
  | nil =>
    refine ⟨out ++ [⟨blklen, effDisp dispinbytes e cur⟩], ?_, ?_, ?_⟩
    · rw [arrayCopyLoop, if_pos]
      simp [indexedCountContigLoop]
    · simp [indexedCountContigLoop]
    · simp [blockOffsets]
  | cons next rest ih =>
    have hsplit : blockOffsets (next :: rest) dispinbytes e =
        blockOffset dispinbytes e next ++ blockOffsets rest dispinbytes e := List.flatMap_cons
    intro total
    by_cases hzero : next.blocklength = 0
    · have htotal : total =
          indexedCountContigLoop dispinbytes e cur blklen (out.length + 1) rest := by
        change indexedCountContigLoop dispinbytes e cur blklen _ (next :: rest) = _
        rw [indexedCountContigLoop, if_pos hzero]
      obtain ⟨merged, hcopy, hlen, hoffsets⟩ := ih out cur blklen
      refine ⟨merged, ?_, ?_, ?_⟩
      · rw [arrayCopyLoop, if_pos hzero, htotal]
        exact hcopy
      · rw [htotal]
        exact hlen
      · rw [hoffsets, hsplit, blockOffset_empty dispinbytes e hzero, List.nil_append]
    by_cases hadj : effDisp dispinbytes e cur + blklen * e = effDisp dispinbytes e next.disp
    · -- the block is added to the current one
      have htotal : total = indexedCountContigLoop dispinbytes e cur (blklen + next.blocklength)
          (out.length + 1) rest := by
        change indexedCountContigLoop dispinbytes e cur blklen _ (next :: rest) = _
        rw [indexedCountContigLoop, if_neg hzero, if_pos ((adjacent_iff h cur next.disp blklen).mp hadj)]
      obtain ⟨merged, hcopy, hlen, hoffsets⟩ := ih out cur (blklen + next.blocklength)
      refine ⟨merged, ?_, ?_, ?_⟩
      · rw [arrayCopyLoop, if_neg hzero, if_pos hadj, htotal]
        exact hcopy
      · rw [htotal]
        exact hlen
      · rw [hoffsets, hsplit, ← blockOffset_bytes dispinbytes e next,
          ← List.append_assoc (blockOffset true e _), blockOffset_merge next.blocklength hadj]
    · -- the block gets an entry of its own
      have htotal : total = indexedCountContigLoop dispinbytes e next.disp next.blocklength
          (out.length + 1 + 1) rest := by
        change indexedCountContigLoop dispinbytes e cur blklen _ (next :: rest) = _
        rw [indexedCountContigLoop, if_neg hzero,
          if_neg fun hsame => hadj ((adjacent_iff h cur next.disp blklen).mpr hsame)]
      have hroom : out.length + 1 < total := by
        rw [htotal]
        exact le_indexedCountContigLoop dispinbytes e rest next.disp next.blocklength (out.length + 1 + 1)
      obtain ⟨merged, hcopy, hlen, hoffsets⟩ :=
        ih (out ++ [⟨blklen, effDisp dispinbytes e cur⟩]) next.disp next.blocklength
      rw [List.length_append, List.length_singleton, ← htotal] at hcopy hlen
      refine ⟨merged, ?_, hlen, ?_⟩
      · rw [arrayCopyLoop, if_neg hzero, if_neg hadj, if_pos hroom]
        exact hcopy
      · rw [hoffsets, hsplit, blockOffset_bytes dispinbytes e next]
        simp [blockOffsets]

def Behind (b b' : Block) : Prop := b.disp + b.blocklength = b'.disp

def Consecutive (blocks : List Block) : Prop := (blocks.filter (·.blocklength ≠ 0)).IsChain Behind

def Follow : Int → List Block → Prop
  | _, [] => True
  | stop, b :: rest =>
    if b.blocklength = 0 then Follow stop rest
    else stop = b.disp ∧ Follow (b.disp + b.blocklength) rest

theorem follow_iff (first : Block) (rest : List Block) :
    (first :: rest.filter (·.blocklength ≠ 0)).IsChain Behind ↔
      Follow (first.disp + first.blocklength) rest := by
  induction rest generalizing first with
  | nil => exact iff_of_true (List.IsChain.singleton _) trivial
  | cons next rest ih =>
    rw [Follow]
    by_cases hzero : next.blocklength = 0
    · rw [if_pos hzero, List.filter_cons_of_neg (by simpa using hzero)]
      exact ih first
    · rw [if_neg hzero, List.filter_cons_of_pos (by simpa using hzero), List.isChain_cons_cons,
        ih next, Behind]

theorem countContigLoop_elements (e : Int) (rest : List Block) (cur : Int) (blklen n : Nat) :
    indexedCountContigLoop false e cur blklen n rest = n ↔ Follow (cur + blklen) rest := by
  induction rest generalizing cur blklen with
  | nil => exact iff_of_true rfl trivial
  | cons next rest ih =>
    rw [indexedCountContigLoop, Follow]
    by_cases hzero : next.blocklength = 0
    · rw [if_pos hzero, if_pos hzero]
      exact ih cur blklen
    rw [if_neg hzero, if_neg hzero]
    simp only [Bool.false_eq_true, if_false]
    by_cases hadj : cur + blklen = next.disp
    · rw [if_pos hadj, ih, ← hadj]
      push_cast
      rw [← Int.add_assoc]
      exact (and_iff_right rfl).symm
    · rw [if_neg hadj]
      refine iff_of_false ?_ fun h => hadj h.1
      intro hsame
      have hmore := le_indexedCountContigLoop false e rest next.disp next.blocklength (n + 1)
      omega

theorem arrayCopyLoop_zero (contigCount : Nat) (rest : List Block) (blklen : Nat) :
    arrayCopyLoop contigCount false 0 rest [] ⟨blklen, 0⟩ =
      if contigCount = 1 then some [⟨blklen + (rest.map (·.blocklength)).sum, 0⟩] else none := by
  induction rest generalizing blklen with
  | nil =>
    rw [arrayCopyLoop]
    by_cases hone : contigCount = 1
    · rw [if_pos hone, if_pos (by rw [hone]; rfl)]
      rfl
    · rw [if_neg hone, if_neg]
      simp only [List.length_nil]
      omega
  | cons next rest ih =>
    rw [arrayCopyLoop, List.map_cons, List.sum_cons]
    by_cases hzero : next.blocklength = 0
    · rw [if_pos hzero, ih, hzero, Nat.zero_add]
    · rw [if_neg hzero, if_pos (by simp [effDisp]), ih, Nat.add_assoc]

theorem dropWhile_filter (blocks : List Block) :
    (blocks.dropWhile (·.blocklength = 0)).filter (·.blocklength ≠ 0) =
      blocks.filter (·.blocklength ≠ 0) := by
  induction blocks with
  | nil => rfl
  | cons b rest ih =>
    by_cases hzero : b.blocklength = 0
    · rw [List.dropWhile_cons_of_pos (by simpa using hzero), ih,
        List.filter_cons_of_neg (by simpa using hzero)]
    · rw [List.dropWhile_cons_of_neg (by simpa using hzero)]

/-- The count, the copy and the elements agree unless displacements are in elements without extent. -/
theorem indexed_compaction_iff (blocks : List Block) (dispinbytes : Bool) (oldExtent : Int)
    (hdata : ∃ b ∈ blocks, b.blocklength ≠ 0) :
    (∃ merged, typeIndexedArrayCopy (typeIndexedCountContig blocks dispinbytes oldExtent) blocks
        dispinbytes oldExtent = some merged ∧
      merged.length = typeIndexedCountContig blocks dispinbytes oldExtent ∧
      blockOffsets merged true oldExtent = blockOffsets blocks dispinbytes oldExtent) ↔
    (dispinbytes = true ∨ oldExtent ≠ 0 ∨ Consecutive blocks) := by
  have hne : blocks ≠ [] := by
    rintro rfl
    obtain ⟨b, hb, _⟩ := hdata
    cases hb
  have hdrop : blockOffsets blocks dispinbytes oldExtent =
      blockOffsets (blocks.dropWhile (·.blocklength = 0)) dispinbytes oldExtent :=
    (blockOffsets_dropWhile blocks dispinbytes oldExtent).symm
  have hconsecutive : Consecutive blocks ↔ Consecutive (blocks.dropWhile (·.blocklength = 0)) := by
    rw [Consecutive, Consecutive, dropWhile_filter]
  rw [hdrop, hconsecutive]
  unfold typeIndexedArrayCopy typeIndexedCountContig
  rw [if_neg hne]
  cases hskip : blocks.dropWhile (·.blocklength = 0) with
  | nil =>
    obtain ⟨b, hb, hpos⟩ := hdata
    have hall := List.dropWhile_eq_nil_iff.mp hskip b hb
    exact absurd (by simpa using hall) hpos
  | cons first rest =>
    have hfirst := Bounds.blocklength_first hskip
    have hchain : Consecutive (first :: rest) ↔
        Follow (first.disp + first.blocklength) rest := by
      rw [Consecutive, List.filter_cons_of_pos (by simpa using hfirst)]
      exact follow_iff first rest
    dsimp only
    by_cases hcase : dispinbytes = true ∨ oldExtent ≠ 0
    · refine iff_of_true ?_ (hcase.imp_right Or.inl)
      exact arrayCopyLoop_spec hcase rest [] first.disp first.blocklength
    · rw [not_or, not_not] at hcase
      obtain ⟨hbytes, rfl⟩ := hcase
      obtain rfl : dispinbytes = false := Bool.eq_false_iff.mpr hbytes
      have hzero : effDisp false 0 first.disp = 0 := by simp [effDisp]
      rw [hzero, arrayCopyLoop_zero, hchain,
        ← countContigLoop_elements 0 rest first.disp first.blocklength 1]
      constructor
      · rintro ⟨merged, hcopy, _⟩
        by_contra hmore
        rw [not_or, not_or] at hmore
        rw [if_neg hmore.2.2] at hcopy
        cases hcopy
      · intro hone
        have hsame := (hone.resolve_left Bool.false_ne_true).resolve_left fun h => h rfl
        rw [hsame]
        refine ⟨_, if_pos rfl, rfl, ?_⟩
        have hone_block : ∀ b : Block, blockOffset false 0 b = List.replicate b.blocklength 0 := by
          intro b
          simp [blockOffset, effDisp, steps_zero_step]
        have hall : ∀ bs : List Block, blockOffsets bs false 0 =
            List.replicate (bs.map (·.blocklength)).sum 0 := by
          intro bs
          induction bs with
          | nil => rfl
          | cons b bs ih =>
            rw [blockOffsets, List.flatMap_cons, hone_block, List.map_cons, List.sum_cons,
              List.replicate_add]
            exact congrArg _ ih
        rw [hall]
        simp [blockOffsets, blockOffset, effDisp, steps_zero_step]

theorem indexed_compaction_iff_two :
    typeIndexedArrayCopy 1 [⟨0, 9⟩, ⟨2, 3⟩, ⟨1, 5⟩] false 4 = some [⟨3, 12⟩] ∧
      ∃ merged : List Block, merged.length = 1 ∧
        blockOffsets merged true 4 = blockOffsets [⟨0, 9⟩, ⟨2, 3⟩, ⟨1, 5⟩] false 4 := by
  refine ⟨rfl, ?_⟩
  obtain ⟨merged, _, hlen, hoffsets⟩ := (indexed_compaction_iff [⟨0, 9⟩, ⟨2, 3⟩, ⟨1, 5⟩] false 4
    ⟨⟨2, 3⟩, by simp, by decide⟩).mpr (Or.inr (Or.inl (by decide)))
  exact ⟨merged, hlen, hoffsets⟩

theorem indexed_compaction_fails :
    typeIndexedCountContig [⟨1, 0⟩, ⟨2, 2⟩] false 0 = 2 ∧
      typeIndexedArrayCopy 2 [⟨1, 0⟩, ⟨2, 2⟩] false 0 = none := by
  decide

end FgMpi.Types.Compaction
