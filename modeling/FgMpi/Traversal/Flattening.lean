import FgMpi.Traversal.Filling

/-! `MPID_Segment_flatten`. -/

namespace FgMpi.Traversal.Flattening
open Types.Constructors (Builtin Block)
open Machine.Turns Machine.Regions Traversal.Dataloops
open Traversal.Manipulate Traversal.Cursors Traversal.Turning
open Traversal.Offers Traversal.Handing
open Traversal.Calls Traversal.Filling

/-- `piece_params.u.flatten`: the entries of `offp` and `sizep` below `index`. -/
structure Flatten where
  entries : List Region
  length : Int
deriving Repr, DecidableEq

def contigFlatten (blocks : Int) (elType : Builtin) (relOff bufp : Int) (params : Flatten) :
    Ret Flatten :=
  let elSize := elType.size
  let size := blocks * elSize
  if Adjoins params.entries (bufp + relOff) then
    ⟨blocks, false, { params with entries := extendLast params.entries size }, false⟩
  else
    let params := { params with entries := params.entries ++ [⟨bufp + relOff, size⟩] }
    -- the entire vector buffer is used
    ⟨blocks, decide ((params.entries.length : Int) = params.length), params, false⟩

/-- The loop of `MPID_Segment_vector_flatten`; the first argument is what is left of `count`.  The
division by a size of 0 does not return. -/
def vectorFlattenLoop (blocks blksz stride basicSize bufp : Int) : Nat → Int → Int → Flatten → Ret Flatten
  | 0, blocksLeft, _, params => ⟨blocks, false, params, decide (blocksLeft ≠ 0)⟩
  | n + 1, blocksLeft, relOff, params =>
    if blocksLeft > 0 then
      let size := if blocksLeft > blksz then blksz * basicSize else blocksLeft * basicSize
      let blocksLeft := if blocksLeft > blksz then blocksLeft - blksz else 0
      if Adjoins params.entries (bufp + relOff) then
        vectorFlattenLoop blocks blksz stride basicSize bufp n blocksLeft (relOff + stride)
          { params with entries := extendLast params.entries size }
      else if (params.entries.length : Int) < params.length then
        vectorFlattenLoop blocks blksz stride basicSize bufp n blocksLeft (relOff + stride)
          { params with entries := params.entries ++ [⟨bufp + relOff, size⟩] }
      else
        ⟨blocks - blocksLeft + size.tdiv basicSize, true, params, decide (basicSize = 0)⟩
    else ⟨blocks, false, params, decide (blocksLeft ≠ 0)⟩

def vectorFlatten (blocks count blksz stride : Int) (elType : Builtin) (relOff bufp : Int)
    (params : Flatten) : Ret Flatten :=
  vectorFlattenLoop blocks blksz stride elType.size bufp count.toNat blocks relOff params

def flattenPieces : Pieces Flatten where
  contigfn := true
  vectorfn := true
  blkidxfn := false
  indexfn := false
  apply := fun pc blocks bufp params =>
    match pc with
    | .contig elType relOff => contigFlatten blocks elType relOff bufp params
    | .vector count blklen stride elType relOff =>
      vectorFlatten blocks count blklen stride elType relOff bufp params
    -- `NULL`, they are not called
    | .blkidx _ _ _ _ _ => ⟨0, false, params, true⟩
    | .index _ _ _ _ _ => ⟨0, false, params, true⟩
  sizefn := none

def segmentFlatten (beyond : Int → Int) (segp : Segment) (first last length : Int) : Outcome Flatten :=
  if length > 0 then manipulate beyond flattenPieces segp first last ⟨[], length⟩
  else ⟨segp, last, ⟨[], length⟩, [], some .assertion⟩

theorem contigFlatten_place (blocks : Int) (elType : Builtin) (relOff bufp : Int)
    (params : Flatten) : (contigFlatten blocks elType relOff bufp params).pieceparams =
      ⟨place params.entries (bufp + relOff) (blocks * elType.size), params.length⟩ := by
  unfold contigFlatten place
  dsimp only
  split <;> rfl

theorem contigFlatten_blocks (blocks : Int) (elType : Builtin) (relOff bufp : Int)
    (params : Flatten) : (contigFlatten blocks elType relOff bufp params).blocks = blocks ∧
      (contigFlatten blocks elType relOff bufp params).failed = false := by
  unfold contigFlatten
  dsimp only
  split <;> exact ⟨rfl, rfl⟩

theorem vectorFlattenLoop_eq (n : Nat) (v size : Nat) (stride bufp : Int)
    {count left : Nat} (hleft : left ≤ count * v) (hv : 0 < v) (relOff : Int) (params : Flatten)
    (hroom : (params.entries.length : Int) ≤ params.length) {result : Nat × List Region}
    (hresult : result = fillBlocks params.length size bufp
      ((List.range count).map fun i : Nat => ⟨v, relOff + i * stride⟩) left params.entries) :
    (result.1 = 0 ∧ vectorFlattenLoop n v stride size bufp count left relOff params =
        ⟨n, false, ⟨result.2, params.length⟩, false⟩) ∨
      ∃ c : Nat, 0 < c ∧ c ≤ result.1 ∧
        vectorFlattenLoop n v stride size bufp count left relOff params =
          ⟨n - result.1 + c + ((c : Int) * size).tdiv size, true, ⟨result.2, params.length⟩,
            decide (size = 0)⟩ := by
  induction count generalizing left relOff params with
  | zero =>
    obtain rfl : left = 0 := by omega
    subst hresult
    exact Or.inl ⟨rfl, by simp [vectorFlattenLoop, fillBlocks]⟩
  | succ count ih =>
    rw [strided_succ, fillBlocks] at hresult
    by_cases hzero : left = 0
    · subst hzero
      subst hresult
      exact Or.inl ⟨rfl, by simp [vectorFlattenLoop]⟩
    rw [if_neg hzero] at hresult
    have hblocks : (if (left : Int) > v then ((v : Int) * size) else left * size) =
        ((min left v : Nat) : Int) * size := by
      split
      · rw [min_eq_right (by omega)]
      · rw [min_eq_left (by omega)]
    have hrest : (if (left : Int) > v then (left : Int) - v else 0) = ((left - v : Nat) : Int) := by
      split <;> omega
    have hmore : left - v ≤ count * v := by
      rw [Nat.succ_mul] at hleft
      omega
    rw [vectorFlattenLoop, if_pos (by omega)]
    simp only [hblocks, hrest]
    by_cases hadj : Adjoins params.entries (bufp + relOff)
    · rw [if_neg fun h => h.2 hadj] at hresult
      rw [if_pos hadj]
      have hplace : place params.entries (bufp + relOff) (((min left v : Nat) : Int) * size) =
          extendLast params.entries (((min left v : Nat) : Int) * size) := if_pos hadj
      refine ih hmore _ _ ?_ ?_
      · have hlen := length_place params.entries (bufp + relOff) (((min left v : Nat) : Int) * size)
        rw [if_pos hadj, hplace] at hlen
        dsimp only
        omega
      · rw [hresult, hplace]
    · by_cases hless : (params.entries.length : Int) < params.length
      · rw [if_neg fun h => by omega] at hresult
        rw [if_neg hadj, if_pos hless]
        refine ih hmore _ _ ?_ ?_
        · simp only [List.length_append, List.length_singleton]
          push_cast
          omega
        · rw [hresult, place_apart hadj]
      · rw [if_pos ⟨by omega, hadj⟩] at hresult
        rw [if_neg hadj, if_neg hless]
        subst hresult
        refine Or.inr ⟨min left v, by omega, Nat.min_le_left left v, ?_⟩
        have hback : (n : Int) - ((left - v : Nat) : Int) = n - left + (min left v : Nat) := by
          omega
        rw [hback]
        simp only [Int.natCast_eq_zero]

def needed (ptr : Int) (params : Flatten) (o : Offer) : List Region :=
  match o.piece with
  | .contig _ relOff => place params.entries (ptr + relOff) (o.blocks * o.el.size)
  | piece =>
    placeBlocks o.el.size ptr (pieceBlocks o.blocks.toNat piece) o.blocks.toNat params.entries

def Room (beyond : Int → Int) (ptr last : Int) (m : Local Flatten) : Prop :=
  ∀ o, offer beyond flattenPieces last m = some o →
    ((needed ptr m.pieceparams o).length : Int) ≤ m.pieceparams.length

structure Listed (ptr length : Int) (params : Flatten) (taken : List Element) : Prop where
  limit : params.length = length
  room : (params.entries.length : Int) ≤ length
  bytes : bytes params.entries = elementBytes ptr taken
  nonneg : Nonneg params.entries

section Call
variable (beyond : Int → Int) {root : Dataloop} {ptr last length : Int}

variable {o : Offer} {k : Nat}

theorem needed_blocks (ptr : Int) (params : Flatten) (hk : o.blocks = k)
    (hkpos : 0 < k) : needed ptr params o =
      placeBlocks o.el.size ptr (pieceBlocks k o.piece) k params.entries := by
  obtain ⟨el, piece, blocks, cut⟩ := o
  dsimp only at hk
  subst hk
  cases piece with
  | contig elType relOff =>
    rw [pieceBlocks, placeBlocks, if_neg (Nat.pos_iff_ne_zero.mp hkpos), placeBlocks, min_self]
    rfl
  | vector count blklen stride elType relOff => rfl
  | blkidx count blklen offsetarray elType relOff => rfl
  | index count blockarray offsetarray elType relOff => rfl

theorem streamElSize_flatten (el : El) : streamElSize flattenPieces el = el.size := rfl

variable {m : Local Flatten}

theorem flatten_room (hk : o.blocks = k) (hkpos : 0 < k)
    (hproper : Proper flattenPieces o.el k o.piece) (htype : o.el.type.size = o.el.size) (hlen : (m.pieceparams.entries.length : Int) ≤ m.pieceparams.length)
    (hroom : ((needed ptr m.pieceparams o).length : Int) ≤ m.pieceparams.length) :
    (call flattenPieces ptr m o).blocks = k ∧ (call flattenPieces ptr m o).failed = false ∧
      (call flattenPieces ptr m o).pieceparams =
        ⟨needed ptr m.pieceparams o, m.pieceparams.length⟩ := by
  rw [needed_blocks ptr m.pieceparams hk hkpos] at hroom ⊢
  obtain ⟨el, piece, blocks, cut⟩ := o
  dsimp only at hk hproper htype hroom ⊢
  subst hk
  rw [call]
  cases piece with
  | contig elType relOff =>
    obtain ⟨_, rfl⟩ := hproper
    change (contigFlatten k el.type relOff ptr m.pieceparams).blocks = k ∧
      (contigFlatten k el.type relOff ptr m.pieceparams).failed = false ∧
        (contigFlatten k el.type relOff ptr m.pieceparams).pieceparams = _
    obtain ⟨hblocks, hok⟩ := contigFlatten_blocks k el.type relOff ptr m.pieceparams
    refine ⟨hblocks, hok, ?_⟩
    rw [contigFlatten_place, pieceBlocks, placeBlocks, if_neg (Nat.pos_iff_ne_zero.mp hkpos),
      placeBlocks, min_self, htype]
  | vector count blklen stride elType relOff =>
    have hsum := pieceBlocks_sum hproper
    obtain ⟨_, rfl, n, v, rfl, rfl, _, hv, hle⟩ := hproper
    rcases fillBlocks_all el.size ptr hlen hsum with ⟨_, hall⟩ | ⟨hmore, _⟩
    · rcases vectorFlattenLoop_eq k v el.size stride ptr hle hv relOff m.pieceparams hlen rfl with
        ⟨_, heq⟩ | ⟨c, hc, hcle, _⟩
      · rw [pieceBlocks, Int.toNat_natCast, Int.toNat_natCast] at hall ⊢
        rw [hall] at heq
        change (vectorFlattenLoop k v stride el.type.size ptr (n : Int).toNat k relOff
            m.pieceparams).blocks = k ∧
          (vectorFlattenLoop k v stride el.type.size ptr (n : Int).toNat k relOff
            m.pieceparams).failed = false ∧
          (vectorFlattenLoop k v stride el.type.size ptr (n : Int).toNat k relOff
            m.pieceparams).pieceparams = _
        rw [htype, Int.toNat_natCast, heq]
        exact ⟨rfl, rfl, rfl⟩
      · rw [pieceBlocks, Int.toNat_natCast, Int.toNat_natCast] at hall
        rw [hall] at hcle
        exact absurd hcle (by omega)
    · omega
  | blkidx count blklen offsetarray elType relOff => cases hproper.1
  | index count blockarray offsetarray elType relOff => cases hproper.1

variable {params : Flatten}

theorem needed_spec (ptr : Int) (hk : o.blocks = k) (hkpos : 0 < k)
    (hproper : Proper flattenPieces o.el k o.piece)
    (hrs : Nonneg params.entries) :
    bytes (needed ptr params o) = bytes params.entries ++
        elementBytes ptr (pieceElements o.el k o.piece) ∧ Nonneg (needed ptr params o) := by
  have hsum := pieceBlocks_sum hproper
  have hneeded := needed_blocks ptr params hk hkpos
  have hfill := fillBlocks_spec ((needed ptr params o).length : Int) ptr o.el
    (pieceBlocks_pos hproper hkpos) hrs hsum
  have hfits : (params.entries.length : Int) ≤ (needed ptr params o).length := by
    rw [hneeded]
    exact_mod_cast placeBlocks_length o.el.size ptr (pieceBlocks k o.piece) k params.entries
  rcases fillBlocks_all o.el.size ptr hfits hsum with ⟨_, hall⟩ | ⟨hmore, _⟩
  · rw [hall, ← hneeded] at hfill
    exact ⟨hfill.bytes, hfill.nonneg⟩
  · rw [hneeded] at hmore
    omega

def Good (ptr last : Int) (m : Local Flatten) : Prop := NotEmpty m ∧ Room beyond ptr last m

theorem listed_sound (hroot : root.Shaped) (hsized : root.Sized) {m₀ : Local Flatten}
    {stack₀ : List Cursor} : Sound beyond ptr flattenPieces last True root (Listed ptr length) m₀
      stack₀ (Good beyond ptr last) := by
  rintro m stack taken halong ⟨hempty, hroom⟩
  obtain ⟨cu, below, rfl⟩ := List.exists_cons_of_ne_nil halong.ne
  have hinv := halong.inv
  have hlen : (m.pieceparams.entries.length : Int) ≤ m.pieceparams.length := by
    rw [hinv.limit]
    exact hinv.room
  refine ⟨hempty, ?_, ?_⟩
  · intro o ho k hk hproper hkpos
    obtain ⟨hblocks, hok, _⟩ := flatten_room hk hkpos hproper
      (offer_sized beyond hroot hsized halong.moves.sim hempty ho) hlen (hroom o ho)
    exact ⟨k, hblocks, le_refl k, hok⟩
  · intro taken₁ m' stack' hhanded
    cases ho : offer beyond flattenPieces last m with
    | none =>
      obtain ⟨hparams, hnil⟩ := hhanded.nothing ho
      rw [hparams, hnil rfl, List.append_nil]
      exact hinv
    | some o =>
      obtain ⟨hparams, hblocks, htaken, k, hk, hproper, hkpos⟩ := hhanded.piece o ho
      obtain ⟨hall, _, hentries⟩ := flatten_room hk hkpos hproper
        (offer_sized beyond hroot hsized halong.moves.sim hempty ho) hlen (hroom o ho)
      have hlength : taken₁.length = k := by
        rw [hall] at hblocks
        exact_mod_cast hblocks.symm
      obtain ⟨hbytes, hnonneg⟩ := needed_spec ptr hk hkpos hproper hinv.nonneg
      rw [hparams, hentries]
      refine ⟨hinv.limit, ?_, ?_, hnonneg⟩
      · have hneeded := hroom o ho
        rw [hinv.limit] at hneeded
        exact hneeded
      · rw [hbytes, hinv.bytes, elementBytes_append, htaken trivial, hlength]

theorem extendLast_length {rs : List Region} {start : Int} (h : Adjoins rs start) (size : Int) :
    (extendLast rs size).length = rs.length := by
  have hlen := length_place rs start size
  rw [if_pos h] at hlen
  rw [← hlen, place, if_pos h]

theorem vectorFlattenLoop_grows (blocks blksz stride basicSize bufp : Int) (n : Nat)
    (blocksLeft relOff : Int) (params : Flatten) : params.entries.length ≤
      (vectorFlattenLoop blocks blksz stride basicSize bufp n blocksLeft relOff
        params).pieceparams.entries.length := by
  induction n generalizing blocksLeft relOff params with
  | zero => exact le_refl _
  | succ n ih =>
    rw [vectorFlattenLoop]
    split
    · dsimp only
      split
      · rename_i hadj
        refine le_trans (le_of_eq ?_) (ih _ _ _)
        exact (extendLast_length hadj _).symm
      split
      · refine le_trans ?_ (ih _ _ _)
        rw [List.length_append]
        exact Nat.le_add_right _ _
      · exact le_refl _
    · exact le_refl _

theorem flatten_grows (pc : Piece) (blocks : Int) (params : Flatten) : params.entries.length ≤
    (flattenPieces.apply pc blocks ptr params).pieceparams.entries.length := by
  cases pc with
  | contig elType relOff =>
    change _ ≤ (contigFlatten blocks elType relOff ptr params).pieceparams.entries.length
    rw [contigFlatten_place, length_place]
    split <;> omega
  | vector count blklen stride elType relOff =>
    exact vectorFlattenLoop_grows blocks blklen stride elType.size ptr count.toNat blocks relOff
      params
  | blkidx count blklen offsetarray elType relOff => exact le_refl _
  | index count blockarray offsetarray elType relOff => exact le_refl _

def Overflowed (length : Int) (params : Flatten) : Prop := length < params.entries.length

theorem overflowed_keeps (pc : Piece) (blocks : Int) (params : Flatten) (h : Overflowed length params) :
    Overflowed length (flattenPieces.apply pc blocks ptr params).pieceparams :=
  lt_of_lt_of_le h (by exact_mod_cast flatten_grows pc blocks params)

theorem overflowed_rounds {p : Params} {el : El} {m₁ : Local Flatten} {ret : Ret Flatten}
    (hturn : turn beyond flattenPieces ptr last m = update beyond flattenPieces p el m₁ ret)
    (hret : Overflowed length ret.pieceparams) (k : Nat) {m₂ : Local Flatten} (hm₂ : m₂.fault ≠ none) :
    ((rounds (turn beyond flattenPieces ptr last) (k + 1) m).getD m₂).fault ≠ none ∨
      Overflowed length
        ((rounds (turn beyond flattenPieces ptr last) (k + 1) m).getD m₂).pieceparams := by
  have hupdate : Keeps (Overflowed length) (update beyond flattenPieces p el m₁ ret) :=
    update_keeps beyond p el m₁ ret hret
  rw [← hturn] at hupdate
  cases ht : turn beyond flattenPieces ptr last m with
  | leave m' =>
    rw [ht] at hupdate
    rw [rounds_leave ht]
    exact Or.inr hupdate
  | again m' =>
    rw [ht] at hupdate
    rw [rounds_again ht]
    cases hrun : rounds (turn beyond flattenPieces ptr last) k m' with
    | none => exact Or.inl hm₂
    | some m'' =>
      have hkeeps : ∀ m : Local Flatten, Overflowed length m.pieceparams →
          Keeps (Overflowed length) (turn beyond flattenPieces ptr last m) :=
        fun m hm => turn_keeps beyond ptr last overflowed_keeps m hm
      exact Or.inr (rounds_keeps hkeeps hupdate hrun)

theorem flatten_crowded (hk : o.blocks = k) (hkpos : 0 < k)
    (hproper : Proper flattenPieces o.el k o.piece) (htype : o.el.type.size = o.el.size) (hlen : (m.pieceparams.entries.length : Int) ≤ m.pieceparams.length)
    (hnonneg : Nonneg m.pieceparams.entries)
    (hroom : m.pieceparams.length < (needed ptr m.pieceparams o).length) :
    Overflowed m.pieceparams.length (call flattenPieces ptr m o).pieceparams ∨
      ∃ j c : Nat, j + c ≤ k ∧ 0 < c ∧
        (call flattenPieces ptr m o).blocks = j + c + ((c : Int) * o.el.size).tdiv o.el.size ∧
        (call flattenPieces ptr m o).exit = true ∧
        (call flattenPieces ptr m o).failed = decide (o.el.size = 0) ∧
        bytes (call flattenPieces ptr m o).pieceparams.entries = bytes m.pieceparams.entries ++
          elementBytes ptr (((pieceBlocks k o.piece).flatMap (blockElements o.el 0)).take j) := by
  rw [needed_blocks ptr m.pieceparams hk hkpos] at hroom
  obtain ⟨el, piece, blocks, cut⟩ := o
  dsimp only at hk hproper htype hroom ⊢
  subst hk
  rw [call]
  cases piece with
  | contig elType relOff =>
    obtain ⟨_, rfl⟩ := hproper
    refine Or.inl ?_
    change Overflowed _ (contigFlatten k el.type relOff ptr m.pieceparams).pieceparams
    rw [contigFlatten_place, htype]
    rw [pieceBlocks, placeBlocks, if_neg (Nat.pos_iff_ne_zero.mp hkpos), placeBlocks, min_self] at hroom
    exact hroom
  | vector count blklen stride elType relOff =>
    have hsum := pieceBlocks_sum hproper
    have hfill := fillBlocks_spec m.pieceparams.length ptr el (pieceBlocks_pos hproper hkpos)
      hnonneg hsum
    obtain ⟨_, rfl, n, v, rfl, rfl, _, hv, hle⟩ := hproper
    refine Or.inr ?_
    rcases fillBlocks_all el.size ptr hlen hsum with ⟨hfits, _⟩ | ⟨_, hmore⟩
    · omega
    · rcases vectorFlattenLoop_eq k v el.size stride ptr hle hv relOff m.pieceparams hlen rfl with
        ⟨hzero, _⟩ | ⟨c, hc, hcle, heq⟩
      · rw [pieceBlocks, Int.toNat_natCast, Int.toNat_natCast, hzero] at hmore
        exact absurd hmore (Nat.lt_irrefl 0)
      · rw [pieceBlocks, Int.toNat_natCast, Int.toNat_natCast] at hfill ⊢
        generalize fillBlocks m.pieceparams.length el.size ptr
          ((List.range n).map fun i : Nat => ⟨v, relOff + i * stride⟩) k m.pieceparams.entries =
          result at hfill hcle heq
        have hcall : flattenPieces.apply (.vector n v stride el.type relOff) k ptr m.pieceparams =
            vectorFlattenLoop k v stride el.size ptr n k relOff m.pieceparams := by
          rw [← htype]
          rfl
        have hfewer := hfill.le
        rw [hcall, heq]
        refine ⟨k - result.1, c, by omega, hc, ?_, rfl, rfl, hfill.bytes⟩
        change (k : Int) - result.1 + c + _ = ((k - result.1 : Nat) : Int) + c + _
        rw [Nat.cast_sub hfewer]
  | blkidx count blklen offsetarray elType relOff => cases hproper.1
  | index count blockarray offsetarray elType relOff => cases hproper.1

structure Flattened (root : Dataloop) (segp : Segment) (consumed : List Element)
    (last length : Int) (out : Outcome Flatten) (taken : List Element) (stack' : List Cursor) :
    Prop where
  positioned : Positioned True root flattenPieces out.segment (consumed ++ taken) stack'
  fault : out.fault = none
  lastp : out.lastp = out.segment.streamOff
  ptr : out.segment.ptr = segp.ptr
  listed : Listed segp.ptr length out.pieceparams taken
  within : last ≠ ignoreLast → out.lastp ≤ last

def Spoilt (root : Dataloop) (first length : Int) (out : Outcome Flatten) : Prop :=
  out.fault ≠ none ∨ Overflowed length out.pieceparams ∨
    ((bytes out.pieceparams.entries).length : Int) < out.lastp - first ∧
      ((bytes out.pieceparams.entries).length : Int) <
        streamSize flattenPieces (root.elements 0) - first

theorem streamSize_flatten (ptr : Int) (es : List Element) :
    (elementBytes ptr es).length = streamSize flattenPieces es := elementBytes_length ptr es

variable {segp : Segment} {consumed taken : List Element} {stack : List Cursor} {log : List Event}

theorem crowded_spoilt {below : List Cursor}
    {cu : Cursor}
    (hroot : root.Shaped)
    (h : Positioned True root flattenPieces segp consumed stack)
    (halong : Along beyond segp.ptr flattenPieces last True root (Listed segp.ptr length)
      (loadLocal segp params log) stack m (cu :: below) taken)
    (ho : offer beyond flattenPieces last m = some o)
    (hoffered : Offered True flattenPieces (cu :: below) o k) {j c : Nat} (hjc : j + c ≤ k)
    (hc : 0 < c)
    (hblocks : (call flattenPieces segp.ptr m o).blocks = j + c + ((c : Int) * o.el.size).tdiv o.el.size)
    (hexit : (call flattenPieces segp.ptr m o).exit = true)
    (hfailed : (call flattenPieces segp.ptr m o).failed = decide (o.el.size = 0))
    (hbytes : bytes (call flattenPieces segp.ptr m o).pieceparams.entries =
      bytes m.pieceparams.entries ++ elementBytes segp.ptr
        (((pieceBlocks k o.piece).flatMap (blockElements o.el 0)).take j)) :
    ∃ m', turn beyond flattenPieces segp.ptr last m = .leave m' ∧
      Spoilt root segp.streamOff length (saveLocal segp.ptr m') := by
  obtain ⟨p, log', hturn⟩ := turn_offer beyond segp.ptr hroot halong.moves.sim halong.within ho
  obtain ⟨m', hleave, hstream, hparams, hfault⟩ := update_exit beyond p o.el (m.add log') hexit
  refine ⟨m', by rw [hturn, hleave], ?_⟩
  by_cases hzero : o.el.size = 0
  · refine Or.inl ?_
    change m'.fault ≠ none
    rw [hfault (by rw [hfailed]; exact decide_eq_true hzero)]
    exact Option.some_ne_none _
  refine Or.inr (Or.inr ?_)
  have hdiv : ((c : Int) * o.el.size).tdiv o.el.size = c :=
    Int.mul_tdiv_cancel _ (by exact_mod_cast hzero)
  have hsize : 0 < o.el.size := Nat.pos_of_ne_zero hzero
  have hfirst : ∀ i ≤ k, streamSize flattenPieces ((restOf (cu :: below)).take i) =
      i * o.el.size := by
    intro i hi
    have hel : ∀ e ∈ (restOf (cu :: below)).take i, e.el = o.el := by
      intro e he
      rw [← min_eq_left hi, ← List.take_take] at he
      exact hoffered.el e (List.mem_of_mem_take he)
    rw [streamSize_const hel, List.length_take, min_eq_left (le_trans hi hoffered.enough)]
    rfl
  have hlen : (bytes m'.pieceparams.entries).length =
      streamSize flattenPieces taken + j * o.el.size := by
    rw [hparams, hbytes, halong.inv.bytes, ← pieceElements_take (by omega : j ≤ k),
      hoffered.elements trivial j (by omega), List.length_append, streamSize_flatten,
      streamSize_flatten, hfirst j (by omega)]
  have hjk : j * o.el.size < k * o.el.size := Nat.mul_lt_mul_of_pos_right (by omega) hsize
  have hwhole : streamSize flattenPieces (root.elements 0) = streamSize flattenPieces consumed +
      (streamSize flattenPieces taken + (k * o.el.size +
        streamSize flattenPieces ((restOf (cu :: below)).drop k))) := by
    rw [h.rest, halong.moves.rest, ← hfirst k (le_refl k),
      ← streamSize_append ((restOf (cu :: below)).take k), List.take_append_drop,
      streamSize_append, streamSize_append]
  have hbegin := h.stream
  have hat : m.streamOff = segp.streamOff + streamSize flattenPieces taken := halong.moves.stream
  change ((bytes m'.pieceparams.entries).length : Int) < m'.streamOff - segp.streamOff ∧
    ((bytes m'.pieceparams.entries).length : Int) < _ - segp.streamOff
  rw [hlen, hstream, hblocks, hdiv, streamElSize_flatten]
  change ((streamSize flattenPieces taken + j * o.el.size : Nat) : Int) <
      m.streamOff + (j + c + c) * o.el.size - segp.streamOff ∧ _
  have hcc : (0 : Int) < ((c + c : Nat) : Int) * o.el.size := by
    exact_mod_cast Nat.mul_pos (by omega) hsize
  have hsplit : ((j : Int) + c + c) * o.el.size =
      j * o.el.size + ((c + c : Nat) : Int) * o.el.size := by
    push_cast
    ring
  refine ⟨?_, ?_⟩
  · rw [hat, hsplit]
    push_cast at hcc ⊢
    omega
  · rw [hwhole, hbegin]
    push_cast
    have hjk' : (j : Int) * o.el.size < k * o.el.size := by exact_mod_cast hjk
    omega

theorem empty_leaf {stack' : List Cursor} (hroot : root.Shaped)
    (halong : Along beyond segp.ptr flattenPieces last True root (Listed segp.ptr length)
      (loadLocal segp params log) stack m stack' taken) (hempty : ¬NotEmpty m) :
    ∃ (params' : Flatten) (log' : List Event), turn beyond flattenPieces segp.ptr last m =
        .leave { m with log := m.log ++ log', pieceparams := params' } ∧
      (Room beyond segp.ptr last m → Listed segp.ptr length params' taken) ∧
      (¬Room beyond segp.ptr last m → Overflowed length params') := by
  obtain ⟨cu, below, rfl⟩ := List.exists_cons_of_ne_nil halong.ne
  obtain ⟨p, el, piece, log', hoffer, hturn, hpiece⟩ :=
    offer_empty beyond segp.ptr hroot halong.moves.sim halong.within hempty
  have hinv := halong.inv
  have hstill : Room beyond segp.ptr last m ↔ ∀ pc, piece = some pc →
      ((needed segp.ptr m.pieceparams ⟨el, pc, 0, false⟩).length : Int) ≤ m.pieceparams.length := by
    rw [Room, hoffer]
    constructor
    · intro h pc hpc
      exact h _ (by rw [hpc]; rfl)
    · intro h o ho
      obtain ⟨pc, hpc, rfl⟩ := Option.map_eq_some_iff.mp ho
      exact h pc hpc
  rw [hturn]
  cases hp : piece with
  | none =>
    rw [hp] at hstill
    refine ⟨m.pieceparams, log', update_nothing beyond rfl rfl, fun _ => hinv, ?_⟩
    intro hnot
    exact absurd (hstill.mpr fun pc hpc => by cases hpc) hnot
  | some pc =>
    rw [hp] at hstill
    rcases hpiece pc hp with ⟨relOff, rfl⟩ | ⟨count, blklen, stride, relOff, rfl⟩
    · -- an entry of length 0 is placed
      obtain ⟨hblocks, hok⟩ := contigFlatten_blocks 0 el.type relOff segp.ptr m.pieceparams
      refine ⟨_, log', update_nothing beyond hblocks hok, ?_, ?_⟩
      all_goals
        intro hroom
        rw [hstill] at hroom
      · have hfits : ((place m.pieceparams.entries (segp.ptr + relOff) (0 * el.size)).length : Int) ≤
            m.pieceparams.length := hroom _ rfl
        rw [Int.zero_mul] at hfits
        change Listed segp.ptr length (contigFlatten 0 el.type relOff segp.ptr
          m.pieceparams).pieceparams taken
        rw [contigFlatten_place, Int.zero_mul]
        refine ⟨hinv.limit, by rw [← hinv.limit]; exact hfits, ?_, nonneg_place hinv.nonneg _ (le_refl 0)⟩
        rw [bytes_place hinv.nonneg _ (le_refl 0), hinv.bytes]
        simp [Region.bytes]
      · have hover : ¬((place m.pieceparams.entries (segp.ptr + relOff) (0 * el.size)).length : Int) ≤
            m.pieceparams.length := by
          intro hfits
          refine hroom ?_
          intro pc hpc
          rw [← Option.some.inj hpc]
          exact hfits
        rw [Int.zero_mul, not_le, hinv.limit] at hover
        change Overflowed length (contigFlatten 0 el.type relOff segp.ptr m.pieceparams).pieceparams
        rw [contigFlatten_place, Int.zero_mul]
        exact hover
    · -- a vector of no elements takes nothing
      have hcall : flattenPieces.apply (.vector count blklen stride el.type relOff) 0 segp.ptr
          m.pieceparams = ⟨0, false, m.pieceparams, false⟩ := by
        change vectorFlattenLoop 0 blklen stride el.type.size segp.ptr count.toNat 0 relOff
          m.pieceparams = _
        cases count.toNat <;> rfl
      refine ⟨m.pieceparams, log', ?_, fun _ => hinv, ?_⟩
      · rw [callPiece, hcall]
        exact update_nothing beyond rfl rfl
      · intro hnot
        refine absurd (hstill.mpr ?_) hnot
        intro pc hpc
        rw [← Option.some.inj hpc]
        have hsame : needed segp.ptr m.pieceparams
            ⟨el, .vector count blklen stride el.type relOff, 0, false⟩ = m.pieceparams.entries :=
          placeBlocks_zero _ _ _ _
        rw [hsame, hinv.limit]
        exact hinv.room

def Roomy (beyond : Int → Int) (segp : Segment) (last length : Int) (log : List Event) : Prop :=
  ∀ m, Reached (turn beyond flattenPieces segp.ptr last) (loadLocal segp ⟨[], length⟩ log) m →
    Room beyond segp.ptr last m

theorem roomy_of_leave {m' : Local Flatten}
    (hturn : turn beyond flattenPieces segp.ptr last (loadLocal segp ⟨[], length⟩ log) = .leave m')
    (hroom : Room beyond segp.ptr last (loadLocal segp ⟨[], length⟩ log)) :
    Roomy beyond segp last length log := (reached_leave hturn).mpr hroom

theorem flatten_loop (hroot : root.Shaped) (hsized : root.Sized)
    (h : Positioned True root flattenPieces segp consumed stack) (hne : stack ≠ [])
    (hwithin : last ≠ ignoreLast → segp.streamOff ≤ last) (hlength : 0 ≤ length)
    (log : List Event) :
    (Roomy beyond segp last length log ∧ ∃ taken stack', Flattened root segp consumed last length
        (process beyond flattenPieces segp last ⟨[], length⟩ log) taken stack') ∨
      (¬Roomy beyond segp last length log ∧ Spoilt root segp.streamOff length
        (process beyond flattenPieces segp last ⟨[], length⟩ log)) := by
  have hstart : Listed segp.ptr length ⟨[], length⟩ [] := ⟨rfl, hlength, rfl, nonneg_nil⟩
  rcases process_first beyond log hroot h hne hwithin hstart (listed_sound beyond hroot hsized) with
    ⟨hall, m', stack', taken, heq, hended⟩ | ⟨m, stack', taken, k, halong, hnot, hbefore, heq⟩
  · rw [heq]
    exact Or.inl ⟨fun m hm => (hall m hm).2, taken, stack', positioned_ended beyond h hended,
      hended.moves.fault, rfl, rfl, hended.inv, hended.within⟩
  obtain ⟨cu, below, rfl⟩ := List.exists_cons_of_ne_nil halong.ne
  have hinv := halong.inv
  by_cases hempty : NotEmpty m
  · -- a piece without room
    have hcrowded : ¬Room beyond segp.ptr last m := fun hroom => hnot ⟨hempty, hroom⟩
    refine Or.inr ⟨fun hall => hcrowded (hall m halong.reached), ?_⟩
    rw [Room] at hcrowded
    push Not at hcrowded
    obtain ⟨o, ho, hover⟩ := hcrowded
    obtain ⟨n, hoffered⟩ := offer_spec beyond hroot halong.moves.sim halong.within hempty ho
    rw [heq]
    have hlen : (m.pieceparams.entries.length : Int) ≤ m.pieceparams.length := by
      rw [hinv.limit]
      exact hinv.room
    rcases flatten_crowded hoffered.blocks hoffered.pos hoffered.proper
        (offer_sized beyond hroot hsized halong.moves.sim hempty ho) hlen hinv.nonneg hover with
      hwritten | ⟨j, c, hjc, hc, hblocks, hexit, hfailed, hbytes⟩
    · obtain ⟨p, log', hturn⟩ := turn_offer beyond segp.ptr hroot halong.moves.sim halong.within ho
      rw [hinv.limit] at hwritten
      rcases overflowed_rounds beyond hturn hwritten k
          (show ({ loadLocal segp ⟨[], length⟩ log with fault := some .rounds } :
            Local Flatten).fault ≠ none from Option.some_ne_none _) with hfault | hbehind
      · exact Or.inl hfault
      · exact Or.inr (Or.inl hbehind)
    · obtain ⟨m', hleave, hspoilt⟩ := crowded_spoilt beyond hroot h halong ho hoffered hjc hc hblocks
        hexit hfailed hbytes
      rw [rounds_leave hleave]
      exact hspoilt
  · obtain ⟨params', log', hturn, hlisted, hwritten⟩ := empty_leaf beyond hroot halong hempty
    rw [rounds_leave hturn, Option.getD_some] at heq
    rw [heq]
    by_cases hroom : Room beyond segp.ptr last m
    · refine Or.inl ⟨?_, taken, cu :: below, ?_⟩
      · intro m₁ hm₁
        rcases hbefore m₁ hm₁ with hgood | hlater
        · exact hgood.2
        · rw [(reached_leave hturn (P := (· = m))).mpr rfl m₁ hlater]
          exact hroom
      · have hpos := positioned_along beyond h halong
        exact ⟨⟨hpos.sim, hpos.left, hpos.rest, hpos.stream⟩, halong.moves.fault, rfl, rfl,
          hlisted hroom, halong.within⟩
    · exact Or.inr ⟨fun hall => hroom (hall m halong.reached), Or.inr (Or.inl (hwritten hroom))⟩

def Fits (beyond : Int → Int) (segp : Segment) (first last length : Int) : Prop :=
  first = last ∨ Gets beyond flattenPieces segp first ∧
    Roomy beyond (advanced beyond flattenPieces segp first).segment last length
      (advanced beyond flattenPieces segp first).log

/-- A window from `first`, which is in the data, to `last`. -/
structure Window (root : Dataloop) (segp : Segment) (P Q : List Element) (first last : Int) : Prop where
  split : root.elements 0 = P ++ Q
  begins : first = streamSize flattenPieces P
  inside : 0 < streamSize flattenPieces Q
  behind : segp.streamOff ≤ first
  ends : last = ignoreLast ∨ first ≤ last

variable {first : Int}

theorem flatten_call (hroot : root.Shaped) (hsized : root.Sized)
    (h : Positioned True root flattenPieces segp consumed stack) {P Q : List Element}
    (hwindow : Window root segp P Q first last) (hne : first ≠ last) (hlength : 0 < length) :
    (Fits beyond segp first last length ∧ ∃ segp' consumed' taken stack',
        segp'.ptr = segp.ptr ∧ (streamSize flattenPieces consumed' : Int) = first ∧
        root.elements 0 = consumed' ++ (taken ++ restOf stack') ∧
        Flattened root segp' consumed' last length (segmentFlatten beyond segp first last length)
          taken stack') ∨
      (¬Fits beyond segp first last length ∧
        Spoilt root first length (segmentFlatten beyond segp first last length)) := by
  obtain ⟨hPQ, hfirst, hQ, hbehind, hlast⟩ := hwindow
  rw [segmentFlatten, if_pos hlength]
  rcases goto_cases beyond flattenPieces ⟨[], length⟩ hroot h hPQ hQ hfirst hbehind hne with
    ⟨hgets, consumed', stack', hpos, hsize, hstack, hptr, heq⟩ | ⟨hnot, hfault⟩
  · have hoff : (advanced beyond flattenPieces segp first).segment.streamOff = first := by
      rw [hpos.stream, hsize]
    have hwithin : last ≠ ignoreLast →
        (advanced beyond flattenPieces segp first).segment.streamOff ≤ last := by
      intro hign
      rw [hoff]
      exact hlast.resolve_left hign
    rw [heq]
    rcases flatten_loop beyond hroot hsized hpos hstack hwithin (Int.le_of_lt hlength)
        (advanced beyond flattenPieces segp first).log with
      ⟨hroomy, taken, stack'', hflat⟩ | ⟨hcrowded, hspoilt⟩
    · refine Or.inl ⟨Or.inr ⟨hgets, hroomy⟩, _, consumed', taken, stack'', hptr, hsize, ?_, hflat⟩
      rw [hflat.positioned.rest, List.append_assoc]
    · rw [hoff] at hspoilt
      exact Or.inr ⟨fun hfits => hcrowded (hfits.resolve_left hne).2, hspoilt⟩
  · refine Or.inr ⟨fun hfits => hnot (hfits.resolve_left hne).1, Or.inl ?_⟩
    rw [hfault]
    exact Option.some_ne_none _

/-- What a call has to return: no entry behind the array, and the bytes of the stream from `first` to
`*lastp`. -/
structure Lists (root : Dataloop) (segp : Segment) (first length : Int) (out : Outcome Flatten) :
    Prop where
  fault : out.fault = none
  room : (out.pieceparams.entries.length : Int) ≤ length
  bytes : bytes out.pieceparams.entries = ((elementBytes segp.ptr (root.elements 0)).drop
    first.toNat).take (out.lastp - first).toNat

theorem spoilt_not_lists {out : Outcome Flatten}
    (hfirst : 0 ≤ first) (h : Spoilt root first length out) : ¬Lists root segp first length out := by
  intro hlists
  rcases h with hfault | hover | ⟨hmore, hdata⟩
  · exact hfault hlists.fault
  · exact absurd hlists.room (not_le_of_gt hover)
  · have hlen := congrArg List.length hlists.bytes
    rw [List.length_take, List.length_drop, streamSize_flatten] at hlen
    omega

theorem flattened_lists {segp' : Segment}
    {stack' : List Cursor} {out : Outcome Flatten} (hptr : segp'.ptr = segp.ptr)
    (hsize : (streamSize flattenPieces consumed : Int) = first)
    (hrest : root.elements 0 = consumed ++ (taken ++ restOf stack'))
    (h : Flattened root segp' consumed last length out taken stack') :
    Lists root segp first length out ∧
      out.lastp = first + streamSize flattenPieces taken := by
  have hlastp : out.lastp = first + streamSize flattenPieces taken := by
    rw [h.lastp, h.positioned.stream, streamSize_append, ← hsize]
    push_cast
    rfl
  refine ⟨⟨h.fault, h.listed.room, ?_⟩, hlastp⟩
  have hbegin : first.toNat = (elementBytes segp.ptr consumed).length := by
    rw [streamSize_flatten]
    omega
  have hcount : (out.lastp - first).toNat = (elementBytes segp.ptr taken).length := by
    rw [streamSize_flatten]
    omega
  rw [h.listed.bytes, hptr, hrest, elementBytes_append, elementBytes_append, hbegin, hcount,
    List.drop_left, List.take_left]

/-- Segments that `DLOOP_Segment_init` has set up and calls with room have moved forward, each one to
the beginning of an element. -/
inductive Forward (beyond : Int → Int) (root : Dataloop) : Segment → Prop
  | init (buf : Int) (st : Nat → Stackelm) (depth : Nat) {segp : Segment} : root.height ≤ depth →
      segmentInit beyond buf st root depth = .ok segp → Forward beyond root segp
  | call {segp : Segment} {P Q : List Element} {first last length : Int} :
    Forward beyond root segp → Window root segp P Q first last → 0 < length →
      Fits beyond segp first last length →
      Forward beyond root (segmentFlatten beyond segp first last length).segment

theorem flatten_same (segp : Segment) (first : Int) (hlength : 0 < length) :
    segmentFlatten beyond segp first first length =
      ⟨segp, first, ⟨[], length⟩, [], none⟩ := by
  rw [segmentFlatten, if_pos hlength, manipulate, if_pos rfl]

theorem forward_positioned (hroot : root.Shaped) (hsized : root.Sized) (h : Forward beyond root segp) :
    ∃ consumed stack, Positioned True root flattenPieces segp consumed stack := by
  induction h with
  | init buf st depth hheight hinit =>
    have hdepth : depth < maxDatatypeDepth := by
      by_contra hdeep
      rw [segmentInit, if_neg hdeep] at hinit
      cases hinit
    obtain ⟨segp', hinit', _, hpos⟩ := segmentInit_spec beyond flattenPieces hroot hheight hdepth
    rw [hinit', Except.ok.injEq] at hinit
    rw [← hinit]
    exact ⟨[], _, hpos⟩
  | @call segp P Q first last length _ hwindow hlength hfits ih =>
    obtain ⟨consumed, stack, hpos⟩ := ih
    by_cases hne : first = last
    · rw [← hne, flatten_same beyond segp first hlength]
      exact ⟨consumed, stack, hpos⟩
    · rcases flatten_call beyond hroot hsized hpos hwindow hne hlength with
        ⟨_, segp', consumed', taken, stack', _, _, _, hflat⟩ | ⟨hnot, _⟩
      · exact ⟨_, _, hflat.positioned⟩
      · exact absurd hfits hnot

theorem fits_lists (hroot : root.Shaped) (hsized : root.Sized)
    (h : Forward beyond root segp) {P Q : List Element}
    (hwindow : Window root segp P Q first last) (hlength : 0 < length)
    (hfits : Fits beyond segp first last length) :
    let out := segmentFlatten beyond segp first last length
    Lists root segp first length out ∧ out.segment.ptr = segp.ptr ∧
      out.segment.streamOff ≤ out.lastp ∧ first ≤ out.lastp ∧
      (last ≠ ignoreLast → out.lastp ≤ last) ∧
      ∃ P' Q', root.elements 0 = P' ++ Q' ∧ out.lastp = streamSize flattenPieces P' := by
  obtain ⟨consumed, stack, hpos⟩ := forward_positioned beyond hroot hsized h
  by_cases hne : first = last
  · rw [← hne, flatten_same beyond segp first hlength]
    refine ⟨⟨rfl, Int.le_of_lt hlength, ?_⟩, rfl, hwindow.behind, le_refl _, fun _ => le_refl _,
      P, Q, hwindow.split, hwindow.begins⟩
    rw [Int.sub_self]
    rfl
  · rcases flatten_call beyond hroot hsized hpos hwindow hne hlength with
      ⟨_, segp', consumed', taken, stack', hptr, hsize, hrest, hflat⟩ | ⟨hnot, _⟩
    · obtain ⟨hlists, hlastp⟩ := flattened_lists hptr hsize hrest hflat
      refine ⟨hlists, hflat.ptr.trans hptr, le_of_eq hflat.lastp.symm, by rw [hlastp]; omega,
        hflat.within, consumed' ++ taken, restOf stack', ?_, ?_⟩
      · rw [hrest, List.append_assoc]
      · rw [hlastp, streamSize_append, ← hsize]
        push_cast
        rfl
    · exact absurd hfits hnot

end Call

def twoInts : Dataloop := .leaf (.vector 2 1 8) int32

end FgMpi.Traversal.Flattening
