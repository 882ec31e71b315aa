import FgMpi.Traversal.Filling

/-! `MPID_Segment_pack_vector`. -/

namespace FgMpi.Traversal.Packing
open Types.Constructors (Builtin Block)
open Machine.Regions Traversal.Dataloops
open Traversal.Manipulate Traversal.Cursors Traversal.Turning
open Traversal.Offers Traversal.Handing
open Traversal.Calls Traversal.Filling

/-- `piece_params.u.pack_vector`; `index` is the length of `vectorp`. -/
structure PackVector where
  vectorp : List Region
  length : Int
deriving Repr, DecidableEq

def usedUp (params : PackVector) (start : Int) : Prop :=
  (params.vectorp.length : Int) - 1 = params.length - 1 ∧ ¬Adjoins params.vectorp start

instance (params : PackVector) (start : Int) : Decidable (usedUp params start) :=
  inferInstanceAs (Decidable (_ ∧ _))

def addEntry (params : PackVector) (start size : Int) : PackVector :=
  if Adjoins params.vectorp start then { params with vectorp := extendLast params.vectorp size }
  else { params with vectorp := params.vectorp ++ [⟨start, size⟩] }

def contigPackToIov (blocks : Int) (elType : Builtin) (relOff bufp : Int) (params : PackVector) :
    Ret PackVector :=
  let elSize := elType.size
  let size := blocks * elSize
  if usedUp params (bufp + relOff) then ⟨0, true, params, false⟩
  else ⟨blocks, false, addEntry params (bufp + relOff) size, false⟩

/-- The loop of `MPID_Segment_vector_pack_to_iov`; the first argument is what is left of `count`. -/
def vectorPackLoop (blocks blksz stride basicSize bufp : Int) :
    Nat → Int → Int → PackVector → Ret PackVector
  | 0, blocksLeft, _, params => ⟨blocks, false, params, decide (blocksLeft ≠ 0)⟩
  | n + 1, blocksLeft, relOff, params =>
    if blocksLeft > 0 then
      let size := if blocksLeft > blksz then blksz * basicSize else blocksLeft * basicSize
      let blocksLeft := if blocksLeft > blksz then blocksLeft - blksz else 0
      if usedUp params (bufp + relOff) then
        ⟨blocks - (blocksLeft + size.tdiv basicSize), true, params, false⟩
      else
        vectorPackLoop blocks blksz stride basicSize bufp n blocksLeft (relOff + stride)
          (addEntry params (bufp + relOff) size)
    else ⟨blocks, false, params, decide (blocksLeft ≠ 0)⟩

def vectorPackToIov (blocks count blksz stride : Int) (elType : Builtin) (relOff bufp : Int)
    (params : PackVector) : Ret PackVector :=
  vectorPackLoop blocks blksz stride elType.size bufp count.toNat blocks relOff params

def packVectorPieces : Pieces PackVector where
  contigfn := true
  vectorfn := true
  blkidxfn := false
  indexfn := false
  apply := fun pc blocks bufp params =>
    match pc with
    | .contig elType relOff => contigPackToIov blocks elType relOff bufp params
    | .vector count blklen stride elType relOff =>
      vectorPackToIov blocks count blklen stride elType relOff bufp params
    -- `NULL`, they are not called
    | .blkidx _ _ _ _ _ => ⟨0, false, params, true⟩
    | .index _ _ _ _ _ => ⟨0, false, params, true⟩
  sizefn := none

def segmentPackVector (beyond : Int → Int) (segp : Segment) (first last length : Int) :
    Outcome PackVector :=
  if length > 0 then manipulate beyond packVectorPieces segp first last ⟨[], length⟩
  else ⟨segp, last, ⟨[], length⟩, [], some .assertion⟩

theorem addEntry_eq (params : PackVector) (start size : Int) :
    addEntry params start size = ⟨place params.vectorp start size, params.length⟩ := by
  unfold addEntry place
  split <;> rfl

theorem usedUp_iff (params : PackVector) (start : Int) :
    usedUp params start ↔ (params.vectorp.length : Int) = params.length ∧
      ¬Adjoins params.vectorp start := by
  unfold usedUp
  refine and_congr_left fun _ => ?_
  omega

def filled (n : Nat) (params : PackVector) (result : Nat × List Region) : Ret PackVector :=
  ⟨n - result.1, decide (0 < result.1), ⟨result.2, params.length⟩, false⟩

theorem contigPackToIov_eq {n : Nat} (hn : 0 < n) {elType : Builtin} {size : Nat}
    (hsize : elType.size = size) (relOff bufp : Int) (params : PackVector) :
    contigPackToIov n elType relOff bufp params = filled n params
      (fillBlocks params.length size bufp [⟨n, relOff⟩] n params.vectorp) := by
  unfold contigPackToIov fillBlocks
  rw [if_neg (Nat.pos_iff_ne_zero.mp hn)]
  simp only [usedUp_iff, addEntry_eq, hsize]
  split
  · simp [filled, hn]
  · simp [filled, fillBlocks]

theorem vectorPackLoop_eq (n : Nat) {v size : Nat} (hsize : 0 < size) (stride bufp : Int)
    {count left : Nat} (hleft : left ≤ count * v) (relOff : Int) (params : PackVector) :
    vectorPackLoop n v stride size bufp count left relOff params = filled n params
      (fillBlocks params.length size bufp
        ((List.range count).map fun i : Nat => ⟨v, relOff + i * stride⟩) left params.vectorp) := by
  induction count generalizing left relOff params with
  | zero =>
    obtain rfl : left = 0 := by omega
    simp [vectorPackLoop, fillBlocks, filled]
  | succ count ih =>
    rw [vectorPackLoop, strided_succ, fillBlocks]
    by_cases hzero : left = 0
    · subst hzero
      simp [filled]
    rw [if_pos (by omega), if_neg hzero]
    have hblocks : (if (left : Int) > v then ((v : Int) * size) else left * size) =
        ((min left v : Nat) : Int) * size := by
      split
      · rw [min_eq_right (by omega)]
      · rw [min_eq_left (by omega)]
    have hrest : (if (left : Int) > v then (left : Int) - v else 0) = ((left - v : Nat) : Int) := by
      split <;> omega
    have hdiv : (((min left v : Nat) : Int) * size).tdiv size = (min left v : Nat) :=
      Int.mul_tdiv_cancel _ (by omega)
    simp only [hblocks, hrest, hdiv, usedUp_iff, addEntry_eq]
    split
    · have hback : ((left - v : Nat) : Int) + (min left v : Nat) = left := by omega
      rw [hback]
      simp [filled, Nat.pos_of_ne_zero hzero]
    · refine ih ?_ _ _
      rw [Nat.succ_mul] at hleft
      omega

theorem packApply_eq {el : El} (hel : 0 < el.size) (htype : el.type.size = el.size) {n : Nat}
    (hn : 0 < n) {pc : Piece} (hpc : Proper packVectorPieces el n pc) (ptr : Int)
    (params : PackVector) : packVectorPieces.apply pc n ptr params = filled n params
      (fillBlocks params.length el.size ptr (pieceBlocks n pc) n params.vectorp) := by
  cases pc with
  | contig elType relOff =>
    obtain ⟨_, rfl⟩ := hpc
    exact contigPackToIov_eq hn htype relOff ptr params
  | vector count blklen stride elType relOff =>
    obtain ⟨_, rfl, k, v, rfl, rfl, _, _, hle⟩ := hpc
    change vectorPackLoop n v stride el.type.size ptr (k : Int).toNat n relOff params = _
    rw [htype, Int.toNat_natCast, vectorPackLoop_eq n hel stride ptr hle, pieceBlocks,
      Int.toNat_natCast, Int.toNat_natCast]
  | blkidx count blklen offsetarray elType relOff => cases hpc.1
  | index count blockarray offsetarray elType relOff => cases hpc.1

structure Packed (ptr length : Int) (params : PackVector) (taken : List Element) : Prop where
  limit : params.length = length
  room : (params.vectorp.length : Int) ≤ length
  bytes : bytes params.vectorp = elementBytes ptr taken
  positive : Positive params.vectorp
  apart : Apart params.vectorp

section Call
variable (beyond : Int → Int) {root : Dataloop} {last length : Int}

variable {ptr : Int} {m₀ : Local PackVector} {stack₀ stack : List Cursor} {taken P : List Element}

theorem call_filled (hfilled : root.Filled) {m : Local PackVector}
    (h : Along beyond ptr packVectorPieces last True root (Packed ptr length) m₀ stack₀ m stack taken)
    {o : Offer} (ho : offer beyond packVectorPieces last m = some o) {k : Nat} (hk : o.blocks = k)
    (hproper : Proper packVectorPieces o.el k o.piece) (hkpos : 0 < k) : ∃ result,
      call packVectorPieces ptr m o = filled k m.pieceparams result ∧
      Filled length o.el ptr (pieceBlocks k o.piece) k m.pieceparams.vectorp result := by
  obtain ⟨cu, below, rfl⟩ := List.exists_cons_of_ne_nil h.ne
  obtain ⟨hel, htype⟩ := offer_filled beyond hfilled h.moves.sim ho
  refine ⟨_, ?_, fillBlocks_spec length ptr o.el (pieceBlocks_pos hproper hkpos)
    h.inv.positive.nonneg (pieceBlocks_sum hproper)⟩
  rw [call, hk, ← h.inv.limit]
  exact packApply_eq hel htype hkpos hproper ptr m.pieceparams

theorem packed_handed (hfilled : root.Filled) {m : Local PackVector}
    (h : Along beyond ptr packVectorPieces last True root (Packed ptr length) m₀ stack₀ m stack taken)
    {taken₁ : List Element} {m' : Local PackVector} {stack' : List Cursor}
    (hhanded : Handed beyond packVectorPieces ptr last True root m stack taken₁ m' stack') :
    Packed ptr length m'.pieceparams (taken ++ taken₁) := by
  cases ho : offer beyond packVectorPieces last m with
  | none =>
    obtain ⟨hparams, hnil⟩ := hhanded.nothing ho
    rw [hparams, hnil rfl, List.append_nil]
    exact h.inv
  | some o =>
    obtain ⟨hparams, hblocks, htaken, k, hk, hproper, hkpos⟩ := hhanded.piece o ho
    obtain ⟨result, hcall, hfill⟩ := call_filled beyond hfilled h ho hk hproper hkpos
    obtain ⟨cu, below, rfl⟩ := List.exists_cons_of_ne_nil h.ne
    have hel := (offer_filled beyond hfilled h.moves.sim ho).1
    rw [hcall] at hparams hblocks
    have hlen : taken₁.length = k - result.1 := by
      have hret : (k : Int) - result.1 = taken₁.length := hblocks
      omega
    rw [hparams]
    refine ⟨h.inv.limit, hfill.length h.inv.room, ?_, hfill.positive hel h.inv.positive,
      hfill.apart h.inv.apart⟩
    change bytes result.2 = _
    rw [hfill.bytes, h.inv.bytes, elementBytes_append, htaken trivial, hlen,
      pieceElements_take (Nat.sub_le k result.1)]

theorem packed_sound (hfilled : root.Filled) : Sound beyond ptr packVectorPieces last True root (Packed ptr length) m₀
      stack₀ (fun _ => True) := by
  intro m stack taken halong _
  refine ⟨along_notEmpty beyond hfilled halong, ?_, ?_⟩
  · intro o ho k hk hproper hkpos
    obtain ⟨result, hcall, hfill⟩ := call_filled beyond hfilled halong ho hk hproper hkpos
    have hle := hfill.le
    refine ⟨k - result.1, ?_, Nat.sub_le k result.1, ?_⟩
    · rw [hcall, filled]
      dsimp only
      omega
    · rw [hcall]
      rfl
  · intro taken₁ m' stack' hhanded
    exact packed_handed beyond hfilled halong hhanded

theorem streamElSize_pack (el : El) : streamElSize packVectorPieces el = el.size := rfl

theorem packed_progress (hfilled : root.Filled) (hlength : 0 < length)
    {m' : Local PackVector} {stack' : List Cursor}
    (h : Ended beyond ptr packVectorPieces last True root (Packed ptr length) m₀ stack₀ m' stack'
      taken) {e : Element} {es : List Element} (hrest : restOf stack₀ = e :: es)
    (hfits : last = ignoreLast ∨ m₀.streamOff + e.el.size ≤ last) : taken ≠ [] := by
  rintro rfl
  have hsame : restOf stack' = e :: es := by
    have := h.moves.rest
    rw [hrest] at this
    exact this.symm
  rcases h.stops with hnil | ⟨m, stack, before, taken₁, halong, hsplit, hhanded, o, ho, _⟩
  · rcases hnil with hnil | ⟨e', es', hes, hlast, hover⟩
    · rw [hsame] at hnil
      cases hnil
    · rw [hsame, List.cons.injEq] at hes
      obtain ⟨rfl, _⟩ := hes
      have hstream : m'.streamOff = m₀.streamOff := by
        rw [h.moves.stream]
        simp
      rw [streamElSize_pack] at hover
      rcases hfits with hign | hle
      · exact hlast hign
      · omega
  · -- a piece function with room takes something
    obtain ⟨hbefore, hnone⟩ := List.append_eq_nil_iff.mp hsplit.symm
    subst hbefore hnone
    obtain ⟨_, hblocks, _, k, hk, hproper, hkpos⟩ := hhanded.piece o ho
    obtain ⟨result, hcall, hfill⟩ := call_filled beyond hfilled halong ho hk hproper hkpos
    have hempty := eq_nil_of_bytes halong.inv.positive halong.inv.bytes
    have hless := hfill.progress hkpos (by rw [hempty]; exact hlength)
    rw [hcall] at hblocks
    have hret : (k : Int) - result.1 = ([] : List Element).length := hblocks
    rw [List.length_nil] at hret
    omega

/-- A call stops with the data, at an element that does not end before `last`, or because its entries are used up. -/
def Stopped (ptr last length streamOff : Int) (entries : List Region) (rest : List Element) : Prop :=
  rest = [] ∨ ∃ e es, rest = e :: es ∧ ((last ≠ ignoreLast ∧ last < streamOff + e.el.size) ∨
    ((entries.length : Int) = length ∧ ¬Adjoins entries (ptr + e.disp)))

theorem packed_stopped (hroot : root.Shaped) (hfilled : root.Filled) {m' : Local PackVector} {stack' : List Cursor}
    (h : Ended beyond ptr packVectorPieces last True root (Packed ptr length) m₀ stack₀ m' stack' taken) :
    Stopped ptr last length m'.streamOff m'.pieceparams.vectorp (restOf stack') := by
  rcases h.stops with hstops | ⟨m, stack, before, taken₁, halong, _, hhanded, o, ho, hasked⟩
  · refine hstops.imp_right ?_
    rintro ⟨e, es, hes, hlast, hover⟩
    exact ⟨e, es, hes, Or.inl ⟨hlast, hover⟩⟩
  · obtain ⟨hparams, hblocks, _, k, hk, hproper, hkpos⟩ := hhanded.piece o ho
    obtain ⟨result, hcall, hfill⟩ := call_filled beyond hfilled halong ho hk hproper hkpos
    obtain ⟨cu, below, rfl⟩ := List.exists_cons_of_ne_nil halong.ne
    obtain ⟨k', hoffered⟩ := offer_spec beyond hroot halong.moves.sim halong.within
      (along_notEmpty beyond hfilled halong) ho
    obtain rfl : k' = k := by exact_mod_cast hoffered.blocks.symm.trans hk
    rw [hcall] at hparams hblocks hasked
    have hret : (k' : Int) - result.1 = taken₁.length := hblocks
    have hleft : 0 < result.1 := by
      rcases hasked with hexit | hfewer
      · exact of_decide_eq_true hexit
      · have hless : (k' : Int) - result.1 < o.blocks := hfewer
        omega
    obtain ⟨hlength, e, he, hnext⟩ := hfill.full hleft
    -- what is left of the piece is next
    have hhead : (restOf stack')[0]? = some e := by
      have hpiece := hoffered.elements trivial k' (Nat.le_refl k')
      rw [← he, ← List.getElem?_take_of_lt (show k' - result.1 < k' by omega), ← pieceElements, hpiece,
        List.getElem?_take_of_lt (by omega), hhanded.moves.rest, List.getElem?_append_right (by omega)]
      congr 1
      omega
    rw [hparams]
    cases hrest : restOf stack' with
    | nil => exact Or.inl rfl
    | cons e' es =>
      rw [hrest] at hhead
      obtain rfl : e' = e := Option.some.inj hhead
      exact Or.inr ⟨e', es, rfl, Or.inr ⟨hlength, hnext⟩⟩

structure PackCall (root : Dataloop) (segp : Segment) (P : List Element) (e : Element)
    (Q : List Element) (last length : Int) (out : Outcome PackVector) (taken rest : List Element)
    (stack' : List Cursor) : Prop where
  split : e :: Q = taken ++ rest
  positioned : Positioned True root packVectorPieces out.segment (P ++ taken) stack'
  fault : out.fault = none
  lastp : out.lastp = out.segment.streamOff
  ptr : out.segment.ptr = segp.ptr
  packed : Packed segp.ptr length out.pieceparams taken
  within : last ≠ ignoreLast → out.lastp ≤ last
  progress : last = ignoreLast ∨ (streamSize packVectorPieces P : Int) + e.el.size ≤ last → taken ≠ []
  stopped : Stopped segp.ptr last length out.lastp out.pieceparams.vectorp rest

variable {segp : Segment}

theorem packVector_call (hroot : root.Shaped) (hfilled : root.Filled) {consumed : List Element}
    (h : Positioned True root packVectorPieces segp consumed stack) {Q : List Element} {e : Element}
    (hPQ : root.elements 0 = P ++ e :: Q) {first : Int}
    (hfirst : first = streamSize packVectorPieces P) (hbehind : segp.streamOff ≤ first)
    (hlast : last = ignoreLast ∨ first < last) (hlength : 0 < length) :
    ∃ taken rest stack', PackCall root segp P e Q last length
      (segmentPackVector beyond segp first last length) taken rest stack' := by
  have hne : first ≠ last := by
    rcases hlast with rfl | hlt
    · intro heq
      have hign : ignoreLast = -1 := rfl
      omega
    · omega
  obtain ⟨segp', stack₁, log, hpos, hstack, hptr, hoff, heq⟩ := goto_spec beyond
    packVectorPieces ⟨[], length⟩ hroot hfilled (fun x hx => (elements_pos hfilled hx).1) h hPQ (List.cons_ne_nil e Q) hfirst hbehind hne
  have hwithin : last ≠ ignoreLast → segp'.streamOff ≤ last := by
    intro hign
    rw [hoff]
    exact Int.le_of_lt (hlast.resolve_left hign)
  have hstart : Packed segp'.ptr length ⟨[], length⟩ [] :=
    ⟨rfl, Int.le_of_lt hlength, rfl, positive_nil, apart_nil⟩
  obtain ⟨m', stack', taken, hprocess, hended⟩ := process_spec beyond log hroot hpos hstack
    hwithin hstart (packed_sound beyond hfilled) (fun _ _ => trivial)
  have hpos' := positioned_ended beyond hpos hended
  have hrest : restOf stack₁ = e :: Q := by
    have hall := hpos.rest
    rw [hPQ] at hall
    exact (List.append_cancel_left hall).symm
  rw [segmentPackVector, if_pos hlength, heq, hprocess]
  refine ⟨taken, restOf stack', stack', ?_, hpos', hended.moves.fault, rfl, hptr, ?_, hended.within, ?_,
    hptr ▸ packed_stopped beyond hroot hfilled hended⟩
  · rw [← hrest]
    exact hended.moves.rest
  · rw [← hptr]
    exact hended.inv
  · intro hfits
    refine packed_progress beyond hfilled hlength hended hrest (hfits.imp_right ?_)
    intro hle
    change segp'.streamOff + e.el.size ≤ last
    rw [hoff, hfirst]
    exact hle

/-- Segments that `DLOOP_Segment_init` has set up and calls have moved forward, each one to the
beginning of an element. -/
inductive Forward (beyond : Int → Int) (root : Dataloop) : Segment → Prop
  | init (buf : Int) (st : Nat → Stackelm) (depth : Nat) {segp : Segment} : root.height ≤ depth →
      segmentInit beyond buf st root depth = .ok segp → Forward beyond root segp
  | call {segp : Segment} {P Q : List Element} {e : Element} {first last length : Int} :
    Forward beyond root segp → root.elements 0 = P ++ e :: Q →
      first = streamSize packVectorPieces P → segp.streamOff ≤ first →
      last = ignoreLast ∨ first < last → 0 < length →
      Forward beyond root (segmentPackVector beyond segp first last length).segment

theorem forward_positioned (hroot : root.Shaped) (hfilled : root.Filled) (h : Forward beyond root segp) :
    ∃ consumed stack, Positioned True root packVectorPieces segp consumed stack := by
  induction h with
  | init buf st depth hheight hinit =>
    have hdepth : depth < maxDatatypeDepth := by
      by_contra hdeep
      rw [segmentInit, if_neg hdeep] at hinit
      cases hinit
    obtain ⟨segp', hinit', _, hpos⟩ := segmentInit_spec beyond packVectorPieces hroot hheight
      hdepth
    rw [hinit', Except.ok.injEq] at hinit
    rw [← hinit]
    exact ⟨[], _, hpos⟩
  | call _ hPQ hfirst hbehind hlast hlength ih =>
    obtain ⟨consumed, stack, hpos⟩ := ih
    obtain ⟨taken, rest, stack', hcall⟩ := packVector_call beyond hroot hfilled hpos hPQ hfirst
      hbehind hlast hlength
    exact ⟨_, _, hcall.positioned⟩

def packRepeatedly (beyond : Int → Int) (last : Int) : List Int → Int → Segment → List Region × Int
  | [], first, _ => ([], first)
  | length :: lengths, first, segp =>
    let out := segmentPackVector beyond segp first last length
    let more := packRepeatedly beyond last lengths out.lastp out.segment
    (out.pieceparams.vectorp ++ more.1, more.2)

theorem streamSize_pack (ptr : Int) (es : List Element) :
    (elementBytes ptr es).length = streamSize packVectorPieces es := elementBytes_length ptr es

theorem stream_window (ptr : Int) {es rest : List Element} (h : es = P ++ (taken ++ rest)) :
    ((elementBytes ptr es).drop (streamSize packVectorPieces P)).take
      (streamSize packVectorPieces taken) = elementBytes ptr taken := by
  rw [h, elementBytes_append, elementBytes_append, ← streamSize_pack ptr P,
    ← streamSize_pack ptr taken, List.drop_left, List.take_left]

structure Repeated (ptr : Int) (P R : List Element) (calls : Nat) (result : List Region × Int)
    (taken rest : List Element) : Prop where
  split : R = taken ++ rest
  bytes : bytes result.1 = elementBytes ptr taken
  lastp : result.2 = streamSize packVectorPieces (P ++ taken)
  complete : R.length ≤ calls → rest = []

theorem packRepeatedly_spec (hroot : root.Shaped) (hfilled : root.Filled) {lengths : List Int}
    (hlengths : ∀ length ∈ lengths, 0 < length) {consumed : List Element} (h : Positioned True root packVectorPieces segp consumed stack)
    {R : List Element} (hPR : root.elements 0 = P ++ R)
    (hbehind : segp.streamOff ≤ streamSize packVectorPieces P) :
    ∃ taken rest, Repeated segp.ptr P R lengths.length
      (packRepeatedly beyond (streamSize packVectorPieces (root.elements 0)) lengths
        (streamSize packVectorPieces P) segp) taken rest := by
  induction lengths generalizing segp consumed stack P R with
  | nil =>
    refine ⟨[], R, rfl, rfl, by simp [packRepeatedly], ?_⟩
    intro hle
    exact List.length_eq_zero_iff.mp (Nat.le_zero.mp hle)
  | cons length lengths ih =>
    have hlength := hlengths length List.mem_cons_self
    have hlater : ∀ l ∈ lengths, 0 < l := fun l hl => hlengths l (List.mem_cons_of_mem _ hl)
    cases R with
    | nil =>
      -- the data is at its end, and the call does nothing
      rw [List.append_nil] at hPR
      have hnoop : segmentPackVector beyond segp (streamSize packVectorPieces P)
          (streamSize packVectorPieces (root.elements 0)) length =
          ⟨segp, streamSize packVectorPieces P, ⟨[], length⟩, [], none⟩ := by
        rw [segmentPackVector, if_pos hlength, manipulate, hPR, if_pos rfl]
      obtain ⟨taken, rest, hrep⟩ := ih hlater h (by rw [List.append_nil]; exact hPR) hbehind
      refine ⟨taken, rest, hrep.split, ?_, ?_, fun _ => (List.append_eq_nil_iff.mp hrep.split.symm).2⟩
      · rw [packRepeatedly, hnoop]
        exact hrep.bytes
      · rw [packRepeatedly, hnoop]
        exact hrep.lastp
    | cons e Q =>
      have hfits : (streamSize packVectorPieces P : Int) + e.el.size ≤
          streamSize packVectorPieces (root.elements 0) := by
        rw [hPR, streamSize_append, streamSize_cons, streamElSize_pack]
        push_cast
        omega
      have hsize := (elements_pos hfilled (show e ∈ root.elements 0 by rw [hPR]; simp)).1
      have hbefore : (streamSize packVectorPieces (root.elements 0) : Int) = ignoreLast ∨
          (streamSize packVectorPieces P : Int) < streamSize packVectorPieces (root.elements 0) :=
        Or.inr (by omega)
      obtain ⟨taken, rest, stack', hcall⟩ := packVector_call beyond hroot hfilled h hPR rfl hbehind
        hbefore hlength
      have hlastp := hcall.lastp
      rw [hcall.positioned.stream] at hlastp
      have hPR' : root.elements 0 = P ++ taken ++ rest := by
        rw [hPR, hcall.split, List.append_assoc]
      obtain ⟨taken', rest', hrep⟩ := ih hlater hcall.positioned hPR'
        (by rw [hcall.positioned.stream])
      have hsplit := hrep.split
      refine ⟨taken ++ taken', rest', ?_, ?_, ?_, ?_⟩
      · rw [hcall.split, hsplit, List.append_assoc]
      · rw [packRepeatedly]
        simp only [hlastp]
        rw [bytes_append, hcall.packed.bytes, hrep.bytes, hcall.ptr, elementBytes_append]
      · rw [packRepeatedly]
        simp only [hlastp]
        rw [hrep.lastp, List.append_assoc]
      · intro hle
        have htaken := hcall.progress (Or.inr hfits)
        have hpos := List.length_pos_iff.mpr htaken
        have hlen := congrArg List.length hcall.split
        rw [List.length_append] at hlen
        have hcalls : (length :: lengths).length = lengths.length + 1 := rfl
        exact hrep.complete (by omega)

/-- The call of `MPID_Segment_pack_vector` for a window that begins with a basic element, and the calls
that go on from it until the data is at its end. -/
theorem packVector_correct (beyond : Int → Int) {root : Dataloop} (hroot : root.Shaped)
    (hfilled : root.Filled) {segp : Segment} (h : Forward beyond root segp) {P Q : List Element}
    {e : Element} (hPQ : root.elements 0 = P ++ e :: Q) {first last length : Int}
    (hfirst : first = streamSize packVectorPieces P) (hbehind : segp.streamOff ≤ first)
    (hlast : last = ignoreLast ∨ first < last) (hlength : 0 < length) :
    let out := segmentPackVector beyond segp first last length
    let entries := out.pieceparams.vectorp
    let stream := elementBytes segp.ptr (root.elements 0)
    (out.fault = none ∧ (entries.length : Int) ≤ length ∧ Apart entries ∧
      bytes entries = (stream.drop first.toNat).take (out.lastp - first).toNat ∧
      (last ≠ ignoreLast → out.lastp ≤ last) ∧
      (last = ignoreLast ∨ first + e.el.size ≤ last → first < out.lastp)) ∧
    ∀ lengths : List Int, (∀ l ∈ lengths, 0 < l) →
      let result := packRepeatedly beyond stream.length lengths first segp
      bytes result.1 = (stream.drop first.toNat).take (result.2 - first).toNat ∧
        ((e :: Q).length ≤ lengths.length →
          result.2 = stream.length ∧ bytes result.1 = stream.drop first.toNat) := by
  obtain ⟨consumed, stack, hpos⟩ := forward_positioned beyond hroot hfilled h
  obtain ⟨taken, rest, stack', hcall⟩ :=
    packVector_call beyond hroot hfilled hpos hPQ hfirst hbehind hlast hlength
  have hlastp := hcall.lastp
  rw [hcall.positioned.stream, streamSize_append] at hlastp
  have hdiff : ∀ taken' : List Element,
      (((streamSize packVectorPieces P + streamSize packVectorPieces taken' : Nat) : Int) -
        first).toNat = streamSize packVectorPieces taken' := by
    intro taken'
    omega
  have hfirst' : first.toNat = streamSize packVectorPieces P := by omega
  refine ⟨⟨hcall.fault, hcall.packed.room, hcall.packed.apart, ?_, hcall.within, ?_⟩, ?_⟩
  · rw [hlastp, hdiff, hfirst', hcall.packed.bytes,
      stream_window segp.ptr (by rw [hPQ, hcall.split])]
  · intro hfits
    rw [hlastp, hfirst]
    rw [hfirst] at hfits
    obtain ⟨x, xs, hx⟩ := List.exists_cons_of_ne_nil (hcall.progress hfits)
    have hmem : x ∈ root.elements 0 := by
      rw [hPQ, hcall.split, hx]
      simp
    have hxpos := (elements_pos hfilled hmem).1
    rw [hx, streamSize_cons, streamElSize_pack]
    push_cast
    omega
  · intro lengths hlengths
    rw [hfirst] at hbehind
    obtain ⟨taken', rest', hrep⟩ := packRepeatedly_spec beyond hroot hfilled hlengths hpos hPQ hbehind
    have hsplit : root.elements 0 = P ++ (taken' ++ rest') := by rw [hPQ, hrep.split]
    rw [hfirst, streamSize_pack]
    intro result
    have hend : result.2 = (streamSize packVectorPieces (P ++ taken') : Nat) := hrep.lastp
    have hbytes : bytes result.1 = elementBytes segp.ptr taken' := hrep.bytes
    rw [hend, hbytes, Int.toNat_natCast, streamSize_append]
    refine ⟨?_, ?_⟩
    · rw [← hfirst, hdiff, stream_window segp.ptr hsplit]
    · intro hle
      rw [hrep.complete hle, List.append_nil] at hsplit
      refine ⟨by rw [hsplit, streamSize_append], ?_⟩
      rw [hsplit, elementBytes_append, ← streamSize_pack segp.ptr P, List.drop_left]

end Call

def twoInts : Dataloop := .leaf (.vector 2 1 8) int32

theorem packVector_correct_twoInts :
    ∃ segp, segmentInit (fun _ => 0) 100 blank twoInts 1 = .ok segp ∧
      (segmentPackVector (fun _ => 0) segp 0 8 1).fault = none ∧
      0 < (segmentPackVector (fun _ => 0) segp 0 8 1).lastp := by
  have hroot : twoInts.Shaped := show 0 < 2 by decide
  have hfilled : twoInts.Filled := by
    refine ⟨?_, by decide, rfl⟩
    intro B hB
    obtain ⟨i, _, rfl⟩ := List.mem_map.mp hB
    exact Nat.one_pos
  have hdata : twoInts.elements 0 = [] ++ ⟨0, int32⟩ :: [⟨8, int32⟩] := by decide
  refine ⟨_, rfl, ?_⟩
  have hcall := packVector_correct (fun _ => 0) hroot hfilled
    (.init 100 blank 1 (by decide) rfl) hdata
    (show (0 : Int) = streamSize packVectorPieces [] from rfl) (by decide)
    (show (8 : Int) = ignoreLast ∨ (0 : Int) < 8 from Or.inr (by decide)) (show (0 : Int) < 1 by decide)
  exact ⟨hcall.1.1, hcall.1.2.2.2.2.2 (Or.inr (by decide))⟩

theorem packVector_stalls :
    ∃ segp, segmentInit (fun _ => 0) 100 blank twoInts 1 = .ok segp ∧
      (0 : Int) < (elementBytes segp.ptr (twoInts.elements 0)).length ∧
      (segmentPackVector (fun _ => 0) segp 0 2 1).lastp = 0 :=
  ⟨_, rfl, by decide, by decide⟩

section Copies
variable {handle : TypeLoop} {count : Nat}

def copyAt (handle : TypeLoop) (off : Int) : List Element :=
  match handle.loop with
  | none => [⟨off, ⟨handle.size, handle.extent, handle.basicType⟩⟩]
  | some (dl, _) => dl.elements off

def copies (handle : TypeLoop) (count : Nat) : List Element :=
  (List.range count).flatMap fun j : Nat => copyAt handle (j * handle.extent)

/-- A type without a loop is one element and has no holes; a loop has the bytes of its type. -/
structure Committed (handle : TypeLoop) : Prop where
  basic : handle.loop = none →
    (handle.size : Int) = handle.extent ∧ 0 < handle.size ∧ handle.basicType.size = handle.size
  loop : ∀ dl depth, handle.loop = some (dl, depth) → dl.Shaped ∧ dl.Filled ∧ dl.height ≤ depth ∧
    handle.size = streamSize packVectorPieces (dl.elements 0)

theorem leaf_elements (count : Nat) (el : El) (off : Int) :
    (Dataloop.leaf (.contig count) el).elements off =
      (List.range count).map fun i : Nat => (⟨off + i * el.size, el⟩ : Element) := by
  simp [Dataloop.elements, Params.blocks, blockElements]

theorem leaf_copies (count n : Nat) (el : El) :
    (Dataloop.leaf (.contig (count * n)) el).elements 0 = (List.range count).flatMap fun j : Nat =>
      (Dataloop.leaf (.contig n) el).elements (j * (n * el.size : Nat)) := by
  induction count with
  | zero => simp [leaf_elements]
  | succ count ih =>
    rw [List.range_succ, List.flatMap_append, ← ih, Nat.succ_mul]
    simp only [leaf_elements, List.flatMap_singleton, List.range_add, List.map_append, List.map_map]
    refine congrArg _ (List.map_congr_left fun i _ => ?_)
    simp
    ring

theorem contig_full {n : Nat} (hn : 0 < n) : (Params.contig n).Full := by
  intro B hB
  obtain rfl := List.mem_singleton.mp hB
  exact hn

theorem initLoop_copies (h : Committed handle) (hcount : 0 < count) :
    (initLoop handle count).1.Shaped ∧ (initLoop handle count).1.Filled ∧
      (initLoop handle count).1.height ≤ (initLoop handle count).2 ∧
      (initLoop handle count).1.elements 0 = copies handle count := by
  cases hloop : handle.loop with
  | none =>
    obtain ⟨hextent, hsize, htype⟩ := h.basic hloop
    simp only [initLoop, copies, copyAt, hloop, leaf_elements, ← hextent]
    exact ⟨trivial, ⟨contig_full hcount, hsize, htype⟩, Nat.le_refl 1,
      by simp only [Int.zero_add, List.map_eq_flatMap]⟩
  | some pair =>
    obtain ⟨dl, depth⟩ := pair
    obtain ⟨hshaped, hfilled, hheight, hsize⟩ := h.loop dl depth hloop
    have hgeneral : (Dataloop.node (.contig count) ⟨handle.size, handle.extent, handle.basicType⟩ dl).elements 0 =
        copies handle count := by
      simp [Dataloop.elements, Params.blocks, copies, copyAt, hloop]
    by_cases hone : count = 1
    · subst hone
      simp only [initLoop, hloop, copies, copyAt]
      exact ⟨hshaped, hfilled, hheight, by simp⟩
    simp only [initLoop, hloop, if_neg (Nat.ne_of_gt hcount), if_neg hone]
    split
    · rename_i n el hcontig
      split
      · rename_i hdepth
        have hleaf : dl = .leaf (.contig n) el := by
          cases dl with
          | leaf p el' => cases p <;> simp_all [contigOf]
          | node p el' dl' =>
            have hpos := height_pos dl'
            rw [Dataloop.height] at hheight
            omega
          | struct ms => simp [contigOf] at hcontig
        subst hleaf
        have hn : 0 < n := hfilled.1 ⟨n, 0⟩ (List.mem_singleton_self _)
        have hbytes : handle.size = n * el.size := by
          rw [hsize, leaf_elements]
          simp [streamSize, Function.comp_def, streamElSize_pack]
        split
        · rename_i hextent
          refine ⟨trivial, ⟨contig_full (Nat.mul_pos hcount hn), hfilled.2⟩, hheight, ?_⟩
          rw [leaf_copies, ← hbytes, hextent]
          simp only [copies, copyAt, hloop]
        · refine ⟨hcount, ⟨fun B hB => ?_, hfilled.2⟩, hheight, ?_⟩
          · obtain ⟨i, -, rfl⟩ := List.mem_map.mp hB
            exact hn
          · simp [Dataloop.elements, Params.blocks, List.flatMap_map, blockElements, copies, copyAt, hloop]
      · exact ⟨⟨trivial, contig_full hcount, hshaped⟩, hfilled, Nat.succ_le_succ hheight, hgeneral⟩
    · exact ⟨⟨trivial, contig_full hcount, hshaped⟩, hfilled, Nat.succ_le_succ hheight, hgeneral⟩

/-- Calls for a buffer of several copies hand them all out, in their order. -/
theorem packRepeatedly_copies (beyond : Int → Int) (st : Nat → Stackelm) (buf : Int) (h : Committed handle)
    (hcount : 0 < count) (hdepth : (initLoop handle count).2 < maxDatatypeDepth) :
    ∃ segp, segmentInit beyond buf st (initLoop handle count).1 (initLoop handle count).2 = .ok segp ∧
      ∀ lengths : List Int, (∀ l ∈ lengths, 0 < l) →
        let stream := elementBytes buf (copies handle count)
        let result := packRepeatedly beyond stream.length lengths 0 segp
        bytes result.1 = stream.take result.2.toNat ∧
          ((copies handle count).length ≤ lengths.length → bytes result.1 = stream ∧ result.2 = stream.length) := by
  obtain ⟨hshaped, hfilled, hheight, helements⟩ := initLoop_copies h hcount
  obtain ⟨segp, hinit, hptr, hpos⟩ := segmentInit_spec beyond packVectorPieces hshaped hheight hdepth
  refine ⟨segp, hinit, fun lengths hlengths => ?_⟩
  obtain ⟨taken, rest, hrep⟩ := packRepeatedly_spec beyond hshaped hfilled hlengths hpos
    (List.nil_append _).symm (Int.le_of_eq hpos.stream)
  subst hptr
  rw [← streamSize_pack segp.ptr ((initLoop handle count).1.elements 0)] at hrep
  rw [← helements]
  intro stream result
  have hbytes : bytes result.1 = elementBytes segp.ptr taken := hrep.bytes
  have hlastp : result.2 = streamSize packVectorPieces taken := hrep.lastp
  rw [hbytes, hlastp, Int.toNat_natCast]
  refine ⟨(stream_window (P := []) segp.ptr hrep.split).symm, fun hle => ?_⟩
  have hall := hrep.split
  rw [hrep.complete hle, List.append_nil] at hall
  exact ⟨by rw [← hall], by rw [← hall, ← streamSize_pack segp.ptr]⟩

end Copies

def gapped : TypeLoop := ⟨8, 12, int32.type, some (.leaf (.contig 2) int32, 1)⟩

theorem gapped_committed : Committed gapped := by
  refine ⟨by rintro ⟨⟩, fun dl depth h => ?_⟩
  cases h
  exact ⟨trivial, ⟨contig_full (by decide), by decide, rfl⟩, Nat.le_refl 1, rfl⟩

theorem packRepeatedly_copies_gapped :
    ∃ segp, segmentInit (fun _ => 0) 100 blank (initLoop gapped 3).1 (initLoop gapped 3).2 = .ok segp ∧
      bytes (packRepeatedly (fun _ => 0) 24 [1, 1, 1, 1, 1, 1] 0 segp).1 = elementBytes 100 (copies gapped 3) := by
  obtain ⟨segp, hinit, hpack⟩ := packRepeatedly_copies (fun _ => 0) blank 100 gapped_committed
    (show 0 < 3 by decide) (show (initLoop gapped 3).2 < maxDatatypeDepth by decide)
  exact ⟨segp, hinit, ((hpack [1, 1, 1, 1, 1, 1] (by decide)).2 (by decide)).1⟩

end FgMpi.Traversal.Packing
