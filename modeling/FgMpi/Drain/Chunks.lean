import FgMpi.Drain.Placing

/-! One request, chunk by chunk. -/

namespace FgMpi.Drain.Chunks
open Machine.Checked Machine.Ints
open Drain.LoadIov Drain.Placing

variable {δ σ β : Type} {S : Segments δ σ} {L : Layout δ σ}

/-- A caller gives a message with data, and either a user buffer or an offset between two basic elements; a buffer
that is too small is that of a receive. -/
def Admissible (L : Layout δ σ) (r : Receive δ β) : Prop :=
  0 < r.message.dataSz ∧
    match r.caller with
    | .receiveDataFound userbufSz =>
      0 ≤ userbufSz ∧ (userbufSz < r.message.dataSz → r.type = .recv) ∧ r.message.dataSz < 2 ^ 63
    | .stream offset => 0 ≤ offset ∧ L.whole r.datatype offset ∧ offset + r.message.dataSz < 2 ^ 63

structure Sizes (L : Layout δ σ) (r : Receive δ β) : Prop where
  pos : 0 < r.message.dataSz
  first_nonneg : 0 ≤ r.segmentFirst
  first_le : r.segmentFirst ≤ r.segmentSize
  size_le : r.segmentSize ≤ r.segmentFirst + r.message.dataSz
  truncated : r.segmentSize < r.segmentFirst + r.message.dataSz → r.segmentFirst = 0 ∧ r.type = .recv
  small : r.segmentFirst + r.message.dataSz < 2 ^ 63
  whole : L.whole r.datatype r.segmentFirst

theorem Admissible.sizes (hS : Documented S L) {r : Receive δ β} (h : Admissible L r) : Sizes L r := by
  obtain ⟨hpos, h⟩ := h
  cases hcaller : r.caller with
  | receiveDataFound userbufSz =>
    rw [hcaller] at h
    obtain ⟨huser, htype, hsmall⟩ := h
    have hfirst : r.segmentFirst = 0 := by
      unfold Receive.segmentFirst
      rw [hcaller]
    have hsize : r.segmentSize = if r.message.dataSz ≤ userbufSz then r.message.dataSz else userbufSz := by
      unfold Receive.segmentSize
      rw [hcaller]
    have hle : r.segmentSize ≤ r.message.dataSz ∧ 0 ≤ r.segmentSize ∧
        (r.segmentSize < r.message.dataSz → userbufSz < r.message.dataSz) := by
      rw [hsize]
      split <;> omega
    refine ⟨hpos, by omega, by omega, by omega, ?_, by omega, ?_⟩
    · intro hlt
      exact ⟨hfirst, htype (hle.2.2 (by omega))⟩
    · rw [hfirst]
      exact hS.whole_zero _
  | stream offset =>
    rw [hcaller] at h
    obtain ⟨hoffset, hwhole, hsmall⟩ := h
    have hfirst : r.segmentFirst = offset := by
      unfold Receive.segmentFirst
      rw [hcaller]
    have hsize : r.segmentSize = offset + r.message.dataSz := by
      unfold Receive.segmentSize
      rw [hcaller]
    refine ⟨hpos, by omega, by omega, by omega, by omega, by omega, ?_⟩
    rw [hfirst]
    exact hwhole

section States
variable (L : Layout δ σ) (r : Request δ σ β)

structure Direct : Prop where
  srbuf : r.srbuf = true ↔ r.receive.type.accum
  first : r.segmentFirst = r.receive.segmentFirst + r.consumed
  le : r.segmentFirst ≤ r.receive.segmentSize
  more : (r.consumed : Int) < r.recvDataSz
  whole : L.whole r.receive.datatype r.segmentFirst
  reaches : L.Reaches r.receive.datatype r.segment r.segmentFirst
  written : r.written = placed L r.receive r.consumed

structure Staged : Prop where
  notAccum : ¬ r.receive.type.accum
  srbuf : r.srbuf = true
  tmpbufSz : r.tmpbufSz = srbufSize
  off_nonneg : 0 ≤ r.tmpbufOff
  off_lt : r.tmpbufOff < srbufSize
  off_le : r.tmpbufOff ≤ r.consumed
  first : r.segmentFirst = r.receive.segmentFirst + r.consumed - r.tmpbufOff
  more : r.segmentFirst + r.tmpbufOff < r.receive.segmentSize
  whole : L.whole r.receive.datatype r.segmentFirst
  reaches : L.Reaches r.receive.datatype r.segment r.segmentFirst
  written : r.written = placed L r.receive (r.consumed - r.tmpbufOff)
  tmpbuf : ∀ k : Nat, (k : Int) < r.tmpbufOff →
    r.tmpbuf k = r.receive.message.bytes ((r.consumed - r.tmpbufOff).toNat + k)

structure Discarding : Prop where
  srbuf : r.srbuf = true → r.tmpbufSz = srbufSize
  type : r.receive.type = .recv
  base : r.receive.segmentFirst = 0
  first : r.segmentFirst = r.consumed
  full : r.receive.segmentSize ≤ r.segmentFirst
  more : (r.consumed : Int) < r.recvDataSz
  written : r.written = placed L r.receive r.receive.segmentSize

structure DirectIov (h : Handler) (len : Int) : Prop where
  srbuf : r.srbuf = true ↔ r.receive.type.accum
  nonneg : 0 ≤ len
  le : r.receive.segmentFirst + r.consumed + len ≤ r.receive.segmentSize
  written : r.written = placed L r.receive r.consumed
  iov : ∃ pieces, r.iov = pieces.map (fun piece => .user piece.1 piece.2) ∧ addresses pieces =
    L.places r.receive.datatype (r.receive.segmentFirst + r.consumed) (r.receive.segmentFirst + r.consumed + len)
  goesOn : (h = .final ∧ r.consumed + len = r.recvDataSz) ∨
    (h = .reloadIov ∧ r.consumed + len < r.recvDataSz ∧
      r.segmentFirst = r.receive.segmentFirst + r.consumed + len ∧
      L.whole r.receive.datatype r.segmentFirst ∧ L.Reaches r.receive.datatype r.segment r.segmentFirst)

structure StagedIov (h : Handler) (len : Int) : Prop where
  staged : Staged L r
  pos : 0 < len
  iov : r.iov = [.tmpbuf r.tmpbufOff len.toNat]
  last : r.segmentFirst + r.tmpbufOff + len = min r.receive.segmentSize (r.segmentFirst + srbufSize)
  goesOn : (h = .unpackSrbufComplete ∧ r.consumed + len = r.recvDataSz ∧
      r.segmentFirst + r.tmpbufOff + len = r.receive.segmentSize) ∨
    (h = .unpackSrbufReloadIov ∧ r.consumed + len < r.recvDataSz ∧
      r.segmentFirst + r.tmpbufOff + len < r.receive.segmentSize)

structure DiscardIov (h : Handler) (len : Int) : Prop where
  srbuf : r.srbuf = true
  tmpbufSz : r.tmpbufSz = srbufSize
  type : r.receive.type = .recv
  base : r.receive.segmentFirst = 0
  full : r.receive.segmentSize ≤ r.consumed
  nonneg : 0 ≤ len
  le : len ≤ srbufSize
  written : r.written = placed L r.receive r.receive.segmentSize
  iov : r.iov = [.tmpbuf 0 len.toNat]
  goesOn : (h = .final ∧ r.consumed + len = r.recvDataSz) ∨
    (h = .reloadIov ∧ r.consumed + len < r.recvDataSz ∧ r.segmentFirst = r.consumed + len)

structure Full (complete : Bool) (last : Int) : Prop where
  notAccum : ¬ r.receive.type.accum
  srbuf : r.srbuf = true
  tmpbufSz : r.tmpbufSz = srbufSize
  base_le : r.receive.segmentFirst ≤ r.segmentFirst
  lt : r.segmentFirst < last
  stops : last = min r.receive.segmentSize (r.segmentFirst + srbufSize)
  consumed : last = r.receive.segmentFirst + r.consumed
  whole : L.whole r.receive.datatype r.segmentFirst
  reaches : L.Reaches r.receive.datatype r.segment r.segmentFirst
  written : r.written = placed L r.receive (r.segmentFirst - r.receive.segmentFirst)
  tmpbuf : ∀ k : Nat, (k : Int) < last - r.segmentFirst →
    r.tmpbuf k = r.receive.message.bytes ((r.segmentFirst - r.receive.segmentFirst).toNat + k)
  goesOn : (complete = true ∧ r.consumed = r.recvDataSz ∧ last = r.receive.segmentSize) ∨
    (complete = false ∧ r.consumed < r.recvDataSz ∧ last < r.receive.segmentSize)

def AtStage : Stage → Prop
  | .load => Direct L r ∨ Staged L r ∨ Discarding L r
  | .arrive h => ∃ len, DirectIov L r h len ∨ StagedIov L r h len ∨ DiscardIov L r h len
  | .unpack complete => ∃ last, Full L r complete last
  | .done => (r.consumed : Int) = r.recvDataSz ∧
      r.written = placed L r.receive (r.receive.segmentSize - r.receive.segmentFirst)

structure Inv : Prop where
  sizes : Sizes L r.receive
  whole : L.whole r.receive.datatype r.receive.segmentSize
  segmentSize : r.segmentSize = r.receive.segmentSize
  stage : AtStage L r r.stage

end States

section Loading
variable {r : Request δ σ β} {orig : Int}

theorem toLength_eq {x : Int} (h : 0 ≤ x) (hx : x < 2 ^ 63) : toLength x = x.toNat := by
  unfold toLength
  rw [Int.emod_eq_of_lt h (by omega)]

/-- The static variable says what the request's own offset says about the end of the chunk, and a chunk that
reaches the end of the segment is the last of the message. -/
def SafeStaged (orig last : Int) (r : Request δ σ β) : Prop :=
  last ≤ r.recvDataSz + orig ∧
    (last = r.recvDataSz + orig ↔ last = r.recvDataSz + r.receive.segmentFirst) ∧
    (last = r.receive.segmentSize → last = r.recvDataSz + r.receive.segmentFirst)

theorem loadStaged_inv (hsizes : Sizes L r.receive) (hwhole : L.whole r.receive.datatype r.receive.segmentSize)
    (hsize : r.segmentSize = r.receive.segmentSize) (h : Staged L r)
    (hsafe : SafeStaged orig (min r.receive.segmentSize (r.segmentFirst + srbufSize)) r) :
    ∃ static r', loadStaged orig r = .ok (static, r') ∧ Inv L r' ∧ r'.receive = r.receive := by
  obtain ⟨hle, hagree, hlast⟩ := hsafe
  have hoff := h.off_nonneg
  have hofflt := h.off_lt
  have hmore := h.more
  have hsmall := hsizes.small
  have hsizele := hsizes.size_le
  have hfirst := h.first
  have hoffle := h.off_le
  have hbase := hsizes.first_nonneg
  -- the bytes that the entry takes
  obtain ⟨len, hlen⟩ : ∃ len, len = min r.receive.segmentSize (r.segmentFirst + srbufSize) - r.segmentFirst - r.tmpbufOff :=
    ⟨_, rfl⟩
  have hdata : (if r.segmentSize - r.segmentFirst - r.tmpbufOff > r.tmpbufSz - r.tmpbufOff then r.tmpbufSz - r.tmpbufOff
      else r.segmentSize - r.segmentFirst - r.tmpbufOff) = len := by
    rw [h.tmpbufSz, hsize, hlen]
    split <;> omega
  have hpos : 0 < len := by omega
  have htotal : r.recvDataSz = r.receive.message.dataSz := rfl
  have hlength : toLength len = len.toNat := toLength_eq (by omega) (by omega)
  have hend : r.segmentFirst + r.tmpbufOff + len = min r.receive.segmentSize (r.segmentFirst + srbufSize) := by omega
  unfold loadStaged
  rw [require_bind, if_pos (by omega)]
  simp only [hdata, hlength, Request.recvDataSz]
  rw [require_bind, if_pos (by omega)]
  by_cases hdone : r.segmentFirst - orig + len + r.tmpbufOff = r.receive.message.dataSz
  · refine ⟨none, { r with iov := [.tmpbuf r.tmpbufOff len.toNat], stage := .arrive .unpackSrbufComplete }, if_pos hdone, ?_, rfl⟩
    refine ⟨hsizes, hwhole, hsize, len, .inr (.inl ?_)⟩
    refine ⟨⟨h.notAccum, h.srbuf, h.tmpbufSz, hoff, hofflt, hoffle, hfirst, hmore, h.whole, h.reaches, h.written, h.tmpbuf⟩,
      hpos, rfl, hend, .inl ⟨rfl, ?_, ?_⟩⟩
    · show (r.consumed : Int) + len = r.recvDataSz
      omega
    · show r.segmentFirst + r.tmpbufOff + len = r.receive.segmentSize
      omega
  · refine ⟨some orig, { r with iov := [.tmpbuf r.tmpbufOff len.toNat], stage := .arrive .unpackSrbufReloadIov }, if_neg hdone, ?_, rfl⟩
    refine ⟨hsizes, hwhole, hsize, len, .inr (.inl ?_)⟩
    refine ⟨⟨h.notAccum, h.srbuf, h.tmpbufSz, hoff, hofflt, hoffle, hfirst, hmore, h.whole, h.reaches, h.written, h.tmpbuf⟩,
      hpos, rfl, hend, .inr ⟨rfl, ?_, ?_⟩⟩
    · show (r.consumed : Int) + len < r.recvDataSz
      omega
    · show r.segmentFirst + r.tmpbufOff + len < r.receive.segmentSize
      omega

theorem loadOverflow_inv (hsizes : Sizes L r.receive) (hwhole : L.whole r.receive.datatype r.receive.segmentSize)
    (hsize : r.segmentSize = r.receive.segmentSize) (h : Discarding L r) :
    ∃ static r', loadOverflow orig r = .ok (static, r') ∧ Inv L r' ∧ r'.receive = r.receive := by
  have hsmall := hsizes.small
  have hbase := h.base
  have hfirst := h.first
  have hfull := h.full
  have hmore := h.more
  have htotal : r.recvDataSz = r.receive.message.dataSz := rfl
  have hsr : srbufSize = 262144 := rfl
  have hbuffer : (if r.srbuf then r else { r with srbuf := true, tmpbufSz := srbufSize }) =
      { r with srbuf := true, tmpbufSz := srbufSize } := by
    split
    · rename_i hon
      rw [← h.srbuf hon, ← hon]
    · rfl
  unfold loadOverflow
  simp only [hbuffer]
  by_cases hlast : r.recvDataSz - r.segmentFirst ≤ srbufSize
  · have hlength : toLength (r.recvDataSz - r.segmentFirst) = (r.recvDataSz - r.segmentFirst).toNat :=
      toLength_eq (by omega) (by omega)
    rw [if_pos hlast, require_bind, if_pos h.type, hlength]
    refine ⟨_, _, rfl, ⟨hsizes, hwhole, hsize, r.recvDataSz - r.segmentFirst, .inr (.inr ?_)⟩, rfl⟩
    refine ⟨rfl, rfl, h.type, hbase, ?_, by omega, hlast, h.written, rfl, .inl ⟨rfl, ?_⟩⟩
    · show r.receive.segmentSize ≤ r.consumed
      omega
    · show (r.consumed : Int) + (r.recvDataSz - r.segmentFirst) = r.recvDataSz
      omega
  · rw [if_neg hlast, toLength_eq (by decide) (by decide)]
    refine ⟨_, _, rfl, ⟨hsizes, hwhole, hsize, srbufSize, .inr (.inr ?_)⟩, rfl⟩
    refine ⟨rfl, rfl, h.type, hbase, ?_, by decide, Int.le_refl _, h.written, rfl, .inr ⟨rfl, ?_, ?_⟩⟩
    · show r.receive.segmentSize ≤ r.consumed
      omega
    · show (r.consumed : Int) + srbufSize < r.recvDataSz
      omega
    · show r.segmentFirst + srbufSize = r.consumed + srbufSize
      omega

/-- So it is with a chunk that goes straight to the user buffer; if the load falls back on the staging buffer,
the segment can be set back. -/
def SafeChunk (L : Layout δ σ) (orig last : Int) (count : Nat) (r : Request δ σ β) : Prop :=
  (last = r.recvDataSz + orig ↔ last = r.recvDataSz + r.receive.segmentFirst) ∧
    (¬ (last = r.recvDataSz + orig ∨ r.receive.type.accum ∨ last = r.segmentSize ∨
        iovDensityMin ≤ (last - r.segmentFirst) / count) →
      L.oneLevel r.receive.datatype ∧
        SafeStaged orig (min r.receive.segmentSize (r.segmentFirst + srbufSize)) r)

def chunk (S : Segments δ σ) (r : Request δ σ β) : σ × Int × List (Int × Nat) :=
  S.vector r.receive.datatype r.segment r.segmentFirst r.segmentSize iovLimit

def SafeLoad (S : Segments δ σ) (L : Layout δ σ) (static : Option Int) (r : Request δ σ β) : Prop :=
  r.segmentFirst < r.segmentSize →
    if ¬ r.receive.type.accum ∧ r.srbuf then
      SafeStaged (static.getD r.segmentFirst) (min r.receive.segmentSize (r.segmentFirst + srbufSize)) r
    else SafeChunk L (static.getD r.segmentFirst) (chunk S r).2.1 (chunk S r).2.2.length r

theorem loadRecvIov_inv (hS : Documented S L) (h : Inv L r) (hstage : r.stage = .load) {static : Option Int}
    (hsafe : SafeLoad S L static r) :
    ∃ static' r', loadRecvIov S static r = .ok (static', r') ∧ Inv L r' ∧ r'.receive = r.receive := by
  obtain ⟨hsizes, hwhole, hsize, hkept⟩ := h
  rw [hstage] at hkept
  unfold loadRecvIov
  unfold SafeLoad chunk at hsafe
  rcases hkept with hdirect | hstaged | hdiscarding
  · have hfirst := hdirect.first
    have hle := hdirect.le
    have hmore := hdirect.more
    have hbase := hsizes.first_nonneg
    have htotal : r.recvDataSz = r.receive.message.dataSz := rfl
    by_cases hgo : r.segmentFirst < r.segmentSize
    · have hsafe := hsafe hgo
      have hnot : ¬ (¬ r.receive.type.accum ∧ r.srbuf = true) := by
        intro hboth
        exact hboth.1 (hdirect.srbuf.mp hboth.2)
      obtain ⟨segment, last, pieces, hvector, hlt, hlast, hwholeLast, hstream, hlength, hsome, hplaces⟩ :=
        hS.vector r.receive.datatype r.segment r.segmentFirst r.segmentSize iovLimit (by decide) (by omega) hgo
          hdirect.reaches hdirect.whole (by rw [hsize]; exact hwhole)
      rw [if_neg hnot, hvector] at hsafe
      obtain ⟨hagree, hback⟩ := hsafe
      have hreaches : L.Reaches r.receive.datatype segment last := .inl (by omega)
      have hiov : addresses pieces = L.places r.receive.datatype (r.receive.segmentFirst + r.consumed)
          (r.receive.segmentFirst + r.consumed + (last - r.segmentFirst)) := by
        rw [hplaces, ← hfirst]
        congr 1
        omega
      rw [if_pos hgo, if_neg hnot, require_bind, if_pos hgo, require_bind, if_pos (by omega), hvector]
      simp only [Request.recvDataSz]
      rw [require_bind, if_pos hlength, if_neg (fun hnil => hsome (List.length_eq_zero_iff.mp hnil))]
      by_cases hfinal : last = r.receive.message.dataSz + static.getD r.segmentFirst
      · have hend := hagree.mp hfinal
        refine ⟨_, _, if_pos hfinal, ⟨hsizes, hwhole, hsize, last - r.segmentFirst, .inl ?_⟩, rfl⟩
        refine ⟨hdirect.srbuf, by omega, ?_, hdirect.written, ⟨pieces, rfl, hiov⟩, .inl ⟨rfl, ?_⟩⟩
        · show r.receive.segmentFirst + r.consumed + (last - r.segmentFirst) ≤ r.receive.segmentSize
          omega
        · show (r.consumed : Int) + (last - r.segmentFirst) = r.recvDataSz
          omega
      · have hnotEnd : last ≠ r.recvDataSz + r.receive.segmentFirst := fun heq => hfinal (hagree.mpr heq)
        have hsizele := hsizes.size_le
        by_cases hgoesOn : r.receive.type.accum ∨ last = r.segmentSize ∨
            iovDensityMin ≤ (last - r.segmentFirst) / pieces.length
        · refine ⟨some (static.getD r.segmentFirst), _, (if_neg hfinal).trans (if_pos hgoesOn),
            ⟨hsizes, hwhole, hsize, last - r.segmentFirst, .inl ?_⟩, rfl⟩
          refine ⟨hdirect.srbuf, by omega, ?_, hdirect.written, ⟨pieces, rfl, hiov⟩,
            .inr ⟨rfl, ?_, ?_, hwholeLast, hreaches⟩⟩
          · show r.receive.segmentFirst + r.consumed + (last - r.segmentFirst) ≤ r.receive.segmentSize
            omega
          · show (r.consumed : Int) + (last - r.segmentFirst) < r.recvDataSz
            omega
          · show last = r.receive.segmentFirst + r.consumed + (last - r.segmentFirst)
            omega
        · have hnotAccum : ¬ r.receive.type.accum := fun haccum => hgoesOn (.inl haccum)
          have hoff : r.srbuf = false := by
            rw [← Bool.not_eq_true]
            exact fun hon => hnotAccum (hdirect.srbuf.mp hon)
          obtain ⟨hone, hstagedSafe⟩ := hback (fun hor => hor.elim hfinal hgoesOn)
          rw [if_neg hfinal, if_neg hgoesOn, require_bind, if_pos hoff]
          have hstaged : Staged L { r with
              segment := segment
              iov := pieces.map fun piece : Int × Nat => .user piece.1 piece.2
              srbuf := true
              tmpbufSz := srbufSize
              tmpbufOff := 0 } := by
            refine ⟨hnotAccum, rfl, rfl, Int.le_refl 0, by show (0 : Int) < srbufSize; decide, Int.natCast_nonneg _,
              ?_, ?_, hdirect.whole, .inr hone, ?_, ?_⟩
            · show r.segmentFirst = r.receive.segmentFirst + r.consumed - 0
              omega
            · show r.segmentFirst + 0 < r.receive.segmentSize
              omega
            · show r.written = placed L r.receive (r.consumed - 0)
              rw [Int.sub_zero]
              exact hdirect.written
            · intro k hk
              exact absurd hk (Int.not_lt.mpr (Int.natCast_nonneg k))
          exact loadStaged_inv hsizes hwhole hsize hstaged hstagedSafe
    · have hend : r.segmentFirst = r.receive.segmentSize := by omega
      have htruncated := hsizes.truncated (by omega)
      rw [if_neg hgo]
      apply loadOverflow_inv hsizes hwhole hsize
      refine ⟨?_, htruncated.2, htruncated.1, ?_, by omega, hmore, ?_⟩
      · intro hon
        have haccum := hdirect.srbuf.mp hon
        rw [htruncated.2] at haccum
        exact absurd haccum (by decide)
      · omega
      · rw [hdirect.written, ← hend, hfirst, htruncated.1, Int.zero_add]
  · have hmore := hstaged.more
    have hoff := hstaged.off_nonneg
    have hgo : r.segmentFirst < r.segmentSize := by omega
    have hboth : ¬ r.receive.type.accum ∧ r.srbuf = true := ⟨hstaged.notAccum, hstaged.srbuf⟩
    have hsafe := hsafe hgo
    rw [if_pos hboth] at hsafe
    rw [if_pos hgo, if_pos hboth]
    exact loadStaged_inv hsizes hwhole hsize hstaged hsafe
  · have hfull := hdiscarding.full
    rw [if_neg (by omega)]
    exact loadOverflow_inv hsizes hwhole hsize hdiscarding

end Loading

section Filling
variable {r : Request δ σ β} {h : Handler} {len : Int}

section
variable (hsizes : Sizes L r.receive) (hwhole : L.whole r.receive.datatype r.receive.segmentSize)
variable (hsize : r.segmentSize = r.receive.segmentSize)
include hsizes hwhole hsize

theorem fill_direct (hiov : DirectIov L r h len) : Inv L (arrive h r) := by
  obtain ⟨pieces, hpieces, haddresses⟩ := hiov.iov
  have hnonneg := hiov.nonneg
  have hle := hiov.le
  have hsizele := hsizes.size_le
  have htotal : r.recvDataSz = r.receive.message.dataSz := rfl
  have hcount : (addresses pieces).length = len.toNat := by
    rw [haddresses, Layout.places, List.length_map, List.length_range]
    omega
  have hadd := placed_add (L := L) (r := r.receive) (Int.natCast_nonneg r.consumed) hnonneg
  have hwritten : r.written ++ ((addresses pieces).mapIdx fun k address =>
      (address, r.receive.message.bytes (r.consumed + k))) = placed L r.receive (r.consumed + len) := by
    rw [hadd, hiov.written, haddresses]
    rfl
  have hfilled : r.iov.foldl fill r = { r with
      written := placed L r.receive (r.consumed + len)
      consumed := r.consumed + len.toNat } := by
    apply (congrArg (List.foldl fill r) hpieces).trans
    rw [foldl_fill_user, hwritten, hcount]
  unfold arrive
  rw [hfilled]
  rcases hiov.goesOn with ⟨rfl, hend⟩ | ⟨rfl, hmore, hfirst, hwholeFirst, hreaches⟩
  · refine ⟨hsizes, hwhole, hsize, ?_, ?_⟩
    · show ((r.consumed + len.toNat : Nat) : Int) = r.recvDataSz
      omega
    · show placed L r.receive (r.consumed + len) =
        placed L r.receive (r.receive.segmentSize - r.receive.segmentFirst)
      congr 1
      omega
  · refine ⟨hsizes, hwhole, hsize, .inl ⟨hiov.srbuf, ?_, ?_, ?_, hwholeFirst, hreaches, ?_⟩⟩
    · show r.segmentFirst = r.receive.segmentFirst + ((r.consumed + len.toNat : Nat) : Int)
      omega
    · show r.segmentFirst ≤ r.receive.segmentSize
      omega
    · show ((r.consumed + len.toNat : Nat) : Int) < r.recvDataSz
      omega
    · show placed L r.receive (r.consumed + len) = placed L r.receive ((r.consumed + len.toNat : Nat) : Int)
      congr 1
      omega

theorem fill_staged (hiov : StagedIov L r h len) : Inv L (arrive h r) := by
  obtain ⟨hstaged, hpos, hentry, hlast, hgoesOn⟩ := hiov
  have hoff := hstaged.off_nonneg
  have hoffle := hstaged.off_le
  have hfirst := hstaged.first
  have htotal : r.recvDataSz = r.receive.message.dataSz := rfl
  have hfilled : r.iov.foldl fill r = { r with
      tmpbuf := fun k => if r.tmpbufOff.toNat ≤ k ∧ k < r.tmpbufOff.toNat + len.toNat then
        r.receive.message.bytes (r.consumed + (k - r.tmpbufOff.toNat)) else r.tmpbuf k
      consumed := r.consumed + len.toNat } :=
    congrArg (List.foldl fill r) hentry
  have hfull : ∀ complete, ((complete = true ∧ r.consumed + len = r.recvDataSz ∧
        r.segmentFirst + r.tmpbufOff + len = r.receive.segmentSize) ∨
      (complete = false ∧ r.consumed + len < r.recvDataSz ∧
        r.segmentFirst + r.tmpbufOff + len < r.receive.segmentSize)) →
      Full L { r.iov.foldl fill r with stage := .unpack complete } complete (r.segmentFirst + r.tmpbufOff + len) := by
    intro complete hgoes
    rw [hfilled]
    refine ⟨hstaged.notAccum, hstaged.srbuf, hstaged.tmpbufSz, ?_, ?_, hlast, ?_, hstaged.whole, hstaged.reaches,
      ?_, ?_, ?_⟩
    · show r.receive.segmentFirst ≤ r.segmentFirst
      omega
    · show r.segmentFirst < r.segmentFirst + r.tmpbufOff + len
      omega
    · show r.segmentFirst + r.tmpbufOff + len = r.receive.segmentFirst + ((r.consumed + len.toNat : Nat) : Int)
      omega
    · show r.written = placed L r.receive (r.segmentFirst - r.receive.segmentFirst)
      rw [hstaged.written]
      congr 1
      omega
    · intro k hk
      show (if r.tmpbufOff.toNat ≤ k ∧ k < r.tmpbufOff.toNat + len.toNat then
        r.receive.message.bytes (r.consumed + (k - r.tmpbufOff.toNat)) else r.tmpbuf k) = _
      replace hk : (k : Int) < r.segmentFirst + r.tmpbufOff + len - r.segmentFirst := hk
      by_cases hold : (k : Int) < r.tmpbufOff
      · rw [if_neg (by omega), hstaged.tmpbuf k hold]
        congr 2
        show (r.consumed - r.tmpbufOff).toNat = (r.segmentFirst - r.receive.segmentFirst).toNat
        omega
      · rw [if_pos (by omega)]
        congr 1
        show r.consumed + (k - r.tmpbufOff.toNat) = (r.segmentFirst - r.receive.segmentFirst).toNat + k
        omega
    · rcases hgoes with ⟨hcomplete, hend, hsegment⟩ | ⟨hcomplete, hmore, hsegment⟩
      · refine .inl ⟨hcomplete, ?_, hsegment⟩
        show ((r.consumed + len.toNat : Nat) : Int) = r.recvDataSz
        omega
      · refine .inr ⟨hcomplete, ?_, hsegment⟩
        show ((r.consumed + len.toNat : Nat) : Int) < r.recvDataSz
        omega
  have hkept : ∀ complete, Full L { r.iov.foldl fill r with stage := .unpack complete } complete
      (r.segmentFirst + r.tmpbufOff + len) → Inv L { r.iov.foldl fill r with stage := .unpack complete } := by
    intro complete hbuffer
    rw [hfilled] at hbuffer ⊢
    exact ⟨hsizes, hwhole, hsize, _, hbuffer⟩
  rcases hgoesOn with ⟨rfl, hgoes⟩ | ⟨rfl, hgoes⟩
  · exact hkept true (hfull true (.inl ⟨rfl, hgoes⟩))
  · exact hkept false (hfull false (.inr ⟨rfl, hgoes⟩))

theorem fill_discard (hiov : DiscardIov L r h len) : Inv L (arrive h r) := by
  have hnonneg := hiov.nonneg
  have hbase := hiov.base
  have hfull := hiov.full
  have htotal : r.recvDataSz = r.receive.message.dataSz := rfl
  obtain ⟨tmpbuf, hfilled⟩ : ∃ tmpbuf, r.iov.foldl fill r =
      { r with tmpbuf := tmpbuf, consumed := r.consumed + len.toNat } :=
    ⟨_, congrArg (List.foldl fill r) hiov.iov⟩
  unfold arrive
  rw [hfilled]
  rcases hiov.goesOn with ⟨rfl, hend⟩ | ⟨rfl, hmore, hfirst⟩
  · refine ⟨hsizes, hwhole, hsize, ?_, ?_⟩
    · show ((r.consumed + len.toNat : Nat) : Int) = r.recvDataSz
      omega
    · show r.written = placed L r.receive (r.receive.segmentSize - r.receive.segmentFirst)
      rw [hiov.written, hbase, Int.sub_zero]
  · refine ⟨hsizes, hwhole, hsize, .inr (.inr ⟨fun _ => hiov.tmpbufSz, hiov.type, hbase, ?_, ?_, ?_, hiov.written⟩)⟩
    · show r.segmentFirst = ((r.consumed + len.toNat : Nat) : Int)
      omega
    · show r.receive.segmentSize ≤ r.segmentFirst
      omega
    · show ((r.consumed + len.toNat : Nat) : Int) < r.recvDataSz
      omega

end

theorem arrive_inv (hinv : Inv L r) (hstage : r.stage = .arrive h) : Inv L (arrive h r) := by
  obtain ⟨hsizes, hwhole, hsize, hkept⟩ := hinv
  rw [hstage] at hkept
  obtain ⟨len, hdirect | hstaged | hdiscard⟩ := hkept
  · exact fill_direct hsizes hwhole hsize hdirect
  · exact fill_staged hsizes hwhole hsize hstaged
  · exact fill_discard hsizes hwhole hsize hdiscard

end Filling

section Unpacking
variable {r : Request δ σ β} {complete : Bool} {last : Int}

theorem places_tmpbuf {first last' : Int} {bytes : Nat → β} {tmpbuf : Nat → β} {d : δ} {n : Nat}
    (h : ∀ k : Nat, (k : Int) < last' - first → tmpbuf k = bytes (n + k)) :
    ((L.places d first last').mapIdx fun k address => (address, tmpbuf k)) =
      (L.places d first last').mapIdx fun k address => (address, bytes (n + k)) := by
  apply List.ext_getElem
  · simp
  · intro k hk _
    rw [List.length_mapIdx, Layout.places, List.length_map, List.length_range] at hk
    rw [List.getElem_mapIdx, List.getElem_mapIdx, h k (by omega)]

theorem unpackSrbuf_inv (hS : Documented S L) (hinv : Inv L r) (hstage : r.stage = .unpack complete)
    (hsmall : r.segmentFirst + r.tmpbufSz < 2 ^ 31) :
    Inv L { unpackSrbuf S r with stage := if complete then .done else .load } ∧
      (unpackSrbuf S r).receive = r.receive := by
  obtain ⟨hsizes, hwhole, hsize, hkept⟩ := hinv
  rw [hstage] at hkept
  obtain ⟨last, hfull⟩ := hkept
  have hbase := hsizes.first_nonneg
  have hbasele := hfull.base_le
  have hlt := hfull.lt
  have hstops := hfull.stops
  have hconsumed := hfull.consumed
  have htmp := hfull.tmpbufSz
  have hsr : srbufSize = 262144 := rfl
  have hlast : (if r.segmentSize < toInt (r.segmentFirst + r.tmpbufSz) then toInt r.segmentSize
      else toInt (r.segmentFirst + r.tmpbufSz)) = last := by
    rw [toInt_eq (by omega) hsmall]
    split
    · rw [toInt_eq (by omega) (by omega)]
      omega
    · omega
  obtain ⟨segment, last', places, hunpack, hfirst', hlast', hwhole', hstream, helement, hfits, hplaces⟩ :=
    hS.unpack r.receive.datatype r.segment r.segmentFirst last (by omega) hlt hfull.reaches hfull.whole
  have hsmallElement := hS.element_le r.receive.datatype
  have hwritten : r.written ++ (places.mapIdx fun k address => (address, r.tmpbuf k)) =
      placed L r.receive (last' - r.receive.segmentFirst) := by
    have hadd := placed_add (L := L) (r := r.receive) (a := r.segmentFirst - r.receive.segmentFirst)
      (b := last' - r.segmentFirst) (by omega) (by omega)
    have hsum : r.segmentFirst - r.receive.segmentFirst + (last' - r.segmentFirst) = last' - r.receive.segmentFirst := by
      omega
    have hfrom : r.receive.segmentFirst + (r.segmentFirst - r.receive.segmentFirst) = r.segmentFirst := by omega
    have hto : r.segmentFirst + (last' - r.segmentFirst) = last' := by omega
    rw [hsum, hfrom, hto] at hadd
    rw [hadd, hfull.written, hplaces]
    congr 1
    apply places_tmpbuf
    intro k hk
    exact hfull.tmpbuf k (by omega)
  unfold unpackSrbuf
  simp only [hlast, hunpack, hwritten]
  rcases hfull.goesOn with ⟨rfl, hend, hsegment⟩ | ⟨rfl, hmore, hsegment⟩
  · have hall : last' = last := hfits (by rw [hsegment]; exact hwhole)
    rw [if_neg (by omega), if_pos (by omega), if_neg (fun hne => hne hall)]
    refine ⟨⟨hsizes, hwhole, hsize, hend, ?_⟩, rfl⟩
    show placed L r.receive (last' - r.receive.segmentFirst) = _
    rw [hall, hsegment]
  · rw [if_neg (by omega), if_neg (by omega), toInt_eq (by omega) (by omega)]
    refine ⟨⟨hsizes, hwhole, hsize, .inr (.inl ?_)⟩, rfl⟩
    refine ⟨hfull.notAccum, hfull.srbuf, htmp, ?_, ?_, ?_, ?_, ?_, hwhole', ?_, ?_, ?_⟩
    · show 0 ≤ last - last'
      omega
    · show last - last' < srbufSize
      omega
    · show last - last' ≤ r.consumed
      omega
    · show last' = r.receive.segmentFirst + r.consumed - (last - last')
      omega
    · show last' + (last - last') < r.receive.segmentSize
      omega
    · exact .inl (by show L.streamOff segment ≤ last'; omega)
    · show placed L r.receive (last' - r.receive.segmentFirst) = placed L r.receive (r.consumed - (last - last'))
      congr 1
      omega
    · intro k hk
      replace hk : (k : Int) < last - last' := hk
      show (if 0 < last - last' then
          fun k => if k < (last - last').toNat then r.tmpbuf (k + (last' - r.segmentFirst).toNat) else r.tmpbuf k
        else r.tmpbuf) k = r.receive.message.bytes ((r.consumed - (last - last')).toNat + k)
      rw [if_pos (by omega), if_pos (by omega), hfull.tmpbuf _ (by omega)]
      congr 1
      omega

end Unpacking

end FgMpi.Drain.Chunks
