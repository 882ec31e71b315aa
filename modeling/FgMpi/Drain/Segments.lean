import FgMpi.Drain.Placing
import FgMpi.Drain.SendIov
import FgMpi.Traversal.Windows

/-! `MPID_Segment_pack_vector` and `MPID_Segment_unpack_vector` do what the requests rely on. -/

namespace FgMpi.Drain.Segments
open Machine.Regions Zerocopy.Copies Drain.SendIov
open Traversal.Dataloops Traversal.Manipulate Traversal.Cursors Traversal.Turning
open Traversal.Calls Traversal.Filling Traversal.Packing Traversal.Windows

/-- A buffer as `MPID_Segment_init` sees it; the address of the buffer is added by the caller. -/
structure Buffer where
  root : Dataloop
  depth : Nat
  shaped : root.Shaped
  filled : root.Filled
  height : root.height ≤ depth
  depth_lt : depth < maxDatatypeDepth
  small : ∀ e ∈ root.elements 0, e.el.size ≤ 32

/-- So many copies of a committed datatype. -/
def copiesBuffer {handle : TypeLoop} {count : Nat} (h : Committed handle) (hcount : 0 < count)
    (hdepth : (initLoop handle count).2 < maxDatatypeDepth) (hsmall : ∀ e ∈ copies handle count, e.el.size ≤ 32) :
    Buffer where
  root := (initLoop handle count).1
  depth := (initLoop handle count).2
  shaped := (initLoop_copies h hcount).1
  filled := (initLoop_copies h hcount).2.1
  height := (initLoop_copies h hcount).2.2.1
  depth_lt := hdepth
  small := by
    rw [(initLoop_copies h hcount).2.2.2]
    exact hsmall

def Buffer.elements (B : Buffer) : List Element := B.root.elements 0

def Buffer.stream (B : Buffer) : List Int := elementBytes 0 B.elements

def Buffer.stops (B : Buffer) (i : Nat) : Bool := B.elements.inits.any fun P => size P == i

theorem Buffer.stops_iff (B : Buffer) (i : Nat) : B.stops i = true ↔ ∃ P Q, B.elements = P ++ Q ∧ i = size P := by
  unfold Buffer.stops
  rw [List.any_eq_true]
  constructor
  · rintro ⟨P, hP, hsize⟩
    obtain ⟨Q, hQ⟩ := (List.mem_inits P _).mp hP
    exact ⟨P, Q, hQ.symm, (beq_iff_eq.mp hsize).symm⟩
  · rintro ⟨P, Q, hsplit, hsize⟩
    exact ⟨P, (List.mem_inits P _).mpr ⟨Q, hsplit.symm⟩, beq_iff_eq.mpr hsize.symm⟩

/-- Where the packed bytes lie, and where the segment code can stop. -/
def Buffer.layout (B : Buffer) : Layout where
  size := size B.elements
  contig := false
  trueLb := 0
  disp := fun i => B.stream.getD i 0
  stops := B.stops
  contig_disp := nofun
  stops_zero := (B.stops_iff 0).mpr ⟨[], _, rfl, rfl⟩
  stops_size := (B.stops_iff _).mpr ⟨_, [], (List.append_nil _).symm, rfl⟩
  stops_le := by
    intro i hi
    obtain ⟨P, Q, hsplit, rfl⟩ := (B.stops_iff i).mp hi
    rw [hsplit, size_append]
    exact Nat.le_add_right _ _
  fine := by
    intro x hx
    obtain ⟨W, R, hwindow, hWR⟩ := exists_window (List.nil_append B.elements).symm (show 0 = size [] from rfl) (Nat.zero_le x)
    refine ⟨size W, hwindow.within, (B.stops_iff _).mpr ⟨W, R, hwindow.split, rfl⟩, ?_⟩
    cases R with
    | nil =>
      rw [hWR, List.append_nil] at hx
      omega
    | cons e more =>
      have hnext := hwindow.next e more rfl
      have hsmall : e.el.size ≤ 32 := B.small e (show e ∈ B.elements by rw [hWR]; simp)
      rw [List.nil_append] at hnext
      omega

theorem drop_take_getD {xs : List Int} {a n : Nat} (h : a + n ≤ xs.length) :
    (xs.drop a).take n = (List.range' a n).map fun i => xs.getD i 0 := by
  refine List.ext_getElem (by simp; omega) fun i hi _ => ?_
  have hi' : a + i < xs.length := by
    simp at hi
    omega
  simp [hi']

theorem addresses_taken (B : Buffer) {P taken rest : List Element} (hsplit : B.elements = P ++ (taken ++ rest)) :
    elementBytes 0 taken = addresses B.layout (size P) (size P + size taken) := by
  rw [addresses, Nat.add_sub_cancel_left]
  refine (stream_window 0 hsplit).symm.trans (drop_take_getD ?_)
  rw [streamSize_pack, hsplit, streamSize_append, streamSize_append]
  omega

theorem lastStop_window (B : Buffer) {P W R : List Element} {first last : Nat}
    (h : Window B.elements P W R first last) : B.layout.lastStop last = size (P ++ W) := by
  have hsplit : B.elements = P ++ W ++ R := by rw [h.split, List.append_assoc]
  refine Nat.le_antisymm ?_ (le_lastStop h.within ((B.stops_iff _).mpr ⟨P ++ W, R, hsplit, rfl⟩))
  obtain ⟨P', Q', hsplit', hsize⟩ := (B.stops_iff _).mp (@lastStop_stops B.layout last)
  have hle := @lastStop_le B.layout last
  rw [hsize] at hle ⊢
  by_contra hlt
  cases R with
  | nil =>
    have hall : size (P ++ W) = size P' + size Q' := by rw [← size_append, ← hsplit', hsplit, List.append_nil]
    omega
  | cons e more =>
    have hstep : size (P ++ W) + e.el.size ≤ size P' := prefix_next hsplit hsplit' (Nat.lt_of_not_le hlt)
    have hnext := h.next e more rfl
    omega

section Entries
variable (beyond : Int → Int) (st : Nat → Stackelm) (B : Buffer) {first last : Nat}

theorem Buffer.size_pos {e : Element} (he : e ∈ B.elements) : 0 < e.el.size := (elements_pos B.filled he).1

theorem eq_nil_of_size {es : List Element} (hsize : ∀ e ∈ es, 0 < e.el.size) (h : size es = 0) : es = [] := by
  cases es with
  | nil => rfl
  | cons e es =>
    have he := hsize e List.mem_cons_self
    rw [size_cons] at h
    omega

def entries (first last n : Nat) : List Region :=
  if B.layout.stops first = true ∧ first < min last B.layout.size then
    match segmentInit beyond 0 st B.root B.depth with
    | .ok segp => (segmentPackVector beyond segp first last n).pieceparams.vectorp
    | .error _ => []
  else []

/-- What the entries describe of the elements from `first` on. -/
structure Entries (first last n : Nat) (rs : List Region) (P W R taken rest : List Element) : Prop where
  window : Window B.elements P W R first last
  split : W = taken ++ rest
  room : rs.length ≤ n
  bytes : bytes rs = elementBytes 0 taken
  positive : Positive rs
  full : rest ≠ [] → rs.length = n

variable {B} {P W R : List Element} {segp : Segment} {consumed : List Element} {stack : List Cursor}

theorem packVector_inside (h : Positioned True B.root packVectorPieces segp consumed stack) (hptr : segp.ptr = 0)
    (hwindow : Window B.elements P W R first last) (hinside : first < min last B.layout.size)
    (hbehind : segp.streamOff ≤ first) {n : Nat} (hn : 0 < n) :
    ∃ taken rest stack', Described 0 n P W (segmentPackVector beyond segp first last n) taken rest ∧
      Positioned True B.root packVectorPieces (segmentPackVector beyond segp first last n).segment (P ++ taken) stack' ∧
      (segmentPackVector beyond segp first last n).segment.ptr = 0 := by
  have hmore : W ++ R ≠ [] := by
    intro hnil
    have hall : B.layout.size = size P := by
      rw [show B.layout.size = size B.elements from rfl, hwindow.split, hnil, List.append_nil]
    have hstart := hwindow.start
    omega
  have hcall := packVector_window beyond B.shaped B.filled h hwindow hmore (by omega) hbehind (Int.natCast_pos.mpr hn)
  rwa [hptr] at hcall

variable (B) in
theorem entries_spec (n : Nat) (hstop : B.layout.stops first = true) (hle : first ≤ last) :
    ∃ P W R taken rest, Entries B first last n (entries beyond st B first last n) P W R taken rest := by
  obtain ⟨P, Q, hsplit, hfirst⟩ := (B.stops_iff first).mp hstop
  obtain ⟨W, R, hwindow, rfl⟩ := exists_window hsplit hfirst hle
  have hsize : ∀ e ∈ W, 0 < e.el.size := fun e he => B.size_pos (by rw [hsplit]; simp [he])
  unfold entries
  by_cases hinside : first < min last B.layout.size
  · rw [if_pos ⟨hstop, hinside⟩]
    obtain ⟨segp, hinit, hptr, hpos⟩ : ∃ segp, segmentInit beyond 0 st B.root B.depth = .ok segp ∧ segp.ptr = 0 ∧
        Positioned True B.root packVectorPieces segp [] [⟨B.root, 0, 0, 0⟩] :=
      segmentInit_spec beyond packVectorPieces B.shaped B.height B.depth_lt
    rw [hinit]
    dsimp only
    rcases Nat.eq_zero_or_pos n with rfl | hn
    · rw [segmentPackVector, if_neg (by decide)]
      exact ⟨P, W, R, [], W, hwindow, rfl, Nat.le_refl 0, rfl, positive_nil, fun _ => rfl⟩
    · have hbehind : segp.streamOff ≤ first := by
        rw [hpos.stream]
        exact Int.natCast_nonneg _
      obtain ⟨taken, rest, _, hcall, _⟩ := packVector_inside beyond hpos hptr hwindow hinside hbehind hn
      refine ⟨P, W, R, taken, rest, hwindow, hcall.split, by exact_mod_cast hcall.packed.room, hcall.packed.bytes,
        hcall.packed.positive, fun hrest => ?_⟩
      obtain ⟨e, more, hmore⟩ := List.exists_cons_of_ne_nil hrest
      exact_mod_cast (hcall.full e more hmore).1
  · rw [if_neg fun h => hinside h.2]
    have hnone : W = [] := by
      refine eq_nil_of_size hsize ?_
      have hwithin := hwindow.within
      have hall : B.layout.size = size P + (size W + size R) := by
        rw [← size_append, ← size_append, ← hsplit]
        rfl
      rw [size_append] at hwithin
      omega
    exact ⟨P, W, R, [], [], hwindow, hnone, Nat.zero_le n, rfl, positive_nil, fun h => absurd rfl h⟩

theorem entries_none {n : Nat} (h : ¬(B.layout.stops first = true ∧ first ≤ last)) :
    entries beyond st B first last n = [] := by
  unfold entries
  refine if_neg fun hboth => h ⟨hboth.1, ?_⟩
  omega

variable (B) in
/-- What is relied on for a send request. -/
def packVector : PackVector B.layout where
  entries := entries beyond st B
  length_le := fun first last n => by
    by_cases h : B.layout.stops first = true ∧ first ≤ last
    · obtain ⟨P, W, R, taken, rest, hspec⟩ := entries_spec beyond st B n h.1 h.2
      exact hspec.room
    · rw [entries_none beyond st h]
      exact Nat.zero_le n
  positive := fun first last n => by
    by_cases h : B.layout.stops first = true ∧ first ≤ last
    · obtain ⟨P, W, R, taken, rest, hspec⟩ := entries_spec beyond st B n h.1 h.2
      exact hspec.positive
    · rw [entries_none beyond st h]
      exact positive_nil
  bytes_eq := fun first last n => by
    by_cases h : B.layout.stops first = true ∧ first ≤ last
    · obtain ⟨P, W, R, taken, rest, hspec⟩ := entries_spec beyond st B n h.1 h.2
      have hsplit := hspec.window.split
      rw [hspec.split, List.append_assoc] at hsplit
      rw [hspec.bytes, streamSize_pack, hspec.window.start]
      exact addresses_taken B hsplit
    · rw [entries_none beyond st h, bytes_nil, addresses]
      simp
  stop := fun first last n hstop => by
    by_cases hle : first ≤ last
    · obtain ⟨P, W, R, taken, rest, hspec⟩ := entries_spec beyond st B n hstop hle
      refine (B.stops_iff _).mpr ⟨P ++ taken, rest ++ R, ?_, ?_⟩
      · rw [hspec.window.split, hspec.split, List.append_assoc, List.append_assoc]
      · rw [hspec.bytes, streamSize_pack, hspec.window.start, size_append]
        rfl
    · rw [entries_none beyond st fun h => hle h.2]
      exact hstop
  le := fun first last n hle => by
    by_cases hstop : B.layout.stops first = true
    · obtain ⟨P, W, R, taken, rest, hspec⟩ := entries_spec beyond st B n hstop hle
      have hwithin := hspec.window.within
      rw [hspec.split, size_append, size_append] at hwithin
      rw [hspec.bytes, streamSize_pack, hspec.window.start, ← size]
      omega
    · rw [entries_none beyond st fun h => hstop h.1]
      exact hle
  full := fun first last n hstop hle hless => by
    obtain ⟨P, W, R, taken, rest, hspec⟩ := entries_spec beyond st B n hstop hle
    have hall : rest = [] := by
      by_contra hmore
      have hfull := hspec.full hmore
      omega
    have htaken : W = taken := by rw [hspec.split, hall, List.append_nil]
    rw [lastStop_window B hspec.window, hspec.bytes, streamSize_pack, hspec.window.start, htaken, size_append]
    rfl

/-- Calls that go on give the entries of a segment that has just been set up. -/
theorem entries_forward (h : Positioned True B.root packVectorPieces segp consumed stack) (hptr : segp.ptr = 0)
    (hbehind : segp.streamOff ≤ first) (hstop : B.layout.stops first = true) (hinside : first < min last B.layout.size)
    {n : Nat} (hn : 0 < n) :
    (segmentPackVector beyond segp first last n).pieceparams.vectorp = (packVector beyond st B).entries first last n := by
  obtain ⟨P, Q, hsplit, hfirst⟩ := (B.stops_iff first).mp hstop
  obtain ⟨W, R, hwindow, rfl⟩ := exists_window hsplit hfirst (show first ≤ last by omega)
  have hsize : ∀ e ∈ W, 0 < e.el.size := fun e he => B.size_pos (by rw [hsplit]; simp [he])
  obtain ⟨fresh, hinit, hfresh, hpos⟩ : ∃ segp, segmentInit beyond 0 st B.root B.depth = .ok segp ∧ segp.ptr = 0 ∧
      Positioned True B.root packVectorPieces segp [] [⟨B.root, 0, 0, 0⟩] :=
    segmentInit_spec beyond packVectorPieces B.shaped B.height B.depth_lt
  have hstart : fresh.streamOff ≤ first := by
    rw [hpos.stream]
    exact Int.natCast_nonneg _
  obtain ⟨_, _, _, hcall, _⟩ := packVector_inside beyond h hptr hwindow hinside hbehind hn
  obtain ⟨_, _, _, hfirst', _⟩ := packVector_inside beyond hpos hfresh hwindow hinside hstart hn
  change _ = entries beyond st B first last n
  rw [entries, if_pos ⟨hstop, hinside⟩, hinit]
  exact hcall.same hfirst' hsize

def twoGapped : Buffer := copiesBuffer gapped_committed Nat.two_pos (by decide) (by decide)

example : (packVector (fun _ => 0) blank twoGapped).entries 4 12 3 = [⟨4, 4⟩, ⟨12, 4⟩] := by decide

end Entries

section Receive
variable (beyond : Int → Int) (B : Buffer)

/-- `MPID_Segment_unpack_vector` -/
def unpackVector (segp : Segment) (first last : Int) (n : Nat) : Segment × Int × List (Int × Nat) :=
  let out := segmentPackVector beyond segp first last n
  (out.segment, out.lastp, out.pieceparams.vectorp.map fun r => (r.start, r.len.toNat))

def receiveLayout : Placing.Layout Unit Segment where
  place := fun _ k => B.layout.disp k.toNat
  whole := fun _ x => ∃ i : Nat, x = i ∧ B.layout.stops i = true
  element := fun _ => 32
  oneLevel := fun _ => False
  streamOff := Segment.streamOff

theorem addresses_bytes (rs : List Region) :
    Placing.addresses (rs.map fun r => (r.start, r.len.toNat)) = bytes rs := by
  rw [Placing.addresses, List.flatMap_map]
  rfl

theorem places_addresses (first last : Nat) :
    (receiveLayout B).places () first last = addresses B.layout first last := by
  rw [Placing.Layout.places, addresses, List.range'_eq_map_range, List.map_map, Int.toNat_sub]
  refine List.map_congr_left fun k _ => ?_
  rw [receiveLayout, Function.comp_apply]
  congr 1

variable {B} {segp : Segment} {consumed : List Element} {stack : List Cursor} {first last : Int} {n : Nat}

/-- What is relied on for a receive request, and the segment is ready for the next call. -/
theorem unpackVector_documented (h : Positioned True B.root packVectorPieces segp consumed stack) (hptr : segp.ptr = 0)
    (hn : 0 < n) (hlt : first < last) (hreaches : (receiveLayout B).Reaches () segp first)
    (hfirst : (receiveLayout B).whole () first) (hlast : (receiveLayout B).whole () last) :
    ∃ segment' last' pieces, unpackVector beyond segp first last n = (segment', last', pieces) ∧ first < last' ∧
      last' ≤ last ∧ (receiveLayout B).whole () last' ∧ (receiveLayout B).streamOff segment' = last' ∧
      pieces.length ≤ n ∧ pieces ≠ [] ∧ Placing.addresses pieces = (receiveLayout B).places () first last' ∧
      segment'.ptr = 0 ∧ ∃ consumed' stack', Positioned True B.root packVectorPieces segment' consumed' stack' := by
  obtain ⟨i, rfl, hi⟩ := hfirst
  obtain ⟨j, rfl, hj⟩ := hlast
  obtain ⟨P, Q, hsplit, hstart⟩ := (B.stops_iff i).mp hi
  obtain ⟨W, R, hwindow, rfl⟩ := exists_window hsplit hstart (show i ≤ j by omega)
  have hjle : j ≤ B.layout.size := B.layout.stops_le j hj
  have hbehind : segp.streamOff ≤ i := hreaches.resolve_right id
  obtain ⟨taken, rest, stack', hcall, hpos, hptr'⟩ :=
    packVector_inside beyond h hptr hwindow (show i < min j B.layout.size by omega) hbehind hn
  have hend := hcall.lastp
  have hbytes := hcall.packed.bytes
  have hW : size (P ++ W) = j := (lastStop_window B hwindow).symm.trans (lastStop_eq hj)
  rw [hcall.split, ← List.append_assoc, size_append] at hW
  -- there is room for the first element
  have htaken : taken ≠ [] := by
    rintro rfl
    have hnone := eq_nil_of_bytes hcall.packed.positive hbytes
    cases hrest : rest with
    | nil =>
      rw [hrest, List.append_nil, ← hstart] at hW
      have hzero : size [] = 0 := rfl
      omega
    | cons e more =>
      have hfull := (hcall.full e more hrest).1
      rw [hnone, List.length_nil] at hfull
      omega
  have hsize : 0 < size taken := by
    refine Nat.pos_of_ne_zero fun hzero => htaken (eq_nil_of_size (fun e he => B.size_pos ?_) hzero)
    rw [hsplit, hcall.split]
    simp [he]
  have hsplit' : B.elements = P ++ (taken ++ (rest ++ R)) := by rw [hsplit, hcall.split, List.append_assoc]
  have hplaces : bytes (segmentPackVector beyond segp i j n).pieceparams.vectorp =
      (receiveLayout B).places () i (segmentPackVector beyond segp i j n).lastp := by
    rw [hbytes, hend, places_addresses, addresses_taken B hsplit', hstart, size_append]
  rw [size_append] at hend hW
  refine ⟨_, _, _, rfl, by omega, by omega, ⟨size P + size taken, hend, ?_⟩, hcall.streamOff, ?_, ?_, ?_, hptr', _, _,
    hpos⟩
  · rw [← size_append]
    exact (B.stops_iff _).mpr ⟨P ++ taken, rest ++ R, by rw [hsplit', List.append_assoc], rfl⟩
  · rw [List.length_map]
    exact_mod_cast hcall.packed.room
  · intro hnil
    rw [List.map_eq_nil_iff] at hnil
    rw [hnil, bytes_nil] at hbytes
    have hlen := streamSize_pack 0 taken
    rw [← hbytes, List.length_nil, ← size] at hlen
    omega
  · rw [addresses_bytes]
    exact hplaces

end Receive

end FgMpi.Drain.Segments
