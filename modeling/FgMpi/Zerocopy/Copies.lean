import Mathlib.Algebra.Order.Ring.Int
import Mathlib.Data.Nat.Find

/-! `MPIDI_CH3U_Buffer_copy` and `MPIDI_CH3U_Buffer_allocate` (`mpid/ch3/src/ch3u_buffer.c`). -/

namespace FgMpi.Zerocopy.Copies

/-- A count and a datatype.  Byte `i` of the packed data lies at `disp i`, and the segment code can stop
where `stops` says.  Data that is flagged contiguous has no gap: a struct type for which `is_contig` says
otherwise is no layout. -/
structure Layout where
  size : Nat
  contig : Bool
  trueLb : Int
  disp : Nat → Int
  stops : Nat → Bool
  contig_disp : contig = true → ∀ i, disp i = trueLb + i
  stops_zero : stops 0 = true
  stops_size : stops size = true
  stops_le : ∀ i, stops i = true → i ≤ size
  fine : ∀ x ≤ size, ∃ y ≤ x, stops y = true ∧ x < y + 32

def bytewise (size : Nat) (contig : Bool) (trueLb : Int) (disp : Nat → Int)
    (contig_disp : contig = true → ∀ i, disp i = trueLb + i) : Layout where
  size := size
  contig := contig
  trueLb := trueLb
  disp := disp
  stops := fun i => decide (i ≤ size)
  contig_disp := contig_disp
  stops_zero := decide_eq_true (Nat.zero_le size)
  stops_size := decide_eq_true (Nat.le_refl size)
  stops_le := fun _ h => of_decide_eq_true h
  fine := fun x hx => ⟨x, Nat.le_refl x, decide_eq_true hx, by omega⟩

inductive Err
  | success
  | truncate
  | type
  | zcopybufalloc
deriving DecidableEq

/-- `fuel` is not an outcome of the code, see `copyLoop_fuel`. -/
inductive Abort
  | assertion
  | fuel
deriving DecidableEq

section Code
variable {β : Type}

/-- Where `MPID_Segment_pack` and `MPID_Segment_unpack` stop if they are to go on to `last`. -/
def Layout.lastStop (L : Layout) (last : Nat) : Nat := Nat.findGreatest (fun i => L.stops i = true) last

def packed (S : Layout) (sbuf : Int → β) (first last : Nat) : List β :=
  (List.range' first (last - first)).map fun i => sbuf (S.disp i)

def unpacked (R : Layout) (first last : Nat) (bytes : List β) : List (Int × β) :=
  (List.range' first (last - first)).zipWith (fun i b => (R.disp i, b)) bytes

structure Copied (β : Type) where
  rsz : Nat
  sErr : Err
  rErr : Err
  writes : List (Int × β)

def copyBufferSz : Nat := 16384

/-- The loop over the intermediate buffer.  `tmp` are its first `buf_off` bytes. -/
def copyLoop (S R : Layout) (sbuf : Int → β) (sdataSz : Nat) (rErr : Err) :
    Nat → Nat → Nat → List β → List (Int × β) → Except Abort (Copied β)
  | 0, _, _, _, _ => .error .fuel
  | fuel + 1, sfirst, rfirst, tmp, writes =>
    let bufOff := tmp.length
    let last :=
      if sdataSz - sfirst > copyBufferSz - bufOff then sfirst + (copyBufferSz - bufOff) else sdataSz
    let last := S.lastStop last
    if last > sfirst then
      let tmp := tmp ++ packed S sbuf sfirst last
      let sfirst := last
      let last := R.lastStop last
      if last > rfirst then
        let writes := writes ++ unpacked R rfirst last tmp
        let rfirst := last
        if rfirst = sdataSz then .ok ⟨rfirst, .success, rErr, writes⟩
        else if sfirst = sdataSz then .ok ⟨rfirst, .success, .type, writes⟩
        else
          let bufOff := sfirst - rfirst
          copyLoop S R sbuf sdataSz rErr fuel sfirst rfirst (tmp.drop (tmp.length - bufOff)) writes
      else .error .assertion
    else .error .assertion

def bufferCopy (S : Layout) (sbuf : Int → β) (R : Layout) : Except Abort (Copied β) :=
  let rErr := if S.size > R.size then Err.truncate else .success
  let sdataSz := if S.size > R.size then R.size else S.size
  if sdataSz = 0 then .ok ⟨0, .success, rErr, []⟩
  else if S.contig && R.contig then
    .ok ⟨sdataSz, .success, rErr,
      (List.range sdataSz).map fun i : Nat => (R.trueLb + (i : Int), sbuf (S.trueLb + i))⟩
  else if S.contig then
    let last := R.lastStop sdataSz
    let bytes := (List.range sdataSz).map fun i : Nat => sbuf (S.trueLb + i)
    .ok ⟨last, .success, if last ≠ sdataSz then .type else rErr, unpacked R 0 last bytes⟩
  else if R.contig then
    let last := S.lastStop sdataSz
    .ok ⟨last, .success, if last ≠ sdataSz then .type else rErr,
      (packed S sbuf 0 last).mapIdx fun i b => (R.trueLb + i, b)⟩
  else copyLoop S R sbuf sdataSz rErr sdataSz 0 0 [] []

/-- `buffer` is the size of what `*rbuf_handle` is set to. -/
structure Allocated where
  rsz : Nat
  sErr : Err
  rErr : Err
  buffer : Option Nat

def bufferAllocate (S R : Layout) : Allocated :=
  let rErr := if S.size > R.size then Err.truncate else .success
  let sdataSz := if S.size > R.size then R.size else S.size
  if sdataSz = 0 then ⟨0, .success, rErr, none⟩
  else if S.contig && R.contig then ⟨sdataSz, .success, rErr, some sdataSz⟩
  else ⟨0, .zcopybufalloc, .zcopybufalloc, none⟩

end Code

section Stops
variable {L : Layout} {x y : Nat}

theorem lastStop_le : L.lastStop x ≤ x := Nat.findGreatest_le x

theorem lastStop_stops : L.stops (L.lastStop x) = true :=
  Nat.findGreatest_spec (P := fun i => L.stops i = true) (Nat.zero_le x) L.stops_zero

theorem le_lastStop (h : y ≤ x) (hy : L.stops y = true) : y ≤ L.lastStop x := Nat.le_findGreatest h hy

theorem lastStop_eq (h : L.stops x = true) : L.lastStop x = x :=
  Nat.le_antisymm lastStop_le (le_lastStop (Nat.le_refl x) h)

theorem lastStop_eq_iff : L.lastStop x = x ↔ L.stops x = true :=
  ⟨fun h => h ▸ lastStop_stops, lastStop_eq⟩

theorem lastStop_near (h : x ≤ L.size) : x < L.lastStop x + 32 := by
  obtain ⟨y, hy, hstop, hx⟩ := L.fine x h
  have := le_lastStop hy hstop
  omega

end Stops

section Loop
variable {β : Type} {S R : Layout} {sbuf : Int → β} {n : Nat}

def moved (S R : Layout) (sbuf : Int → β) (first last : Nat) : List (Int × β) :=
  (List.range' first (last - first)).map fun i => (R.disp i, sbuf (S.disp i))

variable {a b c : Nat}

theorem packed_append (hab : a ≤ b) (hbc : b ≤ c) :
    packed S sbuf a b ++ packed S sbuf b c = packed S sbuf a c := by
  have hlen : c - a = (b - a) + (c - b) := by omega
  have hstart : a + 1 * (b - a) = b := by omega
  rw [packed, packed, packed, ← List.map_append, hlen, ← List.range'_append, hstart]

theorem moved_append (hab : a ≤ b) (hbc : b ≤ c) :
    moved S R sbuf a b ++ moved S R sbuf b c = moved S R sbuf a c := by
  have hlen : c - a = (b - a) + (c - b) := by omega
  have hstart : a + 1 * (b - a) = b := by omega
  rw [moved, moved, moved, ← List.map_append, hlen, ← List.range'_append, hstart]

theorem length_packed (a b : Nat) : (packed S sbuf a b).length = b - a := by
  rw [packed, List.length_map, List.length_range']

theorem drop_packed (hab : a ≤ b) (hbc : b ≤ c) : (packed S sbuf a c).drop (b - a) = packed S sbuf b c := by
  rw [← packed_append hab hbc, List.drop_left' (length_packed a b)]

theorem unpacked_packed (hab : a ≤ b) (hbc : b ≤ c) :
    unpacked R a b (packed S sbuf a c) = moved S R sbuf a b := by
  have hlen : (List.range' a (b - a)).length = (packed S sbuf a b).length := by
    rw [length_packed, List.length_range']
  rw [← packed_append hab hbc, unpacked, moved]
  rw [← List.append_nil (List.range' a (b - a)), List.zipWith_append hlen, List.append_nil]
  rw [List.zipWith_nil_left, List.append_nil, packed, List.zipWith_map_right]
  exact List.zipWith_self

theorem copyLoop_ok (hs : S.stops n = true) (hr : R.stops n = true) {rErr : Err} {fuel sfirst rfirst : Nat}
    {writes : List (Int × β)} (hle : rfirst ≤ sfirst) (hlt : sfirst < n) (hnear : sfirst < rfirst + 32)
    (hfuel : n - sfirst ≤ fuel) :
    copyLoop S R sbuf n rErr fuel sfirst rfirst (packed S sbuf rfirst sfirst) writes =
      .ok ⟨n, .success, rErr, writes ++ moved S R sbuf rfirst n⟩ := by
  have hsize := S.stops_le n hs
  have rsize := R.stops_le n hr
  induction fuel generalizing sfirst rfirst writes with
  | zero => omega
  | succ fuel ih =>
    unfold copyLoop
    rw [length_packed]
    dsimp only
    have hcap : copyBufferSz = 16384 := rfl
    generalize hlast : (if n - sfirst > copyBufferSz - (sfirst - rfirst) then
      sfirst + (copyBufferSz - (sfirst - rfirst)) else n) = last
    have hbound : sfirst < last ∧ last ≤ n ∧ (last = n ∨ sfirst + 64 ≤ last) := by
      rw [← hlast, hcap]
      split <;> omega
    obtain ⟨hgt, hln, hbig⟩ := hbound
    have hpack : sfirst < S.lastStop last ∧ S.lastStop last ≤ last ∧
        (S.lastStop last = n ∨ sfirst + 32 ≤ S.lastStop last) := by
      have hnear' := @lastStop_near S last (by omega)
      have hle' := @lastStop_le S last
      rcases hbig with rfl | hbig
      · rw [lastStop_eq hs]
        omega
      · omega
    obtain ⟨hgt', hle', hbig'⟩ := hpack
    generalize S.lastStop last = snext at hgt' hle' hbig' ⊢
    rw [if_pos hgt', packed_append hle (by omega)]
    have hunpack : rfirst < R.lastStop snext ∧ R.lastStop snext ≤ snext ∧
        (snext = n → R.lastStop snext = n) ∧ snext < R.lastStop snext + 32 := by
      have hnear' := @lastStop_near R snext (by omega)
      have hle'' := @lastStop_le R snext
      refine ⟨?_, hle'', ?_, hnear'⟩
      · rcases hbig' with rfl | hbig'
        · rw [lastStop_eq hr]
          omega
        · omega
      · rintro rfl
        exact lastStop_eq hr
    obtain ⟨hrgt, hrle, hrn, hrnear⟩ := hunpack
    generalize R.lastStop snext = rnext at hrgt hrle hrn hrnear ⊢
    rw [if_pos hrgt, unpacked_packed (by omega) hrle]
    by_cases hdone : rnext = n
    · rw [if_pos hdone, hdone]
    · have hsn : snext ≠ n := fun h => hdone (hrn h)
      have hlen : snext - rfirst - (snext - rnext) = rnext - rfirst := by omega
      rw [if_neg hdone, if_neg hsn, length_packed, hlen, drop_packed (by omega) hrle,
        ih hrle (by omega) hrnear (by omega), List.append_assoc, moved_append (by omega) (by omega)]

theorem copyLoop_stops {rErr : Err} {fuel sfirst rfirst : Nat} {tmp : List β} {writes : List (Int × β)}
    {c : Copied β} (hlt : sfirst ≤ n) (h : copyLoop S R sbuf n rErr fuel sfirst rfirst tmp writes = .ok c)
    (hsz : c.rsz = n) : S.stops n = true ∧ R.stops n = true := by
  induction fuel generalizing sfirst rfirst tmp writes with
  | zero => exact nomatch h
  | succ fuel ih =>
    unfold copyLoop at h
    dsimp only at h
    generalize hlast : (if n - sfirst > copyBufferSz - tmp.length then
      sfirst + (copyBufferSz - tmp.length) else n) = last at h
    have hln : last ≤ n := by
      rw [← hlast]
      split <;> omega
    have hsle := @lastStop_le S last
    have hsstop := @lastStop_stops S last
    generalize S.lastStop last = snext at hsle hsstop h
    have hrle := @lastStop_le R snext
    have hrstop := @lastStop_stops R snext
    generalize R.lastStop snext = rnext at hrle hrstop h
    split at h
    · split at h
      · split at h
        · rename_i hdone
          have hsn : snext = n := by omega
          exact ⟨hsn ▸ hsstop, hdone ▸ hrstop⟩
        · split at h
          · rename_i hdone _
            cases h
            exact absurd hsz hdone
          · exact ih (by omega) h
      · exact nomatch h
    · exact nomatch h

end Loop

section Copy
variable {β : Type} {S R : Layout} {sbuf : Int → β}

def Breaks (S R : Layout) (n : Nat) : Prop :=
  (S.contig = true ∨ S.stops n = true) ∧ (R.contig = true ∨ R.stops n = true)

theorem sdataSz_eq : (if S.size > R.size then R.size else S.size) = min S.size R.size := by
  split <;> omega

theorem moved_contig (hs : S.contig = true) (hr : R.contig = true) (n : Nat) :
    ((List.range n).map fun i : Nat => (R.trueLb + (i : Int), sbuf (S.trueLb + i))) = moved S R sbuf 0 n := by
  rw [moved, Nat.sub_zero, ← List.range_eq_range']
  exact List.map_congr_left fun i _ => by rw [S.contig_disp hs, R.contig_disp hr]

theorem packed_contig (hs : S.contig = true) (n : Nat) :
    ((List.range n).map fun i : Nat => sbuf (S.trueLb + i)) = packed S sbuf 0 n := by
  rw [packed, Nat.sub_zero, ← List.range_eq_range']
  exact List.map_congr_left fun i _ => by rw [S.contig_disp hs]

theorem mapIdx_packed (hr : R.contig = true) (n : Nat) :
    ((packed S sbuf 0 n).mapIdx fun i b => (R.trueLb + (i : Int), b)) = moved S R sbuf 0 n := by
  rw [packed, moved, Nat.sub_zero, ← List.range_eq_range']
  refine List.ext_getElem (by simp) fun i h₁ h₂ => ?_
  simp [R.contig_disp hr]

theorem bufferCopy_ok (h : Breaks S R (min S.size R.size)) :
    bufferCopy S sbuf R = .ok ⟨min S.size R.size, .success,
      if S.size > R.size then .truncate else .success, moved S R sbuf 0 (min S.size R.size)⟩ := by
  obtain ⟨hs, hr⟩ := h
  unfold bufferCopy
  dsimp only
  rw [sdataSz_eq]
  generalize min S.size R.size = n at hs hr ⊢
  by_cases hn : n = 0
  · rw [if_pos hn, hn]
    rfl
  · rw [if_neg hn]
    cases hsc : S.contig with
    | true =>
      cases hrc : R.contig with
      | true =>
        rw [if_pos (by rfl), moved_contig hsc hrc]
      | false =>
        rw [hrc] at hr
        have hlast := lastStop_eq (hr.resolve_left Bool.false_ne_true)
        rw [if_neg (by simp), if_pos rfl, hlast, if_neg (not_not.mpr rfl), packed_contig hsc,
          unpacked_packed (Nat.zero_le n) (Nat.le_refl n)]
    | false =>
      rw [hsc] at hs
      have hstop := hs.resolve_left Bool.false_ne_true
      cases hrc : R.contig with
      | true =>
        rw [if_neg (by simp), if_neg Bool.false_ne_true, if_pos rfl, lastStop_eq hstop,
          if_neg (not_not.mpr rfl), mapIdx_packed hrc]
      | false =>
        rw [hrc] at hr
        rw [if_neg (by simp), if_neg Bool.false_ne_true, if_neg Bool.false_ne_true]
        exact copyLoop_ok hstop (hr.resolve_left Bool.false_ne_true) (Nat.le_refl 0)
          (Nat.pos_of_ne_zero hn) (by omega) (by omega)

theorem bufferCopy_breaks {c : Copied β} (h : bufferCopy S sbuf R = .ok c)
    (hsz : c.rsz = min S.size R.size) : Breaks S R (min S.size R.size) := by
  unfold bufferCopy at h
  dsimp only at h
  rw [sdataSz_eq] at h
  generalize min S.size R.size = n at hsz h ⊢
  by_cases hn : n = 0
  · rw [hn]
    exact ⟨.inr S.stops_zero, .inr R.stops_zero⟩
  · rw [if_neg hn] at h
    cases hsc : S.contig with
    | true =>
      rw [hsc] at h
      cases hrc : R.contig with
      | true => exact ⟨.inl hsc, .inl hrc⟩
      | false =>
        rw [hrc, if_neg (by simp), if_pos rfl] at h
        cases h
        exact ⟨.inl hsc, .inr (lastStop_eq_iff.mp hsz)⟩
    | false =>
      rw [hsc] at h
      cases hrc : R.contig with
      | true =>
        rw [hrc, if_neg (by simp), if_neg Bool.false_ne_true, if_pos rfl] at h
        cases h
        exact ⟨.inr (lastStop_eq_iff.mp hsz), .inl hrc⟩
      | false =>
        rw [hrc, if_neg (by simp), if_neg Bool.false_ne_true, if_neg Bool.false_ne_true] at h
        obtain ⟨hs, hr⟩ := copyLoop_stops (Nat.zero_le n) h hsz
        exact ⟨.inr hs, .inr hr⟩

end Copy

end FgMpi.Zerocopy.Copies
