import FgMpi.Machine.Regions
import FgMpi.Machine.Runs
import FgMpi.Zerocopy.Copies

/-! `MPIDI_CH3U_Request_load_send_iov` (`mpid/ch3/src/ch3u_request.c:138`). -/

namespace FgMpi.Drain.SendIov
open Machine.Regions Machine.Runs Zerocopy.Copies

/-- `MPL_IOV_LIMIT` and `MPIDI_IOV_DENSITY_MIN` -/
def iovLimit : Nat := 16
def iovDensityMin : Nat := 16 * 1024

/-- Where the packed bytes from `first` on, up to `last`, lie in the user buffer. -/
def addresses (L : Layout) (first last : Nat) : List Int := (List.range' first (last - first)).map L.disp

/-- `MPID_Segment_pack_vector`: what it puts into an IOV of `n` entries. -/
structure PackVector (L : Layout) where
  entries : Nat → Nat → Nat → List Region
  length_le : ∀ first last n, (entries first last n).length ≤ n
  positive : ∀ first last n, Positive (entries first last n)
  bytes_eq : ∀ first last n, bytes (entries first last n) =
    addresses L first (first + (bytes (entries first last n)).length)
  stop : ∀ first last n, L.stops first = true →
    L.stops (first + (bytes (entries first last n)).length) = true
  le : ∀ first last n, first ≤ last → first + (bytes (entries first last n)).length ≤ last
  full : ∀ first last n, L.stops first = true → first ≤ last → (entries first last n).length < n →
    first + (bytes (entries first last n)).length = L.lastStop last

inductive Handler
  | final
  | reloadIov
deriving DecidableEq

inductive Fault
  | firstNotBeforeLast
  | iovCount
  | nomem
deriving DecidableEq

/-- The fields of `dev`.  `handed` has the bytes that were handed over, by their address in the user buffer;
`staged` counts those that the last call has put into `tmpbuf`. -/
structure Request where
  segmentFirst : Nat
  segmentSize : Nat
  onDataAvail : Handler
  handed : List Int
  staged : Nat

def request (segmentFirst segmentSize : Nat) : Request := ⟨segmentFirst, segmentSize, .reloadIov, [], 0⟩

section Loading
variable {L : Layout} (V : PackVector L) (tmpbufSz : Nat)

def loadSendIov (sreq : Request) (iovN : Nat) : Except Fault Request :=
  if ¬ sreq.segmentFirst < sreq.segmentSize then .error .firstNotBeforeLast
  else if ¬ (0 < iovN ∧ iovN ≤ iovLimit) then .error .iovCount
  else
    let iov := V.entries sreq.segmentFirst sreq.segmentSize iovN
    let last := sreq.segmentFirst + (bytes iov).length
    if ¬ (0 < iov.length ∧ iov.length ≤ iovLimit) then .error .iovCount
    else if last = sreq.segmentSize then
      .ok { sreq with onDataAvail := .final, handed := sreq.handed ++ bytes iov }
    else if (last - sreq.segmentFirst) / iov.length ≥ iovDensityMin then
      .ok { sreq with segmentFirst := last, onDataAvail := .reloadIov, handed := sreq.handed ++ bytes iov }
    else if tmpbufSz = 0 then .error .nomem
    else
      let dataSz := sreq.segmentSize - sreq.segmentFirst
      let iovDataCopied := (bytes iov).length
      let segmentFirst := last
      let last :=
        if dataSz ≤ tmpbufSz - iovDataCopied then sreq.segmentSize
        else segmentFirst + (tmpbufSz - iovDataCopied)
      let last := L.lastStop last
      let handed := sreq.handed ++ bytes iov ++ addresses L segmentFirst last
      let staged := last - segmentFirst + iovDataCopied
      if last = sreq.segmentSize then .ok ⟨segmentFirst, sreq.segmentSize, .final, handed, staged⟩
      else .ok ⟨last, sreq.segmentSize, .reloadIov, handed, staged⟩

/-- The channel calls again as long as `OnDataAvail` says so. -/
def reload (sreq : Request) (iovN : Nat) : Except Fault Request :=
  match sreq.onDataAvail with
  | .final => .ok sreq
  | .reloadIov => loadSendIov V tmpbufSz sreq iovN

/-- Where `tmpbuf` is used, `dataSz` still fits behind what was copied, or the segment has nothing between the end
of the window and the end of `tmpbuf`. -/
def Within (sreq : Request) (iovN : Nat) : Prop :=
  let iov := V.entries sreq.segmentFirst sreq.segmentSize iovN
  sreq.onDataAvail = .final ∨ sreq.segmentFirst + (bytes iov).length = sreq.segmentSize ∨
    iovDensityMin ≤ (bytes iov).length / iov.length ∨
    sreq.segmentSize - sreq.segmentFirst ≤ tmpbufSz - (bytes iov).length ∨
    L.lastStop (sreq.segmentFirst + tmpbufSz) ≤ sreq.segmentSize

variable {V tmpbufSz} {start : Nat} {sreq : Request} {iovN : Nat}

def Request.cursor (sreq : Request) : Nat :=
  match sreq.onDataAvail with
  | .final => sreq.segmentSize
  | .reloadIov => sreq.segmentFirst

structure Sending (L : Layout) (tmpbufSz start : Nat) (sreq : Request) : Prop where
  first : L.stops sreq.segmentFirst = true
  size : L.stops sreq.segmentSize = true
  start_le : start ≤ sreq.segmentFirst
  lt : sreq.segmentFirst < sreq.segmentSize
  handed : sreq.handed = addresses L start sreq.cursor
  staged : sreq.staged ≤ tmpbufSz

theorem addresses_append {a b c : Nat} (hab : a ≤ b) (hbc : b ≤ c) :
    addresses L a b ++ addresses L b c = addresses L a c := by
  have hlen : c - a = (b - a) + (c - b) := by omega
  have hstart : a + 1 * (b - a) = b := by omega
  rw [addresses, addresses, addresses, ← List.map_append, hlen, ← List.range'_append, hstart]

theorem length_le_bytes {rs : List Region} (h : Positive rs) : rs.length ≤ (bytes rs).length := by
  induction rs with
  | nil => exact Nat.le_refl 0
  | cons r rs ih =>
    have hr := h r List.mem_cons_self
    have hrest := ih fun x hx => h x (List.mem_cons_of_mem _ hx)
    rw [bytes_cons, List.length_append, List.length_cons, bytes_length_region]
    omega

theorem loadSendIov_sending (hsz : iovLimit * iovDensityMin ≤ tmpbufSz) (h : Sending L tmpbufSz start sreq)
    (hrun : sreq.onDataAvail = .reloadIov) (hn : 0 < iovN ∧ iovN ≤ iovLimit)
    (hwithin : Within V tmpbufSz sreq iovN) :
    ∃ sreq', loadSendIov V tmpbufSz sreq iovN = .ok sreq' ∧ Sending L tmpbufSz start sreq' ∧
      sreq'.segmentSize = sreq.segmentSize ∧ (sreq'.onDataAvail = .final ∨ sreq.segmentFirst < sreq'.segmentFirst) := by
  obtain ⟨hfirst, hsize, hstart, hlt, hhanded, hstaged⟩ := h
  rw [Request.cursor, hrun] at hhanded
  dsimp only at hhanded
  have hcount := V.length_le sreq.segmentFirst sreq.segmentSize iovN
  have hpos := length_le_bytes (V.positive sreq.segmentFirst sreq.segmentSize iovN)
  have hbytes := V.bytes_eq sreq.segmentFirst sreq.segmentSize iovN
  have hstop := V.stop sreq.segmentFirst sreq.segmentSize iovN hfirst
  have hle := V.le sreq.segmentFirst sreq.segmentSize iovN (Nat.le_of_lt hlt)
  have hfull := V.full sreq.segmentFirst sreq.segmentSize iovN hfirst (Nat.le_of_lt hlt)
  rw [lastStop_eq hsize] at hfull
  unfold Within at hwithin
  unfold loadSendIov
  dsimp only at hwithin ⊢
  generalize V.entries sreq.segmentFirst sreq.segmentSize iovN = iov at *
  generalize hk : (bytes iov).length = k at *
  have hnonempty : 0 < iov.length := by
    by_contra hempty
    have hzero : k = 0 := by
      rw [← hk, List.eq_nil_of_length_eq_zero (Nat.eq_zero_of_not_pos hempty)]
      rfl
    have := hfull (by omega)
    omega
  have hhand : sreq.handed ++ bytes iov = addresses L start (sreq.segmentFirst + k) := by
    rw [hhanded, hbytes, addresses_append hstart (Nat.le_add_right _ _)]
  rw [if_neg (not_not.mpr hlt), if_neg (not_not.mpr hn), if_neg (not_not.mpr ⟨hnonempty, by omega⟩),
    Nat.add_sub_cancel_left, hhand]
  split
  · rename_i hend
    refine ⟨_, rfl, ⟨hfirst, hsize, hstart, hlt, ?_, hstaged⟩, rfl, .inl rfl⟩
    rw [hend]
    rfl
  · rename_i hmore
    split
    · refine ⟨_, rfl, ⟨hstop, hsize, ?_, ?_, rfl, hstaged⟩, rfl, .inr ?_⟩
      all_goals
        dsimp only
        omega
    · rename_i hsparse
      have hcopied : k < iovDensityMin * iov.length := (Nat.div_lt_iff_lt_mul hnonempty).mp (by omega)
      have hroom : k ≤ tmpbufSz := by
        have := Nat.mul_le_mul_left iovDensityMin (show iov.length ≤ iovLimit by omega)
        rw [Nat.mul_comm] at hsz
        omega
      obtain ⟨last, heq, hge, hlesize, hfits, hlaststop⟩ : ∃ last,
          L.lastStop (if sreq.segmentSize - sreq.segmentFirst ≤ tmpbufSz - k then sreq.segmentSize
            else sreq.segmentFirst + k + (tmpbufSz - k)) = last ∧ sreq.segmentFirst + k ≤ last ∧
          last ≤ sreq.segmentSize ∧ last - (sreq.segmentFirst + k) + k ≤ tmpbufSz ∧ L.stops last = true := by
        refine ⟨_, rfl, ?_⟩
        split
        · rw [lastStop_eq hsize]
          exact ⟨hle, Nat.le_refl _, by omega, hsize⟩
        · rename_i hbig
          have hend : sreq.segmentFirst + k + (tmpbufSz - k) = sreq.segmentFirst + tmpbufSz := by omega
          rw [hrun] at hwithin
          have hbound := (((hwithin.resolve_left nofun).resolve_left hmore).resolve_left hsparse).resolve_left hbig
          have hbelow := @lastStop_le L (sreq.segmentFirst + tmpbufSz)
          rw [hend]
          exact ⟨le_lastStop (by omega) hstop, hbound, by omega, lastStop_stops⟩
      have hall := addresses_append (L := L) (show start ≤ sreq.segmentFirst + k by omega) hge
      have htmp : tmpbufSz ≠ 0 := by
        unfold iovLimit iovDensityMin at hsz
        omega
      rw [if_neg htmp, heq, hall]
      split
      · rename_i hend
        have hlt' : sreq.segmentFirst + k < sreq.segmentSize := by omega
        refine ⟨_, rfl, ⟨hstop, hsize, Nat.le_trans hstart (Nat.le_add_right _ _), hlt', ?_, hfits⟩, rfl, .inl rfl⟩
        rw [hend]
        rfl
      · refine ⟨_, rfl, ⟨hlaststop, hsize, ?_, ?_, rfl, hfits⟩, rfl, .inr ?_⟩
        all_goals
          dsimp only
          omega

theorem reload_run (hsz : iovLimit * iovDensityMin ≤ tmpbufSz) {limits : List Nat}
    (h : Sending L tmpbufSz start sreq) (hlimits : ∀ n ∈ limits, 0 < n ∧ n ≤ iovLimit)
    (hwithin : Along (reload V tmpbufSz) (Within V tmpbufSz) sreq limits) :
    ∃ sreq', run (reload V tmpbufSz) sreq limits = .ok sreq' ∧ Sending L tmpbufSz start sreq' ∧
      sreq'.segmentSize = sreq.segmentSize ∧
      (sreq'.onDataAvail = .final ∨
        sreq.onDataAvail = .reloadIov ∧ sreq.segmentFirst + limits.length ≤ sreq'.segmentFirst) := by
  induction limits generalizing sreq with
  | nil =>
    refine ⟨sreq, rfl, h, rfl, ?_⟩
    cases hdone : sreq.onDataAvail with
    | final => exact .inl rfl
    | reloadIov => exact .inr ⟨rfl, Nat.le_refl _⟩
  | cons n ns ih =>
    have hns : ∀ m ∈ ns, 0 < m ∧ m ≤ iovLimit := fun m hm => hlimits m (List.mem_cons_of_mem _ hm)
    cases hdone : sreq.onDataAvail with
    | final =>
      have hstay : reload V tmpbufSz sreq n = .ok sreq := by rw [reload, hdone]
      obtain ⟨t, hrun, ht, htsame, htmoved⟩ := ih h hns (hwithin.2 sreq hstay)
      refine ⟨t, by rw [run_cons_ok hstay]; exact hrun, ht, htsame, .inl ?_⟩
      rw [hdone] at htmoved
      exact htmoved.resolve_right fun hr => nomatch hr.1
    | reloadIov =>
      obtain ⟨sreq', hstep, hsending, hsame, hmoved⟩ :=
        loadSendIov_sending hsz h hdone (hlimits n List.mem_cons_self) hwithin.1
      have hstep' : reload V tmpbufSz sreq n = .ok sreq' := by rw [reload, hdone]; exact hstep
      obtain ⟨t, hrun, ht, htsame, htmoved⟩ := ih hsending hns (hwithin.2 sreq' hstep')
      refine ⟨t, by rw [run_cons_ok hstep']; exact hrun, ht, htsame.trans hsame, ?_⟩
      rcases htmoved with hfinal | ⟨hreload, hfar⟩
      · exact .inl hfinal
      · refine .inr ⟨rfl, ?_⟩
        rw [hreload] at hmoved
        have hnext := hmoved.resolve_left nofun
        rw [List.length_cons]
        omega

/-- What has been handed over is always the window up to the cursor, and the calls end. -/
theorem loadSendIov_run {size : Nat} (hsz : iovLimit * iovDensityMin ≤ tmpbufSz) (hlt : start < size)
    (hstart : L.stops start = true) (hsize : L.stops size = true) {limits : List Nat}
    (hlimits : ∀ n ∈ limits, 0 < n ∧ n ≤ iovLimit)
    (hwithin : Along (reload V tmpbufSz) (Within V tmpbufSz) (request start size) limits) :
    ∃ sreq', run (reload V tmpbufSz) (request start size) limits = .ok sreq' ∧
      sreq'.handed = addresses L start sreq'.cursor ∧ sreq'.cursor ≤ size ∧ sreq'.staged ≤ tmpbufSz ∧
      (size - start ≤ limits.length → sreq'.onDataAvail = .final ∧ sreq'.handed = addresses L start size) := by
  have hinit : Sending L tmpbufSz start (request start size) := by
    refine ⟨hstart, hsize, Nat.le_refl _, hlt, ?_, Nat.zero_le _⟩
    show [] = addresses L start start
    rw [addresses, Nat.sub_self]
    rfl
  obtain ⟨t, hrun, ht, hsame, hmoved⟩ := reload_run hsz hinit hlimits hwithin
  have hsame' : t.segmentSize = size := hsame
  have htlt := ht.lt
  refine ⟨t, hrun, ht.handed, ?_, ht.staged, ?_⟩
  · unfold Request.cursor
    split <;> omega
  · intro hmany
    have hfinal : t.onDataAvail = .final := by
      refine hmoved.resolve_right ?_
      rintro ⟨-, hfar⟩
      have hfar' : start + limits.length ≤ t.segmentFirst := hfar
      omega
    refine ⟨hfinal, ?_⟩
    rw [ht.handed, Request.cursor, hfinal, ← hsame']

end Loading

def spaced (size : Nat) : Layout := bytewise size false 0 (fun i => 2 * i) (by rintro ⟨⟩)

theorem bytes_single (is : List Nat) :
    bytes (is.map fun i : Nat => (⟨2 * i, 1⟩ : Region)) = is.map fun i : Nat => (2 * i : Int) := by
  induction is with
  | nil => rfl
  | cons i is ih =>
    rw [List.map_cons, List.map_cons, bytes_cons, ih]
    simp [Region.bytes]

def spacedVector (size : Nat) : PackVector (spaced size) where
  entries := fun first last n =>
    (List.range' first (min n (min last size - first))).map fun i : Nat => ⟨2 * i, 1⟩
  length_le := fun first last n => by
    rw [List.length_map, List.length_range']
    omega
  positive := fun first last n r hr => by
    obtain ⟨i, -, rfl⟩ := List.mem_map.mp hr
    exact Int.one_pos
  bytes_eq := fun first last n => by
    rw [bytes_single, List.length_map, List.length_range', addresses, Nat.add_sub_cancel_left]
    rfl
  stop := fun first last n h => by
    have hle : first ≤ size := of_decide_eq_true h
    rw [bytes_single, List.length_map, List.length_range']
    exact decide_eq_true (by omega)
  le := fun first last n h => by
    rw [bytes_single, List.length_map, List.length_range']
    omega
  full := fun first last n h hle hn => by
    have hfirst : first ≤ size := of_decide_eq_true h
    rw [List.length_map, List.length_range'] at hn
    rw [bytes_single, List.length_map, List.length_range']
    have hmin : first + min n (min last size - first) = min last size := by omega
    rw [hmin]
    refine Nat.le_antisymm (le_lastStop (Nat.min_le_left _ _) (decide_eq_true (Nat.min_le_right _ _))) ?_
    exact Nat.le_min.mpr ⟨lastStop_le, of_decide_eq_true (@lastStop_stops (spaced size) last)⟩

theorem loadSendIov_run_four :
    ∃ sreq', run (reload (spacedVector 4) 262144) (request 0 4) [2] = .ok sreq' ∧
      sreq'.handed = addresses (spaced 4) 0 sreq'.cursor ∧ sreq'.cursor ≤ 4 ∧ sreq'.staged ≤ 262144 ∧
      (4 - 0 ≤ 1 → sreq'.onDataAvail = .final ∧ sreq'.handed = addresses (spaced 4) 0 4) :=
  loadSendIov_run (by decide) (by decide) rfl rfl (by decide)
    ⟨.inr (.inr (.inr (.inl (by decide)))), fun _ _ => trivial⟩

theorem loadSendIov_overshoots :
    ∃ sreq', run (reload (spacedVector 262144) 262144) (request 0 262143) [16] = .ok sreq' ∧
      ∃ a ∈ sreq'.handed, a ∉ addresses (spaced 262144) 0 262143 := by
  have hlen : (bytes ((spacedVector 262144).entries 0 262143 16)).length = 16 := rfl
  have hcount : ((spacedVector 262144).entries 0 262143 16).length = 16 := rfl
  have hstop : (spaced 262144).lastStop 262144 = 262144 := lastStop_eq (spaced 262144).stops_size
  have hstep : reload (spacedVector 262144) 262144 (request 0 262143) 16 = .ok ⟨262144, 262143, .reloadIov,
      bytes ((spacedVector 262144).entries 0 262143 16) ++ addresses (spaced 262144) 16 262144, 262144⟩ := by
    unfold reload loadSendIov request
    dsimp only
    rw [hcount, hlen]
    simp [iovLimit, iovDensityMin, hstop]
  refine ⟨_, run_cons_ok hstep [], 2 * 262143, ?_, ?_⟩
  · refine List.mem_append_right _ (List.mem_map.mpr ⟨262143, List.mem_range'_1.mpr (by omega), rfl⟩)
  · intro hmem
    obtain ⟨i, hi, heq⟩ := List.mem_map.mp hmem
    have hlt := (List.mem_range'_1.mp hi).2
    have heq' : (2 * i : Int) = 2 * 262143 := heq
    omega

end FgMpi.Drain.SendIov
