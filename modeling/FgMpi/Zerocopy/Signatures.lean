import FgMpi.Zerocopy.Copies
import Mathlib.Data.List.Infix

/-! `MPIDI_CH3U_Buffer_copy` (`mpid/ch3/src/ch3u_buffer.c:35`). -/

namespace FgMpi.Zerocopy.Copies

section Outcomes
variable {β : Type} {S R : Layout} {sbuf : Int → β} {n : Nat}

variable {writes : List (Int × β)}

theorem copyLoop_fuel {rErr : Err} {fuel sfirst rfirst : Nat} {tmp : List β}
    (hlt : sfirst < n) (hfuel : n - sfirst ≤ fuel) :
    copyLoop S R sbuf n rErr fuel sfirst rfirst tmp writes ≠ .error .fuel := by
  induction fuel generalizing sfirst rfirst tmp writes with
  | zero => omega
  | succ fuel ih =>
    unfold copyLoop
    dsimp only
    generalize hlast : (if n - sfirst > copyBufferSz - tmp.length then
      sfirst + (copyBufferSz - tmp.length) else n) = last
    have hln : last ≤ n := by
      rw [← hlast]
      split <;> omega
    have hsle := @lastStop_le S last
    generalize S.lastStop last = snext at hsle ⊢
    split
    · split
      · split
        · rintro ⟨⟩
        · split
          · rintro ⟨⟩
          · exact ih (by omega) (by omega)
      · rintro ⟨⟩
    · rintro ⟨⟩

/-- A copy that ended: what was packed up to `rsz` has been unpacked. -/
structure Ended (S R : Layout) (sbuf : Int → β) (n : Nat) (rErr : Err) (c : Copied β) : Prop where
  rsz : c.rsz ≤ n
  sErr : c.sErr = .success
  rErr : c.rErr = if c.rsz < n then .type else rErr
  writes : c.writes = unpacked R 0 c.rsz (packed S sbuf 0 c.rsz)

theorem ended_full (rErr : Err) (h : writes = moved S R sbuf 0 n) :
    Ended S R sbuf n rErr ⟨n, .success, rErr, writes⟩ := by
  rw [h, ← unpacked_packed (Nat.zero_le n) (Nat.le_refl n)]
  exact ⟨Nat.le_refl n, rfl, (if_neg (Nat.lt_irrefl n)).symm, rfl⟩

theorem ended_short {last : Nat} (hlt : last < n) (rErr : Err)
    (h : writes = moved S R sbuf 0 last) : Ended S R sbuf n rErr ⟨last, .success, .type, writes⟩ := by
  rw [h, ← unpacked_packed (Nat.zero_le last) (Nat.le_refl last)]
  exact ⟨Nat.le_of_lt hlt, rfl, (if_pos hlt).symm, rfl⟩

theorem ended_stop {last : Nat} (hle : last ≤ n) (rErr : Err)
    (h : writes = moved S R sbuf 0 last) :
    Ended S R sbuf n rErr ⟨last, .success, if last ≠ n then .type else rErr, writes⟩ := by
  by_cases hlast : last = n
  · rw [if_neg (not_not.mpr hlast)]
    subst hlast
    exact ended_full rErr h
  · rw [if_pos hlast]
    exact ended_short (by omega) rErr h

theorem copyLoop_ended {rErr : Err} {fuel sfirst rfirst : Nat} {c : Copied β}
    (hle : rfirst ≤ sfirst) (hlt : sfirst ≤ n)
    (h : copyLoop S R sbuf n rErr fuel sfirst rfirst (packed S sbuf rfirst sfirst)
      (moved S R sbuf 0 rfirst) = .ok c) : Ended S R sbuf n rErr c := by
  induction fuel generalizing sfirst rfirst with
  | zero => cases h
  | succ fuel ih =>
    unfold copyLoop at h
    dsimp only at h
    generalize hlast : (if n - sfirst > copyBufferSz - (packed S sbuf rfirst sfirst).length then
      sfirst + (copyBufferSz - (packed S sbuf rfirst sfirst).length) else n) = last at h
    have hln : last ≤ n := by
      rw [← hlast]
      split <;> omega
    have hsle := @lastStop_le S last
    generalize S.lastStop last = snext at hsle h
    have hrle := @lastStop_le R snext
    generalize R.lastStop snext = rnext at hrle h
    split at h
    · rename_i hsnext
      rw [packed_append hle (by omega)] at h
      split at h
      · rename_i hrnext
        rw [unpacked_packed (by omega) hrle, moved_append (Nat.zero_le _) (by omega)] at h
        split at h
        · rename_i hdone
          cases h
          rw [hdone]
          exact ended_full rErr rfl
        · rename_i hmore
          split at h
          · cases h
            exact ended_short (by omega) rErr rfl
          · have hlen : (packed S sbuf rfirst snext).length - (snext - rnext) = rnext - rfirst := by
              rw [length_packed]
              omega
            rw [hlen, drop_packed (by omega) hrle] at h
            exact ih hrle (by omega) h
      · cases h
    · cases h

theorem bufferCopy_cases (S R : Layout) (sbuf : Int → β) :
    (∃ c, bufferCopy S sbuf R = .ok c ∧
      Ended S R sbuf (min S.size R.size) (if S.size > R.size then .truncate else .success) c) ∨
    ¬ (S.contig = true ∨ R.contig = true) ∧ 0 < min S.size R.size ∧
      bufferCopy S sbuf R = copyLoop S R sbuf (min S.size R.size)
        (if S.size > R.size then .truncate else .success) (min S.size R.size) 0 0 [] [] := by
  unfold bufferCopy
  dsimp only
  rw [sdataSz_eq]
  generalize min S.size R.size = n
  generalize (if S.size > R.size then Err.truncate else .success) = rErr
  split
  · rename_i hn
    rw [hn]
    exact .inl ⟨_, rfl, ended_full rErr rfl⟩
  · split
    · rename_i hcontig
      obtain ⟨hsc, hrc⟩ := (Bool.and_eq_true _ _).mp hcontig
      exact .inl ⟨_, rfl, ended_full rErr (moved_contig hsc hrc n)⟩
    · split
      · rename_i hsc
        refine .inl ⟨_, rfl, ended_stop lastStop_le rErr ?_⟩
        rw [packed_contig hsc, unpacked_packed (Nat.zero_le _) lastStop_le]
      · split
        · rename_i hrc
          exact .inl ⟨_, rfl, ended_stop lastStop_le rErr (mapIdx_packed hrc _)⟩
        · rename_i hn _ hsc hrc
          exact .inr ⟨not_or.mpr ⟨hsc, hrc⟩, Nat.pos_of_ne_zero hn, rfl⟩

theorem bufferCopy_ended {c : Copied β} (h : bufferCopy S sbuf R = .ok c) :
    Ended S R sbuf (min S.size R.size) (if S.size > R.size then .truncate else .success) c := by
  rcases bufferCopy_cases S R sbuf with ⟨c', hc', hended⟩ | ⟨-, -, hloop⟩
  · rw [hc'] at h
    cases h
    exact hended
  · exact copyLoop_ended (Nat.le_refl 0) (Nat.zero_le _) (hloop.symm.trans h)

theorem bufferCopy_total : bufferCopy S sbuf R ≠ .error .fuel := by
  rcases bufferCopy_cases S R sbuf with ⟨c, hc, -⟩ | ⟨-, hpos, hloop⟩
  · rw [hc]
    exact fun h => nomatch h
  · rw [hloop]
    exact copyLoop_fuel hpos (by omega)

theorem bufferCopy_contig (h : S.contig = true ∨ R.contig = true) : ∃ c, bufferCopy S sbuf R = .ok c := by
  rcases bufferCopy_cases S R sbuf with ⟨c, hc, -⟩ | ⟨hnot, -, -⟩
  · exact ⟨c, hc⟩
  · exact absurd h hnot

end Outcomes

section Signatures
variable {ι β : Type} {width : ι → Nat}

/-- A layout and the basic elements of its packed data: the segment code can stop between two of them, and behind
every byte of an element that it traverses as bytes. -/
structure Typed (ι : Type) (width : ι → Nat) extends Layout where
  signature : List ι
  stops_prefix : ∀ es, es <+: signature → stops (es.map width).sum = true

def Agree (S R : Typed ι width) (n : Nat) : Prop :=
  ∃ es, es <+: S.signature ∧ es <+: R.signature ∧ (es.map width).sum = n

theorem Agree.breaks {S R : Typed ι width} {n : Nat} (h : Agree S R n) : Breaks S.toLayout R.toLayout n := by
  obtain ⟨es, hs, hr, rfl⟩ := h
  exact ⟨.inr (S.stops_prefix es hs), .inr (R.stops_prefix es hr)⟩

inductive Basic
  | int
  | float
deriving DecidableEq

def basic (b : Basic) : Typed Basic fun _ => 4 where
  size := 4
  contig := true
  trueLb := 0
  disp := fun i => 0 + i
  stops := fun i => [b].inits.any fun es => (es.map fun _ => 4).sum == i
  contig_disp := fun _ _ => rfl
  stops_zero := rfl
  stops_size := rfl
  stops_le := by
    intro i h
    simp at h
    omega
  fine := by cases b <;> decide
  signature := [b]
  stops_prefix := fun es h => List.any_eq_true.mpr ⟨es, (List.mem_inits es [b]).mpr h, beq_self_eq_true _⟩

end Signatures

end FgMpi.Zerocopy.Copies
