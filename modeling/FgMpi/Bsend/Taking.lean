import FgMpi.Bsend.Segments

/-! `MPIR_Bsend_take_buffer`. -/

namespace FgMpi.Bsend.Taking
open Machine.DoublyLinked Machine.Ints Bsend.Buffer Bsend.Segments
open Function (update update_of_ne update_self)

variable {L : Layout} {s t : Arena} {base : Nat} {p : Nat} {l r active : List Nat}

theorem moveToActive_lists (htiling : Tiling L s base (l ++ p :: r ++ active))
    (havail : Segment (place s.avail s.next) s.prev none (l ++ p :: r) none)
    (hactive : Segment (place s.active s.next) s.prev none active none) (hsorted : (l ++ r).Pairwise (· < ·))
    (hcoalesced : ∀ a ∈ l ++ r, ∀ b ∈ l ++ r, a + s.totalSize a ≠ b)
    (hmessages : ∀ a ∈ p :: active, 0 ≤ s.count a ∧ s.count a ≤ s.size a) :
    Lists L (moveToActive s p) base (l ++ r) (p :: active) := by
  obtain ⟨hlist, hact, hdisj⟩ := List.nodup_append.1 htiling.nodup
  obtain ⟨_, hpr, hdisj'⟩ := List.nodup_append.1 hlist
  obtain ⟨hpr', hr⟩ := List.nodup_cons.1 hpr
  obtain ⟨_, hback⟩ := havail.split
  have hprev : s.prev p = lastPlace none l := hback.2.1
  have hnext : s.next p = r.head? := by simpa using hback.2.2.after_first
  have hpl : p ∉ l := fun hp => hdisj' p hp p List.mem_cons_self rfl
  have hin : ∀ a ∈ l ++ r, a ∈ l ++ p :: r := by
    intro a ha
    rcases List.mem_append.1 ha with ha | ha
    · exact List.mem_append_left _ ha
    · exact List.mem_append_right _ (List.mem_cons_of_mem p ha)
  have hp : p ∈ l ++ p :: r := List.mem_append_right _ List.mem_cons_self
  have hstep : (setAvail s (s.prev p) (s.next p)).next p = r.head? := by
    rw [setAvail_next_ne _ (by rw [hprev]; exact notMem_of_place hpl), hnext]
  -- the two stores that take `p` from the free list
  let u := setPrev (setAvail s (s.prev p) (s.next p)) r.head? (s.prev p)
  have hu : Relinked s u := (relinked_setAvail s _ _).trans (relinked_setPrev _ _ _)
  have huactive : u.active = s.active := by simp [u]
  have heq : moveToActive s p =
      { setPrev (setNext (setPrev u s.active (some p)) p s.active) (some p) none with
        active := some p, events := s.events ++ [.taken p] } := by
    simp only [moveToActive]
    rw [hstep, setAvail_prev]
    simp only [setPrev_active, setAvail_active]
    have hevents : (setPrev (setNext (setPrev u s.active (some p)) p s.active) (some p) none).events =
        s.events := by
      have h₁ := (relinked_setPrev (setNext (setPrev u s.active (some p)) p s.active) (some p) none)
      have h₂ := (relinked_setNext (setPrev u s.active (some p)) p s.active)
      exact (((hu.trans (relinked_setPrev u _ _)).trans h₂).trans h₁).events
    rw [← hevents]
  let w := setPrev (setNext (setPrev u s.active (some p)) p s.active) (some p) none
  have hw : Relinked s w := ((hu.trans (relinked_setPrev u _ _)).trans
    (relinked_setNext (setPrev u s.active (some p)) p s.active)).trans (relinked_setPrev _ _ _)
  have hwnext : ∀ a, a ≠ p → w.next a = u.next a := by
    intro a ha
    have : w.next a = (setPrev u s.active (some p)).next a := update_of_ne ha _ _
    rw [this, setPrev_next]
  have hwprev : ∀ a, a ≠ p → a ∉ s.active → w.prev a = u.prev a := by
    intro a ha hb
    have hne : a ∉ some p := by
      rintro ⟨⟩
      exact ha rfl
    rw [setPrev_prev_ne _ hne]
    exact setPrev_prev_ne _ hb
  have hufree : ∀ a, a ∉ l → u.next a = s.next a := by
    intro a ha
    rw [setPrev_next, setAvail_next_ne]
    rw [hprev]
    exact notMem_of_place ha
  have huprev : ∀ a, a ∉ r → u.prev a = s.prev a := by
    intro a ha
    rw [setPrev_prev_ne _ (notMem_of_head ha), setAvail_prev]
  have hactive_first : s.active = active.head? := by simpa using hactive.after_first
  have hna : ∀ a ∈ l ++ p :: r, a ∉ s.active := by
    intro a ha
    rw [hactive_first]
    exact notMem_of_head fun h => hdisj a ha a h rfl
  have hnp : ∀ a ∈ l ++ r, a ≠ p := by
    rintro a ha rfl
    rcases List.mem_append.1 ha with ha | ha
    · exact hpl ha
    · exact hpr' ha
  rw [heq]
  refine ⟨?_, ?_, ?_, hsorted, ?_, ?_⟩
  · have hperm : (l ++ p :: r ++ active).Perm (l ++ r ++ p :: active) := by
      simp only [List.append_assoc, List.cons_append]
      exact List.Perm.append_left l List.perm_middle.symm
    refine (hw.tiling (htiling.perm hperm)).congr ?_ ?_ ?_ rfl
    · exact fun _ _ => rfl
    · exact fun _ _ => rfl
    · exact fun _ _ => rfl
  · have hunlinked : Segment (place u.avail u.next) u.prev none (l ++ r) none := by
      rw [setPrev_avail, setPrev_next, place_setAvail]
      refine havail.unlink (places_nodup hlist) ?_ ?_
      · intro y hy
        exact setPrev_prev_self _ hy
      · intro y hy
        rw [setPrev_prev_ne, setAvail_prev]
        intro hhead
        rcases List.mem_append.1 hy with hy | hy
        · exact hdisj' y hy y (List.mem_cons_of_mem p (List.mem_of_mem_head? hhead)) rfl
        · exact not_mem_tail_of_head? hr hhead hy
    refine hunlinked.frame ?_ ?_ ?_
    · simp [setNext]
    · intro a ha
      exact hwnext a (hnp a ha)
    · intro a ha
      exact hwprev a (hnp a ha) (hna a (hin a ha))
  · refine ⟨rfl, setPrev_prev_self _ rfl, hactive.restart ?_ ?_ ?_ ?_⟩
    · have : w.next p = s.active := by
        rw [setPrev_next]
        exact update_self _ _ _
      exact this
    · intro x hx
      have hxp : x ∉ some p := by
        rintro ⟨⟩
        exact hdisj p hp p (List.mem_of_mem_head? hx) rfl
      have hset : (setPrev u s.active (some p)).prev x = some p := by
        rw [← hactive_first] at hx
        exact setPrev_prev_self _ hx
      have : w.prev x = some p := by
        rw [setPrev_prev_ne _ hxp]
        exact hset
      exact this
    · intro x hx
      have hxp : x ≠ p := by
        rintro rfl
        exact hdisj x hp x hx rfl
      have hxl : x ∉ l := fun h => hdisj x (List.mem_append_left _ h) x hx rfl
      exact (hwnext x hxp).trans (hufree x hxl)
    · intro x hx
      have hmem : x ∈ active := List.mem_of_mem_tail hx
      have hxp : x ≠ p := by
        rintro rfl
        exact hdisj x hp x hmem rfl
      have hxr : x ∉ r := fun h =>
        hdisj x (List.mem_append_right _ (List.mem_cons_of_mem p h)) x hmem rfl
      have hxa : x ∉ s.active := by
        rw [hactive_first]
        exact fun hhead => not_mem_tail_of_head? hact hhead hx
      exact (hwprev x hxp hxa).trans (huprev x hxr)
  · intro a ha b hb
    have htotal : w.totalSize a = s.totalSize a := congrFun hw.totalSize a
    exact fun h => hcoalesced a ha b hb (htotal ▸ h)
  · intro a ha
    have hcount : w.count a = s.count a := congrFun hw.count a
    have hsize : w.size a = s.size a := congrFun hw.size a
    have hmessage := hmessages a ha
    rw [← hcount, ← hsize] at hmessage
    exact hmessage

theorem moveToActive_kept (s : Arena) (p : Nat) :
    Kept { s with events := s.events ++ [.taken p] } (moveToActive s p) := by
  let t₁ := setAvail s (s.prev p) (s.next p)
  let t₂ := setPrev t₁ (t₁.next p) (t₁.prev p)
  let t₃ := setPrev t₂ t₂.active (some p)
  let t₄ := setNext t₃ p t₃.active
  have h : Kept s (setPrev t₄ (some p) none) :=
    (((((relinked_setAvail s _ _).trans (relinked_setPrev t₁ _ _)).trans
      (relinked_setPrev t₂ _ _)).trans (relinked_setNext t₃ _ _)).trans
      (relinked_setPrev t₄ _ _)).kept
  exact ⟨h.request, h.buffer, h.bufferSize, h.pending, congrArg (· ++ [Event.taken p]) h.events⟩

theorem moveToActive_totalSize (s : Arena) (p : Nat) : (moveToActive s p).totalSize = s.totalSize := by
  simp only [moveToActive, setPrev_totalSize, setNext]
  exact (relinked_setAvail s _ _).totalSize

section Split
variable {bytes : Headers} {alloc : Nat}

theorem splitBlock_links (havail : Segment (place s.avail s.next) s.prev none (l ++ p :: r) none)
    (hactive : Segment (place s.active s.next) s.prev none active none)
    (hnodup : (l ++ p :: r ++ active).Nodup)
    (hnew : p + L.header + alloc ∉ l ++ p :: r ++ active) :
    Segment (place (splitBlock L bytes s p alloc).avail (splitBlock L bytes s p alloc).next)
      (splitBlock L bytes s p alloc).prev none (l ++ p :: (p + L.header + alloc) :: r) none ∧
    Segment (place (splitBlock L bytes s p alloc).active (splitBlock L bytes s p alloc).next)
      (splitBlock L bytes s p alloc).prev none active none := by
  obtain ⟨hlist, hact, hdisj⟩ := List.nodup_append.1 hnodup
  obtain ⟨hl, hpr, hdisj'⟩ := List.nodup_append.1 hlist
  obtain ⟨hpr', hr⟩ := List.nodup_cons.1 hpr
  obtain ⟨hfront, hback⟩ := havail.split
  have hnext : s.next p = r.head? := by simpa using hback.2.2.after_first
  generalize hq : p + L.header + alloc = q at hnew ⊢
  have hqp : p ≠ q := by
    rintro rfl
    exact hnew (by simp)
  have hmem : ∀ a ∈ l ++ p :: r ++ active, a ≠ q := by
    rintro a ha rfl
    exact hnew ha
  have hp : p ∈ l ++ p :: r := List.mem_append_right _ List.mem_cons_self
  have hstep : (update s.next q (s.next p)) p = r.head? := by
    rw [update_of_ne hqp, hnext]
  have hnextNew : (splitBlock L bytes s p alloc).next =
      update (update s.next q (s.next p)) p (some q) := by
    subst hq
    simp only [splitBlock, setTotal, setNext, setPrev_next]
  have hprevNew : ∀ a, (splitBlock L bytes s p alloc).prev a =
      if a ∈ r.head? then some q else if a = q then some p else s.prev a := by
    intro a
    subst hq
    simp only [splitBlock, setTotal, setNext, setPrev_next]
    rw [hstep]
    split
    · rename_i ha
      exact setPrev_prev_self _ ha
    · rename_i ha
      rw [setPrev_prev_ne _ ha]
      split
      · rename_i hne
        rw [hne]
        exact update_self _ _ _
      · rename_i hne
        exact update_of_ne hne _ _
  have hheads : (splitBlock L bytes s p alloc).avail = s.avail ∧
      (splitBlock L bytes s p alloc).active = s.active := by
    simp [splitBlock, setTotal, setNext]
  have hnextKeep : ∀ a ∈ l ++ p :: r ++ active, a ≠ p →
      (splitBlock L bytes s p alloc).next a = s.next a := by
    intro a ha hne
    rw [hnextNew, update_of_ne hne, update_of_ne (hmem a ha)]
  have hprevKeep : ∀ a ∈ l ++ p :: r ++ active, a ∉ r.head? →
      (splitBlock L bytes s p alloc).prev a = s.prev a := by
    intro a ha hhead
    rw [hprevNew, if_neg hhead, if_neg (hmem a ha)]
  rw [hheads.1, hheads.2]
  constructor
  · have hlp : Segment (place s.avail s.next) s.prev none (l ++ [p]) (s.next p) :=
      hfront.append ⟨hback.1, hback.2.1, rfl⟩
    have hlast : lastPlace none (l ++ [p]) = some p := by
      rw [lastPlace_append]
      rfl
    have hnodup' : (l ++ [p]).Nodup := by
      refine hlist.sublist ?_
      exact (List.Sublist.refl l).append (List.singleton_sublist.2 List.mem_cons_self)
    have hsub : ∀ a ∈ l ++ [p], a ∈ l ++ p :: r ++ active ∧ a ∉ r := by
      intro a ha
      rcases List.mem_append.1 ha with ha | ha
      · refine ⟨List.mem_append_left _ (List.mem_append_left _ ha), fun har => ?_⟩
        exact hdisj' a ha a (List.mem_cons_of_mem p har) rfl
      · cases List.mem_singleton.1 ha
        exact ⟨List.mem_append_left _ hp, hpr'⟩
    have hfront' : Segment (place s.avail (splitBlock L bytes s p alloc).next)
        (splitBlock L bytes s p alloc).prev none (l ++ [p]) (some q) := by
      refine hlp.extend hnodup' ?_ (fun _ => rfl) ?_ ?_
      · rw [hlast, place_some, hnextNew]
        exact update_self _ _ _
      · intro a ha hne
        rw [hlast] at hne
        exact hnextKeep a (hsub a ha).1 fun h => hne (congrArg some h)
      · intro a ha
        exact hprevKeep a (hsub a ha).1 (notMem_of_head (hsub a ha).2)
    have hr_mem : ∀ a ∈ r, a ∈ l ++ p :: r ++ active := fun a ha =>
      List.mem_append_left _ (List.mem_append_right _ (List.mem_cons_of_mem p ha))
    have hqr : q ∉ r.head? := notMem_of_head fun h => hmem q (hr_mem q h) rfl
    have hback' : Segment (place s.avail (splitBlock L bytes s p alloc).next)
        (splitBlock L bytes s p alloc).prev (some q) r none := by
      refine hback.2.2.restart ?_ ?_ ?_ ?_
      · rw [place_some, place_some, hnextNew, update_of_ne hqp.symm, update_self]
      · intro x hx
        rw [hprevNew, if_pos hx]
      · intro x hx
        refine hnextKeep x (hr_mem x hx) ?_
        rintro rfl
        exact hpr' hx
      · intro x hx
        exact hprevKeep x (hr_mem x (List.mem_of_mem_tail hx))
          fun hhead => not_mem_tail_of_head? hr hhead hx
    have hmiddle : (splitBlock L bytes s p alloc).prev q = some p := by
      rw [hprevNew, if_neg hqr, if_pos rfl]
    have hrest : Segment (place s.avail (splitBlock L bytes s p alloc).next)
        (splitBlock L bytes s p alloc).prev (lastPlace none (l ++ [p])) (q :: r) none :=
      ⟨hfront'.after_last, by rw [hmiddle, hlast], hback'⟩
    simpa using hfront'.append hrest
  · have hact_mem : ∀ a ∈ active, a ∈ l ++ p :: r ++ active := fun a ha =>
      List.mem_append_right _ ha
    refine hactive.frame rfl ?_ ?_
    · intro a ha
      refine hnextKeep a (hact_mem a ha) ?_
      rintro rfl
      exact hdisj a hp a ha rfl
    · intro a ha
      refine hprevKeep a (hact_mem a ha) (notMem_of_head fun har => ?_)
      exact hdisj a (List.mem_append_right _ (List.mem_cons_of_mem p har)) a ha rfl

theorem splitBlock_keeps : (splitBlock L bytes s p alloc).count = s.count ∧
    (splitBlock L bytes s p alloc).buffer = s.buffer ∧
    (splitBlock L bytes s p alloc).bufferSize = s.bufferSize ∧
    (splitBlock L bytes s p alloc).pending = s.pending ∧
    (splitBlock L bytes s p alloc).events = s.events := by
  simp only [splitBlock, setTotal, setNext]
  rw [(relinked_setPrev _ _ _).count, (relinked_setPrev _ _ _).count,
    (relinked_setPrev _ _ _).buffer, (relinked_setPrev _ _ _).buffer,
    (relinked_setPrev _ _ _).bufferSize, (relinked_setPrev _ _ _).bufferSize,
    (relinked_setPrev _ _ _).pending, (relinked_setPrev _ _ _).pending,
    (relinked_setPrev _ _ _).events, (relinked_setPrev _ _ _).events]
  exact ⟨rfl, rfl, rfl, rfl, rfl⟩

theorem splitBlock_totalSize :
    (splitBlock L bytes s p alloc).totalSize =
      update (update s.totalSize (p + L.header + alloc)
        (s.totalSize p - alloc - L.header)) p (p + L.header + alloc - p) := by
  simp only [splitBlock, setTotal, setNext, setPrev_totalSize]

theorem splitBlock_size :
    (splitBlock L bytes s p alloc).size =
      update (update s.size (p + L.header + alloc)
        (s.totalSize p - alloc - L.header - L.header)) p (p + L.header + alloc - p - L.header) := by
  simp only [splitBlock, setTotal, setNext, setPrev_size]

theorem splitBlock_msgbuf :
    (splitBlock L bytes s p alloc).msgbuf =
      update s.msgbuf (p + L.header + alloc) (p + L.header + alloc + L.header) := by
  simp only [splitBlock, setTotal, setNext, setPrev_msgbuf]

theorem splitBlock_tiling (h : Tiling L s base (l ++ p :: r ++ active))
    (hroom : alloc + L.header ≤ s.size p) :
    Tiling L (splitBlock L bytes s p alloc) base
        (l ++ p :: (p + L.header + alloc) :: r ++ active) ∧
      (splitBlock L bytes s p alloc).size p = alloc := by
  have hp : p ∈ l ++ p :: r ++ active := by simp
  have hsize := h.sizes p hp
  have hpos := L.pos
  have hperm : (l ++ p :: r ++ active).Perm (p :: (l ++ r ++ active)) := by
    simp only [List.append_assoc, List.cons_append]
    exact List.perm_middle
  have hperm' : (l ++ p :: (p + L.header + alloc) :: r ++ active).Perm
      (p :: (p + L.header + alloc) :: (l ++ r ++ active)) := by
    simp only [List.append_assoc, List.cons_append]
    exact List.perm_middle.trans (List.Perm.cons p List.perm_middle)
  have hbefore := h.perm hperm
  generalize hq : p + L.header + alloc = q at hperm' ⊢
  have hpq : q ≠ p := by omega
  have htotals := @splitBlock_totalSize L s p bytes alloc
  have hsizes := @splitBlock_size L s p bytes alloc
  have hmsgbuf := @splitBlock_msgbuf L s p bytes alloc
  rw [hq] at htotals hsizes hmsgbuf
  have hn := (@splitBlock_keeps L s p bytes alloc).2.2.1
  have hnot : q ∉ p :: (l ++ r ++ active) := by
    intro hmem
    have hle := hbefore.disjoint p List.mem_cons_self q hmem (by omega)
    omega
  have hother : ∀ a ∈ l ++ r ++ active, a ≠ p ∧ a ≠ q := by
    intro a ha
    constructor
    · rintro rfl
      exact (List.nodup_cons.1 hbefore.nodup).1 ha
    · rintro rfl
      exact hnot (List.mem_cons_of_mem p ha)
  constructor
  · refine (hbefore.split (q := q) (by omega) (by omega) ?_ ?_ ?_ ?_ ?_ ?_ ?_ ?_ hn).perm hperm'.symm
    · rw [htotals, update_self]
    · rw [hsizes, update_self]
    · rw [htotals, update_of_ne hpq, update_self]
      omega
    · rw [hsizes, update_of_ne hpq, update_self]
      omega
    · rw [hmsgbuf, update_self]
    · intro a ha
      rw [hsizes, update_of_ne (hother a ha).1, update_of_ne (hother a ha).2]
    · intro a ha
      rw [htotals, update_of_ne (hother a ha).1, update_of_ne (hother a ha).2]
    · intro a ha
      rw [hmsgbuf, update_of_ne]
      rintro rfl
      exact hnot ha
  · rw [hsizes, update_self]
    omega

end Split

variable {n : Int}

theorem toSize_of_nonneg (h₀ : 0 ≤ n) (h : n < 2 ^ 64) : (toSize n : Int) = n := by
  simp only [toSize]
  omega

theorem toSize_of_neg (h₀ : n < 0) (h : -2 ^ 63 ≤ n) : 2 ^ 63 ≤ toSize n := by
  simp only [toSize]
  omega

theorem allocSize_bounds (h₀ : 0 ≤ n) (h : n + 8 < 2 ^ 31) : n ≤ allocSize n ∧ allocSize n < n + 8 := by
  unfold allocSize
  split
  · rw [toInt_eq (by omega) (by omega)]
    omega
  · omega

theorem room_iff {alloc : Int} {header size : Nat} (h₀ : 0 ≤ alloc)
    (halloc : alloc < size + 8) (hsize : size + header < 2 ^ 31) :
    toSize (toInt (toInt (alloc + toInt header) + minBufferBlock)) ≤ size ↔
      alloc + header + 8 ≤ size := by
  rw [toInt_eq (x := header) (by omega) (by omega)]
  have hblock : (minBufferBlock : Int) = 8 := rfl
  rw [hblock]
  by_cases hsmall : alloc + header < 2 ^ 31
  · rw [toInt_eq (by omega) hsmall]
    by_cases hsum : alloc + header + 8 < 2 ^ 31
    · rw [toInt_eq (by omega) hsum]
      have := toSize_of_nonneg (n := alloc + header + 8) (by omega) (by omega)
      omega
    · rw [toInt_of_ge (by omega) (by omega)]
      have := toSize_of_neg (n := alloc + header + 8 - 2 ^ 32) (by omega) (by omega)
      omega
  · rw [toInt_of_ge (x := alloc + header) (by omega) (by omega)]
    rw [toInt_eq (x := alloc + header - 2 ^ 32 + 8) (by omega) (by omega)]
    have := toSize_of_neg (n := alloc + header - 2 ^ 32 + 8) (by omega) (by omega)
    omega

variable {bytes : Headers}

section
variable (h : Lists L s base (l ++ p :: r) active) (hbuffer : s.bufferSize < 2 ^ 31)
variable (hcount : 0 ≤ s.count p ∧ s.count p ≤ s.size p)
include h hbuffer hcount

theorem takeBuffer_split {n : Nat}
    (hn : allocSize (s.count p) = n) (hroom : n + L.header + 8 ≤ s.size p) :
    Lists L (takeBuffer L bytes s p (s.count p)) base (l ++ (p + L.header + n) :: r) (p :: active) ∧
      (takeBuffer L bytes s p (s.count p)).totalSize (p + L.header + n) =
        s.totalSize p - n - L.header := by
  have hp : p ∈ l ++ p :: r ++ active := by simp
  have hw := h.tiling.within p hp
  have hsize := h.tiling.sizes p hp
  have hpos := L.pos
  have halloc := allocSize_bounds hcount.1 (by omega)
  obtain ⟨hlsort, hprsort, hlt⟩ := List.pairwise_append.1 h.sorted
  obtain ⟨hpr, hrsort⟩ := List.pairwise_cons.1 hprsort
  have hlr : ∀ a ∈ l, ∀ b ∈ r, a < b := fun a ha b hb => hlt a ha b (List.mem_cons_of_mem p hb)
  have hmessages : ∀ a ∈ p :: active, 0 ≤ s.count a ∧ s.count a ≤ s.size a :=
    List.forall_mem_cons.2 ⟨hcount, h.messages⟩
  unfold takeBuffer
  dsimp only
  rw [if_pos ((room_iff (by omega) (by omega) (by omega)).2 (by omega))]
  rw [hn, Int.toNat_natCast]
  rw [hn] at halloc
  obtain ⟨htiling, hsplit⟩ := @splitBlock_tiling L s base p l r active bytes n h.tiling (by omega)
  have hnew : p + L.header + n ∉ l ++ p :: r ++ active := by
    intro hmem
    have hle := h.tiling.disjoint p hp _ hmem (by omega)
    omega
  obtain ⟨havail, hactive⟩ := splitBlock_links h.availLinks h.activeLinks h.tiling.nodup hnew
  have hne : ∀ a ∈ l ++ p :: r ++ active, a ≠ p → a ≠ p + L.header + n ∧
      (splitBlock L bytes s p n).totalSize a = s.totalSize a ∧
      (splitBlock L bytes s p n).size a = s.size a := by
    intro a ha hap
    have haq : a ≠ p + L.header + n := by
      rintro rfl
      exact hnew ha
    rw [splitBlock_totalSize, splitBlock_size, update_of_ne hap, update_of_ne haq,
      update_of_ne hap, update_of_ne haq]
    exact ⟨haq, rfl, rfl⟩
  have hlp : ∀ a ∈ l, a < p := fun a ha => hlt a ha p List.mem_cons_self
  refine ⟨moveToActive_lists ?_ ?_ hactive ?_ ?_ ?_, ?_⟩
  · exact htiling
  · exact havail
  · have hrq : ∀ b ∈ r, p + L.header + n < b := by
      intro b hb
      have := h.tiling.disjoint p hp b (by simp [hb]) (hpr b hb)
      omega
    refine List.pairwise_append.2 ⟨hlsort, List.pairwise_cons.2 ⟨hrq, hrsort⟩, ?_⟩
    intro a ha b hb
    rcases List.mem_cons.1 hb with rfl | hb
    · have := hlp a ha
      omega
    · exact hlr a ha b hb
  · have hqtotal : (splitBlock L bytes s p n).totalSize (p + L.header + n) =
        s.totalSize p - n - L.header := by
      rw [splitBlock_totalSize, update_of_ne (by omega), update_self]
    have hmem : ∀ a ∈ l ++ r, a ∈ l ++ p :: r ∧ a ≠ p := by
      intro a ha
      rcases List.mem_append.1 ha with ha | ha
      · exact ⟨List.mem_append_left _ ha, Nat.ne_of_lt (hlp a ha)⟩
      · exact ⟨List.mem_append_right _ (List.mem_cons_of_mem p ha), Nat.ne_of_gt (hpr a ha)⟩
    have hp' : p ∈ l ++ p :: r := List.mem_append_right _ List.mem_cons_self
    intro a ha b hb
    rw [List.mem_append, List.mem_cons, or_left_comm, ← List.mem_append] at ha hb
    rcases ha with rfl | ha
    · rw [hqtotal]
      rcases hb with rfl | hb
      · omega
      · have := h.coalesced p hp' b (hmem b hb).1
        omega
    · rw [(hne a (List.mem_append_left _ (hmem a ha).1) (hmem a ha).2).2.1]
      rcases hb with rfl | hb
      · -- what lies below `p` ends there at the latest
        have hap := (hmem a ha).2
        have hin : a ∈ l ++ p :: r ++ active := List.mem_append_left _ (hmem a ha).1
        rcases Nat.lt_or_gt_of_ne hap with hlt' | hlt'
        · have := h.tiling.disjoint a hin p hp hlt'
          omega
        · have := h.tiling.disjoint p hp a hin hlt'
          omega
      · exact h.coalesced a (hmem a ha).1 b (hmem b hb).1
  · intro a ha
    rw [(@splitBlock_keeps L s p bytes n).1]
    rcases List.mem_cons.1 ha with rfl | hact
    · rw [hsplit]
      omega
    · have hap : a ≠ p := by
        rintro rfl
        have hdisj := (List.nodup_append.1 h.tiling.nodup).2.2
        exact hdisj a (by simp) a hact rfl
      rw [(hne a (List.mem_append_right _ hact) hap).2.2]
      exact h.messages a hact
  · rw [moveToActive_totalSize, splitBlock_totalSize, update_of_ne (by omega),
      update_self]

theorem takeBuffer_whole
    (hroom : ¬ allocSize (s.count p) + L.header + 8 ≤ s.size p) :
    Lists L (takeBuffer L bytes s p (s.count p)) base (l ++ r) (p :: active) := by
  have hp : p ∈ l ++ p :: r ++ active := by simp
  have hw := h.tiling.within p hp
  have hsize := h.tiling.sizes p hp
  have hpos := L.pos
  have halloc := allocSize_bounds hcount.1 (by omega)
  obtain ⟨hlsort, hprsort, hlt⟩ := List.pairwise_append.1 h.sorted
  obtain ⟨hpr, hrsort⟩ := List.pairwise_cons.1 hprsort
  have hlr : ∀ a ∈ l, ∀ b ∈ r, a < b := fun a ha b hb => hlt a ha b (List.mem_cons_of_mem p hb)
  have hmessages : ∀ a ∈ p :: active, 0 ≤ s.count a ∧ s.count a ≤ s.size a :=
    List.forall_mem_cons.2 ⟨hcount, h.messages⟩
  unfold takeBuffer
  dsimp only
  rw [if_neg fun hsmall => hroom ((room_iff (by omega) (by omega) (by omega)).1 hsmall)]
  refine moveToActive_lists h.tiling h.availLinks h.activeLinks ?_ ?_ hmessages
  · exact List.pairwise_append.2 ⟨hlsort, hrsort, hlr⟩
  · intro a ha b hb
    refine h.coalesced a ?_ b ?_
    · simp only [List.mem_append, List.mem_cons] at ha ⊢
      tauto
    · simp only [List.mem_append, List.mem_cons] at hb ⊢
      tauto

theorem takeBuffer_lists :
    ∃ avail, Lists L (takeBuffer L bytes s p (s.count p)) base avail (p :: active) := by
  by_cases hroom : allocSize (s.count p) + L.header + 8 ≤ s.size p
  · have hp : p ∈ l ++ p :: r ++ active := by simp
    have hw := h.tiling.within p hp
    have hsize := h.tiling.sizes p hp
    have hpos := L.pos
    have halloc := allocSize_bounds hcount.1 (by omega)
    obtain ⟨n, hn⟩ : ∃ n : Nat, allocSize (s.count p) = n := ⟨(allocSize (s.count p)).toNat, by omega⟩
    exact ⟨_, (takeBuffer_split h hbuffer hcount hn (by omega)).1⟩
  · exact ⟨_, takeBuffer_whole h hbuffer hcount hroom⟩

end

end FgMpi.Bsend.Taking
