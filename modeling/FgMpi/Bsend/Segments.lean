import FgMpi.Bsend.Buffer

/-! The invariant of the two lists, and what taking and freeing a segment do to them. -/

namespace FgMpi.Bsend.Segments
open Machine.DoublyLinked Bsend.Buffer

variable {L : Layout} {s t : Arena} {base : Nat}

structure Tiling (L : Layout) (s : Arena) (base : Nat) (segs : List Nat) : Prop where
  nodup : segs.Nodup
  sizes : ∀ a ∈ segs, s.size a + L.header = s.totalSize a
  within : ∀ a ∈ segs, base ≤ a ∧ a + s.totalSize a ≤ base + s.bufferSize
  disjoint : ∀ a ∈ segs, ∀ b ∈ segs, a < b → a + s.totalSize a ≤ b
  total : (segs.map s.totalSize).sum = s.bufferSize
  msgbuf : ∀ a ∈ segs, s.msgbuf a = a + L.header

theorem Tiling.perm {xs ys : List Nat} (h : Tiling L s base xs) (hp : xs.Perm ys) : Tiling L s base ys where
  nodup := hp.nodup_iff.1 h.nodup
  sizes := fun a ha => h.sizes a (hp.mem_iff.2 ha)
  within := fun a ha => h.within a (hp.mem_iff.2 ha)
  disjoint := fun a ha b hb => h.disjoint a (hp.mem_iff.2 ha) b (hp.mem_iff.2 hb)
  total := by
    rw [← h.total]
    exact ((hp.map s.totalSize).sum_eq).symm
  msgbuf := fun a ha => h.msgbuf a (hp.mem_iff.2 ha)

variable {segs : List Nat}

theorem Tiling.congr (h : Tiling L s base segs) (hsize : ∀ a ∈ segs, t.size a = s.size a)
    (htotal : ∀ a ∈ segs, t.totalSize a = s.totalSize a)
    (hmsgbuf : ∀ a ∈ segs, t.msgbuf a = s.msgbuf a) (hn : t.bufferSize = s.bufferSize) :
    Tiling L t base segs where
  nodup := h.nodup
  sizes := fun a ha => by rw [hsize a ha, htotal a ha, h.sizes a ha]
  within := fun a ha => by rw [htotal a ha, hn]; exact h.within a ha
  disjoint := fun a ha b hb hab => by rw [htotal a ha]; exact h.disjoint a ha b hb hab
  total := by
    rw [hn, ← h.total]
    exact congrArg List.sum (List.map_congr_left htotal)
  msgbuf := fun a ha => by rw [hmsgbuf a ha, h.msgbuf a ha]

theorem Tiling.header_le (h : Tiling L s base segs) {a : Nat} (ha : a ∈ segs) : 0 < s.totalSize a := by
  have := h.sizes a ha
  have := L.pos
  omega

theorem Tiling.merge {p q : Nat} (h : Tiling L s base (p :: q :: segs))
    (hadj : p + s.totalSize p = q) (htotal : t.totalSize p = s.totalSize p + s.totalSize q)
    (hsize : t.size p = s.totalSize p + s.totalSize q - L.header) (hsizes : ∀ a ∈ segs, t.size a = s.size a)
    (htotals : ∀ a ∈ segs, t.totalSize a = s.totalSize a)
    (hmsgbuf : ∀ a ∈ p :: segs, t.msgbuf a = s.msgbuf a) (hn : t.bufferSize = s.bufferSize) :
    Tiling L t base (p :: segs) := by
  have hp : p ∈ p :: q :: segs := List.mem_cons_self
  have hq : q ∈ p :: q :: segs := List.mem_cons_of_mem p List.mem_cons_self
  have hmem : ∀ a ∈ segs, a ∈ p :: q :: segs := fun a ha =>
    List.mem_cons_of_mem p (List.mem_cons_of_mem q ha)
  have hnodup := h.nodup
  rw [List.nodup_cons, List.nodup_cons] at hnodup
  have hqpos := h.header_le hq
  have hwq := h.within q hq
  have hsp := h.sizes p hp
  refine ⟨?_, ?_, ?_, ?_, ?_, ?_⟩
  · exact List.nodup_cons.2 ⟨fun hps => hnodup.1 (List.mem_cons_of_mem q hps), hnodup.2.2⟩
  · intro a ha
    rcases List.mem_cons.1 ha with rfl | ha
    · rw [hsize, htotal]
      omega
    · rw [hsizes a ha, htotals a ha]
      exact h.sizes a (hmem a ha)
  · intro a ha
    rcases List.mem_cons.1 ha with rfl | ha
    · have := h.within a hp
      rw [htotal, hn]
      omega
    · rw [htotals a ha, hn]
      exact h.within a (hmem a ha)
  · intro a ha b hb hab
    simp only [List.mem_cons] at ha hb
    rcases ha with rfl | ha
    · rcases hb with rfl | hb
      · omega
      · -- what lies behind `p` lies behind `q`
        have hpb := h.disjoint a hp b (hmem b hb) hab
        have hne : b ≠ q := by
          rintro rfl
          exact hnodup.2.1 hb
        have hqb := h.disjoint q hq b (hmem b hb) (by omega)
        rw [htotal]
        omega
    · rw [htotals a ha]
      rcases hb with rfl | hb
      · exact h.disjoint a (hmem a ha) b hp hab
      · exact h.disjoint a (hmem a ha) b (hmem b hb) hab
  · have hsum := h.total
    rw [List.map_cons, List.map_cons, List.sum_cons, List.sum_cons] at hsum
    rw [List.map_cons, List.sum_cons, htotal, List.map_congr_left htotals, hn]
    omega
  · intro a ha
    rw [hmsgbuf a ha]
    refine h.msgbuf a ?_
    rcases List.mem_cons.1 ha with rfl | ha
    · exact hp
    · exact hmem a ha

theorem Tiling.split {p q : Nat} (h : Tiling L s base (p :: segs)) (hpq : p < q)
    (hroom : p + L.header ≤ q ∧ q + L.header ≤ p + s.totalSize p)
    (htotal : t.totalSize p = q - p) (hsize : t.size p = q - p - L.header)
    (htotal' : t.totalSize q = p + s.totalSize p - q) (hsize' : t.size q = p + s.totalSize p - q - L.header)
    (hmsgbuf' : t.msgbuf q = q + L.header) (hsizes : ∀ a ∈ segs, t.size a = s.size a)
    (htotals : ∀ a ∈ segs, t.totalSize a = s.totalSize a)
    (hmsgbuf : ∀ a ∈ p :: segs, t.msgbuf a = s.msgbuf a) (hn : t.bufferSize = s.bufferSize) :
    Tiling L t base (p :: q :: segs) := by
  have hp : p ∈ p :: segs := List.mem_cons_self
  have hmem : ∀ a ∈ segs, a ∈ p :: segs := fun a ha => List.mem_cons_of_mem p ha
  have hnodup := List.nodup_cons.1 h.nodup
  have hw := h.within p hp
  have hpos := L.pos
  -- the other segments lie before `p` or behind its end
  have hout : ∀ a ∈ segs, a + s.totalSize a ≤ p ∨ p + s.totalSize p ≤ a := by
    intro a ha
    have hne : a ≠ p := by
      rintro rfl
      exact hnodup.1 ha
    rcases Nat.lt_or_gt_of_ne hne with hlt | hlt
    · exact Or.inl (h.disjoint a (hmem a ha) p hp hlt)
    · exact Or.inr (h.disjoint p hp a (hmem a ha) hlt)
  refine ⟨?_, ?_, ?_, ?_, ?_, ?_⟩
  · rw [List.nodup_cons, List.nodup_cons]
    refine ⟨?_, ?_, hnodup.2⟩
    · rw [List.mem_cons]
      rintro (rfl | hps)
      · omega
      · exact hnodup.1 hps
    · intro hq
      have := h.header_le (hmem q hq)
      have := hout q hq
      omega
  · intro a ha
    rcases List.mem_cons.1 ha with rfl | ha
    · rw [hsize, htotal]
      omega
    · rcases List.mem_cons.1 ha with rfl | ha
      · rw [hsize', htotal']
        omega
      · rw [hsizes a ha, htotals a ha]
        exact h.sizes a (hmem a ha)
  · intro a ha
    rcases List.mem_cons.1 ha with rfl | ha
    · rw [htotal, hn]
      omega
    · rcases List.mem_cons.1 ha with rfl | ha
      · rw [htotal', hn]
        omega
      · rw [htotals a ha, hn]
        exact h.within a (hmem a ha)
  · intro a ha b hb hab
    simp only [List.mem_cons] at ha hb
    rcases ha with rfl | rfl | ha <;> rcases hb with rfl | rfl | hb
    · omega
    · omega
    · have := hout b hb
      have := h.header_le (hmem b hb)
      omega
    · omega
    · omega
    · have := hout b hb
      have := h.header_le (hmem b hb)
      omega
    · have := hout a ha
      rw [htotals a ha]
      omega
    · have := hout a ha
      rw [htotals a ha]
      omega
    · rw [htotals a ha]
      exact h.disjoint a (hmem a ha) b (hmem b hb) hab
  · have hsum := h.total
    rw [List.map_cons, List.sum_cons] at hsum
    rw [List.map_cons, List.map_cons, List.sum_cons, List.sum_cons, htotal, htotal',
      List.map_congr_left htotals, hn]
    omega
  · intro a ha
    rcases List.mem_cons.1 ha with rfl | ha
    · rw [hmsgbuf a hp]
      exact h.msgbuf a hp
    · rcases List.mem_cons.1 ha with rfl | ha
      · exact hmsgbuf'
      · rw [hmsgbuf a (hmem a ha)]
        exact h.msgbuf a (hmem a ha)

structure Relinked (s t : Arena) : Prop where
  size : t.size = s.size
  totalSize : t.totalSize = s.totalSize
  msgbuf : t.msgbuf = s.msgbuf
  count : t.count = s.count
  request : t.request = s.request
  buffer : t.buffer = s.buffer
  bufferSize : t.bufferSize = s.bufferSize
  pending : t.pending = s.pending
  events : t.events = s.events

theorem Relinked.trans {r : Arena} (h : Relinked s t) (h' : Relinked t r) : Relinked s r :=
  ⟨h'.size.trans h.size, h'.totalSize.trans h.totalSize, h'.msgbuf.trans h.msgbuf,
    h'.count.trans h.count, h'.request.trans h.request, h'.buffer.trans h.buffer,
    h'.bufferSize.trans h.bufferSize, h'.pending.trans h.pending, h'.events.trans h.events⟩

theorem Relinked.tiling (h : Relinked s t) (ht : Tiling L s base segs) : Tiling L t base segs :=
  ht.congr (fun a _ => by rw [h.size]) (fun a _ => by rw [h.totalSize])
    (fun a _ => by rw [h.msgbuf]) h.bufferSize

section Stores
variable (s) (p a : Nat) (q u v : Option Nat)

theorem relinked_setNext : Relinked s (setNext s p v) := ⟨rfl, rfl, rfl, rfl, rfl, rfl, rfl, rfl, rfl⟩

theorem relinked_setActive : Relinked s (setActive s u v) := by
  cases u <;> exact ⟨rfl, rfl, rfl, rfl, rfl, rfl, rfl, rfl, rfl⟩

theorem relinked_setAvail : Relinked s (setAvail s u v) := by
  cases u <;> exact ⟨rfl, rfl, rfl, rfl, rfl, rfl, rfl, rfl, rfl⟩

theorem relinked_setPrev : Relinked s (setPrev s q v) := by
  cases q <;> exact ⟨rfl, rfl, rfl, rfl, rfl, rfl, rfl, rfl, rfl⟩

@[simp] theorem setPrev_next : (setPrev s q v).next = s.next := by cases q <;> rfl

@[simp] theorem setPrev_avail : (setPrev s q v).avail = s.avail := by cases q <;> rfl

@[simp] theorem setPrev_active : (setPrev s q v).active = s.active := by cases q <;> rfl

@[simp] theorem setPrev_size : (setPrev s q v).size = s.size := (relinked_setPrev s q v).size

@[simp] theorem setPrev_totalSize : (setPrev s q v).totalSize = s.totalSize :=
  (relinked_setPrev s q v).totalSize

@[simp] theorem setPrev_msgbuf : (setPrev s q v).msgbuf = s.msgbuf := (relinked_setPrev s q v).msgbuf

variable {s : Arena} {a : Nat}

theorem setPrev_prev_ne {q : Option Nat} (v : Option Nat)
    (h : a ∉ q) : (setPrev s q v).prev a = s.prev a := by
  cases q with
  | none => rfl
  | some q =>
    refine Function.update_of_ne ?_ _ _
    rintro rfl
    exact h rfl

theorem setPrev_prev_self {q : Option Nat} (v : Option Nat) (h : a ∈ q) : (setPrev s q v).prev a = v := by
  cases h
  exact Function.update_self _ _ _

@[simp] theorem setActive_prev : (setActive s u v).prev = s.prev := by cases u <;> rfl

@[simp] theorem setActive_avail : (setActive s u v).avail = s.avail := by cases u <;> rfl

@[simp] theorem setAvail_prev : (setAvail s u v).prev = s.prev := by cases u <;> rfl

@[simp] theorem setAvail_active : (setAvail s u v).active = s.active := by cases u <;> rfl

theorem setActive_next_ne {u : Option Nat} (v : Option Nat) (h : a ∉ u) :
    (setActive s u v).next a = s.next a := by
  cases u with
  | none => rfl
  | some q =>
    refine Function.update_of_ne ?_ _ _
    rintro rfl
    exact h rfl

theorem setAvail_next_ne {u : Option Nat} (v : Option Nat) (h : a ∉ u) :
    (setAvail s u v).next a = s.next a := by
  cases u with
  | none => rfl
  | some q =>
    refine Function.update_of_ne ?_ _ _
    rintro rfl
    exact h rfl

theorem place_setActive :
    place (setActive s u v).active (setActive s u v).next =
      Function.update (place s.active s.next) u v := by
  funext p
  cases u with
  | none => cases p <;> simp [place, setActive]
  | some q =>
    cases p with
    | none => simp [place, setActive, setNext]
    | some p => by_cases h : p = q <;> simp [place, setActive, setNext, h]

theorem place_setAvail :
    place (setAvail s u v).avail (setAvail s u v).next =
      Function.update (place s.avail s.next) u v := by
  funext p
  cases u with
  | none => cases p <;> simp [place, setAvail]
  | some q =>
    cases p with
    | none => simp [place, setAvail, setNext]
    | some p => by_cases h : p = q <;> simp [place, setAvail, setNext, h]

end Stores

theorem places_nodup {xs : List Nat} (h : xs.Nodup) : (none :: xs.map some).Nodup :=
  List.nodup_cons.2 ⟨by simp, h.map (Option.some_injective Nat)⟩

theorem relinked_removeActive (s : Arena) (p : Nat) : Relinked s (removeActive s p) :=
  (relinked_setActive s _ _).trans (relinked_setPrev _ _ _)

section Unlink
variable {p : Nat} {avail xs ys : List Nat}

theorem notMem_of_place {a : Nat} (ha : a ∉ xs) : a ∉ lastPlace none xs :=
  fun h => ha (lastPlace_eq_some h)

theorem notMem_of_head {a : Nat} (ha : a ∉ ys) : a ∉ ys.head? :=
  fun h => ha (List.mem_of_mem_head? h)

theorem removeActive_links (hactive : Segment (place s.active s.next) s.prev none (xs ++ p :: ys) none)
    (havail : Segment (place s.avail s.next) s.prev none avail none)
    (hnodup : (avail ++ (xs ++ p :: ys)).Nodup) :
    Segment (place (removeActive s p).active (removeActive s p).next) (removeActive s p).prev none
      (xs ++ ys) none ∧
    Segment (place (removeActive s p).avail (removeActive s p).next) (removeActive s p).prev none
      avail none := by
  obtain ⟨_, hlist, hdisj⟩ := List.nodup_append.1 hnodup
  obtain ⟨_, hpys, hdisj'⟩ := List.nodup_append.1 hlist
  obtain ⟨_, hback⟩ := hactive.split
  have hprev : s.prev p = lastPlace none xs := hback.2.1
  have hnext : s.next p = ys.head? := by simpa using hback.2.2.after_first
  have hp : p ∉ lastPlace none xs :=
    notMem_of_place fun hp => hdisj' p hp p List.mem_cons_self rfl
  have hstep : (setActive s (s.prev p) (s.next p)).next p = ys.head? := by
    rw [setActive_next_ne _ (by rw [hprev]; exact hp), hnext]
  unfold removeActive
  dsimp only
  rw [hstep]
  constructor
  · rw [setPrev_active, setPrev_next, place_setActive]
    refine hactive.unlink (places_nodup hlist) ?_ ?_
    · intro y hy
      exact setPrev_prev_self _ hy
    · intro y hy
      rw [setPrev_prev_ne _ ?_, setActive_prev]
      intro hhead
      rcases List.mem_append.1 hy with hy | hy
      · exact hdisj' y hy y (List.mem_cons_of_mem p (List.mem_of_mem_head? hhead)) rfl
      · exact not_mem_tail_of_head? (List.nodup_cons.1 hpys).2 hhead hy
  · refine havail.frame ?_ ?_ ?_
    · simp
    · intro a ha
      rw [setPrev_next, setActive_next_ne _ ?_]
      rw [hprev]
      exact notMem_of_place fun hx => hdisj a ha a (List.mem_append_left _ hx) rfl
    · intro a ha
      rw [setPrev_prev_ne _ ?_, setActive_prev]
      refine notMem_of_head fun hy => hdisj a ha a ?_ rfl
      exact List.mem_append_right _ (List.mem_cons_of_mem p hy)

end Unlink

structure Lists (L : Layout) (s : Arena) (base : Nat) (avail active : List Nat) : Prop where
  tiling : Tiling L s base (avail ++ active)
  availLinks : Segment (place s.avail s.next) s.prev none avail none
  activeLinks : Segment (place s.active s.next) s.prev none active none
  sorted : avail.Pairwise (· < ·)
  coalesced : ∀ a ∈ avail, ∀ b ∈ avail, a + s.totalSize a ≠ b
  messages : ∀ a ∈ active, 0 ≤ s.count a ∧ s.count a ≤ s.size a

structure Kept (s t : Arena) : Prop where
  request : t.request = s.request
  buffer : t.buffer = s.buffer
  bufferSize : t.bufferSize = s.bufferSize
  pending : t.pending = s.pending
  events : t.events = s.events

theorem Kept.trans {r : Arena} (h : Kept s t) (h' : Kept t r) : Kept s r :=
  ⟨h'.request.trans h.request, h'.buffer.trans h.buffer, h'.bufferSize.trans h.bufferSize,
    h'.pending.trans h.pending, h'.events.trans h.events⟩

theorem Relinked.kept (h : Relinked s t) : Kept s t :=
  ⟨h.request, h.buffer, h.bufferSize, h.pending, h.events⟩

theorem kept_setTotal (s : Arena) (p n : Nat) : Kept s (setTotal L s p n) := ⟨rfl, rfl, rfl, rfl, rfl⟩

end FgMpi.Bsend.Segments
