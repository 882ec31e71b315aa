import FgMpi.Bsend.Freeing
import FgMpi.Bsend.Taking
import FgMpi.Machine.LinkedQueue
import Mathlib.Algebra.Order.BigOperators.Group.List
import Mathlib.Order.Interval.Finset.Nat

/-! The segments tile the attached buffer in every state, and no segment is freed twice. -/

namespace FgMpi.Bsend.Arena
open Machine.DoublyLinked Machine.Ints Machine.Runs Bsend.Buffer Bsend.Segments
open Bsend.Freeing Bsend.Taking

def Out (a : Nat) (events : List Event) : Prop :=
  ∃ before after, events = before ++ .taken a :: after ∧ .freed a ∉ after

def FreedOnce (events : List Event) : Prop :=
  ∀ before a after, events = before ++ .freed a :: after → Out a before

structure Logged (events : List Event) (active : List Nat) : Prop where
  once : FreedOnce events
  out : ∀ a ∈ active, Out a events

variable {events : List Event}

theorem Out.concat {a : Nat} {e : Event} (h : Out a events) (he : e ≠ .freed a) : Out a (events ++ [e]) := by
  obtain ⟨before, after, rfl, hafter⟩ := h
  refine ⟨before, after ++ [e], by simp, ?_⟩
  rw [List.mem_append, List.mem_singleton]
  rintro (h | h)
  · exact hafter h
  · exact he h.symm

theorem FreedOnce.concat {e : Event} (h : FreedOnce events)
    (he : ∀ a, e = .freed a → Out a events) : FreedOnce (events ++ [e]) := by
  intro before a after heq
  rcases List.eq_nil_or_concat after with rfl | ⟨after, e', rfl⟩
  · obtain ⟨rfl, hcons⟩ := List.append_inj' heq rfl
    exact he a (List.cons.inj hcons).1
  · rw [List.concat_eq_append, ← List.cons_append, ← List.append_assoc] at heq
    exact h before a after (List.append_inj' heq rfl).1

variable {xs ys avail' : List Nat} {p n packsize : Nat}

theorem Logged.free
    (h : Logged events (xs ++ p :: ys)) (hnodup : (xs ++ p :: ys).Nodup) :
    Logged (events ++ [.freed p]) (xs ++ ys) := by
  have hp : p ∈ xs ++ p :: ys := List.mem_append_right _ List.mem_cons_self
  refine ⟨h.once.concat ?_, ?_⟩
  · rintro a ⟨⟩
    exact h.out p hp
  · intro a ha
    have hmem : a ∈ xs ++ p :: ys := by
      simp only [List.mem_append, List.mem_cons] at ha ⊢
      tauto
    have hap : a ≠ p := by
      rintro rfl
      have hperm : (xs ++ a :: ys).Perm (a :: (xs ++ ys)) := List.perm_middle
      exact (List.nodup_cons.1 (hperm.nodup_iff.1 hnodup)).1 ha
    refine (h.out a hmem).concat ?_
    rintro ⟨⟩
    exact hap rfl

theorem Logged.take {active : List Nat} (h : Logged events active) (p : Nat) :
    Logged (events ++ [.taken p]) (p :: active) := by
  refine ⟨h.once.concat ?_, ?_⟩
  · rintro a ⟨⟩
  · intro a ha
    rcases List.mem_cons.1 ha with rfl | ha
    · exact ⟨events, [], rfl, List.not_mem_nil⟩
    · refine (h.out a ha).concat ?_
      rintro ⟨⟩

structure Attached (L : Layout) (fuel : Nat) (s : Arena) (base : Nat) (avail active : List Nat) :
    Prop where
  lists : Lists L s base avail active
  buffer : s.buffer = some base
  bound : s.bufferSize < 2 ^ 31
  fuel : s.bufferSize < fuel
  pending : s.pending = none

variable {L : Layout} {fuel : Nat} {s t : Arena} {base : Nat} {avail active : List Nat}

theorem length_le_total {segs : List Nat} (h : Tiling L s base segs) : segs.length ≤ s.bufferSize := by
  have hone : ∀ n ∈ segs.map s.totalSize, 1 ≤ n := by
    intro n hn
    obtain ⟨a, ha, rfl⟩ := List.mem_map.1 hn
    exact h.header_le ha
  have hle := List.length_le_sum_of_one_le _ hone
  rwa [List.length_map, h.total] at hle

theorem Attached.short (h : Attached L fuel s base avail active) : avail.length + active.length < fuel := by
  have hle := length_le_total h.lists.tiling
  have hfuel := h.fuel
  rw [List.length_append] at hle
  omega

structure Continues (L : Layout) (fuel base : Nat) (s : Arena) (active : List Nat) (t : Arena)
    (avail' active' : List Nat) : Prop where
  attached : Attached L fuel t base avail' active'
  bufferSize : t.bufferSize = s.bufferSize
  logged : Logged s.events active → Logged t.events active'

theorem Attached.continues (h : Attached L fuel s base avail active) :
    Continues L fuel base s active s avail active :=
  ⟨h, rfl, id⟩

theorem Continues.trans {r : Arena} {active' avail'' active'' : List Nat}
    (h : Continues L fuel base s active t avail' active')
    (h' : Continues L fuel base t active' r avail'' active'') :
    Continues L fuel base s active r avail'' active'' :=
  ⟨h'.attached, h'.bufferSize.trans h.bufferSize, fun hl => h'.logged (h.logged hl)⟩

theorem freeSegment_continues
    (h : Attached L fuel s base avail (xs ++ p :: ys)) :
    ∃ t l r, freeSegment L fuel s p = some t ∧ l ≠ [] ∧
      Continues L fuel base s (xs ++ p :: ys) t (l ++ r) (xs ++ ys) ∧ t.request = s.request ∧
      t.next p = r.head? ∧ ∀ q ∈ r, q ∈ avail ∧ p + s.totalSize p < q := by
  have hshort := h.short
  obtain ⟨t, l, r, hfree, hl, hlists, hkept, hnext, hfar⟩ :=
    freeSegment_lists h.lists (by omega : avail.length < fuel)
  have hsize : t.bufferSize = s.bufferSize := hkept.bufferSize
  refine ⟨t, l, r, hfree, hl, ⟨⟨hlists, ?_, ?_, ?_, ?_⟩, hsize, ?_⟩, hkept.request, hnext, hfar⟩
  · rw [hkept.buffer]
    exact h.buffer
  · rw [hsize]
    exact h.bound
  · rw [hsize]
    exact h.fuel
  · rw [hkept.pending]
    exact h.pending
  · intro hlogged
    rw [hkept.events]
    exact hlogged.free (List.nodup_append.1 h.lists.tiling.nodup).2.1

theorem next_of_active (h : Lists L s base avail (xs ++ p :: ys)) : s.next p = ys.head? := by
  obtain ⟨_, _, _, hback⟩ := h.activeLinks.split
  simpa using hback.after_first

theorem checkLoop_continues (e : Progress) {seen rest : List Nat}
    (h : Attached L fuel s base avail (seen ++ rest)) (hn : rest.length ≤ n) :
    ∃ t errno avail' active', checkLoop L fuel e n s rest.head? = some (t, errno) ∧
      Continues L fuel base s (seen ++ rest) t avail' active' := by
  induction rest generalizing s avail seen n with
  | nil =>
    refine ⟨s, .success, avail, seen ++ [], ?_, h.continues⟩
    cases n <;> rfl
  | cons p rest ih =>
    rw [List.length_cons] at hn
    obtain ⟨m, rfl⟩ : ∃ m, n = m + 1 := ⟨n - 1, by omega⟩
    have hnext := next_of_active h.lists
    rw [List.head?_cons, checkLoop, hnext]
    cases htest : testActive e s p with
    | none => exact ⟨s, .other, avail, seen ++ p :: rest, rfl, h.continues⟩
    | some flag =>
      cases flag with
      | false =>
        have heq : seen ++ p :: rest = seen ++ [p] ++ rest := by simp
        rw [heq] at h ⊢
        exact ih h (by omega)
      | true =>
        obtain ⟨t, l, r, hfree, _, hcont, _, _, _⟩ := freeSegment_continues h
        obtain ⟨t', errno, avail', active', hloop, hcont'⟩ := @ih m t (l ++ r) seen hcont.attached
          (by omega)
        simp only [hfree]
        exact ⟨t', errno, avail', active', hloop, hcont.trans hcont'⟩

theorem checkActive_continues (e : Progress) (h : Attached L fuel s base avail active) :
    ∃ t errno avail' active', checkActive L fuel e s = some (t, errno) ∧
      Continues L fuel base s active t avail' active' := by
  have hfirst : s.active = active.head? := by simpa using h.lists.activeLinks.after_first
  have hshort := h.short
  have hall : Attached L fuel s base avail ([] ++ active) := h
  rw [checkActive, hfirst]
  exact checkLoop_continues e hall (by omega)

theorem freeReqLoop_avail (req : Nat) {l r : List Nat} {errno : Errno}
    (h : Attached L fuel s base (l ++ r) active) (hl : l ≠ []) (hn : r.length ≤ n) :
    ∃ errno', freeReqLoop L fuel req n s r.head? errno =
      some ({ s with events := s.events ++
        (r.filter fun q => s.request q = some req).map .freed }, errno') := by
  induction r generalizing s l n errno with
  | nil =>
    refine ⟨errno, ?_⟩
    cases n <;> simp [freeReqLoop]
  | cons q r ih =>
    rw [List.length_cons] at hn
    obtain ⟨m, rfl⟩ : ∃ m, n = m + 1 := ⟨n - 1, by omega⟩
    have hshort := h.short
    obtain ⟨_, _, _, hback⟩ := h.lists.availLinks.split
    have hnext : s.next q = r.head? := by simpa using hback.after_first
    have heq : l ++ q :: r = l ++ [q] ++ r := by simp
    rw [List.head?_cons, freeReqLoop]
    by_cases hreq : s.request q = some req
    · have hagain := freeSegment_again h.lists hl (by omega : (l ++ q :: r).length < fuel)
      rw [if_pos hreq, hagain]
      have h' : Attached L fuel { s with events := s.events ++ [.freed q] } base (l ++ [q] ++ r)
          active := by
        rw [← heq]
        exact ⟨⟨h.lists.tiling.congr (fun _ _ => rfl) (fun _ _ => rfl) (fun _ _ => rfl) rfl,
          h.lists.availLinks, h.lists.activeLinks, h.lists.sorted, h.lists.coalesced,
          h.lists.messages⟩, h.buffer, h.bound, h.fuel, h.pending⟩
      obtain ⟨errno', hloop⟩ := @ih m _ (l ++ [q]) .success h' (by simp) (by omega)
      refine ⟨errno', ?_⟩
      dsimp only
      rw [hnext, hloop]
      simp [hreq]
    · rw [if_neg hreq, hnext]
      rw [heq] at h
      obtain ⟨errno', hloop⟩ := @ih m _ (l ++ [q]) errno h (by simp) (by omega)
      refine ⟨errno', ?_⟩
      rw [hloop]
      simp [hreq]

/-- No free segment behind the end of the segment that the request is found in still has that request
in its header. -/
def NoneStale (s : Arena) (req : Nat) (avail active : List Nat) : Prop :=
  ∀ p ∈ active.find? (fun a => s.request a = some req), ∀ q ∈ avail, p + s.totalSize p < q →
    s.request q ≠ some req

theorem freeReqLoop_active (req : Nat) {seen rest : List Nat} {errno : Errno}
    (h : Attached L fuel s base avail (seen ++ rest)) (hn : n + seen.length = fuel)
    (hseen : ∀ a ∈ seen, s.request a ≠ some req) :
    ∃ t errno' avail' active', freeReqLoop L fuel req n s rest.head? errno = some (t, errno') ∧
      Attached L fuel t base avail' active' ∧ t.bufferSize = s.bufferSize ∧
      (NoneStale s req avail (seen ++ rest) → Logged s.events (seen ++ rest) →
        Logged t.events active') := by
  induction rest generalizing seen n errno with
  | nil =>
    refine ⟨s, errno, avail, seen ++ [], ?_, h, rfl, fun _ => id⟩
    cases n <;> rfl
  | cons p rest ih =>
    have hshort := h.short
    rw [List.length_append, List.length_cons] at hshort
    obtain ⟨m, rfl⟩ : ∃ m, n = m + 1 := ⟨n - 1, by omega⟩
    rw [List.head?_cons, freeReqLoop]
    by_cases hreq : s.request p = some req
    · obtain ⟨t, l, r, hfree, hl, hcont, hrequest, hnext, hfar⟩ := freeSegment_continues h
      have hlen := length_le_total hcont.attached.lists.tiling
      have hfuel := hcont.attached.fuel
      simp only [List.length_append] at hlen
      obtain ⟨errno', hloop⟩ := @freeReqLoop_avail m L fuel t base _ req l r .success hcont.attached
        hl (by omega)
      rw [if_pos hreq]
      simp only [hfree]
      rw [hnext, hloop]
      refine ⟨_, errno', l ++ r, seen ++ rest, rfl, ?_, hcont.bufferSize, ?_⟩
      · exact ⟨⟨hcont.attached.lists.tiling.congr (fun _ _ => rfl) (fun _ _ => rfl) (fun _ _ => rfl)
          rfl, hcont.attached.lists.availLinks, hcont.attached.lists.activeLinks,
          hcont.attached.lists.sorted, hcont.attached.lists.coalesced,
          hcont.attached.lists.messages⟩, hcont.attached.buffer, hcont.attached.bound,
          hcont.attached.fuel, hcont.attached.pending⟩
      · intro hstale hlogged
        have hfind : (seen ++ p :: rest).find? (fun a => s.request a = some req) = some p := by
          rw [List.find?_append, List.find?_eq_none.2 (by simpa using hseen)]
          simp [hreq]
        have hnone : r.filter (fun q => t.request q = some req) = [] := by
          rw [List.filter_eq_nil_iff]
          intro q hq
          have hne := hstale p hfind q (hfar q hq).1 (hfar q hq).2
          rw [hrequest]
          simpa using hne
        rw [hnone]
        simpa using hcont.logged hlogged
    · have heq : seen ++ p :: rest = seen ++ [p] ++ rest := by simp
      rw [if_neg hreq, next_of_active h.lists]
      rw [heq] at h ⊢
      refine ih h ?_ ?_
      · rw [List.length_append, List.length_singleton]
        omega
      · intro a ha
        rcases List.mem_append.1 ha with ha | ha
        · exact hseen a ha
        · cases List.mem_singleton.1 ha
          exact hreq

theorem freeReqSeg_attached (req : Nat) (h : Attached L fuel s base avail active) :
    ∃ t errno avail' active', freeReqSeg L fuel s req = some (t, errno) ∧
      Attached L fuel t base avail' active' ∧ t.bufferSize = s.bufferSize ∧
      (NoneStale s req avail active → Logged s.events active → Logged t.events active') := by
  have hfirst : s.active = active.head? := by simpa using h.lists.activeLinks.after_first
  have hall : Attached L fuel s base avail ([] ++ active) := h
  rw [freeReqSeg, hfirst]
  exact freeReqLoop_active req hall rfl (by simp)

theorem findBuffer_spec (size : Int) (h : Attached L fuel s base avail active) :
    ∃ found, findBuffer fuel s size = some found ∧
      ∀ p ∈ found, p ∈ avail ∧ toSize size ≤ s.size p := by
  have hshort := h.short
  have hsplit : avail = avail.takeWhile (fun p => !decide (toSize size ≤ s.size p)) ++
      avail.dropWhile (fun p => !decide (toSize size ≤ s.size p)) :=
    List.takeWhile_append_dropWhile.symm
  have hlinks := h.lists.availLinks
  rw [hsplit] at hlinks
  have hhead : ∀ y ∈ (avail.dropWhile (fun p => !decide (toSize size ≤ s.size p))).head?,
      decide (toSize size ≤ s.size y) = true := by
    intro y hy
    have hnot := List.head?_dropWhile_not (fun p => !decide (toSize size ≤ s.size p)) avail
    rw [hy] at hnot
    simpa using hnot
  have hseek : seek s.next (fun p => decide (toSize size ≤ s.size p)) fuel none
      (place s.avail s.next none) = some (_, _) := seek_segment hlinks (fun _ _ => rfl) ?_ hhead ?_
  · refine ⟨(avail.dropWhile (fun p => !decide (toSize size ≤ s.size p))).head?, ?_, ?_⟩
    · rw [findBuffer]
      rw [place_none] at hseek
      rw [hseek]
      rfl
    · intro p hp
      refine ⟨?_, by simpa using hhead p hp⟩
      exact (List.dropWhile_sublist _).subset (List.mem_of_mem_head? hp)
  · intro x hx
    simpa using List.mem_takeWhile_imp hx
  · have := (List.takeWhile_sublist (fun p => !decide (toSize size ≤ s.size p)) (l := avail)).length_le
    omega

def Fits (L : Layout) (s : Arena) (packsize : Nat) : Prop :=
  packsize < 2 ^ 32 ∨ s.bufferSize < packsize % 2 ^ 32 + L.header

theorem packsize_le (h : Attached L fuel s base avail active) (hp : p ∈ avail)
    (hfits : Fits L s packsize) (hfound : toSize (toInt packsize) ≤ s.size p) :
    toInt packsize = packsize ∧ packsize ≤ s.size p := by
  have hmem : p ∈ avail ++ active := List.mem_append_left _ hp
  have hsize := h.lists.tiling.sizes p hmem
  have hw := h.lists.tiling.within p hmem
  have hbound := h.bound
  have hmod : toInt packsize = toInt ((packsize % 2 ^ 32 : Nat) : Int) := by
    exact_mod_cast (toInt_of_emod packsize).symm
  by_cases hsmall : packsize % 2 ^ 32 < 2 ^ 31
  · rw [toInt_eq (x := ((packsize % 2 ^ 32 : Nat) : Int)) (by omega) (by omega)] at hmod
    rw [hmod] at hfound
    have hnat := toSize_of_nonneg (n := ((packsize % 2 ^ 32 : Nat) : Int)) (by omega) (by omega)
    rcases hfits with hfits | hfits
    · rw [hmod]
      omega
    · omega
  · rw [toInt_of_ge (x := ((packsize % 2 ^ 32 : Nat) : Int)) (by omega) (by omega)] at hmod
    rw [hmod] at hfound
    have hneg := toSize_of_neg (n := ((packsize % 2 ^ 32 : Nat) : Int) - 2 ^ 32) (by omega) (by omega)
    omega

theorem lists_congr (h : Lists L s base avail active) (hsize : ∀ a ∈ avail ++ active, t.size a = s.size a)
    (htotal : ∀ a ∈ avail ++ active, t.totalSize a = s.totalSize a)
    (hmsgbuf : ∀ a ∈ avail ++ active, t.msgbuf a = s.msgbuf a)
    (hnext : ∀ a ∈ avail ++ active, t.next a = s.next a) (hprev : ∀ a ∈ avail ++ active, t.prev a = s.prev a)
    (hcount : ∀ a ∈ active, t.count a = s.count a) (havail : t.avail = s.avail)
    (hactive : t.active = s.active) (hn : t.bufferSize = s.bufferSize) :
    Lists L t base avail active where
  tiling := h.tiling.congr hsize htotal hmsgbuf hn
  availLinks := h.availLinks.frame havail (fun a ha => hnext a (List.mem_append_left _ ha))
    (fun a ha => hprev a (List.mem_append_left _ ha))
  activeLinks := h.activeLinks.frame hactive (fun a ha => hnext a (List.mem_append_right _ ha))
    (fun a ha => hprev a (List.mem_append_right _ ha))
  sorted := h.sorted
  coalesced := by
    intro a ha b hb
    rw [htotal a (List.mem_append_left _ ha)]
    exact h.coalesced a ha b hb
  messages := by
    intro a ha
    rw [hcount a ha, hsize a (List.mem_append_right _ ha)]
    exact h.messages a ha

theorem overwrite_misses (h : Lists L s base avail active) (hp : p ∈ avail)
    (hn : n ≤ s.size p) {a : Nat} (ha : a ∈ avail ++ active) :
    ¬ (0 < n ∧ a < s.msgbuf p + n ∧ s.msgbuf p < a + L.header) := by
  have hmem : p ∈ avail ++ active := List.mem_append_left _ hp
  have hbuf := h.tiling.msgbuf p hmem
  have hsize := h.tiling.sizes p hmem
  have hsize' := h.tiling.sizes a ha
  rw [hbuf]
  rcases Nat.lt_trichotomy a p with hlt | rfl | hlt
  · have := h.tiling.disjoint a ha p hmem hlt
    omega
  · omega
  · have := h.tiling.disjoint p hmem a ha hlt
    omega

theorem overwrite_lists (bytes : Headers) (h : Lists L s base avail active)
    (hp : p ∈ avail) (hn : n ≤ s.size p) :
    Lists L (overwrite L s bytes (s.msgbuf p) n) base avail active := by
  have hmiss : ∀ a ∈ avail ++ active,
      decide (0 < n ∧ a < s.msgbuf p + n ∧ s.msgbuf p < a + L.header) = false := fun a ha =>
    decide_eq_false (overwrite_misses h hp hn ha)
  refine lists_congr h ?_ ?_ ?_ ?_ ?_ ?_ rfl rfl rfl
  · intro a ha
    simp only [overwrite, hmiss a ha, Bool.false_eq_true, if_false]
  · intro a ha
    simp only [overwrite, hmiss a ha, Bool.false_eq_true, if_false]
  · intro a ha
    simp only [overwrite, hmiss a ha, Bool.false_eq_true, if_false]
  · intro a ha
    simp only [overwrite, hmiss a ha, Bool.false_eq_true, if_false]
  · intro a ha
    simp only [overwrite, hmiss a ha, Bool.false_eq_true, if_false]
  · intro a ha
    simp only [overwrite, hmiss a (List.mem_append_right _ ha), Bool.false_eq_true, if_false]

theorem takeBuffer_kept (bytes : Headers) (s : Arena) (p : Nat) (size : Int) :
    (takeBuffer L bytes s p size).buffer = s.buffer ∧
    (takeBuffer L bytes s p size).bufferSize = s.bufferSize ∧
    (takeBuffer L bytes s p size).pending = s.pending ∧
    (takeBuffer L bytes s p size).events = s.events ++ [.taken p] := by
  unfold takeBuffer
  dsimp only
  split
  · have hsplit := @splitBlock_keeps L s p bytes (allocSize size).toNat
    have hmove := moveToActive_kept (splitBlock L bytes s p (allocSize size).toNat) p
    refine ⟨hmove.buffer.trans hsplit.2.1, hmove.bufferSize.trans hsplit.2.2.1,
      hmove.pending.trans hsplit.2.2.2.1, ?_⟩
    rw [hmove.events, hsplit.2.2.2.2]
  · have hmove := moveToActive_kept s p
    exact ⟨hmove.buffer, hmove.bufferSize, hmove.pending, hmove.events⟩

theorem packInto_lists (e : Send) (h : Lists L s base avail active)
    (hp : p ∈ avail) (hle : packsize ≤ s.size p) :
    Lists L (packInto L e s p packsize) base avail active ∧
      (packInto L e s p packsize).size p = s.size p := by
  constructor
  · refine lists_congr (overwrite_lists e.bytes h hp hle) (fun _ _ => rfl) (fun _ _ => rfl)
      (fun _ _ => rfl) (fun _ _ => rfl) (fun _ _ => rfl) ?_ rfl rfl rfl
    intro a ha
    refine Function.update_of_ne ?_ _ _
    rintro rfl
    exact (List.nodup_append.1 h.tiling.nodup).2.2 a hp a ha rfl
  · have hmiss := overwrite_misses h hp hle (List.mem_append_left active hp)
    simp only [packInto, overwrite, decide_eq_false hmiss, Bool.false_eq_true, if_false]

theorem sendFrom_cases (e : Send) (kind : Kind)
    (h : Attached L fuel s base avail active) (hp : p ∈ avail) (hint : toInt packsize = packsize)
    (hle : packsize ≤ s.size p) :
    ∃ t, Attached L fuel t base avail active ∧ t.size p = s.size p ∧ t.bufferSize = s.bufferSize ∧
      t.events = s.events ∧ ((sendFrom L e s p packsize kind).1 = t ∨
        t.count p = packsize ∧ (sendFrom L e s p packsize kind).1 =
          { takeBuffer L e.bytes t p (t.count p) with
            kind := Function.update (takeBuffer L e.bytes t p (t.count p)).kind p kind }) := by
  have hcleared : Lists L { s with count := Function.update s.count p 0 } base avail active := by
    refine lists_congr h.lists (fun _ _ => rfl) (fun _ _ => rfl) (fun _ _ => rfl) (fun _ _ => rfl)
      (fun _ _ => rfl) ?_ rfl rfl rfl
    intro a ha
    refine Function.update_of_ne ?_ _ _
    rintro rfl
    exact (List.nodup_append.1 h.lists.tiling.nodup).2.2 a hp a ha rfl
  obtain ⟨hpacked, hsize⟩ := packInto_lists e hcleared hp hle
  have hcount : (packInto L e { s with count := Function.update s.count p 0 } p packsize).count p =
      toInt packsize := Function.update_self _ _ _
  have hsame : toInt ((packInto L e { s with count := Function.update s.count p 0 } p
      packsize).count p) =
      (packInto L e { s with count := Function.update s.count p 0 } p packsize).count p := by
    rw [hcount, hint, hint]
  unfold sendFrom
  dsimp only
  split
  · exact ⟨_, ⟨hcleared, h.buffer, h.bound, h.fuel, h.pending⟩, rfl, rfl, rfl, Or.inl rfl⟩
  · split
    · exact ⟨_, ⟨hpacked, h.buffer, h.bound, h.fuel, h.pending⟩, hsize, rfl, rfl, Or.inl rfl⟩
    · split
      · exact ⟨_, ⟨hpacked, h.buffer, h.bound, h.fuel, h.pending⟩, hsize, rfl, rfl, Or.inl rfl⟩
      · refine ⟨_, ⟨hpacked, h.buffer, h.bound, h.fuel, h.pending⟩, hsize, rfl, rfl, Or.inr ?_⟩
        rw [hsame]
        exact ⟨hcount.trans hint, rfl⟩

theorem taken_attached {n : Int} {bytes : Headers} (kind : Kind)
    (h : Attached L fuel s base avail active)
    (htaken : Lists L (takeBuffer L bytes s p n) base avail' (p :: active)) :
    Attached L fuel { takeBuffer L bytes s p n with
      kind := Function.update (takeBuffer L bytes s p n).kind p kind } base avail' (p :: active) := by
  obtain ⟨hbuffer, hsize, hpending, _⟩ := takeBuffer_kept bytes s p n (L := L)
  refine ⟨?_, hbuffer.trans h.buffer, hsize.trans_lt h.bound, hsize.trans_lt h.fuel,
    hpending.trans h.pending⟩
  exact lists_congr htaken (fun _ _ => rfl) (fun _ _ => rfl) (fun _ _ => rfl)
    (fun _ _ => rfl) (fun _ _ => rfl) (fun _ _ => rfl) rfl rfl rfl

theorem sendFrom_continues (e : Send) (kind : Kind)
    (h : Attached L fuel s base avail active) (hp : p ∈ avail) (hint : toInt packsize = packsize)
    (hle : packsize ≤ s.size p) :
    ∃ avail' active', Continues L fuel base s active (sendFrom L e s p packsize kind).1 avail'
      active' := by
  obtain ⟨t, hatt, hsize, hn, hevents, hsent | ⟨hcount, hsent⟩⟩ := sendFrom_cases e kind h hp hint hle
  · rw [hsent]
    exact ⟨avail, active, hatt, hn, fun hlogged => hevents ▸ hlogged⟩
  · rw [hsent]
    obtain ⟨l, r, rfl⟩ := List.append_of_mem hp
    obtain ⟨avail', htaken⟩ := @takeBuffer_lists L t base p l r active e.bytes hatt.lists hatt.bound
      (by rw [hcount, hsize]; exact ⟨Int.natCast_nonneg _, Int.ofNat_le.2 hle⟩)
    obtain ⟨_, hn', _, hevents'⟩ := @takeBuffer_kept L e.bytes t p (t.count p)
    refine ⟨avail', p :: active, taken_attached kind hatt htaken, hn'.trans hn, ?_⟩
    intro hlogged
    rw [← hevents] at hlogged
    exact hevents' ▸ hlogged.take p

theorem isend_continues (e : Send) (kind : Kind)
    (h : Attached L fuel s base avail active) (hfits : Fits L s packsize) :
    ∃ t errno avail' active', isend L fuel e s packsize kind = some (t, errno) ∧
      Continues L fuel base s active t avail' active' := by
  obtain ⟨s₁, errno₁, avail₁, active₁, hcheck, hcont⟩ := checkActive_continues e.first h
  have hsend : ∀ {s' : Arena} {avail' active' : List Nat} {p : Nat},
      Continues L fuel base s active s' avail' active' → p ∈ avail' →
      toSize (toInt packsize) ≤ s'.size p →
      ∃ avail'' active'', Continues L fuel base s active (sendFrom L e s' p packsize kind).1 avail''
        active'' := by
    intro s' avail' active' p hcont' hp hfound
    have hfits' : Fits L s' packsize := by
      rw [Fits, hcont'.bufferSize]
      exact hfits
    obtain ⟨hint, hle⟩ := packsize_le hcont'.attached hp hfits' hfound
    obtain ⟨avail'', active'', hsent⟩ := sendFrom_continues e kind hcont'.attached hp hint hle
    exact ⟨avail'', active'', hcont'.trans hsent⟩
  rw [isend, hcheck]
  dsimp only
  split
  · exact ⟨s₁, errno₁, avail₁, active₁, rfl, hcont⟩
  · obtain ⟨found, hfind, hfound⟩ := findBuffer_spec (toInt packsize) hcont.attached
    rw [hfind]
    cases found with
    | some p =>
      obtain ⟨avail', active', hsent⟩ := hsend hcont (hfound p rfl).1 (hfound p rfl).2
      exact ⟨_, _, avail', active', rfl, hsent⟩
    | none =>
      obtain ⟨s₂, errno₂, avail₂, active₂, hcheck₂, hcont₂⟩ :=
        checkActive_continues e.second hcont.attached
      obtain ⟨found₂, hfind₂, hfound₂⟩ := findBuffer_spec (toInt packsize) hcont₂.attached
      simp only [hcheck₂, hfind₂]
      cases found₂ with
      | some p =>
        obtain ⟨avail', active', hsent⟩ := hsend (hcont.trans hcont₂) (hfound₂ p rfl).1 (hfound₂ p rfl).2
        exact ⟨_, _, avail', active', rfl, hsent⟩
      | none => exact ⟨s₂, .bufbsend, avail₂, active₂, rfl, hcont.trans hcont₂⟩

structure Detached (s : Arena) : Prop where
  buffer : s.buffer = none
  avail : s.avail = none
  active : s.active = none
  pending : s.pending = none

theorem attach_continues {buffer : Nat} {bufferSize : Int} (h : Detached s) (halign : buffer % 8 = 0)
    (hint : bufferSize < 2 ^ 31) (hfuel : bufferSize < fuel) :
    Detached (attach L s buffer bufferSize).1 ∧ (attach L s buffer bufferSize).1.events = s.events ∨
    Attached L fuel (attach L s buffer bufferSize).1 buffer [buffer] [] ∧
      (attach L s buffer bufferSize).1.events = s.events := by
  unfold attach
  rw [if_neg (by simp [h.buffer])]
  split
  · exact Or.inl ⟨h, rfl⟩
  · rename_i hroom
    right
    have hover : (L.overhead : Int) ≤ bufferSize := by omega
    have hoverhead : L.overhead = L.header + 8 := rfl
    simp only [halign, ne_eq, not_true, if_false, Nat.add_zero, Nat.sub_zero]
    refine ⟨⟨⟨⟨?_, ?_, ?_, ?_, ?_, ?_⟩, ?_, rfl, ?_, ?_, ?_⟩, rfl, ?_, ?_, rfl⟩, rfl⟩
    · simp
    · intro a ha
      cases List.mem_singleton.1 ha
      simp [setPrev, setNext, setTotal]
      omega
    · intro a ha
      cases List.mem_singleton.1 ha
      simp [setPrev, setNext, setTotal]
    · intro a ha b hb hab
      cases List.mem_singleton.1 ha
      cases List.mem_singleton.1 hb
      omega
    · simp [setPrev, setNext, setTotal]
    · intro a ha
      cases List.mem_singleton.1 ha
      simp [setPrev, setNext, setTotal]
    · simp [setPrev, setNext, setTotal]
    · simp
    · intro a ha b hb
      cases List.mem_singleton.1 ha
      cases List.mem_singleton.1 hb
      simp [setPrev, setNext, setTotal]
      omega
    · intro a ha
      cases ha
    · simp [setPrev, setNext, setTotal]
      omega
    · simp [setPrev, setNext, setTotal]
      omega

theorem detach_detached (h : Attached L fuel s base avail active) :
    ∃ t, detach fuel s = some (t, .success) ∧ Detached t ∧ t.events = s.events := by
  have hshort := h.short
  have hlinks : Segment (place s.active s.next) s.prev none (active ++ []) none := by
    rw [List.append_nil]
    exact h.lists.activeLinks
  have hseek : seek s.next (fun _ => false) fuel none (place s.active s.next none) = some (_, _) :=
    seek_segment hlinks (fun _ _ => rfl) (fun _ _ => rfl) (fun y hy => by cases hy) (by omega)
  rw [place_none] at hseek
  unfold detach
  rw [if_neg (by simp [h.pending]), hseek]
  exact ⟨_, rfl, ⟨rfl, rfl, rfl, rfl⟩, rfl⟩

theorem Tiling.covers {segs : List Nat} (h : Tiling L s base segs) {x : Nat} (hlo : base ≤ x)
    (hhi : x < base + s.bufferSize) : ∃ a ∈ segs, a ≤ x ∧ x < a + s.totalSize a := by
  classical
  let union := segs.toFinset.biUnion fun a => Finset.Ico a (a + s.totalSize a)
  have hdisj : (segs.toFinset : Set Nat).PairwiseDisjoint
      (fun a => Finset.Ico a (a + s.totalSize a)) := by
    intro a ha b hb hab
    have ha' : a ∈ segs := List.mem_toFinset.1 ha
    have hb' : b ∈ segs := List.mem_toFinset.1 hb
    refine Finset.disjoint_left.2 ?_
    intro y hya hyb
    rw [Finset.mem_Ico] at hya hyb
    rcases Nat.lt_or_gt_of_ne hab with hlt | hlt
    · have := h.disjoint a ha' b hb' hlt
      omega
    · have := h.disjoint b hb' a ha' hlt
      omega
  have hcard : union.card = s.bufferSize := by
    rw [Finset.card_biUnion hdisj, ← h.total, ← List.sum_toFinset _ h.nodup]
    refine Finset.sum_congr rfl ?_
    intro a _
    rw [Nat.card_Ico]
    omega
  have hsub : union ⊆ Finset.Ico base (base + s.bufferSize) := by
    intro y hy
    obtain ⟨a, ha, hya⟩ := Finset.mem_biUnion.1 hy
    have hw := h.within a (List.mem_toFinset.1 ha)
    rw [Finset.mem_Ico] at hya ⊢
    omega
  have heq : union = Finset.Ico base (base + s.bufferSize) := by
    refine Finset.eq_of_subset_of_card_le hsub ?_
    rw [hcard, Nat.card_Ico]
    omega
  have hx : x ∈ union := by
    rw [heq, Finset.mem_Ico]
    exact ⟨hlo, hhi⟩
  obtain ⟨a, ha, hxa⟩ := Finset.mem_biUnion.1 hx
  exact ⟨a, List.mem_toFinset.1 ha, Finset.mem_Ico.1 hxa⟩

def listed (fuel : Nat) (s : Arena) (head : Option Nat) : List Nat :=
  FgMpi.Machine.LinkedQueue.walk s.next fuel head

theorem chain_of_segment {after : Option Nat → Option Nat} {prev next : Nat → Option Nat}
    {u : Option Nat} (h : Segment after prev u xs none)
    (hnext : ∀ x, after (some x) = next x) : FgMpi.Machine.LinkedQueue.Chain next (after u) xs := by
  induction xs generalizing u with
  | nil => exact h
  | cons x xs ih => exact ⟨h.1, hnext x ▸ ih h.2.2⟩

theorem Attached.listed (h : Attached L fuel s base avail active) :
    listed fuel s s.avail = avail ∧ Arena.listed fuel s s.active = active := by
  have hshort := h.short
  constructor
  · exact FgMpi.Machine.LinkedQueue.walk_eq (chain_of_segment h.lists.availLinks fun _ => rfl)
      (by omega)
  · exact FgMpi.Machine.LinkedQueue.walk_eq (chain_of_segment h.lists.activeLinks fun _ => rfl)
      (by omega)

def Packable (L : Layout) (fuel : Nat) (s : Arena) : Op → Prop
  | .attach buffer bufferSize => buffer % 8 = 0 ∧ bufferSize < 2 ^ 31 ∧ bufferSize < fuel
  | .isend packsize _ _ => Fits L s packsize
  | _ => True

/-- And no request is looked for whose recycled object a free segment behind still names. -/
def Fresh (fuel : Nat) (s : Arena) : Op → Prop
  | .freeReqSeg req => NoneStale s req (listed fuel s s.avail) (listed fuel s s.active)
  | _ => True

def Proper (L : Layout) (fuel : Nat) (s : Arena) (op : Op) : Prop :=
  Packable L fuel s op ∧ Fresh fuel s op

instance (s : Arena) (packsize : Nat) : Decidable (Fits L s packsize) :=
  inferInstanceAs (Decidable (_ ∨ _))

instance (s : Arena) (req : Nat) (avail active : List Nat) : Decidable (NoneStale s req avail active) :=
  inferInstanceAs (Decidable (∀ p ∈ active.find? (fun a => s.request a = some req), ∀ q ∈ avail,
    p + s.totalSize p < q → s.request q ≠ some req))

instance (s : Arena) (op : Op) : Decidable (Packable L fuel s op) :=
  match op with
  | .attach buffer bufferSize =>
    inferInstanceAs (Decidable (buffer % 8 = 0 ∧ bufferSize < 2 ^ 31 ∧ bufferSize < fuel))
  | .isend packsize _ _ => inferInstanceAs (Decidable (Fits L s packsize))
  | .detach | .checkActive _ | .freeReqSeg _ => inferInstanceAs (Decidable True)

instance (s : Arena) (op : Op) : Decidable (Fresh fuel s op) :=
  match op with
  | .freeReqSeg req =>
    inferInstanceAs (Decidable (NoneStale s req (listed fuel s s.avail) (listed fuel s s.active)))
  | .attach _ _ | .isend _ _ _ | .detach | .checkActive _ => inferInstanceAs (Decidable True)

instance (s : Arena) (op : Op) : Decidable (Proper L fuel s op) := inferInstanceAs (Decidable (_ ∧ _))

def Known (L : Layout) (fuel : Nat) (s : Arena) (active : List Nat) : Prop :=
  (Detached s ∧ active = []) ∨ ∃ base avail, Attached L fuel s base avail active

theorem Continues.known {active' : List Nat}
    (h : Continues L fuel base s active t avail' active') : Known L fuel t active' :=
  Or.inr ⟨base, avail', h.attached⟩

theorem step_detached {op : Op} (h : Detached s) (hfuel : 0 < fuel) (hop : Packable L fuel s op) :
    ∃ t, step L fuel s op = .ok t ∧ Known L fuel t [] ∧ t.events = s.events := by
  obtain ⟨n, rfl⟩ : ∃ n, fuel = n + 1 := ⟨fuel - 1, by omega⟩
  cases op with
  | attach buffer bufferSize =>
    refine ⟨_, rfl, ?_⟩
    rcases attach_continues (L := L) h hop.1 hop.2.1 hop.2.2 with ⟨hd, he⟩ | ⟨ha, he⟩
    · exact ⟨Or.inl ⟨hd, rfl⟩, he⟩
    · exact ⟨Or.inr ⟨buffer, [buffer], ha⟩, he⟩
  | detach =>
    obtain ⟨t, hdetach, hd, he⟩ : ∃ t, detach (n + 1) s = some (t, .success) ∧ Detached t ∧
        t.events = s.events := by
      unfold detach
      rw [if_neg (by simp [h.pending]), h.active, seek]
      exact ⟨_, rfl, ⟨rfl, rfl, rfl, rfl⟩, rfl⟩
    exact ⟨t, by simp only [step, call, hdetach], Or.inl ⟨hd, rfl⟩, he⟩
  | isend packsize kind e =>
    have hcheck : ∀ e', checkActive L (n + 1) e' s = some (s, .success) := by
      intro e'
      rw [checkActive, h.active]
      rfl
    have hfind : findBuffer (n + 1) s (toInt packsize) = some none := by
      rw [findBuffer, h.avail]
      rfl
    have hsend : isend L (n + 1) e s packsize kind = some (s, .bufbsend) := by
      simp [isend, hcheck, hfind]
    exact ⟨s, by simp only [step, call, hsend], Or.inl ⟨h, rfl⟩, rfl⟩
  | checkActive e =>
    have hcheck : checkActive L (n + 1) e s = some (s, .success) := by
      rw [checkActive, h.active]
      rfl
    exact ⟨s, by simp only [step, call, hcheck], Or.inl ⟨h, rfl⟩, rfl⟩
  | freeReqSeg req =>
    have hfree : freeReqSeg L (n + 1) s req = some (s, .intern) := by
      rw [freeReqSeg, h.active]
      rfl
    exact ⟨s, by simp only [step, call, hfree], Or.inl ⟨h, rfl⟩, rfl⟩

theorem step_attached {op : Op} (h : Attached L fuel s base avail active) (hop : Packable L fuel s op) :
    ∃ t active', step L fuel s op = .ok t ∧ Known L fuel t active' ∧
      (Proper L fuel s op → Logged s.events active → Logged t.events active') := by
  cases op with
  | attach buffer bufferSize =>
    have hexists : attach L s buffer bufferSize = (s, .bufexists) := by
      rw [attach, if_pos (by simp [h.buffer])]
    exact ⟨s, active, by simp only [step, call, hexists], Or.inr ⟨base, avail, h⟩, fun _ => id⟩
  | detach =>
    obtain ⟨t, hdetach, hd, he⟩ := detach_detached h
    refine ⟨t, [], by simp only [step, call, hdetach], Or.inl ⟨hd, rfl⟩, ?_⟩
    intro _ hlogged
    rw [he]
    exact ⟨hlogged.once, by simp⟩
  | isend packsize kind e =>
    obtain ⟨t, errno, avail', active', hsend, hcont⟩ := isend_continues e kind h hop
    exact ⟨t, active', by simp only [step, call, hsend], hcont.known, fun _ => hcont.logged⟩
  | checkActive e =>
    obtain ⟨t, errno, avail', active', hcheck, hcont⟩ := checkActive_continues e h
    exact ⟨t, active', by simp only [step, call, hcheck], hcont.known, fun _ => hcont.logged⟩
  | freeReqSeg req =>
    obtain ⟨t, errno, avail', active', hfree, hatt, _, hlogged⟩ := freeReqSeg_attached req h
    refine ⟨t, active', by simp only [step, call, hfree], Or.inr ⟨base, avail', hatt⟩, ?_⟩
    intro hproper
    have hstale : NoneStale s req _ _ := hproper.2
    rw [h.listed.1, h.listed.2] at hstale
    exact hlogged hstale

theorem step_known {op : Op} (h : Known L fuel s active) (hfuel : 0 < fuel) (hop : Packable L fuel s op) :
    ∃ t active', step L fuel s op = .ok t ∧ Known L fuel t active' ∧
      (Proper L fuel s op → Logged s.events active → Logged t.events active') := by
  rcases h with ⟨hd, rfl⟩ | ⟨base, avail, ha⟩
  · obtain ⟨t, hstep, hknown, he⟩ := step_detached hd hfuel hop
    exact ⟨t, [], hstep, hknown, fun _ hlogged => he ▸ hlogged⟩
  · exact step_attached ha hop

/-- What is to hold in every state of a run with an attached buffer. -/
structure Tiled (L : Layout) (s : Arena) (base : Nat) (avail active : List Nat) : Prop where
  availLinks : Segment (place s.avail s.next) s.prev none avail none
  activeLinks : Segment (place s.active s.next) s.prev none active none
  nodup : (avail ++ active).Nodup
  sorted : avail.Pairwise (· < ·)
  coalesced : ∀ a ∈ avail, ∀ b ∈ avail, a + s.totalSize a ≠ b
  sizes : ∀ a ∈ avail ++ active, s.size a + L.header = s.totalSize a
  within : ∀ a ∈ avail ++ active, base ≤ a ∧ a + s.totalSize a ≤ base + s.bufferSize
  disjoint : ∀ a ∈ avail ++ active, ∀ b ∈ avail ++ active, a < b → a + s.totalSize a ≤ b
  covers : ∀ x, base ≤ x → x < base + s.bufferSize → ∃ a ∈ avail ++ active, a ≤ x ∧ x < a + s.totalSize a
  messages : ∀ a ∈ active, 0 ≤ s.count a ∧ a + L.header ≤ s.msgbuf a ∧
    s.msgbuf a + s.count a ≤ a + s.totalSize a

theorem Attached.tiled (h : Attached L fuel s base avail active) : Tiled L s base avail active where
  availLinks := h.lists.availLinks
  activeLinks := h.lists.activeLinks
  nodup := h.lists.tiling.nodup
  sorted := h.lists.sorted
  coalesced := h.lists.coalesced
  sizes := h.lists.tiling.sizes
  within := h.lists.tiling.within
  disjoint := h.lists.tiling.disjoint
  covers := fun _ hlo hhi => Tiling.covers h.lists.tiling hlo hhi
  messages := by
    intro a ha
    have hmem : a ∈ avail ++ active := List.mem_append_right _ ha
    have hmessage := h.lists.messages a ha
    have hsize := h.lists.tiling.sizes a hmem
    rw [h.lists.tiling.msgbuf a hmem]
    omega

def Sound (L : Layout) (s : Arena) : Prop :=
  (s.buffer = none ∧ s.avail = none ∧ s.active = none) ∨
    ∃ base avail active, s.buffer = some base ∧ Tiled L s base avail active

theorem Known.sound (h : Known L fuel s active) : Sound L s := by
  rcases h with ⟨hd, _⟩ | ⟨base, avail, ha⟩
  · exact Or.inl ⟨hd.buffer, hd.avail, hd.active⟩
  · exact Or.inr ⟨base, avail, active, ha.buffer, ha.tiled⟩

theorem run_known {ops : List Op} (h : Known L fuel s active) (hfuel : 0 < fuel)
    (hops : Along (step L fuel) (Packable L fuel) s ops) :
    ∃ t active', run (step L fuel) s ops = .ok t ∧ Known L fuel t active' ∧
      (Along (step L fuel) (Proper L fuel) s ops → Logged s.events active →
        Logged t.events active') := by
  induction ops generalizing s active with
  | nil => exact ⟨s, active, rfl, h, fun _ => id⟩
  | cons op ops ih =>
    obtain ⟨t, active₁, hstep, hknown, hlogged⟩ := step_known h hfuel hops.1
    obtain ⟨t', active', hrun, hknown', hlogged'⟩ := ih hknown (hops.2 t hstep)
    refine ⟨t', active', ?_, hknown', ?_⟩
    · rw [run_cons_ok hstep]
      exact hrun
    · intro hproper hlog
      exact hlogged' (hproper.2 t hstep) (hlogged hproper.1 hlog)

theorem initial_known (bytes : Headers) : Known L fuel (initial bytes) [] :=
  Or.inl ⟨⟨rfl, rfl, rfl, rfl⟩, rfl⟩

theorem initial_logged (bytes : Headers) : Logged (initial bytes).events [] := by
  refine ⟨?_, by simp⟩
  intro before a after heq
  cases before <;> cases heq

/-- Whatever segments are freed again, the lists stay in order. -/
theorem arena_safe (bytes : Headers) {ops : List Op} (hfuel : 0 < fuel)
    (hops : Along (step L fuel) (Proper L fuel) (initial bytes) ops) :
    ∃ s, run (step L fuel) (initial bytes) ops = .ok s ∧ Sound L s ∧ FreedOnce s.events := by
  obtain ⟨s, active, hrun, hknown, hlogged⟩ :=
    run_known (initial_known bytes) hfuel (hops.mono fun _ _ h => h.1)
  exact ⟨s, hrun, hknown.sound, (hlogged hops (initial_logged bytes)).once⟩

def lp64 : Layout := ⟨88, by decide⟩

def completes (done : List Nat) : Progress :=
  ⟨fun _ => 1, fun a => some (done.contains a), fun _ => true⟩

def sends (done : List Nat) (request : Nat) : Send :=
  ⟨completes done, completes [], true, true, some request, blank⟩

def cancelRecycled : List Op :=
  [.attach 1024 1000, .isend 8 .ibsend (sends [] 1), .isend 8 .ibsend (sends [] 2),
    .isend 8 .ibsend (sends [] 3), .isend 8 .ibsend (sends [] 4), .checkActive (completes [1024, 1216]),
    .isend 8 .ibsend (sends [] 3), .freeReqSeg 3]

def sendHuge : List Op :=
  [.attach 1024 1000, .isend 8 .bsend (sends [] 1), .isend 8 .bsend (sends [] 2),
    .isend (2 ^ 32 + 8) .bsend (sends [1024] 3)]

theorem exists_of_observed {α : Type} {r : Except Unit Arena} {f : Arena → α} {v : α}
    (h : r.toOption.map f = some v) : ∃ s, r = .ok s ∧ f s = v := by
  cases r with
  | error e => cases h
  | ok s => exact ⟨s, rfl, Option.some.inj h⟩

theorem Out.last {a : Nat} (h : Out a events) :
    events.reverse.find? (fun e => e = .taken a ∨ e = .freed a) = some (.taken a) := by
  obtain ⟨before, after, rfl, hafter⟩ := h
  rw [List.reverse_append, List.reverse_cons, List.append_assoc, List.find?_append]
  cases hfind : after.reverse.find? (fun e => e = .taken a ∨ e = .freed a) with
  | none => simp
  | some e =>
    have hmem : e ∈ after := List.mem_reverse.1 (List.mem_of_find?_eq_some hfind)
    have he := List.find?_some hfind
    simp only [decide_eq_true_eq] at he
    rcases he with rfl | rfl
    · rfl
    · exact absurd hmem hafter

theorem arena_differs : (∃ s, run (step lp64 2000) (initial blank) sendHuge = .ok s ∧ ¬ Sound lp64 s) ∧
    (∃ s, run (step lp64 2000) (initial blank) cancelRecycled = .ok s ∧ ¬ FreedOnce s.events) := by
  constructor
  · have hrun : (run (step lp64 2000) (initial blank) sendHuge).toOption.map
        (fun s => (s.buffer, s.avail, s.size 1216, s.totalSize 1216)) =
        some (some 1024, some 1216, 0, 0) := by decide +kernel
    obtain ⟨s, hs, hobserved⟩ := exists_of_observed hrun
    simp only [Prod.mk.injEq] at hobserved
    obtain ⟨hbuffer, havail, hsize, htotal⟩ := hobserved
    refine ⟨s, hs, ?_⟩
    rintro (⟨hnone, _⟩ | ⟨base, avail, active, _, h⟩)
    · rw [hbuffer] at hnone
      cases hnone
    · have hfirst : avail.head? = some 1216 := by
        have := h.availLinks.after_first
        rw [place_none, havail, Option.or_none] at this
        exact this.symm
      have hsizes := h.sizes 1216 (List.mem_append_left _ (List.mem_of_mem_head? hfirst))
      rw [hsize, htotal] at hsizes
      cases hsizes
  · have hrun : (run (step lp64 2000) (initial blank) cancelRecycled).toOption.map
        (fun s => s.events) = some ([.taken 1024, .taken 1120, .taken 1216, .taken 1312, .freed 1216,
          .freed 1024, .taken 1024, .freed 1024] ++ [.freed 1216]) := by decide +kernel
    obtain ⟨s, hs, hevents⟩ := exists_of_observed hrun
    refine ⟨s, hs, fun honce => ?_⟩
    have hlast := (honce _ 1216 [] hevents).last
    revert hlast
    decide

def cancelAndDetach : List Op :=
  [.attach 1024 1000, .isend 8 .ibsend (sends [] 1), .isend 100 .bsend (sends [] 2),
    .checkActive (completes [1120]), .freeReqSeg 1, .detach]

theorem arena_safe_cancelAndDetach :
    ∃ s, run (step lp64 2000) (initial blank) cancelAndDetach = .ok s ∧ Sound lp64 s ∧
      FreedOnce s.events :=
  arena_safe blank (by decide) (by decide +kernel)

end FgMpi.Bsend.Arena
