import FgMpi.Bsend.Segments
import Mathlib.Data.List.TakeWhile

/-! `MPIR_Bsend_free_segment` keeps the invariant. -/

namespace FgMpi.Bsend.Freeing
open Machine.DoublyLinked Bsend.Buffer Bsend.Segments
open Function (update update_eq_self update_of_ne update_self)

variable {L : Layout} {s t : Arena} {base : Nat}

section Insert
variable {p : Nat} {u : Option Nat} {l r : List Nat}

def linkNext (s : Arena) (p : Nat) (v : Option Nat) : Arena := setPrev (setNext s p v) v (some p)

theorem relinked_linkNext (s : Arena) (p : Nat) (v : Option Nat) : Relinked s (linkNext s p v) :=
  (relinked_setNext s p v).trans (relinked_setPrev _ _ _)

theorem linkNext_next_ne {a : Nat} (v : Option Nat) (h : a ≠ p) : (linkNext s p v).next a = s.next a := by
  rw [linkNext, setPrev_next]
  exact update_of_ne h _ _

theorem linkNext_prev_ne {a : Nat} {v : Option Nat} (h : a ∉ v) : (linkNext s p v).prev a = s.prev a := by
  rw [linkNext, setPrev_prev_ne _ h]
  rfl

theorem linkNext_avail (s : Arena) (p : Nat) (v : Option Nat) : (linkNext s p v).avail = s.avail := by
  rw [linkNext, setPrev_avail]
  rfl

theorem linkNext_active (s : Arena) (p : Nat) (v : Option Nat) : (linkNext s p v).active = s.active := by
  rw [linkNext, setPrev_active]
  rfl

theorem linkNext_back (h : Segment (place s.avail s.next) s.prev u r none) (hp : p ∉ r) (hr : r.Nodup) :
    Segment (place (linkNext s p r.head?).avail (linkNext s p r.head?).next)
      (linkNext s p r.head?).prev (some p) r none := by
  refine h.restart ?_ ?_ ?_ ?_
  · rw [h.after_first, Option.or_none, place_some, linkNext, setPrev_next]
    exact update_self _ _ _
  · intro x hx
    exact setPrev_prev_self _ hx
  · intro x hx
    refine linkNext_next_ne _ ?_
    rintro rfl
    exact hp hx
  · intro x hx
    exact linkNext_prev_ne fun hhead => not_mem_tail_of_head? hr hhead hx

def linkPrev (s : Arena) (p : Nat) (u : Option Nat) : Arena := setPrev (setAvail s u (some p)) (some p) u

def bypass (s : Arena) (p : Nat) (u : Option Nat) : Arena :=
  setPrev (setAvail s u (s.next p)) (s.next p) u

theorem linkPrev_links (hfront : Segment (place s.avail s.next) s.prev none l u)
    (hback : Segment (place s.avail s.next) s.prev (some p) r none) (hnodup : (l ++ p :: r).Nodup) :
    Segment (place (linkPrev s p (lastPlace none l)).avail (linkPrev s p (lastPlace none l)).next)
      (linkPrev s p (lastPlace none l)).prev none (l ++ p :: r) none := by
  obtain ⟨hl, hpr, hdisj⟩ := List.nodup_append.1 hnodup
  obtain ⟨hp, hr⟩ := List.nodup_cons.1 hpr
  rw [linkPrev, setPrev_avail, setPrev_next, place_setAvail]
  have hprev : ∀ a, a ≠ p → (setPrev (setAvail s (lastPlace none l) (some p)) (some p)
      (lastPlace none l)).prev a = s.prev a := by
    intro a ha
    rw [setPrev_prev_ne _ (by simpa using ha.symm), setAvail_prev]
  have hplace : ∀ a ∈ p :: r, some a ≠ lastPlace none l := fun a ha hlast =>
    hdisj a (lastPlace_eq_some hlast.symm) a ha rfl
  refine (hfront.redirect (places_nodup hl) (update_self _ _ _) ?_ ?_).append
    ⟨update_self _ _ _, setPrev_prev_self _ rfl, hback.congr ?_ ?_⟩
  · intro a _ ha
    exact update_of_ne ha _ _
  · intro x hx
    refine hprev x ?_
    rintro rfl
    exact hdisj x hx x List.mem_cons_self rfl
  · intro a ha
    rw [← List.map_cons, List.mem_map] at ha
    obtain ⟨b, hb, rfl⟩ := ha
    exact update_of_ne (hplace b hb) _ _
  · intro x hx
    refine hprev x ?_
    rintro rfl
    exact hp hx

theorem bypass_links (hfront : Segment (place s.avail s.next) s.prev none l u)
    (hback : Segment (place s.avail s.next) s.prev (some p) r none) (hnodup : (l ++ r).Nodup) :
    Segment (place (bypass s p (lastPlace none l)).avail (bypass s p (lastPlace none l)).next)
      (bypass s p (lastPlace none l)).prev none (l ++ r) none := by
  obtain ⟨hl, hr, hdisj⟩ := List.nodup_append.1 hnodup
  have hnext : s.next p = r.head? := by simpa using hback.after_first
  rw [bypass, setPrev_avail, setPrev_next, place_setAvail, hnext]
  have hplace : ∀ a ∈ r, some a ≠ lastPlace none l := fun a ha hlast =>
    hdisj a (lastPlace_eq_some hlast.symm) a ha rfl
  refine (hfront.redirect (places_nodup hl) (update_self _ _ _) ?_ ?_).append
    (hback.restart ?_ ?_ ?_ ?_)
  · intro a _ ha
    exact update_of_ne ha _ _
  · intro x hx
    rw [setPrev_prev_ne _ (notMem_of_head fun hr => hdisj x hx x hr rfl), setAvail_prev]
  · rw [update_self, place_some, hnext]
  · intro x hx
    exact setPrev_prev_self _ hx
  · intro x hx
    exact update_of_ne (hplace x hx) _ _
  · intro x hx
    rw [setPrev_prev_ne _ (fun hhead => not_mem_tail_of_head? hr hhead hx), setAvail_prev]

end Insert

structure Loose (L : Layout) (s : Arena) (base : Nat) (l : List Nat) (p : Nat) (r active : List Nat) :
    Prop where
  tiling : Tiling L s base (p :: (l ++ r ++ active))
  availLinks : Segment (place s.avail s.next) s.prev none (l ++ r) none
  activeLinks : Segment (place s.active s.next) s.prev none active none
  sorted : (l ++ p :: r).Pairwise (· < ·)
  coalesced : ∀ a ∈ l ++ r, ∀ b ∈ l ++ r, a + s.totalSize a ≠ b
  messages : ∀ a ∈ active, 0 ≤ s.count a ∧ s.count a ≤ s.size a

structure Inserting (L : Layout) (s : Arena) (base : Nat) (l : List Nat) (p : Nat)
    (r active : List Nat) : Prop where
  tiling : Tiling L s base (p :: (l ++ r ++ active))
  front : Segment (place s.avail s.next) s.prev none l (place s.avail s.next (lastPlace none l))
  back : Segment (place s.avail s.next) s.prev (some p) r none
  activeLinks : Segment (place s.active s.next) s.prev none active none
  sorted : (l ++ p :: r).Pairwise (· < ·)
  coalesced : ∀ a ∈ l ++ p :: r, ∀ b ∈ l ++ r, a + s.totalSize a ≠ b
  messages : ∀ a ∈ active, 0 ≤ s.count a ∧ s.count a ≤ s.size a

section Free
variable {p : Nat} {l r active : List Nat}

theorem linkNext_inserting (htiling : Tiling L s base (p :: (l ++ r ++ active)))
    (hfront : Segment (place s.avail s.next) s.prev none l (place s.avail s.next (lastPlace none l)))
    {u : Option Nat} (hback : Segment (place s.avail s.next) s.prev u r none)
    (hactive : Segment (place s.active s.next) s.prev none active none)
    (hsorted : (l ++ p :: r).Pairwise (· < ·))
    (hcoalesced : ∀ a ∈ l ++ p :: r, ∀ b ∈ l ++ r, a + s.totalSize a ≠ b)
    (hmessages : ∀ a ∈ active, 0 ≤ s.count a ∧ s.count a ≤ s.size a) :
    Inserting L (linkNext s p r.head?) base l p r active := by
  have hrel := relinked_linkNext s p r.head?
  obtain ⟨hp, hnodup⟩ := List.nodup_cons.1 htiling.nodup
  obtain ⟨hlr, _, hdisj⟩ := List.nodup_append.1 hnodup
  obtain ⟨hl, hr, hdisj'⟩ := List.nodup_append.1 hlr
  have hpl : p ∉ l := fun h => hp (List.mem_append_left _ (List.mem_append_left _ h))
  have hpr : p ∉ r := fun h => hp (List.mem_append_left _ (List.mem_append_right _ h))
  have hpa : p ∉ active := fun h => hp (List.mem_append_right _ h)
  refine ⟨hrel.tiling htiling, ?_, linkNext_back hback hpr hr, ?_, hsorted, ?_, ?_⟩
  · have hlast : place (linkNext s p r.head?).avail (linkNext s p r.head?).next (lastPlace none l) =
        place s.avail s.next (lastPlace none l) := by
      cases hq : lastPlace none l with
      | none => exact linkNext_avail s p _
      | some q =>
        refine linkNext_next_ne _ ?_
        rintro rfl
        exact hpl (lastPlace_eq_some hq)
    rw [hlast]
    refine hfront.frame (linkNext_avail s p _) ?_ ?_
    · intro a ha
      refine linkNext_next_ne _ ?_
      rintro rfl
      exact hpl ha
    · intro a ha
      exact linkNext_prev_ne (notMem_of_head fun hr => hdisj' a ha a hr rfl)
  · refine hactive.frame (linkNext_active s p _) ?_ ?_
    · intro a ha
      refine linkNext_next_ne _ ?_
      rintro rfl
      exact hpa ha
    · intro a ha
      exact linkNext_prev_ne (notMem_of_head fun hr =>
        hdisj a (List.mem_append_right _ hr) a ha rfl)
  · rw [hrel.totalSize]
    exact hcoalesced
  · rw [hrel.count, hrel.size]
    exact hmessages

theorem mergeNext_inserting (h : Loose L s base l p r active) :
    ∃ r', Inserting L (mergeNext L s p r.head?) base l p r' active ∧
      Kept s (mergeNext L s p r.head?) ∧ ∀ q ∈ r', q ∈ r ∧ p + s.totalSize p < q := by
  have hp : p ∈ p :: (l ++ r ++ active) := List.mem_cons_self
  have hmem : ∀ q ∈ r, q ∈ p :: (l ++ r ++ active) := fun q hq =>
    List.mem_cons_of_mem p (List.mem_append_left _ (List.mem_append_right _ hq))
  obtain ⟨hfront, hback⟩ := h.availLinks.split
  obtain ⟨_, hsorted, hbefore⟩ := List.pairwise_append.1 h.sorted
  obtain ⟨hafter, hr⟩ := List.pairwise_cons.1 hsorted
  have hbehind : ∀ q ∈ r, p + s.totalSize p ≤ q := fun q hq =>
    h.tiling.disjoint p hp q (hmem q hq) (hafter q hq)
  have hpos := h.tiling.header_le hp
  -- nothing before `p` is where `p` ends
  have hbelow : ∀ b ∈ l, b < p := fun b hb => hbefore b hb p List.mem_cons_self
  by_cases hadj : ∃ q ∈ r.head?, p + s.totalSize p = q
  · obtain ⟨q, hq, hadj⟩ := hadj
    obtain ⟨r', rfl⟩ : ∃ r', r = q :: r' := by
      cases r with
      | nil => cases hq
      | cons x r =>
        cases hq
        exact ⟨r, rfl⟩
    have hpq : q ≠ p := by omega
    have hnext : s.next q = r'.head? := by simpa using hback.2.2.after_first
    have heq : mergeNext L s p (q :: r').head? =
        linkNext (setTotal L s p (s.totalSize p + s.totalSize q)) p r'.head? := by
      simp only [mergeNext, List.head?_cons, if_pos hadj, linkNext]
      have hnext' : (setNext (setTotal L s p (s.totalSize p + s.totalSize q)) p
          ((setTotal L s p (s.totalSize p + s.totalSize q)).next q)).next q = r'.head? := by
        rw [← hnext]
        exact update_of_ne hpq _ _
      rw [hnext']
      have hnext'' : (setTotal L s p (s.totalSize p + s.totalSize q)).next q = r'.head? := hnext
      rw [hnext'']
    have hperm : (p :: (l ++ q :: r' ++ active)).Perm (p :: q :: (l ++ r' ++ active)) := by
      refine List.Perm.cons p ?_
      simp only [List.append_assoc, List.cons_append]
      exact List.perm_middle
    have hother : ∀ a ∈ l ++ r' ++ active, a ≠ p := by
      rintro a ha rfl
      have hnodup := (h.tiling.perm hperm).nodup
      exact (List.nodup_cons.1 hnodup).1 (List.mem_cons_of_mem q ha)
    have htotals : ∀ a, a ≠ p →
        (setTotal L s p (s.totalSize p + s.totalSize q)).totalSize a = s.totalSize a :=
      fun a ha => update_of_ne ha _ _
    have hsizes : ∀ a, a ≠ p → (setTotal L s p (s.totalSize p + s.totalSize q)).size a = s.size a :=
      fun a ha => update_of_ne ha _ _
    have htotal : (setTotal L s p (s.totalSize p + s.totalSize q)).totalSize p =
        s.totalSize p + s.totalSize q := update_self _ _ _
    have hsub : ∀ b ∈ l ++ r', b ∈ l ++ q :: r' := by
      intro b hb
      rcases List.mem_append.1 hb with hb | hb
      · exact List.mem_append_left _ hb
      · exact List.mem_append_right _ (List.mem_cons_of_mem q hb)
    rw [heq]
    refine ⟨r', ?_, (kept_setTotal s p _).trans (relinked_linkNext _ _ _).kept, ?_⟩
    · refine linkNext_inserting ?_ hfront hback.2.2 h.activeLinks ?_ ?_ ?_
      · exact (h.tiling.perm hperm).merge hadj htotal (update_self _ _ _)
          (fun a ha => hsizes a (hother a ha)) (fun a ha => htotals a (hother a ha))
          (fun _ _ => rfl) rfl
      · refine h.sorted.sublist ?_
        exact (List.Sublist.refl l).append ((List.sublist_cons_self q r').cons_cons p)
      · intro a ha b hb
        have hin : a ≠ p → a ∈ l ++ r' := by
          intro hne
          simpa [hne] using ha
        by_cases hap : a = p
        · subst hap
          rw [htotal, ← Nat.add_assoc, hadj]
          exact h.coalesced q (List.mem_append_right _ List.mem_cons_self) b (hsub b hb)
        · rw [htotals a hap]
          exact h.coalesced a (hsub a (hin hap)) b (hsub b hb)
      · intro a ha
        rw [hsizes a (hother a (List.mem_append_right _ ha))]
        exact h.messages a ha
    · intro y hy
      have hqy := (List.pairwise_cons.1 hr).1 y hy
      exact ⟨List.mem_cons_of_mem q hy, by omega⟩
  · have heq : mergeNext L s p r.head? = linkNext s p r.head? := by
      cases r with
      | nil => rfl
      | cons q r =>
        have hne : ¬ p + s.totalSize p = q := fun hq => hadj ⟨q, rfl, hq⟩
        simp only [mergeNext, List.head?_cons, if_neg hne, linkNext]
    have hfar : ∀ q ∈ r, p + s.totalSize p < q := by
      intro q hq
      cases r with
      | nil => cases hq
      | cons x r =>
        have hx := hbehind x List.mem_cons_self
        have hne : p + s.totalSize p ≠ x := fun hx => hadj ⟨x, rfl, hx⟩
        rcases List.mem_cons.1 hq with rfl | hq
        · omega
        · have := (List.pairwise_cons.1 hr).1 q hq
          omega
    rw [heq]
    refine ⟨r, linkNext_inserting h.tiling hfront hback h.activeLinks h.sorted ?_ h.messages,
      (relinked_linkNext s p _).kept, fun q hq => ⟨hq, hfar q hq⟩⟩
    intro a ha b hb
    by_cases hap : a = p
    · subst hap
      rcases List.mem_append.1 hb with hb | hb
      · have := hbelow b hb
        omega
      · have := hfar b hb
        omega
    · have hin : a ∈ l ++ r := by simpa [hap] using ha
      exact h.coalesced a hin b hb

section
variable (h : Inserting L s base l p r active)
include h

theorem linkPrev_lists
    (hadj : ∀ q ∈ lastPlace none l, q + s.totalSize q ≠ p) :
    Lists L (linkPrev s p (lastPlace none l)) base (l ++ p :: r) active := by
  have hrel : Relinked s (linkPrev s p (lastPlace none l)) :=
    (relinked_setAvail s _ _).trans (relinked_setPrev _ _ _)
  have hperm : (p :: (l ++ r ++ active)).Perm (l ++ p :: r ++ active) := by
    simp only [List.append_assoc, List.cons_append]
    exact List.perm_middle.symm
  have htiling := h.tiling.perm hperm
  obtain ⟨hlist, _, hdisj⟩ := List.nodup_append.1 htiling.nodup
  have hp : p ∈ l ++ p :: r := List.mem_append_right _ List.mem_cons_self
  have hlast : ∀ q ∈ lastPlace none l, q ∈ l ++ p :: r := fun q hq =>
    List.mem_append_left _ (lastPlace_eq_some hq)
  refine ⟨hrel.tiling htiling, linkPrev_links h.front h.back hlist, ?_, h.sorted, ?_, ?_⟩
  · refine h.activeLinks.frame ?_ ?_ ?_
    · simp [linkPrev]
    · intro a ha
      rw [linkPrev, setPrev_next, setAvail_next_ne]
      exact fun hq => hdisj a (hlast a hq) a ha rfl
    · intro a ha
      rw [linkPrev, setPrev_prev_ne, setAvail_prev]
      rintro ⟨⟩
      exact hdisj p hp p ha rfl
  · rw [hrel.totalSize]
    intro a ha b hb
    by_cases hbp : b = p
    · subst hbp
      obtain ⟨hl, hpr, hlt⟩ := List.pairwise_append.1 h.sorted
      rcases List.mem_append.1 ha with ha | ha
      · -- only the last of the segments before `p` could be adjacent to it
        cases hq : lastPlace none l with
        | none =>
          rw [lastPlace_eq_none hq] at ha
          cases ha
        | some q =>
          obtain ⟨l', rfl⟩ := exists_of_lastPlace hq
          have hne := hadj q hq
          rcases List.mem_append.1 ha with ha | ha
          · have hmem : ∀ c ∈ l' ++ [q], c ∈ l' ++ [q] ++ b :: r ++ active := fun c hc =>
              List.mem_append_left _ (List.mem_append_left _ hc)
            have haq := (List.pairwise_append.1 hl).2.2 a ha q List.mem_cons_self
            have hle := htiling.disjoint a (hmem a (List.mem_append_left _ ha)) q
              (hmem q (List.mem_append_right _ List.mem_cons_self)) haq
            have hqb := hlt q (List.mem_append_right _ List.mem_cons_self) b List.mem_cons_self
            omega
          · cases List.mem_singleton.1 ha
            exact hne
      · rcases List.mem_cons.1 ha with rfl | ha
        · have := htiling.header_le (List.mem_append_left active hp)
          omega
        · have := (List.pairwise_cons.1 hpr).1 a ha
          omega
    · have hin : b ∈ l ++ r := by simpa [hbp] using hb
      exact h.coalesced a ha b hin
  · rw [hrel.count, hrel.size]
    exact h.messages

theorem bypass_lists {q : Nat}
    (hlast : lastPlace none l = some q) (hadj : q + s.totalSize q = p) :
    Lists L (bypass (setTotal L s q (s.totalSize q + s.totalSize p)) p (some q)) base (l ++ r)
      active := by
  obtain ⟨l', rfl⟩ := exists_of_lastPlace hlast
  have hrel : Relinked (setTotal L s q (s.totalSize q + s.totalSize p))
      (bypass (setTotal L s q (s.totalSize q + s.totalSize p)) p (some q)) :=
    (relinked_setAvail _ _ _).trans (relinked_setPrev _ _ _)
  have hperm : (p :: (l' ++ [q] ++ r ++ active)).Perm (q :: p :: (l' ++ r ++ active)) := by
    have hmid : (l' ++ [q] ++ r ++ active).Perm (q :: (l' ++ r ++ active)) := by
      simp only [List.append_assoc, List.singleton_append]
      exact List.perm_middle
    exact (hmid.cons p).trans (List.Perm.swap q p _)
  have hperm' : (q :: (l' ++ r ++ active)).Perm (l' ++ [q] ++ r ++ active) := by
    simp only [List.append_assoc, List.singleton_append]
    exact List.perm_middle.symm
  have hbefore := h.tiling.perm hperm
  have hother : ∀ a ∈ p :: (l' ++ r ++ active), a ≠ q := by
    rintro a ha rfl
    exact (List.nodup_cons.1 hbefore.nodup).1 ha
  have htotals : ∀ a, a ≠ q →
      (setTotal L s q (s.totalSize q + s.totalSize p)).totalSize a = s.totalSize a :=
    fun a ha => update_of_ne ha _ _
  have hsizes : ∀ a, a ≠ q → (setTotal L s q (s.totalSize q + s.totalSize p)).size a = s.size a :=
    fun a ha => update_of_ne ha _ _
  have htotal : (setTotal L s q (s.totalSize q + s.totalSize p)).totalSize q =
      s.totalSize q + s.totalSize p := update_self _ _ _
  have htiling : Tiling L (setTotal L s q (s.totalSize q + s.totalSize p)) base
      (l' ++ [q] ++ r ++ active) := by
    refine (hbefore.merge hadj htotal (update_self _ _ _) ?_ ?_ (fun _ _ => rfl) rfl).perm
      hperm'
    · exact fun a ha => hsizes a (hother a (List.mem_cons_of_mem p ha))
    · exact fun a ha => htotals a (hother a (List.mem_cons_of_mem p ha))
  obtain ⟨hlist, _, hdisj⟩ := List.nodup_append.1 htiling.nodup
  have hq : q ∈ l' ++ [q] ++ r := by simp
  have hnext : s.next p = r.head? := by simpa using h.back.after_first
  refine ⟨hrel.tiling htiling, ?_, ?_, ?_, ?_, ?_⟩
  · have hlinks := bypass_links (s := setTotal L s q (s.totalSize q + s.totalSize p)) h.front h.back
      hlist
    rw [hlast] at hlinks
    exact hlinks
  · refine h.activeLinks.frame ?_ ?_ ?_
    · simp [bypass, setTotal]
    · intro a ha
      rw [bypass, setPrev_next, setAvail_next_ne]
      · rfl
      · rintro ⟨⟩
        exact hdisj q hq q ha rfl
    · intro a ha
      rw [bypass, setPrev_prev_ne, setAvail_prev]
      · rfl
      · intro hhead
        have hhead' : a ∈ r.head? := by
          rw [← hnext]
          exact hhead
        exact hdisj a (List.mem_append_right _ (List.mem_of_mem_head? hhead')) a ha rfl
  · refine h.sorted.sublist ?_
    exact (List.Sublist.refl _).append (List.sublist_cons_self p r)
  · rw [hrel.totalSize]
    intro a ha b hb
    by_cases haq : a = q
    · subst haq
      rw [htotal, ← Nat.add_assoc, hadj]
      exact h.coalesced p (List.mem_append_right _ List.mem_cons_self) b hb
    · rw [htotals a haq]
      refine h.coalesced a ?_ b hb
      rcases List.mem_append.1 ha with ha | ha
      · exact List.mem_append_left _ ha
      · exact List.mem_append_right _ (List.mem_cons_of_mem p ha)
  · rw [hrel.count, hrel.size]
    intro a ha
    rw [hsizes a (hother a (List.mem_cons_of_mem p (List.mem_append_right _ ha)))]
    exact h.messages a ha

theorem mergePrev_lists :
    ∃ l', l' ≠ [] ∧ Lists L (mergePrev L s p (lastPlace none l)) base (l' ++ r) active ∧
      Kept s (mergePrev L s p (lastPlace none l)) ∧
      (mergePrev L s p (lastPlace none l)).next p = r.head? := by
  have hnext : s.next p = r.head? := by simpa using h.back.after_first
  have hp : ∀ q ∈ lastPlace none l, q ≠ p := by
    rintro q hq rfl
    have := (List.pairwise_append.1 h.sorted).2.2 q (lastPlace_eq_some hq) q List.mem_cons_self
    omega
  have hlink (heq : mergePrev L s p (lastPlace none l) = linkPrev s p (lastPlace none l))
      (hadj : ∀ q ∈ lastPlace none l, q + s.totalSize q ≠ p) :
      ∃ l', l' ≠ [] ∧ Lists L (mergePrev L s p (lastPlace none l)) base (l' ++ r) active ∧
        Kept s (mergePrev L s p (lastPlace none l)) ∧
        (mergePrev L s p (lastPlace none l)).next p = r.head? := by
    rw [heq]
    refine ⟨l ++ [p], by simp, ?_, ?_, ?_⟩
    · simpa using linkPrev_lists h hadj
    · exact ((relinked_setAvail s _ _).trans (relinked_setPrev _ _ _)).kept
    · rw [linkPrev, setPrev_next, setAvail_next_ne _ (fun hq => hp p hq rfl), hnext]
  cases hlast : lastPlace none l with
  | none =>
    rw [hlast] at hlink
    refine hlink rfl ?_
    rintro q ⟨⟩
  | some q =>
    by_cases hadj : q + s.totalSize q = p
    · have hqp := hp q hlast
      have hnext' : (setNext (setTotal L s q (s.totalSize q + s.totalSize p)) q
          ((setTotal L s q (s.totalSize q + s.totalSize p)).next p)).next p = s.next p :=
        update_of_ne hqp.symm _ _
      have heq : mergePrev L s p (some q) =
          bypass (setTotal L s q (s.totalSize q + s.totalSize p)) p (some q) := by
        simp only [mergePrev, if_pos hadj]
        rw [hnext']
        rfl
      rw [heq]
      have hl : l ≠ [] := by
        rintro rfl
        cases hlast
      refine ⟨l, hl, bypass_lists h hlast hadj, ?_, ?_⟩
      · exact (kept_setTotal s q _).trans
          ((relinked_setAvail _ _ _).trans (relinked_setPrev _ _ _)).kept
      · rw [bypass, setPrev_next, setAvail_next_ne]
        · exact hnext
        · rintro ⟨⟩
          exact hqp rfl
    · rw [hlast] at hlink
      refine hlink ?_ ?_
      · simp only [mergePrev, if_neg hadj]
        rfl
      · rintro q' ⟨⟩
        exact hadj

end

theorem divide_avail {avail xs ys : List Nat} (h : Lists L s base avail (xs ++ p :: ys)) :
    ∃ l r, avail = l ++ r ∧ (∀ a ∈ l, a < p) ∧ (∀ a ∈ r, p < a) := by
  have hp : p ∉ avail := by
    intro hp
    have hdisj := (List.nodup_append.1 h.tiling.nodup).2.2
    exact hdisj p hp p (List.mem_append_right _ List.mem_cons_self) rfl
  have hne : ∀ a ∈ avail, a ≠ p := by
    rintro a ha rfl
    exact hp ha
  refine ⟨avail.takeWhile (· < p), avail.dropWhile (· < p), List.takeWhile_append_dropWhile.symm, ?_, ?_⟩
  · intro a ha
    simpa using List.mem_takeWhile_imp ha
  · intro a ha
    have hsub : (avail.dropWhile (· < p)).Sublist avail := List.dropWhile_sublist _
    have hsorted := h.sorted.sublist hsub
    cases hdrop : avail.dropWhile (· < p) with
    | nil =>
      rw [hdrop] at ha
      cases ha
    | cons b r =>
      rw [hdrop] at ha hsorted hsub
      have hb : ¬ b < p := by
        have hhead := List.head?_dropWhile_not (fun a => decide (a < p)) avail
        rw [hdrop] at hhead
        simpa using hhead
      have hbp := hne b (hsub.subset List.mem_cons_self)
      rcases List.mem_cons.1 ha with rfl | ha
      · omega
      · have := (List.pairwise_cons.1 hsorted).1 a ha
        omega

theorem removeActive_loose {xs ys : List Nat} (h : Lists L s base (l ++ r) (xs ++ p :: ys))
    (hl : ∀ a ∈ l, a < p) (hr : ∀ a ∈ r, p < a) :
    Loose L (removeActive s p) base l p r (xs ++ ys) := by
  have hrel := relinked_removeActive s p
  obtain ⟨hactive, havail⟩ := removeActive_links h.activeLinks h.availLinks h.tiling.nodup
  have hperm : (l ++ r ++ (xs ++ p :: ys)).Perm (p :: (l ++ r ++ (xs ++ ys))) := by
    rw [← List.append_assoc, ← List.append_assoc (l ++ r)]
    exact List.perm_middle
  obtain ⟨hsl, hsr, hlr⟩ := List.pairwise_append.1 h.sorted
  refine ⟨hrel.tiling (h.tiling.perm hperm), havail, hactive, ?_, ?_, ?_⟩
  · refine List.pairwise_append.2 ⟨hsl, List.pairwise_cons.2 ⟨hr, hsr⟩, ?_⟩
    intro a ha b hb
    rcases List.mem_cons.1 hb with rfl | hb
    · exact hl a ha
    · exact hlr a ha b hb
  · rw [hrel.totalSize]
    exact h.coalesced
  · rw [hrel.count, hrel.size]
    intro a ha
    refine h.messages a ?_
    rcases List.mem_append.1 ha with ha | ha
    · exact List.mem_append_left _ ha
    · exact List.mem_append_right _ (List.mem_cons_of_mem p ha)

theorem removeActive_avail (s : Arena) (p : Nat) : (removeActive s p).avail = s.avail := by
  simp [removeActive]

theorem freeSegment_lists {avail xs ys : List Nat} {fuel : Nat}
    (h : Lists L s base avail (xs ++ p :: ys)) (hfuel : avail.length < fuel) :
    ∃ t l r, freeSegment L fuel s p = some t ∧ l ≠ [] ∧ Lists L t base (l ++ r) (xs ++ ys) ∧
      Kept { s with events := s.events ++ [.freed p] } t ∧ t.next p = r.head? ∧
      ∀ q ∈ r, q ∈ avail ∧ p + s.totalSize p < q := by
  obtain ⟨l, r, rfl, hl, hr⟩ := divide_avail h
  have hloose := removeActive_loose h hl hr
  have hseek : seek (removeActive s p).next (fun q => p < q) fuel none s.avail =
      some (lastPlace none l, r.head?) := by
    have hplace : s.avail = place (removeActive s p).avail (removeActive s p).next none := by
      rw [place_none, removeActive_avail]
    rw [hplace]
    refine seek_segment hloose.availLinks (fun _ _ => rfl) ?_ ?_ ?_
    · intro a ha
      have := hl a ha
      simpa using Nat.le_of_lt this
    · intro a ha
      simpa using hr a (List.mem_of_mem_head? ha)
    · rw [List.length_append] at hfuel
      omega
  obtain ⟨r', hins, hkept, hfar⟩ := mergeNext_inserting hloose
  obtain ⟨l', hne, hlists, hkept', hnext⟩ := mergePrev_lists hins
  rw [(relinked_removeActive s p).totalSize] at hfar
  have hall := ((relinked_removeActive s p).kept.trans hkept).trans hkept'
  have heq : freeSegment L fuel s p =
      some { mergePrev L (mergeNext L (removeActive s p) p r.head?) p (lastPlace none l) with
        events := s.events ++ [.freed p] } := by
    simp only [freeSegment, hseek, hall.events]
  refine ⟨_, l', r', heq, hne, ?_, ?_, hnext, ?_⟩
  · exact ⟨hlists.tiling.congr (fun _ _ => rfl) (fun _ _ => rfl) (fun _ _ => rfl) rfl,
      hlists.availLinks, hlists.activeLinks, hlists.sorted, hlists.coalesced, hlists.messages⟩
  · exact ⟨hall.request, hall.buffer, hall.bufferSize, hall.pending, rfl⟩
  · intro q hq
    exact ⟨List.mem_append_right _ (hfar q hq).1, (hfar q hq).2⟩

theorem freeSegment_again {q : Nat} {fuel : Nat} (h : Lists L s base (l ++ q :: r) active)
    (hl : l ≠ []) (hfuel : (l ++ q :: r).length < fuel) :
    freeSegment L fuel s q = some { s with events := s.events ++ [.freed q] } := by
  obtain ⟨hlist, _, _⟩ := List.nodup_append.1 h.tiling.nodup
  obtain ⟨_, hqr, hdisj⟩ := List.nodup_append.1 hlist
  obtain ⟨hq, hr⟩ := List.nodup_cons.1 hqr
  obtain ⟨_, hafter, hprev, hback⟩ := h.availLinks.split
  obtain ⟨_, hsorted, hbelow⟩ := List.pairwise_append.1 h.sorted
  have habove := (List.pairwise_cons.1 hsorted).1
  have hnext : s.next q = r.head? := by simpa using hback.after_first
  obtain ⟨x, hx⟩ : ∃ x, lastPlace none l = some x := by
    cases hlast : lastPlace none l with
    | none => exact absurd (lastPlace_eq_none hlast) hl
    | some x => exact ⟨x, rfl⟩
  rw [hx] at hafter hprev
  have hxl : x ∈ l := lastPlace_eq_some hx
  have hxq : x ≠ q := by
    rintro rfl
    exact hdisj x hxl x List.mem_cons_self rfl
  have hrem : removeActive s q = setPrev (setAvail s (some x) r.head?) r.head? (some x) := by
    have hstep : (setActive s (some x) (s.next q)).next q = r.head? := by
      rw [setActive_next_ne _ (by rintro ⟨⟩; exact hxq rfl), hnext]
    simp only [removeActive]
    rw [hprev, hstep, hnext]
    rfl
  have hlinks : Segment (place (removeActive s q).avail (removeActive s q).next)
      (removeActive s q).prev none (l ++ r) none := by
    rw [hrem, setPrev_avail, setPrev_next, place_setAvail, ← hprev, ← hnext]
    refine h.availLinks.unlink (places_nodup hlist) ?_ ?_
    · intro y hy
      rw [hnext, setPrev_prev_self _ hy]
    · intro y hy
      rw [hnext, setPrev_prev_ne, setAvail_prev]
      intro hhead
      rcases List.mem_append.1 hy with hy | hy
      · exact hdisj y hy y (List.mem_cons_of_mem q (List.mem_of_mem_head? hhead)) rfl
      · exact not_mem_tail_of_head? hr hhead hy
  have hseek : seek (removeActive s q).next (fun a => q < a) fuel none s.avail =
      some (some x, r.head?) := by
    have hplace : s.avail = place (removeActive s q).avail (removeActive s q).next none := by
      rw [place_none, removeActive_avail]
    rw [hplace, ← hx]
    refine seek_segment hlinks (fun _ _ => rfl) ?_ ?_ ?_
    · intro a ha
      simpa using Nat.le_of_lt (hbelow a ha q List.mem_cons_self)
    · intro a ha
      simpa using habove a (List.mem_of_mem_head? ha)
    · rw [List.length_append] at hfuel
      omega
  have hmemq : q ∈ l ++ q :: r := List.mem_append_right _ List.mem_cons_self
  have hnoprev : ¬ x + s.totalSize x = q := h.coalesced x (List.mem_append_left _ hxl) q hmemq
  have hsnext : s.next x = some q := hafter
  -- every pointer is written back to what it was
  have hnexts : ∀ v, update (update (update s.next x v) q r.head?) x
      (some q) = s.next := by
    intro v
    funext a
    by_cases hax : a = x
    · rw [hax, update_self, hsnext]
    · rw [update_of_ne hax]
      by_cases haq : a = q
      · rw [haq, update_self, hnext]
      · rw [update_of_ne haq, update_of_ne hax]
  cases r with
  | nil =>
    have hp : update s.prev q (some x) = s.prev := by
      rw [← hprev]
      exact update_eq_self q s.prev
    simp only [freeSegment, hseek]
    rw [hrem]
    simp only [List.head?_nil, mergeNext, mergePrev, setPrev, setAvail, setNext, hnoprev, if_false]
    rw [hp]
    have := hnexts none
    rw [List.head?_nil] at this
    rw [this]
  | cons y r =>
    have hnonext : ¬ q + s.totalSize q = y := by
      refine h.coalesced q hmemq y ?_
      exact List.mem_append_right _ (List.mem_cons_of_mem q List.mem_cons_self)
    have hyq : y ≠ q := by
      rintro rfl
      exact hq List.mem_cons_self
    have hp : update (update (update s.prev y (some x)) y (some q)) q
        (some x) = s.prev := by
      funext a
      by_cases haq : a = q
      · rw [haq, update_self, hprev]
      · rw [update_of_ne haq]
        by_cases hay : a = y
        · rw [hay, update_self]
          exact hback.2.1.symm
        · rw [update_of_ne hay, update_of_ne hay]
    simp only [freeSegment, hseek]
    rw [hrem]
    simp only [List.head?_cons, mergeNext, mergePrev, setPrev, setAvail, setNext, hnoprev, hnonext,
      if_false]
    rw [hp]
    have := hnexts (some y)
    rw [List.head?_cons] at this
    rw [this]

end Free

end FgMpi.Bsend.Freeing
