import Mathlib.Data.List.Nodup
import Mathlib.Data.Option.Basic

/-! Doubly linked lists. -/

namespace FgMpi.Machine.DoublyLinked

variable {α : Type*}

def place (head : Option α) (next : α → Option α) : Option α → Option α
  | none => head
  | some x => next x

@[simp] theorem place_none (head : Option α) (next : α → Option α) : place head next none = head := rfl

@[simp] theorem place_some (head : Option α) (next : α → Option α) (x : α) :
    place head next (some x) = next x := rfl

def Segment (after : Option α → Option α) (prev : α → Option α) : Option α → List α → Option α → Prop
  | u, [], v => after u = v
  | u, x :: xs, v => after u = some x ∧ prev x = u ∧ Segment after prev (some x) xs v

def lastPlace : Option α → List α → Option α
  | u, [] => u
  | _, x :: xs => lastPlace (some x) xs

variable {after after' : Option α → Option α} {prev prev' : α → Option α} {u u' v w : Option α}
variable {xs ys : List α} {x : α}

@[simp] theorem segment_nil : Segment after prev u [] v ↔ after u = v := Iff.rfl

@[simp] theorem segment_cons :
    Segment after prev u (x :: xs) v ↔
      after u = some x ∧ prev x = u ∧ Segment after prev (some x) xs v := Iff.rfl

theorem lastPlace_append (u : Option α) (xs ys : List α) :
    lastPlace u (xs ++ ys) = lastPlace (lastPlace u xs) ys := by
  induction xs generalizing u with
  | nil => rfl
  | cons x xs ih => exact ih (some x)

theorem lastPlace_mem (u : Option α) (xs : List α) : lastPlace u xs ∈ u :: xs.map some := by
  induction xs generalizing u with
  | nil => exact List.mem_cons_self
  | cons x xs ih => exact List.mem_cons_of_mem u (ih (some x))

theorem lastPlace_eq_some {y : α} (h : lastPlace none xs = some y) : y ∈ xs := by
  have hmem := lastPlace_mem none xs
  rw [h] at hmem
  simpa using hmem

theorem exists_of_lastPlace {y : α} (h : lastPlace none xs = some y) : ∃ ys, xs = ys ++ [y] := by
  rcases List.eq_nil_or_concat xs with rfl | ⟨ys, z, rfl⟩
  · cases h
  · rw [List.concat_eq_append, lastPlace_append] at h
    cases h
    exact ⟨ys, List.concat_eq_append⟩

theorem lastPlace_eq_none (h : lastPlace none xs = none) : xs = [] := by
  rcases List.eq_nil_or_concat xs with rfl | ⟨ys, z, rfl⟩
  · rfl
  · rw [List.concat_eq_append, lastPlace_append] at h
    cases h

theorem not_mem_tail_of_head? (h : xs.Nodup) (hx : x ∈ xs.head?) : x ∉ xs.tail := by
  cases xs with
  | nil => cases hx
  | cons y xs =>
    cases hx
    exact (List.nodup_cons.1 h).1

theorem Segment.after_last (h : Segment after prev u xs v) : after (lastPlace u xs) = v := by
  induction xs generalizing u with
  | nil => exact h
  | cons x xs ih => exact ih h.2.2

theorem Segment.after_first (h : Segment after prev u xs v) : after u = xs.head?.or v := by
  cases xs with
  | nil => exact h
  | cons x xs => exact h.1

theorem Segment.append (hx : Segment after prev u xs v) (hy : Segment after prev (lastPlace u xs) ys w) :
    Segment after prev u (xs ++ ys) w := by
  induction xs generalizing u with
  | nil => exact hy
  | cons x xs ih => exact ⟨hx.1, hx.2.1, ih hx.2.2 hy⟩

theorem Segment.split (h : Segment after prev u (xs ++ ys) w) :
    Segment after prev u xs (after (lastPlace u xs)) ∧ Segment after prev (lastPlace u xs) ys w := by
  induction xs generalizing u with
  | nil => exact ⟨rfl, h⟩
  | cons x xs ih =>
    obtain ⟨hx, hy⟩ := ih h.2.2
    exact ⟨⟨h.1, h.2.1, hx⟩, hy⟩

section
variable (h : Segment after prev u xs v)
include h

theorem Segment.congr
    (hafter : ∀ p ∈ u :: xs.map some, after' p = after p) (hprev : ∀ x ∈ xs, prev' x = prev x) :
    Segment after' prev' u xs v := by
  induction xs generalizing u with
  | nil =>
    rw [segment_nil, hafter u List.mem_cons_self]
    exact h
  | cons x xs ih =>
    refine ⟨?_, ?_, ?_⟩
    · rw [hafter u List.mem_cons_self]
      exact h.1
    · rw [hprev x List.mem_cons_self]
      exact h.2.1
    · exact ih h.2.2 (fun p hp => hafter p (List.mem_cons_of_mem u hp))
        (fun y hy => hprev y (List.mem_cons_of_mem x hy))

theorem Segment.redirect (hnodup : (u :: xs.map some).Nodup) (hlast : after' (lastPlace u xs) = w)
    (hafter : ∀ p ∈ u :: xs.map some, p ≠ lastPlace u xs → after' p = after p)
    (hprev : ∀ x ∈ xs, prev' x = prev x) : Segment after' prev' u xs w := by
  induction xs generalizing u with
  | nil => exact hlast
  | cons x xs ih =>
    have htail : (some x :: xs.map some).Nodup := (List.nodup_cons.1 hnodup).2
    have hne : u ≠ lastPlace (some x) xs := by
      intro hu
      refine (List.nodup_cons.1 hnodup).1 ?_
      rw [List.map_cons, hu]
      exact lastPlace_mem (some x) xs
    refine ⟨?_, ?_, ?_⟩
    · rw [hafter u List.mem_cons_self hne]
      exact h.1
    · rw [hprev x List.mem_cons_self]
      exact h.2.1
    · exact ih h.2.2 htail hlast (fun p hp => hafter p (List.mem_cons_of_mem u hp))
        (fun y hy => hprev y (List.mem_cons_of_mem x hy))

theorem Segment.restart (hfirst : after' u' = after u)
    (hhead : ∀ x ∈ xs.head?, prev' x = u') (hafter : ∀ x ∈ xs, after' (some x) = after (some x))
    (hprev : ∀ x ∈ xs.tail, prev' x = prev x) : Segment after' prev' u' xs v := by
  cases xs with
  | nil =>
    rw [segment_nil, hfirst]
    exact h
  | cons x xs =>
    refine ⟨?_, hhead x rfl, ?_⟩
    · rw [hfirst]
      exact h.1
    · refine h.2.2.congr ?_ hprev
      intro p hp
      rw [← List.map_cons, List.mem_map] at hp
      obtain ⟨y, hy, rfl⟩ := hp
      exact hafter y hy

end

/-- `if (x->prev) x->prev->next = x->next; else head = x->next; if (x->next) x->next->prev = x->prev;` -/
theorem Segment.unlink [DecidableEq α] (h : Segment after prev u (xs ++ x :: ys) v)
    (hnodup : (u :: (xs ++ x :: ys).map some).Nodup) (hhead : ∀ y ∈ ys.head?, prev' y = prev x)
    (hprev : ∀ y ∈ xs ++ ys.tail, prev' y = prev y) :
    Segment (Function.update after (prev x) (after (some x))) prev' u (xs ++ ys) v := by
  obtain ⟨hx, _, hlast, hy⟩ := h.split
  rw [List.map_append, List.map_cons, ← List.cons_append, List.nodup_append] at hnodup
  obtain ⟨hxs, hys, hdisj⟩ := hnodup
  have hmem : lastPlace u xs ∈ u :: xs.map some := lastPlace_mem u xs
  rw [hlast]
  refine Segment.append (hx.redirect hxs (Function.update_self _ _ _) ?_ ?_) ?_
  · intro p _ hp
    exact Function.update_of_ne hp _ _
  · intro y hy
    exact hprev y (List.mem_append_left _ hy)
  · refine hy.restart (Function.update_self _ _ _) ?_ ?_ ?_
    · intro y hy'
      rw [hhead y hy', hlast]
    · intro y hy'
      refine Function.update_of_ne ?_ _ _
      rintro hlast'
      exact hdisj _ hmem (some y) (List.mem_cons_of_mem _ (List.mem_map_of_mem hy')) hlast'.symm
    · intro y hy'
      exact hprev y (List.mem_append_right _ hy')

section Fields
variable {head head' : Option α} {next next' : α → Option α}

theorem Segment.frame (h : Segment (place head next) prev u xs v)
    (hu : place head' next' u = place head next u) (hnext : ∀ x ∈ xs, next' x = next x)
    (hprev : ∀ x ∈ xs, prev' x = prev x) : Segment (place head' next') prev' u xs v := by
  refine h.congr ?_ hprev
  intro p hp
  rcases List.mem_cons.1 hp with rfl | hp
  · exact hu
  · obtain ⟨x, hx, rfl⟩ := List.mem_map.1 hp
    exact hnext x hx

theorem Segment.extend (h : Segment (place head next) prev none xs v) (hnodup : xs.Nodup)
    (hlast : place head' next' (lastPlace none xs) = w) (hhead : xs ≠ [] → head' = head)
    (hnext : ∀ x ∈ xs, some x ≠ lastPlace none xs → next' x = next x)
    (hprev : ∀ x ∈ xs, prev' x = prev x) : Segment (place head' next') prev' none xs w := by
  have hplaces : (none :: xs.map some).Nodup := by
    refine List.nodup_cons.2 ⟨by simp, ?_⟩
    exact hnodup.map (Option.some_injective α)
  refine h.redirect hplaces hlast ?_ hprev
  intro p hp hne
  rcases List.mem_cons.1 hp with rfl | hp
  · refine hhead ?_
    rintro rfl
    exact hne rfl
  · obtain ⟨x, hx, rfl⟩ := List.mem_map.1 hp
    exact hnext x hx hne

end Fields

/-- `while (cur) { if (stop(cur)) break; before = cur; cur = cur->next; }`: the place and the node where
the loop ends, within as many turns as `fuel`. -/
def seek (next : α → Option α) (stop : α → Bool) : Nat → Option α → Option α →
    Option (Option α × Option α)
  | 0, _, _ => none
  | _ + 1, before, none => some (before, none)
  | n + 1, before, some x =>
    if stop x then some (before, some x) else seek next stop n (some x) (next x)

theorem seek_segment {next : α → Option α} {stop : α → Bool} {n : Nat}
    (h : Segment after prev u (xs ++ ys) none) (hnext : ∀ x ∈ xs ++ ys, after (some x) = next x)
    (hxs : ∀ x ∈ xs, stop x = false) (hys : ∀ y ∈ ys.head?, stop y = true) (hn : xs.length < n) :
    seek next stop n u (after u) = some (lastPlace u xs, ys.head?) := by
  induction xs generalizing u n with
  | nil =>
    obtain ⟨m, rfl⟩ : ∃ m, n = m + 1 := ⟨n - 1, by omega⟩
    cases ys with
    | nil =>
      rw [segment_nil.1 h]
      rfl
    | cons y ys =>
      rw [h.1, seek, if_pos (hys y rfl)]
      rfl
  | cons x xs ih =>
    rw [List.length_cons] at hn
    obtain ⟨m, rfl⟩ : ∃ m, n = m + 1 := ⟨n - 1, by omega⟩
    rw [h.1, seek, hxs x List.mem_cons_self, if_neg Bool.false_ne_true, ← hnext x List.mem_cons_self]
    exact ih h.2.2 (fun y hy => hnext y (List.mem_cons_of_mem x hy))
      (fun y hy => hxs y (List.mem_cons_of_mem x hy)) (by omega)

end FgMpi.Machine.DoublyLinked
