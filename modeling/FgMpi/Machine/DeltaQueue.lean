import Mathlib.Algebra.BigOperators.Group.List.Basic
import Mathlib.Algebra.Order.Ring.Int

/-! An entry stores the distance to the due time of the entry before it. -/

namespace FgMpi.Machine.DeltaQueue
open Function (update update_of_ne update_self)

variable {α : Type*}

/-- The stored deltas of the queue are the distances of its due times from `b` on. -/
def Tracks (delta due : α → Int) : Int → List α → Prop
  | _, [] => True
  | b, t :: ts => delta t = due t - b ∧ Tracks delta due (due t) ts

/-- Due time of the last entry, the base when there is none. -/
def lastDue (due : α → Int) : Int → List α → Int
  | b, [] => b
  | _, t :: ts => lastDue due (due t) ts

variable {delta delta' due due' : α → Int} {b : Int}

@[simp] theorem tracks_nil : Tracks delta due b [] := trivial

@[simp] theorem tracks_cons (t : α) (ts : List α) :
    Tracks delta due b (t :: ts) ↔ delta t = due t - b ∧ Tracks delta due (due t) ts := Iff.rfl

@[simp] theorem lastDue_nil : lastDue due b [] = b := rfl

@[simp] theorem lastDue_cons (t : α) (ts : List α) : lastDue due b (t :: ts) = lastDue due (due t) ts := rfl

@[simp] theorem lastDue_append (xs ys : List α) :
    lastDue due b (xs ++ ys) = lastDue due (lastDue due b xs) ys := by
  induction xs generalizing b with
  | nil => rfl
  | cons t ts ih => exact ih

@[simp] theorem tracks_append (xs ys : List α) :
    Tracks delta due b (xs ++ ys) ↔
      Tracks delta due b xs ∧ Tracks delta due (lastDue due b xs) ys := by
  induction xs generalizing b with
  | nil => simp
  | cons t ts ih => simp [ih, and_assoc]

variable {xs : List α}

theorem Tracks.congr (h : Tracks delta due b xs)
    (hdelta : ∀ t ∈ xs, delta' t = delta t) (hdue : ∀ t ∈ xs, due' t = due t) :
    Tracks delta' due' b xs := by
  induction xs generalizing b with
  | nil => trivial
  | cons t ts ih =>
    obtain ⟨ht, hts⟩ := h
    have hd : due' t = due t := hdue t (by simp)
    refine ⟨by rw [hdelta t (by simp), hd, ht], ?_⟩
    rw [hd]
    exact ih hts (fun u hu => hdelta u (by simp [hu])) (fun u hu => hdue u (by simp [hu]))

theorem lastDue_congr (hdue : ∀ t ∈ xs, due' t = due t) : lastDue due' b xs = lastDue due b xs := by
  induction xs generalizing b with
  | nil => rfl
  | cons t ts ih =>
    rw [lastDue_cons, lastDue_cons, hdue t (by simp)]
    exact ih (fun u hu => hdue u (by simp [hu]))

theorem lastDue_of_getLast {t : α} (h : xs.getLast? = some t) : lastDue due b xs = due t := by
  rw [List.getLast?_eq_some_iff] at h
  obtain ⟨ys, rfl⟩ := h
  simp

section
variable (h : Tracks delta due b xs)
include h

theorem Tracks.sum_eq : (xs.map delta).sum = lastDue due b xs - b := by
  induction xs generalizing b with
  | nil => simp
  | cons t ts ih =>
    obtain ⟨ht, hts⟩ := h
    rw [List.map_cons, List.sum_cons, ih hts, ht, lastDue_cons]
    omega

theorem Tracks.prefix_sum (i : Nat) (hi : i < xs.length) :
    ((xs.take (i + 1)).map delta).sum = due (xs.get ⟨i, hi⟩) - b := by
  induction xs generalizing b i with
  | nil => exact absurd hi (Nat.not_lt_zero i)
  | cons t ts ih =>
    obtain ⟨ht, hts⟩ := h
    cases i with
    | zero => simp [ht]
    | succ i =>
      have hi' : i < ts.length := by simpa using hi
      have hrest := ih hts i hi'
      rw [List.take_succ_cons, List.map_cons, List.sum_cons, hrest, ht]
      simp only [List.get_cons_succ]
      omega

section
variable (hnonneg : ∀ t ∈ xs, 0 ≤ delta t)
include hnonneg

theorem Tracks.due_bounds : b ≤ lastDue due b xs ∧ ∀ t ∈ xs, b ≤ due t ∧ due t ≤ lastDue due b xs := by
  induction xs generalizing b with
  | nil => simp
  | cons t ts ih =>
    obtain ⟨ht, hts⟩ := h
    obtain ⟨hlast, hall⟩ := ih hts (fun u hu => hnonneg u (by simp [hu]))
    have h0 : 0 ≤ delta t := hnonneg t (by simp)
    refine ⟨by rw [lastDue_cons]; omega, ?_⟩
    intro u hu
    rw [lastDue_cons]
    rcases List.mem_cons.mp hu with rfl | hu
    · omega
    · have := hall u hu
      omega

theorem Tracks.pairwise : xs.Pairwise (fun t u => due t ≤ due u) := by
  induction xs generalizing b with
  | nil => exact List.Pairwise.nil
  | cons t ts ih =>
    obtain ⟨_, hts⟩ := h
    have hrest : ∀ u ∈ ts, 0 ≤ delta u := fun u hu => hnonneg u (by simp [hu])
    apply List.Pairwise.cons
    · intro u hu
      exact ((hts.due_bounds hrest).2 u hu).1
    · exact ih hts hrest

theorem Tracks.delta_eq_zero (hlast : lastDue due b xs = b) : ∀ t ∈ xs, delta t = 0 := by
  induction xs generalizing b with
  | nil => simp
  | cons t ts ih =>
    have hb := (Tracks.due_bounds h hnonneg).2 t (by simp)
    obtain ⟨ht, hts⟩ := h
    have hdue : due t = b := by omega
    intro u hu
    rcases List.mem_cons.mp hu with rfl | hu
    · omega
    · refine ih hts (fun v hv => hnonneg v (by simp [hv])) ?_ u hu
      rw [lastDue_cons] at hlast
      rw [hlast, hdue]

end

end

section Update
variable [DecidableEq α]

theorem Tracks.insert {xs ys : List α} {t u : α} {x d : Int}
    (h : Tracks delta due b (xs ++ u :: ys)) (hnd : (xs ++ u :: ys).Nodup)
    (ht : t ∉ xs ++ u :: ys) (hx : x = d - lastDue due b xs) :
    Tracks (update (update delta t x) u (delta u - x))
      (update due t d) b (xs ++ t :: u :: ys) := by
  have hxs : ∀ v ∈ xs, v ≠ t ∧ v ≠ u := by
    intro v hv
    refine ⟨fun he => ht (by simp [← he, hv]), ?_⟩
    exact (List.nodup_append.mp hnd).2.2 v hv u (by simp)
  have hys : ∀ v ∈ ys, v ≠ t ∧ v ≠ u := by
    intro v hv
    refine ⟨fun he => ht (by simp [← he, hv]), fun he => ?_⟩
    exact (List.nodup_cons.mp (List.nodup_append.mp hnd).2.1).1 (he ▸ hv)
  have hut : u ≠ t := fun he => ht (by simp [he])
  have hdue : ∀ v, v ≠ t → update due t d v = due v :=
    fun v hv => update_of_ne hv _ _
  have hdelta : ∀ v, v ≠ t → v ≠ u →
      update (update delta t x) u (delta u - x) v = delta v := by
    intro v hvt hvu
    rw [update_of_ne hvu, update_of_ne hvt]
  rw [tracks_append, tracks_cons] at h
  obtain ⟨hfront, hu, htail⟩ := h
  rw [tracks_append, tracks_cons, tracks_cons, lastDue_congr (fun v hv => hdue v (hxs v hv).1)]
  refine ⟨hfront.congr (fun v hv => hdelta v (hxs v hv).1 (hxs v hv).2)
    (fun v hv => hdue v (hxs v hv).1), ?_, ?_, ?_⟩
  · rw [update_of_ne (Ne.symm hut), update_self, update_self, hx]
  · rw [update_self, update_self, hdue u hut]
    omega
  · rw [hdue u hut]
    exact htail.congr (fun v hv => hdelta v (hys v hv).1 (hys v hv).2)
      (fun v hv => hdue v (hys v hv).1)

theorem Tracks.remove {xs ys : List α} {t u : α} (z : Int)
    (h : Tracks delta due b (xs ++ t :: u :: ys)) (hnd : (xs ++ t :: u :: ys).Nodup) :
    Tracks (update (update delta u (delta u + delta t)) t z)
      due b (xs ++ u :: ys) := by
  obtain ⟨_, hnd', hdisj⟩ := List.nodup_append.mp hnd
  obtain ⟨htys, hndys⟩ := List.nodup_cons.mp hnd'
  have hxs : ∀ v ∈ xs, v ≠ t ∧ v ≠ u := by
    intro v hv
    exact ⟨hdisj v hv t (by simp), hdisj v hv u (by simp)⟩
  have hys : ∀ v ∈ ys, v ≠ t ∧ v ≠ u := by
    intro v hv
    refine ⟨fun he => htys (by simp [← he, hv]), fun he => ?_⟩
    exact (List.nodup_cons.mp hndys).1 (he ▸ hv)
  have hut : u ≠ t := fun he => htys (by simp [he])
  have hdelta : ∀ v, v ≠ t ∧ v ≠ u →
      update (update delta u (delta u + delta t)) t z v = delta v := by
    intro v hv
    rw [update_of_ne hv.1, update_of_ne hv.2]
  rw [tracks_append, tracks_cons, tracks_cons] at h
  obtain ⟨hfront, ht, hu, htail⟩ := h
  rw [tracks_append, tracks_cons]
  refine ⟨hfront.congr (fun v hv => hdelta v (hxs v hv)) (fun _ _ => rfl), ?_,
    htail.congr (fun v hv => hdelta v (hys v hv)) (fun _ _ => rfl)⟩
  rw [update_of_ne hut, update_self]
  omega

end Update

end FgMpi.Machine.DeltaQueue
