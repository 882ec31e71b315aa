import Mathlib.Data.List.Basic

/-! Singly linked queues with a head and a tail pointer. -/

namespace FgMpi.Machine.LinkedQueue
open Function (update update_of_ne update_self)

variable {α : Type*}

structure Queue (α : Type*) where
  head : Option α
  tail : Option α
deriving DecidableEq

def Queue.empty : Queue α := ⟨none, none⟩

def Chain (next : α → Option α) : Option α → List α → Prop
  | p, [] => p = none
  | p, x :: xs => p = some x ∧ Chain next (next x) xs

structure IsQueue (next : α → Option α) (q : Queue α) (l : List α) : Prop where
  chain : Chain next q.head l
  tail : q.tail = l.getLast?
  nodup : l.Nodup

def walk (next : α → Option α) : Nat → Option α → List α
  | 0, _ => []
  | _ + 1, none => []
  | n + 1, some x => x :: walk next n (next x)

/-- `while (cur) { if (p(cur)) break; prev = cur; cur = cur->next; }` -/
def search (next : α → Option α) (p : α → Bool) : Nat → Option α → Option α → Option (Option α × α)
  | 0, _, _ => none
  | _ + 1, _, none => none
  | n + 1, prev, some x => if p x then some (prev, x) else search next p n (some x) (next x)

def searchLast (next : α → Option α) (p : α → Bool) : Nat → Option α → Option α →
    Option (Option α × α) → Option (Option α × α)
  | 0, _, _, found => found
  | _ + 1, _, none, found => found
  | n + 1, prev, some x, found =>
    searchLast next p n (some x) (next x) (if p x then some (prev, x) else found)

section Update
variable [DecidableEq α]

/-- `if (prev) prev->next = x->next; else head = x->next; if (!x->next) tail = prev;` -/
def unlink (next : α → Option α) (q : Queue α) (prev : Option α) (x : α) : (α → Option α) × Queue α :=
  match prev with
  | some y => (update next y (next x),
      ⟨q.head, if next x = none then some y else q.tail⟩)
  | none => (next, ⟨next x, if next x = none then none else q.tail⟩)

/-- `x->next = NULL; if (tail) tail->next = x; else head = x; tail = x;` -/
def append (next : α → Option α) (q : Queue α) (x : α) : (α → Option α) × Queue α :=
  match q.tail with
  | some y => (update (update next x none) y (some x), ⟨q.head, some x⟩)
  | none => (update next x none, ⟨some x, some x⟩)

end Update

variable {next next' : α → Option α} {q : Queue α} {l : List α}

variable {p : Option α}

@[simp] theorem chain_nil : Chain next p [] ↔ p = none := Iff.rfl

theorem isQueue_empty : IsQueue next (Queue.empty : Queue α) [] := ⟨rfl, rfl, List.nodup_nil⟩

theorem Chain.congr (h : Chain next p l) (hn : ∀ x ∈ l, next' x = next x) : Chain next' p l := by
  induction l generalizing p with
  | nil => exact h
  | cons x xs ih =>
    obtain ⟨hp, hxs⟩ := h
    refine ⟨hp, ?_⟩
    rw [hn x (by simp)]
    exact ih hxs (fun y hy => hn y (by simp [hy]))

theorem IsQueue.congr (h : IsQueue next q l) (hn : ∀ x ∈ l, next' x = next x) : IsQueue next' q l :=
  ⟨h.chain.congr hn, h.tail, h.nodup⟩

theorem walk_eq {n : Nat} (h : Chain next p l) (hn : l.length < n) : walk next n p = l := by
  induction l generalizing p n with
  | nil =>
    obtain rfl := h
    cases n <;> rfl
  | cons x xs ih =>
    obtain ⟨rfl, hxs⟩ := h
    cases n with
    | zero => exact absurd hn (Nat.not_lt_zero _)
    | succ n => rw [walk, ih hxs (by simpa using hn)]

theorem search_spec (p : α → Bool) {n : Nat} (prev : Option α) {cur : Option α} (h : Chain next cur l)
    (hn : l.length < n) :
    (search next p n prev cur = none ∧ ∀ x ∈ l, p x = false) ∨
      ∃ xs x ys, l = xs ++ x :: ys ∧ (∀ y ∈ xs, p y = false) ∧ p x = true ∧
        search next p n prev cur = some (if xs = [] then prev else xs.getLast?, x) := by
  induction l generalizing prev cur n with
  | nil =>
    obtain rfl := h
    left
    cases n <;> exact ⟨rfl, by simp⟩
  | cons x xs ih =>
    obtain ⟨rfl, hxs⟩ := h
    cases n with
    | zero => exact absurd hn (Nat.not_lt_zero _)
    | succ n =>
      by_cases hx : p x = true
      · right
        exact ⟨[], x, xs, rfl, by simp, hx, by simp [search, hx]⟩
      · simp only [Bool.not_eq_true] at hx
        have hstep : search next p (n + 1) prev (some x) = search next p n (some x) (next x) := by
          simp [search, hx]
        rw [hstep]
        rcases ih (some x) hxs (Nat.lt_of_succ_lt_succ hn) with ⟨hnone, hall⟩ |
          ⟨zs, z, ws, rfl, hzs, hz, hfound⟩
        · left
          refine ⟨hnone, ?_⟩
          intro y hy
          rcases List.mem_cons.mp hy with rfl | hy
          · exact hx
          · exact hall y hy
        · right
          refine ⟨x :: zs, z, ws, rfl, ?_, hz, ?_⟩
          · intro y hy
            rcases List.mem_cons.mp hy with rfl | hy
            · exact hx
            · exact hzs y hy
          · rw [hfound]
            cases zs with
            | nil => rfl
            | cons z' zs => simp

theorem searchLast_spec (p : α → Bool) {n : Nat} (prev : Option α) {cur : Option α}
    (found : Option (Option α × α)) (h : Chain next cur l) (hn : l.length < n) :
    (searchLast next p n prev cur found = found ∧ ∀ x ∈ l, p x = false) ∨
      ∃ xs x ys, l = xs ++ x :: ys ∧ (∀ y ∈ ys, p y = false) ∧ p x = true ∧
        searchLast next p n prev cur found =
          some (if xs = [] then prev else xs.getLast?, x) := by
  induction l generalizing prev cur n found with
  | nil =>
    obtain rfl := h
    left
    cases n <;> exact ⟨rfl, by simp⟩
  | cons x xs ih =>
    obtain ⟨rfl, hxs⟩ := h
    cases n with
    | zero => exact absurd hn (Nat.not_lt_zero _)
    | succ n =>
      rw [searchLast]
      rcases ih (some x) (if p x then some (prev, x) else found) hxs
        (Nat.lt_of_succ_lt_succ hn) with ⟨hsame, hall⟩ | ⟨zs, z, ws, rfl, hws, hz, hfound⟩
      · by_cases hx : p x = true
        · right
          refine ⟨[], x, xs, rfl, hall, hx, ?_⟩
          rw [hsame, if_pos hx]
          rfl
        · left
          simp only [Bool.not_eq_true] at hx
          refine ⟨by rw [hsame, hx]; rfl, ?_⟩
          intro y hy
          rcases List.mem_cons.mp hy with rfl | hy
          · exact hx
          · exact hall y hy
      · right
        refine ⟨x :: zs, z, ws, rfl, hws, hz, ?_⟩
        rw [hfound]
        cases zs with
        | nil => rfl
        | cons z' zs => simp

theorem Chain.next_eq {xs ys : List α} {x : α}
    (h : Chain next p (xs ++ x :: ys)) : Chain next (next x) ys := by
  induction xs generalizing p with
  | nil => exact h.2
  | cons y xs ih => exact ih h.2

section Update
variable [DecidableEq α]

variable {xs : List α}

theorem Chain.bypass {p : Option α} {ys : List α} {x y : α}
    (h : Chain next p (xs ++ y :: x :: ys)) (hnd : (xs ++ y :: x :: ys).Nodup) :
    Chain (update next y (next x)) p (xs ++ y :: ys) := by
  induction xs generalizing p with
  | nil =>
    obtain ⟨rfl, hx⟩ := h
    refine ⟨rfl, ?_⟩
    rw [update_self]
    refine hx.2.congr ?_
    intro z hz
    have hne : z ≠ y := by
      rintro rfl
      simp [hz] at hnd
    exact update_of_ne hne _ _
  | cons z xs ih =>
    obtain ⟨rfl, hz⟩ := h
    have hne : z ≠ y := by
      rintro rfl
      simp at hnd
    have hnd' : (xs ++ y :: x :: ys).Nodup := (List.nodup_cons.mp hnd).2
    refine ⟨rfl, ?_⟩
    rw [update_of_ne hne]
    exact ih hz hnd'

/-- Unlinking the node behind `prev` takes it out of the list. -/
theorem unlink_spec {ys : List α} {x : α} (h : IsQueue next q (xs ++ x :: ys)) :
    IsQueue (unlink next q xs.getLast? x).1 (unlink next q xs.getLast? x).2 (xs ++ ys) ∧
      ∀ z, z ∉ xs → (unlink next q xs.getLast? x).1 z = next z := by
  have hperm : (xs ++ x :: ys).Perm (x :: (xs ++ ys)) := List.perm_middle
  have hnd : (xs ++ ys).Nodup := (List.nodup_cons.mp (hperm.nodup_iff.mp h.nodup)).2
  have hlast : next x = none ↔ ys = [] := by
    have hc := h.chain.next_eq
    cases ys with
    | nil => exact ⟨fun _ => rfl, fun _ => hc⟩
    | cons y ys =>
      rw [hc.1]
      exact ⟨fun hn => (nomatch hn), fun hy => (nomatch hy)⟩
  have htail := h.tail
  cases hx : xs.getLast? with
  | none =>
    rw [List.getLast?_eq_none_iff] at hx
    subst hx
    refine ⟨⟨h.chain.2, ?_, hnd⟩, fun _ _ => rfl⟩
    cases ys with
    | nil => simp [unlink, hlast.mpr rfl]
    | cons y ys =>
      have hne : next x ≠ none := fun hn => by cases hlast.mp hn
      simp only [unlink, if_neg hne, htail, List.nil_append]
      simp
  | some y =>
    rw [List.getLast?_eq_some_iff] at hx
    obtain ⟨xs', rfl⟩ := hx
    have hch := h.chain
    have hnd' := h.nodup
    rw [List.append_assoc, List.singleton_append] at hch hnd'
    refine ⟨⟨?_, ?_, hnd⟩, ?_⟩
    · rw [List.append_assoc, List.singleton_append]
      exact hch.bypass hnd'
    · cases ys with
      | nil => simp [unlink, hlast.mpr rfl]
      | cons z ys =>
        have hne : next x ≠ none := fun hn => by cases hlast.mp hn
        simp only [unlink, if_neg hne, htail]
        simp
    · intro z hz
      have hne : z ≠ y := by
        rintro rfl
        simp at hz
      exact update_of_ne hne _ _

theorem Chain.extend {p : Option α} {x y : α} (h : Chain next p (xs ++ [y]))
    (hnd : (xs ++ [y]).Nodup) (hx : x ∉ xs ++ [y]) :
    Chain (update (update next x none) y (some x)) p (xs ++ [y, x]) := by
  induction xs generalizing p with
  | nil =>
    obtain ⟨rfl, _⟩ := h
    have hne : x ≠ y := by
      rintro rfl
      simp at hx
    refine ⟨rfl, ?_, ?_⟩
    · exact update_self _ _ _
    · rw [update_of_ne hne]
      exact update_self _ _ _
  | cons z xs ih =>
    obtain ⟨rfl, hz⟩ := h
    have hzy : z ≠ y := by
      rintro rfl
      simp at hnd
    have hzx : z ≠ x := by
      rintro rfl
      simp at hx
    refine ⟨rfl, ?_⟩
    rw [update_of_ne hzy, update_of_ne hzx]
    exact ih hz (List.nodup_cons.mp hnd).2 (fun hm => hx (List.mem_cons_of_mem z hm))

theorem append_spec {x : α} (h : IsQueue next q l) (hx : x ∉ l) :
    IsQueue (append next q x).1 (append next q x).2 (l ++ [x]) ∧
      ∀ z, z ∉ l → z ≠ x → (append next q x).1 z = next z := by
  have hnd : (l ++ [x]).Nodup := by
    rw [List.nodup_append]
    refine ⟨h.nodup, by simp, ?_⟩
    intro a ha b hb
    simp only [List.mem_singleton] at hb
    subst hb
    rintro rfl
    exact hx ha
  have htail := h.tail
  unfold append
  cases hl : l.getLast? with
  | none =>
    rw [htail, hl]
    rw [List.getLast?_eq_none_iff] at hl
    subst hl
    refine ⟨⟨⟨rfl, ?_⟩, rfl, hnd⟩, ?_⟩
    · exact update_self _ _ _
    · intro z _ hz
      exact update_of_ne hz _ _
  | some y =>
    rw [htail, hl]
    rw [List.getLast?_eq_some_iff] at hl
    obtain ⟨xs, rfl⟩ := hl
    refine ⟨⟨?_, by simp, hnd⟩, ?_⟩
    · rw [List.append_assoc]
      exact h.chain.extend h.nodup hx
    · intro z hz hzx
      have hzy : z ≠ y := by
        rintro rfl
        simp at hz
      simp only [update_of_ne hzy, update_of_ne hzx]

end Update

end FgMpi.Machine.LinkedQueue
