import Mathlib.Data.List.Basic
import Mathlib.Tactic.Linarith
import Mathlib.Tactic.Ring

namespace FgMpi.Types.Typemap

def sums (os xs : List Int) : List Int := os.flatMap fun o => xs.map (o + ·)

variable {os xs : List Int}

theorem mem_sums {y : Int} : y ∈ sums os xs ↔ ∃ o ∈ os, ∃ x ∈ xs, o + x = y := by
  simp only [sums, List.mem_flatMap, List.mem_map]

@[simp] theorem sums_nil (xs : List Int) : sums [] xs = [] := rfl

@[simp] theorem sums_nil_right (os : List Int) : sums os [] = [] := by
  simp [sums]

theorem sums_append (os ps xs : List Int) : sums (os ++ ps) xs = sums os xs ++ sums ps xs := by
  simp [sums]

theorem sums_sums (os ps xs : List Int) : sums (sums os ps) xs = sums os (sums ps xs) := by
  induction os with
  | nil => rfl
  | cons o os ih =>
    have hhead : sums (ps.map (o + ·)) xs = (sums ps xs).map (o + ·) := by
      simp only [sums, List.flatMap_map, List.map_flatMap, List.map_map]
      refine List.flatMap_congr ?_
      intro p _
      simp [Function.comp_def, Int.add_assoc]
    calc sums (sums (o :: os) ps) xs = sums (ps.map (o + ·) ++ sums os ps) xs := rfl
      _ = (sums ps xs).map (o + ·) ++ sums os (sums ps xs) := by rw [sums_append, hhead, ih]
      _ = sums (o :: os) (sums ps xs) := rfl

variable {a b o : Int}

theorem min?_sums (ha : os.min? = some a) (hb : xs.min? = some b) : (sums os xs).min? = some (a + b) := by
  rw [List.min?_eq_some_iff] at ha hb ⊢
  refine ⟨mem_sums.mpr ⟨a, ha.1, b, hb.1, rfl⟩, ?_⟩
  intro y hy
  obtain ⟨o, ho, x, hx, rfl⟩ := mem_sums.mp hy
  have h1 := ha.2 o ho
  have h2 := hb.2 x hx
  omega

theorem max?_sums (ha : os.max? = some a) (hb : xs.max? = some b) : (sums os xs).max? = some (a + b) := by
  rw [List.max?_eq_some_iff] at ha hb ⊢
  refine ⟨mem_sums.mpr ⟨a, ha.1, b, hb.1, rfl⟩, ?_⟩
  intro y hy
  obtain ⟨o, ho, x, hx, rfl⟩ := mem_sums.mp hy
  have h1 := ha.2 o ho
  have h2 := hb.2 x hx
  omega

theorem min?_append {ys : List Int} (ha : xs.min? = some a) (hb : ys.min? = some b) :
    (xs ++ ys).min? = some (min a b) := by
  rw [List.min?_eq_some_iff] at ha hb ⊢
  constructor
  · rcases Int.le_total a b with h | h
    · rw [Int.min_eq_left h]
      exact List.mem_append_left _ ha.1
    · rw [Int.min_eq_right h]
      exact List.mem_append_right _ hb.1
  · intro y hy
    rcases List.mem_append.mp hy with hy | hy
    · have := ha.2 y hy
      omega
    · have := hb.2 y hy
      omega

theorem max?_append {ys : List Int} (ha : xs.max? = some a) (hb : ys.max? = some b) :
    (xs ++ ys).max? = some (max a b) := by
  rw [List.max?_eq_some_iff] at ha hb ⊢
  constructor
  · rcases Int.le_total a b with h | h
    · rw [Int.max_eq_right h]
      exact List.mem_append_right _ hb.1
    · rw [Int.max_eq_left h]
      exact List.mem_append_left _ ha.1
  · intro y hy
    rcases List.mem_append.mp hy with hy | hy
    · have := ha.2 y hy
      omega
    · have := hb.2 y hy
      omega

def steps (n : Nat) (e : Int) : List Int := (List.range n).map fun i : Nat => (i : Int) * e

variable {n : Nat}

theorem mem_steps {e y : Int} : y ∈ steps n e ↔ ∃ i : Nat, i < n ∧ i * e = y := by
  simp only [steps, List.mem_map, List.mem_range]

@[simp] theorem steps_zero (e : Int) : steps 0 e = [] := rfl

@[simp] theorem steps_length (n : Nat) (e : Int) : (steps n e).length = n := by
  simp [steps]

theorem steps_succ (n : Nat) (e : Int) : steps (n + 1) e = steps n e ++ [(n : Int) * e] := by
  simp [steps, List.range_succ]

theorem min?_steps (hn : n ≠ 0) (e : Int) :
    (steps n e).min? = some (if 0 ≤ e then 0 else e * ((n : Int) - 1)) := by
  rw [List.min?_eq_some_iff]
  split
  · rename_i he
    refine ⟨mem_steps.mpr ⟨0, by omega, by simp⟩, ?_⟩
    intro y hy
    obtain ⟨i, _, rfl⟩ := mem_steps.mp hy
    exact Int.mul_nonneg (Int.natCast_nonneg i) he
  · rename_i he
    refine ⟨mem_steps.mpr ⟨n - 1, by omega, ?_⟩, ?_⟩
    · rw [Int.mul_comm, Nat.cast_sub (by omega)]
      rfl
    · intro y hy
      obtain ⟨i, hi, rfl⟩ := mem_steps.mp hy
      nlinarith

theorem max?_steps (hn : n ≠ 0) (e : Int) :
    (steps n e).max? = some (if 0 ≤ e then e * ((n : Int) - 1) else 0) := by
  rw [List.max?_eq_some_iff]
  split
  · rename_i he
    refine ⟨mem_steps.mpr ⟨n - 1, by omega, ?_⟩, ?_⟩
    · rw [Int.mul_comm, Nat.cast_sub (by omega)]
      rfl
    · intro y hy
      obtain ⟨i, hi, rfl⟩ := mem_steps.mp hy
      nlinarith
  · rename_i he
    refine ⟨mem_steps.mpr ⟨0, by omega, by simp⟩, ?_⟩
    intro y hy
    obtain ⟨i, _, rfl⟩ := mem_steps.mp hy
    nlinarith [Int.natCast_nonneg i]

def top (xs : List Int) : Int := xs.foldr max 0

theorem top_nonneg (xs : List Int) : 0 ≤ top xs := by
  induction xs with
  | nil => exact le_refl 0
  | cons b bs ih => exact le_trans ih (le_max_right _ _)

theorem le_top (h : a ∈ xs) : a ≤ top xs := by
  induction xs with
  | nil => cases h
  | cons b bs ih =>
    rcases List.mem_cons.mp h with rfl | h
    · exact le_max_left _ _
    · exact le_trans (ih h) (le_max_right _ _)

theorem top_le {c : Int} (h0 : 0 ≤ c) (h : ∀ a ∈ xs, a ≤ c) : top xs ≤ c := by
  induction xs with
  | nil => exact h0
  | cons b bs ih =>
    exact max_le (h b List.mem_cons_self) (ih fun a ha => h a (List.mem_cons_of_mem _ ha))

theorem top_append (xs ys : List Int) : top (xs ++ ys) = max (top xs) (top ys) := by
  induction xs with
  | nil => exact (max_eq_right (top_nonneg ys)).symm
  | cons x xs ih =>
    have hcons : ∀ zs, top (x :: zs) = max x (top zs) := fun _ => rfl
    rw [List.cons_append, hcons, ih, hcons, max_assoc]

/-- Data of some size and alignment, the markers `MPI_LB` and `MPI_UB`, and the padding that the upper
bound of a structure includes. -/
inductive Mark
  | data (size : Nat) (align : Int)
  | lb
  | ub
  | pad
deriving Repr, DecidableEq

structure Entry where
  disp : Int
  mark : Mark
deriving Repr, DecidableEq

abbrev Map := List Entry

namespace Entry

def shift (o : Int) (x : Entry) : Entry := { x with disp := o + x.disp }

def size (x : Entry) : Nat :=
  match x.mark with
  | .data size _ => size
  | _ => 0

def align? (x : Entry) : Option Int :=
  match x.mark with
  | .data _ align => some align
  | _ => none

def start? (x : Entry) : Option Int :=
  match x.mark with
  | .data _ _ => some x.disp
  | _ => none

def end? (x : Entry) : Option Int :=
  match x.mark with
  | .data size _ => some (x.disp + size)
  | _ => none

def ceiling? (x : Entry) : Option Int :=
  match x.mark with
  | .data size _ => some (x.disp + size)
  | .pad => some x.disp
  | _ => none

def lb? (x : Entry) : Option Int :=
  match x.mark with
  | .lb => some x.disp
  | _ => none

def ub? (x : Entry) : Option Int :=
  match x.mark with
  | .ub => some x.disp
  | _ => none

end Entry

def Moving (f : Entry → Option Int) : Prop := ∀ o x, f (x.shift o) = (f x).map (o + ·)

theorem moving_start : Moving Entry.start? := by
  rintro o ⟨d, mark⟩
  cases mark <;> rfl

theorem moving_end : Moving Entry.end? := by
  rintro o ⟨d, mark⟩
  cases mark <;> simp [Entry.end?, Entry.shift, Int.add_assoc]

theorem moving_ceiling : Moving Entry.ceiling? := by
  rintro o ⟨d, mark⟩
  cases mark <;> simp [Entry.ceiling?, Entry.shift, Int.add_assoc]

theorem moving_lb : Moving Entry.lb? := by
  rintro o ⟨d, mark⟩
  cases mark <;> rfl

theorem moving_ub : Moving Entry.ub? := by
  rintro o ⟨d, mark⟩
  cases mark <;> rfl

def copies (os : List Int) (m : Map) : Map := os.flatMap fun o => m.map (Entry.shift o)

@[simp] theorem copies_nil (m : Map) : copies [] m = [] := rfl

theorem filterMap_copies {f : Entry → Option Int} (hf : Moving f) (os : List Int) (m : Map) :
    (copies os m).filterMap f = sums os (m.filterMap f) := by
  simp only [copies, sums, List.filterMap_flatMap, List.filterMap_map, List.map_filterMap]
  refine List.flatMap_congr ?_
  intro o _
  refine List.filterMap_congr ?_
  intro x _
  exact hf o x

def size (m : Map) : Nat := (m.map Entry.size).sum

def align (m : Map) : Int := top (m.filterMap Entry.align?)

def HasData (m : Map) : Prop := m.filterMap Entry.start? ≠ []

instance (m : Map) : Decidable (HasData m) := inferInstanceAs (Decidable (_ ≠ _))

def trueLb (m : Map) : Int := (m.filterMap Entry.start?).min?.getD 0

def trueUb (m : Map) : Int := (m.filterMap Entry.end?).max?.getD 0

def lb (m : Map) : Int :=
  match (m.filterMap Entry.lb?).min? with
  | some d => d
  | none => (m.filterMap Entry.start?).min?.getD 0

def ub (m : Map) : Int :=
  match (m.filterMap Entry.ub?).max? with
  | some d => d
  | none => (m.filterMap Entry.ceiling?).max?.getD 0

def extent (m : Map) : Int := ub m - lb m

variable {m : Map}

theorem HasData.ends (h : HasData m) : m.filterMap Entry.end? ≠ [] := by
  intro hnil
  refine h ?_
  rw [List.filterMap_eq_nil_iff] at hnil ⊢
  rintro ⟨d, mark⟩ hx
  have := hnil _ hx
  cases mark with
  | data size align => cases this
  | lb => rfl
  | ub => rfl
  | pad => rfl

theorem HasData.ceilings (h : HasData m) : m.filterMap Entry.ceiling? ≠ [] := by
  intro hnil
  refine h ?_
  rw [List.filterMap_eq_nil_iff] at hnil ⊢
  rintro ⟨d, mark⟩ hx
  have := hnil _ hx
  cases mark with
  | data size align => cases this
  | lb => rfl
  | ub => rfl
  | pad => rfl

theorem exists_min? (h : xs ≠ []) : ∃ a, xs.min? = some a :=
  Option.ne_none_iff_exists'.mp (fun hn => h (List.min?_eq_none_iff.mp hn))

theorem exists_max? (h : xs ≠ []) : ∃ a, xs.max? = some a :=
  Option.ne_none_iff_exists'.mp (fun hn => h (List.max?_eq_none_iff.mp hn))

theorem size_append (m n : Map) : size (m ++ n) = size m + size n := by
  simp [size]

theorem size_copies (os : List Int) (m : Map) : size (copies os m) = os.length * size m := by
  induction os with
  | nil => simp [size]
  | cons o os ih =>
    have hshift : size (m.map (Entry.shift o)) = size m := by
      simp only [size, List.map_map]
      rfl
    have hcons : copies (o :: os) m = m.map (Entry.shift o) ++ copies os m := rfl
    rw [hcons, size_append, hshift, ih, List.length_cons, Nat.succ_mul, Nat.add_comm]

section
variable (hd : HasData m)
include hd

theorem trueLb_copies (ho : os.min? = some o) : trueLb (copies os m) = o + trueLb m := by
  obtain ⟨a, ha⟩ := exists_min? hd
  simp only [trueLb, filterMap_copies moving_start, min?_sums ho ha, ha, Option.getD_some]

theorem trueUb_copies (ho : os.max? = some o) : trueUb (copies os m) = o + trueUb m := by
  obtain ⟨a, ha⟩ := exists_max? hd.ends
  simp only [trueUb, filterMap_copies moving_end, max?_sums ho ha, ha, Option.getD_some]

theorem lb_copies (ho : os.min? = some o) : lb (copies os m) = o + lb m := by
  cases hlb : (m.filterMap Entry.lb?).min? with
  | some d => simp only [lb, filterMap_copies moving_lb, min?_sums ho hlb, hlb]
  | none =>
    obtain ⟨a, ha⟩ := exists_min? hd
    have hnil := List.min?_eq_none_iff.mp hlb
    simp only [lb, filterMap_copies moving_lb, filterMap_copies moving_start, hnil, sums_nil_right,
      List.min?_nil, min?_sums ho ha, ha, Option.getD_some]

theorem ub_copies (ho : os.max? = some o) : ub (copies os m) = o + ub m := by
  cases hub : (m.filterMap Entry.ub?).max? with
  | some d => simp only [ub, filterMap_copies moving_ub, max?_sums ho hub, hub]
  | none =>
    obtain ⟨a, ha⟩ := exists_max? hd.ceilings
    have hnil := List.max?_eq_none_iff.mp hub
    simp only [ub, filterMap_copies moving_ub, filterMap_copies moving_ceiling, hnil,
      sums_nil_right, List.max?_nil, max?_sums ho ha, ha, Option.getD_some]

end

theorem marked_copies {f : Entry → Option Int} (hf : Moving f) (hos : os ≠ [])
    (m : Map) : (copies os m).filterMap f = [] ↔ m.filterMap f = [] := by
  rw [filterMap_copies hf]
  constructor
  · intro h
    by_contra hne
    obtain ⟨o, ho⟩ := exists_min? hos
    obtain ⟨a, ha⟩ := exists_min? hne
    have hmin := min?_sums ho ha
    rw [h] at hmin
    cases hmin
  · intro h
    rw [h, sums_nil_right]

theorem align_nonneg (m : Map) : 0 ≤ align m := top_nonneg _

theorem align_append (m n : Map) : align (m ++ n) = max (align m) (align n) := by
  unfold align
  rw [List.filterMap_append, top_append]

theorem align_copies (hos : os ≠ []) (m : Map) : align (copies os m) = align m := by
  have hshift : ∀ o, align (m.map (Entry.shift o)) = align m := by
    intro o
    unfold align
    rw [List.filterMap_map]
    rfl
  induction os with
  | nil => exact absurd rfl hos
  | cons o os ih =>
    have hcons : copies (o :: os) m = m.map (Entry.shift o) ++ copies os m := rfl
    rw [hcons, align_append, hshift]
    cases os with
    | nil => exact max_eq_left (align_nonneg m)
    | cons p os => rw [ih (by simp), max_self]

def interval (a : Int) (n : Nat) : List Int := (List.range n).map fun i : Nat => a + i

@[simp] theorem interval_zero (a : Int) : interval a 0 = [] := rfl

@[simp] theorem interval_length (a : Int) (n : Nat) : (interval a n).length = n := by
  simp [interval]

theorem interval_add (a : Int) (m n : Nat) : interval a (m + n) = interval a m ++ interval (a + m) n := by
  simp only [interval, List.range_add, List.map_append, List.map_map]
  congr 1
  refine List.map_congr_left ?_
  intro i _
  simp only [Function.comp_apply]
  push_cast
  ring

theorem interval_shift (d a : Int) (n : Nat) : (interval a n).map (d + ·) = interval (d + a) n := by
  simp [interval, Int.add_assoc]

theorem interval_inj : interval a n = interval b n ↔ n = 0 ∨ a = b := by
  constructor
  · intro h
    cases n with
    | zero => exact Or.inl rfl
    | succ n =>
      have hhead := congrArg List.head? h
      simp only [interval, List.range_succ_eq_map, List.map_cons, List.head?_cons, Option.some.injEq,
        Nat.cast_zero, Int.add_zero] at hhead
      exact Or.inr hhead
  · rintro (rfl | rfl)
    · rfl
    · rfl

theorem sums_steps_interval (n m : Nat) (a : Int) : sums (steps n m) (interval a m) = interval a (n * m) := by
  induction n with
  | zero => simp [interval]
  | succ n ih =>
    have hlast : sums [(n : Int) * m] (interval a m) = interval (a + ((n * m : Nat) : Int)) m := by
      have hone : sums [(n : Int) * m] (interval a m) = (interval a m).map ((n : Int) * m + ·) := by
        simp [sums]
      rw [hone, interval_shift]
      push_cast
      rw [Int.add_comm]
    rw [steps_succ, sums_append, ih, hlast, ← interval_add, Nat.succ_mul]

def bytes (m : Map) : List Int := m.flatMap fun x => interval x.disp x.size

theorem bytes_append (m n : Map) : bytes (m ++ n) = bytes m ++ bytes n := by
  simp [bytes]

theorem bytes_copies (os : List Int) (m : Map) : bytes (copies os m) = sums os (bytes m) := by
  simp only [bytes, copies, sums, List.flatMap_assoc, List.flatMap_map, List.map_flatMap]
  refine List.flatMap_congr ?_
  intro o _
  refine List.flatMap_congr ?_
  intro x _
  exact (interval_shift o x.disp x.size).symm

theorem bytes_length (m : Map) : (bytes m).length = size m := by
  simp [bytes, size, List.length_flatMap]

end FgMpi.Types.Typemap
