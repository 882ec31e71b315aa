import Mathlib.Data.List.Basic

/-! Elements of an array linked by their indices; `-1` ends the list. -/

namespace FgMpi.Machine.IndexChain

def Path (base : Nat) (next : Nat → Int) : Int → List Nat → Int → Prop
  | idx, [], stop => idx = stop
  | idx, x :: l, stop => base ≤ x ∧ idx = (x : Int) - base ∧ Path base next (next x) l stop

abbrev Linked (base : Nat) (next : Nat → Int) (idx : Int) (l : List Nat) : Prop := Path base next idx l (-1)

variable {base : Nat} {next next' : Nat → Int} {idx mid stop v : Int} {x : Nat} {l l' : List Nat}

@[simp] theorem path_nil : Path base next idx [] stop ↔ idx = stop := Iff.rfl

theorem Path.append (h : Path base next idx l mid) (h' : Path base next mid l' stop) :
    Path base next idx (l ++ l') stop := by
  induction l generalizing idx with
  | nil =>
    rw [path_nil] at h
    rw [List.nil_append, h]
    exact h'
  | cons x l ih => exact ⟨h.1, h.2.1, ih h.2.2⟩

theorem Path.congr (h : Path base next idx l stop) (hnext : ∀ y ∈ l, next' y = next y) :
    Path base next' idx l stop := by
  induction l generalizing idx with
  | nil => exact h
  | cons x l ih =>
    refine ⟨h.1, h.2.1, ?_⟩
    rw [hnext x List.mem_cons_self]
    exact ih h.2.2 fun y hy => hnext y (List.mem_cons_of_mem x hy)

theorem Path.update_of_notMem (h : Path base next idx l stop) (hx : x ∉ l) (v : Int) :
    Path base (Function.update next x v) idx l stop := by
  apply h.congr
  intro y hy
  have hne : y ≠ x := ne_of_mem_of_not_mem hy hx
  exact Function.update_of_ne hne v next

theorem Path.snoc (h : Path base next idx l ((x : Int) - base)) (hbase : base ≤ x) (hx : x ∉ l) (v : Int) :
    Path base (Function.update next x v) idx (l ++ [x]) v := by
  apply (h.update_of_notMem hx v).append
  refine ⟨hbase, rfl, ?_⟩
  rw [Function.update_self]
  rfl

theorem Linked.nonneg_iff (h : Linked base next idx l) : 0 ≤ idx ↔ l ≠ [] := by
  cases l with
  | nil =>
    have hend : idx = -1 := h
    simp [hend]
  | cons x l =>
    obtain ⟨hbase, hidx, -⟩ := h
    have hnonneg : 0 ≤ idx := by omega
    simp [hnonneg]

theorem Linked.eq_neg_one (h : Linked base next idx l) (hneg : ¬ 0 ≤ idx) : l = [] := by
  rw [h.nonneg_iff, not_not] at hneg
  exact hneg

end FgMpi.Machine.IndexChain
