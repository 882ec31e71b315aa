import FgMpi.Machine.IndexChain
import Mathlib.Data.List.Nodup
import Mathlib.Data.List.Perm.Basic
import Mathlib.Data.List.Range

/-! `mergesort_lpidarray` (`mpi/group/grouputil.c:118`). -/

namespace FgMpi.Group.LpidOrder
open Machine.IndexChain
open Function (update update_of_ne update_self)

section Sorting
variable (lpid : Nat → Int)

/-- Which element `maparray[idx]` is, for an array of `n` that begins at `base`; `none` is an access outside it. -/
def element (base n : Nat) (idx : Int) : Option Nat :=
  if 0 ≤ idx ∧ idx < n then some (base + idx.toNat) else none

/-- Merge the lists until one is empty; `none` also when the fuel does not last. -/
def mergeLoop (base n offset : Nat) : Nat → (Nat → Int) → Int → Int → Int →
    Option ((Nat → Int) × Int × Int × Int)
  | 0, next, cur, idx1, idx2 => if 0 ≤ idx1 ∧ 0 ≤ idx2 then none else some (next, cur, idx1, idx2)
  | fuel + 1, next, cur, idx1, idx2 =>
    if 0 ≤ idx1 ∧ 0 ≤ idx2 then do
      let a ← element base n idx1
      let b ← element base n idx2
      let c ← element base n cur
      if lpid b < lpid a then
        let nextLpid := next b
        let nextLpid := if 0 ≤ nextLpid then nextLpid + offset else nextLpid
        mergeLoop base n offset fuel (update next c idx2) idx2 idx1 nextLpid
      else
        let nextLpid := next a
        mergeLoop base n offset fuel (update next c idx1) idx1 nextLpid idx2
    else some (next, cur, idx1, idx2)

def convertLoop (base n offset : Nat) : Nat → (Nat → Int) → Int → Option (Nat → Int)
  | 0, next, idx2 => if 0 ≤ idx2 then none else some next
  | fuel + 1, next, idx2 =>
    if 0 ≤ idx2 then do
      let b ← element base n idx2
      let nextLpid := next b
      if 0 ≤ nextLpid then
        convertLoop base n offset fuel (update next b (nextLpid + offset)) (nextLpid + offset)
      else convertLoop base n offset fuel next nextLpid
    else some next

def addRest (base n offset : Nat) (next : Nat → Int) (cur idx1 idx2 : Int) : Option (Nat → Int) := do
  let c ← element base n cur
  if 0 ≤ idx1 then some (update next c idx1)
  else convertLoop base n offset n (update next c idx2) idx2

def mergeHalves (base n offset : Nat) (next : Nat → Int) (idx1 idx2 : Int) : Option (Int × (Nat → Int)) := do
  let a ← element base n idx1
  let b ← element base n idx2
  -- find the head element
  let (first, idx1, idx2) :=
    if lpid b < lpid a then (idx2, idx1, next b + offset) else (idx1, next a, idx2)
  let (next, cur, idx1, idx2) ← mergeLoop lpid base n offset n next first idx1 idx2
  let next ← addRest base n offset next cur idx1 idx2
  some (first, next)

/-- `mergesort_lpidarray`: the first index and the `next_lpid` fields. -/
def mergesortLpidarray (base n : Nat) (next : Nat → Int) : Option (Int × (Nat → Int)) :=
  if n = 2 then
    if lpid (base + 1) < lpid base then
      some (1, update (update next base (-1)) (base + 1) 0)
    else some (0, update (update next base 1) (base + 1) (-1))
  else if n = 1 then some (0, update next base (-1))
  else if n = 0 then some (-1, next)
  else do
    let (idx1, next) ← mergesortLpidarray base (n / 2) next
    let (idx2, next) ← mergesortLpidarray (base + n / 2) (n - n / 2) next
    mergeHalves lpid base n (n / 2) next idx1 (idx2 + (n / 2 : Nat))
termination_by n
decreasing_by
  all_goals omega

end Sorting

section Merge
variable {lpid : Nat → Int} {base n offset : Nat} {next : Nat → Int} {first cur idx1 idx2 : Int}
  {x : Nat} {done left right : List Nat}

theorem element_eq (hbase : base ≤ x) (hx : x < base + n) : element base n ((x : Int) - base) = some x := by
  unfold element
  rw [if_pos (by omega)]
  congr 1
  omega

def Behind (base offset : Nat) (next : Nat → Int) (idx : Int) : List Nat → Prop
  | [] => idx = -1
  | x :: l => base ≤ x ∧ idx = (x : Int) - base ∧ Linked (base + offset) next (next x) l

theorem Behind.congr {idx : Int} {next' : Nat → Int} (h : Behind base offset next idx right)
    (hnext : ∀ y ∈ right, next' y = next y) : Behind base offset next' idx right := by
  cases right with
  | nil => exact h
  | cons x l =>
    refine ⟨h.1, h.2.1, ?_⟩
    rw [hnext x List.mem_cons_self]
    exact Path.congr h.2.2 fun y hy => hnext y (List.mem_cons_of_mem x hy)

theorem Behind.nonneg_iff {idx : Int} (h : Behind base offset next idx right) : 0 ≤ idx ↔ right ≠ [] := by
  cases right with
  | nil =>
    have hend : idx = -1 := h
    simp [hend]
  | cons x l =>
    obtain ⟨hbase, hidx, -⟩ := h
    have hnonneg : 0 ≤ idx := by omega
    simp [hnonneg]

theorem Behind.of_linked {idx : Int} (h : Linked (base + offset) next idx right) :
    Behind base offset next (if 0 ≤ idx then idx + offset else idx) right := by
  cases right with
  | nil =>
    have hend : idx = -1 := h
    rw [hend]
    rfl
  | cons x l =>
    obtain ⟨hbase, hidx, hrest⟩ := h
    rw [if_pos (by omega)]
    exact ⟨by omega, by omega, hrest⟩

structure Merging (lpid : Nat → Int) (base n offset : Nat) (next : Nat → Int) (first : Int) (done : List Nat)
    (x : Nat) (idx1 : Int) (left : List Nat) (idx2 : Int) (right : List Nat) : Prop where
  path : Path base next first done ((x : Int) - base)
  leftLinked : Linked base next idx1 left
  behind : Behind base offset next idx2 right
  nodup : (done ++ [x] ++ (left ++ right)).Nodup
  inside : ∀ y ∈ x :: (left ++ right), base ≤ y ∧ y < base + n
  leftSorted : (done ++ [x] ++ left).Pairwise fun a b => lpid a < lpid b
  rightSorted : (done ++ [x] ++ right).Pairwise fun a b => lpid a < lpid b
  distinct : ∀ a ∈ left, ∀ b ∈ right, lpid a ≠ lpid b

theorem pairwise_insert {R : Nat → Nat → Prop} {A B : List Nat} {y : Nat} (hB : (A ++ B).Pairwise R)
    (hy : (A ++ [y]).Pairwise R) (hle : ∀ b ∈ B, R y b) : (A ++ [y] ++ B).Pairwise R := by
  rw [List.pairwise_append] at hB ⊢
  obtain ⟨-, hright, hcross⟩ := hB
  refine ⟨hy, hright, ?_⟩
  intro a ha b hb
  rcases List.mem_append.mp ha with hmem | hmem
  · exact hcross a hmem b hb
  · rw [List.mem_singleton.mp hmem]
    exact hle b hb

variable {y : Nat}

theorem Merging.notMem (h : Merging lpid base n offset next first done x idx1 left idx2 right) :
    x ∉ done ∧ x ∉ left ∧ x ∉ right := by
  have hnodup := h.nodup
  simp only [List.nodup_append, List.nodup_cons, List.mem_append, List.mem_singleton] at hnodup
  refine ⟨?_, ?_, ?_⟩
  · exact fun hmem => hnodup.1.2.2 x hmem x rfl rfl
  · exact fun hmem => hnodup.2.2 x (.inr rfl) x (.inl hmem) rfl
  · exact fun hmem => hnodup.2.2 x (.inr rfl) x (.inr hmem) rfl

theorem Merging.takeRight (h : Merging lpid base n offset next first done x idx1 left idx2 (y :: right))
    (hlt : ∀ a ∈ left, lpid y < lpid a) :
    Merging lpid base n offset (update next x idx2) first (done ++ [x]) y idx1 left
      (if 0 ≤ next y then next y + offset else next y) right := by
  obtain ⟨hdone, hleft, hright⟩ := h.notMem
  obtain ⟨hbase, hidx, hrest⟩ := h.behind
  have hxright : x ∉ right := fun hmem => hright (List.mem_cons_of_mem y hmem)
  have hassoc : done ++ [x] ++ [y] ++ right = done ++ [x] ++ y :: right := by simp
  constructor
  · rw [← hidx]
    exact h.path.snoc (h.inside x List.mem_cons_self).1 hdone idx2
  · exact h.leftLinked.update_of_notMem hleft idx2
  · exact Behind.of_linked (hrest.update_of_notMem hxright idx2)
  · have hperm : (done ++ [x] ++ (left ++ y :: right)).Perm (done ++ [x] ++ [y] ++ (left ++ right)) := by
      rw [List.append_assoc (done ++ [x])]
      exact List.Perm.append_left _ List.perm_middle
    exact hperm.nodup_iff.mp h.nodup
  · intro z hz
    apply h.inside z
    simp only [List.mem_cons, List.mem_append] at hz ⊢
    tauto
  · apply pairwise_insert h.leftSorted _ hlt
    exact List.Pairwise.sublist (by simp) h.rightSorted
  · rw [hassoc]
    exact h.rightSorted
  · exact fun a ha b hb => h.distinct a ha b (List.mem_cons_of_mem y hb)

theorem Merging.takeLeft (h : Merging lpid base n offset next first done x idx1 (y :: left) idx2 right)
    (hlt : ∀ b ∈ right, lpid y < lpid b) :
    Merging lpid base n offset (update next x idx1) first (done ++ [x]) y (next y) left idx2 right := by
  obtain ⟨hdone, hleft, hright⟩ := h.notMem
  obtain ⟨hbase, hidx, hrest⟩ := h.leftLinked
  have hxleft : x ∉ left := fun hmem => hleft (List.mem_cons_of_mem y hmem)
  have hassoc : done ++ [x] ++ [y] ++ left = done ++ [x] ++ y :: left := by simp
  constructor
  · rw [← hidx]
    exact h.path.snoc (h.inside x List.mem_cons_self).1 hdone idx1
  · exact Path.update_of_notMem hrest hxleft idx1
  · exact h.behind.congr fun z hz => update_of_ne (ne_of_mem_of_not_mem hz hright) idx1 next
  · rw [List.append_assoc (done ++ [x])]
    exact h.nodup
  · intro z hz
    exact h.inside z (List.mem_cons_of_mem x hz)
  · rw [hassoc]
    exact h.leftSorted
  · apply pairwise_insert h.rightSorted _ hlt
    exact List.Pairwise.sublist (by simp) h.leftSorted
  · exact fun a ha b hb => h.distinct a (List.mem_cons_of_mem y ha) b hb

def Frame (base n : Nat) (next next' : Nat → Int) : Prop := ∀ z, ¬ (base ≤ z ∧ z < base + n) → next' z = next z

theorem Frame.trans {next' next'' : Nat → Int} (h : Frame base n next next') (h' : Frame base n next' next'') :
    Frame base n next next'' := fun z hz => (h' z hz).trans (h z hz)

theorem frame_update (hbase : base ≤ x) (hx : x < base + n) (v : Int) :
    Frame base n next (update next x v) := by
  intro z hz
  have hne : z ≠ x := by
    rintro rfl
    exact hz ⟨hbase, hx⟩
  exact update_of_ne hne v next

theorem mergeLoop_eq {fuel : Nat} (h : Merging lpid base n offset next first done x idx1 left idx2 right)
    (hfuel : left.length + right.length ≤ fuel) :
    ∃ (next' : Nat → Int) (done' : List Nat) (x' : Nat) (idx1' : Int) (left' : List Nat) (idx2' : Int)
        (right' : List Nat),
      mergeLoop lpid base n offset fuel next ((x : Int) - base) idx1 idx2 =
        some (next', (x' : Int) - base, idx1', idx2') ∧
      Merging lpid base n offset next' first done' x' idx1' left' idx2' right' ∧ (left' = [] ∨ right' = []) ∧
      (done' ++ [x'] ++ (left' ++ right')).Perm (done ++ [x] ++ (left ++ right)) ∧ Frame base n next next' := by
  induction fuel generalizing next done x idx1 left idx2 right with
  | zero =>
    have hleft : left = [] := List.eq_nil_of_length_eq_zero (by omega)
    have hstop : ¬ (0 ≤ idx1 ∧ 0 ≤ idx2) := by
      intro hboth
      exact h.leftLinked.nonneg_iff.mp hboth.1 hleft
    refine ⟨next, done, x, idx1, left, idx2, right, ?_, h, .inl hleft, .refl _, fun _ _ => rfl⟩
    unfold mergeLoop
    rw [if_neg hstop]
  | succ fuel ih =>
    unfold mergeLoop
    by_cases hgo : 0 ≤ idx1 ∧ 0 ≤ idx2
    · rw [if_pos hgo]
      obtain ⟨y, left, rfl⟩ := List.exists_cons_of_ne_nil (h.leftLinked.nonneg_iff.mp hgo.1)
      obtain ⟨z, right, rfl⟩ := List.exists_cons_of_ne_nil (h.behind.nonneg_iff.mp hgo.2)
      obtain ⟨hybase, hidx1, -⟩ := h.leftLinked
      obtain ⟨hzbase, hidx2, -⟩ := h.behind
      have hx := h.inside x List.mem_cons_self
      have hy := h.inside y (by simp)
      have hz := h.inside z (by simp)
      have hleftSorted := h.leftSorted
      have hrightSorted := h.rightSorted
      rw [hidx1, hidx2, element_eq hy.1 hy.2, element_eq hz.1 hz.2, element_eq hx.1 hx.2]
      simp only [Option.bind_eq_bind, Option.bind_some]
      by_cases hlt : lpid z < lpid y
      · rw [if_pos hlt]
        have hbefore : ∀ a ∈ y :: left, lpid z < lpid a := by
          intro a ha
          rcases List.mem_cons.mp ha with rfl | ha
          · exact hlt
          · have hya : lpid y < lpid a := List.rel_of_pairwise_cons (List.pairwise_append.mp hleftSorted).2.1 ha
            exact Int.lt_trans hlt hya
        have hnext := h.takeRight hbefore
        rw [hidx1, hidx2] at hnext
        obtain ⟨next', done', x', idx1', left', idx2', right', hloop, hmerging, hempty, hperm, hframe⟩ :=
          ih hnext (by simp only [List.length_cons] at hfuel ⊢; omega)
        refine ⟨next', done', x', idx1', left', idx2', right', hloop, hmerging, hempty, ?_,
          (frame_update hx.1 hx.2 _).trans hframe⟩
        apply hperm.trans
        have hmiddle : (z :: (y :: left ++ right)).Perm (y :: left ++ z :: right) := List.perm_middle.symm
        rw [List.append_assoc (done ++ [x])]
        exact hmiddle.append_left _
      · rw [if_neg hlt]
        have hyz : lpid y < lpid z := by
          have hne := h.distinct y List.mem_cons_self z List.mem_cons_self
          omega
        have hbefore : ∀ b ∈ z :: right, lpid y < lpid b := by
          intro b hb
          rcases List.mem_cons.mp hb with rfl | hb
          · exact hyz
          · have hzb : lpid z < lpid b := List.rel_of_pairwise_cons (List.pairwise_append.mp hrightSorted).2.1 hb
            exact Int.lt_trans hyz hzb
        have hnext := h.takeLeft hbefore
        rw [hidx1, hidx2] at hnext
        obtain ⟨next', done', x', idx1', left', idx2', right', hloop, hmerging, hempty, hperm, hframe⟩ :=
          ih hnext (by simp only [List.length_cons] at hfuel ⊢; omega)
        refine ⟨next', done', x', idx1', left', idx2', right', hloop, hmerging, hempty, ?_,
          (frame_update hx.1 hx.2 _).trans hframe⟩
        apply hperm.trans
        rw [List.append_assoc (done ++ [x])]
        rfl
    · rw [if_neg hgo]
      refine ⟨next, done, x, idx1, left, idx2, right, rfl, h, ?_, .refl _, fun _ _ => rfl⟩
      have hleft := h.leftLinked.nonneg_iff
      have hright := h.behind.nonneg_iff
      tauto

theorem convertLoop_eq {fuel : Nat} (h : Behind base offset next idx2 right) (hnodup : right.Nodup)
    (hinside : ∀ y ∈ right, base ≤ y ∧ y < base + n) (hfuel : right.length ≤ fuel) :
    ∃ next', convertLoop base n offset fuel next idx2 = some next' ∧ Linked base next' idx2 right ∧
      ∀ z, z ∉ right → next' z = next z := by
  induction right generalizing next idx2 fuel with
  | nil =>
    have hidx : idx2 = -1 := h
    refine ⟨next, ?_, hidx, fun _ _ => rfl⟩
    cases fuel <;> simp [convertLoop, hidx]
  | cons y right ih =>
    obtain ⟨hbase, hidx, hrest⟩ := h
    obtain ⟨hy, hnodup⟩ := List.nodup_cons.mp hnodup
    have hyin := hinside y List.mem_cons_self
    cases fuel with
    | zero => exact absurd hfuel (by simp)
    | succ fuel =>
      unfold convertLoop
      rw [if_pos (by omega), hidx, element_eq hyin.1 hyin.2]
      simp only [Option.bind_eq_bind, Option.bind_some]
      have hbehind := Behind.of_linked hrest
      have hinside' : ∀ z ∈ right, base ≤ z ∧ z < base + n := fun z hz => hinside z (List.mem_cons_of_mem y hz)
      by_cases hnonneg : 0 ≤ next y
      · rw [if_pos hnonneg] at hbehind ⊢
        have hbehind' : Behind base offset (update next y (next y + offset)) (next y + offset) right :=
          hbehind.congr fun z hz => update_of_ne (ne_of_mem_of_not_mem hz hy) _ next
        obtain ⟨next', hloop, hlinked, hframe⟩ := ih hbehind' hnodup hinside' (Nat.le_of_succ_le_succ hfuel)
        have hy' : next' y = next y + offset := by
          rw [hframe y hy, update_self]
        refine ⟨next', hloop, ⟨hbase, rfl, by rw [hy']; exact hlinked⟩, ?_⟩
        intro z hz
        rw [hframe z fun hmem => hz (List.mem_cons_of_mem y hmem)]
        exact update_of_ne (List.ne_of_not_mem_cons hz) _ next
      · rw [if_neg hnonneg] at hbehind ⊢
        obtain ⟨next', hloop, hlinked, hframe⟩ := ih hbehind hnodup hinside' (Nat.le_of_succ_le_succ hfuel)
        refine ⟨next', hloop, ⟨hbase, rfl, by rw [hframe y hy]; exact hlinked⟩, ?_⟩
        intro z hz
        exact hframe z fun hmem => hz (List.mem_cons_of_mem y hmem)

theorem length_le_of_inside {l : List Nat} (hnodup : l.Nodup) (hinside : ∀ y ∈ l, base ≤ y ∧ y < base + n) :
    l.length ≤ n := by
  have hsubset : l ⊆ List.range' base n := by
    intro y hy
    exact List.mem_range'_1.mpr (hinside y hy)
  have hle := (List.subperm_of_subset hnodup hsubset).length_le
  rw [List.length_range'] at hle
  exact hle

section
variable (h : Merging lpid base n offset next first done x idx1 left idx2 right)
include h

theorem addRest_eq
    (hempty : left = [] ∨ right = []) :
    ∃ next', addRest base n offset next ((x : Int) - base) idx1 idx2 = some next' ∧
      Linked base next' first (done ++ [x] ++ (left ++ right)) ∧ Frame base n next next' := by
  obtain ⟨hdone, hleft, hright⟩ := h.notMem
  have hx := h.inside x List.mem_cons_self
  unfold addRest
  rw [element_eq hx.1 hx.2]
  simp only [Option.bind_eq_bind, Option.bind_some]
  by_cases hnonneg : 0 ≤ idx1
  · have hne := h.leftLinked.nonneg_iff.mp hnonneg
    obtain rfl : right = [] := hempty.resolve_left hne
    refine ⟨_, if_pos hnonneg, ?_, frame_update hx.1 hx.2 idx1⟩
    rw [List.append_nil]
    exact (h.path.snoc hx.1 hdone idx1).append (h.leftLinked.update_of_notMem hleft idx1)
  · obtain rfl : left = [] := h.leftLinked.eq_neg_one hnonneg
    have hbehind : Behind base offset (update next x idx2) idx2 right :=
      h.behind.congr fun z hz => update_of_ne (ne_of_mem_of_not_mem hz hright) idx2 next
    have hnodup : right.Nodup := (List.nodup_append.mp h.nodup).2.1
    have hinside : ∀ y ∈ right, base ≤ y ∧ y < base + n := fun y hy => h.inside y (List.mem_cons_of_mem x hy)
    obtain ⟨next', hconvert, hlinked, hframe⟩ :=
      convertLoop_eq hbehind hnodup hinside (length_le_of_inside hnodup hinside)
    refine ⟨next', by rw [if_neg hnonneg]; exact hconvert, ?_, ?_⟩
    · have hpath : Path base next' first (done ++ [x]) idx2 := by
        apply (h.path.snoc hx.1 hdone idx2).congr
        intro y hy
        apply hframe
        intro hmem
        have hdisjoint := (List.nodup_append.mp h.nodup).2.2 y hy y hmem
        exact hdisjoint rfl
      exact hpath.append hlinked
    · intro z hz
      have hzright : z ∉ right := fun hmem => hz (hinside z hmem)
      rw [hframe z hzright]
      exact frame_update hx.1 hx.2 idx2 z hz

theorem Merging.sorted
    (hempty : left = [] ∨ right = []) :
    (done ++ [x] ++ (left ++ right)).Pairwise fun a b => lpid a < lpid b := by
  rcases hempty with rfl | rfl
  · exact h.rightSorted
  · rw [List.append_nil]
    exact h.leftSorted

theorem merging_eq
    (hlength : left.length + right.length ≤ n) :
    ∃ next' whole, (do
        let (next, cur, idx1, idx2) ← mergeLoop lpid base n offset n next ((x : Int) - base) idx1 idx2
        let next ← addRest base n offset next cur idx1 idx2
        some (first, next)) = some (first, next') ∧
      Linked base next' first whole ∧ whole.Perm (done ++ [x] ++ (left ++ right)) ∧
      (whole.Pairwise fun a b => lpid a < lpid b) ∧ Frame base n next next' := by
  obtain ⟨next', done', x', idx1', left', idx2', right', hloop, hmerging, hempty, hperm, hframe⟩ :=
    mergeLoop_eq h hlength
  obtain ⟨next'', hrest, hlinked, hframe'⟩ := addRest_eq hmerging hempty
  refine ⟨next'', _, ?_, hlinked, hperm, hmerging.sorted hempty, hframe.trans hframe'⟩
  rw [hloop]
  simp only [Option.bind_eq_bind, Option.bind_some, hrest]

end

theorem mergeHalves_eq {l r : List Nat} (hl : Linked base next idx1 l) (hr : Linked (base + offset) next idx2 r)
    (hl0 : l ≠ []) (hr0 : 2 ≤ r.length) (hnodup : (l ++ r).Nodup)
    (hinside : ∀ y ∈ l ++ r, base ≤ y ∧ y < base + n) (hlsorted : l.Pairwise fun a b => lpid a < lpid b)
    (hrsorted : r.Pairwise fun a b => lpid a < lpid b) (hdistinct : ∀ a ∈ l, ∀ b ∈ r, lpid a ≠ lpid b) :
    ∃ first next' whole, mergeHalves lpid base n offset next idx1 (idx2 + offset) = some (first, next') ∧
      Linked base next' first whole ∧ whole.Perm (l ++ r) ∧ (whole.Pairwise fun a b => lpid a < lpid b) ∧
      Frame base n next next' := by
  obtain ⟨y, l, rfl⟩ := List.exists_cons_of_ne_nil hl0
  obtain ⟨z, z', r, rfl⟩ : ∃ z z' r', r = z :: z' :: r' := by
    match r, hr0 with
    | z :: z' :: r', _ => exact ⟨z, z', r', rfl⟩
  obtain ⟨hybase, hidx1, hlrest⟩ := hl
  obtain ⟨hzbase, hidx2, hrrest⟩ := hr
  have hy := hinside y (by simp)
  have hz := hinside z (by simp)
  have hlength := length_le_of_inside hnodup hinside
  have hidx2' : idx2 + offset = (z : Int) - base := by omega
  have hmiddle : ([] ++ [z] ++ (y :: l ++ z' :: r)).Perm (y :: l ++ z :: z' :: r) := by
    show (z :: (y :: l ++ z' :: r)).Perm _
    exact List.perm_middle.symm
  unfold mergeHalves
  rw [hidx2', hidx1, element_eq hy.1 hy.2, element_eq hz.1 hz.2]
  simp only [Option.bind_eq_bind, Option.bind_some]
  by_cases hlt : lpid z < lpid y
  · simp only [if_pos hlt]
    have hmerging : Merging lpid base n offset next ((z : Int) - base) [] z ((y : Int) - base) (y :: l)
        (next z + offset) (z' :: r) := by
      have hnext := Behind.of_linked hrrest
      rw [if_pos (Linked.nonneg_iff hrrest |>.mpr (List.cons_ne_nil z' r))] at hnext
      refine ⟨rfl, ⟨hybase, rfl, hlrest⟩, hnext, ?_, ?_, ?_, hrsorted, ?_⟩
      · exact hmiddle.nodup_iff.mpr hnodup
      · intro x hx
        apply hinside x
        simp only [List.mem_cons, List.mem_append] at hx ⊢
        tauto
      · apply List.pairwise_cons.mpr ⟨_, hlsorted⟩
        intro a ha
        rcases List.mem_cons.mp ha with rfl | ha
        · exact hlt
        · exact Int.lt_trans hlt (List.rel_of_pairwise_cons hlsorted ha)
      · exact fun a ha b hb => hdistinct a ha b (List.mem_cons_of_mem z hb)
    obtain ⟨next', whole, hrun, hlinked, hperm, hsorted, hframe⟩ := merging_eq hmerging (by
      simp only [List.length_append, List.length_cons] at hlength ⊢
      omega)
    exact ⟨_, next', whole, hrun, hlinked, hperm.trans hmiddle, hsorted, hframe⟩
  · simp only [if_neg hlt]
    have hyz : lpid y < lpid z := by
      have hne := hdistinct y List.mem_cons_self z List.mem_cons_self
      omega
    have hmerging : Merging lpid base n offset next ((y : Int) - base) [] y (next y) l ((z : Int) - base)
        (z :: z' :: r) := by
      refine ⟨rfl, hlrest, ⟨hz.1, rfl, hrrest⟩, hnodup, hinside, hlsorted, ?_, ?_⟩
      · apply List.pairwise_cons.mpr ⟨_, hrsorted⟩
        intro b hb
        rcases List.mem_cons.mp hb with rfl | hb
        · exact hyz
        · exact Int.lt_trans hyz (List.rel_of_pairwise_cons hrsorted hb)
      · exact fun a ha b hb => hdistinct a (List.mem_cons_of_mem y ha) b hb
    obtain ⟨next', whole, hrun, hlinked, hperm, hsorted, hframe⟩ := merging_eq hmerging (by
      simp only [List.length_append, List.length_cons] at hlength ⊢
      omega)
    exact ⟨_, next', whole, hrun, hlinked, hperm, hsorted, hframe⟩

end Merge

/-- The links from the first index visit every element of the array once, by increasing `lpid`, and end. -/
structure Ordered (lpid : Nat → Int) (base n : Nat) (next : Nat → Int) (first : Int) (order : List Nat) : Prop where
  linked : Linked base next first order
  perm : order.Perm (List.range' base n)
  sorted : order.Pairwise fun a b => lpid a < lpid b

section Sorted
variable {lpid : Nat → Int} {base n : Nat} {next : Nat → Int} {first : Int} {order : List Nat}

theorem Ordered.mem_iff (h : Ordered lpid base n next first order) {x : Nat} :
    x ∈ order ↔ base ≤ x ∧ x < base + n := by
  rw [h.perm.mem_iff, List.mem_range'_1]

theorem Ordered.length (h : Ordered lpid base n next first order) : order.length = n := by
  rw [h.perm.length_eq, List.length_range']

theorem mergesort_one (base : Nat) (next : Nat → Int) :
    Ordered lpid base 1 (update next base (-1)) 0 [base] := by
  refine ⟨⟨Nat.le_refl base, by omega, ?_⟩, .refl _, List.pairwise_singleton _ base⟩
  exact update_self base (-1) next

theorem mergesort_two_gt (hlt : lpid (base + 1) < lpid base) :
    Ordered lpid base 2 (update (update next base (-1)) (base + 1) 0) 1 [base + 1, base] := by
  refine ⟨⟨Nat.le_add_right base 1, by omega, ?_⟩, .swap _ _ _, ?_⟩
  · rw [update_self]
    refine ⟨Nat.le_refl base, by omega, ?_⟩
    rw [update_of_ne (by omega), update_self]
    rfl
  · simpa using hlt

theorem mergesort_two_lt (hlt : lpid base < lpid (base + 1)) :
    Ordered lpid base 2 (update (update next base 1) (base + 1) (-1)) 0 [base, base + 1] := by
  refine ⟨⟨Nat.le_refl base, by omega, ?_⟩, .refl _, ?_⟩
  · rw [update_of_ne (by omega), update_self]
    refine ⟨Nat.le_add_right base 1, by omega, ?_⟩
    exact update_self (base + 1) (-1) _
  · simpa using hlt

theorem mergesort_halves {off : Nat} {next1 next2 : Nat → Int} {first1 first2 : Int} {order1 order2 : List Nat}
    (h1 : Ordered lpid base off next1 first1 order1) (h2 : Ordered lpid (base + off) (n - off) next2 first2 order2)
    (hframe : Frame (base + off) (n - off) next1 next2) (hpos : 0 < off) (htwo : off + 2 ≤ n)
    (hdistinct : ∀ a b, base ≤ a → a < b → b < base + n → lpid a ≠ lpid b) :
    ∃ first next' order, mergeHalves lpid base n off next2 first1 (first2 + off) = some (first, next') ∧
      Ordered lpid base n next' first order ∧ Frame base n next2 next' := by
  have hwhole : (order1 ++ order2).Perm (List.range' base n) := by
    have hsplit : List.range' base off ++ List.range' (base + off) (n - off) = List.range' base n := by
      have hn : n = off + (n - off) := by omega
      conv_rhs => rw [hn]
      simp
    rw [← hsplit]
    exact h1.perm.append h2.perm
  have hleft : Linked base next2 first1 order1 := by
    apply h1.linked.congr
    intro y hy
    apply hframe
    have hlt := h1.mem_iff.mp hy
    omega
  have hlength1 := h1.length
  have hlength2 := h2.length
  obtain ⟨first, next', order, hrun, hlinked, hperm, hsorted, hframe'⟩ :=
    mergeHalves_eq hleft h2.linked (List.ne_nil_of_length_pos (by omega)) (by omega)
      (hwhole.nodup_iff.mpr List.nodup_range') (fun y hy => List.mem_range'_1.mp (hwhole.mem_iff.mp hy)) h1.sorted
      h2.sorted (by
        intro a ha b hb
        have hla := h1.mem_iff.mp ha
        have hlb := h2.mem_iff.mp hb
        exact hdistinct a b hla.1 (by omega) (by omega))
  exact ⟨first, next', order, hrun, ⟨hlinked, hperm.trans hwhole, hsorted⟩, hframe'⟩

theorem Frame.mono {base' n' : Nat} {next' : Nat → Int} (h : Frame base' n' next next') (hlo : base ≤ base')
    (hhi : base' + n' ≤ base + n) : Frame base n next next' := by
  intro z hz
  exact h z (by omega)

theorem mergesort_ordered (base n : Nat) (next : Nat → Int)
    (hdistinct : ∀ a b, base ≤ a → a < b → b < base + n → lpid a ≠ lpid b) :
    ∃ first next' order, mergesortLpidarray lpid base n next = some (first, next') ∧
      Ordered lpid base n next' first order ∧ Frame base n next next' := by
  induction n using Nat.strong_induction_on generalizing base next with
  | _ n ih =>
    unfold mergesortLpidarray
    by_cases htwo : n = 2
    · subst htwo
      rw [if_pos rfl]
      have hframe : ∀ v w, Frame base 2 next (update (update next base v) (base + 1) w) := by
        intro v w
        exact (frame_update (Nat.le_refl base) (by omega) v).trans (frame_update (by omega) (by omega) w)
      by_cases hlt : lpid (base + 1) < lpid base
      · exact ⟨_, _, _, if_pos hlt, mergesort_two_gt hlt, hframe _ _⟩
      · have hne := hdistinct base (base + 1) (Nat.le_refl base) (by omega) (by omega)
        exact ⟨_, _, _, if_neg hlt, mergesort_two_lt (by omega), hframe _ _⟩
    by_cases hone : n = 1
    · subst hone
      rw [if_neg htwo, if_pos rfl]
      exact ⟨_, _, _, rfl, mergesort_one base next, frame_update (Nat.le_refl base) (by omega) _⟩
    by_cases hzero : n = 0
    · subst hzero
      rw [if_neg htwo, if_neg hone, if_pos rfl]
      exact ⟨_, _, [], rfl, ⟨rfl, .refl _, .nil⟩, fun _ _ => rfl⟩
    rw [if_neg htwo, if_neg hone, if_neg hzero]
    obtain ⟨first1, next1, order1, hrun1, hordered1, hframe1⟩ :=
      ih (n / 2) (by omega) base next fun a b ha hab hb => hdistinct a b ha hab (by omega)
    obtain ⟨first2, next2, order2, hrun2, hordered2, hframe2⟩ :=
      ih (n - n / 2) (by omega) (base + n / 2) next1 fun a b ha hab hb => hdistinct a b (by omega) hab (by omega)
    obtain ⟨first, next', order, hrun, hordered, hframe⟩ :=
      mergesort_halves hordered1 hordered2 hframe2 (by omega) (by omega) hdistinct
    refine ⟨first, next', order, ?_, hordered, ?_⟩
    · rw [hrun1]
      simp only [Option.bind_eq_bind, Option.bind_some]
      rw [hrun2]
      exact hrun
    · have hleft : Frame base n next next1 := hframe1.mono (Nat.le_refl base) (by omega)
      have hright : Frame base n next1 next2 := hframe2.mono (by omega) (by omega)
      exact (hleft.trans hright).trans hframe

/-- The index that is returned begins a list of all elements by increasing `lpid`, whatever the links were before;
no field but `next_lpid` is written, and that within the array. -/
theorem mergesort_lpidarray_visits {n : Nat} (next : Nat → Int) (hdistinct : ∀ a b, a < b → b < n → lpid a ≠ lpid b) :
    ∃ first next' order, mergesortLpidarray lpid 0 n next = some (first, next') ∧ Linked 0 next' first order ∧
      order.Perm (List.range n) ∧ (order.Pairwise fun a b => lpid a < lpid b) ∧ (n = 0 → first = -1) ∧
      ∀ z, n ≤ z → next' z = next z := by
  obtain ⟨first, next', order, hrun, hordered, hframe⟩ :=
    @mergesort_ordered lpid 0 n next fun a b _ hab hb => hdistinct a b hab (by omega)
  have hperm := hordered.perm
  rw [← List.range_eq_range'] at hperm
  refine ⟨first, next', order, hrun, hordered.linked, hperm, hordered.sorted, ?_, ?_⟩
  · rintro rfl
    obtain rfl : order = [] := hperm.eq_nil
    exact hordered.linked
  · intro z hz
    exact hframe z (by omega)

theorem mergesort_visits_decreasing : ∃ first next' order,
    mergesortLpidarray (fun i => 10 - (i : Int)) 0 5 (fun _ => 0) = some (first, next') ∧ Linked 0 next' first order ∧
      order.Perm (List.range 5) ∧ (order.Pairwise fun a b : Nat => 10 - (a : Int) < 10 - b) ∧
      (5 = 0 → first = -1) ∧ ∀ z, 5 ≤ z → next' z = 0 := by
  apply mergesort_lpidarray_visits
  intro a b hab hb
  omega

end Sorted

end FgMpi.Group.LpidOrder
