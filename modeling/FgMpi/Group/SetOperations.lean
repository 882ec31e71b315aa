import FgMpi.Group.Groups
import Mathlib.Tactic.Ring

/-! Unions, intersections and differences (`mpi/group/group_union.c` and its siblings). -/

namespace FgMpi.Group.SetOperations
open Machine.IndexChain
open Group.LpidOrder Group.Groups

structure Marks where
  flag : Nat → Int
  nnew : Int

def mark (delta : Int) (i : Nat) (m : Marks) : Marks := ⟨Function.update m.flag i 1, m.nnew + delta⟩

/-- `while (g1_idx >= 0 && g2_idx >= 0)`, with what is done when the first id is greater and when the two are equal;
`none` when an index is outside its array or the fuel does not last. -/
def walkLists (g1 g2 : MpidGroup) (greater equal : Nat → Nat → Marks → Marks) :
    Nat → Int → Int → Marks → Option (Int × Int × Marks)
  | 0, idx1, idx2, m => if 0 ≤ idx1 ∧ 0 ≤ idx2 then none else some (idx1, idx2, m)
  | fuel + 1, idx1, idx2, m =>
    if 0 ≤ idx1 ∧ 0 ≤ idx2 then do
      let a ← element 0 g1.size idx1
      let b ← element 0 g2.size idx2
      if g2.lpid b < g1.lpid a then walkLists g1 g2 greater equal fuel idx1 (g2.nextLpid b) (greater a b m)
      else if g1.lpid a = g2.lpid b then
        walkLists g1 g2 greater equal fuel (g1.nextLpid a) (g2.nextLpid b) (equal a b m)
      else walkLists g1 g2 greater equal fuel (g1.nextLpid a) idx2 m
    else some (idx1, idx2, m)

def markRest (g : MpidGroup) : Nat → Int → Marks → Option Marks
  | 0, idx, m => if 0 ≤ idx then none else some m
  | fuel + 1, idx, m =>
    if 0 ≤ idx then do
      let b ← element 0 g.size idx
      markRest g fuel (g.nextLpid b) (mark 1 b m)
    else some m

/-- The new group and `k`. -/
structure Filling where
  group : MpidGroup
  k : Nat

/-- `(*new_group_ptr)->lrank_to_lpid[k].lpid = lpid; ...; k++`, with the rank set to `k` for the calling process; `none`
is a write where there is no array or behind its end. -/
def putMember (lpid : Int) (caller : Bool) (f : Filling) : Option Filling :=
  if f.group.lrankToLpid = true ∧ f.k < f.group.size then
    some {
      group := { f.group with
        lpid := Function.update f.group.lpid f.k lpid
        rank := if caller then f.k else f.group.rank }
      k := f.k + 1 }
  else none

def takeMember (g : MpidGroup) (f : Filling) (i : Nat) : Option Filling :=
  putMember (g.lpid i) ((i : Int) = g.rank) f

/-- `for (i = 0; i < size; i++)`, with what is done after a member is taken. -/
def fillFrom (g : MpidGroup) (keep : Nat → Bool) (after : Filling → Filling) (f : Filling) : Option Filling :=
  (List.range g.size).foldlM (fun f i => if keep i then (takeMember g f i).map after else some f) f

section Operations
variable (memory : MpidGroup) (s : GroupMem) (h1 h2 : Nat)

/-- Allocate a new group and lrank_to_lpid array; for no members it is `MPID_Group_empty`. -/
def newGroup (nnew : Int) (rank : Int) (fill : Filling → Option Filling) : Option (GroupMem × Nat) :=
  if nnew = 0 then some (s, 0)
  else do
    let f ← fill ⟨{ groupCreate s.build memory nnew.toNat with rank := rank }, 0⟩
    some (s.add f.group)

def mylpid (g1 g2 : MpidGroup) : Int :=
  if g1.rank = mpiUndefined ∧ 0 ≤ g2.rank then g2.lpid g2.rank.toNat else -2

/-- `MPIR_Group_union_impl`. -/
def groupUnion : Option (GroupMem × Nat) := do
  let s ← setupLpidPairs s h1 h2
  let g1 := s.group h1
  let g2 := s.group h2
  let (_, idx2, m) ← walkLists g1 g2 (fun _ b => mark 1 b) (fun _ _ => id) (g1.size + g2.size) g1.idxOfFirstLpid
    g2.idxOfFirstLpid ⟨clearFlags g2, g1.size⟩
  let m ← markRest g2 g2.size idx2 m
  let s := s.set h2 { g2 with flag := m.flag }
  newGroup memory s m.nnew g1.rank fun f => do
    let f ← (List.range g1.size).foldlM (fun f i => putMember (g1.lpid i) false f) f
    (List.range g2.size).foldlM (fun f i =>
      if m.flag i ≠ 0 then putMember (g2.lpid i) (f.group.rank = mpiUndefined ∧ g2.lpid i = mylpid g1 g2) f
      else some f) f

/-- The test of `is_local_dense_monotonic` for the member just put. -/
def checkDense (commWorldSize : Int) (f : Filling) : Filling :=
  let lpid := f.group.lpid (f.k - 1)
  if commWorldSize < lpid ∨ (1 < f.k ∧ f.group.lpid (f.k - 2) ≠ lpid - 1) then
    { f with group := { f.group with isLocalDenseMonotonic := false } }
  else f

/-- `MPIR_Group_intersection_impl`. -/
def groupIntersection (commWorldSize : Int) : Option (GroupMem × Nat) := do
  let s ← setupLpidPairs s h1 h2
  let g1 := s.group h1
  let g2 := s.group h2
  let (_, _, m) ← walkLists g1 g2 (fun _ _ => id) (fun a _ => mark 1 a) (g1.size + g2.size) g1.idxOfFirstLpid
    g2.idxOfFirstLpid ⟨clearFlags g1, 0⟩
  let s := s.set h1 { g1 with flag := m.flag }
  newGroup memory s m.nnew mpiUndefined fun f =>
    fillFrom g1 (fun i => m.flag i ≠ 0) (checkDense commWorldSize)
      { f with group := { f.group with isLocalDenseMonotonic := true } }

/-- `MPIR_Group_difference_impl`. -/
def groupDifference : Option (GroupMem × Nat) := do
  let s ← setupLpidPairs s h1 h2
  let g1 := s.group h1
  let g2 := s.group h2
  let (_, _, m) ← walkLists g1 g2 (fun _ _ => id) (fun a _ => mark (-1) a) (g1.size + g2.size) g1.idxOfFirstLpid
    g2.idxOfFirstLpid ⟨clearFlags g1, g1.size⟩
  let s := s.set h1 { g1 with flag := m.flag }
  newGroup memory s m.nnew mpiUndefined (fillFrom g1 (fun i => m.flag i = 0) id)

inductive Comparison
  | ident
  | similar
  | unequal
deriving Repr, DecidableEq

/-- `while (g1_idx >= 0 && g2_idx >= 0)`, whether the ids are equal throughout. -/
def compareLists (g1 g2 : MpidGroup) : Nat → Int → Int → Option Bool
  | 0, idx1, idx2 => if 0 ≤ idx1 ∧ 0 ≤ idx2 then none else some true
  | fuel + 1, idx1, idx2 =>
    if 0 ≤ idx1 ∧ 0 ≤ idx2 then do
      let a ← element 0 g1.size idx1
      let b ← element 0 g2.size idx2
      if g1.lpid a ≠ g2.lpid b then some false
      else compareLists g1 g2 fuel (g1.nextLpid a) (g2.nextLpid b)
    else some true

/-- `MPIR_Group_compare_impl`. -/
def groupCompare : Option (GroupMem × Comparison) :=
  if (s.group h1).size ≠ (s.group h2).size then some (s, .unequal)
  else do
    let s ← setupLpidPairs s h1 h2
    let g1 := s.group h1
    let g2 := s.group h2
    let equal ← compareLists g1 g2 g1.size g1.idxOfFirstLpid g2.idxOfFirstLpid
    if equal = false then some (s, .unequal)
    else if (List.range g1.size).any fun i => g1.lpid i ≠ g2.lpid i then some (s, .similar)
    else some (s, .ident)

end Operations

section Walking
variable {g1 g2 : MpidGroup} {act : Nat → Marks → Marks} {fuel : Nat} {idx1 idx2 : Int} {A B : List Nat} {m : Marks}

structure Rest (g : MpidGroup) (idx : Int) (l : List Nat) : Prop where
  linked : Linked 0 g.nextLpid idx l
  inside : ∀ x ∈ l, x < g.size
  sorted : l.Pairwise fun a b => g.lpid a < g.lpid b

variable {x : Nat} {g : MpidGroup} {idx : Int} {l : List Nat}

section
variable (h : Rest g idx (x :: l))
include h

theorem Rest.tail : Rest g (g.nextLpid x) l :=
  ⟨h.linked.2.2, fun y hy => h.inside y (List.mem_cons_of_mem x hy), (List.pairwise_cons.mp h.sorted).2⟩

theorem Rest.lt {y : Nat} (hy : y ∈ l) : g.lpid x < g.lpid y := List.rel_of_pairwise_cons h.sorted hy

theorem Rest.element : element 0 g.size idx = some x := by
  have hx := h.inside x List.mem_cons_self
  rw [h.linked.2.1]
  exact element_eq (Nat.zero_le x) (by omega)

theorem Rest.nonneg : 0 ≤ idx := h.linked.nonneg_iff.mpr (List.cons_ne_nil x l)

end

theorem Rest.neg (h : Rest g idx []) : ¬ 0 ≤ idx := by
  have hend : idx = -1 := h.linked
  omega

theorem walkLists_stop {greater equal : Nat → Nat → Marks → Marks} (h : ¬ (0 ≤ idx1 ∧ 0 ≤ idx2)) :
    walkLists g1 g2 greater equal fuel idx1 idx2 m = some (idx1, idx2, m) := by
  cases fuel <;> exact if_neg h

theorem walkLists_cons {greater equal : Nat → Nat → Marks → Marks} {a b : Nat} (hA : Rest g1 idx1 (a :: A))
    (hB : Rest g2 idx2 (b :: B)) :
    walkLists g1 g2 greater equal (fuel + 1) idx1 idx2 m =
      if g2.lpid b < g1.lpid a then walkLists g1 g2 greater equal fuel idx1 (g2.nextLpid b) (greater a b m)
      else if g1.lpid a = g2.lpid b then
        walkLists g1 g2 greater equal fuel (g1.nextLpid a) (g2.nextLpid b) (equal a b m)
      else walkLists g1 g2 greater equal fuel (g1.nextLpid a) idx2 m := by
  conv_lhs => unfold walkLists
  rw [if_pos ⟨hA.nonneg, hB.nonneg⟩, hA.element, hB.element]
  rfl

def ids (g : MpidGroup) (l : List Nat) : List Int := l.map g.lpid

theorem mem_ids {p : Int} : p ∈ ids g l ↔ ∃ x ∈ l, g.lpid x = p := List.mem_map

def common (g1 g2 : MpidGroup) (A B : List Nat) : List Nat := A.filter fun a => g1.lpid a ∈ ids g2 B

def unmatched (g1 g2 : MpidGroup) (A B : List Nat) : List Nat := B.filter fun b => g2.lpid b ∉ ids g1 A

theorem walkLists_equal (hA : Rest g1 idx1 A) (hB : Rest g2 idx2 B) (hfuel : A.length + B.length ≤ fuel) :
    ∃ idx1' idx2', walkLists g1 g2 (fun _ _ => id) (fun a _ => act a) fuel idx1 idx2 m =
      some (idx1', idx2', (common g1 g2 A B).foldl (fun m a => act a m) m) := by
  induction fuel generalizing idx1 idx2 A B m with
  | zero =>
    obtain rfl : A = [] := List.eq_nil_of_length_eq_zero (by omega)
    exact ⟨idx1, idx2, walkLists_stop fun h => hA.neg h.1⟩
  | succ fuel ih =>
    cases A with
    | nil => exact ⟨idx1, idx2, walkLists_stop fun h => hA.neg h.1⟩
    | cons a A =>
      cases B with
      | nil =>
        have hnone : common g1 g2 (a :: A) [] = [] := by simp [common, ids]
        rw [hnone]
        exact ⟨idx1, idx2, walkLists_stop fun h => hB.neg h.2⟩
      | cons b B =>
        rw [walkLists_cons hA hB]
        simp only [List.length_cons] at hfuel
        by_cases hgt : g2.lpid b < g1.lpid a
        · rw [if_pos hgt]
          have hcommon : common g1 g2 (a :: A) (b :: B) = common g1 g2 (a :: A) B := by
            apply List.filter_congr
            intro x hx
            have hne : g1.lpid x ≠ g2.lpid b := by
              rcases List.mem_cons.mp hx with rfl | hx
              · omega
              · have hlt := hA.lt hx
                omega
            simp [ids, hne]
          rw [hcommon]
          exact ih hA hB.tail (by simp only [List.length_cons]; omega)
        · rw [if_neg hgt]
          by_cases heq : g1.lpid a = g2.lpid b
          · rw [if_pos heq]
            have hcommon : common g1 g2 (a :: A) (b :: B) = a :: common g1 g2 A B := by
              unfold common
              rw [List.filter_cons_of_pos (by simp [ids, heq])]
              congr 1
              apply List.filter_congr
              intro x hx
              have hlt := hA.lt hx
              have hne : g1.lpid x ≠ g2.lpid b := by omega
              simp [ids, hne]
            rw [hcommon]
            exact ih hA.tail hB.tail (by omega)
          · rw [if_neg heq]
            have hcommon : common g1 g2 (a :: A) (b :: B) = common g1 g2 A (b :: B) := by
              unfold common
              rw [List.filter_cons_of_neg]
              rw [decide_eq_true_iff, mem_ids]
              rintro ⟨x, hx, hxeq⟩
              rcases List.mem_cons.mp hx with rfl | hx
              · exact heq hxeq.symm
              · have hlt := hB.lt hx
                omega
            rw [hcommon]
            exact ih hA.tail hB (by simp only [List.length_cons]; omega)

theorem walkLists_greater (hA : Rest g1 idx1 A) (hB : Rest g2 idx2 B) (hfuel : A.length + B.length ≤ fuel) :
    ∃ idx1' idx2' seen rest, walkLists g1 g2 (fun _ b => act b) (fun _ _ => id) fuel idx1 idx2 m =
        some (idx1', idx2', seen.foldl (fun m b => act b m) m) ∧
      Rest g2 idx2' rest ∧ unmatched g1 g2 A B = seen ++ rest := by
  induction fuel generalizing idx1 idx2 A B m with
  | zero =>
    obtain rfl : A = [] := List.eq_nil_of_length_eq_zero (by omega)
    refine ⟨idx1, idx2, [], B, walkLists_stop fun h => hA.neg h.1, hB, ?_⟩
    simp [unmatched, ids]
  | succ fuel ih =>
    cases A with
    | nil =>
      refine ⟨idx1, idx2, [], B, walkLists_stop fun h => hA.neg h.1, hB, ?_⟩
      simp [unmatched, ids]
    | cons a A =>
      cases B with
      | nil => exact ⟨idx1, idx2, [], [], walkLists_stop fun h => hB.neg h.2, hB, rfl⟩
      | cons b B =>
        rw [walkLists_cons hA hB]
        simp only [List.length_cons] at hfuel
        by_cases hgt : g2.lpid b < g1.lpid a
        · rw [if_pos hgt]
          obtain ⟨idx1', idx2', seen, rest, hwalk, hrest, hunmatched⟩ :=
            ih hA hB.tail (by simp only [List.length_cons]; omega)
          refine ⟨idx1', idx2', b :: seen, rest, hwalk, hrest, ?_⟩
          unfold unmatched at hunmatched ⊢
          rw [List.filter_cons_of_pos, hunmatched]
          · rfl
          · rw [decide_eq_true_iff, mem_ids]
            rintro ⟨x, hx, hxeq⟩
            rcases List.mem_cons.mp hx with rfl | hx
            · omega
            · have hlt := hA.lt hx
              omega
        · rw [if_neg hgt]
          by_cases heq : g1.lpid a = g2.lpid b
          · rw [if_pos heq]
            obtain ⟨idx1', idx2', seen, rest, hwalk, hrest, hunmatched⟩ := ih hA.tail hB.tail (by omega)
            refine ⟨idx1', idx2', seen, rest, hwalk, hrest, ?_⟩
            rw [← hunmatched]
            unfold unmatched
            rw [List.filter_cons_of_neg (by simp [ids, heq])]
            apply List.filter_congr
            intro x hx
            have hlt := hB.lt hx
            have hne : g2.lpid x ≠ g1.lpid a := by omega
            simp [ids, hne]
          · rw [if_neg heq]
            obtain ⟨idx1', idx2', seen, rest, hwalk, hrest, hunmatched⟩ :=
              ih hA.tail hB (by simp only [List.length_cons]; omega)
            refine ⟨idx1', idx2', seen, rest, hwalk, hrest, ?_⟩
            rw [← hunmatched]
            apply List.filter_congr
            intro x hx
            have hne : g2.lpid x ≠ g1.lpid a := by
              rcases List.mem_cons.mp hx with rfl | hx
              · exact fun h => heq h.symm
              · have hlt := hB.lt hx
                omega
            simp [ids, hne]

theorem markRest_eq (h : Rest g idx l) (hfuel : l.length ≤ fuel) :
    markRest g fuel idx m = some (l.foldl (fun m b => mark 1 b m) m) := by
  induction l generalizing idx fuel m with
  | nil => cases fuel <;> exact if_neg h.neg
  | cons b l ih =>
    cases fuel with
    | zero => exact absurd hfuel (by simp)
    | succ fuel =>
      unfold markRest
      rw [if_pos h.nonneg, h.element]
      exact ih h.tail (Nat.le_of_succ_le_succ hfuel)

end Walking

section Marking
variable {g : MpidGroup} {m : Marks} {delta : Int} {l : List Nat}

theorem foldl_mark (l : List Nat) (m : Marks) :
    l.foldl (fun m a => mark delta a m) m = ⟨fun i => if i ∈ l then 1 else m.flag i, m.nnew + delta * l.length⟩ := by
  induction l generalizing m with
  | nil => simp
  | cons a l ih =>
    rw [List.foldl_cons, ih, Marks.mk.injEq]
    constructor
    · funext i
      by_cases hi : i = a
      · subst hi
        simp [mark]
      · simp [mark, hi]
    · simp only [mark, List.length_cons, Nat.cast_succ]
      ring

theorem clearFlags_eq {i : Nat} (hi : i < g.size) : clearFlags g i = 0 := by
  have hfold : ∀ n (flag : Nat → Int), i < n → (List.range n).foldl (fun flag i => Function.update flag i 0) flag i = 0 := by
    intro n flag hin
    induction n with
    | zero => exact absurd hin (Nat.not_lt_zero i)
    | succ n ih =>
      rw [List.range_succ, List.foldl_append, List.foldl_cons, List.foldl_nil]
      by_cases heq : i = n
      · rw [heq, Function.update_self]
      · rw [Function.update_of_ne heq]
        exact ih (by omega)
  exact hfold g.size g.flag hi

end Marking

section Fillings
variable {me p : Int} {f f' : Filling} {caller : Bool} {list : List Int} {g : MpidGroup}

def Filled (list : List Int) (f : Filling) : Prop := (List.range f.k).map f.group.lpid = list

theorem Filled.length (h : Filled list f) : f.k = list.length := by
  have hlength := congrArg List.length h
  rw [List.length_map, List.length_range] at hlength
  exact hlength

theorem Filled.get (h : Filled list f) {j : Nat} (hj : j < list.length) : f.group.lpid j = list[j] := by
  have hlist : (List.range f.k).map f.group.lpid = list := h
  subst hlist
  simp

theorem putMember_eq (p : Int) (caller : Bool) (h : Filled list f) (harray : f.group.lrankToLpid = true)
    (hroom : f.k < f.group.size) :
    ∃ f', putMember p caller f = some f' ∧ Filled (list ++ [p]) f' ∧ f'.group.size = f.group.size ∧
      f'.group.rank = (if caller then (f.k : Int) else f.group.rank) ∧ f'.group.idxOfFirstLpid = f.group.idxOfFirstLpid ∧
      f'.group.isLocalDenseMonotonic = f.group.isLocalDenseMonotonic ∧ f'.group.lrankToLpid = true := by
  refine ⟨_, if_pos ⟨harray, hroom⟩, ?_, rfl, rfl, rfl, rfl, harray⟩
  show (List.range (f.k + 1)).map (Function.update f.group.lpid f.k p) = list ++ [p]
  rw [List.range_succ, List.map_append, List.map_singleton, Function.update_self]
  congr 1
  rw [← h]
  apply List.map_congr_left
  intro i hi
  exact Function.update_of_ne (Nat.ne_of_lt (List.mem_range.mp hi)) p f.group.lpid

theorem rankIn_append_self (hp : me ∉ list) : rankIn (list ++ [me]) me = list.length := by
  unfold rankIn
  rw [if_pos (by simp), List.idxOf_append_of_notMem hp]
  simp

theorem rankIn_append_of_ne (hp : p ≠ me) : rankIn (list ++ [p]) me = rankIn list me := by
  unfold rankIn
  by_cases hmem : me ∈ list
  · rw [if_pos (List.mem_append_left _ hmem), if_pos hmem, List.idxOf_append_of_mem hmem]
  · rw [if_neg hmem, if_neg]
    simp [hmem, Ne.symm hp]

structure Filling.Has (me : Int) (size : Nat) (list : List Int) (f : Filling) : Prop where
  filled : Filled list f
  size : f.group.size = size
  rank : f.group.rank = rankIn list me
  idx : f.group.idxOfFirstLpid = -1
  array : f.group.lrankToLpid = true

variable {size n : Nat}

theorem Filling.Has.take {i : Nat} (h : f.Has me size list) (hg : Valid me g) (hi : i < g.size)
    (hroom : list.length < size) (hnew : g.lpid i ∉ list) :
    ∃ f', takeMember g f i = some f' ∧ f'.Has me size (list ++ [g.lpid i]) ∧
      f'.group.isLocalDenseMonotonic = f.group.isLocalDenseMonotonic := by
  have hk := h.filled.length
  obtain ⟨f', hput, hfilled, hsize, hrank, hidx, hdense, harray⟩ :=
    putMember_eq (g.lpid i) (decide ((i : Int) = g.rank)) h.filled h.array (by rw [h.size]; omega)
  refine ⟨f', hput, ⟨hfilled, hsize.trans h.size, ?_, hidx.trans h.idx, harray⟩, hdense⟩
  rw [hrank]
  by_cases hme : g.lpid i = me
  · rw [if_pos (decide_eq_true ((hg.rank_iff hi).mpr hme)), hme, rankIn_append_self (hme ▸ hnew), hk]
  · rw [if_neg, h.rank, rankIn_append_of_ne hme]
    rw [decide_eq_true_iff, hg.rank_iff hi]
    exact hme

def kept (g : MpidGroup) (keep : Nat → Bool) (n : Nat) : List Int := ((List.range n).filter keep).map g.lpid

variable {keep : Nat → Bool}

theorem kept_succ_of_pos (hkeep : keep n = true) : kept g keep (n + 1) = kept g keep n ++ [g.lpid n] := by
  simp [kept, List.range_succ, hkeep]

theorem kept_succ_of_neg (hkeep : keep n = false) : kept g keep (n + 1) = kept g keep n := by
  simp [kept, List.range_succ, hkeep]

theorem length_kept_le {n' : Nat} (hn : n ≤ n') : (kept g keep n).length ≤ (kept g keep n').length := by
  unfold kept
  rw [List.length_map, List.length_map]
  exact ((List.range_sublist.mpr hn).filter keep).length_le

theorem Valid.notMem_kept (hg : Valid me g) (hn : n < g.size) : g.lpid n ∉ kept g keep n := by
  intro hmem
  obtain ⟨i, hi, heq⟩ := List.mem_map.mp hmem
  have hlt := List.mem_range.mp (List.mem_of_mem_filter hi)
  have hinj := hg.injective (by omega) hn heq
  omega

theorem fillFrom_eq {after : Filling → Filling} (Q : List Int → Bool → Prop)
    (hg : Valid me g) (hf : f.Has me size [])
    (hafter : ∀ f list p, f.Has me size (list ++ [p]) → Q list f.group.isLocalDenseMonotonic →
      (after f).Has me size (list ++ [p]) ∧ Q (list ++ [p]) (after f).group.isLocalDenseMonotonic)
    (hQ : Q [] f.group.isLocalDenseMonotonic) (hsize : (kept g keep g.size).length = size) :
    ∃ f', fillFrom g keep after f = some f' ∧ f'.Has me size (kept g keep g.size) ∧
      Q (kept g keep g.size) f'.group.isLocalDenseMonotonic := by
  have hrun : ∀ n ≤ g.size, ∃ f', (List.range n).foldlM
      (fun f i => if keep i then (takeMember g f i).map after else some f) f = some f' ∧
      f'.Has me size (kept g keep n) ∧ Q (kept g keep n) f'.group.isLocalDenseMonotonic := by
    intro n hn
    induction n with
    | zero => exact ⟨f, rfl, hf, hQ⟩
    | succ n ih =>
      obtain ⟨f', hfold, hhas, hQ'⟩ := ih (Nat.le_of_succ_le hn)
      rw [List.range_succ, List.foldlM_append, hfold]
      cases hkeep : keep n with
      | false =>
        rw [kept_succ_of_neg hkeep]
        refine ⟨f', ?_, hhas, hQ'⟩
        simp [hkeep]
      | true =>
        have hle : (kept g keep (n + 1)).length ≤ (kept g keep g.size).length := length_kept_le hn
        rw [kept_succ_of_pos hkeep] at hle ⊢
        rw [List.length_append, List.length_singleton] at hle
        obtain ⟨f'', htake, hhas'', hdense⟩ := hhas.take hg hn (by omega) (Valid.notMem_kept hg hn)
        rw [← hdense] at hQ'
        refine ⟨after f'', ?_, hafter f'' _ _ hhas'' hQ'⟩
        simp [hkeep, htake]
  exact hrun g.size (Nat.le_refl _)

theorem fillPlain_eq (memory : MpidGroup) (hg : Valid me g) (hsize : (kept g keep g.size).length = size) :
    ∃ f', fillFrom g keep id ⟨{ groupCreate .plain memory size with rank := mpiUndefined }, 0⟩ = some f' ∧
      f'.Has me size (kept g keep g.size) ∧ f'.group.isLocalDenseMonotonic = false :=
  fillFrom_eq (fun _ dense => dense = false) hg ⟨rfl, rfl, rfl, rfl, rfl⟩ (fun _ _ _ hhas hdense => ⟨hhas, hdense⟩) rfl hsize

theorem kept_eq_filter {P : Int → Bool} (h : ∀ i < g.size, keep i = P (g.lpid i)) :
    kept g keep g.size = g.members.filter P := by
  unfold kept MpidGroup.members
  rw [List.filter_map]
  congr 1
  apply List.filter_congr
  intro i hi
  exact h i (List.mem_range.mp hi)

theorem Filling.Has.members (h : f.Has me size list) (hsize : list.length = size) :
    f.group.members = list := by
  have hfilled := h.filled
  unfold Filled at hfilled
  unfold MpidGroup.members
  rw [h.size, ← hsize, ← h.filled.length]
  exact hfilled

/-- What an operation that gives a new group does: the old ones keep their members, and the new one has these. -/
structure Result (me : Int) (s s' : GroupMem) (h : Nat) (list : List Int) : Prop where
  grown : Grown me s s'
  inside : h < s'.count
  members : (s'.group h).members = list
  size : (s'.group h).size = list.length
  rank : (s'.group h).rank = rankIn list me
  valid : Valid me (s'.group h)

structure HasEmpty (me : Int) (s : GroupMem) : Prop where
  inside : 0 < s.count
  size : (s.group 0).size = 0
  valid : Valid me (s.group 0)

variable {s : GroupMem}

theorem HasEmpty.grown {s' : GroupMem} (h : HasEmpty me s) (hgrown : Grown me s s') : HasEmpty me s' :=
  ⟨Nat.lt_of_lt_of_le h.inside hgrown.count, (hgrown.same 0 h.inside).size.trans h.size,
    hgrown.valid 0 h.inside h.valid⟩

theorem Result.of_valid {s' : GroupMem} {h : Nat} (hgrown : Grown me s s') (hinside : h < s'.count)
    (hvalid : Valid me (s'.group h)) (hmembers : (s'.group h).members = list) : Result me s s' h list := by
  refine ⟨hgrown, hinside, hmembers, ?_, ?_, hvalid⟩
  · rw [← hmembers, length_members]
  · rw [← hmembers]
    exact hvalid.rank

theorem HasEmpty.result (h : HasEmpty me s) : Result me s s 0 [] := by
  apply Result.of_valid (Grown.refl s) h.inside h.valid
  unfold MpidGroup.members
  rw [h.size]
  rfl

theorem newGroup_eq {memory : MpidGroup} {nnew rank : Int} {fill : Filling → Option Filling}
    (hempty : HasEmpty me s) (hplain : list ≠ [] → s.build = .plain) (hnnew : nnew = list.length) (hnodup : list.Nodup) (hnonneg : ∀ p ∈ list, 0 ≤ p)
    (hfill : list ≠ [] → ∃ f, fill ⟨{ groupCreate .plain memory list.length with rank := rank }, 0⟩ = some f ∧
      f.Has me list.length list ∧
      (f.group.isLocalDenseMonotonic = true → ∀ i < list.length, f.group.lpid i = f.group.lpid 0 + i)) :
    ∃ s' h, newGroup memory s nnew rank fill = some (s', h) ∧ Result me s s' h list := by
  unfold newGroup
  by_cases hnil : list = []
  · subst hnil
    exact ⟨s, 0, if_pos hnnew, hempty.result⟩
  · have hpos : 0 < list.length := List.length_pos_of_ne_nil hnil
    obtain ⟨f, hrun, hhas, hdense⟩ := hfill hnil
    have hmembers := hhas.members rfl
    have hget : (s.add f.group).1.group s.count = f.group := by
      show Function.update s.group s.count f.group s.count = f.group
      rw [Function.update_self]
    have hvalid : Valid me f.group := by
      refine ⟨?_, ?_, ?_, .inl hhas.idx, ?_, ?_⟩
      · rw [hmembers]
        exact hnodup
      · rw [hmembers]
        exact hnonneg
      · rw [hmembers]
        exact hhas.rank
      · rw [hhas.size]
        exact hdense
      · rw [MpidGroup.readable, hhas.array]
        rfl
    refine ⟨(s.add f.group).1, s.count, ?_,
      Result.of_valid (grown_add f.group) (Nat.lt_succ_self _) (by rw [hget]; exact hvalid) (by rw [hget]; exact hmembers)⟩
    have htoNat : nnew.toNat = list.length := by omega
    rw [if_neg (by omega), htoNat, hplain hnil, hrun]
    rfl

end Fillings

section Counting
variable {g g1 g2 : MpidGroup} {A B : List Nat}

section
variable (h : Ordered g.lpid 0 g.size g.nextLpid g.idxOfFirstLpid A)
include h

theorem rest_of_ordered : Rest g g.idxOfFirstLpid A := by
  refine ⟨h.linked, ?_, h.sorted⟩
  intro x hx
  have hlt := h.mem_iff.mp hx
  omega

theorem mem_ids_ordered {p : Int} : p ∈ ids g A ↔ p ∈ g.members := by
  rw [mem_ids, mem_members]
  constructor
  · rintro ⟨x, hx, rfl⟩
    have hlt := h.mem_iff.mp hx
    exact ⟨x, by omega, rfl⟩
  · rintro ⟨x, hx, rfl⟩
    exact ⟨x, h.mem_iff.mpr (by omega), rfl⟩

theorem length_filter_ordered (P : Int → Bool) :
    (A.filter fun a => P (g.lpid a)).length = (g.members.filter P).length := by
  have hperm := (h.perm.filter fun a => P (g.lpid a)).length_eq
  rw [hperm, MpidGroup.members, List.filter_map, List.length_map, List.range_eq_range']
  rfl

end

theorem common_eq (h2 : Ordered g2.lpid 0 g2.size g2.nextLpid g2.idxOfFirstLpid B) :
    common g1 g2 A B = A.filter fun a => decide (g1.lpid a ∈ g2.members) := by
  apply List.filter_congr
  intro a _
  rw [decide_eq_decide]
  exact mem_ids_ordered h2

theorem unmatched_eq (h1 : Ordered g1.lpid 0 g1.size g1.nextLpid g1.idxOfFirstLpid A) :
    unmatched g1 g2 A B = B.filter fun b => decide (g2.lpid b ∉ g1.members) := by
  apply List.filter_congr
  intro b _
  rw [decide_eq_decide, not_iff_not]
  exact mem_ids_ordered h1

theorem marked_iff (h : Ordered g.lpid 0 g.size g.nextLpid g.idxOfFirstLpid A) (P : Int → Bool) (nnew delta : Int)
    {i : Nat} (hi : i < g.size) :
    ((A.filter fun a => P (g.lpid a)).foldl (fun m a => mark delta a m) ⟨clearFlags g, nnew⟩).flag i =
      if P (g.lpid i) then 1 else 0 := by
  rw [foldl_mark]
  have hmem : i ∈ (A.filter fun a => P (g.lpid a)) ↔ P (g.lpid i) = true := by
    rw [List.mem_filter, h.mem_iff]
    simp [hi]
  show (if _ then _ else clearFlags g i) = _
  rw [clearFlags_eq hi]
  simp only [hmem]

theorem marked_nnew (h : Ordered g.lpid 0 g.size g.nextLpid g.idxOfFirstLpid A) (P : Int → Bool) (nnew delta : Int) :
    ((A.filter fun a => P (g.lpid a)).foldl (fun m a => mark delta a m) ⟨clearFlags g, nnew⟩).nnew =
      nnew + delta * (g.members.filter P).length := by
  rw [foldl_mark, length_filter_ordered h]

structure Marked (g : MpidGroup) (P : Int → Bool) (nnew delta : Int) (m : Marks) : Prop where
  flag : ∀ i < g.size, m.flag i = if P (g.lpid i) then 1 else 0
  nnew : m.nnew = nnew + delta * (g.members.filter P).length

theorem marked (h : Ordered g.lpid 0 g.size g.nextLpid g.idxOfFirstLpid A) (P : Int → Bool) (nnew delta : Int) :
    Marked g P nnew delta ((A.filter fun a => P (g.lpid a)).foldl (fun m a => mark delta a m) ⟨clearFlags g, nnew⟩) :=
  ⟨fun _ hi => marked_iff h P nnew delta hi, marked_nnew h P nnew delta⟩

theorem Marked.kept {P : Int → Bool} {nnew delta : Int} {m : Marks} (h : Marked g P nnew delta m) :
    kept g (fun i => m.flag i ≠ 0) g.size = g.members.filter P := by
  apply kept_eq_filter
  intro i hi
  rw [h.flag i hi]
  cases P (g.lpid i) <;> rfl

theorem walked_common (hA : Ordered g1.lpid 0 g1.size g1.nextLpid g1.idxOfFirstLpid A)
    (hB : Ordered g2.lpid 0 g2.size g2.nextLpid g2.idxOfFirstLpid B) (nnew delta : Int) :
    ∃ idx1 idx2 m, walkLists g1 g2 (fun _ _ => id) (fun a _ => mark delta a) (g1.size + g2.size) g1.idxOfFirstLpid
        g2.idxOfFirstLpid ⟨clearFlags g1, nnew⟩ = some (idx1, idx2, m) ∧
      Marked g1 (· ∈ g2.members) nnew delta m := by
  have hfuel : A.length + B.length ≤ g1.size + g2.size := by rw [hA.length, hB.length]
  obtain ⟨idx1, idx2, hwalk⟩ := @walkLists_equal g1 g2 (mark delta) _ _ _ A B ⟨clearFlags g1, nnew⟩
    (rest_of_ordered hA) (rest_of_ordered hB) hfuel
  rw [common_eq hB] at hwalk
  exact ⟨idx1, idx2, _, hwalk, marked hA _ nnew delta⟩

end Counting

section Operations
variable {me : Int} {memory : MpidGroup} {s : GroupMem} {h1 h2 : Nat}

theorem prepared (hk1 : h1 < s.count) (hk2 : h2 < s.count) (hv1 : Valid me (s.group h1))
    (hv2 : Valid me (s.group h2)) :
    ∃ s', setupLpidPairs s h1 h2 = some s' ∧ Grown me s s' ∧ Valid me (s'.group h1) ∧ Valid me (s'.group h2) ∧
      (s'.group h1).members = (s.group h1).members ∧ (s'.group h2).members = (s.group h2).members ∧
      Listed (s'.group h1) ∧ Listed (s'.group h2) := by
  obtain ⟨s', hsetup, hgrown, hcount, hlist1, hlist2⟩ := setupLpidPairs_eq hk2 hv1 hv2
  exact ⟨s', hsetup, hgrown, hgrown.valid h1 hk1 hv1, hgrown.valid h2 hk2 hv2, (hgrown.same h1 hk1).members,
    (hgrown.same h2 hk2).members, hlist1, hlist2⟩

theorem grown_setFlag (k : Nat) (flag : Nat → Int) : Grown me s (s.set k { s.group k with flag := flag }) :=
  grown_set ⟨rfl, rfl, rfl, rfl, rfl⟩ fun hvalid => hvalid.withFlag flag

variable {list : List Int}

theorem Result.trans {t s' : GroupMem} {k : Nat} (hgrown : Grown me s t)
    (h : Result me t s' k list) : Result me s s' k list :=
  { h with grown := hgrown.trans h.grown }

theorem setFlag_grown {t : GroupMem} (hgrown : Grown me s t) (k : Nat) (flag : Nat → Int) :
    Grown me s (t.set k { t.group k with flag := flag }) :=
  hgrown.trans (grown_setFlag k flag)

def Fillable (s : GroupMem) (h1 h2 : Nat) : Prop :=
  s.build = .plain ∨ ((s.group h1).size = 0 ∧ (s.group h2).size = 0)

theorem Fillable.build {t : GroupMem} (h : Fillable s h1 h2) (hgrown : Grown me s t)
    (hlist : ∀ p ∈ list, p ∈ (s.group h1).members ∨ p ∈ (s.group h2).members) (hne : list ≠ []) : t.build = .plain := by
  rw [hgrown.build]
  refine h.resolve_right fun hsize => ?_
  obtain ⟨p, hp⟩ := List.exists_mem_of_ne_nil list hne
  rcases hlist p hp with hmem | hmem
  · obtain ⟨i, hi, -⟩ := mem_members.mp hmem
    omega
  · obtain ⟨i, hi, -⟩ := mem_members.mp hmem
    omega

variable {g1 g2 g : MpidGroup} {A B : List Nat}

theorem length_orders
    (hA : Ordered g1.lpid 0 g1.size g1.nextLpid g1.idxOfFirstLpid A)
    (hB : Ordered g2.lpid 0 g2.size g2.nextLpid g2.idxOfFirstLpid B) : A.length + B.length ≤ g1.size + g2.size := by
  rw [hA.length, hB.length]

theorem nodup_filter (hg : Valid me g) (P : Int → Bool) : (g.members.filter P).Nodup :=
  hg.distinct.filter P

theorem nonneg_filter (hg : Valid me g) (P : Int → Bool) : ∀ p ∈ g.members.filter P, 0 ≤ p :=
  fun p hp => hg.nonneg p (List.mem_of_mem_filter hp)

theorem newGroup_filter {t : GroupMem} (hempty : HasEmpty me s) (hplain : Fillable s h1 h2) (hgrown : Grown me s t)
    (hg1 : Valid me (t.group h1)) (hm1 : (t.group h1).members = (s.group h1).members) (flag : Nat → Int)
    (P : Int → Bool) {nnew : Int} {fill : Filling → Option Filling}
    (hnnew : nnew = ((t.group h1).members.filter P).length)
    (hfill : ∃ f, fill ⟨{ groupCreate .plain memory ((t.group h1).members.filter P).length with
        rank := mpiUndefined }, 0⟩ = some f ∧
      f.Has me ((t.group h1).members.filter P).length ((t.group h1).members.filter P) ∧
      (f.group.isLocalDenseMonotonic = true →
        ∀ i < ((t.group h1).members.filter P).length, f.group.lpid i = f.group.lpid 0 + i)) :
    ∃ s' h, newGroup memory (t.set h1 { t.group h1 with flag := flag }) nnew mpiUndefined fill = some (s', h) ∧
      Result me s s' h ((t.group h1).members.filter P) := by
  obtain ⟨s', h, hrun, hresult⟩ := newGroup_eq (hempty.grown (setFlag_grown hgrown h1 flag))
    (hplain.build (setFlag_grown hgrown h1 flag) fun p hp => .inl (hm1 ▸ List.mem_of_mem_filter hp)) hnnew
    (nodup_filter hg1 P) (nonneg_filter hg1 P) fun _ => hfill
  exact ⟨s', h, hrun, hresult.trans (setFlag_grown hgrown h1 flag)⟩

theorem groupDifference_eq (hempty : HasEmpty me s) (hk1 : h1 < s.count) (hk2 : h2 < s.count)
    (hv1 : Valid me (s.group h1)) (hv2 : Valid me (s.group h2)) (hplain : Fillable s h1 h2) :
    ∃ s' h, groupDifference memory s h1 h2 = some (s', h) ∧
      Result me s s' h ((s.group h1).members.filter (· ∉ (s.group h2).members)) := by
  obtain ⟨t, hsetup, hgrown, hg1, hg2, hm1, hm2, ⟨A, hA⟩, ⟨B, hB⟩⟩ := prepared hk1 hk2 hv1 hv2
  obtain ⟨idx1, idx2, m, hwalk, hmarked⟩ := walked_common hA hB (t.group h1).size (-1)
  unfold groupDifference
  rw [hsetup]
  simp only [Option.bind_eq_bind, Option.bind_some]
  rw [hwalk]
  simp only [Option.bind_some]
  rw [← hm1, ← hm2]
  have hkept : kept (t.group h1) (fun i => m.flag i = 0) (t.group h1).size =
      (t.group h1).members.filter (· ∉ (t.group h2).members) := by
    apply kept_eq_filter
    intro i hi
    rw [decide_eq_decide, hmarked.flag i hi]
    simp
  have hsplit := (t.group h1).members.length_eq_length_filter_add fun p => decide (p ∈ (t.group h2).members)
  have hnot : ((t.group h1).members.filter fun p => !decide (p ∈ (t.group h2).members)) =
      (t.group h1).members.filter (· ∉ (t.group h2).members) := by
    apply List.filter_congr
    intro p _
    simp
  rw [hnot, length_members] at hsplit
  have hnnew := hmarked.nnew
  obtain ⟨f, hfill, hhas, hdense⟩ := fillPlain_eq memory hg1 (congrArg List.length hkept)
  rw [hkept] at hhas
  refine newGroup_filter hempty hplain hgrown hg1 hm1 m.flag _ (by omega) ⟨f, hfill, hhas, ?_⟩
  rw [hdense]
  exact fun h => nomatch h

def Consecutive (list : List Int) (dense : Bool) : Prop :=
  dense = true → ∀ i (hi : i < list.length), list[i] = list[0] + i

variable {commWorldSize : Int} {f : Filling}

theorem checkDense_consecutive {p : Int} (hfilled : Filled (list ++ [p]) f)
    (hdense : Consecutive list f.group.isLocalDenseMonotonic) :
    Consecutive (list ++ [p]) (checkDense commWorldSize f).group.isLocalDenseMonotonic := by
  have hk := hfilled.length
  rw [List.length_append, List.length_singleton] at hk
  unfold checkDense
  dsimp only
  by_cases hbreak : commWorldSize < f.group.lpid (f.k - 1) ∨
      (1 < f.k ∧ f.group.lpid (f.k - 2) ≠ f.group.lpid (f.k - 1) - 1)
  · rw [if_pos hbreak]
    exact fun hfalse => nomatch hfalse
  · rw [if_neg hbreak]
    intro htrue i hi
    rw [List.length_append, List.length_singleton] at hi
    have hlast : f.group.lpid (f.k - 1) = p := by
      rw [hfilled.get (by rw [List.length_append, List.length_singleton]; omega)]
      simp [hk]
    cases list with
    | nil =>
      obtain rfl : i = 0 := by simpa using hi
      simp
    | cons q list =>
      have hold : ∀ j (hj : j < (q :: list).length), (q :: list)[j] = q + j := hdense htrue
      have hbefore : f.group.lpid (f.k - 2) = q + list.length := by
        have hidx : f.k - 2 = list.length := by
          rw [hk, List.length_cons]
          omega
        rw [hidx, hfilled.get (by rw [List.length_append, List.length_cons]; omega),
          List.getElem_append_left (by simp)]
        exact hold list.length (by simp)
      have hp : p = q + list.length + 1 := by
        have hlong : 1 < f.k := by
          rw [hk, List.length_cons]
          omega
        by_contra hne
        apply hbreak
        exact .inr ⟨hlong, by rw [hlast, hbefore]; omega⟩
      show (q :: list ++ [p])[i] = q + i
      by_cases hlt : i < (q :: list).length
      · rw [List.getElem_append_left hlt]
        exact hold i hlt
      · have hi' : i = (q :: list).length := by omega
        subst hi'
        rw [List.getElem_append_right (Nat.le_refl _)]
        simp only [Nat.sub_self, List.getElem_singleton, List.length_cons]
        omega

theorem checkDense_same (commWorldSize : Int) (f : Filling) :
    (checkDense commWorldSize f).k = f.k ∧ (checkDense commWorldSize f).group.lpid = f.group.lpid ∧
      (checkDense commWorldSize f).group.size = f.group.size ∧ (checkDense commWorldSize f).group.rank = f.group.rank ∧
      (checkDense commWorldSize f).group.idxOfFirstLpid = f.group.idxOfFirstLpid ∧
      (checkDense commWorldSize f).group.lrankToLpid = f.group.lrankToLpid := by
  unfold checkDense
  dsimp only
  split <;> exact ⟨rfl, rfl, rfl, rfl, rfl, rfl⟩

theorem checkDense_filled (h : Filled list f) : Filled list (checkDense commWorldSize f) := by
  obtain ⟨hk, hlpid, -⟩ := checkDense_same commWorldSize f
  unfold Filled
  rw [hk, hlpid]
  exact h

theorem checkDense_eq {p : Int} {size : Nat}
    (hhas : f.Has me size (list ++ [p])) (hdense : Consecutive list f.group.isLocalDenseMonotonic) :
    (checkDense commWorldSize f).Has me size (list ++ [p]) ∧
      Consecutive (list ++ [p]) (checkDense commWorldSize f).group.isLocalDenseMonotonic := by
  obtain ⟨-, -, hsize, hrank, hidx, harray⟩ := checkDense_same commWorldSize f
  exact ⟨⟨checkDense_filled hhas.filled, hsize.trans hhas.size, hrank.trans hhas.rank, hidx.trans hhas.idx,
      harray.trans hhas.array⟩,
    checkDense_consecutive hhas.filled hdense⟩

theorem groupIntersection_eq (hempty : HasEmpty me s) (hk1 : h1 < s.count) (hk2 : h2 < s.count)
    (hv1 : Valid me (s.group h1)) (hv2 : Valid me (s.group h2)) (hplain : Fillable s h1 h2) :
    ∃ s' h, groupIntersection memory s h1 h2 commWorldSize = some (s', h) ∧
      Result me s s' h ((s.group h1).members.filter (· ∈ (s.group h2).members)) := by
  obtain ⟨t, hsetup, hgrown, hg1, hg2, hm1, hm2, ⟨A, hA⟩, ⟨B, hB⟩⟩ := prepared hk1 hk2 hv1 hv2
  obtain ⟨idx1, idx2, m, hwalk, hmarked⟩ := walked_common hA hB 0 1
  unfold groupIntersection
  rw [hsetup]
  simp only [Option.bind_eq_bind, Option.bind_some]
  rw [hwalk]
  simp only [Option.bind_some]
  rw [← hm1, ← hm2]
  have hkept := hmarked.kept
  have hnnew := hmarked.nnew
  have hstart : Filling.Has me ((t.group h1).members.filter (· ∈ (t.group h2).members)).length []
      ⟨{ { groupCreate .plain memory _ with rank := mpiUndefined } with isLocalDenseMonotonic := true }, 0⟩ :=
    ⟨rfl, rfl, rfl, rfl, rfl⟩
  obtain ⟨f, hfill, hhas, hdense⟩ := fillFrom_eq Consecutive hg1 hstart
    (fun f list p hhas hdense => checkDense_eq hhas hdense) (fun _ i hi => absurd hi (Nat.not_lt_zero i))
    (congrArg List.length hkept)
  rw [hkept] at hhas hdense
  refine newGroup_filter hempty hplain hgrown hg1 hm1 m.flag _ (by omega) ⟨f, hfill, hhas, ?_⟩
  intro htrue i hi
  rw [hhas.filled.get hi, hhas.filled.get (Nat.zero_lt_of_lt hi)]
  exact hdense htrue i hi

theorem rankIn_eq_undefined : rankIn list me = mpiUndefined ↔ me ∉ list := by
  unfold rankIn
  split
  · rename_i hmem
    refine iff_of_false ?_ (not_not_intro hmem)
    unfold mpiUndefined
    omega
  · rename_i hmem
    exact iff_of_true rfl hmem

theorem rankIn_nonneg : 0 ≤ rankIn list me ↔ me ∈ list := by
  unfold rankIn
  split
  · rename_i hmem
    exact iff_of_true (Int.natCast_nonneg _) hmem
  · rename_i hmem
    exact iff_of_false (by decide) hmem

theorem mylpid_iff (hg1 : Valid me g1) (hg2 : Valid me g2) {p : Int} (hp : p ∈ g2.members)
    (hnew : p ∉ g1.members) : p = mylpid g1 g2 ↔ p = me := by
  have hnonneg := hg2.nonneg p hp
  have hfound : (g1.rank = mpiUndefined ∧ 0 ≤ g2.rank) ↔ (me ∉ g1.members ∧ me ∈ g2.members) := by
    rw [hg1.rank, rankIn_eq_undefined, hg2.rank, rankIn_nonneg]
  unfold mylpid
  by_cases hboth : me ∉ g1.members ∧ me ∈ g2.members
  · rw [if_pos (hfound.mpr hboth), hg2.rank]
    have hrank : rankIn g2.members me = g2.members.idxOf me := if_pos hboth.2
    have hlt := List.idxOf_lt_length_of_mem hboth.2
    rw [length_members] at hlt
    have hme : g2.lpid (g2.members.idxOf me) = me := (hg2.rank_iff hlt).mp (by rw [hg2.rank, hrank])
    rw [hrank, Int.toNat_natCast, hme]
  · rw [if_neg (fun h => hboth (hfound.mp h))]
    constructor
    · intro heq
      omega
    · rintro rfl
      exact absurd ⟨hnew, hp⟩ hboth

theorem copyFirst_eq {size : Nat} (memory : MpidGroup) (hle : g.size ≤ size) :
    ∃ f, (List.range g.size).foldlM (fun f i => putMember (g.lpid i) false f)
        ⟨{ groupCreate .plain memory size with rank := g.rank }, 0⟩ = some f ∧ Filled g.members f ∧
      f.group.size = size ∧ f.group.rank = g.rank ∧ f.group.idxOfFirstLpid = -1 ∧
      f.group.isLocalDenseMonotonic = false ∧ f.group.lrankToLpid = true := by
  have hrun : ∀ n ≤ g.size, ∃ f, (List.range n).foldlM (fun f i => putMember (g.lpid i) false f)
      ⟨{ groupCreate .plain memory size with rank := g.rank }, 0⟩ = some f ∧ Filled ((List.range n).map g.lpid) f ∧
      f.group.size = size ∧ f.group.rank = g.rank ∧ f.group.idxOfFirstLpid = -1 ∧
      f.group.isLocalDenseMonotonic = false ∧ f.group.lrankToLpid = true := by
    intro n hn
    induction n with
    | zero => exact ⟨_, rfl, rfl, rfl, rfl, rfl, rfl, rfl⟩
    | succ n ih =>
      obtain ⟨f, hfold, hfilled, hsize, hrank, hidx, hdense, harray⟩ := ih (Nat.le_of_succ_le hn)
      have hk := hfilled.length
      rw [List.length_map, List.length_range] at hk
      obtain ⟨f', hput, hfilled', hsize', hrank', hidx', hdense', harray'⟩ :=
        putMember_eq (g.lpid n) false hfilled harray (by omega)
      refine ⟨f', ?_, ?_, hsize'.trans hsize, hrank'.trans hrank, hidx'.trans hidx, hdense'.trans hdense, harray'⟩
      · rw [List.range_succ, List.foldlM_append, hfold]
        simpa using hput
      · rw [List.range_succ, List.map_append]
        exact hfilled'
  exact hrun g.size (Nat.le_refl _)

theorem addSecond_eq {size : Nat} (keep : Nat → Bool) (hg1 : Valid me g1)
    (hg2 : Valid me g2) (hf : f.Has me size g1.members) (hdense : f.group.isLocalDenseMonotonic = false)
    (hkeep : ∀ i < g2.size, keep i = true → g2.lpid i ∉ g1.members)
    (hsize : g1.size + (kept g2 keep g2.size).length = size) :
    ∃ f', (List.range g2.size).foldlM (fun f i =>
        if keep i then putMember (g2.lpid i) (f.group.rank = mpiUndefined ∧ g2.lpid i = mylpid g1 g2) f
        else some f) f = some f' ∧ f'.Has me size (g1.members ++ kept g2 keep g2.size) ∧
      f'.group.isLocalDenseMonotonic = false := by
  have hrun : ∀ n ≤ g2.size, ∃ f', (List.range n).foldlM (fun f i =>
        if keep i then putMember (g2.lpid i) (f.group.rank = mpiUndefined ∧ g2.lpid i = mylpid g1 g2) f
        else some f) f = some f' ∧ f'.Has me size (g1.members ++ kept g2 keep n) ∧
      f'.group.isLocalDenseMonotonic = false := by
    intro n hn
    induction n with
    | zero => exact ⟨f, rfl, by simpa [kept] using hf, hdense⟩
    | succ n ih =>
      obtain ⟨f', hfold, hhas, hdense'⟩ := ih (Nat.le_of_succ_le hn)
      rw [List.range_succ, List.foldlM_append, hfold]
      cases hkn : keep n with
      | false =>
        rw [kept_succ_of_neg hkn]
        refine ⟨f', ?_, hhas, hdense'⟩
        simp [hkn]
      | true =>
        have hle : (kept g2 keep (n + 1)).length ≤ (kept g2 keep g2.size).length := length_kept_le hn
        rw [kept_succ_of_pos hkn] at hle ⊢
        rw [List.length_append, List.length_singleton] at hle
        have hk := hhas.filled.length
        rw [List.length_append, length_members] at hk
        have hnew : g2.lpid n ∉ g1.members := hkeep n hn hkn
        have hnotMem : g2.lpid n ∉ g1.members ++ kept g2 keep n := by
          rw [List.mem_append, not_or]
          exact ⟨hnew, Valid.notMem_kept hg2 hn⟩
        obtain ⟨f'', hput, hfilled, hsize'', hrank, hidx, hdense'', harray⟩ := putMember_eq (g2.lpid n)
          (f'.group.rank = mpiUndefined ∧ g2.lpid n = mylpid g1 g2) hhas.filled hhas.array (by rw [hhas.size]; omega)
        refine ⟨f'', ?_, ⟨?_, hsize''.trans hhas.size, ?_, hidx.trans hhas.idx, harray⟩, hdense''.trans hdense'⟩
        · simp only [List.foldlM_cons, List.foldlM_nil, hkn]
          simpa using hput
        · rw [← List.append_assoc]
          exact hfilled
        · have hcaller : (f'.group.rank = mpiUndefined ∧ g2.lpid n = mylpid g1 g2) ↔
              (me ∉ g1.members ++ kept g2 keep n ∧ g2.lpid n = me) := by
            rw [mylpid_iff hg1 hg2 (mem_members.mpr ⟨n, hn, rfl⟩) hnew, hhas.rank, rankIn_eq_undefined]
          rw [hrank, ← List.append_assoc]
          by_cases hme : g2.lpid n = me
          · rw [if_pos (decide_eq_true (hcaller.mpr ⟨hme ▸ hnotMem, hme⟩)), hhas.filled.length]
            rw [hme] at hnotMem ⊢
            exact (rankIn_append_self hnotMem).symm
          · rw [if_neg, hhas.rank, rankIn_append_of_ne hme]
            rw [decide_eq_true_iff, hcaller]
            exact fun h => hme h.2
  exact hrun g2.size (Nat.le_refl _)

theorem groupUnion_eq (hempty : HasEmpty me s) (hk1 : h1 < s.count) (hk2 : h2 < s.count)
    (hv1 : Valid me (s.group h1)) (hv2 : Valid me (s.group h2)) (hplain : Fillable s h1 h2) :
    ∃ s' h, groupUnion memory s h1 h2 = some (s', h) ∧
      Result me s s' h ((s.group h1).members ++ (s.group h2).members.filter (· ∉ (s.group h1).members)) := by
  obtain ⟨t, hsetup, hgrown, hg1, hg2, hm1, hm2, ⟨A, hA⟩, ⟨B, hB⟩⟩ := prepared hk1 hk2 hv1 hv2
  obtain ⟨idx1, idx2, seen, rest, hwalk, hrest, hunmatched⟩ : ∃ idx1 idx2 seen rest,
      walkLists (t.group h1) (t.group h2) (fun _ b => mark 1 b) (fun _ _ => id)
        ((t.group h1).size + (t.group h2).size) (t.group h1).idxOfFirstLpid (t.group h2).idxOfFirstLpid
        ⟨clearFlags (t.group h2), (t.group h1).size⟩ = some (idx1, idx2, seen.foldl (fun m b => mark 1 b m)
          ⟨clearFlags (t.group h2), (t.group h1).size⟩) ∧
      Rest (t.group h2) idx2 rest ∧ unmatched (t.group h1) (t.group h2) A B = seen ++ rest :=
    walkLists_greater (rest_of_ordered hA) (rest_of_ordered hB) (length_orders hA hB)
  have hlength : rest.length ≤ (t.group h2).size := by
    have hle : (unmatched (t.group h1) (t.group h2) A B).length ≤ B.length := List.length_filter_le _ _
    rw [hunmatched, List.length_append, hB.length] at hle
    omega
  have hmark : ∀ m, markRest (t.group h2) (t.group h2).size idx2 m = some (rest.foldl (fun m b => mark 1 b m) m) :=
    fun m => markRest_eq hrest hlength
  rw [unmatched_eq hA] at hunmatched
  have hmarked := marked hB (fun p => decide (p ∉ (t.group h1).members)) (t.group h1).size 1
  unfold groupUnion
  rw [hsetup]
  simp only [Option.bind_eq_bind, Option.bind_some]
  rw [hwalk]
  simp only [Option.bind_some]
  rw [hmark, ← List.foldl_append, ← hunmatched]
  simp only [Option.bind_some]
  generalize (B.filter _).foldl (fun m b => mark 1 b m) _ = m at hmarked ⊢
  rw [← hm1, ← hm2]
  have hkept := hmarked.kept
  have hnnew := hmarked.nnew
  have hnew : ∃ s' h, newGroup memory (t.set h2 { t.group h2 with flag := m.flag }) m.nnew (t.group h1).rank (fun f => do
        let f ← (List.range (t.group h1).size).foldlM (fun f i => putMember ((t.group h1).lpid i) false f) f
        (List.range (t.group h2).size).foldlM (fun f i =>
          if m.flag i ≠ 0 then
            putMember ((t.group h2).lpid i)
              (f.group.rank = mpiUndefined ∧ (t.group h2).lpid i = mylpid (t.group h1) (t.group h2)) f
          else some f) f) = some (s', h) ∧
      Result me (t.set h2 { t.group h2 with flag := m.flag }) s' h
        ((t.group h1).members ++ (t.group h2).members.filter (· ∉ (t.group h1).members)) := by
    apply newGroup_eq (hempty.grown (setFlag_grown hgrown h2 m.flag))
    · refine hplain.build (setFlag_grown hgrown h2 m.flag) fun p hp => ?_
      rw [← hm1, ← hm2]
      exact (List.mem_append.mp hp).imp_right List.mem_of_mem_filter
    · rw [List.length_append, length_members]
      omega
    · rw [List.nodup_append]
      refine ⟨hg1.distinct, nodup_filter hg2 _, ?_⟩
      rintro p hp q hq rfl
      exact of_decide_eq_true (List.mem_filter.mp hq).2 hp
    · intro p hp
      rcases List.mem_append.mp hp with hp | hp
      · exact hg1.nonneg p hp
      · exact nonneg_filter hg2 _ p hp
    · intro _
      have hle : (t.group h1).size ≤
          ((t.group h1).members ++ (t.group h2).members.filter (· ∉ (t.group h1).members)).length := by
        rw [List.length_append, length_members]
        exact Nat.le_add_right _ _
      obtain ⟨f, hcopy, hfilled, hsize, hrank, hidx, hdense, harray⟩ := copyFirst_eq memory hle
      obtain ⟨f', hadd, hhas, hdense'⟩ := addSecond_eq (fun i => m.flag i ≠ 0) hg1 hg2
        ⟨hfilled, hsize, hrank.trans hg1.rank, hidx, harray⟩ hdense (by
          intro i hi hkeep
          rw [decide_eq_true_iff, hmarked.flag i hi] at hkeep
          simpa using hkeep) (by rw [hkept, List.length_append, length_members])
      rw [hkept] at hhas
      refine ⟨f', ?_, hhas, ?_⟩
      · rw [hcopy]
        simpa using hadd
      · rw [hdense']
        exact fun h => nomatch h
  obtain ⟨s', h, hrun, hresult⟩ := hnew
  exact ⟨s', h, hrun, hresult.trans (setFlag_grown hgrown h2 m.flag)⟩

theorem compareLists_eq {fuel : Nat} {idx1 idx2 : Int} (hA : Rest g1 idx1 A)
    (hB : Rest g2 idx2 B) (hlength : A.length = B.length) (hfuel : A.length ≤ fuel) :
    compareLists g1 g2 fuel idx1 idx2 = some (decide (ids g1 A = ids g2 B)) := by
  induction A generalizing idx1 idx2 B fuel with
  | nil =>
    obtain rfl : B = [] := List.eq_nil_of_length_eq_zero hlength.symm
    have hstop : ¬ (0 ≤ idx1 ∧ 0 ≤ idx2) := fun h => hA.neg h.1
    cases fuel <;> exact if_neg hstop
  | cons a A ih =>
    cases B with
    | nil => exact absurd hlength (by simp)
    | cons b B =>
      cases fuel with
      | zero => exact absurd hfuel (by simp)
      | succ fuel =>
        unfold compareLists
        rw [if_pos ⟨hA.nonneg, hB.nonneg⟩, hA.element, hB.element]
        simp only [Option.bind_eq_bind, Option.bind_some]
        by_cases heq : g1.lpid a = g2.lpid b
        · rw [if_neg (not_not_intro heq),
            ih hA.tail hB.tail (Nat.succ.inj hlength) (Nat.le_of_succ_le_succ hfuel), Option.some.injEq,
            decide_eq_decide]
          simp [ids, heq]
        · rw [if_pos heq]
          simp [ids, heq]

theorem ids_eq_iff (hg1 : Valid me g1) (hg2 : Valid me g2)
    (hA : Ordered g1.lpid 0 g1.size g1.nextLpid g1.idxOfFirstLpid A)
    (hB : Ordered g2.lpid 0 g2.size g2.nextLpid g2.idxOfFirstLpid B) :
    ids g1 A = ids g2 B ↔ ∀ p, p ∈ g1.members ↔ p ∈ g2.members := by
  constructor
  · intro heq p
    rw [← mem_ids_ordered hA, heq, mem_ids_ordered hB]
  · intro hsame
    have hperm1 : (ids g1 A).Perm g1.members := by
      rw [MpidGroup.members, List.range_eq_range']
      exact hA.perm.map g1.lpid
    have hperm2 : (ids g2 B).Perm g2.members := by
      rw [MpidGroup.members, List.range_eq_range']
      exact hB.perm.map g2.lpid
    have hperm := (List.perm_ext_iff_of_nodup hg1.distinct hg2.distinct).mpr hsame
    have hsorted1 : (ids g1 A).Pairwise (· < ·) := List.pairwise_map.mpr hA.sorted
    have hsorted2 : (ids g2 B).Pairwise (· < ·) := List.pairwise_map.mpr hB.sorted
    refine List.Perm.eq_of_pairwise ?_ hsorted1 hsorted2 (hperm1.trans (hperm.trans hperm2.symm))
    intro a b _ _ hab hba
    omega

theorem members_eq_iff (hsize : g1.size = g2.size) :
    g1.members = g2.members ↔ ((List.range g1.size).any fun i => g1.lpid i ≠ g2.lpid i) = false := by
  unfold MpidGroup.members
  rw [hsize, List.map_inj_left, List.any_eq_false]
  simp

theorem groupCompare_eq (hk1 : h1 < s.count) (hk2 : h2 < s.count) (hv1 : Valid me (s.group h1))
    (hv2 : Valid me (s.group h2)) :
    ∃ s' r, groupCompare s h1 h2 = some (s', r) ∧ Grown me s s' ∧
      (r = .ident ↔ (s.group h1).members = (s.group h2).members) ∧
      (r = .similar ↔ (s.group h1).members ≠ (s.group h2).members ∧
        ∀ p, p ∈ (s.group h1).members ↔ p ∈ (s.group h2).members) := by
  unfold groupCompare
  by_cases hsize : (s.group h1).size = (s.group h2).size
  · rw [if_neg (not_not_intro hsize)]
    obtain ⟨t, hsetup, hgrown, hg1, hg2, hm1, hm2, ⟨A, hA⟩, ⟨B, hB⟩⟩ := prepared hk1 hk2 hv1 hv2
    have hsize' : (t.group h1).size = (t.group h2).size := by
      rw [(hgrown.same h1 hk1).size, (hgrown.same h2 hk2).size, hsize]
    have hcompare := compareLists_eq (rest_of_ordered hA) (rest_of_ordered hB)
      (by rw [hA.length, hB.length, hsize']) (Nat.le_of_eq hA.length)
    rw [hsetup]
    simp only [Option.bind_eq_bind, Option.bind_some]
    rw [hcompare, ← hm1, ← hm2]
    simp only [Option.bind_some]
    have hiff := ids_eq_iff hg1 hg2 hA hB
    by_cases hids : ∀ p, p ∈ (t.group h1).members ↔ p ∈ (t.group h2).members
    · rw [if_neg (by rw [decide_eq_true (hiff.mpr hids)]; decide)]
      cases hany : (List.range (t.group h1).size).any fun i => (t.group h1).lpid i ≠ (t.group h2).lpid i with
      | false =>
        have heq := (members_eq_iff hsize').mpr hany
        exact ⟨t, .ident, rfl, hgrown, iff_of_true rfl heq, iff_of_false (fun h => nomatch h) fun h => h.1 heq⟩
      | true =>
        have hne : (t.group h1).members ≠ (t.group h2).members := by
          intro heq
          rw [(members_eq_iff hsize').mp heq] at hany
          exact nomatch hany
        exact ⟨t, .similar, rfl, hgrown, iff_of_false (fun h => nomatch h) hne, iff_of_true rfl ⟨hne, hids⟩⟩
    · rw [if_pos (decide_eq_false fun h => hids (hiff.mp h))]
      refine ⟨t, .unequal, rfl, hgrown, ?_, ?_⟩
      · refine iff_of_false (fun h => nomatch h) ?_
        intro heq
        exact hids fun p => by rw [heq]
      · exact iff_of_false (fun h => nomatch h) fun h => hids h.2
  · rw [if_pos hsize]
    refine ⟨s, .unequal, rfl, Grown.refl s, ?_, ?_⟩
    · refine iff_of_false (fun h => nomatch h) fun heq => hsize ?_
      rw [← length_members, ← length_members, heq]
    · refine iff_of_false (fun h => nomatch h) fun h => hsize ?_
      rw [← length_members, ← length_members]
      exact ((List.perm_ext_iff_of_nodup hv1.distinct hv2.distinct).mpr h.2).length_eq

/-- What unions, intersections, differences and comparisons of two groups give; one and the same group may be given
twice. -/
def OperationsRight (me : Int) (memory : MpidGroup) (commWorldSize : Int) (s : GroupMem) (h1 h2 : Nat) : Prop :=
  (∃ s' h, groupUnion memory s h1 h2 = some (s', h) ∧
    Result me s s' h ((s.group h1).members ++ (s.group h2).members.filter (· ∉ (s.group h1).members))) ∧
  (∃ s' h, groupIntersection memory s h1 h2 commWorldSize = some (s', h) ∧
    Result me s s' h ((s.group h1).members.filter (· ∈ (s.group h2).members))) ∧
  (∃ s' h, groupDifference memory s h1 h2 = some (s', h) ∧
    Result me s s' h ((s.group h1).members.filter (· ∉ (s.group h2).members))) ∧
  ∃ s' r, groupCompare s h1 h2 = some (s', r) ∧ Grown me s s' ∧
    (r = .ident ↔ (s.group h1).members = (s.group h2).members) ∧
    (r = .similar ↔ (s.group h1).members ≠ (s.group h2).members ∧
      ∀ p, p ∈ (s.group h1).members ↔ p ∈ (s.group h2).members)

theorem set_operations_correct (memory : MpidGroup) (commWorldSize : Int) (hempty : HasEmpty me s) (hk1 : h1 < s.count)
    (hk2 : h2 < s.count) (hv1 : Valid me (s.group h1)) (hv2 : Valid me (s.group h2)) (hplain : Fillable s h1 h2) :
    OperationsRight me memory commWorldSize s h1 h2 :=
  ⟨groupUnion_eq hempty hk1 hk2 hv1 hv2 hplain, groupIntersection_eq hempty hk1 hk2 hv1 hv2 hplain,
    groupDifference_eq hempty hk1 hk2 hv1 hv2 hplain, groupCompare_eq hk1 hk2 hv1 hv2⟩

theorem not_operationsRight (memory : MpidGroup) (commWorldSize : Int) (hb1 : Bare me (s.group h1))
    (hb2 : Bare me (s.group h2)) (hsize : ¬ ((s.group h1).size = 0 ∧ (s.group h2).size = 0)) :
    ¬ OperationsRight me memory commWorldSize s h1 h2 := by
  rintro ⟨⟨s', h, hunion, -⟩, -⟩
  rw [groupUnion, setupLpidPairs_bare hb1.toNoArray hb2.toNoArray, if_neg hsize] at hunion
  exact absurd hunion (Option.some_ne_none (s', h)).symm

/-- The operations are right in the build without `FINEGRAIN_MPI`; with it, of two empty groups. -/
theorem set_operations_iff (memory : MpidGroup) (commWorldSize : Int) (hempty : HasEmpty me s) (hk1 : h1 < s.count)
    (hk2 : h2 < s.count) (hb1 : Built s.build me (s.group h1)) (hb2 : Built s.build me (s.group h2)) :
    OperationsRight me memory commWorldSize s h1 h2 ↔
      s.build = .plain ∨ ((s.group h1).size = 0 ∧ (s.group h2).size = 0) := by
  cases hbuild : s.build with
  | plain =>
    rw [hbuild] at hb1 hb2
    exact iff_of_true (set_operations_correct memory commWorldSize hempty hk1 hk2 hb1 hb2 (.inl hbuild)) (.inl rfl)
  | fineGrain =>
    rw [hbuild] at hb1 hb2
    constructor
    · intro h
      by_contra hnot
      exact not_operationsRight memory commWorldSize hb1 hb2 (fun hsize => hnot (.inr hsize)) h
    · intro h
      have hsize := h.resolve_left (fun hplain => by cases hplain)
      exact set_operations_correct memory commWorldSize hempty hk1 hk2 (hb1.valid hsize.1) (hb2.valid hsize.2)
        (.inr hsize)

end Operations

def groupOf (b : Build) (me : Int) (list : List Int) : MpidGroup where
  size := list.length
  rank := rankIn list me
  idxOfFirstLpid := -1
  lrankToLpid := b = .plain
  lpid := fun i => list.getD i 0
  nextLpid := fun _ => 0
  flag := fun _ => 0
  isLocalDenseMonotonic := false

theorem groupOf_members (b : Build) (me : Int) (list : List Int) : (groupOf b me list).members = list := by
  apply List.ext_getElem
  · rw [length_members]
    rfl
  · intro i _ hi
    rw [getElem_members]
    show list.getD i 0 = list[i]
    rw [List.getD, List.getElem?_eq_getElem hi, Option.getD_some]

theorem groupOf_valid {me : Int} {list : List Int} (hnodup : list.Nodup) (hnonneg : ∀ p ∈ list, 0 ≤ p) :
    Valid me (groupOf .plain me list) := by
  have hmembers := groupOf_members .plain me list
  refine ⟨?_, ?_, ?_, .inl rfl, (fun h => nomatch h), rfl⟩
  · rw [hmembers]
    exact hnodup
  · rw [hmembers]
    exact hnonneg
  · rw [hmembers]
    rfl

def twoGroups (b : Build) : GroupMem where
  build := b
  count := 3
  group := fun h => groupOf b 1 (if h = 1 then [3, 1, 2] else if h = 2 then [2, 5] else [])

theorem twoGroups_right : OperationsRight 1 (groupOf .plain 1 []) 6 (twoGroups .plain) 1 2 := by
  have hempty : Valid 1 ((twoGroups .plain).group 0) := groupOf_valid (by decide) (by decide)
  have hfirst : Valid 1 ((twoGroups .plain).group 1) := groupOf_valid (by decide) (by decide)
  have hsecond : Valid 1 ((twoGroups .plain).group 2) := groupOf_valid (by decide) (by decide)
  exact (set_operations_iff (groupOf .plain 1 []) 6 ⟨by decide, rfl, hempty⟩ (by decide) (by decide) hfirst
    hsecond).mpr (.inl rfl)

theorem twoGroups_bare : ¬ OperationsRight 1 (groupOf .fineGrain 1 []) 6 (twoGroups .fineGrain) 1 2 := by
  refine not_operationsRight (groupOf .fineGrain 1 []) 6 ⟨⟨by decide, by decide⟩, by decide⟩
    ⟨⟨by decide, by decide⟩, by decide⟩ (by decide)

end FgMpi.Group.SetOperations
