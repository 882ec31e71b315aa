import Mathlib.Data.List.Induction
import Mathlib.Data.List.Sort

/-! `MPIU_Sort_inttable` (`mpi/comm/comm_split.c:85`). -/

namespace FgMpi.Comm.SplitSort

/-- `sorttype`; `color` is the rank in the parent. -/
structure SortType where
  color : Nat
  key : Int
  origIdx : Nat
deriving Repr, DecidableEq

def sorttypeCompare (s1 s2 : SortType) : Int :=
  if s1.key > s2.key then 1
  else if s1.key < s2.key then -1
  else if s1.origIdx > s2.origIdx then 1
  else if s1.origIdx < s2.origIdx then -1
  else 0

/-- What the C standard asks of a comparison function. -/
structure Consistent {α : Type} (compare : α → α → Int) : Prop where
  total : ∀ a b, compare a b ≤ 0 ∨ compare b a ≤ 0
  trans : ∀ a b c, compare a b ≤ 0 → compare b c ≤ 0 → compare a c ≤ 0

/-- A `qsort` of the C library: it sorts, and elements that compare equal may come in any
order. -/
structure Qsort where
  sort : (SortType → SortType → Int) → List SortType → List SortType
  perm : ∀ compare table, (sort compare table).Perm table
  sorted : ∀ compare table, Consistent compare →
    (sort compare table).Pairwise (fun a b => compare a b ≤ 0)

def Qsort.stable : Qsort where
  sort compare table := table.insertionSort (fun a b => compare a b ≤ 0)
  perm _ table := List.perm_insertionSort _ table
  sorted compare table h :=
    have : Std.Total (fun a b => compare a b ≤ 0) := ⟨h.total⟩
    have : IsTrans SortType (fun a b => compare a b ≤ 0) := ⟨h.trans⟩
    List.pairwise_insertionSort _ table

/-- The `while` loop, `comm_split.c:108-118`: `keytable[j]` for `j + 1` down to 1 moves up while
its key is larger; the argument is `j + 1`. -/
def shift (tmp : SortType) : Nat → List SortType → List SortType
  | 0, keytable => keytable.set 0 tmp
  | j + 1, keytable =>
    match keytable[j]? with
    | some s =>
      if s.key > tmp.key then shift tmp j (keytable.set (j + 1) s)
      else keytable.set (j + 1) tmp
    | none => keytable

def insertionStep (keytable : List SortType) (i : Nat) : List SortType :=
  match keytable[i]? with
  | some tmp => shift tmp i keytable
  | none => keytable

/-- The insertion sort of `comm_split.c:105-121`. -/
def insertionPath (keytable : List SortType) : List SortType :=
  (List.range' 1 (keytable.length - 1)).foldl insertionStep keytable

/-- The other path: `comm_split.c:96-99`. -/
def qsortPath (q : Qsort) (keytable : List SortType) : List SortType :=
  q.sort sorttypeCompare (keytable.mapIdx fun i s => { s with origIdx := i })

/-- `MPIU_Sort_inttable`; without `qsort`, or with it switched off, the insertion sort. -/
def sortInttable (qsort : Option Qsort) (keytable : List SortType) : List SortType :=
  match qsort with
  | some q => qsortPath q keytable
  | none => insertionPath keytable

def Before (place : SortType → Nat) (a b : SortType) : Prop :=
  a.key < b.key ∨ a.key = b.key ∧ place a < place b

theorem Before.asymm {place : SortType → Nat} {a b : SortType} (hab : Before place a b)
    (hba : Before place b a) : False := by
  unfold Before at *
  omega

theorem eq_of_before {place : SortType → Nat} {xs ys : List SortType} (hperm : xs.Perm ys)
    (hxs : xs.Pairwise (Before place)) (hys : ys.Pairwise (Before place)) : xs = ys := by
  apply List.Perm.eq_of_pairwise _ hxs hys hperm
  intro a b _ _ hab hba
  exact (hab.asymm hba).elim

section Insertion
variable {place : SortType → Nat} {tmp : SortType}

theorem shift_split (tmp : SortType) (xs rest : List SortType) (hole : SortType) :
    ∃ front back, xs = front ++ back ∧ (∀ b ∈ back, tmp.key < b.key) ∧
      (∀ a, front.getLast? = some a → a.key ≤ tmp.key) ∧
      shift tmp xs.length (xs ++ hole :: rest) = front ++ tmp :: (back ++ rest) := by
  induction xs using List.reverseRecOn generalizing hole rest with
  | nil => exact ⟨[], [], rfl, by simp, by simp, rfl⟩
  | append_singleton xs x ih =>
    have hget : (xs ++ [x] ++ hole :: rest)[xs.length]? = some x := by simp
    rw [List.length_append, List.length_singleton, shift, hget]
    dsimp only
    have hset : ∀ s, (xs ++ [x] ++ hole :: rest).set (xs.length + 1) s =
        xs ++ x :: s :: rest := by
      intro s
      rw [List.append_assoc, List.set_append_right _ _ (by omega)]
      simp
    by_cases hlarger : x.key > tmp.key
    · rw [if_pos hlarger, hset]
      obtain ⟨front, back, hsplit, hback, hfront, hshift⟩ := ih (x :: rest) x
      refine ⟨front, back ++ [x], ?_, ?_, hfront, ?_⟩
      · rw [hsplit, List.append_assoc]
      · intro b hb
        rcases List.mem_append.mp hb with hb | hb
        · exact hback b hb
        · rw [List.mem_singleton.mp hb]
          exact hlarger
      · rw [hshift, List.append_assoc]
        rfl
    · rw [if_neg hlarger, hset]
      refine ⟨xs ++ [x], [], by simp, by simp, ?_, by simp⟩
      intro a ha
      rw [List.getLast?_append, List.getLast?_singleton, Option.some_or] at ha
      rw [← Option.some.inj ha]
      exact Int.not_lt.mp hlarger

theorem insertionStep_sorted {xs : List SortType} (rest : List SortType) (hsorted : xs.Pairwise (Before place))
    (hlast : ∀ a ∈ xs, place a < place tmp) :
    ∃ ys, insertionStep (xs ++ tmp :: rest) xs.length = ys ++ rest ∧ ys.Perm (tmp :: xs) ∧
      ys.Pairwise (Before place) := by
  obtain ⟨front, back, hsplit, hback, hfront, hshift⟩ := shift_split tmp xs rest tmp
  have hget : (xs ++ tmp :: rest)[xs.length]? = some tmp := by simp
  refine ⟨front ++ tmp :: back, ?_, ?_, ?_⟩
  · rw [insertionStep, hget]
    dsimp only
    rw [hshift]
    simp
  · rw [hsplit]
    exact List.perm_middle
  · rw [hsplit, List.pairwise_append] at hsorted
    obtain ⟨hfrontSorted, hbackSorted, hacross⟩ := hsorted
    -- the last key in front is the largest there
    have hle : ∀ a ∈ front, a.key ≤ tmp.key := by
      intro a ha
      obtain ⟨init, last, hinit⟩ := List.eq_nil_or_concat front |>.resolve_left
        (List.ne_nil_of_mem ha)
      have hlastKey := hfront last (by simp [hinit])
      rw [hinit, List.concat_eq_append] at ha hfrontSorted
      rcases List.mem_append.mp ha with ha | ha
      · have hbefore := (List.pairwise_append.mp hfrontSorted).2.2 a ha last (by simp)
        unfold Before at hbefore
        omega
      · rw [List.mem_singleton.mp ha]
        exact hlastKey
    have hnew : ∀ a ∈ front, Before place a tmp := by
      intro a ha
      have hkey := hle a ha
      have hplace := hlast a (by rw [hsplit]; exact List.mem_append_left _ ha)
      unfold Before
      omega
    rw [List.pairwise_append, List.pairwise_cons]
    refine ⟨hfrontSorted, ⟨fun b hb => Or.inl (hback b hb), hbackSorted⟩, ?_⟩
    intro a ha b hb
    rcases List.mem_cons.mp hb with rfl | hb
    · exact hnew a ha
    · exact hacross a ha b hb

theorem foldl_insertionStep (xs rest : List SortType) (hsorted : xs.Pairwise (Before place))
    (hacross : ∀ a ∈ xs, ∀ b ∈ rest, place a < place b)
    (hrest : rest.Pairwise (fun a b => place a < place b)) :
    ((List.range' xs.length rest.length).foldl insertionStep (xs ++ rest)).Perm (xs ++ rest) ∧
      ((List.range' xs.length rest.length).foldl insertionStep (xs ++ rest)).Pairwise
        (Before place) := by
  induction rest generalizing xs with
  | nil => simpa using hsorted
  | cons tmp rest ih =>
    obtain ⟨hfirst, hrest⟩ := List.pairwise_cons.mp hrest
    obtain ⟨ys, hstep, hperm, hys⟩ := insertionStep_sorted rest hsorted
      (fun a ha => hacross a ha tmp List.mem_cons_self)
    have hlength : ys.length = xs.length + 1 := hperm.length_eq
    have hpermAll : (ys ++ rest).Perm (xs ++ tmp :: rest) :=
      (hperm.append_right rest).trans List.perm_middle.symm
    have hbound : ∀ a ∈ ys, ∀ b ∈ rest, place a < place b := by
      intro a ha b hb
      rcases List.mem_cons.mp (hperm.mem_iff.mp ha) with rfl | ha
      · exact hfirst b hb
      · exact hacross a ha b (List.mem_cons_of_mem _ hb)
    rw [List.length_cons, List.range'_succ, List.foldl_cons, hstep, ← hlength]
    obtain ⟨hp, hs⟩ := ih ys hys hbound hrest
    exact ⟨hp.trans hpermAll, hs⟩

theorem insertionPath_sorted {keytable : List SortType}
    (hplaces : keytable.Pairwise (fun a b => place a < place b)) :
    (insertionPath keytable).Perm keytable ∧ (insertionPath keytable).Pairwise (Before place) := by
  cases keytable with
  | nil => exact ⟨List.Perm.refl _, List.Pairwise.nil⟩
  | cons s rest =>
    obtain ⟨hfirst, hrest⟩ := List.pairwise_cons.mp hplaces
    have h := foldl_insertionStep [s] rest (List.pairwise_singleton _ _) (by simpa using hfirst)
      hrest
    exact h

end Insertion

def SortType.clear (s : SortType) : SortType := { s with origIdx := 0 }

theorem shift_clear (tmp : SortType) (j : Nat) (keytable : List SortType) :
    (shift tmp j keytable).map SortType.clear = shift tmp.clear j (keytable.map SortType.clear) := by
  induction j generalizing keytable with
  | zero => rw [shift, shift, List.map_set]
  | succ j ih =>
    rw [shift, shift, List.getElem?_map]
    cases keytable[j]? with
    | none => rfl
    | some s =>
      have hkeys : s.clear.key > tmp.clear.key ↔ s.key > tmp.key := Iff.rfl
      simp only [Option.map_some, hkeys]
      split
      · rw [ih, List.map_set]
      · rw [List.map_set]

theorem insertionPath_clear (keytable : List SortType) :
    (insertionPath keytable).map SortType.clear = insertionPath (keytable.map SortType.clear) := by
  unfold insertionPath
  rw [List.length_map]
  generalize List.range' 1 (keytable.length - 1) = passes
  induction passes generalizing keytable with
  | nil => rfl
  | cons i passes ih =>
    rw [List.foldl_cons, List.foldl_cons, ih]
    congr 1
    unfold insertionStep
    rw [List.getElem?_map]
    cases keytable[i]? with
    | none => rfl
    | some tmp => exact shift_clear tmp i keytable

theorem sorttypeCompare_le (a b : SortType) :
    sorttypeCompare a b ≤ 0 ↔ a.key < b.key ∨ a.key = b.key ∧ a.origIdx ≤ b.origIdx := by
  unfold sorttypeCompare
  split_ifs <;> omega

theorem sorttypeCompare_consistent : Consistent sorttypeCompare where
  total a b := by
    rw [sorttypeCompare_le, sorttypeCompare_le]
    omega
  trans a b c hab hbc := by
    rw [sorttypeCompare_le] at hab hbc ⊢
    omega

def numbered (keytable : List SortType) : List SortType :=
  keytable.mapIdx fun i s => { s with origIdx := i }

theorem numbered_places (keytable : List SortType) :
    (numbered keytable).Pairwise (fun a b => a.origIdx < b.origIdx) := by
  rw [List.pairwise_iff_getElem]
  intro i j hi hj hij
  simp only [numbered, List.getElem_mapIdx]
  exact hij

theorem numbered_clear (keytable : List SortType) :
    (numbered keytable).map SortType.clear = keytable.map SortType.clear := by
  apply List.ext_getElem
  · simp [numbered]
  · intro i h1 h2
    simp [numbered, SortType.clear]

theorem qsortPath_sorted (q : Qsort) (keytable : List SortType) :
    (qsortPath q keytable).Perm (numbered keytable) ∧
      (qsortPath q keytable).Pairwise (Before SortType.origIdx) := by
  have hperm : (qsortPath q keytable).Perm (numbered keytable) := q.perm _ _
  refine ⟨hperm, ?_⟩
  have hsorted := q.sorted sorttypeCompare (numbered keytable) sorttypeCompare_consistent
  have hdistinct : (qsortPath q keytable).Pairwise (fun a b => a.origIdx ≠ b.origIdx) := by
    have hplaces : (numbered keytable).Pairwise (fun a b => a.origIdx ≠ b.origIdx) :=
      (numbered_places keytable).imp fun h => Nat.ne_of_lt h
    exact (hperm.pairwise_iff fun h => Ne.symm h).mpr hplaces
  apply List.Pairwise.imp _ (List.Pairwise.and hsorted hdistinct)
  intro a b hab
  obtain ⟨hcompare, hne⟩ := hab
  rw [sorttypeCompare_le] at hcompare
  unfold Before
  omega

theorem paths_agree (q : Qsort) (keytable : List SortType) :
    (qsortPath q keytable).map SortType.clear = (insertionPath keytable).map SortType.clear := by
  obtain ⟨hperm, hsorted⟩ := qsortPath_sorted q keytable
  obtain ⟨hperm', hsorted'⟩ := insertionPath_sorted (numbered_places keytable)
  have hsame : qsortPath q keytable = insertionPath (numbered keytable) :=
    eq_of_before (hperm.trans hperm'.symm) hsorted hsorted'
  rw [hsame, insertionPath_clear, insertionPath_clear, numbered_clear]

theorem sortInttable_agree (q q' : Option Qsort) (keytable : List SortType) :
    (sortInttable q keytable).map SortType.clear = (sortInttable q' keytable).map SortType.clear := by
  have hinsertion : ∀ path : Option Qsort, (sortInttable path keytable).map SortType.clear =
      (insertionPath keytable).map SortType.clear := by
    intro path
    cases path with
    | none => rfl
    | some q => exact paths_agree q keytable
  rw [hinsertion q, hinsertion q']

end FgMpi.Comm.SplitSort
