import FgMpi.Group.LpidOrder

/-! `MPID_Group` of `src/include/mpiimpl.h`. -/

namespace FgMpi.Group.Groups
open Group.LpidOrder
open Function (update update_eq_self update_of_ne update_self)

def mpiUndefined : Int := -32766
def mpiProcNull : Int := -1

/-- Whether the library is built with `FINEGRAIN_MPI`. -/
inductive Build
  | plain
  | fineGrain
deriving Repr, DecidableEq

/-- `MPID_Group`; the elements of `lrank_to_lpid` are given by their fields, and whether it is not `NULL` by its own.
Without an array `lpid` is what `rtw_grp_map` has. -/
structure MpidGroup where
  size : Nat
  rank : Int
  idxOfFirstLpid : Int
  lrankToLpid : Bool
  lpid : Nat → Int
  nextLpid : Nat → Int
  flag : Nat → Int
  isLocalDenseMonotonic : Bool

/-- `MPID_Group_mem`. -/
structure GroupMem where
  build : Build
  count : Nat
  group : Nat → MpidGroup

def GroupMem.set (s : GroupMem) (h : Nat) (g : MpidGroup) : GroupMem :=
  { s with group := update s.group h g }

def GroupMem.add (s : GroupMem) (g : MpidGroup) : GroupMem × Nat :=
  ({ s with count := s.count + 1, group := update s.group s.count g }, s.count)

/-- `MPIR_Group_create`; the arrays have what was in the memory that is allocated.  With `FINEGRAIN_MPI` nothing sets
`lrank_to_lpid`, which is `NULL` from the beginning. -/
def groupCreate (b : Build) (memory : MpidGroup) (nproc : Nat) : MpidGroup :=
  { memory with
    size := nproc
    idxOfFirstLpid := -1
    lrankToLpid := match b with
      | .plain => true
      | .fineGrain => false
    isLocalDenseMonotonic := false }

def MpidGroup.readable (g : MpidGroup) : Bool := g.lrankToLpid || g.size = 0

def setupLpidList (g : MpidGroup) : Option MpidGroup :=
  if g.idxOfFirstLpid = -1 then
    if g.readable = true then do
      let (first, next) ← mergesortLpidarray g.lpid 0 g.size g.nextLpid
      some { g with idxOfFirstLpid := first, nextLpid := next }
    else none
  else some g

def setupAt (s : GroupMem) (h : Nat) : Option GroupMem := do
  let g ← setupLpidList (s.group h)
  some (s.set h g)

def setupLpidPairs (s : GroupMem) (h1 h2 : Nat) : Option GroupMem := do
  let s ← setupAt s h1
  setupAt s h2

/-- `for (i = 0; i < size; i++) lrank_to_lpid[i].flag = 0;` -/
def clearFlags (g : MpidGroup) : Nat → Int :=
  (List.range g.size).foldl (fun flag i => update flag i 0) g.flag

def MpidGroup.members (g : MpidGroup) : List Int := (List.range g.size).map g.lpid

def rankIn (members : List Int) (lpid : Int) : Int :=
  if lpid ∈ members then members.idxOf lpid else mpiUndefined

/-- A group whose members are distinct, with the rank of the calling process `me`; the list by process ids is set up
or not, and the flag of `NOTE-G1` is set for consecutive ids only. -/
structure Valid (me : Int) (g : MpidGroup) : Prop where
  distinct : g.members.Nodup
  nonneg : ∀ lpid ∈ g.members, 0 ≤ lpid
  rank : g.rank = rankIn g.members me
  lpidList : g.idxOfFirstLpid = -1 ∨ ∃ order, Ordered g.lpid 0 g.size g.nextLpid g.idxOfFirstLpid order
  dense : g.isLocalDenseMonotonic = true → ∀ i < g.size, g.lpid i = g.lpid 0 + i
  readable : g.readable = true

/-- No array, and no list that is set up. -/
structure NoArray (g : MpidGroup) : Prop where
  array : g.lrankToLpid = false
  idx : g.idxOfFirstLpid = -1

/-- A group in a build with `FINEGRAIN_MPI`. -/
structure Bare (me : Int) (g : MpidGroup) : Prop extends NoArray g where
  rank : g.rank = rankIn g.members me

def Built (b : Build) (me : Int) (g : MpidGroup) : Prop :=
  match b with
  | .plain => Valid me g
  | .fineGrain => Bare me g

/-- The two differ in their lists and marks only. -/
structure Same (g g' : MpidGroup) : Prop where
  size : g'.size = g.size
  rank : g'.rank = g.rank
  lpid : g'.lpid = g.lpid
  dense : g'.isLocalDenseMonotonic = g.isLocalDenseMonotonic
  array : g'.lrankToLpid = g.lrankToLpid

section Members
variable {me p : Int} {g g' g'' : MpidGroup} {i j : Nat}

theorem Same.refl (g : MpidGroup) : Same g g := ⟨rfl, rfl, rfl, rfl, rfl⟩

theorem Same.trans (h : Same g g') (h' : Same g' g'') : Same g g'' :=
  ⟨h'.size.trans h.size, h'.rank.trans h.rank, h'.lpid.trans h.lpid, h'.dense.trans h.dense, h'.array.trans h.array⟩

theorem Same.members (h : Same g g') : g'.members = g.members := by
  unfold MpidGroup.members
  rw [h.size, h.lpid]

theorem mem_members : p ∈ g.members ↔ ∃ i < g.size, g.lpid i = p := by
  simp [MpidGroup.members]

theorem length_members (g : MpidGroup) : g.members.length = g.size := by
  rw [MpidGroup.members, List.length_map, List.length_range]

theorem getElem_members (hi : i < g.members.length) : g.members[i] = g.lpid i := by
  simp [MpidGroup.members]

section
variable (h : Valid me g)
include h

theorem Valid.injective (hi : i < g.size) (hj : j < g.size) (heq : g.lpid i = g.lpid j) : i = j := by
  have hi' : i < g.members.length := by rw [length_members]; exact hi
  have hj' : j < g.members.length := by rw [length_members]; exact hj
  have hmembers : g.members[i] = g.members[j] := by
    rw [getElem_members, getElem_members]
    exact heq
  exact h.distinct.getElem_inj_iff.mp hmembers

theorem Valid.rank_iff {i : Nat} (hi : i < g.size) : (i : Int) = g.rank ↔ g.lpid i = me := by
  have hi' : i < g.members.length := by
    rw [length_members]
    exact hi
  rw [h.rank]
  unfold rankIn
  constructor
  · intro heq
    by_cases hmem : me ∈ g.members
    · rw [if_pos hmem] at heq
      have hidx : i = g.members.idxOf me := by omega
      have hget := List.getElem_idxOf (List.idxOf_lt_length_of_mem hmem)
      rw [getElem_members, ← hidx] at hget
      exact hget
    · rw [if_neg hmem] at heq
      unfold mpiUndefined at heq
      omega
  · intro heq
    have hmem : me ∈ g.members := mem_members.mpr ⟨i, hi, heq⟩
    rw [if_pos hmem]
    have hget : g.members[i] = me := by
      rw [getElem_members]
      exact heq
    rw [← hget, h.distinct.idxOf_getElem]

theorem Valid.of_same (hsame : Same g g')
    (hlist : g'.idxOfFirstLpid = -1 ∨ ∃ order, Ordered g'.lpid 0 g'.size g'.nextLpid g'.idxOfFirstLpid order) :
    Valid me g' := by
  refine ⟨?_, ?_, ?_, hlist, ?_, ?_⟩
  · rw [hsame.members]
    exact h.distinct
  · rw [hsame.members]
    exact h.nonneg
  · rw [hsame.members, hsame.rank]
    exact h.rank
  · rw [hsame.dense, hsame.size, hsame.lpid]
    exact h.dense
  · rw [MpidGroup.readable, hsame.array, hsame.size]
    exact h.readable

theorem Valid.withFlag (flag : Nat → Int) : Valid me { g with flag := flag } :=
  h.of_same ⟨rfl, rfl, rfl, rfl, rfl⟩ h.lpidList

theorem Valid.setup :
    ∃ g' order, setupLpidList g = some g' ∧ Same g g' ∧ Valid me g' ∧
      Ordered g'.lpid 0 g'.size g'.nextLpid g'.idxOfFirstLpid order := by
  unfold setupLpidList
  by_cases hidx : g.idxOfFirstLpid = -1
  · rw [if_pos hidx]
    have hdistinct : ∀ a b, 0 ≤ a → a < b → b < 0 + g.size → g.lpid a ≠ g.lpid b := by
      intro a b _ hab hb heq
      have hinj := h.injective (by omega) (by omega) heq
      omega
    obtain ⟨first, next, order, hsort, hordered, -⟩ := mergesort_ordered 0 g.size g.nextLpid hdistinct
    rw [if_pos h.readable, hsort]
    exact ⟨_, order, rfl, ⟨rfl, rfl, rfl, rfl, rfl⟩, h.of_same ⟨rfl, rfl, rfl, rfl, rfl⟩ (.inr ⟨order, hordered⟩), hordered⟩
  · rw [if_neg hidx]
    obtain ⟨order, hordered⟩ := h.lpidList.resolve_left hidx
    exact ⟨g, order, rfl, Same.refl g, h, hordered⟩

end

theorem Bare.valid (h : Bare me g) (hsize : g.size = 0) : Valid me g := by
  have hmembers : g.members = [] := List.eq_nil_of_length_eq_zero ((length_members g).trans hsize)
  refine ⟨hmembers ▸ List.nodup_nil, ?_, h.rank, .inl h.idx, fun _ i hi => absurd hi (by omega), ?_⟩
  · rw [hmembers]
    exact fun p hp => absurd hp List.not_mem_nil
  · rw [MpidGroup.readable, decide_eq_true hsize, Bool.or_true]

theorem NoArray.readable (h : NoArray g) (hsize : g.size ≠ 0) : g.readable = false := by
  rw [MpidGroup.readable, h.array, decide_eq_false hsize]
  rfl

theorem NoArray.setup (h : NoArray g) (hsize : g.size ≠ 0) : setupLpidList g = none := by
  rw [setupLpidList, if_pos h.idx, h.readable hsize]
  rfl

theorem setupLpidList_empty (hidx : g.idxOfFirstLpid = -1) (hsize : g.size = 0) : setupLpidList g = some g := by
  have hreadable : g.readable = true := by rw [MpidGroup.readable, decide_eq_true hsize, Bool.or_true]
  have hsort : mergesortLpidarray g.lpid 0 g.size g.nextLpid = some (-1, g.nextLpid) := by
    rw [hsize, mergesortLpidarray, if_neg (by decide), if_neg (by decide), if_pos rfl]
  rw [setupLpidList, if_pos hidx, if_pos hreadable, hsort]
  show some { g with idxOfFirstLpid := -1, nextLpid := g.nextLpid } = some g
  rw [← hidx]

end Members

section Objects
variable {me : Int} {s s' s'' : GroupMem} {h1 h2 k : Nat} {g : MpidGroup}

/-- The objects that there are differ in their lists and marks only. -/
structure Grown (me : Int) (s s' : GroupMem) : Prop where
  build : s'.build = s.build
  count : s.count ≤ s'.count
  same : ∀ k < s.count, Same (s.group k) (s'.group k)
  valid : ∀ k < s.count, Valid me (s.group k) → Valid me (s'.group k)

theorem Grown.refl (s : GroupMem) : Grown me s s := ⟨rfl, Nat.le_refl _, fun _ _ => Same.refl _, fun _ _ hk => hk⟩

theorem Grown.trans (h : Grown me s s') (h' : Grown me s' s'') : Grown me s s'' := by
  refine ⟨h'.build.trans h.build, h.count.trans h'.count, ?_, ?_⟩
  · intro k hk
    exact (h.same k hk).trans (h'.same k (Nat.lt_of_lt_of_le hk h.count))
  · intro k hk hvalid
    exact h'.valid k (Nat.lt_of_lt_of_le hk h.count) (h.valid k hk hvalid)

theorem grown_set (hsame : Same (s.group k) g) (hvalid : Valid me (s.group k) → Valid me g) :
    Grown me s (s.set k g) := by
  refine ⟨rfl, Nat.le_refl _, ?_, ?_⟩
  · intro j hj
    by_cases hjk : j = k
    · subst hjk
      show Same _ (update s.group j g j)
      rw [update_self]
      exact hsame
    · show Same _ (update s.group k g j)
      rw [update_of_ne hjk]
      exact Same.refl _
  · intro j hj
    by_cases hjk : j = k
    · subst hjk
      show _ → Valid me (update s.group j g j)
      rw [update_self]
      exact hvalid
    · show _ → Valid me (update s.group k g j)
      rw [update_of_ne hjk]
      exact id

theorem grown_add (g : MpidGroup) : Grown me s (s.add g).1 := by
  have hold : ∀ k < s.count, (s.add g).1.group k = s.group k := by
    intro k hk
    exact update_of_ne (Nat.ne_of_lt hk) g s.group
  refine ⟨rfl, Nat.le_succ _, ?_, ?_⟩
  · intro k hk
    rw [hold k hk]
    exact Same.refl _
  · intro k hk hvalid
    rw [hold k hk]
    exact hvalid

def Listed (g : MpidGroup) : Prop := ∃ order, Ordered g.lpid 0 g.size g.nextLpid g.idxOfFirstLpid order

theorem setupAt_eq (h : Valid me (s.group k)) :
    ∃ s', setupAt s k = some s' ∧ Grown me s s' ∧ s'.count = s.count ∧ Listed (s'.group k) ∧
      ∀ j, Listed (s.group j) → Listed (s'.group j) := by
  obtain ⟨g, order, hsetup, hsame, hvalid, hordered⟩ := h.setup
  have hlisted : Listed g := ⟨order, hordered⟩
  refine ⟨s.set k g, ?_, grown_set hsame fun _ => hvalid, rfl, ?_, ?_⟩
  · unfold setupAt
    rw [hsetup]
    rfl
  · show Listed (update s.group k g k)
    rw [update_self]
    exact hlisted
  · intro j hj
    show Listed (update s.group k g j)
    by_cases hjk : j = k
    · rw [hjk, update_self]
      exact hlisted
    · rw [update_of_ne hjk]
      exact hj

theorem setupLpidPairs_eq (hk2 : h2 < s.count) (h : Valid me (s.group h1)) (h' : Valid me (s.group h2)) :
    ∃ s', setupLpidPairs s h1 h2 = some s' ∧ Grown me s s' ∧ s'.count = s.count ∧ Listed (s'.group h1) ∧
      Listed (s'.group h2) := by
  obtain ⟨s', hfirst, hgrown, hcount, hlisted, -⟩ := setupAt_eq h
  obtain ⟨s'', hsecond, hgrown', hcount', hlisted', hkept⟩ := setupAt_eq (hgrown.valid h2 hk2 h')
  refine ⟨s'', ?_, hgrown.trans hgrown', hcount'.trans hcount, hkept h1 hlisted, hlisted'⟩
  unfold setupLpidPairs
  rw [hfirst]
  exact hsecond

theorem setupAt_bare (h : NoArray (s.group k)) : setupAt s k = if (s.group k).size = 0 then some s else none := by
  by_cases hsize : (s.group k).size = 0
  · rw [setupAt, setupLpidList_empty h.idx hsize, if_pos hsize]
    show some (s.set k (s.group k)) = some s
    rw [GroupMem.set, update_eq_self]
  · rw [setupAt, h.setup hsize, if_neg hsize]
    rfl

theorem setupLpidPairs_bare (hb1 : NoArray (s.group h1)) (hb2 : NoArray (s.group h2)) :
    setupLpidPairs s h1 h2 = if (s.group h1).size = 0 ∧ (s.group h2).size = 0 then some s else none := by
  rw [setupLpidPairs, setupAt_bare hb1]
  by_cases hsize : (s.group h1).size = 0
  · rw [if_pos hsize]
    show setupAt s h2 = _
    rw [setupAt_bare hb2]
    simp only [hsize, true_and]
  · rw [if_neg hsize, if_neg fun hand => hsize hand.1]
    rfl

end Objects

end FgMpi.Group.Groups
