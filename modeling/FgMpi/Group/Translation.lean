import FgMpi.Group.SetOperations

/-! `MPIR_Group_translate_ranks_impl` (`mpi/group/group_translate_ranks.c`). -/

namespace FgMpi.Group.Translation
open Group.LpidOrder Group.Groups Group.SetOperations

/-- `g2_idx` and `l2_pid`. -/
structure Cursor where
  idx : Int
  l2pid : Int

section Functions
variable (g1 g2 : MpidGroup)

/-- "adjusted" lpid from g1; the id at rank 0 of g2 is the offset. -/
def fastStep (rank : Int) : Option Int :=
  if rank = mpiProcNull then some mpiProcNull
  else do
    let a ← element 0 g1.size rank
    let g1Lpid := g1.lpid a - g2.lpid 0
    some (if 0 ≤ g1Lpid ∧ g1Lpid < g2.size then g1Lpid else mpiUndefined)

/-- The fast path; `none` where the assertion fails, there is no array or an index is outside it. -/
def translateFast (ranks1 : List Int) : Option (List Int) :=
  if g2.readable = true ∧ 0 ≤ g2.lpid 0 then ranks1.mapM (fastStep g1 g2) else none

def cursorAt (idx : Int) : Option Cursor := do
  let b ← element 0 g2.size idx
  some ⟨idx, g2.lpid b⟩

/-- `while (g2_idx >= 0 && l1_pid > l2_pid)`. -/
def advance (l1Pid : Int) : Nat → Cursor → Option Cursor
  | 0, c => if 0 ≤ c.idx ∧ c.l2pid < l1Pid then none else some c
  | fuel + 1, c =>
    if 0 ≤ c.idx ∧ c.l2pid < l1Pid then do
      let b ← element 0 g2.size c.idx
      let c ← if 0 ≤ g2.nextLpid b then cursorAt g2 (g2.nextLpid b) else some ⟨g2.nextLpid b, -1⟩
      advance l1Pid fuel c
    else some c

def startFrom (l1Pid : Int) (c : Cursor) : Option Cursor :=
  if l1Pid < c.l2pid ∨ c.idx < 0 then cursorAt g2 g2.idxOfFirstLpid else some c

def slowStep (c : Cursor) (rank : Int) : Option (Int × Cursor) :=
  if rank = mpiProcNull then some (mpiProcNull, c)
  else do
    let a ← element 0 g1.size rank
    let l1Pid := g1.lpid a
    let c ← startFrom g2 l1Pid c
    let c ← advance g2 l1Pid g2.size c
    some (if l1Pid = c.l2pid then c.idx else mpiUndefined, c)

def slowLoop : Cursor → List Int → Option (List Int)
  | _, [] => some []
  | c, rank :: ranks1 => do
    let (rank2, c) ← slowStep g1 g2 c rank
    let ranks2 ← slowLoop c ranks1
    some (rank2 :: ranks2)

def translateSlow (ranks1 : List Int) : Option (List Int) :=
  if 0 ≤ g2.idxOfFirstLpid then do
    let c ← cursorAt g2 g2.idxOfFirstLpid
    slowLoop g1 g2 c ranks1
  else some (ranks1.map fun _ => mpiUndefined)

end Functions

section Paths
variable (s : GroupMem) (h1 : Nat) (ranks1 : List Int) (h2 : Nat)

def fastPath : Option (GroupMem × List Int) := do
  let ranks2 ← translateFast (s.group h1) (s.group h2) ranks1
  some (s, ranks2)

def setupMissing : Option GroupMem := if (s.group h2).idxOfFirstLpid < 0 then setupAt s h2 else some s

def slowPath : Option (GroupMem × List Int) := do
  let s ← setupMissing s h2
  let ranks2 ← translateSlow (s.group h1) (s.group h2) ranks1
  some (s, ranks2)

/-- `MPIR_Group_translate_ranks_impl`. -/
def translateRanks : Option (GroupMem × List Int) :=
  if 0 < (s.group h2).size ∧ (s.group h2).isLocalDenseMonotonic = true then fastPath s h1 ranks1 h2
  else slowPath s h1 ranks1 h2

end Paths

def translated (g1 g2 : MpidGroup) (rank : Int) : Int :=
  if rank = mpiProcNull then mpiProcNull else rankIn g2.members (g1.lpid rank.toNat)

def RanksOf (g : MpidGroup) (ranks1 : List Int) : Prop :=
  ∀ rank ∈ ranks1, rank = mpiProcNull ∨ (0 ≤ rank ∧ rank < g.size)

section Ranks
variable {me p : Int} {g g1 g2 : MpidGroup} {i : Nat} {rank : Int}

theorem rankIn_lpid (hg : Valid me g) (hi : i < g.size) : rankIn g.members (g.lpid i) = i := by
  have hi' : i < g.members.length := by
    rw [length_members]
    exact hi
  have hmem : g.lpid i ∈ g.members := mem_members.mpr ⟨i, hi, rfl⟩
  unfold rankIn
  rw [if_pos hmem, ← getElem_members hi', hg.distinct.idxOf_getElem]

theorem rankIn_of_notMem (hp : p ∉ g.members) : rankIn g.members p = mpiUndefined := if_neg hp

theorem element_of_rank (hrank : rank ≠ mpiProcNull) (h : rank = mpiProcNull ∨ (0 ≤ rank ∧ rank < g.size)) :
    element 0 g.size rank = some rank.toNat ∧ rank.toNat < g.size := by
  have hin := h.resolve_left hrank
  refine ⟨?_, by omega⟩
  unfold element
  rw [if_pos hin, Nat.zero_add]

theorem translated_of_rank (hrank : rank ≠ mpiProcNull) :
    translated g1 g2 rank = rankIn g2.members (g1.lpid rank.toNat) := if_neg hrank

theorem fastStep_eq (hg2 : Valid me g2) (hdense : g2.isLocalDenseMonotonic = true)
    (h : rank = mpiProcNull ∨ (0 ≤ rank ∧ rank < g1.size)) :
    fastStep g1 g2 rank = some (translated g1 g2 rank) := by
  unfold fastStep
  by_cases hnull : rank = mpiProcNull
  · rw [if_pos hnull]
    unfold translated
    rw [if_pos hnull]
  · obtain ⟨helement, -⟩ := element_of_rank hnull h
    rw [if_neg hnull, translated_of_rank hnull, helement]
    simp only [Option.bind_eq_bind, Option.bind_some]
    have hconsecutive := hg2.dense hdense
    by_cases hin : 0 ≤ g1.lpid rank.toNat - g2.lpid 0 ∧ g1.lpid rank.toNat - g2.lpid 0 < g2.size
    · rw [if_pos hin]
      have hlt : (g1.lpid rank.toNat - g2.lpid 0).toNat < g2.size := by omega
      have hlpid : g2.lpid (g1.lpid rank.toNat - g2.lpid 0).toNat = g1.lpid rank.toNat := by
        rw [hconsecutive _ hlt]
        omega
      rw [← hlpid, rankIn_lpid hg2 hlt, hlpid]
      congr 1
      omega
    · rw [if_neg hin, rankIn_of_notMem]
      intro hmem
      obtain ⟨j, hj, hlpid⟩ := mem_members.mp hmem
      have hshift := hconsecutive j hj
      omega

theorem translateFast_eq {ranks1 : List Int} (hg2 : Valid me g2) (hsize : 0 < g2.size)
    (hdense : g2.isLocalDenseMonotonic = true) (hranks : RanksOf g1 ranks1) :
    translateFast g1 g2 ranks1 = some (ranks1.map (translated g1 g2)) := by
  have hoffset : 0 ≤ g2.lpid 0 := hg2.nonneg _ (mem_members.mpr ⟨0, hsize, rfl⟩)
  unfold translateFast
  rw [if_pos ⟨hg2.readable, hoffset⟩]
  induction ranks1 with
  | nil => rfl
  | cons rank ranks1 ih =>
    obtain ⟨hrank, hrest⟩ := List.forall_mem_cons.mp hranks
    rw [List.mapM_cons, fastStep_eq hg2 hdense hrank, ih hrest]
    rfl

end Ranks

section Cursors
variable {me l1Pid : Int} {g1 g2 : MpidGroup} {c : Cursor} {before behind order : List Nat} {fuel : Nat} {rank : Int}

/-- The cursor is between two parts of the list; at the end its id is `-1`. -/
structure Between (g : MpidGroup) (order before behind : List Nat) (c : Cursor) : Prop where
  parts : order = before ++ behind
  rest : Rest g c.idx behind
  l2pid : c.l2pid = behind.head?.elim (-1) g.lpid

abbrev OrderOf (g : MpidGroup) (order : List Nat) : Prop := Ordered g.lpid 0 g.size g.nextLpid g.idxOfFirstLpid order

theorem cursorAt_eq {x : Nat} {l : List Nat} {idx : Int} (hrest : Rest g2 idx (x :: l)) :
    cursorAt g2 idx = some ⟨idx, g2.lpid x⟩ := by
  unfold cursorAt
  rw [hrest.element]
  rfl

theorem cursorAt_first (horder : OrderOf g2 order) (hne : order ≠ []) :
    ∃ c, cursorAt g2 g2.idxOfFirstLpid = some c ∧ Between g2 order [] order c := by
  have hrest := rest_of_ordered horder
  cases order with
  | nil => exact absurd rfl hne
  | cons x l => exact ⟨_, cursorAt_eq hrest, rfl, hrest, rfl⟩

theorem advance_eq (hbetween : Between g2 order before behind c) (hsmaller : ∀ x ∈ before, g2.lpid x < l1Pid)
    (hfuel : behind.length ≤ fuel) :
    ∃ c' before' behind', advance g2 l1Pid fuel c = some c' ∧ Between g2 order before' behind' c' ∧
      (∀ x ∈ before', g2.lpid x < l1Pid) ∧ ∀ x ∈ behind', l1Pid ≤ g2.lpid x := by
  induction behind generalizing before c fuel with
  | nil =>
    have hstop : ¬ (0 ≤ c.idx ∧ c.l2pid < l1Pid) := fun h => hbetween.rest.neg h.1
    refine ⟨c, before, [], ?_, hbetween, hsmaller, fun x hx => absurd hx List.not_mem_nil⟩
    cases fuel <;> exact if_neg hstop
  | cons b behind ih =>
    have hl2pid : c.l2pid = g2.lpid b := hbetween.l2pid
    by_cases hlt : g2.lpid b < l1Pid
    · cases fuel with
      | zero => exact absurd hfuel (by simp)
      | succ fuel =>
        unfold advance
        rw [if_pos ⟨hbetween.rest.nonneg, hl2pid ▸ hlt⟩, hbetween.rest.element]
        simp only [Option.bind_eq_bind, Option.bind_some]
        have htail := hbetween.rest.tail
        have hparts : order = before ++ [b] ++ behind := by
          rw [hbetween.parts]
          simp
        have hsmaller' : ∀ x ∈ before ++ [b], g2.lpid x < l1Pid := by
          intro x hx
          rcases List.mem_append.mp hx with hx | hx
          · exact hsmaller x hx
          · rw [List.mem_singleton.mp hx]
            exact hlt
        have hlength := Nat.le_of_succ_le_succ hfuel
        cases behind with
        | nil =>
          rw [if_neg htail.neg]
          exact ih ⟨hparts, htail, rfl⟩ hsmaller' hlength
        | cons x l =>
          rw [if_pos htail.nonneg, cursorAt_eq htail]
          exact ih ⟨hparts, htail, rfl⟩ hsmaller' hlength
    · refine ⟨c, before, b :: behind, ?_, hbetween, hsmaller, ?_⟩
      · have hstop : ¬ (0 ≤ c.idx ∧ c.l2pid < l1Pid) := fun h => hlt (hl2pid ▸ h.2)
        cases fuel <;> exact if_neg hstop
      · intro x hx
        rcases List.mem_cons.mp hx with rfl | hx
        · omega
        · have hsorted := hbetween.rest.lt hx
          omega

theorem rankIn_of_between (hg2 : Valid me g2) (horder : OrderOf g2 order) (hbetween : Between g2 order before behind c)
    (hsmaller : ∀ x ∈ before, g2.lpid x < l1Pid) (hnot : ∀ x ∈ behind, l1Pid ≤ g2.lpid x) (hnonneg : 0 ≤ l1Pid) :
    (if l1Pid = c.l2pid then c.idx else mpiUndefined) = rankIn g2.members l1Pid := by
  have habsent : (∀ x ∈ behind, g2.lpid x ≠ l1Pid) → l1Pid ∉ g2.members := by
    intro hne hmem
    obtain ⟨x, hx, hlpid⟩ := mem_ids.mp ((mem_ids_ordered horder).mpr hmem)
    rw [hbetween.parts, List.mem_append] at hx
    rcases hx with hx | hx
    · have hlt := hsmaller x hx
      omega
    · exact hne x hx hlpid
  cases behind with
  | nil =>
    have hend : c.l2pid = -1 := hbetween.l2pid
    rw [if_neg (by omega), rankIn_of_notMem (habsent fun x hx => absurd hx List.not_mem_nil)]
  | cons b behind =>
    have hl2pid : c.l2pid = g2.lpid b := hbetween.l2pid
    by_cases heq : l1Pid = g2.lpid b
    · have hb := hbetween.rest.inside b List.mem_cons_self
      rw [hl2pid, if_pos heq, heq, rankIn_lpid hg2 hb, hbetween.rest.linked.2.1]
      simp
    · rw [hl2pid, if_neg heq, rankIn_of_notMem]
      apply habsent
      intro x hx hlpid
      rcases List.mem_cons.mp hx with rfl | hx
      · exact heq hlpid.symm
      · have hsorted := hbetween.rest.lt hx
        have hle := hnot b List.mem_cons_self
        omega

section
variable (hg1 : Valid me g1) (hg2 : Valid me g2) (horder : OrderOf g2 order)
include hg1 hg2 horder

theorem slowStep_eq (hne : order ≠ [])
    (hbetween : Between g2 order before behind c) (h : rank = mpiProcNull ∨ (0 ≤ rank ∧ rank < g1.size)) :
    ∃ c' before' behind', slowStep g1 g2 c rank = some (translated g1 g2 rank, c') ∧
      Between g2 order before' behind' c' := by
  unfold slowStep
  by_cases hnull : rank = mpiProcNull
  · rw [if_pos hnull]
    refine ⟨c, before, behind, ?_, hbetween⟩
    unfold translated
    rw [if_pos hnull]
  · obtain ⟨helement, hlt⟩ := element_of_rank hnull h
    have hnonneg : 0 ≤ g1.lpid rank.toNat := hg1.nonneg _ (mem_members.mpr ⟨rank.toNat, hlt, rfl⟩)
    rw [if_neg hnull, helement, translated_of_rank hnull]
    simp only [Option.bind_eq_bind, Option.bind_some]
    have hstart : ∃ c' before' behind',
        startFrom g2 (g1.lpid rank.toNat) c = some c' ∧ Between g2 order before' behind' c' ∧
        ∀ x ∈ before', g2.lpid x < g1.lpid rank.toNat := by
      unfold startFrom
      by_cases hover : g1.lpid rank.toNat < c.l2pid ∨ c.idx < 0
      · obtain ⟨c', hfirst, hbetween'⟩ := cursorAt_first horder hne
        rw [if_pos hover]
        exact ⟨c', [], order, hfirst, hbetween', fun x hx => absurd hx List.not_mem_nil⟩
      · rw [if_neg hover]
        refine ⟨c, before, behind, rfl, hbetween, ?_⟩
        obtain ⟨hle, hidx⟩ := not_or.mp hover
        intro x hx
        cases behind with
        | nil => exact absurd (by omega) hbetween.rest.neg
        | cons b behind =>
          have hl2pid : c.l2pid = g2.lpid b := hbetween.l2pid
          have hsorted := horder.sorted
          rw [hbetween.parts, List.pairwise_append] at hsorted
          have hless := hsorted.2.2 x hx b List.mem_cons_self
          omega
    obtain ⟨c', before', behind', hrun, hbetween', hsmaller⟩ := hstart
    have hfuel : behind'.length ≤ g2.size := by
      have hlength := horder.length
      rw [hbetween'.parts, List.length_append] at hlength
      omega
    obtain ⟨c'', before'', behind'', hadvance, hbetween'', hsmaller'', hnot⟩ := advance_eq hbetween' hsmaller hfuel
    rw [hrun]
    simp only [Option.bind_some]
    rw [hadvance]
    simp only [Option.bind_some]
    rw [rankIn_of_between hg2 horder hbetween'' hsmaller'' hnot hnonneg]
    exact ⟨c'', before'', behind'', rfl, hbetween''⟩

theorem slowLoop_eq {ranks1 : List Int}
    (hne : order ≠ []) (hbetween : Between g2 order before behind c) (hranks : RanksOf g1 ranks1) :
    slowLoop g1 g2 c ranks1 = some (ranks1.map (translated g1 g2)) := by
  induction ranks1 generalizing c before behind with
  | nil => rfl
  | cons rank ranks1 ih =>
    obtain ⟨hrank, hrest⟩ := List.forall_mem_cons.mp hranks
    obtain ⟨c', before', behind', hstep, hbetween'⟩ := slowStep_eq hg1 hg2 horder hne hbetween hrank
    unfold slowLoop
    rw [hstep]
    simp only [Option.bind_eq_bind, Option.bind_some]
    rw [ih hbetween' hrest]
    rfl

theorem translateSlow_eq {ranks1 : List Int}
    (hranks : RanksOf g1 ranks1) :
    translateSlow g1 g2 ranks1 = some (if 0 < g2.size then ranks1.map (translated g1 g2)
      else ranks1.map fun _ => mpiUndefined) := by
  have hlength := horder.length
  have hrest := rest_of_ordered horder
  unfold translateSlow
  by_cases hsize : 0 < g2.size
  · have hne : order ≠ [] := List.ne_nil_of_length_pos (by omega)
    obtain ⟨c, hfirst, hbetween⟩ := cursorAt_first horder hne
    rw [if_pos (hrest.linked.nonneg_iff.mpr hne), if_pos hsize, hfirst]
    simp only [Option.bind_eq_bind, Option.bind_some]
    exact slowLoop_eq hg1 hg2 horder hne hbetween hranks
  · obtain rfl : order = [] := List.eq_nil_of_length_eq_zero (by omega)
    rw [if_neg hrest.neg, if_neg hsize]

end

end Cursors

section Translating
variable {me : Int} {s : GroupMem} {h1 h2 : Nat} {ranks1 : List Int}

theorem translated_congr {g1 g1' g2 g2' : MpidGroup} (h1 : Same g1 g1') (h2 : Same g2 g2') :
    translated g1' g2' = translated g1 g2 := by
  unfold translated
  rw [h1.lpid, h2.members]

theorem slowPath_eq (hk1 : h1 < s.count) (hk2 : h2 < s.count) (hv1 : Valid me (s.group h1))
    (hv2 : Valid me (s.group h2)) (hranks : RanksOf (s.group h1) ranks1) :
    ∃ s', Grown me s s' ∧ slowPath s h1 ranks1 h2 =
      some (s', if 0 < (s.group h2).size then ranks1.map (translated (s.group h1) (s.group h2))
        else ranks1.map fun _ => mpiUndefined) := by
  have hsetup : ∃ s', setupMissing s h2 = some s' ∧ Grown me s s' ∧ Listed (s'.group h2) := by
    unfold setupMissing
    by_cases hidx : (s.group h2).idxOfFirstLpid < 0
    · obtain ⟨s', hrun, hgrown, -, hlisted, -⟩ := setupAt_eq hv2
      rw [if_pos hidx]
      exact ⟨s', hrun, hgrown, hlisted⟩
    · rw [if_neg hidx]
      exact ⟨s, rfl, Grown.refl s, hv2.lpidList.resolve_left (by omega)⟩
  obtain ⟨s', hrun, hgrown, order, horder⟩ := hsetup
  have hsame1 := hgrown.same h1 hk1
  have hsame2 := hgrown.same h2 hk2
  have hranks' : RanksOf (s'.group h1) ranks1 := by
    unfold RanksOf
    rw [hsame1.size]
    exact hranks
  refine ⟨s', hgrown, ?_⟩
  unfold slowPath
  rw [hrun]
  simp only [Option.bind_eq_bind, Option.bind_some]
  rw [translateSlow_eq (hgrown.valid h1 hk1 hv1) (hgrown.valid h2 hk2 hv2) horder hranks', hsame2.size,
    translated_congr hsame1 hsame2]
  rfl

theorem fastPath_eq (hv2 : Valid me (s.group h2)) (hsize : 0 < (s.group h2).size)
    (hdense : (s.group h2).isLocalDenseMonotonic = true) (hranks : RanksOf (s.group h1) ranks1) :
    fastPath s h1 ranks1 h2 = some (s, ranks1.map (translated (s.group h1) (s.group h2))) := by
  unfold fastPath
  rw [translateFast_eq hv2 hsize hdense hranks]
  rfl

/-- The ranks are those of the processes, and the two paths give the same ranks where the ids are consecutive. -/
def TranslatesRight (s : GroupMem) (h1 : Nat) (ranks1 : List Int) (h2 : Nat) : Prop :=
  (∃ s', translateRanks s h1 ranks1 h2 = some (s', ranks1.map (translated (s.group h1) (s.group h2)))) ∧
    (0 < (s.group h2).size → (s.group h2).isLocalDenseMonotonic = true →
      ∃ s' ranks2, slowPath s h1 ranks1 h2 = some (s', ranks2) ∧ fastPath s h1 ranks1 h2 = some (s, ranks2))

theorem translateRanks_eq (hk1 : h1 < s.count) (hk2 : h2 < s.count) (hv1 : Valid me (s.group h1))
    (hv2 : Valid me (s.group h2)) (hranks : RanksOf (s.group h1) ranks1) :
    ∃ s', Grown me s s' ∧ translateRanks s h1 ranks1 h2 =
      some (s', if 0 < (s.group h2).size then ranks1.map (translated (s.group h1) (s.group h2))
        else ranks1.map fun _ => mpiUndefined) := by
  unfold translateRanks
  by_cases hfast : 0 < (s.group h2).size ∧ (s.group h2).isLocalDenseMonotonic = true
  · rw [if_pos hfast, if_pos hfast.1]
    exact ⟨s, Grown.refl s, fastPath_eq hv2 hfast.1 hfast.2 hranks⟩
  · rw [if_neg hfast]
    exact slowPath_eq hk1 hk2 hv1 hv2 hranks

theorem translated_empty (g1 : MpidGroup) {g2 : MpidGroup} (hsize : ¬ 0 < g2.size) :
    ranks1.map (translated g1 g2) = (ranks1.map fun _ => mpiUndefined) ↔ mpiProcNull ∉ ranks1 := by
  have hmembers : g2.members = [] := List.eq_nil_of_length_eq_zero (by rw [length_members]; omega)
  rw [List.map_inj_left]
  constructor
  · intro hall hmem
    have hnull := hall mpiProcNull hmem
    unfold translated at hnull
    rw [if_pos rfl] at hnull
    exact absurd hnull (by decide)
  · intro hnot rank hrank
    have hne : rank ≠ mpiProcNull := ne_of_mem_of_not_mem hrank hnot
    rw [translated_of_rank hne, hmembers]
    rfl

theorem translatesRight_iff (hk1 : h1 < s.count) (hk2 : h2 < s.count) (hv1 : Valid me (s.group h1))
    (hv2 : Valid me (s.group h2)) (hranks : RanksOf (s.group h1) ranks1) :
    TranslatesRight s h1 ranks1 h2 ↔ 0 < (s.group h2).size ∨ mpiProcNull ∉ ranks1 := by
  obtain ⟨s', hgrown, hrun⟩ := translateRanks_eq hk1 hk2 hv1 hv2 hranks
  unfold TranslatesRight
  rw [hrun]
  by_cases hsize : 0 < (s.group h2).size
  · rw [if_pos hsize]
    refine iff_of_true ⟨⟨s', rfl⟩, ?_⟩ (.inl hsize)
    intro _ hdense
    obtain ⟨t, -, hslow⟩ := slowPath_eq hk1 hk2 hv1 hv2 hranks
    rw [if_pos hsize] at hslow
    exact ⟨t, _, hslow, fastPath_eq hv2 hsize hdense hranks⟩
  · rw [if_neg hsize]
    constructor
    · rintro ⟨⟨t, heq⟩, -⟩
      exact .inr ((translated_empty _ hsize).mp (Prod.mk.inj (Option.some.inj heq)).2.symm)
    · rintro (h | hnot)
      · exact absurd h hsize
      · rw [(translated_empty _ hsize).mpr hnot]
        exact ⟨⟨s', rfl⟩, fun h => absurd h hsize⟩

theorem translatesRight_bare (hbare : NoArray (s.group h2)) :
    TranslatesRight s h1 ranks1 h2 ↔ (s.group h2).size = 0 ∧ mpiProcNull ∉ ranks1 := by
  have hmissing : setupMissing s h2 = setupAt s h2 := if_pos (by rw [hbare.idx]; decide)
  by_cases hsize : (s.group h2).size = 0
  · have hslow : translateRanks s h1 ranks1 h2 = some (s, ranks1.map fun _ => mpiUndefined) := by
      rw [translateRanks, if_neg fun hfast => absurd hsize (Nat.ne_of_gt hfast.1), slowPath, hmissing,
        setupAt_bare hbare, if_pos hsize]
      show (translateSlow (s.group h1) (s.group h2) ranks1).bind _ = _
      rw [translateSlow, if_neg (by rw [hbare.idx]; decide)]
      rfl
    have hempty : ¬ 0 < (s.group h2).size := by omega
    unfold TranslatesRight
    rw [hslow, ← translated_empty (s.group h1) hempty, and_iff_right hsize]
    constructor
    · rintro ⟨⟨s', heq⟩, -⟩
      exact (Prod.mk.inj (Option.some.inj heq)).2.symm
    · intro heq
      rw [heq]
      exact ⟨⟨s, rfl⟩, fun hpos => absurd hpos hempty⟩
  · refine iff_of_false ?_ fun hand => hsize hand.1
    rintro ⟨⟨s', hrun⟩, -⟩
    unfold translateRanks at hrun
    split at hrun
    · rw [fastPath, translateFast, hbare.readable hsize, if_neg fun hand => Bool.false_ne_true hand.1] at hrun
      exact nomatch hrun
    · rw [slowPath, hmissing, setupAt_bare hbare, if_neg hsize] at hrun
      exact nomatch hrun

end Translating

end FgMpi.Group.Translation
