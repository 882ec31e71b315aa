import FgMpi.Handles.Allocator

namespace FgMpi.Handles.Soundness
open Machine.Ints Machine.LinkedQueue Machine.Runs Handles.Allocator

/-- An object in use is its owner's, whose data lies over `next`. -/
inductive Op
  | alloc (table block : Bool)
  | free (obj : Ptr)
  | write (obj : Ptr) (next : Option Ptr)
deriving Repr, DecidableEq

inductive Fault
  | notLive
deriving Repr, DecidableEq

structure State where
  mem : ObjMem
  live : List Ptr

def start (objects : Ptr → Common) : State := ⟨⟨none, false, none, objects, 0⟩, []⟩

def step (pool : Pool) (s : State) : Op → Except Fault State
  | .alloc table block =>
    match handleObjAllocUnsafe pool s.mem table block with
    | (m, some ptr) => .ok ⟨m, ptr :: s.live⟩
    | (m, none) => .ok ⟨m, s.live⟩
  | .free obj =>
    if obj ∈ s.live then .ok ⟨handleObjFree s.mem obj, s.live.erase obj⟩ else .error .notLive
  | .write obj next =>
    if obj ∈ s.live then
      .ok { s with
        mem.objects := Function.update s.mem.objects obj { s.mem.objects obj with next := next } }
    else .error .notLive

def Initialised (pool : Pool) (m : ObjMem) (p : Ptr) : Prop :=
  (m.initialized = true ∧ ∃ i < pool.directSize, p = objectAt pool .direct i) ∨
    ∃ blockPtr ∈ m.indirect.getD [], ∃ i < handleNumIndices, p = blockPtr.add (i * pool.size)

def Apart (size : Nat) (p q : Ptr) : Prop :=
  p.region = q.region → p.offset + size ≤ q.offset ∨ q.offset + size ≤ p.offset

def ObjNext (m : ObjMem) (p : Ptr) : Option Ptr := (m.objects p).next

/-- Live objects do not overlap, their handles tell them apart and lead back to them, and every
other object is on the avail list once. -/
structure Sound (pool : Pool) (s : State) : Prop where
  distinct : s.live.Nodup
  initialised : ∀ p ∈ s.live, Initialised pool s.mem p
  apart : ∀ p ∈ s.live, ∀ q ∈ s.live, p ≠ q → Apart pool.size p q
  handles : ∀ p ∈ s.live, ∀ q ∈ s.live, (s.mem.objects p).handle = (s.mem.objects q).handle → p = q
  kind : ∀ p ∈ s.live, handleGetMpiKind (s.mem.objects p).handle = pool.kind.value
  mapped : ∀ p ∈ s.live, getPtr pool s.mem (s.mem.objects p).handle = some p
  avail : ∃ l, Chain (ObjNext s.mem) s.mem.avail l ∧ l.Nodup ∧
    ∀ p, p ∈ l ↔ Initialised pool s.mem p ∧ p ∉ s.live

def Placed (pool : Pool) (m : ObjMem) (p : Ptr) : Prop :=
  (m.initialized = true ∧ ∃ i < pool.directSize, p = objectAt pool .direct i) ∨
    ∃ n < m.calloced, ∃ i < handleNumIndices, p = objectAt pool (.block n) i

structure Inv (pool : Pool) (s : State) : Prop where
  table : s.mem.indirect.getD [] = (List.range s.mem.calloced).map fun n => ⟨.block n, 0⟩
  blocks : s.mem.calloced ≤ handleNumBlocks
  unset : s.mem.initialized = false → s.mem.avail = none ∧ s.mem.calloced = 0
  direct : s.mem.initialized = true → ∀ i < pool.directSize,
    (s.mem.objects (objectAt pool .direct i)).handle = directHandle pool.kind i
  indirect : ∀ n < s.mem.calloced, ∀ i < handleNumIndices,
    (s.mem.objects (objectAt pool (.block n) i)).handle = indirectHandle pool.kind n i
  distinct : s.live.Nodup
  placed : ∀ p ∈ s.live, Placed pool s.mem p
  avail : ∃ l, Chain (ObjNext s.mem) s.mem.avail l ∧ l.Nodup ∧
    ∀ p, p ∈ l ↔ Placed pool s.mem p ∧ p ∉ s.live

section Invariant
variable {pool : Pool} {s s' : State} {p : Ptr}

theorem initialised_iff (h : Inv pool s) : Initialised pool s.mem p ↔ Placed pool s.mem p := by
  unfold Initialised Placed
  rw [h.table]
  apply or_congr_right
  simp only [List.mem_map, List.mem_range]
  constructor
  · rintro ⟨_, ⟨n, hn, rfl⟩, i, hi, rfl⟩
    exact ⟨n, hn, i, hi, by simp [objectAt, Ptr.add]⟩
  · rintro ⟨n, hn, i, hi, rfl⟩
    exact ⟨_, ⟨n, hn, rfl⟩, i, hi, by simp [objectAt, Ptr.add]⟩

theorem inv_start (pool : Pool) (objects : Ptr → Common) : Inv pool (start objects) where
  table := rfl
  blocks := Nat.zero_le _
  unset _ := ⟨rfl, rfl⟩
  direct h := absurd h Bool.false_ne_true
  indirect n hn := absurd hn (Nat.not_lt_zero n)
  distinct := List.nodup_nil
  placed p hp := absurd hp List.not_mem_nil
  avail := by
    refine ⟨[], rfl, List.nodup_nil, fun p => ?_⟩
    simp [Placed, start]

variable {n i : Nat}

theorem initObjects_chain (pool : Pool) (r : Region) (handle : Nat → Handle) (objects : Ptr → Common)
    (k j : Nat) (hk : j + k = n) :
    Chain (fun p => (initObjects pool handle n ⟨r, 0⟩ objects p).next)
      (if j < n then some (objectAt pool r j) else none)
      ((List.range' j k).map (objectAt pool r)) := by
  induction k generalizing j with
  | zero =>
    rw [if_neg (by omega)]
    rfl
  | succ k ih =>
    have hj : j < n := by omega
    rw [if_pos hj]
    refine ⟨rfl, ?_⟩
    show Chain _ (initObjects pool handle n ⟨r, 0⟩ objects (objectAt pool r j)).next _
    rw [initObjects_get pool r handle objects hj]
    exact ih (j + 1) (by omega)

theorem inv_take (h : Inv pool s) (hp : s.mem.avail = some p) :
    Inv pool ⟨{ s.mem with avail := (s.mem.objects p).next }, p :: s.live⟩ := by
  obtain ⟨l, hchain, hnodup, hmem⟩ := h.avail
  cases l with
  | nil => rw [chain_nil, hp] at hchain; cases hchain
  | cons q l =>
    obtain ⟨hq, hrest⟩ := hchain
    have hpq : p = q := Option.some.inj (hp.symm.trans hq)
    subst hpq
    obtain ⟨hnot, hl⟩ := List.nodup_cons.mp hnodup
    obtain ⟨hplaced, hfree⟩ := (hmem p).mp List.mem_cons_self
    refine ⟨h.table, h.blocks, ?_, h.direct, h.indirect, List.nodup_cons.mpr ⟨hfree, h.distinct⟩,
      ?_, l, hrest, hl, ?_⟩
    · intro hunset
      rw [(h.unset hunset).1] at hp
      cases hp
    · intro q hq
      rcases List.mem_cons.mp hq with rfl | hq
      · exact hplaced
      · exact h.placed q hq
    · intro q
      rw [List.mem_cons, not_or]
      constructor
      · intro hq
        obtain ⟨hqp, hql⟩ := (hmem q).mp (List.mem_cons_of_mem p hq)
        exact ⟨hqp, ne_of_mem_of_not_mem hq hnot, hql⟩
      · intro ⟨hqp, hne, hql⟩
        exact List.mem_of_ne_of_mem hne ((hmem q).mpr ⟨hqp, hql⟩)

theorem inv_free (h : Inv pool s) (hp : p ∈ s.live) : Inv pool ⟨handleObjFree s.mem p, s.live.erase p⟩ := by
  obtain ⟨l, hchain, hnodup, hmem⟩ := h.avail
  have hhandle : ∀ q, ((handleObjFree s.mem p).objects q).handle = (s.mem.objects q).handle := by
    intro q
    unfold handleObjFree
    by_cases hq : q = p
    · subst hq
      simp only [Function.update_self]
    · simp only [Function.update_of_ne hq]
  have hpl : p ∉ l := fun hl => ((hmem p).mp hl).2 hp
  refine ⟨h.table, h.blocks, ?_, ?_, ?_, h.distinct.erase p, ?_, p :: l, ⟨rfl, ?_⟩,
    List.nodup_cons.mpr ⟨hpl, hnodup⟩, ?_⟩
  · intro hunset
    rcases h.placed p hp with hdirect | ⟨n, hn, _⟩
    · exact absurd (hdirect.1.symm.trans hunset) nofun
    · rw [(h.unset hunset).2] at hn
      exact absurd hn (Nat.not_lt_zero n)
  · intro hset i hi
    rw [hhandle]
    exact h.direct hset i hi
  · intro n hn i hi
    rw [hhandle]
    exact h.indirect n hn i hi
  · exact fun q hq => h.placed q (List.mem_of_mem_erase hq)
  · have hnext : ObjNext (handleObjFree s.mem p) p = s.mem.avail := by
      simp only [ObjNext, handleObjFree, Function.update_self]
    rw [hnext]
    apply hchain.congr
    intro q hq
    have hne : q ≠ p := ne_of_mem_of_not_mem hq hpl
    simp only [ObjNext, handleObjFree, Function.update_of_ne hne]
  · intro q
    rw [List.mem_cons, h.distinct.mem_erase_iff, hmem]
    by_cases hq : q = p
    · subst hq
      exact iff_of_true (.inl rfl) ⟨h.placed q hp, fun hne => hne.1 rfl⟩
    · simp only [hq, false_or, ne_eq, not_false_eq_true, true_and]
      rfl

theorem inv_write (h : Inv pool s) (hp : p ∈ s.live) (next : Option Ptr) :
    Inv pool { s with
      mem.objects := Function.update s.mem.objects p { s.mem.objects p with next := next } } := by
  obtain ⟨l, hchain, hnodup, hmem⟩ := h.avail
  have hhandle : ∀ q, (Function.update s.mem.objects p
      { s.mem.objects p with next := next } q).handle = (s.mem.objects q).handle := by
    intro q
    by_cases hq : q = p
    · subst hq
      rw [Function.update_self]
    · rw [Function.update_of_ne hq]
  refine ⟨h.table, h.blocks, h.unset, ?_, ?_, h.distinct, h.placed, l, ?_, hnodup, hmem⟩
  · intro hset i hi
    exact (hhandle _).trans (h.direct hset i hi)
  · intro n hn i hi
    exact (hhandle _).trans (h.indirect n hn i hi)
  · apply hchain.congr
    intro q hq
    have hne : q ≠ p := fun heq => ((hmem q).mp hq).2 (heq ▸ hp)
    simp only [ObjNext, Function.update_of_ne hne]

variable {m : ObjMem}

theorem grow_avail (h : Inv pool s) (hnone : s.mem.avail = none) {r : Region}
    (handle : Nat → Handle) (hn : 0 < n)
    (hobjects : m.objects = initObjects pool handle n ⟨r, 0⟩ s.mem.objects)
    (havail : m.avail = (m.objects ⟨r, 0⟩).next)
    (hplaced : ∀ p, Placed pool m p ↔ Placed pool s.mem p ∨ ∃ i < n, p = objectAt pool r i)
    (hfresh : ∀ i < n, ¬ Placed pool s.mem (objectAt pool r i)) :
    (⟨r, 0⟩ :: s.live).Nodup ∧ (∀ p ∈ ⟨r, 0⟩ :: s.live, Placed pool m p) ∧
      ∃ l, Chain (ObjNext m) m.avail l ∧ l.Nodup ∧
        ∀ p, p ∈ l ↔ Placed pool m p ∧ p ∉ ⟨r, 0⟩ :: s.live := by
  obtain ⟨l, hchain, -, hmem⟩ := h.avail
  rw [hnone] at hchain
  have hl : l = [] := by
    cases l with
    | nil => rfl
    | cons q l => exact absurd hchain.1 nofun
  subst hl
  have hlive : ∀ p, Placed pool s.mem p → p ∈ s.live := by
    intro p hp
    by_contra hnot
    exact absurd ((hmem p).mpr ⟨hp, hnot⟩) List.not_mem_nil
  have hfirst : (⟨r, 0⟩ : Ptr) = objectAt pool r 0 := (objectAt_zero pool r).symm
  rw [hfirst] at havail ⊢
  refine ⟨List.nodup_cons.mpr ⟨fun hl => hfresh 0 hn (h.placed _ hl), h.distinct⟩, ?_,
    (List.range' 1 (n - 1)).map (objectAt pool r), ?_, ?_, ?_⟩
  · intro p hp
    rw [hplaced]
    rcases List.mem_cons.mp hp with rfl | hp
    · exact .inr ⟨0, hn, rfl⟩
    · exact .inl (h.placed p hp)
  · have hlinks := initObjects_chain pool r handle s.mem.objects (n - 1) 1
      (show 1 + (n - 1) = n by omega)
    have hget := initObjects_get pool r handle s.mem.objects hn
    rw [hobjects, hget] at havail
    rw [havail]
    unfold ObjNext
    rw [hobjects]
    exact hlinks
  · exact (List.nodup_range').map fun i j => objectAt_inj pool r
  · intro p
    rw [hplaced, List.mem_map, List.mem_cons, not_or]
    constructor
    · rintro ⟨i, hi, rfl⟩
      rw [List.mem_range'_1] at hi
      have hin : i < n := by omega
      refine ⟨.inr ⟨i, hin, rfl⟩, fun heq => ?_, fun hl => hfresh i hin (h.placed _ hl)⟩
      have hzero := objectAt_inj pool r heq
      omega
    · rintro ⟨hp | ⟨i, hi, rfl⟩, hne, hnot⟩
      · exact absurd (hlive p hp) hnot
      · refine ⟨i, List.mem_range'_1.mpr ?_, rfl⟩
        have hzero : i ≠ 0 := fun hz => hne (by rw [hz])
        omega

theorem placed_direct (i : Nat) (hi : i < pool.directSize) (hset : m.initialized = true) :
    Placed pool m (objectAt pool .direct i) := .inl ⟨hset, i, hi, rfl⟩

theorem other_region {r r' : Region} (hr : r' ≠ r) (handle : Nat → Handle) (hn : 0 < n)
    (objects : Ptr → Common) (i : Nat) :
    initObjects pool handle n ⟨r, 0⟩ objects (objectAt pool r' i) = objects (objectAt pool r' i) := by
  apply initObjects_other pool r handle objects hn
  intro j _ heq
  exact hr (congrArg Ptr.region heq)

theorem inv_direct (h : Inv pool s) (hsize : 1 ≤ pool.directSize) (hnone : s.mem.avail = none)
    (hunset : s.mem.initialized = false) (hm : m = { s.mem with
      initialized := true
      objects := (handleDirectInit pool s.mem.objects).1
      avail := ((handleDirectInit pool s.mem.objects).1 ⟨.direct, 0⟩).next }) :
    Inv pool ⟨m, ⟨.direct, 0⟩ :: s.live⟩ := by
  have hcalloced := (h.unset hunset).2
  have hplaced : ∀ p, Placed pool m p ↔
      Placed pool s.mem p ∨ ∃ i < pool.directSize, p = objectAt pool .direct i := by
    intro p
    subst hm
    simp [Placed, hunset, hcalloced]
  obtain ⟨hdistinct, hlive, havail⟩ := grow_avail h hnone
    (directHandle pool.kind) hsize (m := m) (by subst hm; rfl) (by subst hm; rfl) hplaced
    (by simp [Placed, hunset, hcalloced])
  subst hm
  refine ⟨h.table, h.blocks, nofun, ?_, ?_, hdistinct, hlive, havail⟩
  · intro _ i hi
    show (initObjects pool (directHandle pool.kind) pool.directSize ⟨.direct, 0⟩ s.mem.objects
      (objectAt pool .direct i)).handle = _
    rw [initObjects_get pool .direct _ _ hi]
  · intro n hn
    exact absurd (hcalloced ▸ hn) (Nat.not_lt_zero n)

theorem inv_block (h : Inv pool s) (hnone : s.mem.avail = none) (hset : s.mem.initialized = true)
    (hroom : s.mem.calloced < handleNumBlocks) (hinit : m.initialized = true)
    (hcalloced : m.calloced = s.mem.calloced + 1)
    (hindirect : m.indirect = some (s.mem.indirect.getD [] ++ [⟨.block s.mem.calloced, 0⟩]))
    (hobjects : m.objects = initObjects pool (indirectHandle pool.kind s.mem.calloced)
      handleNumIndices ⟨.block s.mem.calloced, 0⟩ s.mem.objects)
    (havail : m.avail = (m.objects ⟨.block s.mem.calloced, 0⟩).next) :
    Inv pool ⟨m, ⟨.block s.mem.calloced, 0⟩ :: s.live⟩ := by
  have hplaced : ∀ p, Placed pool m p ↔ Placed pool s.mem p ∨
      ∃ i < handleNumIndices, p = objectAt pool (.block s.mem.calloced) i := by
    intro p
    unfold Placed
    rw [or_assoc, hinit, hset, hcalloced]
    apply or_congr_right
    constructor
    · intro ⟨n, hn, hp⟩
      rcases Nat.lt_or_eq_of_le (Nat.le_of_lt_succ hn) with hlt | rfl
      · exact .inl ⟨n, hlt, hp⟩
      · exact .inr hp
    · intro hp
      rcases hp with ⟨n, hn, hp⟩ | hp
      · exact ⟨n, Nat.lt_succ_of_lt hn, hp⟩
      · exact ⟨s.mem.calloced, Nat.lt_succ_self _, hp⟩
  have hfresh : ∀ i < handleNumIndices,
      ¬ Placed pool s.mem (objectAt pool (.block s.mem.calloced) i) := by
    intro i _ hp
    rcases hp with ⟨-, j, -, heq⟩ | ⟨n, hn, j, -, heq⟩
    · exact absurd (congrArg Ptr.region heq) nofun
    · have hblock : Region.block s.mem.calloced = Region.block n := congrArg Ptr.region heq
      have hlast : s.mem.calloced = n := Region.block.inj hblock
      omega
  obtain ⟨hdistinct, hlive, hfree⟩ :=
    grow_avail h hnone _ (n := handleNumIndices) (by decide) hobjects havail hplaced hfresh
  refine ⟨?_, ?_, ?_, ?_, ?_, hdistinct, hlive, hfree⟩
  · show m.indirect.getD [] = (List.range m.calloced).map _
    rw [hindirect, hcalloced, Option.getD_some, h.table, List.range_succ, List.map_append]
    rfl
  · show m.calloced ≤ handleNumBlocks
    rw [hcalloced]
    exact hroom
  · intro hunset
    exact absurd (hinit.symm.trans hunset) nofun
  · intro _ i hi
    show (m.objects (objectAt pool .direct i)).handle = _
    have hr : Region.direct ≠ Region.block s.mem.calloced := nofun
    rw [hobjects, other_region hr _ (by decide)]
    exact h.direct hset i hi
  · intro n hn i hi
    show (m.objects (objectAt pool (.block n) i)).handle = _
    replace hn : n < s.mem.calloced + 1 := hcalloced ▸ hn
    rw [hobjects]
    rcases Nat.lt_or_eq_of_le (Nat.le_of_lt_succ hn) with hlt | rfl
    · rw [other_region (fun heq => Nat.ne_of_lt hlt (Region.block.inj heq)) _ (by decide)]
      exact h.indirect n hlt i hi
    · rw [initObjects_get pool _ _ _ hi]

theorem indirectInit_cases (h : Inv pool s) (table block : Bool) :
    ((handleIndirectInit pool s.mem table block).2 = none ∧
      ∃ indirect, indirect.getD [] = s.mem.indirect.getD [] ∧
        (handleIndirectInit pool s.mem table block).1 = { s.mem with indirect := indirect }) ∨
    (s.mem.calloced < handleNumBlocks ∧
      (handleIndirectInit pool s.mem table block).2 = some ⟨.block s.mem.calloced, 0⟩ ∧
      (handleIndirectInit pool s.mem table block).1 = { s.mem with
        indirect := some (s.mem.indirect.getD [] ++ [⟨.block s.mem.calloced, 0⟩])
        objects := initObjects pool (indirectHandle pool.kind s.mem.calloced) handleNumIndices
          ⟨.block s.mem.calloced, 0⟩ s.mem.objects
        calloced := s.mem.calloced + 1 }) := by
  have hlength : (s.mem.indirect.getD []).length = s.mem.calloced := by
    rw [h.table, List.length_map, List.length_range]
  unfold handleIndirectInit
  cases hind : s.mem.indirect.or (if table then some [] else none) with
  | none => exact .inl ⟨rfl, s.mem.indirect, rfl, rfl⟩
  | some indirect =>
    have hget : indirect = s.mem.indirect.getD [] := by
      cases hcase : s.mem.indirect with
      | some l => rw [hcase] at hind; exact (Option.some.inj hind).symm
      | none =>
        rw [hcase, Option.none_or] at hind
        cases table with
        | true => exact (Option.some.inj hind).symm
        | false => cases hind
    dsimp only
    subst hget
    by_cases hfull : handleNumBlocks ≤ (s.mem.indirect.getD []).length
    · rw [if_pos hfull]
      exact .inl ⟨rfl, some (s.mem.indirect.getD []), rfl, rfl⟩
    · rw [if_neg hfull]
      cases block with
      | false =>
        rw [if_pos rfl]
        exact .inl ⟨rfl, some (s.mem.indirect.getD []), rfl, rfl⟩
      | true =>
        rw [hlength] at hfull ⊢
        exact .inr ⟨Nat.lt_of_not_le hfull, rfl, rfl⟩

inductive Change (pool : Pool) (s : State) : State → Prop
  | take (p : Ptr) (havail : s.mem.avail = some p) :
    Change pool s ⟨{ s.mem with avail := (s.mem.objects p).next }, p :: s.live⟩
  | direct (hnone : s.mem.avail = none) (hunset : s.mem.initialized = false) :
    Change pool s ⟨{ s.mem with
      initialized := true
      objects := (handleDirectInit pool s.mem.objects).1
      avail := ((handleDirectInit pool s.mem.objects).1 ⟨.direct, 0⟩).next }, ⟨.direct, 0⟩ :: s.live⟩
  | refused (indirect : Option (List Ptr)) (hindirect : indirect.getD [] = s.mem.indirect.getD []) :
    Change pool s ⟨{ s.mem with indirect := indirect }, s.live⟩
  | block (m : ObjMem) (hnone : s.mem.avail = none) (hset : s.mem.initialized = true)
    (hroom : s.mem.calloced < handleNumBlocks) (hinit : m.initialized = true)
    (hcalloced : m.calloced = s.mem.calloced + 1)
    (hindirect : m.indirect = some (s.mem.indirect.getD [] ++ [⟨.block s.mem.calloced, 0⟩]))
    (hobjects : m.objects = initObjects pool (indirectHandle pool.kind s.mem.calloced)
      handleNumIndices ⟨.block s.mem.calloced, 0⟩ s.mem.objects)
    (havail : m.avail = (m.objects ⟨.block s.mem.calloced, 0⟩).next) :
    Change pool s ⟨m, ⟨.block s.mem.calloced, 0⟩ :: s.live⟩
  | free (p : Ptr) (hp : p ∈ s.live) : Change pool s ⟨handleObjFree s.mem p, s.live.erase p⟩
  | write (p : Ptr) (hp : p ∈ s.live) (next : Option Ptr) :
    Change pool s { s with
      mem.objects := Function.update s.mem.objects p { s.mem.objects p with next := next } }

theorem change_of_alloc (h : Inv pool s) {table block : Bool}
    (hstep : step pool s (.alloc table block) = .ok s') : Change pool s s' := by
  unfold step handleObjAllocUnsafe at hstep
  cases havail : s.mem.avail with
  | some p =>
    rw [havail] at hstep
    rw [← Except.ok.inj hstep]
    exact .take p havail
  | none =>
    rw [havail] at hstep
    cases hset : s.mem.initialized with
    | false =>
      simp only [hset, Bool.false_eq_true, if_false] at hstep
      rw [← Except.ok.inj hstep]
      exact .direct havail hset
    | true =>
      simp only [hset, if_true] at hstep
      have hcases := indirectInit_cases h table block
      generalize handleIndirectInit pool s.mem table block = r at hcases hstep
      obtain ⟨m, ptr⟩ := r
      rcases hcases with ⟨rfl, indirect, hind, hm⟩ | ⟨hroom, rfl, hm⟩
      · dsimp only at hm hstep
        rw [← Except.ok.inj hstep, hm]
        exact .refused indirect hind
      · dsimp only at hm hstep
        rw [← Except.ok.inj hstep]
        exact .block _ havail hset hroom (by rw [hm]; exact hset) (by rw [hm]) (by rw [hm])
          (by rw [hm]) rfl

theorem change_of_step (h : Inv pool s) {o : Op} (hstep : step pool s o = .ok s') : Change pool s s' := by
  cases o with
  | alloc table block => exact change_of_alloc h hstep
  | free obj =>
    by_cases hlive : obj ∈ s.live
    · simp only [step, if_pos hlive] at hstep
      rw [← Except.ok.inj hstep]
      exact .free obj hlive
    · simp only [step, if_neg hlive] at hstep
      cases hstep
  | write obj next =>
    by_cases hlive : obj ∈ s.live
    · simp only [step, if_pos hlive] at hstep
      rw [← Except.ok.inj hstep]
      exact .write obj hlive next
    · simp only [step, if_neg hlive] at hstep
      cases hstep

theorem inv_change (hsize : 1 ≤ pool.directSize) (h : Inv pool s) (hchange : Change pool s s') :
    Inv pool s' := by
  cases hchange with
  | take p havail => exact inv_take h havail
  | direct hnone hunset => exact inv_direct h hsize hnone hunset rfl
  | refused indirect hindirect =>
    exact ⟨hindirect.trans h.table, h.blocks, h.unset, h.direct, h.indirect, h.distinct, h.placed,
      h.avail⟩
  | block m hnone hset hroom hinit hcalloced hindirect hobjects havail =>
    exact inv_block h hnone hset hroom hinit hcalloced hindirect hobjects havail
  | free p hp => exact inv_free h hp
  | write p hp next => exact inv_write h hp next

theorem placed_change (hchange : Change pool s s') (hp : Placed pool s.mem p) : Placed pool s'.mem p := by
  cases hchange with
  | take | refused | free | write => exact hp
  | direct hnone hunset =>
    rcases hp with ⟨_, hi⟩ | hblock
    · exact .inl ⟨rfl, hi⟩
    · exact .inr hblock
  | block m hnone hset hroom hinit hcalloced hindirect hobjects havail =>
    rcases hp with ⟨_, hi⟩ | ⟨n, hn, hi⟩
    · exact .inl ⟨hinit, hi⟩
    · exact .inr ⟨n, by show n < m.calloced; omega, hi⟩

variable {os : List Op}

theorem inv_run (hsize : 1 ≤ pool.directSize) (h : Inv pool s)
    (hrun : run (step pool) s os = .ok s') : Inv pool s' :=
  run_invariant (P := fun _ _ => True)
    (fun _ _ _ hinv _ hstep => inv_change hsize hinv (change_of_step hinv hstep)) h
    (Along.of_forall (fun _ _ => trivial) s os) hrun

theorem placed_run (hsize : 1 ≤ pool.directSize) (h : Inv pool s)
    (hrun : run (step pool) s os = .ok s') (hp : Placed pool s.mem p) : Placed pool s'.mem p :=
  (run_invariant (I := fun s => Inv pool s ∧ Placed pool s.mem p) (P := fun _ _ => True)
    (fun _ _ _ hinv _ hstep =>
      have hchange := change_of_step hinv.1 hstep
      ⟨inv_change hsize hinv.1 hchange, placed_change hchange hinv.2⟩) ⟨h, hp⟩
    (Along.of_forall (fun _ _ => trivial) s os) hrun).2

theorem getPtr_direct (m : ObjMem) (hindex : pool.directSize ≤ 2 ^ 26) (hi : i < pool.directSize) :
    getPtr pool m (directHandle pool.kind i) = some (objectAt pool .direct i) := by
  have hlt : i < 2 ^ 26 := Nat.lt_of_lt_of_le hi hindex
  unfold getPtr
  rw [if_pos (getKind_direct pool.kind hlt), index_direct pool.kind hlt]
  rfl

theorem getPtr_block (h : Inv pool s) (hn : n < s.mem.calloced)
    (hi : i < handleNumIndices) : getPtr pool s.mem (indirectHandle pool.kind n i) =
      some ⟨.block n, intMul i pool.size⟩ := by
  have hblock : n < 2 ^ 14 := by
    have hbound := h.blocks
    unfold handleNumBlocks at hbound
    omega
  have hindex : i < 2 ^ 12 := Nat.lt_of_lt_of_le hi (by decide)
  unfold getPtr handleGetPtrIndirect
  rw [if_neg (by rw [getKind_indirect pool.kind hblock hindex]; decide),
    if_pos (getKind_indirect pool.kind hblock hindex),
    if_neg (not_not.mpr (getMpiKind_indirect pool.kind hblock hindex)),
    block_indirect pool.kind hblock hindex, blockIndex_indirect pool.kind hblock hindex, h.table,
    List.getElem?_map, List.getElem?_range hn]
  dsimp only [Option.map_some]
  rw [Int.zero_add]

theorem getPtr_indirect (h : Inv pool s) (hsize : (handleNumIndices - 1) * pool.size < 2 ^ 31) (hn : n < s.mem.calloced) (hi : i < handleNumIndices) :
    getPtr pool s.mem (indirectHandle pool.kind n i) = some (objectAt pool (.block n) i) := by
  have hproduct : i * pool.size < 2 ^ 31 :=
    Nat.lt_of_le_of_lt (Nat.mul_le_mul_right _ (Nat.le_sub_one_of_lt hi)) hsize
  rw [getPtr_block h hn hi, intMul_nat hproduct]
  rfl

theorem named (h : Inv pool s) (hindex : pool.directSize ≤ 2 ^ 26)
    (hsize : (handleNumIndices - 1) * pool.size < 2 ^ 31) (hp : Placed pool s.mem p) :
    handleGetMpiKind (s.mem.objects p).handle = pool.kind.value ∧
      getPtr pool s.mem (s.mem.objects p).handle = some p := by
  rcases hp with ⟨hset, i, hi, rfl⟩ | ⟨n, hn, i, hi, rfl⟩
  · rw [h.direct hset i hi]
    exact ⟨getMpiKind_direct pool.kind (Nat.lt_of_lt_of_le hi hindex), getPtr_direct _ hindex hi⟩
  · have hbound := h.blocks
    unfold handleNumBlocks at hbound
    rw [h.indirect n hn i hi]
    exact ⟨getMpiKind_indirect pool.kind (by omega) (Nat.lt_of_lt_of_le hi (by decide)),
      getPtr_indirect h hsize hn hi⟩

theorem apart_objectAt (r : Region) {j : Nat} (hij : i ≠ j) :
    Apart pool.size (objectAt pool r i) (objectAt pool r j) := by
  intro _
  rcases Nat.lt_or_gt_of_ne hij with hlt | hgt
  · have hmul := Nat.mul_le_mul_right pool.size (Nat.succ_le_of_lt hlt)
    rw [Nat.succ_mul] at hmul
    exact .inl (Int.ofNat_le.mpr hmul)
  · have hmul := Nat.mul_le_mul_right pool.size (Nat.succ_le_of_lt hgt)
    rw [Nat.succ_mul] at hmul
    exact .inr (Int.ofNat_le.mpr hmul)

theorem placed_at (hp : Placed pool s.mem p) : ∃ r i, p = objectAt pool r i := by
  rcases hp with ⟨-, i, -, hi⟩ | ⟨n, -, i, -, hi⟩
  · exact ⟨.direct, i, hi⟩
  · exact ⟨.block n, i, hi⟩

theorem sound_of_inv (h : Inv pool s) (hindex : pool.directSize ≤ 2 ^ 26)
    (hsize : (handleNumIndices - 1) * pool.size < 2 ^ 31) : Sound pool s where
  distinct := h.distinct
  initialised p hp := (initialised_iff h).mpr (h.placed p hp)
  apart p hp q hq hne := by
    obtain ⟨r, i, rfl⟩ := placed_at (h.placed p hp)
    obtain ⟨r', j, rfl⟩ := placed_at (h.placed q hq)
    intro hregion
    have hr : r = r' := hregion
    subst hr
    exact apart_objectAt r (fun hij => hne (by rw [hij])) rfl
  handles p hp q hq heq := by
    have hptr := (named h hindex hsize (h.placed p hp)).2
    rw [heq, (named h hindex hsize (h.placed q hq)).2] at hptr
    exact (Option.some.inj hptr).symm
  kind p hp := (named h hindex hsize (h.placed p hp)).1
  mapped p hp := (named h hindex hsize (h.placed p hp)).2
  avail := by
    obtain ⟨l, hchain, hnodup, hmem⟩ := h.avail
    exact ⟨l, hchain, hnodup, fun p => (hmem p).trans (and_congr_left' (initialised_iff h).symm)⟩

theorem handle_run (hdirect : 1 ≤ pool.directSize) (h : Inv pool s)
    (hrun : run (step pool) s os = .ok s') (hp : Placed pool s.mem p) :
    (s'.mem.objects p).handle = (s.mem.objects p).handle := by
  have h' := inv_run hdirect h hrun
  have hp' := placed_run hdirect h hrun hp
  rcases hp with ⟨hset, i, hi, rfl⟩ | ⟨n, hn, i, hi, rfl⟩
  · rcases hp' with ⟨hset', _⟩ | ⟨n, -, j, -, heq⟩
    · rw [h.direct hset i hi, h'.direct hset' i hi]
    · exact absurd (congrArg Ptr.region heq) nofun
  · rcases hp' with ⟨-, j, -, heq⟩ | ⟨n', hn', j, -, heq⟩
    · exact absurd (congrArg Ptr.region heq) nofun
    · have hblock : Region.block n = Region.block n' := congrArg Ptr.region heq
      rw [h.indirect n hn i hi, h'.indirect n (Region.block.inj hblock ▸ hn') i hi]

end Invariant

/-- In every run the live objects are apart and their handles lead back to them, what is not live is
on the avail list once, and an object has the same handle whenever it is allocated: where the direct
array has an object, its indices fit into 26 bits, and no offset in a block overflows an `int`. -/
theorem run_sound (pool : Pool) (hdirect : 1 ≤ pool.directSize) (hindex : pool.directSize ≤ 2 ^ 26)
    (hsize : (handleNumIndices - 1) * pool.size < 2 ^ 31) (objects : Ptr → Common) (os : List Op)
    (t : State) (hrun : run (step pool) (start objects) os = .ok t) :
    Sound pool t ∧ ∀ k m, run (step pool) (start objects) (os.take k) = .ok m →
      ∀ p, Initialised pool m.mem p → (t.mem.objects p).handle = (m.mem.objects p).handle := by
  have hstart := inv_start pool objects
  refine ⟨sound_of_inv (inv_run hdirect hstart hrun) hindex hsize, ?_⟩
  intro k m hm p hp
  have hinv := inv_run hdirect hstart hm
  rw [← List.take_append_drop k os] at hrun
  obtain ⟨m', hm', hrest⟩ := run_append_eq_ok hrun
  have heq : m = m' := Except.ok.inj (hm.symm.trans hm')
  subst heq
  exact handle_run hdirect hinv hrest ((initialised_iff hinv).mp hp)

def commPool : Pool := ⟨.comm, 512, 8, by decide⟩

theorem run_sound_comm : ∃ t, run (step commPool) (start fun _ => ⟨0, none⟩)
    [.alloc true true, .alloc true true, .free ⟨.direct, 0⟩, .alloc true true] = .ok t ∧
      Sound commPool t :=
  ⟨_, rfl, (run_sound commPool (by decide) (by decide) (by decide) (fun _ => ⟨0, none⟩)
    [.alloc true true, .alloc true true, .free ⟨.direct, 0⟩, .alloc true true] _ rfl).1⟩

section Limits
variable {pool : Pool} {s : State}

theorem step_take {p : Ptr} (havail : s.mem.avail = some p) :
    step pool s (.alloc true true) =
      .ok ⟨{ s.mem with avail := (s.mem.objects p).next }, p :: s.live⟩ := by
  unfold step handleObjAllocUnsafe
  rw [havail]

theorem live_of_avail {l : List Ptr} (hchain : Chain (ObjNext s.mem) s.mem.avail l) {p : Ptr}
    (hp : p ∈ l) : ∃ os t, run (step pool) s os = .ok t ∧ p ∈ t.live ∧ ∀ q ∈ s.live, q ∈ t.live := by
  induction l generalizing s with
  | nil => exact absurd hp List.not_mem_nil
  | cons x l ih =>
    obtain ⟨hx, hrest⟩ := hchain
    rcases List.mem_cons.mp hp with rfl | hp
    · exact ⟨[.alloc true true], _, run_cons_ok (step_take hx) [], List.mem_cons_self,
        fun q hq => List.mem_cons_of_mem _ hq⟩
    · obtain ⟨os, t, hrun, hpt, hkeep⟩ := ih (s := ⟨{ s.mem with avail := (s.mem.objects x).next },
        x :: s.live⟩) hrest hp
      exact ⟨.alloc true true :: os, t, (run_cons_ok (step_take hx) os).trans hrun, hpt,
        fun q hq => hkeep q (List.mem_cons_of_mem x hq)⟩

theorem exhausted (pool : Pool) {l : List Ptr} (hchain : Chain (ObjNext s.mem) s.mem.avail l)
    (hset : s.mem.initialized = true) : ∃ os t, run (step pool) s os = .ok t ∧ t.mem.avail = none ∧
      t.mem.initialized = true ∧ t.mem.calloced = s.mem.calloced := by
  induction l generalizing s with
  | nil => exact ⟨[], s, rfl, hchain, hset, rfl⟩
  | cons x l ih =>
    obtain ⟨hx, hrest⟩ := hchain
    obtain ⟨os, t, hrun, ht⟩ := ih (s := ⟨{ s.mem with avail := (s.mem.objects x).next },
      x :: s.live⟩) hrest hset
    exact ⟨.alloc true true :: os, t, (run_cons_ok (step_take hx) os).trans hrun, ht⟩

theorem first_alloc (pool : Pool) (objects : Ptr → Common) (hdirect : 1 ≤ pool.directSize) :
    ∃ s, run (step pool) (start objects) [.alloc true true] = .ok s ∧ Inv pool s ∧
      s.mem.initialized = true ∧ s.mem.calloced = 0 ∧ s.live = [⟨.direct, 0⟩] := by
  obtain ⟨s, hs⟩ : ∃ s, run (step pool) (start objects) [.alloc true true] = .ok s := ⟨_, rfl⟩
  refine ⟨s, hs, inv_run hdirect (inv_start pool objects) hs, ?_⟩
  cases hs
  exact ⟨rfl, rfl, rfl⟩

theorem live_reached (h : Inv pool s) {p : Ptr} (hp : Placed pool s.mem p) :
    ∃ os t, run (step pool) s os = .ok t ∧ p ∈ t.live ∧ ∀ q ∈ s.live, q ∈ t.live := by
  by_cases hlive : p ∈ s.live
  · exact ⟨[], s, rfl, hlive, fun q hq => hq⟩
  · obtain ⟨l, hchain, -, hmem⟩ := h.avail
    exact live_of_avail hchain ((hmem p).mpr ⟨hp, hlive⟩)

theorem unsound_of_empty (pool : Pool) (objects : Ptr → Common) (hempty : pool.directSize = 0) :
    ∃ os t, run (step pool) (start objects) os = .ok t ∧ ¬ Sound pool t := by
  refine ⟨[.alloc true true], _, rfl, fun h => ?_⟩
  rcases h.initialised ⟨.direct, 0⟩ List.mem_cons_self with ⟨-, i, hi, -⟩ | ⟨b, hb, -⟩
  · exact absurd (hempty ▸ hi) (Nat.not_lt_zero i)
  · exact absurd hb List.not_mem_nil

theorem directHandle_wraps (kind : ObjectKind) :
    directHandle kind (2 ^ 26) = directHandle kind 0 ∨
      handleGetMpiKind (directHandle kind (2 ^ 26)) ≠ kind.value := by
  cases kind <;> decide

theorem unsound_of_index (objects : Ptr → Common) (hindex : 2 ^ 26 < pool.directSize) :
    ∃ os t, run (step pool) (start objects) os = .ok t ∧ ¬ Sound pool t := by
  have hdirect : 1 ≤ pool.directSize := by omega
  obtain ⟨s, hs, hinv, hset, -, hlive⟩ := first_alloc pool objects hdirect
  have hplaced : Placed pool s.mem (objectAt pool .direct (2 ^ 26)) := placed_direct _ hindex hset
  obtain ⟨os, t, ht, hp, hkeep⟩ := live_reached hinv hplaced
  have hfirst : objectAt pool .direct 0 ∈ t.live := by
    rw [objectAt_zero]
    exact hkeep _ (by rw [hlive]; exact List.mem_cons_self)
  have hinv' := inv_run hdirect hinv ht
  have hset' : t.mem.initialized = true := by
    rcases hinv'.placed _ hp with hset' | ⟨n, -, j, -, heq⟩
    · exact hset'.1
    · exact absurd (congrArg Ptr.region heq) nofun
  have hlast := hinv'.direct hset' (2 ^ 26) hindex
  refine ⟨_, t, (run_append_of_ok hs os).trans ht, fun h => ?_⟩
  rcases directHandle_wraps pool.kind with hsame | hkind
  · have heq := h.handles _ hp _ hfirst
      (by rw [hlast, hinv'.direct hset' 0 hdirect, hsame])
    exact absurd (objectAt_inj pool .direct heq) (by decide)
  · exact hkind (hlast ▸ h.kind _ hp)

theorem intMul_ne {x y : Nat} (h : 2 ^ 31 ≤ x * y) : intMul x y ≠ ((x * y : Nat) : Int) := by
  have hlt := (toInt_bounds ((x : Int) * y)).2
  unfold intMul
  push_cast at h ⊢
  omega

theorem indirectInit_grants (h : Inv pool s) (hroom : s.mem.calloced < handleNumBlocks) :
    ∃ m ptr, handleIndirectInit pool s.mem true true = (m, some ptr) ∧
      m.calloced = s.mem.calloced + 1 := by
  have hlength : (s.mem.indirect.getD []).length = s.mem.calloced := by
    rw [h.table, List.length_map, List.length_range]
  have hor : s.mem.indirect.or (if true then some [] else none) = some (s.mem.indirect.getD []) := by
    cases s.mem.indirect <;> rfl
  unfold handleIndirectInit
  rw [hor]
  dsimp only
  rw [if_neg (by rw [hlength]; omega), if_neg nofun]
  exact ⟨_, _, rfl, rfl⟩

theorem block_reached (h : Inv pool s) (hnone : s.mem.avail = none)
    (hset : s.mem.initialized = true) (hroom : s.mem.calloced < handleNumBlocks) :
    ∃ t, step pool s (.alloc true true) = .ok t ∧ t.mem.calloced = s.mem.calloced + 1 := by
  obtain ⟨m, ptr, hm, hcalloced⟩ := indirectInit_grants h hroom
  unfold step handleObjAllocUnsafe
  rw [hnone]
  simp only [hset, if_true, hm]
  exact ⟨_, rfl, hcalloced⟩

theorem unsound_of_size (objects : Ptr → Common) (hdirect : 1 ≤ pool.directSize)
    (hsize : 2 ^ 31 ≤ (handleNumIndices - 1) * pool.size) :
    ∃ os t, run (step pool) (start objects) os = .ok t ∧ ¬ Sound pool t := by
  obtain ⟨s, hs, hinv, hset, hcalloced, -⟩ := first_alloc pool objects hdirect
  obtain ⟨l, hchain, -, -⟩ := hinv.avail
  obtain ⟨os, u, hu, hnone, hset', hcalloced'⟩ := exhausted pool hchain hset
  have hinvu := inv_run hdirect hinv hu
  obtain ⟨v, hv, hblock⟩ := block_reached hinvu hnone hset'
    (by rw [hcalloced', hcalloced]; decide)
  have hinvv := inv_change hdirect hinvu (change_of_step hinvu hv)
  have hlast : handleNumIndices - 1 < handleNumIndices := by decide
  have hplaced : Placed pool v.mem (objectAt pool (.block 0) (handleNumIndices - 1)) :=
    .inr ⟨0, by omega, handleNumIndices - 1, hlast, rfl⟩
  obtain ⟨os', t, ht, hp, -⟩ := live_reached hinvv hplaced
  have hinvt := inv_run hdirect hinvv ht
  have hn : 0 < t.mem.calloced := by
    rcases hinvt.placed _ hp with ⟨-, j, -, heq⟩ | ⟨n, hn, -⟩
    · exact absurd (congrArg Ptr.region heq) nofun
    · omega
  refine ⟨_, t, (run_append_of_ok hs _).trans ((run_append_of_ok hu _).trans
    ((run_cons_ok hv os').trans ht)), fun h => ?_⟩
  have hmapped := h.mapped _ hp
  rw [hinvt.indirect 0 hn _ hlast, getPtr_block hinvt hn hlast] at hmapped
  have hoffset := congrArg Ptr.offset (Option.some.inj hmapped)
  simp only [objectAt] at hoffset
  exact intMul_ne hsize hoffset

end Limits

/-- The bounds of `run_sound` are exact. -/
theorem sound_iff (pool : Pool) (objects : Ptr → Common) :
    (∀ os t, run (step pool) (start objects) os = .ok t → Sound pool t) ↔
      1 ≤ pool.directSize ∧ pool.directSize ≤ 2 ^ 26 ∧
        (handleNumIndices - 1) * pool.size < 2 ^ 31 := by
  constructor
  · intro h
    have hdirect : 1 ≤ pool.directSize := by
      by_contra hempty
      obtain ⟨os, t, hrun, hnot⟩ := unsound_of_empty pool objects (by omega)
      exact hnot (h os t hrun)
    refine ⟨hdirect, ?_, ?_⟩
    · by_contra hindex
      obtain ⟨os, t, hrun, hnot⟩ := unsound_of_index objects (Nat.lt_of_not_le hindex)
      exact hnot (h os t hrun)
    · by_contra hsize
      obtain ⟨os, t, hrun, hnot⟩ := unsound_of_size objects hdirect (Nat.le_of_not_lt hsize)
      exact hnot (h os t hrun)
  · intro ⟨hdirect, hindex, hsize⟩ os t hrun
    exact sound_of_inv (inv_run hdirect (inv_start pool objects) hrun) hindex hsize

theorem unsound_limits :
    (∃ os t, run (step ⟨.comm, 512, 0, by decide⟩) (start fun _ => ⟨0, none⟩) os = .ok t ∧
      ¬ Sound ⟨.comm, 512, 0, by decide⟩ t) ∧
    (∃ os t, run (step ⟨.comm, 16, 67108865, by decide⟩) (start fun _ => ⟨0, none⟩) os = .ok t ∧
      ¬ Sound ⟨.comm, 16, 67108865, by decide⟩ t) ∧
    ∃ os t, run (step ⟨.comm, 4194304, 8, by decide⟩) (start fun _ => ⟨0, none⟩) os = .ok t ∧
      ¬ Sound ⟨.comm, 4194304, 8, by decide⟩ t :=
  ⟨unsound_of_empty _ _ rfl, unsound_of_index _ (by decide), unsound_of_size _ (by decide) (by decide)⟩

end FgMpi.Handles.Soundness
