import FgMpi.Machine.Outcome
import FgMpi.Comm.SharedVars

/-! Every count is the number of users of its map. -/

namespace FgMpi.Comm.Ledger
open Machine.Checked Machine.Outcome Machine.Slots
open Comm.NestedMaps Comm.SharedVars

def coShare (x : CellRef) (co : Co) : Nat :=
  if co.freed = false ∧ co.across = x then co.within else 0

def groupShare (x : CellRef) (g : Group) : Nat := if g.ref = some x then g.handles else 0

def users (cos : List Co) (groups : List Group) (x : CellRef) : Nat :=
  tally (coShare x) cos + tally (groupShare x) groups

def guard (h : Heap) (x : CellRef) : Option (Bool × MapRef) :=
  h.cells[x]?.map (fun c => (c.freed, c.guards))

structure CoOk (h : Heap) (co : Co) : Prop where
  used : 0 < co.within
  guarded : ∃ f m, guard h co.across = some (f, m) ∧ co.rtwMap = some m

def GroupOk (h : Heap) (g : Group) : Prop :=
  ∀ x, g.ref = some x → ∃ f m, guard h x = some (f, m) ∧ (f = false → g.rtwGrpMap = some m)

def Loose (g : Group) : Prop := g.ref = none ∧ 0 < g.handles

structure Private (h : Heap) (j : GroupRef) (m : MapRef) : Prop where
  alive : ∃ a, h.maps[m]? = some a ∧ a.kills = 0
  unguarded : ∀ x f, guard h x ≠ some (f, m)
  alone : ∀ k g, k ≠ j → h.groups[k]? = some g → Loose g → g.rtwGrpMap ≠ some m

structure Balanced (h : Heap) : Prop where
  count : ∀ x cell, h.cells[x]? = some cell →
    users h.cos h.groups x = if cell.freed then 0 else cell.count
  alive : ∀ x f m, guard h x = some (f, m) → ∃ a, h.maps[m]? = some a ∧ (f = false → a.kills = 0)
  inj : ∀ x y f f' m, guard h x = some (f, m) → guard h y = some (f', m) → x = y
  once : ∀ (m : MapRef) a, h.maps[m]? = some a → a.kills ≤ 1
  co : ∀ (i : CoRef) co, h.cos[i]? = some co → co.freed = false → CoOk h co
  group : ∀ (j : GroupRef) g, h.groups[j]? = some g → GroupOk h g
  loose : ∀ (j : GroupRef) g, h.groups[j]? = some g → Loose g →
    g.handles = 1 ∧ ∃ m, g.rtwGrpMap = some m ∧ Private h j m

section Reading
variable {h : Heap}

variable {x : CellRef}

theorem guard_of_cell {cell : Cell} (hx : h.cells[x]? = some cell) :
    guard h x = some (cell.freed, cell.guards) := by
  unfold guard
  rw [hx]
  rfl

theorem cell_of_guard {f : Bool} {m : MapRef} (hx : guard h x = some (f, m)) :
    ∃ cell, h.cells[x]? = some cell ∧ cell.freed = f ∧ cell.guards = m := by
  unfold guard at hx
  cases hcell : h.cells[x]? with
  | none => rw [hcell] at hx; cases hx
  | some cell =>
    rw [hcell] at hx
    cases hx
    exact ⟨cell, rfl, rfl, rfl⟩

theorem Balanced.used (hb : Balanced h) {f : Bool} {m : MapRef}
    (hx : guard h x = some (f, m)) (hpos : 0 < users h.cos h.groups x) :
    ∃ cell, h.cells[x]? = some cell ∧ cell.freed = false ∧ cell.guards = m ∧
      cell.count = users h.cos h.groups x := by
  obtain ⟨cell, hcell, hfreed, hguards⟩ := cell_of_guard hx
  have hcount := hb.count x cell hcell
  cases hf : cell.freed with
  | true =>
    rw [hf, if_pos rfl] at hcount
    omega
  | false =>
    rw [hf, if_neg (by simp)] at hcount
    exact ⟨cell, hcell, hf, hguards, hcount.symm⟩

theorem within_le_users {i : CoRef} {co : Co} (hi : h.cos[i]? = some co) (hco : co.freed = false) :
    co.within ≤ users h.cos h.groups co.across := by
  have hle := le_tally (coShare co.across) hi
  simp only [coShare, hco, and_self, if_true] at hle
  unfold users
  omega

variable {j : GroupRef}

theorem handles_le_users {g : Group} (hj : h.groups[j]? = some g)
    (hx : g.ref = some x) : g.handles ≤ users h.cos h.groups x := by
  have hle := le_tally (groupShare x) hj
  simp only [groupShare, hx, if_true] at hle
  unfold users
  omega

theorem Balanced.co_cell (hb : Balanced h) {i : CoRef} {co : Co} (hi : h.cos[i]? = some co)
    (hco : co.freed = false) :
    ∃ cell, h.cells[co.across]? = some cell ∧ cell.freed = false ∧
      co.rtwMap = some cell.guards ∧ cell.count = users h.cos h.groups co.across := by
  obtain ⟨hpos, f, m, hg, hm⟩ := hb.co i co hi hco
  have hle := within_le_users hi hco
  obtain ⟨cell, hcell, hfreed, hguards, hcount⟩ := hb.used hg (by omega)
  exact ⟨cell, hcell, hfreed, by rw [hm, hguards], hcount⟩

theorem Balanced.group_cell (hb : Balanced h) {g : Group}
    (hj : h.groups[j]? = some g) (hx : g.ref = some x) (hpos : 0 < g.handles) :
    ∃ cell, h.cells[x]? = some cell ∧ cell.freed = false ∧ g.rtwGrpMap = some cell.guards ∧
      cell.count = users h.cos h.groups x := by
  obtain ⟨f, m, hg, hm⟩ := hb.group j g hj x hx
  have hle := handles_le_users hj hx
  obtain ⟨cell, hcell, hfreed, hguards, hcount⟩ := hb.used hg (by omega)
  have hf : f = false := by
    rw [guard_of_cell hcell] at hg
    cases hg
    exact hfreed
  exact ⟨cell, hcell, hfreed, by rw [hm hf, hguards], hcount⟩

theorem liveCell_of {cell : Cell} (hx : h.cells[x]? = some cell)
    (hfreed : cell.freed = false) : h.liveCell x = .ok cell := by
  unfold Heap.liveCell
  rw [hx]
  simp [hfreed]

theorem liveCo_of {i : CoRef} {co : Co} (hi : h.cos[i]? = some co) (hco : co.freed = false) :
    h.liveCo i = .ok co := by
  unfold Heap.liveCo
  rw [hi]
  simp [hco]

theorem getGroup_of {g : Group} (hj : h.groups[j]? = some g) : h.getGroup j = .ok g := by
  unfold Heap.getGroup
  rw [hj]

theorem Balanced.users_fresh (hb : Balanced h) : users h.cos h.groups h.cells.length = 0 := by
  have hnone : guard h h.cells.length = none := by
    unfold guard
    rw [List.getElem?_eq_none (Nat.le_refl _)]
    rfl
  have hcos : tally (coShare h.cells.length) h.cos = 0 := by
    refine tally_eq_zero ?_
    intro i co hi
    unfold coShare
    split
    · rename_i hcond
      obtain ⟨_, f, m, hg, _⟩ := hb.co i co hi hcond.1
      rw [hcond.2, hnone] at hg
      cases hg
    · rfl
  have hgroups : tally (groupShare h.cells.length) h.groups = 0 := by
    refine tally_eq_zero ?_
    intro j g hj
    unfold groupShare
    split
    · rename_i href
      obtain ⟨f, m, hg, _⟩ := hb.group j g hj _ href
      rw [hnone] at hg
      cases hg
    · rfl
  unfold users
  omega

end Reading

section Rules
variable {h h' : Heap}

variable {x : CellRef} {cell : Cell}

theorem guard_recount {n : Nat} (hx : h.cells[x]? = some cell)
    (hcells : h'.cells = h.cells.set x { cell with count := n }) (y : CellRef) :
    guard h' y = guard h y := by
  unfold guard
  rw [hcells]
  by_cases hy : y = x
  · subst hy
    rw [List.getElem?_set_self (lt_of_slot hx), hx]
    rfl
  · rw [List.getElem?_set_ne (Ne.symm hy)]

theorem guard_bury (hx : h.cells[x]? = some cell)
    (hcells : h'.cells = h.cells.set x { cell with count := 0, freed := true }) (y : CellRef) :
    guard h' y = if y = x then some (true, cell.guards) else guard h y := by
  unfold guard
  rw [hcells]
  by_cases hy : y = x
  · subst hy
    rw [List.getElem?_set_self (lt_of_slot hx), if_pos rfl]
    rfl
  · rw [List.getElem?_set_ne (Ne.symm hy), if_neg hy]

theorem guard_grow (hcells : h'.cells = h.cells ++ [cell]) {y : CellRef}
    {f : Bool} {m : MapRef} : guard h' y = some (f, m) ↔
      guard h y = some (f, m) ∨ y = h.cells.length ∧ f = cell.freed ∧ m = cell.guards := by
  unfold guard
  rw [hcells]
  simp only [Option.map_eq_some_iff, Prod.mk.injEq]
  constructor
  · rintro ⟨c, hc, hf, hm⟩
    rcases getElem?_concat.mp hc with hc | ⟨hy, rfl⟩
    · exact Or.inl ⟨c, hc, hf, hm⟩
    · exact Or.inr ⟨hy, hf.symm, hm.symm⟩
  · rintro (⟨c, hc, hf, hm⟩ | ⟨rfl, rfl, rfl⟩)
    · exact ⟨c, getElem?_concat_of_some hc, hf, hm⟩
    · exact ⟨cell, getElem?_concat.mpr (Or.inr ⟨rfl, rfl⟩), rfl, rfl⟩

theorem CoOk.congr {co : Co} (hco : CoOk h co) (hguard : guard h' co.across = guard h co.across) :
    CoOk h' co := by
  refine ⟨hco.used, ?_⟩
  rw [hguard]
  exact hco.guarded

theorem GroupOk.congr {g : Group} (hg : GroupOk h g)
    (hguard : ∀ x, g.ref = some x → guard h' x = guard h x) : GroupOk h' g := by
  intro x hx
  rw [hguard x hx]
  exact hg x hx

theorem count_of_set (hb : Balanced h) {cell' : Cell}
    (hx : h.cells[x]? = some cell) (hcells : h'.cells = h.cells.set x cell')
    (hself : users h'.cos h'.groups x = if cell'.freed then 0 else cell'.count)
    (hother : ∀ y, y ≠ x → users h'.cos h'.groups y = users h.cos h.groups y) :
    ∀ y c, h'.cells[y]? = some c → users h'.cos h'.groups y = if c.freed then 0 else c.count := by
  intro y c hc
  rw [hcells] at hc
  rcases (getElem?_update hx).mp hc with ⟨rfl, rfl⟩ | ⟨hy, hc⟩
  · exact hself
  · rw [hother y hy]
    exact hb.count y c hc

theorem Balanced.recount (hb : Balanced h) {n : Nat}
    (hx : h.cells[x]? = some cell) (hfreed : cell.freed = false) (hmaps : h'.maps = h.maps)
    (hcells : h'.cells = h.cells.set x { cell with count := n }) (hself : users h'.cos h'.groups x = n)
    (hother : ∀ y, y ≠ x → users h'.cos h'.groups y = users h.cos h.groups y)
    (hco : ∀ (i : CoRef) co, h'.cos[i]? = some co → co.freed = false → CoOk h co)
    (hgroup : ∀ (j : GroupRef) g, h'.groups[j]? = some g → GroupOk h g)
    (hloose : ∀ (j : GroupRef) g, h'.groups[j]? = some g → Loose g → h.groups[j]? = some g) :
    Balanced h' := by
  have hguard := guard_recount hx hcells
  refine ⟨?_, ?_, ?_, ?_, ?_, ?_, ?_⟩
  · refine count_of_set hb hx hcells ?_ hother
    simp only [hfreed]
    exact hself
  · intro y f m hy
    rw [hguard] at hy
    rw [hmaps]
    exact hb.alive y f m hy
  · intro y z f f' m hy hz
    rw [hguard] at hy hz
    exact hb.inj y z f f' m hy hz
  · rw [hmaps]
    exact hb.once
  · intro i co hi hf
    exact (hco i co hi hf).congr (hguard _)
  · intro j g hj
    exact (hgroup j g hj).congr (fun y _ => hguard y)
  · intro j g hj hg
    obtain ⟨hone, m, hm, halive, hun, halone⟩ := hb.loose j g (hloose j g hj hg) hg
    refine ⟨hone, m, hm, ?_, ?_, ?_⟩
    · rw [hmaps]
      exact halive
    · intro y f
      rw [hguard]
      exact hun y f
    · intro k g' hk hg' hl'
      exact halone k g' hk (hloose k g' hg' hl') hl'

theorem getElem?_killMap {m k : MapRef} {a b : RtwMap} (ha : h.maps[m]? = some a) :
    (h.killMap (some m))[k]? = some b ↔
      k = m ∧ b = { a with kills := a.kills + 1 } ∨ k ≠ m ∧ h.maps[k]? = some b := by
  simp only [Heap.killMap, ha]
  exact getElem?_update ha

theorem Balanced.bury (hb : Balanced h) (hx : h.cells[x]? = some cell) (hfreed : cell.freed = false)
    (hmaps : h'.maps = h.killMap (some cell.guards))
    (hcells : h'.cells = h.cells.set x { cell with count := 0, freed := true })
    (hself : users h'.cos h'.groups x = 0) (hother : ∀ y, y ≠ x → users h'.cos h'.groups y = users h.cos h.groups y)
    (hco : ∀ (i : CoRef) co, h'.cos[i]? = some co → co.freed = false → CoOk h co)
    (hgroup : ∀ (j : GroupRef) g, h'.groups[j]? = some g → g.ref = some x ∨ GroupOk h g)
    (hloose : ∀ (j : GroupRef) g, h'.groups[j]? = some g → Loose g → h.groups[j]? = some g) :
    Balanced h' := by
  have hguard := guard_bury hx hcells
  have hgx := guard_of_cell hx
  rw [hfreed] at hgx
  obtain ⟨a, ha, hkills⟩ := hb.alive x false cell.guards hgx
  have hkill : ∀ k b, h'.maps[k]? = some b ↔
      k = cell.guards ∧ b = { a with kills := a.kills + 1 } ∨
        k ≠ cell.guards ∧ h.maps[k]? = some b := by
    intro k b
    rw [hmaps]
    exact getElem?_killMap ha
  have hsame : ∀ y f m, guard h' y = some (f, m) → ∃ f', guard h y = some (f', m) := by
    intro y f m hy
    rw [hguard] at hy
    split at hy
    · rename_i hyx
      cases hy
      exact ⟨false, by rw [hyx]; exact hgx⟩
    · exact ⟨f, hy⟩
  refine ⟨?_, ?_, ?_, ?_, ?_, ?_, ?_⟩
  · refine count_of_set hb hx hcells ?_ hother
    simp only [if_true]
    exact hself
  · intro y f m hy
    rw [hguard] at hy
    split at hy
    · cases hy
      exact ⟨_, (hkill _ _).mpr (Or.inl ⟨rfl, rfl⟩), fun hf => by cases hf⟩
    · rename_i hyx
      obtain ⟨b, hbm, hbk⟩ := hb.alive y f m hy
      have hne : m ≠ cell.guards := by
        rintro rfl
        exact hyx (hb.inj y x f false _ hy hgx)
      exact ⟨b, (hkill m b).mpr (Or.inr ⟨hne, hbm⟩), hbk⟩
  · intro y z f f' m hy hz
    obtain ⟨fy, hy'⟩ := hsame y f m hy
    obtain ⟨fz, hz'⟩ := hsame z f' m hz
    exact hb.inj y z fy fz m hy' hz'
  · intro k b hk
    rcases (hkill k b).mp hk with ⟨rfl, rfl⟩ | ⟨_, hk⟩
    · simp only [hkills rfl]
      omega
    · exact hb.once k b hk
  · intro i co hi hf
    refine (hco i co hi hf).congr ?_
    rw [hguard, if_neg]
    intro hac
    have hle := within_le_users hi hf
    have hpos := (hco i co hi hf).used
    rw [hac, hself] at hle
    omega
  · intro j g hj y hy
    by_cases hyx : y = x
    · subst hyx
      exact ⟨true, cell.guards, by rw [hguard, if_pos rfl], fun hf => by cases hf⟩
    · rcases hgroup j g hj with hg | hg
      · rw [hg] at hy
        cases hy
        exact absurd rfl hyx
      · obtain ⟨f, m, hgy, hm⟩ := hg y hy
        exact ⟨f, m, by rw [hguard, if_neg hyx]; exact hgy, hm⟩
  · intro j g hj hg
    obtain ⟨hone, m, hm, ⟨b, hbm, hbk⟩, hun, halone⟩ := hb.loose j g (hloose j g hj hg) hg
    refine ⟨hone, m, hm, ⟨b, ?_, hbk⟩, ?_, ?_⟩
    · refine (hkill m b).mpr (Or.inr ⟨?_, hbm⟩)
      rintro rfl
      exact hun x false hgx
    · intro y f hy
      obtain ⟨f', hy'⟩ := hsame y f m hy
      exact hun y f' hy'
    · intro k g' hk hg' hl'
      exact halone k g' hk (hloose k g' hg' hl') hl'

theorem Balanced.grow (hb : Balanced h) (hfreed : cell.freed = false) (hcells : h'.cells = h.cells ++ [cell])
    (hmaps : ∀ (k : MapRef) a, h.maps[k]? = some a → h'.maps[k]? = some a)
    (honce : ∀ (k : MapRef) a, h'.maps[k]? = some a → a.kills ≤ 1)
    (hmap : ∃ a, h'.maps[cell.guards]? = some a ∧ a.kills = 0)
    (hfresh : ∀ x f, guard h x ≠ some (f, cell.guards))
    (hself : users h'.cos h'.groups h.cells.length = cell.count)
    (hother : ∀ y, y ≠ h.cells.length → users h'.cos h'.groups y = users h.cos h.groups y)
    (hco : ∀ (i : CoRef) co, h'.cos[i]? = some co → co.freed = false →
      CoOk h co ∨ 0 < co.within ∧ co.across = h.cells.length ∧ co.rtwMap = some cell.guards)
    (hgroup : ∀ (j : GroupRef) g, h'.groups[j]? = some g →
      GroupOk h g ∨ g.ref = some h.cells.length ∧ g.rtwGrpMap = some cell.guards)
    (hloose : ∀ (j : GroupRef) g, h'.groups[j]? = some g → Loose g →
      h.groups[j]? = some g ∧ g.rtwGrpMap ≠ some cell.guards) :
    Balanced h' := by
  have hguard : ∀ {y f m}, guard h' y = some (f, m) ↔ guard h y = some (f, m) ∨
      y = h.cells.length ∧ f = false ∧ m = cell.guards := by
    intro y f m
    rw [guard_grow hcells, hfreed]
  refine ⟨?_, ?_, ?_, honce, ?_, ?_, ?_⟩
  · intro y c hc
    rw [hcells] at hc
    rcases getElem?_concat.mp hc with hc | ⟨rfl, rfl⟩
    · rw [hother y (Nat.ne_of_lt (lt_of_slot hc))]
      exact hb.count y c hc
    · rw [hself, hfreed]
      rfl
  · intro y f m hy
    rcases hguard.mp hy with hy | ⟨_, _, rfl⟩
    · obtain ⟨a, ha, hk⟩ := hb.alive y f m hy
      exact ⟨a, hmaps m a ha, hk⟩
    · obtain ⟨a, ha, hk⟩ := hmap
      exact ⟨a, ha, fun _ => hk⟩
  · intro y z f f' m hy hz
    rcases hguard.mp hy with hy | ⟨rfl, _, rfl⟩
    · rcases hguard.mp hz with hz | ⟨_, _, rfl⟩
      · exact hb.inj y z f f' m hy hz
      · exact absurd hy (hfresh y f)
    · rcases hguard.mp hz with hz | ⟨rfl, _, _⟩
      · exact absurd hz (hfresh z f')
      · rfl
  · intro i co hi hf
    rcases hco i co hi hf with hok | ⟨hpos, hac, hm⟩
    · obtain ⟨hpos, f, m, hg, hm⟩ := hok
      exact ⟨hpos, f, m, hguard.mpr (Or.inl hg), hm⟩
    · exact ⟨hpos, false, cell.guards, hguard.mpr (Or.inr ⟨hac, rfl, rfl⟩), hm⟩
  · intro j g hj y hy
    rcases hgroup j g hj with hok | ⟨href, hm⟩
    · obtain ⟨f, m, hg, hm⟩ := hok y hy
      exact ⟨f, m, hguard.mpr (Or.inl hg), hm⟩
    · rw [href] at hy
      cases hy
      exact ⟨false, cell.guards, hguard.mpr (Or.inr ⟨rfl, rfl, rfl⟩), fun _ => hm⟩
  · intro j g hj hg
    obtain ⟨hold, hne⟩ := hloose j g hj hg
    obtain ⟨hone, m, hm, ⟨a, ha, hk⟩, hun, halone⟩ := hb.loose j g hold hg
    refine ⟨hone, m, hm, ⟨a, hmaps m a ha, hk⟩, ?_, ?_⟩
    · intro y f hy
      rcases hguard.mp hy with hy | ⟨_, _, rfl⟩
      · exact hun y f hy
      · exact hne hm
    · intro k g' hk hg' hl'
      exact halone k g' hk (hloose k g' hg' hl').1 hl'

theorem Balanced.guards_lt (hb : Balanced h) {f : Bool} {m : MapRef}
    (hx : guard h x = some (f, m)) : m < h.maps.length := by
  obtain ⟨a, ha, _⟩ := hb.alive x f m hx
  exact lt_of_slot ha

end Rules

section Users
variable {cos : List Co} {groups : List Group}

theorem users_newCo (co : Co) (y : CellRef) :
    users (cos ++ [co]) groups y = users cos groups y + coShare y co := by
  unfold users
  rw [tally_concat]
  omega

theorem users_setCo {i : CoRef} {co : Co} (hi : cos[i]? = some co) (co' : Co) (y : CellRef) :
    users (cos.set i co') groups y + coShare y co = users cos groups y + coShare y co' := by
  have hset := tally_set (coShare y) co' hi
  unfold users
  omega

theorem users_newGroup (g : Group) (y : CellRef) :
    users cos (groups ++ [g]) y = users cos groups y + groupShare y g := by
  unfold users
  rw [tally_concat]
  omega

theorem users_setGroup {j : GroupRef} {g : Group} (hj : groups[j]? = some g) (g' : Group)
    (y : CellRef) :
    users cos (groups.set j g') y + groupShare y g = users cos groups y + groupShare y g' := by
  have hset := tally_set (groupShare y) g' hj
  unfold users
  omega

end Users

def NoUse (e : Fault) : Prop := e ≠ .useAfterFree

def RanksKept (h h' : Heap) : Prop :=
  ∀ (k : MapRef) a, h.maps[k]? = some a → ∃ a', h'.maps[k]? = some a' ∧ a'.ranks = a.ranks

theorem RanksKept.refl {h h' : Heap} (hmaps : h'.maps = h.maps) : RanksKept h h' := by
  intro k a ha
  exact ⟨a, by rw [hmaps]; exact ha, rfl⟩

theorem RanksKept.trans {h₁ h₂ h₃ : Heap} (h₁₂ : RanksKept h₁ h₂) (h₂₃ : RanksKept h₂ h₃) :
    RanksKept h₁ h₃ := by
  intro k a ha
  obtain ⟨b, hb, hab⟩ := h₁₂ k a ha
  obtain ⟨c, hc, hbc⟩ := h₂₃ k b hb
  exact ⟨c, hc, hbc.trans hab⟩

theorem RanksKept.kill {h h' : Heap} {m : Option MapRef} (hmaps : h'.maps = h.killMap m) :
    RanksKept h h' := by
  cases m with
  | none => exact RanksKept.refl hmaps
  | some m =>
    intro k a ha
    cases hm : h.maps[m]? with
    | none =>
      simp only [Heap.killMap, hm] at hmaps
      exact ⟨a, by rw [hmaps]; exact ha, rfl⟩
    | some b =>
      by_cases hk : k = m
      · subst hk
        rw [hm] at ha
        cases ha
        refine ⟨{ a with kills := a.kills + 1 }, ?_, rfl⟩
        rw [hmaps]
        exact (getElem?_killMap hm).mpr (Or.inl ⟨rfl, rfl⟩)
      · exact ⟨a, by rw [hmaps]; exact (getElem?_killMap hm).mpr (Or.inr ⟨hk, ha⟩), rfl⟩

section Operations
variable {h : Heap}

theorem newShared_balanced (hb : Balanced h) (ranks : List Proc) (nested : Option Nested)
    (pinned : Bool) : Balanced (h.newShared ranks nested pinned).1 := by
  refine hb.grow rfl rfl ?_ ?_ ?_ ?_ ?_ ?_ ?_ ?_ ?_
  · intro k a ha
    exact getElem?_concat_of_some ha
  · intro k a ha
    rcases getElem?_concat.mp ha with ha | ⟨_, rfl⟩
    · exact hb.once k a ha
    · exact Nat.zero_le _
  · exact ⟨_, getElem?_concat.mpr (Or.inr ⟨rfl, rfl⟩), rfl⟩
  · intro x f hx
    exact Nat.lt_irrefl _ (hb.guards_lt hx)
  · change users (h.cos ++ [_]) h.groups h.cells.length = 1
    rw [users_newCo, hb.users_fresh]
    simp [coShare]
  · intro y hy
    change users (h.cos ++ [_]) h.groups y = _
    rw [users_newCo]
    simp [coShare, Ne.symm hy]
  · intro i co hi hf
    rcases getElem?_concat.mp hi with hi | ⟨_, rfl⟩
    · exact Or.inl (hb.co i co hi hf)
    · exact Or.inr ⟨Nat.one_pos, rfl, rfl⟩
  · intro j g hj
    exact Or.inl (hb.group j g hj)
  · intro j g hj hg
    refine ⟨hj, ?_⟩
    obtain ⟨_, m, hm, ⟨a, ha, _⟩, _, _⟩ := hb.loose j g hj hg
    rw [hm]
    intro heq
    cases heq
    exact Nat.lt_irrefl _ (lt_of_slot ha)

variable {cell : Cell}

theorem shareAcross_balanced (hb : Balanced h) {x : CellRef}
    (hx : h.cells[x]? = some cell) (hfreed : cell.freed = false) (nested : Option Nested)
    (pinned : Bool) :
    ∃ h', h.shareAcross (some cell.guards) x nested pinned = .ok (h', h.cos.length) ∧
      Balanced h' ∧ h'.maps = h.maps ∧ h'.groups = h.groups ∧
      h'.cos = h.cos ++
        [{ rtwMap := some cell.guards, across := x, nested := nested, pinned := pinned }] := by
  have hcount := hb.count x cell hx
  rw [hfreed, if_neg (by simp)] at hcount
  refine ⟨{ h with
    cells := h.cells.set x { cell with count := cell.count + 1 }
    cos := h.cos ++ [{ rtwMap := some cell.guards, across := x, nested := nested, pinned := pinned }] },
    ?_, ?_, rfl, rfl, rfl⟩
  · unfold Heap.shareAcross
    rw [liveCell_of hx hfreed]
    rfl
  refine hb.recount hx hfreed rfl rfl ?_ ?_ ?_ hb.group (fun _ _ hj _ => hj)
  · refine (users_newCo _ _).trans ?_
    rw [hcount]
    simp [coShare]
  · intro y hy
    refine (users_newCo _ _).trans ?_
    simp [coShare, Ne.symm hy]
  · intro i co hi hf
    rcases getElem?_concat.mp hi with hi | ⟨_, rfl⟩
    · exact hb.co i co hi hf
    · exact ⟨Nat.one_pos, false, cell.guards, by rw [guard_of_cell hx, hfreed], rfl⟩

variable {i : CoRef} {co : Co}

theorem addAllRef_balanced (hb : Balanced h) (hi : h.cos[i]? = some co)
    (hco : co.freed = false) :
    ∃ h', h.addAllRef i = .ok h' ∧ Balanced h' ∧ h'.maps = h.maps ∧ h'.groups = h.groups ∧
      h'.cos = h.cos.set i { co with within := co.within + 1 } := by
  obtain ⟨cell, hcell, hfreed, _, hcount⟩ := hb.co_cell hi hco
  refine ⟨{ h with
    cells := h.cells.set co.across { cell with count := cell.count + 1 }
    cos := h.cos.set i { co with within := co.within + 1 } }, ?_, ?_, rfl, rfl, rfl⟩
  · unfold Heap.addAllRef
    rw [liveCo_of hi hco]
    change (h.liveCell co.across >>= _) = _
    rw [liveCell_of hcell hfreed]
    rfl
  have husers : ∀ y, users (h.cos.set i { co with within := co.within + 1 }) h.groups y +
      coShare y co = users h.cos h.groups y + coShare y { co with within := co.within + 1 } :=
    users_setCo hi _
  refine hb.recount hcell hfreed rfl rfl ?_ ?_ ?_ hb.group (fun _ _ hj _ => hj)
  · have hset := husers co.across
    simp only [coShare, hco, and_self, if_true] at hset ⊢
    omega
  · intro y hy
    have hset := husers y
    simp only [coShare, Ne.symm hy, and_false, if_false] at hset ⊢
    omega
  · intro k co' hk hf
    rcases (getElem?_update hi).mp hk with ⟨rfl, rfl⟩ | ⟨_, hk⟩
    · exact ⟨Nat.succ_pos _, (hb.co k co hi hco).guarded⟩
    · exact hb.co k co' hk hf

theorem releaseAllRef_balanced (hb : Balanced h) (hi : h.cos[i]? = some co)
    (hco : co.freed = false) (worldMap : Option MapRef) :
    Yields NoUse (h.releaseAllRef i worldMap) (fun r => Balanced r.1 ∧ RanksKept h r.1 ∧
      r.1.groups = h.groups ∧ ∃ co', r.1.cos = h.cos.set i co' ∧ co'.pinned = co.pinned ∧
        co'.freed = r.2 ∧ (r.2 = true ↔ co.within = 1) ∧
        (r.2 = false → co' = { co with within := co.within - 1 })) := by
  obtain ⟨cell, hcell, hfreed, hmap, hcount⟩ := hb.co_cell hi hco
  have hpos := (hb.co i co hi hco).used
  have hle := within_le_users hi hco
  unfold Heap.releaseAllRef
  rw [liveCo_of hi hco]
  change Yields NoUse (h.liveCell co.across >>= _) _
  rw [liveCell_of hcell hfreed]
  refine Yields.require (by simp [NoUse]) ?_
  intro _
  -- all users of this count are the ones within this object, unless it stays
  have husers : ∀ co' y, users (h.cos.set i co') h.groups y + coShare y co =
      users h.cos h.groups y + coShare y co' := fun co' => users_setCo hi co'
  by_cases hzero : cell.count - 1 = 0
  · simp only [hzero, if_true]
    refine Yields.require (by simp [NoUse]) ?_
    intro hwithin
    refine ⟨?_, RanksKept.kill rfl, rfl, _, rfl, rfl, rfl, ?_, fun hf => by cases hf⟩
    · rw [hmap]
      refine hb.bury hcell hfreed rfl rfl ?_ ?_ ?_ (fun j g hj => Or.inr (hb.group j g hj))
        (fun _ _ hj _ => hj)
      · have hset := husers { co with within := co.within - 1, rtwMap := none, freed := true }
          co.across
        simp only [coShare, hco, and_self, if_true, Bool.true_eq_false, false_and, if_false] at hset ⊢
        omega
      · intro y hy
        have hset := husers { co with within := co.within - 1, rtwMap := none, freed := true } y
        simp only [coShare, Ne.symm hy, and_false, if_false] at hset ⊢
        omega
      · intro k co' hk hf
        rcases (getElem?_update hi).mp hk with ⟨rfl, rfl⟩ | ⟨_, hk⟩
        · cases hf
        · exact hb.co k co' hk hf
    · simp only [true_iff]
      omega
  · simp only [hzero, if_false]
    refine ⟨?_, RanksKept.refl rfl, rfl, _, rfl, rfl, rfl, ?_, ?_⟩
    · refine hb.recount hcell hfreed rfl rfl ?_ ?_ ?_ hb.group (fun _ _ hj _ => hj)
      · have hset := husers { co with
          within := co.within - 1, freed := decide (co.within - 1 = 0) } co.across
        by_cases hw : co.within - 1 = 0
        · simp only [coShare, hco, hw, and_self, if_true, decide_true, Bool.true_eq_false,
            false_and, if_false] at hset ⊢
          omega
        · simp only [coShare, hco, hw, and_self, if_true, decide_false] at hset ⊢
          omega
      · intro y hy
        have hset := husers { co with
          within := co.within - 1, freed := decide (co.within - 1 = 0) } y
        simp only [coShare, Ne.symm hy, and_false, if_false] at hset ⊢
        omega
      · intro k co' hk hf
        rcases (getElem?_update hi).mp hk with ⟨rfl, rfl⟩ | ⟨_, hk⟩
        · simp only [decide_eq_false_iff_not] at hf
          exact ⟨Nat.pos_of_ne_zero hf, (hb.co k co hi hco).guarded⟩
        · exact hb.co k co' hk hf
    · simp only [decide_eq_true_eq]
      omega
    · intro hf
      change decide (co.within - 1 = 0) = false at hf
      rw [hf, hco]

variable {j : GroupRef} {g : Group}

section
variable (hb : Balanced h)
include hb

theorem shareGroup_balanced (hj : h.groups[j]? = some g) (hpos : 0 < g.handles) :
    ∃ h' m x, h.shareGroup j = .ok (h', h.cos.length) ∧ Balanced h' ∧ h'.maps = h.maps ∧
      g.rtwGrpMap = some m ∧ h'.groups = h.groups.set j { g with ref := some x } ∧
      h'.cos = h.cos ++ [{ rtwMap := some m, across := x, pinned := false }] := by
  unfold Heap.shareGroup
  rw [getGroup_of hj]
  cases href : g.ref with
  | some x =>
    obtain ⟨cell, hcell, hfreed, hmap, _⟩ := hb.group_cell hj href hpos
    obtain ⟨h', hh', hb', hmaps, hgroups, hcos⟩ := shareAcross_balanced hb hcell hfreed none false
    refine ⟨h', cell.guards, x, ?_, hb', hmaps, hmap, ?_, hcos⟩
    · rw [← hh', ← hmap]
      simp only [bind, Except.bind, href]
    · have hself : ({ g with ref := some x } : Group) = g := by rw [← href]
      rw [hgroups, hself]
      exact (set_self hj).symm
  | none =>
    obtain ⟨hone, m, hmap, ⟨a, ha, hk⟩, hun, halone⟩ := hb.loose j g hj ⟨href, hpos⟩
    refine ⟨{ h with
        cells := h.cells ++ [{ count := 2, guards := m }]
        cos := h.cos ++ [{ rtwMap := some m, across := h.cells.length, pinned := false }]
        groups := h.groups.set j { g with ref := some h.cells.length } },
      m, h.cells.length, ?_, ?_, rfl, hmap, rfl, rfl⟩
    · simp only [bind, Except.bind, href, hmap]
    have husers : ∀ y, users
        (h.cos ++ [{ rtwMap := some m, across := h.cells.length, pinned := false }])
        (h.groups.set j { g with ref := some h.cells.length }) y =
          users h.cos h.groups y + if y = h.cells.length then 2 else 0 := by
      intro y
      have hset : users h.cos (h.groups.set j { g with ref := some h.cells.length }) y +
          groupShare y g = users h.cos h.groups y +
            groupShare y { g with ref := some h.cells.length } := users_setGroup hj _ y
      rw [users_newCo]
      by_cases hy : y = h.cells.length
      · simp only [groupShare, coShare, href, hy, hone, reduceCtorEq, and_self, if_true,
          if_false] at hset ⊢
        omega
      · simp only [groupShare, coShare, href, Option.some.injEq, hy, Ne.symm hy, reduceCtorEq,
          and_false, if_false] at hset ⊢
        omega
    refine hb.grow rfl rfl (fun _ _ hk => hk) hb.once ⟨a, ha, hk⟩ hun ?_ ?_ ?_ ?_ ?_
    · refine (husers _).trans ?_
      rw [hb.users_fresh, if_pos rfl]
    · intro y hy
      refine (husers y).trans ?_
      rw [if_neg hy]
      rfl
    · intro i co hi hf
      rcases getElem?_concat.mp hi with hi | ⟨_, rfl⟩
      · exact Or.inl (hb.co i co hi hf)
      · exact Or.inr ⟨Nat.one_pos, rfl, rfl⟩
    · intro k g' hk
      rcases (getElem?_update hj).mp hk with ⟨rfl, rfl⟩ | ⟨_, hk⟩
      · exact Or.inr ⟨rfl, hmap⟩
      · exact Or.inl (hb.group k g' hk)
    · intro k g' hk hl
      rcases (getElem?_update hj).mp hk with ⟨rfl, rfl⟩ | ⟨hne, hk⟩
      · cases hl.1
      · exact ⟨hk, halone k g' hne hk hl⟩

theorem newGroup_balanced (hi : h.cos[i]? = some co)
    (hco : co.freed = false) {g : Option MapRef → CellRef → Group}
    (href : ∀ m x, (g m x).ref = some x) (hmap : ∀ m x, (g m x).rtwGrpMap = m)
    (hone : ∀ m x, (g m x).handles = 1) :
    ∃ h', h.newGroup i g = .ok (h', h.groups.length) ∧ Balanced h' ∧ h'.maps = h.maps ∧
      h'.cos = h.cos ∧ h'.groups = h.groups ++ [g co.rtwMap co.across] := by
  obtain ⟨cell, hcell, hfreed, hm, hcount⟩ := hb.co_cell hi hco
  refine ⟨{ h with
    cells := h.cells.set co.across { cell with count := cell.count + 1 }
    groups := h.groups ++ [g co.rtwMap co.across] }, ?_, ?_, rfl, rfl, rfl⟩
  · unfold Heap.newGroup
    rw [liveCo_of hi hco]
    change (h.liveCell co.across >>= _) = _
    rw [liveCell_of hcell hfreed]
    rfl
  refine hb.recount hcell hfreed rfl rfl ?_ ?_ hb.co ?_ ?_
  · refine (users_newGroup _ _).trans ?_
    simp [groupShare, href, hone, hcount]
  · intro y hy
    refine (users_newGroup _ _).trans ?_
    simp [groupShare, href, Ne.symm hy]
  · intro k g' hk
    rcases getElem?_concat.mp hk with hk | ⟨_, rfl⟩
    · exact hb.group k g' hk
    · intro x hx
      rw [href] at hx
      cases hx
      exact ⟨false, cell.guards, by rw [guard_of_cell hcell, hfreed], fun _ => by rw [hmap, hm]⟩
  · intro k g' hk hl
    rcases getElem?_concat.mp hk with hk | ⟨_, rfl⟩
    · exact hk
    · rw [Loose, href] at hl
      cases hl.1

theorem addGroupRef_balanced (hi : h.cos[i]? = some co)
    (hco : co.freed = false) (hj : h.groups[j]? = some g)
    (href : g.ref = some co.across) :
    ∃ h', h.addGroupRef i j = .ok h' ∧ Balanced h' ∧ h'.maps = h.maps ∧ h'.cos = h.cos ∧
      h'.groups = h.groups.set j { g with handles := g.handles + 1 } ∧
      g.rtwGrpMap = co.rtwMap := by
  obtain ⟨cell, hcell, hfreed, hm, hcount⟩ := hb.co_cell hi hco
  have hself : ({ g with ref := some co.across, handles := g.handles + 1 } : Group) =
      { g with handles := g.handles + 1 } := by rw [← href]
  refine ⟨{ h with
    cells := h.cells.set co.across { cell with count := cell.count + 1 }
    groups := h.groups.set j { g with handles := g.handles + 1 } }, ?_, ?_, rfl, rfl, rfl, ?_⟩
  · unfold Heap.addGroupRef
    rw [liveCo_of hi hco, getGroup_of hj]
    change (h.liveCell co.across >>= _) = _
    rw [liveCell_of hcell hfreed, ← hself]
    rfl
  · have husers : ∀ y, users h.cos (h.groups.set j { g with handles := g.handles + 1 }) y +
        groupShare y g = users h.cos h.groups y +
          groupShare y { g with handles := g.handles + 1 } := users_setGroup hj _
    refine hb.recount hcell hfreed rfl rfl ?_ ?_ hb.co ?_ ?_
    · have hset := husers co.across
      simp only [groupShare, href, if_true] at hset ⊢
      omega
    · intro y hy
      have hset := husers y
      simp only [groupShare, href, Option.some.injEq, Ne.symm hy, if_false] at hset ⊢
      omega
    · intro k g' hk
      rcases (getElem?_update hj).mp hk with ⟨rfl, rfl⟩ | ⟨_, hk⟩
      · exact hb.group k g hj
      · exact hb.group k g' hk
    · intro k g' hk hl
      rcases (getElem?_update hj).mp hk with ⟨rfl, rfl⟩ | ⟨_, hk⟩
      · rw [Loose, href] at hl
        cases hl.1
      · exact hk
  · obtain ⟨f, m, hg, hmap⟩ := hb.group j g hj _ href
    rw [guard_of_cell hcell] at hg
    cases hg
    rw [hmap hfreed, hm]

theorem looseGroup_balanced (ranks : List Proc) {g : Option MapRef → Group}
    (href : ∀ m, (g m).ref = none) (hmap : ∀ m, (g m).rtwGrpMap = m)
    (hone : ∀ m, (g m).handles = 1) : Balanced (h.looseGroup ranks g) := by
  have hguard : ∀ y, guard (h.looseGroup ranks g) y = guard h y := fun _ => rfl
  have husers : ∀ y, users h.cos (h.groups ++ [g (some h.maps.length)]) y =
      users h.cos h.groups y := by
    intro y
    rw [users_newGroup]
    simp [groupShare, href]
  refine ⟨?_, ?_, hb.inj, ?_, fun i co hi hf => (hb.co i co hi hf).congr rfl, ?_, ?_⟩
  · intro y c hc
    refine (husers y).trans ?_
    exact hb.count y c hc
  · intro y f m hy
    obtain ⟨a, ha, hk⟩ := hb.alive y f m hy
    exact ⟨a, getElem?_concat_of_some ha, hk⟩
  · intro k a ha
    rcases getElem?_concat.mp ha with ha | ⟨_, rfl⟩
    · exact hb.once k a ha
    · exact Nat.zero_le _
  · intro k g' hk
    rcases getElem?_concat.mp hk with hk | ⟨_, rfl⟩
    · exact hb.group k g' hk
    · intro x hx
      rw [href] at hx
      cases hx
  · intro k g' hk hl
    rcases getElem?_concat.mp hk with hk | ⟨hlen, rfl⟩
    · obtain ⟨h1, m, hm, ⟨a, ha, hkills⟩, hun, halone⟩ := hb.loose k g' hk hl
      refine ⟨h1, m, hm, ⟨a, getElem?_concat_of_some ha, hkills⟩, hun, ?_⟩
      intro k' g'' hne hk' hl'
      rcases getElem?_concat.mp hk' with hk' | ⟨_, rfl⟩
      · exact halone k' g'' hne hk' hl'
      · rw [hmap]
        intro heq
        cases heq
        exact Nat.lt_irrefl _ (lt_of_slot ha)
    · refine ⟨hone _, h.maps.length, hmap _, ⟨_, getElem?_concat.mpr (Or.inr ⟨rfl, rfl⟩), rfl⟩, ?_, ?_⟩
      · intro x f hx
        exact Nat.lt_irrefl _ (hb.guards_lt hx)
      · intro k' g'' hne hk' hl' heq
        rcases getElem?_concat.mp hk' with hk' | ⟨hlen', _⟩
        · obtain ⟨_, m, hm, ⟨a, ha, _⟩, _, _⟩ := hb.loose k' g'' hk' hl'
          rw [hm] at heq
          cases heq
          exact Nat.lt_irrefl _ (lt_of_slot ha)
        · exact hne (hlen'.trans hlen.symm)

theorem setNested_balanced (hi : h.cos[i]? = some co)
    (hco : co.freed = false) (nested : Nested) :
    ∃ h', h.setNested i nested = .ok h' ∧ Balanced h' ∧ h'.maps = h.maps ∧
      h'.groups = h.groups ∧ h'.cos = h.cos.set i { co with nested := some nested } := by
  refine ⟨{ h with cos := h.cos.set i { co with nested := some nested } }, ?_, ?_, rfl, rfl, rfl⟩
  · unfold Heap.setNested
    rw [liveCo_of hi hco]
    rfl
  have husers : ∀ y, users (h.cos.set i { co with nested := some nested }) h.groups y =
      users h.cos h.groups y := by
    intro y
    have hset : users (h.cos.set i { co with nested := some nested }) h.groups y + coShare y co =
        users h.cos h.groups y + coShare y { co with nested := some nested } := users_setCo hi _ y
    simp only [coShare] at hset ⊢
    omega
  refine ⟨?_, hb.alive, hb.inj, hb.once, ?_, hb.group, ?_⟩
  · intro y c hc
    exact (husers y).trans (hb.count y c hc)
  · intro k co' hk hf
    rcases (getElem?_update hi).mp hk with ⟨rfl, rfl⟩ | ⟨_, hk⟩
    · exact ⟨(hb.co k co hi hco).used, (hb.co k co hi hco).guarded⟩
    · exact (hb.co k co' hk hf).congr rfl
  · intro j g hj hg
    obtain ⟨hone, m, hm, hp⟩ := hb.loose j g hj hg
    exact ⟨hone, m, hm, hp.alive, hp.unguarded, hp.alone⟩

end

theorem coshareGroupRelease_counted {x : CellRef}
    (hj : h.groups[j]? = some g) (href : g.ref = some x) (hmap : g.rtwGrpMap ≠ none)
    (hcell : h.cells[x]? = some cell) (hfreed : cell.freed = false) :
    h.coshareGroupRelease j = .ok (if cell.count - 1 = 0 then
        { h with
          maps := h.killMap g.rtwGrpMap
          cells := h.cells.set x { cell with count := 0, freed := true }
          groups := h.groups.set j { g with rtwGrpMap := none } }
      else { h with cells := h.cells.set x { cell with count := cell.count - 1 } }) := by
  rw [Heap.coshareGroupRelease, getGroup_of hj, ok_bind, href]
  change (require (g.rtwGrpMap ≠ none) Fault.abort >>= _) = _
  rw [require_bind, if_pos hmap, liveCell_of hcell hfreed]
  by_cases hzero : cell.count - 1 = 0
  · rw [if_pos hzero]
    exact if_pos hzero
  · rw [if_neg hzero]
    exact if_neg hzero

theorem coshareGroupRelease_loose (hj : h.groups[j]? = some g)
    (href : g.ref = none) :
    h.coshareGroupRelease j = .ok { h with
      maps := h.killMap g.rtwGrpMap
      groups := h.groups.set j { g with rtwGrpMap := none } } := by
  rw [Heap.coshareGroupRelease, getGroup_of hj, ok_bind, href]

section
variable (hb : Balanced h)
include hb

theorem coshareGroupRelease_balanced (hj : h.groups[j]? = some g) (hpos : 0 < g.handles) :
    ∃ h' m, h.coshareGroupRelease j = .ok h' ∧ RanksKept h h' ∧ h'.cos = h.cos ∧
      h'.groups = h.groups.set j { g with rtwGrpMap := m } ∧
      (1 < g.handles → m = g.rtwGrpMap) ∧
      Balanced { h' with
        groups := h.groups.set j { g with rtwGrpMap := m, handles := g.handles - 1 } } := by
  have husers : ∀ g' y, users h.cos (h.groups.set j g') y + groupShare y g =
      users h.cos h.groups y + groupShare y g' := fun g' => users_setGroup hj g'
  have hloose : ∀ g', (g.ref = none → g'.handles = 0) → g'.ref = g.ref →
      ∀ (k : GroupRef) g'', (h.groups.set j g')[k]? = some g'' → Loose g'' →
        k ≠ j ∧ h.groups[k]? = some g'' := by
    intro g' hzero href k g'' hk hl
    rcases (getElem?_update hj).mp hk with ⟨rfl, rfl⟩ | ⟨hne, hk⟩
    · have hz := hzero (href.symm.trans hl.1)
      have hp := hl.2
      omega
    · exact ⟨hne, hk⟩
  rcases Option.eq_none_or_eq_some g.ref with href | ⟨x, href⟩
  · -- nobody else has the map
    obtain ⟨hone, m, hmap, ⟨a, ha, hkills⟩, hun, halone⟩ := hb.loose j g hj ⟨href, hpos⟩
    refine ⟨_, none, coshareGroupRelease_loose hj href, RanksKept.kill rfl, rfl, rfl,
      fun hlt => by omega, ?_⟩
    have hkill : ∀ (k : MapRef) b, (h.killMap g.rtwGrpMap)[k]? = some b ↔
        k = m ∧ b = { a with kills := a.kills + 1 } ∨ k ≠ m ∧ h.maps[k]? = some b := by
      intro k b
      rw [hmap]
      exact getElem?_killMap ha
    refine ⟨?_, ?_, hb.inj, ?_, fun i co hi hf => (hb.co i co hi hf).congr rfl, ?_, ?_⟩
    · intro y c hc
      have hset := husers { g with rtwGrpMap := none, handles := g.handles - 1 } y
      have hold : groupShare y g = 0 := by simp [groupShare, href]
      have hnew : groupShare y { g with rtwGrpMap := none, handles := g.handles - 1 } = 0 := by
        simp [groupShare, href]
      rw [hold, hnew] at hset
      exact Eq.trans hset (hb.count y c hc)
    · intro y f m' hy
      obtain ⟨b, hbm, hbk⟩ := hb.alive y f m' hy
      refine ⟨b, (hkill m' b).mpr (Or.inr ⟨?_, hbm⟩), hbk⟩
      rintro rfl
      exact hun y f hy
    · intro k b hk
      rcases (hkill k b).mp hk with ⟨rfl, rfl⟩ | ⟨_, hk⟩
      · simp only [hkills]
        omega
      · exact hb.once k b hk
    · intro k g' hk
      rcases (getElem?_update hj).mp hk with ⟨rfl, rfl⟩ | ⟨_, hk⟩
      · intro x hx
        rw [show (_ : Group).ref = none from href] at hx
        cases hx
      · exact hb.group k g' hk
    · intro k g' hk hl
      obtain ⟨hne, hk'⟩ := hloose { g with rtwGrpMap := none, handles := g.handles - 1 }
        (fun _ => by simp only [hone]) rfl k g' hk hl
      obtain ⟨h1, m', hm', ⟨b, hbm, hbk⟩, hun', halone'⟩ := hb.loose k g' hk' hl
      refine ⟨h1, m', hm', ⟨b, (hkill m' b).mpr (Or.inr ⟨?_, hbm⟩), hbk⟩, hun', ?_⟩
      · rintro rfl
        exact halone k g' hne hk' hl hm'
      · intro k' g'' hne' hk'' hl'
        obtain ⟨_, hk'''⟩ := hloose { g with rtwGrpMap := none, handles := g.handles - 1 }
          (fun _ => by simp only [hone]) rfl k' g'' hk'' hl'
        exact halone' k' g'' hne' hk''' hl'
  · obtain ⟨cell, hcell, hfreed, hmap, hcount⟩ := hb.group_cell hj href hpos
    have hle := handles_le_users hj href
    have hcounted := coshareGroupRelease_counted hj href (by rw [hmap]; simp) hcell hfreed
    have hnone : g.ref ≠ none := by
      rw [href]
      simp
    by_cases hzero : cell.count - 1 = 0
    · rw [if_pos hzero] at hcounted
      refine ⟨_, none, hcounted, RanksKept.kill rfl, rfl, rfl, fun hlt => by omega, ?_⟩
      refine hb.bury hcell hfreed (by rw [hmap]) rfl ?_ ?_ hb.co ?_
        (fun k g' hk hl => (hloose { g with rtwGrpMap := none, handles := g.handles - 1 }
          (fun hn => absurd hn hnone) rfl k g' hk hl).2)
      · have hset := husers { g with rtwGrpMap := none, handles := g.handles - 1 } x
        simp only [groupShare, href, if_true] at hset ⊢
        omega
      · intro y hy
        have hset := husers { g with rtwGrpMap := none, handles := g.handles - 1 } y
        simp only [groupShare, href, Option.some.injEq, Ne.symm hy, if_false] at hset ⊢
        omega
      · intro k g' hk
        rcases (getElem?_update hj).mp hk with ⟨rfl, rfl⟩ | ⟨_, hk⟩
        · exact Or.inl href
        · exact Or.inr (hb.group k g' hk)
    · rw [if_neg hzero] at hcounted
      refine ⟨_, g.rtwGrpMap, hcounted, RanksKept.refl rfl, rfl, (set_self hj).symm,
        fun _ => rfl, ?_⟩
      refine hb.recount hcell hfreed rfl rfl ?_ ?_ hb.co ?_
        (fun k g' hk hl => (hloose { g with handles := g.handles - 1 }
          (fun hn => absurd hn hnone) rfl k g' hk hl).2)
      · have hset := husers { g with handles := g.handles - 1 } x
        simp only [groupShare, href, if_true] at hset ⊢
        omega
      · intro y hy
        have hset := husers { g with handles := g.handles - 1 } y
        simp only [groupShare, href, Option.some.injEq, Ne.symm hy, if_false] at hset ⊢
        omega
      · intro k g' hk
        rcases (getElem?_update hj).mp hk with ⟨rfl, rfl⟩ | ⟨_, hk⟩
        · exact hb.group k g hj
        · exact hb.group k g' hk

theorem groupFree_balanced (hj : h.groups[j]? = some g) (hpos : 0 < g.handles) :
    ∃ h' m, h.groupFree j = .ok h' ∧ Balanced h' ∧ RanksKept h h' ∧ h'.cos = h.cos ∧
      h'.groups = h.groups.set j { g with rtwGrpMap := m, handles := g.handles - 1 } ∧
      (1 < g.handles → m = g.rtwGrpMap) := by
  obtain ⟨h', m, hh', hranks, hcos, hgroups, hm, hb'⟩ := coshareGroupRelease_balanced hb hj hpos
  have hj' : h'.groups[j]? = some { g with rtwGrpMap := m } := by
    rw [hgroups]
    exact (getElem?_update hj).mpr (Or.inl ⟨rfl, rfl⟩)
  refine ⟨{ h' with
    groups := h.groups.set j { g with rtwGrpMap := m, handles := g.handles - 1 } }, m, ?_, hb',
    hranks, hcos, rfl, hm⟩
  unfold Heap.groupFree
  rw [hh']
  change (h'.getGroup j >>= _) = _
  rw [getGroup_of hj', hgroups]
  change Except.ok { h' with groups := (h.groups.set j _).set j _ } = _
  rw [List.set_set]

theorem assignGroup_balanced (hi : h.cos[i]? = some co)
    (hco : co.freed = false) (hcell : h.cells[co.across]? = some cell)
    (hfreed : cell.freed = false) (g' : Group)
    (hj : h.groups[j]? = some g) (hzero : g.handles = 0) (hone : g'.handles = 1) (hmap : g'.rtwGrpMap = co.rtwMap)
    (href : g'.ref = some co.across) :
    Balanced { h with
      cells := h.cells.set co.across { cell with count := cell.count + 1 }
      groups := h.groups.set j g' } := by
  obtain ⟨_, hcell', _, hm, hcount⟩ := hb.co_cell hi hco
  rw [hcell] at hcell'
  cases hcell'
  have husers : ∀ y, users h.cos (h.groups.set j g') y + groupShare y g =
      users h.cos h.groups y + groupShare y g' := users_setGroup hj g'
  have hold : ∀ y, groupShare y g = 0 := by
    intro y
    simp [groupShare, hzero]
  refine hb.recount hcell hfreed rfl rfl ?_ ?_ hb.co ?_ ?_
  · have hset := husers co.across
    rw [hold, groupShare, if_pos href, hone, ← hcount] at hset
    exact hset
  · intro y hy
    have hset := husers y
    rw [hold, groupShare, if_neg (by rw [href]; simpa using Ne.symm hy)] at hset
    exact hset
  · intro k g'' hk
    rcases (getElem?_update hj).mp hk with ⟨rfl, rfl⟩ | ⟨_, hk⟩
    · intro x hx
      rw [href] at hx
      cases hx
      exact ⟨false, cell.guards, by rw [guard_of_cell hcell, hfreed], fun _ => by rw [hmap, hm]⟩
    · exact hb.group k g'' hk
  · intro k g'' hk hl
    rcases (getElem?_update hj).mp hk with ⟨rfl, rfl⟩ | ⟨_, hk⟩
    · rw [Loose, href] at hl
      cases hl.1
    · exact hk

theorem retargetGroup_balanced (hi : h.cos[i]? = some co)
    (hco : co.freed = false) (hj : h.groups[j]? = some g)
    (hpos : 0 < g.handles)
    (hcond : g.ref = none ∨ g.ref = some co.across ∨ g.handles = 1) :
    ∃ h', h.retargetGroup j i = .ok h' ∧ Balanced h' ∧ RanksKept h h' ∧
      h'.cos = h.cos.set i { co with within := co.within + 1 } ∧
      h'.groups = h.groups.set j { g with rtwGrpMap := co.rtwMap, ref := some co.across } := by
  obtain ⟨h₁, hh₁, hb₁, hmaps₁, hgroups₁, hcos₁⟩ := addAllRef_balanced hb hi hco
  have hi₁ : h₁.cos[i]? = some { co with within := co.within + 1 } := by
    rw [hcos₁]
    exact (getElem?_update hi).mpr (Or.inl ⟨rfl, rfl⟩)
  have hj₁ : h₁.groups[j]? = some g := by
    rw [hgroups₁]
    exact hj
  unfold Heap.retargetGroup
  rw [hh₁]
  change ∃ h', (h₁.liveCo i >>= _) = Except.ok h' ∧ _
  rw [liveCo_of hi₁ hco]
  by_cases hsame : g.ref = some co.across
  · -- the count goes down and up again
    obtain ⟨cell, hcell, hfreed, hmap, hcount⟩ := hb₁.group_cell hj₁ hsame hpos
    obtain ⟨_, hcell', _, hm, _⟩ := hb₁.co_cell hi₁ hco
    rw [hcell] at hcell'
    cases hcell'
    have hmany : ¬ cell.count - 1 = 0 := by
      have hle := handles_le_users hj₁ hsame
      have hset := within_le_users hi₁ hco
      have hpos' := (hb.co i co hi hco).used
      simp only at hset
      omega
    obtain ⟨h₂, hrel, hmaps₂, hcos₂, hgroups₂, hcells₂⟩ : ∃ h₂,
        h₁.coshareGroupRelease j = .ok h₂ ∧ h₂.maps = h₁.maps ∧ h₂.cos = h₁.cos ∧ h₂.groups = h₁.groups ∧
          h₂.cells = h₁.cells.set co.across { cell with count := cell.count - 1 } := by
      have hrel := coshareGroupRelease_counted hj₁ hsame (by rw [hmap]; simp) hcell hfreed
      rw [if_neg hmany] at hrel
      exact ⟨_, hrel, rfl, rfl, rfl, rfl⟩
    have hj₂ : h₂.groups[j]? = some g := by
      rw [hgroups₂]
      exact hj₁
    have hcell₂ : h₂.cells[co.across]? = some { cell with count := cell.count - 1 } := by
      rw [hcells₂]
      exact (getElem?_update hcell).mpr (Or.inl ⟨rfl, rfl⟩)
    have hg : ({ g with rtwGrpMap := co.rtwMap, ref := some co.across } : Group) = g := by
      have hmap' : co.rtwMap = g.rtwGrpMap := hm.trans hmap.symm
      rw [hmap', ← hsame]
    have hback : ({ cell with count := cell.count - 1 + 1 } : Cell) = cell := by
      have hcnt : cell.count - 1 + 1 = cell.count := by omega
      rw [hcnt]
    refine ⟨h₁, ?_, hb₁, RanksKept.refl hmaps₁, hcos₁, ?_⟩
    · change (h₁.coshareGroupRelease j >>= _) = _
      rw [hrel]
      change (h₂.getGroup j >>= _) = _
      rw [getGroup_of hj₂]
      change (h₂.liveCell co.across >>= _) = _
      rw [liveCell_of hcell₂ hfreed]
      change Except.ok { h₂ with
        cells := h₂.cells.set co.across { cell with count := cell.count - 1 + 1 }
        groups := h₂.groups.set j { g with rtwGrpMap := co.rtwMap, ref := some co.across } } = _
      rw [hg, hback, hcells₂, List.set_set, set_self hcell, hmaps₂, hcos₂, hgroups₂, set_self hj₁]
    · rw [hg, hgroups₁, set_self hj]
  · have hone : g.handles = 1 := by
      rcases hcond with href | href | hone
      · exact (hb.loose j g hj ⟨href, hpos⟩).1
      · exact absurd href hsame
      · exact hone
    obtain ⟨h₂, m, hh₂, hranks₂, hcos₂, hgroups₂, -, hb₂⟩ := coshareGroupRelease_balanced hb₁ hj₁ hpos
    have hi₂ : h₂.cos[i]? = some { co with within := co.within + 1 } := by
      rw [hcos₂]
      exact hi₁
    obtain ⟨cell, hcell, hfreed, -, -⟩ := hb₂.co_cell hi₂ hco
    change h₂.cells[co.across]? = some cell at hcell
    have hj₂ : h₂.groups[j]? = some { g with rtwGrpMap := m } := by
      rw [hgroups₂]
      exact (getElem?_update hj₁).mpr (Or.inl ⟨rfl, rfl⟩)
    refine ⟨{ h₂ with
        cells := h₂.cells.set co.across { cell with count := cell.count + 1 }
        groups := h.groups.set j { g with rtwGrpMap := co.rtwMap, ref := some co.across } },
      ?_, ?_, (RanksKept.refl hmaps₁).trans hranks₂, hcos₂.trans hcos₁, rfl⟩
    · change (h₁.coshareGroupRelease j >>= _) = _
      rw [hh₂]
      change (h₂.getGroup j >>= _) = _
      rw [getGroup_of hj₂]
      change (h₂.liveCell co.across >>= _) = _
      rw [liveCell_of hcell hfreed]
      change Except.ok { h₂ with
        cells := h₂.cells.set co.across _
        groups := h₂.groups.set j _ } = _
      rw [hgroups₂, hgroups₁, List.set_set]
    · have hassign := assignGroup_balanced hb₂ hi₂ hco hcell hfreed
        { g with rtwGrpMap := co.rtwMap, ref := some co.across }
        ((getElem?_update hj₁).mpr (Or.inl ⟨rfl, rfl⟩)) (by simp only [hone]) hone rfl rfl
      simp only [List.set_set, hgroups₁] at hassign
      exact hassign

end

end Operations

end FgMpi.Comm.Ledger
