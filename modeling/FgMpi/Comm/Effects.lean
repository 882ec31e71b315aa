import FgMpi.Comm.Ledger
import FgMpi.Comm.Communicator

namespace FgMpi.Comm.Effects
open Machine.Checked Machine.Outcome Machine.Slots
open Comm.NestedMaps Comm.SharedVars Comm.Communicator Comm.Ledger

structure Sane (w : World) : Prop where
  balanced : Balanced w.heap
  table : ∀ pid key i, w.table pid key = some i → ∃ co, w.heap.cos[i]? = some co ∧ co.freed = false

structure Frame (w w' : World) : Prop where
  comms : w'.comms = w.comms
  masks : w'.masks = w.masks
  pending : w'.pending = w.pending
  started : w'.started = w.started
  creations : w'.creations = w.creations

theorem Frame.trans {w₁ w₂ w₃ : World} (h₁₂ : Frame w₁ w₂) (h₂₃ : Frame w₂ w₃) : Frame w₁ w₃ :=
  ⟨h₂₃.comms.trans h₁₂.comms, h₂₃.masks.trans h₁₂.masks, h₂₃.pending.trans h₁₂.pending,
    h₂₃.started.trans h₁₂.started, h₂₃.creations.trans h₁₂.creations⟩

def Moved (target : Option GroupRef) (h h' : Heap) (i : CoRef) : Prop :=
  match target with
  | none => h'.groups = h.groups
  | some j => ∃ g co, h.groups[j]? = some g ∧ h'.cos[i]? = some co ∧
      h'.groups = h.groups.set j { g with rtwGrpMap := co.rtwMap, ref := some co.across }

structure Joined (target : Option GroupRef) (h h' : Heap) (i : CoRef) : Prop where
  balanced : Balanced h'
  kept : RanksKept h h'
  cos : ∃ co, h.cos[i]? = some co ∧ co.freed = false ∧
    h'.cos = h.cos.set i { co with within := co.within + 1 }
  moved : Moved target h h' i

structure Made (target : Option GroupRef) (pinned : Bool) (nested : Option Nested)
    (fresh : List Proc → Prop) (h h' : Heap) (i : CoRef) : Prop where
  balanced : Balanced h'
  kept : RanksKept h h'
  last : i = h.cos.length
  cos : ∃ m x a, h'.cos =
      h.cos ++ [{ rtwMap := some m, across := x, nested := nested, pinned := pinned }] ∧
    h'.maps[m]? = some a ∧ fresh a.ranks
  moved : Moved target h h' i

structure Entered (pid : Nat) (key : Key) (target : Option GroupRef) (pinned : Bool)
    (nested : Option Nested) (fresh : List Proc → Prop) (w w' : World) (i : CoRef) : Prop where
  frame : Frame w w'
  table : w'.table = Function.update w.table pid (Function.update (w.table pid) key (some i))
  heap : w.table pid key = some i ∧ Joined target w.heap w'.heap i ∨
    w.table pid key = none ∧ Made target pinned nested fresh w.heap w'.heap i

section Lookup
variable {w : World} {pid : Nat} {key : Key} {target : Option GroupRef} {pinned : Bool}
  {nested : Option Nested} {fresh : List Proc → Prop}

theorem findOrMake_entered {join : CoRef → Except Fault Heap} {make : Except Fault (Heap × CoRef)}
    (hjoin : ∀ i, w.table pid key = some i →
      Yields NoUse (join i) (fun h => Joined target w.heap h i))
    (hmake : w.table pid key = none →
      Yields NoUse make (fun r => Made target pinned nested fresh w.heap r.1 r.2)) :
    Yields NoUse (w.findOrMake pid key join make)
      (fun r => Entered pid key target pinned nested fresh w r.1 r.2) := by
  unfold World.findOrMake
  cases htable : w.table pid key with
  | some i =>
    refine (hjoin i htable).bind ?_
    intro h hj
    refine ⟨⟨rfl, rfl, rfl, rfl, rfl⟩, ?_, Or.inl ⟨htable, hj⟩⟩
    rw [← htable, Function.update_eq_self, Function.update_eq_self]
  | none =>
    refine (hmake htable).bind ?_
    rintro ⟨h, i⟩ hm
    exact ⟨⟨rfl, rfl, rfl, rfl, rfl⟩, rfl, Or.inr ⟨htable, hm⟩⟩

theorem addAllRef_joined (hs : Sane w) {i : CoRef} (hi : w.table pid key = some i) :
    Yields NoUse (w.heap.addAllRef i) (fun h => Joined none w.heap h i) := by
  obtain ⟨co, hco, hfreed⟩ := hs.table pid key i hi
  obtain ⟨h', hh', hb, hmaps, hgroups, hcos⟩ := addAllRef_balanced hs.balanced hco hfreed
  exact Yields.of_ok ⟨h', hh', hb, RanksKept.refl hmaps, ⟨co, hco, hfreed, hcos⟩, hgroups⟩

end Lookup

section Making
variable {h : Heap}

variable {fresh : List Proc → Prop}

theorem newShared_made (hb : Balanced h) (ranks : List Proc) (nested : Option Nested)
    (pinned : Bool) (hfresh : fresh ranks) :
    Made none pinned nested fresh h (h.newShared ranks nested pinned).1 h.cos.length where
  balanced := newShared_balanced hb ranks nested pinned
  kept _ a ha := ⟨a, getElem?_concat_of_some ha, rfl⟩
  last := rfl
  cos := ⟨_, _, _, rfl, getElem?_concat.mpr (Or.inr ⟨rfl, rfl⟩), hfresh⟩
  moved := rfl

theorem findMap_of_co (hb : Balanced h) {i : CoRef} {co : Co} (hi : h.cos[i]? = some co)
    (hco : co.freed = false) :
    ∃ m a, co.rtwMap = some m ∧ h.maps[m]? = some a ∧ h.findMap co.rtwMap = .ok a.ranks := by
  obtain ⟨cell, hcell, hfreed, hm, _⟩ := hb.co_cell hi hco
  obtain ⟨a, ha, hk⟩ := hb.alive _ _ _ (guard_of_cell hcell)
  refine ⟨cell.guards, a, hm, ha, ?_⟩
  rw [hm]
  simp only [Heap.findMap, ha, hk hfreed, if_true]

variable {j : GroupRef}

section
variable (hb : Balanced h)
include hb

theorem findMap_of_group {g : Group} (hj : h.groups[j]? = some g) (hpos : 0 < g.handles) :
    ∃ m a, g.rtwGrpMap = some m ∧ h.maps[m]? = some a ∧ h.findMap g.rtwGrpMap = .ok a.ranks := by
  rcases Option.eq_none_or_eq_some g.ref with href | ⟨x, href⟩
  · obtain ⟨_, m, hm, ⟨a, ha, hk⟩, _, _⟩ := hb.loose j g hj ⟨href, hpos⟩
    refine ⟨m, a, hm, ha, ?_⟩
    rw [hm]
    simp only [Heap.findMap, ha, hk, if_true]
  · obtain ⟨cell, hcell, hfreed, hm, _⟩ := hb.group_cell hj href hpos
    obtain ⟨a, ha, hk⟩ := hb.alive _ _ _ (guard_of_cell hcell)
    refine ⟨cell.guards, a, hm, ha, ?_⟩
    rw [hm]
    simp only [Heap.findMap, ha, hk hfreed, if_true]

theorem shareAcross_made {i : CoRef} {co : Co} (hi : h.cos[i]? = some co)
    (hco : co.freed = false) (nested : Option Nested) (pinned : Bool)
    (hfresh : ∀ ranks, h.findMap co.rtwMap = .ok ranks → fresh ranks) :
    Yields NoUse (h.shareAcross co.rtwMap co.across nested pinned)
      (fun r => Made none pinned nested fresh h r.1 r.2) := by
  obtain ⟨cell, hcell, hfreed, hm, _⟩ := hb.co_cell hi hco
  obtain ⟨m, a, hm', ha, hfind⟩ := findMap_of_co hb hi hco
  obtain ⟨h', hh', hb', hmaps, hgroups, hcos⟩ := shareAcross_balanced hb hcell hfreed nested pinned
  rw [← hm] at hh'
  refine Yields.of_ok ⟨_, hh', hb', RanksKept.refl hmaps, rfl, ?_, hgroups⟩
  refine ⟨cell.guards, co.across, a, hcos, ?_, hfresh _ hfind⟩
  rw [hm'] at hm
  cases hm
  rw [hmaps]
  exact ha

theorem shareGroup_made {g : Group} (hj : h.groups[j]? = some g)
    (hpos : 0 < g.handles)
    (hfresh : ∀ ranks, h.findMap g.rtwGrpMap = .ok ranks → fresh ranks) :
    Yields NoUse (h.shareGroup j) (fun r => Made (some j) false none fresh h r.1 r.2) := by
  obtain ⟨m, a, hm', ha, hfind⟩ := findMap_of_group hb hj hpos
  obtain ⟨h', m, x, hh', hb', hmaps, hm, hgroups, hcos⟩ := shareGroup_balanced hb hj hpos
  rw [hm] at hm'
  cases hm'
  refine Yields.of_ok ⟨_, hh', hb', RanksKept.refl hmaps, rfl, ?_, ?_⟩
  · exact ⟨m, x, a, hcos, by rw [hmaps]; exact ha, hfresh _ hfind⟩
  · refine ⟨g, _, hj, by rw [hcos]; exact getElem?_concat.mpr (Or.inr ⟨rfl, rfl⟩), ?_⟩
    rw [hgroups, ← hm]

theorem retargetGroup_joined {i : CoRef} {co : Co} (hi : h.cos[i]? = some co)
    (hco : co.freed = false) {g : Group} (hj : h.groups[j]? = some g)
    (hpos : 0 < g.handles) (hcond : g.ref = none ∨ g.ref = some co.across ∨ g.handles = 1) :
    Yields NoUse (h.retargetGroup j i) (fun h' => Joined (some j) h h' i) := by
  obtain ⟨h', hh', hb', hkept, hcos, hgroups⟩ := retargetGroup_balanced hb hi hco hj hpos hcond
  refine Yields.of_ok ⟨h', hh', hb', hkept, ⟨co, hi, hco, hcos⟩, g,
    { co with within := co.within + 1 }, hj, ?_, hgroups⟩
  rw [hcos]
  exact (getElem?_update hi).mpr (Or.inl ⟨rfl, rfl⟩)

end

end Making

theorem table_update (t : Nat → Key → Option CoRef) (pid pid' : Nat) (key key' : Key)
    (v : Option CoRef) :
    Function.update t pid (Function.update (t pid) key v) pid' key' =
      if pid' = pid ∧ key' = key then v else t pid' key' := by
  by_cases hpid : pid' = pid
  · subst hpid
    by_cases hkey : key' = key
    · subst hkey
      simp
    · simp [hkey]
  · simp [hpid]

section Entered
variable {w w' : World} {pid : Nat} {key : Key} {target : Option GroupRef} {pinned : Bool}
  {nested : Option Nested} {fresh : List Proc → Prop} {i : CoRef}

section
variable (he : Entered pid key target pinned nested fresh w w' i)
include he

theorem Entered.balanced : Balanced w'.heap := by
  rcases he.heap with ⟨_, hj⟩ | ⟨_, hm⟩
  · exact hj.balanced
  · exact hm.balanced

theorem Entered.kept : RanksKept w.heap w'.heap := by
  rcases he.heap with ⟨_, hj⟩ | ⟨_, hm⟩
  · exact hj.kept
  · exact hm.kept

theorem Entered.old {k : CoRef} {co : Co}
    (hk : w.heap.cos[k]? = some co) :
    w'.heap.cos[k]? = some { co with within := if k = i then co.within + 1 else co.within } := by
  rcases he.heap with ⟨_, hj⟩ | ⟨_, hm⟩
  · obtain ⟨co', hi, _, hcos⟩ := hj.cos
    rw [hcos]
    refine (getElem?_update hi).mpr ?_
    by_cases hki : k = i
    · subst hki
      rw [hi] at hk
      cases hk
      exact Or.inl ⟨rfl, by simp⟩
    · exact Or.inr ⟨hki, by simp [hki, hk]⟩
  · obtain ⟨m, x, a, hcos, _⟩ := hm.cos
    have hlt := lt_of_slot hk
    have hki : k ≠ i := by
      rw [hm.last]
      exact Nat.ne_of_lt hlt
    rw [hcos]
    exact getElem?_concat_of_some (by simp [hki, hk])

theorem Entered.other {k : CoRef}
    {co : Co} (hk : w'.heap.cos[k]? = some co) (hki : k ≠ i) : w.heap.cos[k]? = some co := by
  rcases he.heap with ⟨_, hj⟩ | ⟨_, hm⟩
  · obtain ⟨co', hi, _, hcos⟩ := hj.cos
    rw [hcos] at hk
    obtain ⟨h, _⟩ | ⟨_, hk⟩ := (getElem?_update hi).mp hk
    · exact absurd h hki
    · exact hk
  · obtain ⟨m, x, a, hcos, _⟩ := hm.cos
    rw [hcos] at hk
    rcases getElem?_concat.mp hk with hk | ⟨h, _⟩
    · exact hk
    · exact absurd (h.trans hm.last.symm) hki

theorem Entered.found :
    (∃ co, w.table pid key = some i ∧ w.heap.cos[i]? = some co ∧ co.freed = false ∧
      w'.heap.cos[i]? = some { co with within := co.within + 1 }) ∨
    (w.table pid key = none ∧ i = w.heap.cos.length ∧ ∃ m x a, w'.heap.cos[i]? =
      some { rtwMap := some m, across := x, nested := nested, pinned := pinned } ∧
      w'.heap.maps[m]? = some a ∧ fresh a.ranks) := by
  rcases he.heap with ⟨htable, hj⟩ | ⟨htable, hm⟩
  · obtain ⟨co, hi, hco, hcos⟩ := hj.cos
    refine Or.inl ⟨co, htable, hi, hco, ?_⟩
    rw [hcos]
    exact (getElem?_update hi).mpr (Or.inl ⟨rfl, rfl⟩)
  · obtain ⟨m, x, a, hcos, ha, hfresh⟩ := hm.cos
    refine Or.inr ⟨htable, hm.last, m, x, a, ?_, ha, hfresh⟩
    rw [hcos]
    exact getElem?_concat.mpr (Or.inr ⟨hm.last, rfl⟩)

theorem Entered.live : ∃ co, w'.heap.cos[i]? = some co ∧ co.freed = false := by
  rcases he.found with ⟨co, _, _, hco, hi⟩ | ⟨_, _, m, x, a, hi, _⟩
  · exact ⟨_, hi, hco⟩
  · exact ⟨_, hi, rfl⟩

theorem Entered.sane (hs : Sane w) : Sane w' where
  balanced := he.balanced
  table pid' key' k hk := by
    rw [he.table, table_update] at hk
    split at hk
    · cases hk
      exact he.live
    · obtain ⟨co, hco, hfreed⟩ := hs.table pid' key' k hk
      exact ⟨_, he.old hco, hfreed⟩

theorem Entered.addComm (hs : Sane w) (c : Intracomm) :
    Sane (w'.addComm c) ∧ (w'.addComm c).comms[w.comms.length]? = some c := by
  refine ⟨⟨(he.sane hs).balanced, (he.sane hs).table⟩, ?_⟩
  rw [← he.frame.comms]
  exact getElem?_concat.mpr (Or.inr ⟨rfl, rfl⟩)

end

end Entered

def Picks (all : List Proc) (keys : List Nat) (ranks : List Proc) : Prop :=
  keys.map (fun k => all[k]?) = ranks.map some

section Picks
variable {all ranks : List Proc} {keys : List Nat}

section
variable (h : Picks all keys ranks)
include h

theorem Picks.length : ranks.length = keys.length := by
  have hlen := congrArg List.length h
  rw [List.length_map, List.length_map] at hlen
  exact hlen.symm

theorem Picks.getElem? {i k : Nat} (hk : keys[i]? = some k) : ranks[i]? = all[k]? := by
  have hget := congrArg (fun l => l[i]?) h
  simp only [List.getElem?_map, hk, Option.map_some] at hget
  cases hr : ranks[i]? with
  | none => rw [hr] at hget; cases hget
  | some r =>
    rw [hr] at hget
    exact (Option.some.inj hget).symm

theorem Picks.mem {r : Proc} (hr : r ∈ ranks) : ∃ k ∈ keys, all[k]? = some r := by
  have hmem : some r ∈ ranks.map some := List.mem_map_of_mem hr
  rw [← h] at hmem
  obtain ⟨k, hk, hkr⟩ := List.mem_map.mp hmem
  exact ⟨k, hk, hkr⟩

theorem Picks.unique {ranks' : List Proc} (h' : Picks all keys ranks') : ranks = ranks' :=
  List.map_injective_iff.mpr (Option.some_injective _) (h.symm.trans h')

theorem Picks.nodup (hkeys : keys.Nodup) (hall : all.Nodup) : ranks.Nodup := by
  refine List.Nodup.of_map some ?_
  rw [← h]
  refine hkeys.map_on ?_
  intro k hk k' hk' heq
  obtain ⟨r, hr⟩ : ∃ r, all[k]? = some r := by
    have hmem : all[k]? ∈ keys.map (fun k => all[k]?) := List.mem_map_of_mem hk
    rw [h] at hmem
    obtain ⟨r, _, hr⟩ := List.mem_map.mp hmem
    exact ⟨r, hr.symm⟩
  obtain ⟨hlt, hget⟩ := List.getElem?_eq_some_iff.mp hr
  obtain ⟨hlt', hget'⟩ := List.getElem?_eq_some_iff.mp (heq ▸ hr)
  exact (List.Nodup.getElem_inj_iff hall).mp (hget.trans hget'.symm)

end

theorem picks_filterMap (h : ∀ k ∈ keys, k < all.length) :
    Picks all keys (keys.filterMap (fun k => all[k]?)) := by
  induction keys with
  | nil => rfl
  | cons k keys ih =>
    have hk := h k (List.mem_cons_self ..)
    have hrest := ih (fun k' hk' => h k' (List.mem_cons_of_mem _ hk'))
    change _ = _ at hrest ⊢
    rw [List.map_cons, List.filterMap_cons, List.getElem?_eq_getElem hk, List.map_cons, hrest]

theorem picks_range {size : Nat} (h : size ≤ all.length) : Picks all (List.range size) (all.take size) := by
  refine List.ext_getElem? ?_
  intro i
  rw [List.getElem?_map, List.getElem?_map, List.getElem?_take]
  by_cases hi : i < size
  · simp [hi, List.getElem?_eq_getElem (show i < all.length by omega)]
  · simp [hi]

end Picks

theorem lookupRank_noUse (ranks : List Proc) (key : Nat) :
    Yields NoUse (lookupRank ranks key) (fun r => ranks[key]? = some r) := by
  unfold lookupRank
  cases hr : ranks[key]? with
  | none => simp [Yields, NoUse]
  | some r => exact rfl

theorem lookupRanks_noUse (ranks : List Proc) (keys : List Nat) :
    Yields NoUse (lookupRanks ranks keys) (Picks ranks keys) := by
  induction keys with
  | nil => exact rfl
  | cons key keys ih =>
    refine (lookupRank_noUse ranks key).bind ?_
    intro r hr
    refine ih.bind ?_
    intro rs hrs
    change _ = _
    rw [List.map_cons, List.map_cons, hr, hrs]

theorem findLeader_noUse (ranks : List Proc) :
    Yields NoUse (findLeader ranks) (fun r => ranks.min? = some r) := by
  unfold findLeader
  cases hr : ranks.min? with
  | none => simp [Yields, NoUse]
  | some r => exact rfl

structure Renested (w w' : World) (i : CoRef) (n : Option Nested) : Prop where
  frame : Frame w w'
  table : w'.table = w.table
  balanced : Balanced w'.heap
  maps : w'.heap.maps = w.heap.maps
  groups : w'.heap.groups = w.heap.groups
  cos : ∃ co, w.heap.cos[i]? = some co ∧ co.freed = false ∧
    w'.heap.cos = w.heap.cos.set i { co with nested := n }

def NeedsColocated (nested : Nested) (size : Nat) : Prop :=
  nested.externalSize ≠ size ∧ 1 < nested.fgLocalSize

def Finished (pid : Nat) (ci : CommRef) (c : Intracomm) (nested : Nested) (n : Option Nested)
    (fresh : List Proc → Prop) (w w' : World) : Prop :=
  ∃ w₁, Renested w w₁ c.co n ∧
    (¬ NeedsColocated nested c.localSize ∧ w' = w₁ ∨
      NeedsColocated nested c.localSize ∧ ∃ w₂ i rank,
        Entered pid ⟨c.contextId + colocatedOffset, c.leader⟩ none true none fresh w₁ w₂ i ∧
        w' = w₂.setColocated ci c ⟨i, rank, nested.fgLocalSize⟩)

def Computed (place : Placement) (h : Heap) (c : Intracomm) (rtwMap : Option MapRef)
    (nested : Nested) : Prop :=
  ∃ (all ranks : List Proc) (me : Proc), h.findMap rtwMap = .ok all ∧
    Picks all (List.range c.localSize) ranks ∧ ranks[c.rank]? = some me ∧
    nested.fgLocalSize = (ranks.filter (fun r => place.pid r = place.pid me)).length ∧
    nested.intraOsproc = some (ranks.filter (fun r => place.pid r = place.pid me))

def Extracted (nested : Nested) (ranks : List Proc) : Prop :=
  ∀ hash, nested.intraOsproc = some hash → Picks hash (List.range nested.fgLocalSize) ranks

theorem rtwmapFindLeader_noUse {h : Heap} {m : Option MapRef} {all : List Proc}
    (hm : h.findMap m = .ok all) (size : Nat) :
    Yields NoUse (rtwmapFindLeader h m size) (fun leader => ∃ ranks,
      Picks all (List.range size) ranks ∧ ranks.min? = some leader) := by
  unfold rtwmapFindLeader
  refine Yields.bind_ok hm ?_
  refine (lookupRanks_noUse all (List.range size)).bind ?_
  intro ranks hranks
  refine (findLeader_noUse ranks).mono ?_
  intro leader hleader
  exact ⟨ranks, hranks, hleader⟩

theorem getComm_of {w : World} {ci : CommRef} {c : Intracomm} (hc : w.comms[ci]? = some c) :
    w.getComm ci = .ok c := by
  unfold World.getComm
  rw [hc]

section Commit
variable {place : Placement} {w : World} {ci : CommRef} {c : Intracomm} {co : Co}

theorem nestedOf_computed (hb : Balanced w.heap) (hi : w.heap.cos[c.co]? = some co)
    (hco : co.freed = false) :
    Yields NoUse (nestedOf place w.heap c co.rtwMap)
      (Computed place w.heap c co.rtwMap) := by
  obtain ⟨m, a, _, _, hfind⟩ := findMap_of_co hb hi hco
  unfold nestedOf
  refine Yields.bind_ok hfind ?_
  refine (lookupRanks_noUse a.ranks (List.range c.localSize)).bind ?_
  intro ranks hranks
  refine (lookupRank_noUse ranks c.rank).bind ?_
  intro me hme
  refine ⟨a.ranks, ranks, me, hfind, hranks, hme, ?_, ?_⟩
  · rw [nestedMaps_intraOsproc]
  · rw [nestedMaps_intraOsproc]

theorem checkNested_noUse (nested : Nested) (rank : Nat) :
    Yields NoUse (checkNested nested rank) (fun _ => True) := by
  have habort : NoUse .abort := by simp [NoUse]
  unfold checkNested
  cases nested.ptn[rank]? with
  | none => exact habort
  | some entry =>
    refine Yields.require habort fun _ => ?_
    refine Yields.require habort fun _ => ?_
    refine Yields.require habort fun _ => ?_
    refine Yields.require habort fun _ => ?_
    trivial

variable {i : CoRef}

theorem setNested_renested (hb : Balanced w.heap) (hi : w.heap.cos[i]? = some co)
    (hco : co.freed = false) (nested : Nested) :
    ∃ h, w.heap.setNested i nested = .ok h ∧
      Renested w { w with heap := h } i (some nested) := by
  obtain ⟨h, hh, hb', hmaps, hgroups, hcos⟩ := setNested_balanced hb hi hco nested
  exact ⟨h, hh, ⟨rfl, rfl, rfl, rfl, rfl⟩, rfl, hb', hmaps, hgroups, co, hi, hco, hcos⟩

theorem Renested.again {w₁ w₂ : World} {n n' : Option Nested}
    (h₁ : Renested w w₁ i n) (h₂ : Renested w₁ w₂ i n') : Renested w w₂ i n' := by
  obtain ⟨co, hi, hco, hcos⟩ := h₁.cos
  obtain ⟨co', hi', hco', hcos'⟩ := h₂.cos
  rw [hcos] at hi' hcos'
  obtain ⟨_, rfl⟩ | ⟨hne, _⟩ := (getElem?_update hi).mp hi'
  · refine ⟨h₁.frame.trans h₂.frame, h₂.table.trans h₁.table, h₂.balanced,
      h₂.maps.trans h₁.maps, h₂.groups.trans h₁.groups, co, hi, hco, ?_⟩
    rw [hcos', List.set_set]
  · exact absurd rfl hne

theorem Renested.sane {w₁ : World} {n : Option Nested} (hs : Sane w) (hr : Renested w w₁ i n) : Sane w₁ where
  balanced := hr.balanced
  table pid key k hk := by
    obtain ⟨co, hi, hco, hcos⟩ := hr.cos
    rw [hr.table] at hk
    obtain ⟨co', hk', hfreed⟩ := hs.table pid key k hk
    rw [hcos]
    by_cases hki : k = i
    · exact ⟨_, (getElem?_update hi).mpr (Or.inl ⟨hki, rfl⟩), hco⟩
    · exact ⟨co', (getElem?_update hi).mpr (Or.inr ⟨hki, hk'⟩), hfreed⟩

theorem Renested.refl (hb : Balanced w.heap) (hi : w.heap.cos[i]? = some co)
    (hco : co.freed = false) : Renested w w i co.nested :=
  ⟨⟨rfl, rfl, rfl, rfl, rfl⟩, rfl, hb, rfl, rfl, co, hi, hco, (set_self hi).symm⟩

theorem findColocated_entered (hs : Sane w) {nested : Nested}
    (hi : w.heap.cos[i]? = some co) (hco : co.freed = false) (hn : co.nested = some nested)
    (junk : Nat → Proc) (pid : Nat) (key : Key) :
    Yields NoUse (w.findOrMake pid key w.heap.addAllRef (extractColocated junk w.heap i nested))
      (fun r => ∃ n w₁, (n = nested ∨ n = { nested with intraOsproc := none }) ∧
        Renested w w₁ i (some n) ∧
        Entered pid key none true none (Extracted nested) w₁ r.1 r.2) := by
  have hrefl : Renested w w i (some nested) := hn ▸ Renested.refl hs.balanced hi hco
  unfold World.findOrMake
  cases htable : w.table pid key with
  | some k =>
    refine (addAllRef_joined hs htable).bind ?_
    intro h hj
    refine ⟨nested, w, Or.inl rfl, hrefl, ⟨rfl, rfl, rfl, rfl, rfl⟩, ?_, Or.inl ⟨htable, hj⟩⟩
    rw [← htable, Function.update_eq_self, Function.update_eq_self]
  | none =>
    unfold extractColocated
    cases hhash : nested.intraOsproc with
    | some hash =>
      refine Yields.bind (P := fun r => ∃ w₁, Renested w w₁ i
        (some { nested with intraOsproc := none }) ∧ Made none true none (Extracted nested)
          w₁.heap r.1 r.2) ?_ ?_
      · refine (lookupRanks_noUse hash (List.range nested.fgLocalSize)).bind ?_
        intro ranks hranks
        obtain ⟨h₁, hh₁, hr₁⟩ := setNested_renested hs.balanced hi hco
          { nested with intraOsproc := none }
        refine Yields.bind_ok hh₁ ?_
        refine ⟨_, hr₁, newShared_made hr₁.balanced ranks none true ?_⟩
        intro hash' hhash'
        rw [hhash] at hhash'
        cases hhash'
        exact hranks
      · rintro ⟨h, k⟩ ⟨w₁, hr, hm⟩
        refine ⟨_, w₁, Or.inr rfl, hr, ⟨?_, ?_, ?_, ?_, ?_⟩, ?_, Or.inr ⟨?_, hm⟩⟩
        · exact hr.frame.comms.symm
        · exact hr.frame.masks.symm
        · exact hr.frame.pending.symm
        · exact hr.frame.started.symm
        · exact hr.frame.creations.symm
        · rw [hr.table]
        · rw [hr.table]
          exact htable
    | none =>
      refine ⟨nested, w, Or.inl rfl, hrefl, ⟨rfl, rfl, rfl, rfl, rfl⟩, rfl,
        Or.inr ⟨htable, newShared_made hs.balanced _ none true ?_⟩⟩
      intro hash' hhash'
      rw [hhash] at hhash'
      cases hhash'

theorem commitNested_finished (hs : Sane w) (hi : w.heap.cos[c.co]? = some co)
    (hco : co.freed = false) (junk : Nat → Proc) (nested : Nested) :
    Yields NoUse (commitNested place junk w ci c nested) (fun w' => ∃ n,
      (n = nested ∨ n = { nested with intraOsproc := none }) ∧
      Finished (place.pid c.proc) ci c nested (some n) (Extracted nested) w w') := by
  obtain ⟨h₁, hh₁, hr₁⟩ := setNested_renested hs.balanced hi hco nested
  obtain ⟨co₁, hi₁, hco₁, hn₁⟩ : ∃ co₁, h₁.cos[c.co]? = some co₁ ∧ co₁.freed = false ∧
      co₁.nested = some nested := by
    obtain ⟨co', hi', hco', hcos⟩ := hr₁.cos
    change h₁.cos = _ at hcos
    rw [hcos]
    exact ⟨_, (getElem?_update hi').mpr (Or.inl ⟨rfl, rfl⟩), hco', rfl⟩
  -- the hash of the colocated members is thrown away
  obtain ⟨h₂, hh₂, hr₂'⟩ := setNested_renested hr₁.balanced hi₁ hco₁
    { nested with intraOsproc := none }
  have hr₂ := hr₁.again hr₂'
  unfold commitNested
  refine Yields.bind_ok hh₁ ?_
  refine (checkNested_noUse nested c.rank).bind ?_
  intro entry _
  split
  · rename_i hext
    refine Yields.bind_ok hh₂ ?_
    refine Yields.require (by simp [NoUse]) fun _ => ?_
    exact ⟨_, Or.inr rfl, _, hr₂, Or.inl ⟨fun hneed => hneed.1 hext, rfl⟩⟩
  · rename_i hext
    split
    · rename_i hfg
      refine (findColocated_entered (hr₁.sane hs) hi₁ hco₁ hn₁ junk _ _).bind ?_
      rintro ⟨w₃, i⟩ ⟨n, w₂, hn, hr, he⟩
      exact ⟨n, hn, w₂, hr₁.again hr, Or.inr ⟨⟨hext, hfg⟩, w₃, i, _, he, rfl⟩⟩
    · rename_i hfg
      refine Yields.bind_ok hh₂ ?_
      exact ⟨_, Or.inr rfl, _, hr₂, Or.inl ⟨fun hneed => hfg hneed.2, rfl⟩⟩

theorem commit_finished (hs : Sane w) (hc : w.comms[ci]? = some c)
    (hi : w.heap.cos[c.co]? = some co) (hco : co.freed = false) (junk : Nat → Proc) :
    Yields NoUse (commit place junk w ci) (fun w' => ∃ nested n,
      (co.nested = some nested ∨
        co.nested = none ∧ Computed place w.heap c co.rtwMap nested) ∧
      (n = nested ∨ n = { nested with intraOsproc := none }) ∧
      Finished (place.pid c.proc) ci c nested (some n) (Extracted nested) w w') := by
  have hfind : Yields NoUse (findNested place w.heap c co) (fun nested =>
      co.nested = some nested ∨
        co.nested = none ∧ Computed place w.heap c co.rtwMap nested) := by
    unfold findNested
    cases hn : co.nested with
    | some nested => exact Or.inl rfl
    | none =>
      refine (nestedOf_computed hs.balanced hi hco).mono ?_
      intro nested hcomp
      exact Or.inr ⟨rfl, hcomp⟩
  unfold commit
  refine Yields.bind_ok (getComm_of hc) ?_
  refine Yields.bind_ok (liveCo_of hi hco) ?_
  refine hfind.bind ?_
  intro nested hnested
  refine (commitNested_finished hs hi hco junk nested).mono ?_
  rintro w' ⟨n, hn, hfin⟩
  exact ⟨nested, n, hnested, hn, hfin⟩

def Inherited (parent : Intracomm) (h : Heap) (ranks : List Proc) : Prop :=
  ∃ k kco, parent.colocated = some k ∧ h.cos[k.co]? = some kco ∧ h.findMap kco.rtwMap = .ok ranks

theorem shareCommit_finished (hs : Sane w) (hc : w.comms[ci]? = some c)
    (hi : w.heap.cos[c.co]? = some co) (hco : co.freed = false) {parent : Intracomm} {pco : Co}
    (hpi : w.heap.cos[parent.co]? = some pco) (hpco : pco.freed = false)
    (hcolo : ∀ k, parent.colocated = some k → ∃ kco, w.heap.cos[k.co]? = some kco ∧ kco.freed = false)
    (hleader : c.leader = parent.leader) (hsize : c.localSize = parent.localSize) :
    Yields NoUse (shareCommit place w parent ci) (fun w' => ∃ nested, pco.nested = some nested ∧
      Finished (place.pid c.proc) ci c nested co.nested (Inherited parent w.heap) w w') := by
  have hrefl := Renested.refl hs.balanced hi hco
  unfold shareCommit
  refine Yields.bind_ok (getComm_of hc) ?_
  refine Yields.bind_ok (liveCo_of hpi hpco) ?_
  cases hn : pco.nested with
  | none => simp [Yields, NoUse]
  | some nested =>
    refine (checkNested_noUse nested parent.rank).bind ?_
    intro entry _
    split
    · rename_i hext
      refine Yields.require (by simp [NoUse]) fun _ => ?_
      exact ⟨nested, rfl, w, hrefl, Or.inl ⟨fun hneed => hneed.1 (by rw [hext, hsize]), rfl⟩⟩
    · rename_i hext
      split
      · rename_i hfg
        refine Yields.bind (P := fun r => Entered (place.pid c.proc)
          ⟨c.contextId + colocatedOffset, c.leader⟩ none true none (Inherited parent w.heap)
          w r.1 r.2) ?_ ?_
        · rw [hleader]
          refine findOrMake_entered (fun _ hk => addAllRef_joined hs hk) fun _ => ?_
          cases hk : parent.colocated with
          | none => simp [Yields, NoUse]
          | some k =>
            obtain ⟨kco, hkco, hkfreed⟩ := hcolo k hk
            refine Yields.bind_ok (liveCo_of hkco hkfreed) ?_
            exact shareAcross_made hs.balanced hkco hkfreed none true
              fun ranks hranks => ⟨k, kco, hk, hkco, hranks⟩
        · rintro ⟨w₂, i⟩ he
          refine ⟨nested, rfl, w, hrefl, Or.inr ⟨⟨?_, hfg⟩, w₂, i, _, he, rfl⟩⟩
          rw [hsize]
          exact hext
      · rename_i hfg
        exact ⟨nested, rfl, w, hrefl, Or.inl ⟨fun hneed => hfg hneed.2, rfl⟩⟩

end Commit

end FgMpi.Comm.Effects
