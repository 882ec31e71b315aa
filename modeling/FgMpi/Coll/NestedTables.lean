import FgMpi.Coll.Hierarchy
import Mathlib.Data.List.Perm.Subperm

/-! `MPIU_Nested_maps_for_communicators`, rank by rank. -/

namespace FgMpi.Coll.NestedTables
open Comm.NestedMaps Hierarchy

def firstRanks (key : Proc → Nat) (ranks : List Proc) : List Nat :=
  (List.range ranks.length).filter fun r => key (ranks.getD r 0) ∉ (ranks.take r).map key

section FirstRanks
variable {key : Proc → Nat} {ranks : List Proc} {w : Proc} {r : Nat}

theorem getD_append_left (hr : r < ranks.length) : (ranks ++ [w]).getD r 0 = ranks.getD r 0 := by
  rw [List.getD_eq_getElem?_getD, List.getElem?_append_left hr, ← List.getD_eq_getElem?_getD]

theorem getD_append_last : (ranks ++ [w]).getD ranks.length 0 = w := by
  rw [List.getD_eq_getElem?_getD, List.getElem?_concat_length]
  rfl

theorem firstRanks_append : firstRanks key (ranks ++ [w]) =
    firstRanks key ranks ++ if key w ∈ ranks.map key then [] else [ranks.length] := by
  have hold : (List.range ranks.length).filter (fun r => decide
      (key ((ranks ++ [w]).getD r 0) ∉ ((ranks ++ [w]).take r).map key)) = firstRanks key ranks := by
    refine List.filter_congr fun r hr => ?_
    have hlt := List.mem_range.mp hr
    rw [getD_append_left hlt, List.take_append_of_le_length (Nat.le_of_lt hlt)]
  rw [firstRanks, List.length_append, List.length_singleton, List.range_succ, List.filter_append, hold,
    List.filter_cons, List.filter_nil, getD_append_last, List.take_left]
  by_cases hmem : key w ∈ ranks.map key
  · rw [if_pos hmem, if_neg (by simpa using hmem)]
  · rw [if_neg hmem, if_pos (by simpa using hmem)]

theorem mem_firstRanks : r ∈ firstRanks key ranks ↔
    r < ranks.length ∧ key (ranks.getD r 0) ∉ (ranks.take r).map key := by
  rw [firstRanks, List.mem_filter, List.mem_range, decide_eq_true_iff]

theorem firsts_eq (keep : Proc → Bool) (hkeep : ∀ x y, key x = key y → keep x = keep y) (ranks : List Proc) :
    firsts key (ranks.filter keep) =
      ((firstRanks key ranks).map fun r => ranks.getD r 0).filter keep := by
  induction ranks using List.reverseRecOn with
  | nil => rfl
  | append_singleton ranks w ih =>
    have hold : ((firstRanks key ranks).map fun r => (ranks ++ [w]).getD r 0) =
        (firstRanks key ranks).map fun r => ranks.getD r 0 :=
      List.map_congr_left fun r hr => getD_append_left (mem_firstRanks.mp hr).1
    have hkey : keep w = true → (key w ∈ (firsts key (ranks.filter keep)).map key ↔ key w ∈ ranks.map key) := by
      intro hw
      rw [mem_firsts_keys]
      constructor
      · intro h
        obtain ⟨x, hx, heq⟩ := List.mem_map.mp h
        exact List.mem_map.mpr ⟨x, List.mem_of_mem_filter hx, heq⟩
      · intro h
        obtain ⟨x, hx, heq⟩ := List.mem_map.mp h
        exact List.mem_map.mpr ⟨x, List.mem_filter.mpr ⟨hx, (hkeep x w heq).trans hw⟩, heq⟩
    rw [firstRanks_append, List.map_append, List.filter_append, List.filter_append, hold, ← ih]
    cases hw : keep w with
    | false =>
      rw [List.filter_cons_of_neg (by simp [hw]), List.filter_nil, List.append_nil]
      split
      · rw [List.map_nil, List.filter_nil, List.append_nil]
      · rw [List.map_singleton, getD_append_last, List.filter_cons_of_neg (by simp [hw]), List.filter_nil,
          List.append_nil]
    | true =>
      rw [List.filter_cons_of_pos hw, List.filter_nil, firsts_append, addFirst]
      by_cases hmem : key w ∈ ranks.map key
      · rw [if_pos ((hkey hw).mpr hmem), if_pos hmem, List.map_nil, List.filter_nil, List.append_nil]
      · rw [if_neg (mt (hkey hw).mp hmem), if_neg hmem, List.map_singleton, getD_append_last,
          List.filter_cons_of_pos hw, List.filter_nil]

end FirstRanks

/-- The tables of the communicator `ranks` in the OS process `mypid`. -/
structure Tables (place : Placement) (mypid : Nat) (ranks : List Proc) (s : Scan) : Prop where
  internode : s.internode = (firstRanks (nodeOf place) ranks).map fun r => ranks.getD r 0
  intranode : s.intranode = ((firstRanks place.pid ranks).map fun r => ranks.getD r 0).filter
    (nodeOf place · = place.nodeId mypid)
  intraOsproc : s.intraOsproc = ranks.filter (place.pid · = mypid)
  nodes_distinct : (s.internode.map (nodeOf place)).Nodup
  osprocs_distinct : (s.intranode.map place.pid).Nodup
  size : s.ptn.length = ranks.length
  internode_root : ∀ (r : Nat) (w : Proc) (t : ParentToNested), ranks[r]? = some w → s.ptn[r]? = some t →
    (s.internode[t.internodeCommRoot]?).map (nodeOf place) = some (nodeOf place w)
  external_rank : ∀ (r : Nat) (w : Proc) (t : ParentToNested), ranks[r]? = some w → s.ptn[r]? = some t →
    t.internodeCommExternalRank = if r ∈ firstRanks (nodeOf place) ranks then some t.internodeCommRoot else none
  intranode_root : ∀ (r : Nat) (w : Proc) (t : ParentToNested), ranks[r]? = some w → s.ptn[r]? = some t → nodeOf place w = place.nodeId mypid →
    ∃ k, t.intranodeCommRoot = some k ∧ (s.intranode[k]?).map place.pid = some (place.pid w)
  off_node : ∀ (r : Nat) (w : Proc) (t : ParentToNested), ranks[r]? = some w → s.ptn[r]? = some t → nodeOf place w ≠ place.nodeId mypid →
    t.intranodeCommRoot = none
  local_rank : ∀ (r : Nat) (w : Proc) (t : ParentToNested), ranks[r]? = some w → s.ptn[r]? = some t →
    t.intranodeCommLocalRank =
      if nodeOf place w = place.nodeId mypid ∧ r ∈ firstRanks place.pid ranks then t.intranodeCommRoot else none
  fg_rank : ∀ (r : Nat) (w : Proc) (t : ParentToNested), ranks[r]? = some w → s.ptn[r]? = some t →
    t.intraOsprocFgRank =
      if place.pid w = mypid then some ((ranks.take r).countP (place.pid · = mypid)) else none

section Spec
variable {place : Placement} {mypid : Nat} {ranks : List Proc}

theorem getElem?_idxOf_map {key : Proc → Nat} {l : List Proc} {k : Nat} (h : k ∈ l.map key) :
    (l[(l.map key).idxOf k]?).map key = some k := by
  have hlt := List.idxOf_lt_length_iff.mpr h
  rw [← List.getElem?_map, List.getElem?_eq_getElem hlt, List.getElem_idxOf]

theorem mem_firstRanks_of_getElem? {key : Proc → Nat} {r : Nat} {w : Proc} (hr : ranks[r]? = some w) :
    r ∈ firstRanks key ranks ↔ key w ∉ (ranks.take r).map key := by
  have hlt := (List.getElem?_eq_some_iff.mp hr).1
  rw [mem_firstRanks, List.getD_eq_getElem?_getD, hr]
  exact ⟨fun h => h.2, fun h => ⟨hlt, h⟩⟩

theorem nestedMaps_tables (place : Placement) (mypid : Nat) (ranks : List Proc) :
    Tables place mypid ranks (nestedMaps place mypid ranks) := by
  obtain ⟨hinter, hintra, -, -⟩ := nestedMaps_maps place mypid ranks
  have hentry : ∀ r w t, ranks[r]? = some w → (nestedMaps place mypid ranks).ptn[r]? = some t →
      t = entryAt place mypid ranks r w := fun r w t hr ht => Option.some.inj (ht.symm.trans (ptn_get hr))
  have hall : roots place ranks = firsts (nodeOf place) (ranks.filter fun _ => true) := by
    rw [List.filter_true]
    rfl
  refine ⟨?_, ?_, nestedMaps_intraOsproc place mypid ranks, ?_, ?_, length_ptn ranks, fun r w t hr ht => ?_,
    fun r w t hr ht => ?_, fun r w t hr ht hnode => ?_, fun r w t hr ht hnode => ?_, fun r w t hr ht => ?_,
    fun r w t hr ht => ?_⟩
  · rw [hinter, hall, firsts_eq _ fun _ _ _ => rfl, List.filter_true]
  · rw [hintra, leaders]
    refine firsts_eq _ (fun x y hkey => ?_) ranks
    rw [nodeOf, nodeOf, hkey]
  · rw [hinter]
    exact firsts_keys_nodup _ _
  · rw [hintra]
    exact firsts_keys_nodup _ _
  · obtain rfl := hentry r w t hr ht
    rw [hinter]
    exact getElem?_idxOf_map (mem_roots_key place (List.mem_of_getElem? hr))
  · obtain rfl := hentry r w t hr ht
    rw [entryAt]
    by_cases hfirst : r ∈ firstRanks (nodeOf place) ranks
    · rw [if_pos hfirst, if_pos ((mem_firstRanks_of_getElem? hr).mp hfirst)]
    · rw [if_neg hfirst, if_neg fun h => hfirst ((mem_firstRanks_of_getElem? hr).mpr h)]
  · obtain rfl := hentry r w t hr ht
    have hkey := mem_leaders_key place (List.mem_of_getElem? hr)
    rw [hnode] at hkey
    refine ⟨_, if_pos hnode, ?_⟩
    rw [hintra]
    exact getElem?_idxOf_map hkey
  · obtain rfl := hentry r w t hr ht
    exact if_neg hnode
  · obtain rfl := hentry r w t hr ht
    rw [entryAt]
    dsimp only
    by_cases hfirst : nodeOf place w = place.nodeId mypid ∧ r ∈ firstRanks place.pid ranks
    · rw [if_pos hfirst, if_pos ⟨hfirst.1, (mem_firstRanks_of_getElem? hr).mp hfirst.2⟩, if_pos hfirst.1]
    · rw [if_neg hfirst, if_neg fun h => hfirst ⟨h.1, (mem_firstRanks_of_getElem? hr).mpr h.2⟩]
  · obtain rfl := hentry r w t hr ht
    rfl

theorem local_size_one {r : Nat} {w : Proc} (hr : ranks[r]? = some w)
    (h : (nestedMaps place (place.pid w) ranks).internode.length = ranks.length) :
    (nestedMaps place (place.pid w) ranks).intranode.length = 1 := by
  obtain ⟨hinter, hintra, -, -⟩ := nestedMaps_maps place (place.pid w) ranks
  have hall : firstRanks (nodeOf place) ranks = List.range ranks.length := by
    have htables := (nestedMaps_tables place (place.pid w) ranks).internode
    have hlen : (firstRanks (nodeOf place) ranks).length = ranks.length := by
      have hmap := congrArg List.length htables
      rw [List.length_map] at hmap
      exact hmap.symm.trans h
    refine (List.filter_sublist).eq_of_length ?_
    rw [List.length_range]
    exact hlen
  have hnodup : (ranks.map (nodeOf place)).Nodup := by
    refine List.pairwise_iff_getElem.mpr fun i j hi hj hij heq => ?_
    rw [List.length_map] at hi hj
    rw [List.getElem_map, List.getElem_map] at heq
    have hfirst : j ∈ firstRanks (nodeOf place) ranks := by
      rw [hall]
      exact List.mem_range.mpr hj
    refine (mem_firstRanks_of_getElem? (List.getElem?_eq_getElem hj)).mp hfirst ?_
    rw [← heq]
    exact List.mem_map_of_mem (List.mem_take_iff_getElem.mpr ⟨i, by omega, rfl⟩)
  have hsub : ((ranks.filter (nodeOf place · = nodeOf place w)).map (nodeOf place)).Nodup :=
    hnodup.sublist (List.filter_sublist.map _)
  have hsame : (ranks.filter (nodeOf place · = nodeOf place w)).map (nodeOf place) =
      List.replicate (ranks.filter (nodeOf place · = nodeOf place w)).length (nodeOf place w) := by
    refine List.eq_replicate_iff.mpr ⟨List.length_map _, fun node hnode => ?_⟩
    obtain ⟨x, hx, rfl⟩ := List.mem_map.mp hnode
    exact of_decide_eq_true (List.mem_filter.mp hx).2
  rw [hsame, List.nodup_replicate] at hsub
  have hle : (leaders place ranks (nodeOf place w)).length ≤
      (ranks.filter (nodeOf place · = nodeOf place w)).length :=
    (List.subperm_of_subset (leaders_nodup place _) fun x hx => mem_of_mem_firsts _ hx).length_le
  obtain ⟨l, hl, -⟩ := exists_leader place (List.mem_of_getElem? hr)
  have hpos := List.length_pos_of_mem hl
  rw [hintra]
  change (leaders place ranks (nodeOf place w)).length = 1
  omega

end Spec

/-- The tables are right in every OS process and the same for all members in it, and a communicator with one
member on every node has one on the caller's. -/
theorem nested_maps_tables (place : Placement) (ranks : List Proc) (r : Nat) (w : Proc) (hr : ranks[r]? = some w) :
    Tables place (place.pid w) ranks (nestedMaps place (place.pid w) ranks) ∧
      (∀ (r' : Nat) (w' : Proc), ranks[r']? = some w' → place.pid w' = place.pid w →
        nestedMaps place (place.pid w') ranks = nestedMaps place (place.pid w) ranks) ∧
      ((nestedMaps place (place.pid w) ranks).internode.length = ranks.length →
        (nestedMaps place (place.pid w) ranks).intranode.length = 1) := by
  refine ⟨nestedMaps_tables place _ ranks, fun r' w' _ hpid => ?_, local_size_one hr⟩
  rw [hpid]

theorem nested_maps_tables_twoNodes : let place : Placement := ⟨6, 3, (· / 2), (· / 2), fun p hp => by omega⟩
    Tables place 1 [4, 2, 0, 3, 2] (nestedMaps place 1 [4, 2, 0, 3, 2]) ∧
      ((nestedMaps place 1 [4, 2, 0, 3, 2]).internode.length = 5 →
        (nestedMaps place 1 [4, 2, 0, 3, 2]).intranode.length = 1) := by
  intro place
  obtain ⟨htables, -, hone⟩ := nested_maps_tables place [4, 2, 0, 3, 2] 1 2 rfl
  exact ⟨htables, hone⟩

end FgMpi.Coll.NestedTables
