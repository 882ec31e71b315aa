import FgMpi.Coll.Hierarchy

/-! The host names of `MPIDI_Populate_vc_node_ids` (`mpid/ch3/src/mpid_vc.c`). -/

namespace FgMpi.Procmap.NodeIds
open Coll.Hierarchy

abbrev Name := List Char

/-- The local variables of the loop: `node_names`, `g_max_node_id` and the node ids given so far. -/
structure Names where
  nodeNames : Nat → Name
  maxNodeId : Nat
  nodeId : List Nat

section Loop
variable (size keyMaxSz ourPgRank : Nat) (hostname : Name) (kvsGet : Nat → Name)

/-- `!strncmp(a, b, key_max_sz)`. -/
def sameName (a b : Name) : Bool := a.take keyMaxSz = b.take keyMaxSz

/-- The loop over `j`; it ends with `g_max_node_id + 1` if no name matches. -/
def searchNames (nodeNames : Nat → Name) (maxNodeId : Nat) : Nat :=
  ((List.range (maxNodeId + 1)).find? fun j => sameName keyMaxSz (nodeNames j) (nodeNames maxNodeId)).getD
    (maxNodeId + 1)

/-- The body of the loop over the processes; `none` is a failed assertion.  `kvsGet i` is what the process
manager returns for `hostname[i]`. -/
def populateStep (s : Names) (i : Nat) : Option Names :=
  if s.maxNodeId < size then
    let name := if i = ourPgRank then hostname.take (keyMaxSz - 1) else kvsGet i
    let nodeNames := Function.update s.nodeNames s.maxNodeId name
    let j := searchNames keyMaxSz nodeNames s.maxNodeId
    if j = s.maxNodeId + 1 then
      some { nodeNames := nodeNames, maxNodeId := s.maxNodeId + 1, nodeId := s.nodeId ++ [j] }
    else
      some {
        nodeNames := Function.update nodeNames s.maxNodeId []
        maxNodeId := s.maxNodeId
        nodeId := s.nodeId ++ [j] }
  else none

def populateVcNodeIds : Option Names :=
  (List.range size).foldlM (populateStep size keyMaxSz ourPgRank hostname kvsGet)
    { nodeNames := fun _ => [], maxNodeId := 0, nodeId := [] }

end Loop

section Search
variable {size keyMaxSz ourPgRank : Nat} {hostname : Name} {kvsGet : Nat → Name} {s : Names} {i : Nat}

theorem searchNames_le (nodeNames : Nat → Name) (maxNodeId : Nat) :
    searchNames keyMaxSz nodeNames maxNodeId ≤ maxNodeId := by
  have hself : sameName keyMaxSz (nodeNames maxNodeId) (nodeNames maxNodeId) = true := decide_eq_true rfl
  unfold searchNames
  cases hfind : (List.range (maxNodeId + 1)).find? fun j =>
      sameName keyMaxSz (nodeNames j) (nodeNames maxNodeId) with
  | none =>
    have hnone := List.find?_eq_none.mp hfind maxNodeId (List.mem_range.mpr (Nat.lt_succ_self _))
    exact absurd hself hnone
  | some j =>
    have hmem := List.mem_of_find?_eq_some hfind
    exact Nat.le_of_lt_succ (List.mem_range.mp hmem)

structure Stuck (s : Names) (n : Nat) : Prop where
  maxNodeId : s.maxNodeId = 0
  nodeId : s.nodeId = List.replicate n 0

theorem populateStep_stuck (hsize : 0 < size) (h : Stuck s i) (rank : Nat) :
    ∃ t, populateStep size keyMaxSz ourPgRank hostname kvsGet s rank = some t ∧ Stuck t (i + 1) := by
  obtain ⟨hmax, hids⟩ := h
  have hzero : searchNames keyMaxSz (Function.update s.nodeNames 0
      (if rank = ourPgRank then hostname.take (keyMaxSz - 1) else kvsGet rank)) 0 = 0 :=
    Nat.le_zero.mp (searchNames_le _ 0)
  unfold populateStep
  rw [hmax, if_pos hsize]
  dsimp only
  rw [hzero, if_neg (Nat.succ_ne_zero 0).symm, hids]
  exact ⟨_, rfl, rfl, List.replicate_succ'.symm⟩

theorem foldlM_stuck (hsize : 0 < size) (ranks : List Nat) (h : Stuck s i) :
    ∃ t, ranks.foldlM (populateStep size keyMaxSz ourPgRank hostname kvsGet) s = some t ∧
      Stuck t (i + ranks.length) := by
  induction ranks generalizing s i with
  | nil => exact ⟨s, rfl, h⟩
  | cons rank ranks ih =>
    obtain ⟨t, hstep, ht⟩ := populateStep_stuck hsize h rank
    obtain ⟨u, hrest, hu⟩ := ih ht
    refine ⟨u, ?_, ?_⟩
    · rw [List.foldlM_cons, hstep]
      exact hrest
    · rw [List.length_cons, Nat.add_comm ranks.length, ← Nat.add_assoc]
      exact hu

theorem populateVcNodeIds_eq (hsize : 0 < size) :
    ∃ t, populateVcNodeIds size keyMaxSz ourPgRank hostname kvsGet = some t ∧ t.maxNodeId = 0 ∧
      t.nodeId = List.replicate size 0 := by
  have hinit : Stuck { nodeNames := fun _ => [], maxNodeId := 0, nodeId := [] } 0 := ⟨rfl, rfl⟩
  obtain ⟨t, hrun, hmax, hids⟩ : ∃ t, populateVcNodeIds size keyMaxSz ourPgRank hostname kvsGet = some t ∧
      Stuck t (0 + (List.range size).length) := foldlM_stuck hsize (List.range size) hinit
  rw [Nat.zero_add, List.length_range] at hids
  exact ⟨t, hrun, hmax, hids⟩

end Search

/-- Equal ids for equal names only, the ids numbered in the order in which the names appear, and none above
the maximum. -/
structure Numbered (size : Nat) (host : Nat → Name) (s : Names) : Prop where
  length : s.nodeId.length = size
  same : ∀ i < size, ∀ j < size, s.nodeId[i]? = s.nodeId[j]? ↔ host i = host j
  dense : ∀ i < size, s.nodeId[i]? = some ((firsts id ((List.range size).map host)).idxOf (host i))
  bound : ∀ id ∈ s.nodeId, id ≤ s.maxNodeId

theorem idxOf_first {size i : Nat} {host : Nat → Name} (hi : i < size) (h : host i = host 0) :
    (firsts id ((List.range size).map host)).idxOf (host i) = 0 := by
  have hhead : (firsts id ((List.range size).map host)).head? = some (host 0) := by
    rw [firsts_head, List.head?_map, List.head?_range, if_neg (by omega)]
    rfl
  rw [h]
  cases hnames : firsts id ((List.range size).map host) with
  | nil =>
    rw [hnames] at hhead
    exact nomatch hhead
  | cons name names =>
    rw [hnames, List.head?_cons] at hhead
    rw [Option.some.inj hhead, List.idxOf_cons_self]

/-- The ids are right exactly when there is only one host name. -/
theorem node_ids_numbered_iff {size keyMaxSz ourPgRank : Nat} {host : Nat → Name} (hsize : 2 ≤ size) :
    (∃ s, populateVcNodeIds size keyMaxSz ourPgRank (host ourPgRank) host = some s ∧ Numbered size host s) ↔
      ∀ i < size, host i = host 0 := by
  obtain ⟨t, hrun, hmax, hids⟩ :
      ∃ t, populateVcNodeIds size keyMaxSz ourPgRank (host ourPgRank) host = some t ∧ t.maxNodeId = 0 ∧
        t.nodeId = List.replicate size 0 := populateVcNodeIds_eq (by omega)
  have hid : ∀ i < size, t.nodeId[i]? = some 0 := by
    intro i hi
    rw [hids, List.getElem?_replicate, if_pos hi]
  constructor
  · rintro ⟨s, hs, hnum⟩ i hi
    rw [hrun] at hs
    obtain rfl := Option.some.inj hs
    have hpos : 0 < size := by omega
    exact (hnum.same i hi 0 hpos).mp ((hid i hi).trans (hid 0 hpos).symm)
  · intro hall
    refine ⟨t, hrun, ?_, fun i hi j hj => ?_, fun i hi => ?_, fun id hmem => ?_⟩
    · rw [hids, List.length_replicate]
    · rw [hid i hi, hid j hj, hall i hi, hall j hj]
      exact ⟨fun _ => rfl, fun _ => rfl⟩
    · rw [hid i hi, idxOf_first hi (hall i hi)]
    · rw [hids] at hmem
      rw [List.eq_of_mem_replicate hmem]
      exact Nat.zero_le _

theorem node_ids_numbered_iff_sameHost :
    (∃ s, populateVcNodeIds 2 64 1 ['a'] (fun _ => ['a']) = some s ∧ Numbered 2 (fun _ => ['a']) s) ↔
      ∀ i < 2, ['a'] = ['a'] :=
  node_ids_numbered_iff (Nat.le_refl 2)

theorem node_ids_merged : let host : Nat → Name := fun i => if i = 0 then ['a'] else ['b']
    (populateVcNodeIds 2 64 0 (host 0) host).map (fun s => s.nodeId) = some [0, 0] ∧
      ¬ ∃ s, populateVcNodeIds 2 64 0 (host 0) host = some s ∧ Numbered 2 host s := by
  intro host
  have hids : (populateVcNodeIds 2 64 0 (host 0) host).map (fun s => s.nodeId) = some [0, 0] := by decide
  refine ⟨hids, ?_⟩
  rintro ⟨s, hs, hnum⟩
  rw [hs, Option.map_some, Option.some.injEq] at hids
  have hsame : s.nodeId[0]? = s.nodeId[1]? := by
    rw [hids]
    rfl
  exact absurd ((hnum.same 0 (by decide) 1 (by decide)).mp hsame) (by decide)

end FgMpi.Procmap.NodeIds
