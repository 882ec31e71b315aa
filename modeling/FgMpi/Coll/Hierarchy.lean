import FgMpi.Comm.NestedMaps
import Mathlib.Data.List.Induction
import Mathlib.Data.List.Nodup

/-! Which sub-communicators of `MPIR_Comm_commit` a member belongs to. -/

namespace FgMpi.Coll.Hierarchy
open Comm.NestedMaps

section Firsts
variable {α κ : Type} [DecidableEq κ]

def addFirst (key : α → κ) (acc : List α) (x : α) : List α :=
  if key x ∈ acc.map key then acc else acc ++ [x]

def firsts (key : α → κ) (l : List α) : List α := l.foldl (addFirst key) []

variable (key : α → κ)

theorem firsts_append (l : List α) (x : α) : firsts key (l ++ [x]) = addFirst key (firsts key l) x := by
  rw [firsts, List.foldl_append]
  rfl

variable {l : List α}

theorem mem_firsts_append {x y : α} :
    y ∈ firsts key (l ++ [x]) ↔
      y ∈ firsts key l ∨ (y = x ∧ key x ∉ (firsts key l).map key) := by
  rw [firsts_append, addFirst]
  split
  · rename_i hmem
    simp [hmem]
  · rename_i hmem
    simp [hmem]

theorem firsts_keys_nodup (l : List α) : ((firsts key l).map key).Nodup := by
  induction l using List.reverseRecOn with
  | nil => exact List.nodup_nil
  | append_singleton l x ih =>
    rw [firsts_append, addFirst]
    split
    · exact ih
    · rename_i hnew
      rw [List.map_append, List.nodup_append]
      refine ⟨ih, List.nodup_singleton _, ?_⟩
      intro a ha b hb heq
      rw [List.mem_singleton.mp hb] at heq
      exact hnew (heq ▸ ha)

theorem mem_of_mem_firsts {x : α} (h : x ∈ firsts key l) : x ∈ l := by
  induction l using List.reverseRecOn with
  | nil => exact h
  | append_singleton l y ih =>
    rcases (mem_firsts_append key).mp h with h | ⟨rfl, -⟩
    · exact List.mem_append_left _ (ih h)
    · exact List.mem_append_right _ List.mem_cons_self

theorem mem_firsts_keys {k : κ} : k ∈ (firsts key l).map key ↔ k ∈ l.map key := by
  induction l using List.reverseRecOn with
  | nil => rfl
  | append_singleton l x ih =>
    rw [firsts_append, addFirst, List.map_append, List.mem_append, ← ih]
    split
    · rename_i hmem
      simp only [List.map_cons, List.map_nil, List.mem_singleton]
      constructor
      · exact .inl
      · rintro (h | rfl)
        · exact h
        · exact hmem
    · rw [List.map_append, List.mem_append]

theorem mem_firsts_iff {x : α} : x ∈ firsts key l ↔ (l.filter (key · = key x)).head? = some x := by
  induction l using List.reverseRecOn with
  | nil => simp [firsts]
  | append_singleton l y ih =>
    rw [mem_firsts_append, ih, mem_firsts_keys, List.filter_append, List.head?_append]
    cases hhead : (l.filter (key · = key x)).head? with
    | some z =>
      simp only [Option.some_or, Option.some.injEq]
      constructor
      · rintro (h | ⟨rfl, hnot⟩)
        · exact h
        · refine absurd ?_ hnot
          have hz := List.mem_filter.mp (List.mem_of_mem_head? hhead)
          have hkey : key z = key x := by simpa using hz.2
          exact hkey ▸ List.mem_map_of_mem hz.1
      · exact .inl
    | none =>
      rw [List.head?_eq_none_iff, List.filter_eq_nil_iff] at hhead
      have hnot : key x ∉ l.map key := by
        intro hmem
        obtain ⟨z, hz, heq⟩ := List.mem_map.mp hmem
        exact hhead z hz (by simpa using heq)
      simp only [Option.none_or, reduceCtorEq, false_or, List.filter_cons, List.filter_nil]
      constructor
      · rintro ⟨rfl, -⟩
        simp
      · intro h
        split at h
        · have heq : y = x := by simpa using h
          subst heq
          exact ⟨rfl, hnot⟩
        · simp at h

theorem firsts_head (l : List α) : (firsts key l).head? = l.head? := by
  induction l using List.reverseRecOn with
  | nil => rfl
  | append_singleton l x ih =>
    rw [firsts_append, addFirst]
    split
    · rename_i hmem
      rw [ih]
      cases l with
      | nil => exact absurd hmem (List.not_mem_nil)
      | cons y l => rfl
    · rw [List.head?_append, List.head?_append, ih]

end Firsts

section Scan
variable (place : Placement) (mypid : Nat)

def nodeOf (w : Proc) : Nat := place.nodeId (place.pid w)

def roots (ranks : List Proc) : List Proc := firsts (nodeOf place) ranks

def leaders (ranks : List Proc) (node : Nat) : List Proc :=
  firsts place.pid (ranks.filter (nodeOf place · = node))

def colocated (ranks : List Proc) (pid : Nat) : List Proc := ranks.filter (place.pid · = pid)

def place? (keys : List Nat) (k : Nat) : Option Nat := if k ∈ keys then some (keys.idxOf k) else none

theorem nestedMaps_append (ranks : List Proc) (w : Proc) :
    nestedMaps place mypid (ranks ++ [w]) = scan place mypid (nestedMaps place mypid ranks) w := by
  rw [nestedMaps, List.foldl_append]
  rfl

theorem place?_append {keys : List Nat} {k : Nat} (hnew : k ∉ keys) :
    place? (keys ++ [k]) = Function.update (place? keys) k (some keys.length) := by
  funext x
  unfold place?
  by_cases hx : x = k
  · subst hx
    rw [Function.update_self, if_pos (by simp), List.idxOf_append_of_notMem hnew]
    simp
  · rw [Function.update_of_ne hx]
    by_cases hmem : x ∈ keys
    · rw [if_pos hmem, if_pos (List.mem_append_left _ hmem), List.idxOf_append_of_mem hmem]
    · rw [if_neg hmem, if_neg (by simp [hmem, hx])]

structure Maps (ranks : List Proc) (s : Scan) : Prop where
  internode : s.internode = roots place ranks
  intranode : s.intranode = leaders place ranks (place.nodeId mypid)
  nodes : s.nodes = place? ((roots place ranks).map (nodeOf place))
  osprocs : s.osprocs = place? ((leaders place ranks (place.nodeId mypid)).map place.pid)

theorem place?_eq_none {keys : List Nat} {k : Nat} : place? keys k = none ↔ k ∉ keys := by
  unfold place?
  split <;> simp [*]

theorem leaders_append (ranks : List Proc) (w : Proc) (node : Nat) :
    leaders place (ranks ++ [w]) node =
      if nodeOf place w = node then addFirst place.pid (leaders place ranks node) w
      else leaders place ranks node := by
  unfold leaders
  rw [List.filter_append]
  by_cases hw : nodeOf place w = node
  · rw [if_pos hw, ← firsts_append, List.filter_cons_of_pos (by simpa using hw), List.filter_nil]
  · rw [if_neg hw, List.filter_cons_of_neg (by simpa using hw), List.filter_nil, List.append_nil]

variable {ranks : List Proc}

theorem scan_maps {s : Scan} (h : Maps place mypid ranks s) (w : Proc) :
    Maps place mypid (ranks ++ [w]) (scan place mypid s w) := by
  obtain ⟨hinter, hintra, hnodes, hosprocs⟩ := h
  have hroots : roots place (ranks ++ [w]) = addFirst (nodeOf place) (roots place ranks) w :=
    firsts_append ..
  have hnew : s.nodes (nodeOf place w) = none ↔
      nodeOf place w ∉ (roots place ranks).map (nodeOf place) := by
    rw [hnodes]
    exact place?_eq_none
  have hnewproc : s.osprocs (place.pid w) = none ↔
      place.pid w ∉ (leaders place ranks (place.nodeId mypid)).map place.pid := by
    rw [hosprocs]
    exact place?_eq_none
  refine ⟨?_, ?_, ?_, ?_⟩
  · rw [hroots, addFirst]
    change (if s.nodes (nodeOf place w) = none then s.internode ++ [w] else s.internode) = _
    by_cases hfirst : nodeOf place w ∈ (roots place ranks).map (nodeOf place)
    · rw [if_neg (fun hnone => hnew.mp hnone hfirst), if_pos hfirst, hinter]
    · rw [if_pos (hnew.mpr hfirst), if_neg hfirst, hinter]
  · rw [leaders_append]
    change (if nodeOf place w = place.nodeId mypid ∧ s.osprocs (place.pid w) = none then
      s.intranode ++ [w] else s.intranode) = _
    by_cases hnode : nodeOf place w = place.nodeId mypid
    · rw [if_pos hnode, addFirst]
      by_cases hfirst : place.pid w ∈ (leaders place ranks (place.nodeId mypid)).map place.pid
      · rw [if_neg (fun hand => hnewproc.mp hand.2 hfirst), if_pos hfirst, hintra]
      · rw [if_pos ⟨hnode, hnewproc.mpr hfirst⟩, if_neg hfirst, hintra]
    · rw [if_neg (fun hand => hnode hand.1), if_neg hnode, hintra]
  · rw [hroots, addFirst]
    change (if s.nodes (nodeOf place w) = none then
      Function.update s.nodes (nodeOf place w) (some s.internode.length) else s.nodes) = _
    by_cases hfirst : nodeOf place w ∈ (roots place ranks).map (nodeOf place)
    · rw [if_neg (fun hnone => hnew.mp hnone hfirst), if_pos hfirst, hnodes]
    · rw [if_pos (hnew.mpr hfirst), if_neg hfirst, List.map_append, List.map_singleton,
        place?_append hfirst, hnodes, hinter, List.length_map]
  · rw [leaders_append]
    change (if nodeOf place w = place.nodeId mypid ∧ s.osprocs (place.pid w) = none then
      Function.update s.osprocs (place.pid w) (some s.intranode.length) else s.osprocs) = _
    by_cases hnode : nodeOf place w = place.nodeId mypid
    · rw [if_pos hnode, addFirst]
      by_cases hfirst : place.pid w ∈ (leaders place ranks (place.nodeId mypid)).map place.pid
      · rw [if_neg (fun hand => hnewproc.mp hand.2 hfirst), if_pos hfirst, hosprocs]
      · rw [if_pos ⟨hnode, hnewproc.mpr hfirst⟩, if_neg hfirst, List.map_append, List.map_singleton,
          place?_append hfirst, hosprocs, hintra, List.length_map]
    · rw [if_neg (fun hand => hnode hand.1), if_neg hnode, hosprocs]

theorem nestedMaps_maps (ranks : List Proc) : Maps place mypid ranks (nestedMaps place mypid ranks) := by
  induction ranks using List.reverseRecOn with
  | nil => exact ⟨rfl, rfl, rfl, rfl⟩
  | append_singleton ranks w ih =>
    rw [nestedMaps_append]
    exact scan_maps place mypid ih w

def entry (ranks : List Proc) (w : Proc) : ParentToNested where
  internodeCommRoot := ((roots place ranks).map (nodeOf place)).idxOf (nodeOf place w)
  internodeCommExternalRank := if w ∈ roots place ranks then some ((roots place ranks).idxOf w) else none
  intranodeCommRoot :=
    if nodeOf place w = place.nodeId mypid then
      some (((leaders place ranks (place.nodeId mypid)).map place.pid).idxOf (place.pid w))
    else none
  intranodeCommLocalRank :=
    if w ∈ leaders place ranks (place.nodeId mypid) then
      some ((leaders place ranks (place.nodeId mypid)).idxOf w)
    else none
  intraOsprocFgRank :=
    if place.pid w = mypid then some ((colocated place ranks mypid).idxOf w) else none

theorem addFirst_eq_append {α : Type} (key : α → Nat) (acc : List α) (x : α) :
    ∃ t, addFirst key acc x = acc ++ t ∧ ∀ y ∈ t, y = x := by
  unfold addFirst
  split
  · exact ⟨[], (List.append_nil acc).symm, fun y hy => nomatch hy⟩
  · exact ⟨[x], rfl, fun y hy => List.mem_singleton.mp hy⟩

theorem roots_append (ranks : List Proc) (w : Proc) :
    ∃ t, roots place (ranks ++ [w]) = roots place ranks ++ t ∧ ∀ y ∈ t, y = w := by
  rw [roots, firsts_append]
  exact addFirst_eq_append _ _ w

theorem leaders_append' (ranks : List Proc) (w : Proc) (node : Nat) :
    ∃ t, leaders place (ranks ++ [w]) node = leaders place ranks node ++ t ∧ ∀ y ∈ t, y = w := by
  rw [leaders_append]
  split
  · exact addFirst_eq_append _ _ w
  · exact ⟨[], (List.append_nil _).symm, fun y hy => nomatch hy⟩

variable {w : Proc}

theorem mem_roots_key (hw : w ∈ ranks) : nodeOf place w ∈ (roots place ranks).map (nodeOf place) :=
  (mem_firsts_keys _).mpr (List.mem_map_of_mem hw)

theorem mem_leaders_key (hw : w ∈ ranks) :
    place.pid w ∈ (leaders place ranks (nodeOf place w)).map place.pid :=
  (mem_firsts_keys _).mpr (List.mem_map_of_mem (List.mem_filter.mpr ⟨hw, by simp⟩))

theorem mem_of_mem_leaders {node : Nat}
    (h : w ∈ leaders place ranks node) : w ∈ ranks ∧ nodeOf place w = node := by
  have hmem := List.mem_filter.mp (mem_of_mem_firsts _ h)
  exact ⟨hmem.1, by simpa using hmem.2⟩

theorem scan_nodes (ranks : List Proc) (w : Proc) :
    ((scan place mypid (nestedMaps place mypid ranks) w).nodes (nodeOf place w)).getD 0 =
      ((roots place (ranks ++ [w])).map (nodeOf place)).idxOf (nodeOf place w) := by
  obtain ⟨-, -, hnodes, -⟩ := scan_maps place mypid (nestedMaps_maps place mypid ranks) w
  have hmem : w ∈ ranks ++ [w] := List.mem_append_right _ List.mem_cons_self
  rw [hnodes, place?, if_pos (mem_roots_key place hmem)]
  rfl

theorem scan_osprocs (ranks : List Proc) (w : Proc) :
    (scan place mypid (nestedMaps place mypid ranks) w).osprocs (place.pid w) =
      if nodeOf place w = place.nodeId mypid then
        some (((leaders place (ranks ++ [w]) (place.nodeId mypid)).map place.pid).idxOf (place.pid w))
      else none := by
  obtain ⟨-, -, -, hosprocs⟩ := scan_maps place mypid (nestedMaps_maps place mypid ranks) w
  have hmem : w ∈ ranks ++ [w] := List.mem_append_right _ List.mem_cons_self
  rw [hosprocs, place?]
  by_cases hnode : nodeOf place w = place.nodeId mypid
  · have hkey := mem_leaders_key place hmem
    rw [hnode] at hkey
    rw [if_pos hkey, if_pos hnode]
  · have hkey : place.pid w ∉ (leaders place (ranks ++ [w]) (place.nodeId mypid)).map place.pid := by
      intro hkey
      obtain ⟨x, hx, heq⟩ := List.mem_map.mp hkey
      refine hnode ?_
      rw [← (mem_of_mem_leaders place hx).2, nodeOf, nodeOf, heq]
    rw [if_neg hkey, if_neg hnode]

end Scan

section Entries
variable (place : Placement) (mypid : Nat) {ranks : List Proc} {w : Proc}

theorem mem_colocated (hw : w ∈ ranks) : w ∈ colocated place ranks (place.pid w) :=
  List.mem_filter.mpr ⟨hw, by simp⟩

theorem idxOf_eq_zero {l : List Proc} (hw : w ∈ l) : l.idxOf w = 0 ↔ l.head? = some w := by
  cases l with
  | nil => exact nomatch hw
  | cons x l =>
    rw [List.head?_cons, Option.some.injEq]
    by_cases hx : x = w
    · simp [hx]
    · simp [List.idxOf_cons_ne _ hx, hx]

theorem leaders_filter :
    (ranks.filter (nodeOf place · = nodeOf place w)).filter (place.pid · = place.pid w) =
      colocated place ranks (place.pid w) := by
  rw [List.filter_filter, colocated]
  refine List.filter_congr ?_
  intro x _
  by_cases hpid : place.pid x = place.pid w
  · simp [nodeOf, hpid]
  · simp [hpid]

theorem mem_leaders_iff (hw : w ∈ ranks) :
    w ∈ leaders place ranks (nodeOf place w) ↔
      (colocated place ranks (place.pid w)).idxOf w = 0 := by
  rw [idxOf_eq_zero (mem_colocated place hw), leaders, mem_firsts_iff, leaders_filter]

def entryAt (ranks : List Proc) (r : Nat) (w : Proc) : ParentToNested where
  internodeCommRoot := ((roots place ranks).map (nodeOf place)).idxOf (nodeOf place w)
  internodeCommExternalRank :=
    if nodeOf place w ∉ (ranks.take r).map (nodeOf place) then
      some (((roots place ranks).map (nodeOf place)).idxOf (nodeOf place w))
    else none
  intranodeCommRoot :=
    if nodeOf place w = place.nodeId mypid then
      some (((leaders place ranks (place.nodeId mypid)).map place.pid).idxOf (place.pid w))
    else none
  intranodeCommLocalRank :=
    if nodeOf place w = place.nodeId mypid ∧ place.pid w ∉ (ranks.take r).map place.pid then
      some (((leaders place ranks (place.nodeId mypid)).map place.pid).idxOf (place.pid w))
    else none
  intraOsprocFgRank := if place.pid w = mypid then some ((ranks.take r).countP (place.pid · = mypid)) else none

variable {place mypid} {x : Proc} {r : Nat}

theorem mem_roots_keys : nodeOf place w ∈ (roots place ranks).map (nodeOf place) ↔
    nodeOf place w ∈ ranks.map (nodeOf place) := mem_firsts_keys _

theorem mem_leaders_keys (hnode : nodeOf place w = place.nodeId mypid) :
    place.pid w ∈ (leaders place ranks (place.nodeId mypid)).map place.pid ↔ place.pid w ∈ ranks.map place.pid := by
  rw [leaders, mem_firsts_keys]
  constructor
  · intro h
    obtain ⟨y, hy, heq⟩ := List.mem_map.mp h
    exact List.mem_map.mpr ⟨y, List.mem_of_mem_filter hy, heq⟩
  · intro h
    obtain ⟨y, hy, heq⟩ := List.mem_map.mp h
    refine List.mem_map.mpr ⟨y, List.mem_filter.mpr ⟨hy, ?_⟩, heq⟩
    rw [decide_eq_true_iff, ← hnode, nodeOf, nodeOf, heq]

theorem entryAt_append (hr : ranks[r]? = some x) : entryAt place mypid (ranks ++ [w]) r x = entryAt place mypid ranks r x := by
  obtain ⟨t, hroots, -⟩ := roots_append place ranks w
  obtain ⟨u, hleaders, -⟩ := leaders_append' place ranks w (place.nodeId mypid)
  have hx := List.mem_of_getElem? hr
  have hlt := (List.getElem?_eq_some_iff.mp hr).1
  have hkey := mem_roots_key place hx
  have htake : (ranks ++ [w]).take r = ranks.take r := List.take_append_of_le_length (Nat.le_of_lt hlt)
  unfold entryAt
  rw [hroots, hleaders, htake, List.map_append, List.idxOf_append_of_mem hkey]
  refine ParentToNested.mk.injEq .. |>.mpr ⟨rfl, rfl, ?_, ?_, rfl⟩
  · by_cases hnode : nodeOf place x = place.nodeId mypid
    · have hpid := mem_leaders_key place hx
      rw [hnode] at hpid
      rw [if_pos hnode, if_pos hnode, List.map_append, List.idxOf_append_of_mem hpid]
    · rw [if_neg hnode, if_neg hnode]
  · by_cases hnode : nodeOf place x = place.nodeId mypid
    · have hpid := mem_leaders_key place hx
      rw [hnode] at hpid
      rw [List.map_append, List.idxOf_append_of_mem hpid]
    · rw [if_neg fun hand => hnode hand.1, if_neg fun hand => hnode hand.1]

theorem scan_entryAt (ranks : List Proc) (w : Proc) : (scan place mypid (nestedMaps place mypid ranks) w).ptn =
    (nestedMaps place mypid ranks).ptn ++ [entryAt place mypid (ranks ++ [w]) ranks.length w] := by
  obtain ⟨hinter, hintra, hnodes, hosprocs⟩ := nestedMaps_maps place mypid ranks
  have hroots : roots place (ranks ++ [w]) = addFirst (nodeOf place) (roots place ranks) w := firsts_append ..
  have hfirst : (nestedMaps place mypid ranks).nodes (nodeOf place w) = none ↔
      nodeOf place w ∉ ranks.map (nodeOf place) := by
    rw [hnodes, place?_eq_none, mem_roots_keys]
  unfold entryAt
  rw [List.take_left]
  refine congrArg ((nestedMaps place mypid ranks).ptn ++ [·]) ?_
  refine ParentToNested.mk.injEq .. |>.mpr ⟨?_, ?_, ?_, ?_, ?_⟩
  · exact scan_nodes place mypid ranks w
  · change (if (nestedMaps place mypid ranks).nodes (nodeOf place w) = none then
      some (nestedMaps place mypid ranks).internode.length else none) = _
    by_cases hkey : nodeOf place w ∈ ranks.map (nodeOf place)
    · rw [if_neg fun hnone => hfirst.mp hnone hkey, if_neg (not_not.mpr hkey)]
    · have hnot := mt mem_roots_keys.mp hkey
      rw [if_pos (hfirst.mpr hkey), if_pos hkey, hroots, addFirst, if_neg hnot, List.map_append,
        List.map_singleton, List.idxOf_append_of_notMem hnot, List.idxOf_cons_self, hinter, List.length_map,
        Nat.add_zero]
  · exact scan_osprocs place mypid ranks w
  · change (if nodeOf place w = place.nodeId mypid ∧
      (nestedMaps place mypid ranks).osprocs (place.pid w) = none then
      some (nestedMaps place mypid ranks).intranode.length else none) = _
    by_cases hnode : nodeOf place w = place.nodeId mypid
    · have hfirst' : (nestedMaps place mypid ranks).osprocs (place.pid w) = none ↔
          place.pid w ∉ ranks.map place.pid := by
        rw [hosprocs, place?_eq_none, mem_leaders_keys hnode]
      by_cases hkey : place.pid w ∈ ranks.map place.pid
      · rw [if_neg fun hand => hfirst'.mp hand.2 hkey, if_neg fun hand => hand.2 hkey]
      · have hnot := mt (mem_leaders_keys hnode).mp hkey
        rw [if_pos ⟨hnode, hfirst'.mpr hkey⟩, if_pos ⟨hnode, hkey⟩, leaders_append, if_pos hnode, addFirst,
          if_neg hnot, List.map_append, List.map_singleton, List.idxOf_append_of_notMem hnot, List.idxOf_cons_self,
          hintra, List.length_map, Nat.add_zero]
    · rw [if_neg fun hand => hnode hand.1, if_neg fun hand => hnode hand.1]
  · by_cases hpid : place.pid w = mypid
    · rw [if_pos hpid.symm, if_pos hpid, nestedMaps_intraOsproc, List.countP_eq_length_filter]
    · rw [if_neg (Ne.symm hpid), if_neg hpid]

theorem length_ptn (ranks : List Proc) : (nestedMaps place mypid ranks).ptn.length = ranks.length := by
  induction ranks using List.reverseRecOn with
  | nil => rfl
  | append_singleton ranks w ih =>
    rw [nestedMaps_append, scan_entryAt, List.length_append, ih, List.length_append, List.length_singleton,
      List.length_singleton]

theorem ptn_get (hr : ranks[r]? = some w) :
    (nestedMaps place mypid ranks).ptn[r]? = some (entryAt place mypid ranks r w) := by
  induction ranks using List.reverseRecOn with
  | nil => exact nomatch hr
  | append_singleton ranks x ih =>
    rw [nestedMaps_append, scan_entryAt]
    by_cases hlt : r < ranks.length
    · rw [List.getElem?_append_left hlt] at hr
      rw [List.getElem?_append_left (by rw [length_ptn]; exact hlt), ih hr, entryAt_append hr]
    · have hbound := (List.getElem?_eq_some_iff.mp hr).1
      rw [List.length_append, List.length_singleton] at hbound
      obtain rfl : r = ranks.length := by omega
      rw [List.getElem?_concat_length] at hr
      have hlen : (nestedMaps place mypid ranks).ptn.length = ranks.length := length_ptn ranks
      rw [← Option.some.inj hr, ← hlen, List.getElem?_concat_length]

theorem idxOf_filter {p : Proc → Bool} (hnodup : ranks.Nodup) (hr : ranks[r]? = some w) (hp : p w = true) :
    (ranks.filter p).idxOf w = (ranks.take r).countP p := by
  obtain ⟨hlt, rfl⟩ := List.getElem?_eq_some_iff.mp hr
  have hnot : ranks[r] ∉ (ranks.take r).filter p := by
    intro hmem
    obtain ⟨i, hi, heq⟩ := List.mem_take_iff_getElem.mp (List.mem_of_mem_filter hmem)
    have hsame := hnodup.getElem_inj_iff.mp heq
    omega
  have hsplit : ranks.filter p = (ranks.take r).filter p ++ ranks[r] :: (ranks.drop (r + 1)).filter p := by
    rw [← List.filter_cons_of_pos hp, ← List.filter_append, ← List.drop_eq_getElem_cons, List.take_append_drop]
  rw [hsplit, List.idxOf_append_of_notMem hnot, List.idxOf_cons_self, List.countP_eq_length_filter]
  rfl

theorem idxOf_first {key : Proc → Nat} (hnodup : ranks.Nodup) (hr : ranks[r]? = some w) :
    (ranks.filter (key · = key w)).idxOf w = 0 ↔ key w ∉ (ranks.take r).map key := by
  rw [idxOf_filter hnodup hr (by simp), List.countP_eq_zero, List.mem_map]
  simp only [decide_eq_true_eq, not_exists, not_and]

theorem idxOf_map_key {key : Proc → Nat} {l : List Proc} (hnodup : (l.map key).Nodup) (hw : w ∈ l) :
    (l.map key).idxOf (key w) = l.idxOf w := by
  have hlt := List.idxOf_lt_length_of_mem hw
  have hidx := hnodup.idxOf_getElem (l.idxOf w) (by rwa [List.length_map])
  rwa [List.getElem_map, List.getElem_idxOf hlt] at hidx

theorem entryAt_eq (hnodup : ranks.Nodup) (hr : ranks[r]? = some w) :
    entryAt place mypid ranks r w = entry place mypid ranks w := by
  have hw := List.mem_of_getElem? hr
  unfold entryAt entry
  refine ParentToNested.mk.injEq .. |>.mpr ⟨rfl, ?_, rfl, ?_, ?_⟩
  · have hiff : w ∈ roots place ranks ↔ nodeOf place w ∉ (ranks.take r).map (nodeOf place) := by
      rw [roots, mem_firsts_iff, ← idxOf_eq_zero (List.mem_filter.mpr ⟨hw, by simp⟩), idxOf_first hnodup hr]
    by_cases hmem : w ∈ roots place ranks
    · rw [if_pos (hiff.mp hmem), if_pos hmem, idxOf_map_key (l := roots place ranks) (firsts_keys_nodup _ _) hmem]
    · rw [if_neg (mt hiff.mpr hmem), if_neg hmem]
  · by_cases hnode : nodeOf place w = place.nodeId mypid
    · have hiff : w ∈ leaders place ranks (place.nodeId mypid) ↔ place.pid w ∉ (ranks.take r).map place.pid := by
        rw [← hnode, mem_leaders_iff place hw, colocated, idxOf_first hnodup hr]
      by_cases hmem : w ∈ leaders place ranks (place.nodeId mypid)
      · rw [if_pos ⟨hnode, hiff.mp hmem⟩, if_pos hmem,
          idxOf_map_key (l := leaders place ranks (place.nodeId mypid)) (firsts_keys_nodup _ _) hmem]
      · rw [if_neg fun hand => hmem (hiff.mpr hand.2), if_neg hmem]
    · rw [if_neg fun hand => hnode hand.1, if_neg fun hmem => hnode (mem_of_mem_leaders place hmem).2]
  · by_cases hpid : place.pid w = mypid
    · rw [if_pos hpid, if_pos hpid, colocated, idxOf_filter hnodup hr (by simpa using hpid)]
    · rw [if_neg hpid, if_neg hpid]

theorem ptn_entry (hnodup : ranks.Nodup) (hr : ranks[r]? = some w) :
    (nestedMaps place mypid ranks).ptn[r]? = some (entry place mypid ranks w) := by
  rw [ptn_get hr, entryAt_eq hnodup hr]

end Entries

/-- The members in the order of their ranks, and the rank of the caller. -/
structure SubComm where
  members : List Proc
  rank : Nat
deriving Repr, DecidableEq

structure SubComms where
  nodeComm : Option SubComm
  nodeRootsComm : Option SubComm
  osprocColocatedComm : Option SubComm
deriving Repr, DecidableEq

/-- The sub-communicators that `MPIR_Comm_commit` creates for the member `w`; `none` if the
communicator is not node-aware. -/
def commit (place : Placement) (ranks : List Proc) (w : Proc) : Option SubComms :=
  let s := nestedMaps place (place.pid w) ranks
  match s.ptn[ranks.idxOf w]? with
  | none => none
  | some t =>
    if s.internode.length = ranks.length then none
    else some {
      nodeComm :=
        if 1 < s.intranode.length ∧ t.intraOsprocFgRank = some 0 then
          t.intranodeCommLocalRank.map fun r => ⟨s.intranode, r⟩
        else none
      nodeRootsComm :=
        if 1 < s.internode.length ∧ t.intranodeCommLocalRank = some 0 then
          t.internodeCommExternalRank.map fun r => ⟨s.internode, r⟩
        else none
      osprocColocatedComm :=
        if 1 < s.intraOsproc.length then t.intraOsprocFgRank.map fun r => ⟨s.intraOsproc, r⟩
        else none }

section Members
variable (place : Placement) {ranks : List Proc} {w : Proc}

def subComm (members : List Proc) (w : Proc) : Option SubComm :=
  if 1 < members.length ∧ w ∈ members then some ⟨members, members.idxOf w⟩ else none

theorem mem_roots_iff : w ∈ roots place ranks ↔ (leaders place ranks (nodeOf place w)).head? = some w := by
  rw [roots, mem_firsts_iff, leaders, firsts_head]

theorem commit_eq (hnodup : ranks.Nodup) (hw : w ∈ ranks) :
    commit place ranks w =
      if (roots place ranks).length = ranks.length then none
      else some {
        nodeComm := subComm (leaders place ranks (nodeOf place w)) w
        nodeRootsComm := subComm (roots place ranks) w
        osprocColocatedComm := subComm (colocated place ranks (place.pid w)) w } := by
  obtain ⟨hinter, hintra, -, -⟩ := nestedMaps_maps place (place.pid w) ranks
  have hentry : (nestedMaps place (place.pid w) ranks).ptn[ranks.idxOf w]? =
      some (entry place (place.pid w) ranks w) := by
    have hlt := List.idxOf_lt_length_of_mem hw
    exact ptn_entry hnodup (by rw [List.getElem?_eq_getElem hlt, List.getElem_idxOf hlt])
  have hnode : nodeOf place w = place.nodeId (place.pid w) := rfl
  rw [commit]
  simp only [hentry, hinter, hintra, nestedMaps_intraOsproc, ← hnode]
  split
  · rfl
  · refine congrArg some (SubComms.mk.injEq .. |>.mpr ⟨?_, ?_, ?_⟩)
    · have hzero : (entry place (place.pid w) ranks w).intraOsprocFgRank = some 0 ↔
          w ∈ leaders place ranks (nodeOf place w) := by
        rw [mem_leaders_iff place hw, entry, if_pos rfl, Option.some.injEq]
      have hlocal : (entry place (place.pid w) ranks w).intranodeCommLocalRank =
          if w ∈ leaders place ranks (nodeOf place w) then
            some ((leaders place ranks (nodeOf place w)).idxOf w) else none := rfl
      simp only [subComm, hzero, hlocal]
      split
      · rename_i hand
        rw [if_pos hand.2]
        rfl
      · rfl
    · have hlocal : (entry place (place.pid w) ranks w).intranodeCommLocalRank = some 0 ↔
          w ∈ roots place ranks := by
        rw [mem_roots_iff]
        change (if w ∈ leaders place ranks (nodeOf place w) then
          some ((leaders place ranks (nodeOf place w)).idxOf w) else none) = some 0 ↔ _
        by_cases hmem : w ∈ leaders place ranks (nodeOf place w)
        · rw [if_pos hmem, Option.some.injEq, idxOf_eq_zero hmem]
        · rw [if_neg hmem]
          constructor
          · intro h
            cases h
          · intro h
            exact absurd (List.mem_of_mem_head? h) hmem
      simp only [subComm, hlocal]
      split
      · rename_i hand
        change Option.map _ (if w ∈ roots place ranks then
          some ((roots place ranks).idxOf w) else none) = _
        rw [if_pos hand.2]
        rfl
      · rfl
    · have hmem := mem_colocated place hw
      change (if 1 < (colocated place ranks (place.pid w)).length then
        Option.map _ (if place.pid w = place.pid w then
          some ((colocated place ranks (place.pid w)).idxOf w) else none) else none) = _
      rw [if_pos rfl, subComm]
      split
      · rename_i hlen
        rw [if_pos ⟨hlen, hmem⟩]
        rfl
      · rename_i hlen
        rw [if_neg (fun hand => hlen hand.1)]

theorem exists_leader (hw : w ∈ ranks) :
    ∃ l ∈ leaders place ranks (nodeOf place w), place.pid l = place.pid w := by
  obtain ⟨l, hl, heq⟩ := List.mem_map.mp (mem_leaders_key place hw)
  exact ⟨l, hl, heq⟩

theorem exists_root (hw : w ∈ ranks) :
    ∃ r ∈ roots place ranks, nodeOf place r = nodeOf place w ∧
      (leaders place ranks (nodeOf place w)).head? = some r := by
  obtain ⟨r, hr, heq⟩ := List.mem_map.mp (mem_roots_key place hw)
  refine ⟨r, hr, heq, ?_⟩
  rw [← heq]
  exact (mem_roots_iff place).mp hr

theorem mem_ranks_of_roots (h : w ∈ roots place ranks) : w ∈ ranks := mem_of_mem_firsts _ h

theorem leaders_nodup (node : Nat) : (leaders place ranks node).Nodup :=
  List.Nodup.of_map _ (firsts_keys_nodup place.pid _)

theorem roots_nodup : (roots place ranks).Nodup :=
  List.Nodup.of_map _ (firsts_keys_nodup (nodeOf place) _)

end Members

end FgMpi.Coll.Hierarchy
