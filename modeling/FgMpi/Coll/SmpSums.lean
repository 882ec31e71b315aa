import FgMpi.Coll.SmpCalls

/-! Sums over the hierarchy. -/

namespace FgMpi.Coll.SmpCalls
open Comm.NestedMaps Hierarchy Machine.Folds
open SmpBcast (Kind CommId leaderOf nodeRoot)

theorem firsts_perm {α κ : Type} [DecidableEq κ] (key : α → κ) {l : List α} (hnodup : l.Nodup) :
    ((firsts key l).flatMap fun f => l.filter (key · = key f)).Perm l := by
  have hkeys : (firsts key l).Pairwise fun f g => key f ≠ key g := List.pairwise_map.mp (firsts_keys_nodup key l)
  have hall : ((firsts key l).flatMap fun f => l.filter (key · = key f)).Nodup := by
    refine List.nodup_flatMap.mpr ⟨fun f _ => hnodup.filter _, hkeys.imp fun {f g} hne => ?_⟩
    intro a ha hb
    have hf : key a = key f := by simpa using (List.mem_filter.mp ha).2
    have hg : key a = key g := by simpa using (List.mem_filter.mp hb).2
    exact hne (hf.symm.trans hg)
  refine (List.perm_ext_iff_of_nodup hall hnodup).mpr fun a => ?_
  rw [List.mem_flatMap]
  constructor
  · rintro ⟨f, -, ha⟩
    exact List.mem_of_mem_filter ha
  · intro ha
    obtain ⟨f, hf, heq⟩ := List.mem_map.mp ((mem_firsts_keys key).mpr (List.mem_map_of_mem ha))
    exact ⟨f, hf, List.mem_filter.mpr ⟨ha, by simp [heq]⟩⟩

def onNode (place : Placement) (ranks : List Proc) (w : Proc) : List Proc :=
  ranks.filter (nodeOf place · = nodeOf place w)

section Sums
variable {α : Type} (op : α → α → α) (place : Placement) (ranks : List Proc) (x : Proc → Nat → α)

def osprocSum (w : Proc) : Nat → α := sumOf op x (colocated place ranks (place.pid w)) w
def nodeSum (w : Proc) : Nat → α := sumOf op x (onNode place ranks w) w
def allSum : Nat → α := fun i => fold op (fun r => x (ranks.getD r 0) i) 0 (ranks.length - 1)

end Sums

section Totals
variable {α : Type} {op : α → α → α} {place : Placement} {ranks : List Proc} {x : Proc → Nat → α} {w : Proc}

theorem mem_onNode (hw : w ∈ ranks) : w ∈ onNode place ranks w := List.mem_filter.mpr ⟨hw, by simp⟩

theorem total_allSum (hw : w ∈ ranks) (i : Nat) :
    total op (ranks.map fun v => x v i) = some (allSum op ranks x i) := by
  have hpos : 0 < ranks.length := List.length_pos_of_mem hw
  have hmap : ranks.map (fun v => x v i) =
      (List.range (ranks.length - 1 + 1)).map fun r => x (ranks.getD r 0) i := by
    rw [Nat.sub_add_cancel hpos]
    refine List.ext_getElem (by simp) fun r hr _ => ?_
    rw [List.length_map] at hr
    simp [hr]
  rw [hmap, total_range]
  rfl

theorem sumOf_eq {y : Proc → Nat → α} {members : List Proc} {i : Nat} {a : α} (hw : w ∈ members)
    (h : total op (members.map fun v => y v i) = some a) : sumOf op y members w i = a :=
  Option.some.inj ((total_sumOf hw i).symm.trans h)

variable [Std.Associative op] [Std.Commutative op]

section
variable (hnodup : ranks.Nodup)
include hnodup

theorem leaders_total (w : Proc) (i : Nat) :
    total op ((leaders place ranks (nodeOf place w)).map fun v => osprocSum op place ranks x v i) =
      total op ((onNode place ranks w).map fun v => x v i) := by
  have hparts : ∀ v ∈ leaders place ranks (nodeOf place w),
      total op (((onNode place ranks w).filter (place.pid · = place.pid v)).map fun u => x u i) =
        some (osprocSum op place ranks x v i) := by
    intro v hv
    obtain ⟨hmem, hnode⟩ := mem_of_mem_leaders place hv
    have hsame : (onNode place ranks w).filter (place.pid · = place.pid v) =
        colocated place ranks (place.pid v) := by
      rw [onNode, ← hnode]
      exact leaders_filter place
    rw [hsame]
    exact total_sumOf (mem_colocated place hmem) i
  rw [← total_flatMap op hparts, ← List.map_flatMap]
  exact total_perm op ((firsts_perm place.pid (hnodup.filter _)).map _)

theorem roots_total (i : Nat) :
    total op ((roots place ranks).map fun v => nodeSum op place ranks x v i) =
      total op (ranks.map fun v => x v i) := by
  have hparts : ∀ v ∈ roots place ranks,
      total op ((ranks.filter (nodeOf place · = nodeOf place v)).map fun u => x u i) =
        some (nodeSum op place ranks x v i) :=
    fun v hv => total_sumOf (mem_onNode (mem_ranks_of_roots place hv)) i
  rw [← total_flatMap op hparts, ← List.map_flatMap]
  exact total_perm op ((firsts_perm (nodeOf place) hnodup).map _)

theorem leaders_sum (hw : w ∈ leaders place ranks (nodeOf place w)) (i : Nat) :
    sumOf op (osprocSum op place ranks x) (leaders place ranks (nodeOf place w)) w i =
      nodeSum op place ranks x w i := by
  refine sumOf_eq hw ?_
  rw [leaders_total hnodup]
  exact total_sumOf (mem_onNode (mem_of_mem_leaders place hw).1) i

theorem roots_sum (hw : w ∈ roots place ranks) (i : Nat) :
    sumOf op (nodeSum op place ranks x) (roots place ranks) w i = allSum op ranks x i := by
  refine sumOf_eq hw ?_
  rw [roots_total hnodup]
  exact total_allSum (mem_ranks_of_roots place hw) i

end

end Totals

section Groups
variable (place : Placement) (ranks : List Proc)

def osprocGroup (w : Proc) : Option CommId :=
  groupOf .osprocColocatedComm (colocated place ranks (place.pid w)) w

def nodeGroup (w : Proc) : Option CommId := groupOf .nodeComm (leaders place ranks (nodeOf place w)) w

def rootsGroup (w : Proc) : Option CommId := groupOf .nodeRootsComm (roots place ranks) w

theorem osprocGroup_grouped : Grouped (osprocGroup place ranks) := by
  refine groupOf_grouped fun w v hv => ?_
  have hpid : place.pid v = place.pid w := by simpa using (List.mem_filter.mp hv).2
  rw [hpid]

theorem nodeGroup_grouped : Grouped (nodeGroup place ranks) := by
  refine groupOf_grouped fun w v hv => ?_
  rw [(mem_of_mem_leaders place hv).2]

theorem rootsGroup_grouped : Grouped (rootsGroup place ranks) := groupOf_grouped fun _ _ _ => rfl

variable {place ranks} {w : Proc}

theorem osprocGroup_outside (hw : w ∉ ranks) : osprocGroup place ranks w = none :=
  groupOf_neg fun hand => hw (List.mem_of_mem_filter hand.2)

theorem nodeGroup_outside (hw : w ∉ ranks) : nodeGroup place ranks w = none :=
  groupOf_neg fun hand => hw (mem_of_mem_leaders place hand.2).1

theorem rootsGroup_outside (hw : w ∉ ranks) : rootsGroup place ranks w = none :=
  groupOf_neg fun hand => hw (mem_ranks_of_roots place hand.2)

end Groups

end FgMpi.Coll.SmpCalls
