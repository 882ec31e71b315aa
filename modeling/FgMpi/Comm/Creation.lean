import FgMpi.Comm.Effects

namespace FgMpi.Comm.Creation
open Machine.Outcome Machine.Slots ContextId.Mask
open Comm.NestedMaps Comm.SharedVars Comm.Communicator Comm.Ledger
open Comm.Effects

inductive Closing (place : Placement) (parent c : Intracomm) (w : World) :
    Nested → Option Nested → (List Proc → Prop) → Prop
  | commit {co : Co} {nested n : Nested} (hi : w.heap.cos[c.co]? = some co)
      (hnested : co.nested = some nested ∨
        co.nested = none ∧ Computed place w.heap c co.rtwMap nested)
      (hn : n = nested ∨ n = { nested with intraOsproc := none }) :
      Closing place parent c w nested (some n) (Extracted nested)
  | share {co pco : Co} {nested : Nested} (hi : w.heap.cos[c.co]? = some co)
      (hp : w.heap.cos[parent.co]? = some pco) (hnested : pco.nested = some nested)
      (hsize : c.localSize = parent.localSize) :
      Closing place parent c w nested co.nested (Inherited parent w.heap)

structure Attached (place : Placement) (q : Pending) (parent c : Intracomm)
    (target : Option GroupRef) (nested₀ : Option Nested) (fresh : List Proc → Prop)
    (w w' : World) : Prop where
  proc : c.proc = q.proc
  contextId : c.contextId = q.contextId
  creation : c.creation = q.creation
  live : c.live = true
  colocated : c.colocated = none
  localGroup : c.localGroup = target
  built : ∃ w₁ nested n colo,
    Entered (place.pid q.proc) ⟨q.contextId, c.leader⟩ target false nested₀ fresh w w₁ c.co ∧
    Closing place parent c (w₁.addComm c) nested n colo ∧
    Finished (place.pid q.proc) w.comms.length c nested n colo (w₁.addComm c) w'

section Attach
variable {place : Placement} {junk : Nat → Proc} {w : World} {q : Pending} {parent : Intracomm}
  {co : Co}

theorem commit_closing {w₁ : World} {c : Intracomm} {target : Option GroupRef}
    {nested₀ : Option Nested} {fresh : List Proc → Prop} (hs : Sane w) (parent : Intracomm)
    (he : Entered (place.pid q.proc) ⟨q.contextId, c.leader⟩ target false nested₀ fresh w w₁ c.co)
    (hproc : c.proc = q.proc) :
    Yields NoUse (commit place junk (w₁.addComm c) w.comms.length) (fun w' => ∃ nested n colo,
      Closing place parent c (w₁.addComm c) nested n colo ∧
      Finished (place.pid q.proc) w.comms.length c nested n colo (w₁.addComm c) w') := by
  obtain ⟨hs₁, hc⟩ := he.addComm hs c
  obtain ⟨co, hi, hco⟩ := he.live
  refine (commit_finished hs₁ hc hi hco junk).mono ?_
  rintro w' ⟨nested, n, hnested, hn, hfin⟩
  rw [hproc] at hfin
  exact ⟨nested, _, _, Closing.commit hi hnested hn, hfin⟩

theorem attachSplit_attached (hs : Sane w) (hi : w.heap.cos[parent.co]? = some co)
    (hco : co.freed = false) (color : Int) (arg : Arg) :
    Yields NoUse (attachSplit place junk w q parent color arg) (fun w' => ∃ all ranks c,
      w.heap.findMap co.rtwMap = .ok all ∧ Picks all (colorClass q.args color) ranks ∧
      ranks.min? = some c.leader ∧
      c.rank = (sortInttable q.args (colorClass q.args color)).idxOf parent.rank ∧
      c.localSize = (sortInttable q.args (colorClass q.args color)).length ∧
      c.members = newMembers w.heap parent q.args arg ∧
      Attached place q parent c none none
        (Picks all (sortInttable q.args (colorClass q.args color))) w w') := by
  obtain ⟨m, a, _, _, hfind⟩ := findMap_of_co hs.balanced hi hco
  unfold attachSplit
  refine Yields.bind_ok (liveCo_of hi hco) ?_
  refine Yields.bind_ok hfind ?_
  refine (lookupRanks_noUse a.ranks (colorClass q.args color)).bind ?_
  intro ranks hranks
  refine (findLeader_noUse ranks).bind ?_
  intro leader hleader
  refine Yields.bind (P := fun r => Entered (place.pid q.proc) ⟨q.contextId, leader⟩ none false
    none (Picks a.ranks (sortInttable q.args (colorClass q.args color))) w r.1 r.2) ?_ ?_
  · refine findOrMake_entered (fun _ hk => addAllRef_joined hs hk) fun _ => ?_
    refine (lookupRanks_noUse a.ranks _).bind ?_
    intro rs hrs
    exact newShared_made hs.balanced rs none false hrs
  · rintro ⟨w₁, i⟩ he
    refine (commit_closing hs parent he rfl).mono ?_
    rintro w' ⟨nested, n, colo, hclosing, hfin⟩
    exact ⟨a.ranks, ranks, _, hfind, hranks, hleader, rfl, rfl, rfl, rfl, rfl, rfl, rfl, rfl, rfl,
      w₁, nested, n, colo, he, hclosing, hfin⟩

theorem attachCreateIntra_attached (hs : Sane w) {j : GroupRef} {g : Group}
    (hj : w.heap.groups[j]? = some g) (hpos : 0 < g.handles)
    (hcond : ∀ leader i co, rtwmapFindLeader w.heap g.rtwGrpMap g.size = .ok leader →
      w.table (place.pid q.proc) ⟨q.contextId, leader⟩ = some i → w.heap.cos[i]? = some co →
      g.ref = none ∨ g.ref = some co.across ∨ g.handles = 1) (arg : Arg) :
    Yields NoUse (attachCreateIntra place junk w q parent j arg) (fun w' =>
      g.rank = none ∧ w' = w ∨ ∃ rank all ranks c, g.rank = some rank ∧
      w.heap.findMap g.rtwGrpMap = .ok all ∧ Picks all (List.range g.size) ranks ∧
      ranks.min? = some c.leader ∧ c.rank = rank ∧ c.localSize = g.size ∧
      c.members = newMembers w.heap parent q.args arg ∧
      Attached place q parent c (some j) none (fun rs => rs = all) w w') := by
  obtain ⟨m, a, _, _, hfind⟩ := findMap_of_group hs.balanced hj hpos
  unfold attachCreateIntra
  refine Yields.bind_ok (getGroup_of hj) ?_
  cases hrank : g.rank with
  | none => exact Or.inl ⟨rfl, rfl⟩
  | some rank =>
    refine (rtwmapFindLeader_noUse hfind g.size).keep.bind ?_
    rintro leader ⟨⟨ranks, hranks, hmin⟩, hleader⟩
    refine Yields.bind (P := fun r => Entered (place.pid q.proc) ⟨q.contextId, leader⟩ (some j)
      false none (fun rs => rs = a.ranks) w r.1 r.2) ?_ ?_
    · refine findOrMake_entered ?_ fun _ => ?_
      · intro i hi
        obtain ⟨co, hco, hfreed⟩ := hs.table _ _ i hi
        exact retargetGroup_joined hs.balanced hco hfreed hj hpos (hcond leader i co hleader hi hco)
      · refine shareGroup_made hs.balanced hj hpos fun rs hrs => ?_
        rw [hfind] at hrs
        exact (Except.ok.inj hrs).symm
    · rintro ⟨w₁, i⟩ he
      refine (commit_closing hs parent he rfl).mono ?_
      rintro w' ⟨nested, n, colo, hclosing, hfin⟩
      exact Or.inr ⟨rank, a.ranks, ranks, _, rfl, hfind, hranks, hmin, rfl, rfl, rfl, rfl, rfl, rfl,
        rfl, rfl, rfl, w₁, nested, n, colo, he, hclosing, hfin⟩

def copiedNested (co : Co) : Option Nested := co.nested.map (fun n => { n with intraOsproc := none })

theorem copyShare_made (hs : Sane w) (hi : w.heap.cos[parent.co]? = some co)
    (hco : co.freed = false) {all : List Proc} (hfind : w.heap.findMap co.rtwMap = .ok all)
    {pid : Nat} (htable : w.table pid ⟨parent.contextId, parent.leader⟩ = some parent.co)
    (size : Nat) :
    Yields NoUse (copyShare w pid parent size) (fun r => Made none false (copiedNested co)
      (fun rs => if size = parent.localSize then rs = all else Picks all (List.range size) rs)
      w.heap r.1 r.2) := by
  unfold copyShare
  refine Yields.bind_ok (liveCo_of hi hco) ?_
  by_cases hsize : size = parent.localSize
  · simp only [hsize, if_true, htable]
    refine Yields.bind_ok (liveCo_of hi hco) ?_
    refine shareAcross_made hs.balanced hi hco _ false fun rs hrs => ?_
    rw [hfind] at hrs
    exact (Except.ok.inj hrs).symm
  · simp only [hsize, if_false]
    refine Yields.bind_ok hfind ?_
    refine (lookupRanks_noUse all (List.range size)).bind ?_
    intro rs hrs
    exact newShared_made hs.balanced rs _ false hrs

theorem copyLeader_noUse {all : List Proc} (hfind : w.heap.findMap co.rtwMap = .ok all) (size : Nat) :
    Yields NoUse (copyLeader w.heap parent co size) (fun leader =>
      size = parent.localSize ∧ leader = parent.leader ∨ size ≠ parent.localSize ∧
        ∃ ranks, Picks all (List.range size) ranks ∧ ranks.min? = some leader) := by
  unfold copyLeader
  by_cases hsize : size = parent.localSize
  · rw [if_pos hsize]
    exact Or.inl ⟨hsize, rfl⟩
  · rw [if_neg hsize]
    refine (rtwmapFindLeader_noUse hfind size).mono ?_
    intro leader hleader
    exact Or.inr ⟨hsize, hleader⟩

theorem shareCommit_closing {w₁ : World} {c : Intracomm} {nested₀ : Option Nested}
    {fresh : List Proc → Prop} (hs : Sane w) (hi : w.heap.cos[parent.co]? = some co)
    (hco : co.freed = false)
    (hcolo : ∀ k, parent.colocated = some k → ∃ kco, w.heap.cos[k.co]? = some kco ∧ kco.freed = false)
    (he : Entered (place.pid q.proc) ⟨q.contextId, c.leader⟩ none false nested₀ fresh w w₁ c.co)
    (hproc : c.proc = q.proc) (hleader : c.leader = parent.leader)
    (hsize : c.localSize = parent.localSize) :
    Yields NoUse (shareCommit place (w₁.addComm c) parent w.comms.length) (fun w' =>
      ∃ nested n colo, Closing place parent c (w₁.addComm c) nested n colo ∧
      Finished (place.pid q.proc) w.comms.length c nested n colo (w₁.addComm c) w') := by
  obtain ⟨hs₁, hc⟩ := he.addComm hs c
  obtain ⟨co', hi', hco'⟩ := he.live
  refine (shareCommit_finished hs₁ hc hi' hco' (he.old hi) hco ?_ hleader hsize).mono ?_
  · intro k hk
    obtain ⟨kco, hkco, hkfreed⟩ := hcolo k hk
    exact ⟨_, he.old hkco, hkfreed⟩
  · rintro w' ⟨nested, hnested, hfin⟩
    rw [hproc] at hfin
    exact ⟨nested, _, _, Closing.share hi' (he.old hi) hnested hsize, hfin⟩

theorem attachCopy_attached (hs : Sane w) (hi : w.heap.cos[parent.co]? = some co)
    (hco : co.freed = false)
    (htable : w.table (place.pid q.proc) ⟨parent.contextId, parent.leader⟩ = some parent.co)
    (hcolo : ∀ k, parent.colocated = some k →
      ∃ kco, w.heap.cos[k.co]? = some kco ∧ kco.freed = false) (size : Nat) (arg : Arg) :
    Yields NoUse (attachCopy place junk w q parent size arg) (fun w' =>
      (size ≤ parent.rank ∧ ∃ mask, freeContextid (w.masks q.proc) q.contextId = some mask ∧
        w' = { w with masks := Function.update w.masks q.proc mask }) ∨
      (parent.rank < size ∧ ∃ all c, w.heap.findMap co.rtwMap = .ok all ∧
        (size = parent.localSize ∧ c.leader = parent.leader ∨ size ≠ parent.localSize ∧
          ∃ ranks, Picks all (List.range size) ranks ∧ ranks.min? = some c.leader) ∧
        c.rank = parent.rank ∧ c.localSize = size ∧
        c.members = newMembers w.heap parent q.args arg ∧
        Attached place q parent c none (copiedNested co)
          (fun rs => if size = parent.localSize then rs = all else Picks all (List.range size) rs)
          w w')) := by
  obtain ⟨m, a, _, _, hfind⟩ := findMap_of_co hs.balanced hi hco
  unfold attachCopy
  by_cases hrank : size ≤ parent.rank
  · rw [if_pos hrank]
    cases hmask : freeContextid (w.masks q.proc) q.contextId with
    | none => simp [Yields, NoUse]
    | some mask => exact Or.inl ⟨hrank, mask, rfl, rfl⟩
  · rw [if_neg hrank]
    refine Yields.bind_ok (liveCo_of hi hco) ?_
    refine (copyLeader_noUse hfind size).bind ?_
    intro leader hleader
    refine Yields.bind (P := fun r => Entered (place.pid q.proc) ⟨q.contextId, leader⟩ none false
      (copiedNested co) (fun rs =>
        if size = parent.localSize then rs = a.ranks else Picks a.ranks (List.range size) rs)
      w r.1 r.2) ?_ ?_
    · exact findOrMake_entered (fun _ hk => addAllRef_joined hs hk)
        fun _ => copyShare_made hs hi hco hfind htable size
    · rintro ⟨w₁, i⟩ he
      dsimp only
      let c : Intracomm := {
        proc := q.proc
        contextId := q.contextId
        leader := leader
        rank := parent.rank
        localSize := size
        co := i
        creation := q.creation
        members := newMembers w.heap parent q.args arg }
      rcases hleader with ⟨hsize, hlead⟩ | ⟨hsize, hranks⟩
      · rw [if_pos hsize]
        refine (shareCommit_closing hs hi hco hcolo he rfl hlead hsize).mono ?_
        rintro w' ⟨nested, n, colo, hclosing, hfin⟩
        exact Or.inr ⟨by omega, a.ranks, c, hfind, Or.inl ⟨hsize, hlead⟩, rfl, rfl, rfl, rfl, rfl,
          rfl, rfl, rfl, rfl, w₁, nested, n, colo, he, hclosing, hfin⟩
      · rw [if_neg hsize]
        refine (commit_closing hs parent he rfl).mono ?_
        rintro w' ⟨nested, n, colo, hclosing, hfin⟩
        exact Or.inr ⟨by omega, a.ranks, c, hfind, Or.inr ⟨hsize, hranks⟩, rfl, rfl, rfl, rfl, rfl,
          rfl, rfl, rfl, rfl, w₁, nested, n, colo, he, hclosing, hfin⟩

end Attach

end FgMpi.Comm.Creation
