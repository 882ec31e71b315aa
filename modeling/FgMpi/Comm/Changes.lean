import FgMpi.Comm.Registry

/-! Everything that one operation can do to a job, said once. -/

namespace FgMpi.Comm.Changes
open Machine.Outcome ContextId.Mask
open Comm.NestedMaps Comm.SharedVars Comm.Communicator Comm.Ledger
open Comm.Effects Comm.Creation Comm.Registry

structure CommShape (groups : List Group) (c : Intracomm) : Prop where
  rank : c.members[c.rank]? = some c.proc
  size : c.localSize = c.members.length
  nodup : c.members.Nodup
  id : c.contextId % 16 = 0
  group : ∀ j, c.localGroup = some j →
    ∃ g, groups[j]? = some g ∧ g.members = c.members ∧ (c.creation = 1 → g.ofSelf = true)

structure GroupShape (g : Group) : Prop where
  rank : ∀ r, g.rank = some r → g.members[r]? = some g.proc
  size : g.size = g.members.length
  nodup : g.members.Nodup

inductive ArgOk (h : Heap) (q : Pending) (parent : Intracomm) : Arg → Prop
  | split (color key : Int) : ArgOk h q parent (.split (some color) key)
  | createIntra {j : GroupRef} {g : Group} {rank : Nat} (hj : h.groups[j]? = some g)
      (hproc : g.proc = q.proc) (hpos : 0 < g.handles) (hrank : g.rank = some rank) :
      ArgOk h q parent (.createIntra j)
  | copy {size : Nat} (hsize : size ≤ parent.members.length) : ArgOk h q parent (.copy size)

structure PendingShape (w : World) (q : Pending) : Prop where
  id : q.contextId % 16 = 0
  creation : 2 ≤ q.creation
  parent : ∃ parent arg, w.comms[q.parent]? = some parent ∧ parent.live = true ∧
    parent.proc = q.proc ∧ q.args.length = parent.members.length ∧
    q.args[parent.rank]? = some arg ∧ ArgOk w.heap q parent arg

structure Shaped (place : Placement) (w : World) : Prop where
  comm : ∀ (ci : CommRef) c, w.comms[ci]? = some c → CommShape w.heap.groups c
  group : ∀ (j : GroupRef) g, w.heap.groups[j]? = some g → GroupShape g
  pending : ∀ q ∈ w.pending, PendingShape w q
  world : ∀ p, p < place.totprocs → ∃ c, w.comms[p]? = some c ∧ c.proc = p ∧ c.creation = 0
  creations : 2 ≤ w.creations

inductive Creates (w : World) (q : Pending) (parent c : Intracomm) :
    Arg → Option GroupRef → Option Nested → (List Proc → Prop) → Prop
  | split {color key : Int} {co : Co} {all ranks : List Proc}
      (hi : w.heap.cos[parent.co]? = some co) (hfind : w.heap.findMap co.rtwMap = .ok all)
      (hranks : Picks all (colorClass q.args color) ranks) (hleader : ranks.min? = some c.leader)
      (hrank : c.rank = (sortInttable q.args (colorClass q.args color)).idxOf parent.rank)
      (hsize : c.localSize = (sortInttable q.args (colorClass q.args color)).length) :
      Creates w q parent c (.split (some color) key) none none
        (Picks all (sortInttable q.args (colorClass q.args color)))
  | createIntra {j : GroupRef} {g : Group} {all ranks : List Proc}
      (hj : w.heap.groups[j]? = some g) (hfind : w.heap.findMap g.rtwGrpMap = .ok all)
      (hranks : Picks all (List.range g.size) ranks) (hleader : ranks.min? = some c.leader)
      (hrank : g.rank = some c.rank) (hsize : c.localSize = g.size) :
      Creates w q parent c (.createIntra j) (some j) none (fun rs => rs = all)
  | copy {size : Nat} {co : Co} {all : List Proc}
      (hi : w.heap.cos[parent.co]? = some co) (hfind : w.heap.findMap co.rtwMap = .ok all)
      (hleader : size = parent.localSize ∧ c.leader = parent.leader ∨ size ≠ parent.localSize ∧
        ∃ ranks, Picks all (List.range size) ranks ∧ ranks.min? = some c.leader)
      (hlt : parent.rank < size) (hrank : c.rank = parent.rank) (hsize : c.localSize = size) :
      Creates w q parent c (.copy size) none (copiedNested co)
        (fun rs => if size = parent.localSize then rs = all else Picks all (List.range size) rs)

def without (w : World) (q : Pending) : World := { w with pending := w.pending.erase q }

inductive Change (place : Placement) (w : World) : Op → World → Prop
  | idle (o : Op) : Change place w o w
  | started {p : Proc} {junk : Nat → Proc} {c : Intracomm} {nested : Nested} {n : Option Nested}
      {colo : List Proc → Prop} {w' : World} (hp : p < place.totprocs)
      (hnot : w.started p = false) (hc : w.comms[p]? = some c)
      (hclosing : Closing place c c w nested n colo)
      (hfin : Finished (place.pid c.proc) p c nested n colo w w') :
      Change place w (.init p junk) { w' with started := Function.update w'.started p true }
  | agreed (contextId : Nat) (calls : List (CommRef × Arg)) :
      Change place w (.agree contextId calls) (w.agree contextId calls)
  | returned {p : Proc} {junk : Nat → Proc} {q : Pending} {parent : Intracomm} {size : Nat}
      {mask : ContextMask} (hfind : w.pending.find? (fun q => q.proc == p) = some q)
      (hparent : w.comms[q.parent]? = some parent)
      (harg : q.args[parent.rank]? = some (.copy size)) (hle : size ≤ parent.rank)
      (hmask : freeContextid (w.masks q.proc) q.contextId = some mask) :
      Change place w (.attach p junk)
        { w with pending := w.pending.erase q, masks := Function.update w.masks q.proc mask }
  | attached {p : Proc} {junk : Nat → Proc} {q : Pending} {parent c : Intracomm} {arg : Arg}
      {target : Option GroupRef} {nested₀ : Option Nested} {fresh : List Proc → Prop} {w' : World}
      (hfind : w.pending.find? (fun q => q.proc == p) = some q) (hparent : w.comms[q.parent]? = some parent)
      (harg : q.args[parent.rank]? = some arg)
      (hmembers : c.members = newMembers w.heap parent q.args arg)
      (hcreates : Creates w q parent c arg target nested₀ fresh)
      (hatt : Attached place q parent c target nested₀ fresh (without w q) w') :
      Change place w (.attach p junk) w'
  | freed {ci : CommRef} {c : Intracomm} {co co' : Co} {h' : Heap} {freed : Bool}
      {table : Nat → Key → Option CoRef} {mask : ContextMask} (huse : w.usable ci = some c)
      (hcre : 2 ≤ c.creation) (hi : w.heap.cos[c.co]? = some co) (hco : co.freed = false)
      (hb : Balanced h') (hkept : RanksKept w.heap h') (hgroups : h'.groups = w.heap.groups)
      (hcos : h'.cos = w.heap.cos.set c.co co') (hpin : co'.pinned = co.pinned)
      (hfreed : co'.freed = freed) (hone : freed = true ↔ co.within = 1)
      (hrest : freed = false → co' = { co with within := co.within - 1 })
      (htable : Cleared place c freed w table)
      (hmask : freeContextid (w.masks c.proc) c.contextId = some mask) :
      Change place w (.commFree ci) { w with
        heap := h'
        table := table
        comms := w.comms.set ci { c with live := false }
        masks := Function.update w.masks c.proc mask }
  | newGroup {ci : CommRef} {c : Intracomm} {co : Co} {g : Group} {h' : Heap}
      (huse : w.usable ci = some c) (hi : w.heap.cos[c.co]? = some co) (hco : co.freed = false)
      (hb : Balanced h') (hmaps : h'.maps = w.heap.maps) (hcos : h'.cos = w.heap.cos)
      (hgroups : h'.groups = w.heap.groups ++ [g]) (hmap : g.rtwGrpMap = co.rtwMap)
      (hproc : g.proc = c.proc) (hrank : g.rank = some c.rank) (hsize : g.size = c.localSize)
      (hmembers : g.members = c.members) (hself : g.ofSelf = decide (c.creation = 1)) :
      Change place w (.commGroup ci) { w with
        heap := h'
        comms := w.comms.set ci { c with localGroup := some w.heap.groups.length } }
  | oldGroup {ci : CommRef} {c : Intracomm} {co : Co} {j : GroupRef} {g : Group} {h' : Heap}
      (huse : w.usable ci = some c) (hj : w.heap.groups[j]? = some g)
      (hgroup : c.localGroup = some j) (hi : w.heap.cos[c.co]? = some co)
      (hco : co.freed = false) (hb : Balanced h') (hmaps : h'.maps = w.heap.maps)
      (hcos : h'.cos = w.heap.cos)
      (hgroups : h'.groups = w.heap.groups.set j { g with handles := g.handles + 1 })
      (hmap : g.rtwGrpMap = co.rtwMap) : Change place w (.commGroup ci) { w with heap := h' }
  | included {j : GroupRef} {g : Group} {ranks : List Nat} {old new : List Proc}
      (huse : w.usableGroup j = some g) (hnodup : ranks.Nodup) (hlt : ∀ r ∈ ranks, r < g.size)
      (hold : w.heap.findMap g.rtwGrpMap = .ok old) (hnew : Picks old ranks new) :
      Change place w (.groupIncl j ranks) { w with heap := w.heap.looseGroup new (fun m =>
        { proc := g.proc
          rank := ranks.findIdx? (fun r => some r = g.rank)
          size := ranks.length
          rtwGrpMap := m
          ref := none
          members := ranks.filterMap (fun r => g.members[r]?)
          ofSelf := g.ofSelf }) }
  | groupFreed {j : GroupRef} {g : Group} {m : Option MapRef} {h' : Heap}
      (huse : w.usableGroup j = some g) (hb : Balanced h') (hkept : RanksKept w.heap h')
      (hcos : h'.cos = w.heap.cos)
      (hgroups : h'.groups =
        w.heap.groups.set j { g with rtwGrpMap := m, handles := g.handles - 1 })
      (hmap : 1 < g.handles → m = g.rtwGrpMap) :
      Change place w (.groupFree j) { w with heap := h' }

/-- When the counts stay right: a group that is put on another map is not in use elsewhere, and the
group of a communicator that the user asks for again still has the map of the communicator. -/
def KeepsCounts (place : Placement) (w : World) : Op → Prop
  | .attach p _ =>
    ∀ q ∈ w.pending.find? (fun q => q.proc == p), ∀ parent ∈ w.comms[q.parent]?,
    ∀ g ∈ q.args[parent.rank]?.bind (groupOf w.heap),
    ∀ leader ∈ (rtwmapFindLeader w.heap g.rtwGrpMap g.size).toOption,
    ∀ i ∈ w.table (place.pid p) ⟨q.contextId, leader⟩, ∀ co ∈ w.heap.cos[i]?,
    g.ref = none ∨ g.ref = some co.across ∨ g.handles = 1
  | .commGroup ci =>
    ∀ c ∈ w.usable ci, ∀ j ∈ c.localGroup, ∀ g ∈ w.heap.groups[j]?, ∀ co ∈ w.heap.cos[c.co]?,
    g.ref = some co.across
  | _ => True

instance (place : Placement) (w : World) : (o : Op) → Decidable (KeepsCounts place w o)
  | .attach _ _ => by unfold KeepsCounts; infer_instance
  | .commGroup _ => by unfold KeepsCounts; infer_instance
  | .init _ _ => isTrue trivial
  | .agree _ _ => isTrue trivial
  | .commFree _ => isTrue trivial
  | .groupIncl _ _ => isTrue trivial
  | .groupFree _ => isTrue trivial

section Operations
variable {place : Placement} {w : World}

theorem usable_eq_some {ci : CommRef} {c : Intracomm} :
    w.usable ci = some c ↔ w.comms[ci]? = some c ∧ c.live = true ∧ ¬ w.busy c.proc := by
  unfold World.usable
  rw [Option.filter_eq_some_iff]
  simp

theorem usableGroup_eq_some {j : GroupRef} {g : Group} : w.usableGroup j = some g ↔
    w.heap.groups[j]? = some g ∧ 0 < g.handles ∧ ¬ w.busy g.proc := by
  unfold World.usableGroup
  rw [Option.filter_eq_some_iff]
  simp

section
variable (hr : Registered place w)
include hr

theorem init_change (hs : Shaped place w) (p : Proc) (junk : Nat → Proc) :
    Yields NoUse (step place w (.init p junk)) (Change place w (.init p junk)) := by
  rw [step]
  split
  · rename_i hp
    obtain ⟨c, hc, _, hcre⟩ := hs.world p hp.1
    obtain ⟨hlive, _⟩ := hr.predefined p c hc (by omega)
    obtain ⟨co, hi, hco⟩ := hr.co_of hc hlive
    refine (commit_finished hr.sane hc hi hco junk).bind ?_
    rintro w' ⟨nested, n, hnested, hn, hfin⟩
    exact Change.started hp.1 hp.2 hc (Closing.commit hi hnested hn) hfin
  · exact Change.idle _

theorem attach_change (hs : Shaped place w) (p : Proc)
    (junk : Nat → Proc) (hcond : KeepsCounts place w (.attach p junk)) :
    Yields NoUse (step place w (.attach p junk)) (Change place w (.attach p junk)) := by
  rw [step]
  cases hfind : w.pending.find? (fun q => q.proc == p) with
  | none => exact Change.idle _
  | some q =>
    have hq := List.mem_of_find?_eq_some hfind
    have hqp : q.proc = p := by simpa using List.find?_some hfind
    obtain ⟨parent, arg, hparent, hlive, hproc, _, harg, hok⟩ := (hs.pending q hq).parent
    obtain ⟨co, hi, hco⟩ := hr.co_of hparent hlive
    have hs' : Sane (without w q) := ⟨hr.balanced, hr.table⟩
    change Yields NoUse (attach place junk w q) _
    unfold attach
    refine Yields.bind_ok (getComm_of hparent) ?_
    dsimp only
    rw [harg]
    cases hok with
    | split color key =>
      refine (attachSplit_attached hs' hi hco color _).mono ?_
      rintro w' ⟨all, ranks, c, hall, hranks, hleader, hrank, hsize, hmembers, hatt⟩
      exact Change.attached hfind hparent harg hmembers
        (Creates.split hi hall hranks hleader hrank hsize) hatt
    | @createIntra j g rank hj hgproc hpos hrank =>
      refine (attachCreateIntra_attached hs' hj hpos ?_ _).mono ?_
      · intro leader i co' hleader ht hi'
        rw [hqp] at ht
        refine hcond q hfind parent hparent g ?_ leader ?_ i ht co' hi'
        · rw [harg]
          exact hj
        · change leader ∈ (rtwmapFindLeader (without w q).heap _ _).toOption
          rw [hleader]
          rfl
      · rintro w' (⟨hnone, _⟩ | ⟨rank', all, ranks, c, hr', hall, hranks, hleader, hrk, hsize,
          hmembers, hatt⟩)
        · rw [hrank] at hnone
          cases hnone
        · subst hrk
          exact Change.attached hfind hparent harg hmembers
            (Creates.createIntra hj hall hranks hleader hr' hsize) hatt
    | copy hsize =>
      have htable := hr.comm q.parent parent hparent hlive
      rw [hproc] at htable
      refine (attachCopy_attached hs' hi hco htable ?_ _ _).mono ?_
      · intro k hk
        obtain ⟨kco, hkco, hkf, _⟩ := hr.colocated q.parent parent k hparent hk
        exact ⟨kco, hkco, hkf⟩
      · rintro w' (⟨hle, mask, hmask, rfl⟩ | ⟨hlt, all, c, hall, hleader, hrank, hsz, hmembers, hatt⟩)
        · exact Change.returned hfind hparent harg hle hmask
        · exact Change.attached hfind hparent harg hmembers
            (Creates.copy hi hall hleader hlt hrank hsz) hatt

theorem commFree_change (ci : CommRef) :
    Yields NoUse (step place w (.commFree ci)) (Change place w (.commFree ci)) := by
  rw [step]
  cases huse : w.usable ci with
  | none => exact Change.idle _
  | some c =>
    obtain ⟨hc, hlive, _⟩ := usable_eq_some.mp huse
    obtain ⟨co, hi, hco⟩ := hr.co_of hc hlive
    have hkey := hr.comm ci c hc hlive
    dsimp only
    split
    · rename_i hcre
      unfold commFree
      refine (releaseAllRef_balanced hr.balanced hi hco _).bind ?_
      rintro ⟨h', freed⟩ ⟨hb, hkept, hgroups, co', hcos, hpin, hfreed, hone, hrest⟩
      refine Yields.bind (P := Cleared place c freed w) ?_ ?_
      · unfold World.clearEntry
        cases freed with
        | true =>
          simp only [if_true, hkey]
          rfl
        | false => rfl
      · intro table htable
        cases hmask : freeContextid (w.masks c.proc) c.contextId with
        | none => simp [Yields, NoUse]
        | some mask =>
          exact Change.freed huse hcre hi hco hb hkept hgroups hcos hpin hfreed hone hrest htable
            hmask
    · exact Change.idle _

theorem commGroup_change (hs : Shaped place w) (ci : CommRef) (hcond : KeepsCounts place w (.commGroup ci)) :
    Yields NoUse (step place w (.commGroup ci)) (Change place w (.commGroup ci)) := by
  rw [step]
  cases huse : w.usable ci with
  | none => exact Change.idle _
  | some c =>
    obtain ⟨hc, hlive, _⟩ := usable_eq_some.mp huse
    obtain ⟨co, hi, hco⟩ := hr.co_of hc hlive
    change Yields NoUse (commGroup w ci c) _
    unfold commGroup
    cases hgroup : c.localGroup with
    | none =>
      obtain ⟨h', hh', hb, hmaps, hcos, hgroups⟩ := newGroup_balanced hr.balanced hi hco
        (g := fun m x =>
          { proc := c.proc
            rank := some c.rank
            size := c.localSize
            rtwGrpMap := m
            ref := some x
            members := c.members
            ofSelf := decide (c.creation = 1) })
        (fun _ _ => rfl) (fun _ _ => rfl) (fun _ _ => rfl)
      refine Yields.bind_ok hh' ?_
      exact Change.newGroup huse hi hco hb hmaps hcos hgroups rfl rfl rfl rfl rfl rfl
    | some j =>
      obtain ⟨g, hj, _⟩ := (hs.comm ci c hc).group j hgroup
      have href := hcond c huse j hgroup g hj co hi
      obtain ⟨h', hh', hb, hmaps, hcos, hgroups, hmap⟩ := addGroupRef_balanced hr.balanced hi hco hj href
      refine Yields.bind_ok hh' ?_
      exact Change.oldGroup huse hj hgroup hi hco hb hmaps hcos hgroups hmap

theorem groupIncl_change (j : GroupRef) (ranks : List Nat) :
    Yields NoUse (step place w (.groupIncl j ranks)) (Change place w (.groupIncl j ranks)) := by
  rw [step]
  cases huse : w.usableGroup j with
  | none => exact Change.idle _
  | some g =>
    obtain ⟨hj, hpos, _⟩ := usableGroup_eq_some.mp huse
    obtain ⟨m, a, _, _, hfind⟩ := findMap_of_group hr.balanced hj hpos
    dsimp only
    split
    · rename_i hranks
      unfold groupIncl
      split
      · exact Change.idle _
      · refine Yields.bind_ok hfind ?_
        refine (lookupRanks_noUse a.ranks ranks).bind ?_
        intro new hnew
        exact Change.included huse hranks.1 hranks.2 hfind hnew
    · exact Change.idle _

theorem groupFree_change (j : GroupRef) :
    Yields NoUse (step place w (.groupFree j)) (Change place w (.groupFree j)) := by
  rw [step]
  cases huse : w.usableGroup j with
  | none => exact Change.idle _
  | some g =>
    obtain ⟨hj, hpos, _⟩ := usableGroup_eq_some.mp huse
    obtain ⟨h', m, hh', hb, hkept, hcos, hgroups, hmap⟩ := groupFree_balanced hr.balanced hj hpos
    dsimp only
    refine Yields.bind_ok hh' ?_
    exact Change.groupFreed huse hb hkept hcos hgroups hmap

theorem step_change (hs : Shaped place w) (o : Op)
    (hcond : KeepsCounts place w o) : Yields NoUse (step place w o) (Change place w o) := by
  cases o with
  | init p junk => exact init_change hr hs p junk
  | agree contextId calls => exact Change.agreed contextId calls
  | attach p junk => exact attach_change hr hs p junk hcond
  | commFree ci => exact commFree_change hr ci
  | commGroup ci => exact commGroup_change hr hs ci hcond
  | groupIncl j ranks => exact groupIncl_change hr j ranks
  | groupFree j => exact groupFree_change hr j

end

end Operations

end FgMpi.Comm.Changes
