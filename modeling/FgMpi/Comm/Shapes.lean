import FgMpi.Comm.Changes

namespace FgMpi.Comm.Shapes
open Machine.Outcome Machine.Slots ContextId.Mask
open Comm.NestedMaps Comm.SharedVars Comm.Communicator Comm.Ledger
open Comm.Effects Comm.Creation Comm.Registry Comm.Changes

def SameComm (c c' : Intracomm) : Prop :=
  c' = { c with colocated := c'.colocated, live := c'.live }

def SameGroup (g g' : Group) : Prop :=
  g' = { g with rtwGrpMap := g'.rtwGrpMap, ref := g'.ref, handles := g'.handles }

structure Evolves (w w' : World) : Prop where
  comms : ∀ (ci : CommRef) c, w.comms[ci]? = some c → ∃ c', w'.comms[ci]? = some c' ∧
    SameComm c c' ∧ (c.live = true → (∃ q ∈ w'.pending, q.proc = c.proc) → c'.live = true)
  groups : ∀ (j : GroupRef) g, w.heap.groups[j]? = some g → ∃ g', w'.heap.groups[j]? = some g' ∧
    SameGroup g g' ∧ (0 < g.handles → (∃ q ∈ w'.pending, q.proc = g.proc) → 0 < g'.handles)

section Evolves
variable {place : Placement} {w w' : World}

variable {c : Intracomm}

theorem commShape_evolve {groups groups' : List Group} {c' : Intracomm}
    (h : CommShape groups c) (hc : SameComm c c')
    (hgroups : ∀ (j : GroupRef) g, groups[j]? = some g → ∃ g', groups'[j]? = some g' ∧
      SameGroup g g') : CommShape groups' c' := by
  rw [hc]
  refine ⟨h.rank, h.size, h.nodup, h.id, ?_⟩
  intro j hj
  obtain ⟨g, hg, hm, hself⟩ := h.group j hj
  obtain ⟨g', hg', hsame⟩ := hgroups j g hg
  refine ⟨g', hg', ?_⟩
  rw [hsame]
  exact ⟨hm, hself⟩

theorem groupShape_same {g g' : Group} (h : GroupShape g) (hg : SameGroup g g') : GroupShape g' := by
  rw [hg]
  exact ⟨h.rank, h.size, h.nodup⟩

theorem pendingShape_evolve {q : Pending} (h : PendingShape w q) (he : Evolves w w')
    (hq : q ∈ w'.pending) : PendingShape w' q := by
  obtain ⟨parent, arg, hparent, hlive, hproc, hlen, harg, hok⟩ := h.parent
  obtain ⟨parent', hparent', hsame, hkeep⟩ := he.comms q.parent parent hparent
  refine ⟨h.id, h.creation, parent', arg, hparent', hkeep hlive ⟨q, hq, hproc.symm⟩, ?_⟩
  rw [hsame]
  refine ⟨hproc, hlen, harg, ?_⟩
  cases hok with
  | split color key => exact ArgOk.split color key
  | @createIntra j g rank hj hgproc hpos hrank =>
    obtain ⟨g', hj', hg, hkeep'⟩ := he.groups _ _ hj
    have hpos' := hkeep' hpos ⟨q, hq, hgproc.symm⟩
    have hproc' : g'.proc = q.proc := by
      rw [hg]
      exact hgproc
    have hrank' : g'.rank = some rank := by
      rw [hg]
      exact hrank
    exact ArgOk.createIntra hj' hproc' hpos' hrank'
  | copy hsize => exact ArgOk.copy hsize

theorem getElem?_of_length {α : Type} {l l' : List α} {i : Nat} {a : α}
    (hlen : l'.length = l.length) (h : l'[i]? = some a) : ∃ b, l[i]? = some b := by
  have hlt := lt_of_slot h
  exact ⟨_, List.getElem?_eq_getElem (by omega)⟩

theorem shaped_evolve (hs : Shaped place w) (he : Evolves w w') (hcomms : w'.comms.length = w.comms.length)
    (hgroups : w'.heap.groups.length = w.heap.groups.length)
    (hpending : ∀ q ∈ w'.pending, q ∈ w.pending) (hcre : w.creations ≤ w'.creations) :
    Shaped place w' where
  comm ci c' hc' := by
    obtain ⟨c, hc⟩ := getElem?_of_length hcomms hc'
    obtain ⟨c'', hc'', hsame, _⟩ := he.comms ci c hc
    rw [hc'] at hc''
    cases hc''
    refine commShape_evolve (hs.comm ci c hc) hsame ?_
    intro j g hj
    obtain ⟨g', hj', hg, _⟩ := he.groups j g hj
    exact ⟨g', hj', hg⟩
  group j g' hj' := by
    obtain ⟨g, hj⟩ := getElem?_of_length hgroups hj'
    obtain ⟨g'', hj'', hsame, _⟩ := he.groups j g hj
    rw [hj'] at hj''
    cases hj''
    exact groupShape_same (hs.group j g hj) hsame
  pending q hq := pendingShape_evolve (hs.pending q (hpending q hq)) he hq
  world p hp := by
    obtain ⟨c, hc, hproc, hzero⟩ := hs.world p hp
    obtain ⟨c', hc', hsame, _⟩ := he.comms p c hc
    refine ⟨c', hc', ?_⟩
    rw [hsame]
    exact ⟨hproc, hzero⟩
  creations := le_trans hs.creations hcre

theorem SameGroup.refl (g : Group) : SameGroup g g := rfl

theorem SameComm.refl (c : Intracomm) : SameComm c c := rfl

theorem evolves_of_same (hcomms : w'.comms = w.comms) (hgroups : w'.heap.groups = w.heap.groups) :
    Evolves w w' where
  comms ci c hc := ⟨c, by rw [hcomms]; exact hc, SameComm.refl c, fun h _ => h⟩
  groups j g hj := ⟨g, by rw [hgroups]; exact hj, SameGroup.refl g, fun h _ => h⟩

variable {fresh : List Proc → Prop}

theorem entered_groups {pid : Nat} {key : Key} {target : Option GroupRef} {pinned : Bool}
    {nested₀ : Option Nested} {i : CoRef} (he : Entered pid key target pinned nested₀ fresh w w' i) :
    w'.heap.groups.length = w.heap.groups.length ∧
    ∀ (j : GroupRef) g, w.heap.groups[j]? = some g → ∃ g', w'.heap.groups[j]? = some g' ∧
      SameGroup g g' ∧ g'.handles = g.handles := by
  have hmoved : Moved target w.heap w'.heap i := by
    rcases he.heap with ⟨_, hj⟩ | ⟨_, hm⟩
    · exact hj.moved
    · exact hm.moved
  cases target with
  | none =>
    rw [show w'.heap.groups = w.heap.groups from hmoved]
    exact ⟨rfl, fun j g hj => ⟨g, hj, SameGroup.refl g, rfl⟩⟩
  | some j =>
    obtain ⟨g, co, hj, _, hgroups⟩ := hmoved
    rw [hgroups]
    refine ⟨List.length_set .., ?_⟩
    intro k g₀ hk
    by_cases hkj : k = j
    · subst hkj
      rw [hj] at hk
      cases hk
      exact ⟨_, (getElem?_update hj).mpr (Or.inl ⟨rfl, rfl⟩), rfl, rfl⟩
    · exact ⟨g₀, (getElem?_update hj).mpr (Or.inr ⟨hkj, hk⟩), SameGroup.refl g₀, rfl⟩

section
variable (hs : Shaped place w)
include hs

theorem shaped_entered {pid : Nat} {key : Key} {target : Option GroupRef} {pinned : Bool}
    {nested₀ : Option Nested} {i : CoRef}
    (he : Entered pid key target pinned nested₀ fresh w w' i) : Shaped place w' := by
  obtain ⟨hlen, hgroups⟩ := entered_groups he
  refine shaped_evolve hs ⟨?_, ?_⟩ ?_ hlen ?_ ?_
  · intro ci c hc
    exact ⟨c, by rw [he.frame.comms]; exact hc, SameComm.refl c, fun h _ => h⟩
  · intro j g hj
    obtain ⟨g', hj', hsame, hhandles⟩ := hgroups j g hj
    exact ⟨g', hj', hsame, fun h _ => hhandles ▸ h⟩
  · rw [he.frame.comms]
  · rw [he.frame.pending]
    exact fun _ h => h
  · rw [he.frame.creations]

theorem shaped_addComm (hc : CommShape w.heap.groups c) : Shaped place (w.addComm c) where
  comm ci c' hc' := by
    rcases getElem?_concat.mp hc' with hc' | ⟨_, rfl⟩
    · exact hs.comm ci c' hc'
    · exact hc
  group := hs.group
  pending q hq := by
    refine pendingShape_evolve (hs.pending q hq) ⟨?_, ?_⟩ hq
    · intro ci c' hc'
      exact ⟨c', getElem?_concat_of_some hc', SameComm.refl c', fun h _ => h⟩
    · intro j g hj
      exact ⟨g, hj, SameGroup.refl g, fun h _ => h⟩
  world p hp := by
    obtain ⟨c', hc', hrest⟩ := hs.world p hp
    exact ⟨c', getElem?_concat_of_some hc', hrest⟩
  creations := hs.creations

theorem shaped_renested {i : CoRef} {n : Option Nested} (hn : Renested w w' i n) : Shaped place w' := by
  refine shaped_evolve hs (evolves_of_same hn.frame.comms hn.groups) ?_ ?_ ?_ ?_
  · rw [hn.frame.comms]
  · rw [hn.groups]
  · rw [hn.frame.pending]
    exact fun _ h => h
  · rw [hn.frame.creations]

theorem shaped_setComm {ci : CommRef} {c' : Intracomm}
    (hc : w.comms[ci]? = some c) (hsame : SameComm c c') (hlive : c'.live = c.live) :
    Shaped place { w with comms := w.comms.set ci c' } := by
  refine shaped_evolve hs ⟨?_, ?_⟩ (List.length_set ..) rfl (fun _ h => h) le_rfl
  · intro k c₀ hk
    by_cases hkc : k = ci
    · subst hkc
      rw [hc] at hk
      cases hk
      refine ⟨c', (getElem?_update hc).mpr (Or.inl ⟨rfl, rfl⟩), hsame, fun h _ => ?_⟩
      rw [hlive]
      exact h
    · exact ⟨c₀, (getElem?_update hc).mpr (Or.inr ⟨hkc, hk⟩), SameComm.refl c₀, fun h _ => h⟩
  · intro j g hj
    exact ⟨g, hj, SameGroup.refl g, fun h _ => h⟩

theorem shaped_finished {pid : Nat} {ci : CommRef} {nested : Nested} {n : Option Nested}
    (hc : w.comms[ci]? = some c) (hfin : Finished pid ci c nested n fresh w w') :
    Shaped place w' := by
  obtain ⟨w₁, hn, ⟨_, rfl⟩ | ⟨_, w₂, i, rank, he, rfl⟩⟩ := hfin
  · exact shaped_renested hs hn
  · refine shaped_setComm (shaped_entered (shaped_renested hs hn) he) ?_ rfl rfl
    rw [he.frame.comms, hn.frame.comms]
    exact hc

end

end Evolves

theorem mem_keytable {args : List Arg} {color : Int} {k : Nat} :
    k ∈ sortInttable args (colorClass args color) ↔
      k < args.length ∧ args[k]?.bind Arg.color = some color := by
  unfold sortInttable colorClass
  rw [(List.perm_insertionSort _ _).mem_iff]
  simp

theorem nodup_keytable (args : List Arg) (color : Int) :
    (sortInttable args (colorClass args color)).Nodup := by
  unfold sortInttable colorClass
  rw [(List.perm_insertionSort _ _).nodup_iff]
  exact List.nodup_range.filter _

section New
variable {place : Placement} {w : World}

theorem picks_keytable {parent : Intracomm} {args : List Arg}
    (hlen : args.length = parent.members.length) (color key : Int) :
    Picks parent.members (sortInttable args (colorClass args color))
      (newMembers w.heap parent args (.split (some color) key)) := by
  refine picks_filterMap ?_
  intro k hk
  rw [← hlen]
  exact (mem_keytable.mp hk).1

theorem creates_shape {q : Pending} {parent c : Intracomm} {arg : Arg} {target : Option GroupRef}
    {nested₀ : Option Nested} {fresh : List Proc → Prop} (hs : Shaped place w)
    (hp : CommShape w.heap.groups parent) (hproc : parent.proc = q.proc)
    (hlen : q.args.length = parent.members.length) (harg : q.args[parent.rank]? = some arg)
    (hok : ArgOk w.heap q parent arg) (hcreates : Creates w q parent c arg target nested₀ fresh)
    (hmembers : c.members = newMembers w.heap parent q.args arg) (hcproc : c.proc = q.proc)
    (hid : c.contextId % 16 = 0) (hgroup : c.localGroup = target) (hcre : 2 ≤ c.creation) :
    CommShape w.heap.groups c := by
  cases hcreates with
  | @split color key co all ranks hi hfind hranks hleader hrank hsize =>
    have hpicks := picks_keytable (w := w) hlen color key
    have hmem : parent.rank ∈ sortInttable q.args (colorClass q.args color) := by
      rw [mem_keytable, harg]
      exact ⟨lt_of_slot harg, rfl⟩
    have hidx : (sortInttable q.args (colorClass q.args color))[c.rank]? = some parent.rank := by
      rw [hrank, List.getElem?_eq_getElem (List.idxOf_lt_length_iff.mpr hmem), List.getElem_idxOf]
    refine ⟨?_, ?_, ?_, hid, ?_⟩
    · rw [hmembers, hpicks.getElem? hidx, hp.rank, hproc, hcproc]
    · rw [hmembers, hpicks.length, hsize]
    · rw [hmembers]
      exact hpicks.nodup (nodup_keytable _ _) hp.nodup
    · rw [hgroup]
      exact fun _ h => by cases h
  | @createIntra j g all ranks hj hfind hranks hleader hrank hsize =>
    have hg := hs.group j g hj
    have hnew : c.members = g.members := by
      rw [hmembers]
      simp [newMembers, hj]
    refine ⟨?_, ?_, ?_, hid, ?_⟩
    · cases hok with
      | createIntra hj' hgproc _ _ =>
        rw [hj] at hj'
        cases hj'
        rw [hnew, hg.rank _ hrank, hgproc, hcproc]
    · rw [hnew, hsize, hg.size]
    · rw [hnew]
      exact hg.nodup
    · rw [hgroup]
      intro k hk
      cases hk
      exact ⟨g, hj, hnew.symm, fun h => by omega⟩
  | @copy size co all hi hfind hleader hlt hrank hsize =>
    have hle : size ≤ parent.members.length := by
      cases hok with
      | copy h => exact h
    have hnew : c.members = parent.members.take size := hmembers
    refine ⟨?_, ?_, ?_, hid, ?_⟩
    · rw [hnew, hrank, List.getElem?_take_of_lt hlt, hp.rank, hproc, hcproc]
    · rw [hnew, hsize, List.length_take]
      omega
    · rw [hnew]
      exact hp.nodup.sublist (List.take_sublist ..)
    · rw [hgroup]
      exact fun _ h => by cases h

theorem included_shape {g : Group} {ranks : List Nat} (hg : GroupShape g) (hnodup : ranks.Nodup)
    (hlt : ∀ r ∈ ranks, r < g.size) (m : Option MapRef) :
    GroupShape
      { proc := g.proc
        rank := ranks.findIdx? (fun r => some r = g.rank)
        size := ranks.length
        rtwGrpMap := m
        ref := none
        members := ranks.filterMap (fun r => g.members[r]?)
        ofSelf := g.ofSelf } := by
  have hpicks : Picks g.members ranks (ranks.filterMap (fun r => g.members[r]?)) := by
    refine picks_filterMap ?_
    intro r hr
    rw [← hg.size]
    exact hlt r hr
  refine ⟨?_, hpicks.length.symm, hpicks.nodup hnodup hg.nodup⟩
  intro i hi
  obtain ⟨hlt', heq, _⟩ := List.findIdx?_eq_some_iff_getElem.mp hi
  have hrank : some ranks[i] = g.rank := by simpa using heq
  rw [hpicks.getElem? (List.getElem?_eq_getElem hlt')]
  exact hg.rank _ hrank.symm

end New

structure Agreed (w : World) (parent : Intracomm) (contextId : Nat)
    (calls : List (CommRef × Arg)) : Prop where
  first : ∃ ci : CommRef, w.comms[ci]? = some parent
  handles : calls.map (fun call =>
      w.comms[call.1]?.map (fun c => (c.proc, c.live, c.creation, c.members))) =
    parent.members.map (fun p => some (p, true, parent.creation, parent.members))
  idle : ∀ p ∈ parent.members, ¬ w.busy p
  fits : argsFit w.heap parent.members (calls.map Prod.snd) = true
  id : IsContextId contextId

def takers (w : World) (parent : Intracomm) (calls : List (CommRef × Arg)) :
    List (Proc × CommRef × Arg) :=
  (parent.members.zip calls).filter (fun t => takesPart w.heap t.2.2)

theorem agree_cases (w : World) (contextId : Nat) (calls : List (CommRef × Arg)) :
    w.agree contextId calls = w ∨ ∃ parent, Agreed w parent contextId calls ∧
      (∀ t ∈ takers w parent calls, hasBit (w.masks t.1) contextId = true) ∧
      w.agree contextId calls = { w with
        masks := fun p =>
          if p ∈ (takers w parent calls).map Prod.fst then
            (allocateContextBit (w.masks p) contextId).getD (w.masks p)
          else w.masks p
        pending := w.pending ++ (takers w parent calls).map
          (fun t => ⟨t.1, t.2.1, contextId, w.creations, calls.map Prod.snd⟩)
        creations := w.creations + 1 } := by
  unfold World.agree
  cases hhead : calls.head?.bind (fun call => w.comms[call.1]?) with
  | none => exact Or.inl rfl
  | some parent =>
    obtain ⟨call, _, hfirst⟩ := Option.bind_eq_some_iff.mp hhead
    dsimp only
    split
    · rename_i h
      exact Or.inr ⟨parent, ⟨⟨call.1, hfirst⟩, h.1, h.2.1, h.2.2.1, h.2.2.2.1⟩, h.2.2.2.2, rfl⟩
    · exact Or.inl rfl

section Agreement
variable {place : Placement} {w : World} {parent : Intracomm} {contextId : Nat}
  {calls : List (CommRef × Arg)}

theorem Agreed.length (ha : Agreed w parent contextId calls) : calls.length = parent.members.length := by
  have h := congrArg List.length ha.handles
  rwa [List.length_map, List.length_map] at h

theorem Agreed.handle (ha : Agreed w parent contextId calls) {k : Nat} {p : Proc}
    {call : CommRef × Arg} (hp : parent.members[k]? = some p) (hcall : calls[k]? = some call) :
    ∃ c, w.comms[call.1]? = some c ∧ c.proc = p ∧ c.live = true ∧ c.creation = parent.creation ∧
      c.members = parent.members := by
  have h := congrArg (fun l => l[k]?) ha.handles
  simp only [List.getElem?_map, hp, hcall, Option.map_some] at h
  obtain ⟨c, hc, heq⟩ := Option.map_eq_some_iff.mp (Option.some.inj h)
  simp only [Prod.mk.injEq] at heq
  exact ⟨c, hc, heq.1, heq.2.1, heq.2.2.1, heq.2.2.2⟩

theorem mem_takers {t : Proc × CommRef × Arg} : t ∈ takers w parent calls ↔
    (∃ k : Nat, parent.members[k]? = some t.1 ∧ calls[k]? = some t.2) ∧ takesPart w.heap t.2.2 = true := by
  unfold takers
  rw [List.mem_filter]
  refine and_congr ?_ Iff.rfl
  rw [List.mem_iff_getElem?]
  refine exists_congr ?_
  intro k
  rw [List.getElem?_zip_eq_some]

theorem Agreed.rank (hs : Shaped place w) (ha : Agreed w parent contextId calls) {k : Nat}
    {p : Proc} {call : CommRef × Arg} {c : Intracomm} (hp : parent.members[k]? = some p)
    (hc : w.comms[call.1]? = some c) (hproc : c.proc = p) (hmem : c.members = parent.members) :
    c.rank = k := by
  obtain ⟨ci, hci⟩ := ha.first
  have hnodup := (hs.comm ci parent hci).nodup
  have hrank := (hs.comm call.1 c hc).rank
  rw [hmem, hproc] at hrank
  obtain ⟨hlt, hget⟩ := List.getElem?_eq_some_iff.mp hrank
  obtain ⟨hlt', hget'⟩ := List.getElem?_eq_some_iff.mp hp
  exact (List.Nodup.getElem_inj_iff hnodup).mp (hget.trans hget'.symm)

theorem Agreed.arg (ha : Agreed w parent contextId calls) {t : Proc × CommRef × Arg}
    (ht : t ∈ takers w parent calls) (q : Pending) (hq : q.proc = t.1) {c : Intracomm}
    (hmem : c.members = parent.members) : ArgOk w.heap q c t.2.2 := by
  obtain ⟨⟨k, hp, hcall⟩, hpart⟩ := mem_takers.mp ht
  have harg : t.2.2 ∈ calls.map Prod.snd := List.mem_map_of_mem (List.mem_of_getElem? hcall)
  have hzip : (t.1, t.2.2) ∈ parent.members.zip (calls.map Prod.snd) := by
    refine List.mem_of_getElem? (i := k) (List.getElem?_zip_eq_some.mpr ⟨hp, ?_⟩)
    rw [List.getElem?_map, hcall]
    rfl
  have hfits := ha.fits
  obtain ⟨p, ci, arg⟩ := t
  unfold argsFit at hfits
  split at hfits
  · cases hfits
  · -- a split
    have hsplit := List.all_eq_true.mp hfits arg harg
    cases arg with
    | split color key =>
      cases color with
      | none => cases hpart
      | some color => exact ArgOk.split color key
    | createIntra j => cases hsplit
    | copy size => cases hsplit
  · rename_i size _ hargs
    rw [Bool.and_eq_true] at hfits
    have hcopy := List.all_eq_true.mp hfits.2 arg harg
    have hsize := (decide_eq_true_eq.mp hfits.1).2
    rw [beq_iff_eq] at hcopy
    subst hcopy
    refine ArgOk.copy ?_
    rw [hmem]
    exact hsize
  · have hgroup := List.all_eq_true.mp hfits _ hzip
    unfold groupFits at hgroup
    cases arg with
    | split color key => cases hgroup
    | copy size => cases hgroup
    | createIntra j =>
      change Option.any _ w.heap.groups[j]? = true at hgroup
      cases hj : w.heap.groups[j]? with
      | none => rw [hj] at hgroup; cases hgroup
      | some g =>
        rw [hj] at hgroup
        simp only [Option.any_some, Bool.and_eq_true, beq_iff_eq, decide_eq_true_eq] at hgroup
        have hrank : (w.heap.groups[j]?.bind SharedVars.Group.rank).isSome = true := hpart
        rw [hj] at hrank
        obtain ⟨rank, hrank⟩ := Option.isSome_iff_exists.mp hrank
        exact ArgOk.createIntra hj (hgroup.1.1.trans hq.symm) hgroup.1.2 hrank

theorem shaped_agree (hs : Shaped place w) (contextId : Nat) (calls : List (CommRef × Arg)) :
    Shaped place (w.agree contextId calls) := by
  rcases agree_cases w contextId calls with heq | ⟨parent, ha, _, heq⟩
  · rw [heq]
    exact hs
  rw [heq]
  refine ⟨hs.comm, hs.group, ?_, hs.world, le_trans hs.creations (Nat.le_succ _)⟩
  intro q hq
  rcases List.mem_append.mp hq with hq | hnew
  · refine ⟨(hs.pending q hq).id, (hs.pending q hq).creation, (hs.pending q hq).parent⟩
  · obtain ⟨t, ht, rfl⟩ := List.mem_map.mp hnew
    obtain ⟨⟨k, hp, hcall⟩, hpart⟩ := mem_takers.mp ht
    obtain ⟨c, hc, hproc, hlive, _, hmem⟩ := ha.handle hp hcall
    have hrank := ha.rank hs hp hc hproc hmem
    refine ⟨?_, hs.creations, c, t.2.2, hc, hlive, hproc, ?_, ?_, ?_⟩
    · change contextId % 16 = 0
      rw [ha.id, Nat.shiftLeft_eq]
      omega
    · rw [List.length_map, ha.length, hmem]
    · rw [hrank, List.getElem?_map, hcall]
      rfl
    · exact ha.arg ht _ rfl hmem

end Agreement

structure Orderly (place : Placement) (w : World) : Prop where
  registered : Registered place w
  shaped : Shaped place w

section Changes
variable {place : Placement} {w w' : World}

theorem registered_congr (hr : Registered place w) (hheap : w'.heap = w.heap)
    (htable : w'.table = w.table) (hcomms : w'.comms = w.comms) : Registered place w' := by
  refine ⟨?_, ?_, ?_, ?_, ?_, ?_, ?_⟩
  · rw [hheap]
    exact hr.balanced
  · rw [hheap, hcomms]
    exact hr.within
  · rw [hheap, htable]
    exact hr.table
  · rw [hheap, htable]
    exact hr.own
  · rw [htable, hcomms]
    exact hr.comm
  · rw [hheap, hcomms]
    exact hr.colocated
  · rw [hheap, hcomms]
    exact hr.predefined

theorem agree_same (w : World) (contextId : Nat) (calls : List (CommRef × Arg)) :
    (w.agree contextId calls).heap = w.heap ∧ (w.agree contextId calls).table = w.table ∧
      (w.agree contextId calls).comms = w.comms := by
  rcases agree_cases w contextId calls with heq | ⟨parent, _, _, heq⟩
  · rw [heq]
    exact ⟨rfl, rfl, rfl⟩
  · rw [heq]
    exact ⟨rfl, rfl, rfl⟩

theorem orderly_without (ho : Orderly place w) (q : Pending) : Orderly place (without w q) where
  registered := registered_congr ho.registered rfl rfl rfl
  shaped := shaped_evolve ho.shaped (evolves_of_same rfl rfl) rfl rfl
    (fun _ h => List.mem_of_mem_erase h) le_rfl

theorem attached_orderly {q : Pending} {parent c : Intracomm} {arg : Arg}
    {target : Option GroupRef} {nested₀ : Option Nested} {fresh : List Proc → Prop}
    (ho : Orderly place w) (hq : q ∈ w.pending) (hparent : w.comms[q.parent]? = some parent)
    (harg : q.args[parent.rank]? = some arg)
    (hmembers : c.members = newMembers w.heap parent q.args arg)
    (hcreates : Creates w q parent c arg target nested₀ fresh)
    (hatt : Attached place q parent c target nested₀ fresh (without w q) w') :
    Orderly place w' := by
  have hps := ho.shaped.pending q hq
  obtain ⟨parent', arg', hparent', _, hproc, hlen, harg', hok⟩ := hps.parent
  rw [hparent] at hparent'
  cases hparent'
  rw [harg] at harg'
  cases harg'
  have hcre : 2 ≤ c.creation := by
    rw [hatt.creation]
    exact hps.creation
  have hid : c.contextId % 16 = 0 := by
    rw [hatt.contextId]
    exact hps.id
  have hshape := creates_shape ho.shaped (ho.shaped.comm _ _ hparent) hproc hlen harg hok hcreates
    hmembers hatt.proc hid hatt.localGroup hcre
  obtain ⟨w₁, nested, n, colo, he, hclosing, hfin⟩ := hatt.built
  have howo := orderly_without ho q
  have hc : (w₁.addComm c).comms[(without w q).comms.length]? = some c := by
    rw [← he.frame.comms]
    exact getElem?_concat.mpr (Or.inr ⟨rfl, rfl⟩)
  constructor
  · rw [← hatt.proc] at he hfin
    rw [← hatt.contextId] at he
    exact (howo.registered.joins he hatt.live hcre hatt.colocated hid).finished hc hid hfin
  · refine shaped_finished (shaped_addComm (shaped_entered howo.shaped he) ?_) hc hfin
    refine commShape_evolve hshape (SameComm.refl c) ?_
    intro j g hj
    obtain ⟨g', hj', hsame, _⟩ := (entered_groups he).2 j g hj
    exact ⟨g', hj', hsame⟩

theorem shaped_addGroup {h' : Heap} {g : Group} (hs : Shaped place w)
    (hgroups : h'.groups = w.heap.groups ++ [g]) (hg : GroupShape g) :
    Shaped place { w with heap := h' } := by
  have hold : ∀ (j : GroupRef) g', w.heap.groups[j]? = some g' → h'.groups[j]? = some g' := by
    intro j g' hj
    rw [hgroups]
    exact getElem?_concat_of_some hj
  refine ⟨?_, ?_, ?_, hs.world, hs.creations⟩
  · intro ci c hc
    refine commShape_evolve (hs.comm ci c hc) (SameComm.refl c) ?_
    intro j g' hj
    exact ⟨g', hold j g' hj, SameGroup.refl g'⟩
  · intro j g' hj
    change h'.groups[j]? = some g' at hj
    rw [hgroups] at hj
    rcases getElem?_concat.mp hj with hj | ⟨_, rfl⟩
    · exact hs.group j g' hj
    · exact hg
  · intro q hq
    refine pendingShape_evolve (hs.pending q hq) ⟨?_, ?_⟩ hq
    · intro ci c hc
      exact ⟨c, hc, SameComm.refl c, fun h _ => h⟩
    · intro j g' hj
      exact ⟨g', hold j g' hj, SameGroup.refl g', fun h _ => h⟩

theorem shaped_localGroup {ci : CommRef} {c : Intracomm} {j : GroupRef} {g : Group}
    (hs : Shaped place w) (hc : w.comms[ci]? = some c) (hj : w.heap.groups[j]? = some g)
    (hmem : g.members = c.members) (hself : c.creation = 1 → g.ofSelf = true) :
    Shaped place { w with comms := w.comms.set ci { c with localGroup := some j } } := by
  have hshape := hs.comm ci c hc
  refine ⟨?_, hs.group, ?_, ?_, hs.creations⟩
  · intro k c' hk
    rcases (getElem?_update hc).mp hk with ⟨rfl, rfl⟩ | ⟨_, hk⟩
    · refine ⟨hshape.rank, hshape.size, hshape.nodup, hshape.id, ?_⟩
      intro j' hj'
      cases hj'
      exact ⟨g, hj, hmem, hself⟩
    · exact hs.comm k c' hk
  · intro q hq
    obtain ⟨parent, arg, hparent, hrest⟩ := (hs.pending q hq).parent
    refine ⟨(hs.pending q hq).id, (hs.pending q hq).creation, ?_⟩
    by_cases hk : q.parent = ci
    · rw [hk, hc] at hparent
      cases hparent
      refine ⟨_, arg, (getElem?_update hc).mpr (Or.inl ⟨hk, rfl⟩), ?_⟩
      obtain ⟨hlive, hproc, hlen, harg, hok⟩ := hrest
      refine ⟨hlive, hproc, hlen, harg, ?_⟩
      cases hok with
      | split color key => exact ArgOk.split color key
      | createIntra hj' hgproc hpos hrank => exact ArgOk.createIntra hj' hgproc hpos hrank
      | copy hsize => exact ArgOk.copy hsize
    · exact ⟨parent, arg, (getElem?_update hc).mpr (Or.inr ⟨hk, hparent⟩), hrest⟩
  · intro p hp
    obtain ⟨c', hc', hproc, hzero⟩ := hs.world p hp
    by_cases hk : p = ci
    · rw [hk, hc] at hc'
      cases hc'
      exact ⟨_, (getElem?_update hc).mpr (Or.inl ⟨hk, rfl⟩), hproc, hzero⟩
    · exact ⟨c', (getElem?_update hc).mpr (Or.inr ⟨hk, hc'⟩), hproc, hzero⟩

theorem evolves_setGroup {j : GroupRef} {g g' : Group} {h' : Heap} (hj : w.heap.groups[j]? = some g)
    (hgroups : h'.groups = w.heap.groups.set j g') (hsame : SameGroup g g')
    (hkeep : 0 < g.handles → (∃ q ∈ w.pending, q.proc = g.proc) → 0 < g'.handles) :
    Evolves w { w with heap := h' } where
  comms ci c hc := ⟨c, hc, SameComm.refl c, fun h _ => h⟩
  groups k g₀ hk := by
    change ∃ g'', h'.groups[k]? = some g'' ∧ _
    rw [hgroups]
    by_cases hkj : k = j
    · subst hkj
      rw [hj] at hk
      cases hk
      exact ⟨g', (getElem?_update hj).mpr (Or.inl ⟨rfl, rfl⟩), hsame, hkeep⟩
    · exact ⟨g₀, (getElem?_update hj).mpr (Or.inr ⟨hkj, hk⟩), SameGroup.refl g₀, fun h _ => h⟩

theorem not_busy_pending {p : Proc} (h : ¬ w.busy p) : ¬ ∃ q ∈ w.pending, q.proc = p :=
  fun hq => h (Or.inr hq)

theorem change_orderly (ho : Orderly place w) {o : Op} (hchange : Change place w o w') :
    Orderly place w' := by
  have hr := ho.registered
  have hs := ho.shaped
  cases hchange with
  | idle => exact ho
  | @started p junk c nested n colo w₁ hp hnot hc hclosing hfin =>
    have hid := (hs.comm p c hc).id
    constructor
    · exact registered_congr (hr.finished hc hid hfin) rfl rfl rfl
    · exact shaped_evolve (shaped_finished hs hc hfin) (evolves_of_same rfl rfl) rfl rfl
        (fun _ h => h) le_rfl
  | agreed contextId calls =>
    obtain ⟨hheap, htable, hcomms⟩ := agree_same w contextId calls
    exact ⟨registered_congr hr hheap htable hcomms, shaped_agree hs contextId calls⟩
  | returned hq hparent harg hle hmask =>
    constructor
    · exact registered_congr hr rfl rfl rfl
    · exact shaped_evolve hs (evolves_of_same rfl rfl) rfl rfl
        (fun _ h => List.mem_of_mem_erase h) le_rfl
  | attached hfind hparent harg hmembers hcreates hatt =>
    exact attached_orderly ho (List.mem_of_find?_eq_some hfind) hparent harg hmembers hcreates hatt
  | @freed ci c co co' h' freed table mask huse hcre hi hco hb hkept hgroups hcos hpin hfreed hone
      hrest htable hmask =>
    obtain ⟨hc, hlive, hidle⟩ := usable_eq_some.mp huse
    constructor
    · exact hr.releases hc ⟨hlive, hcre⟩ hi hco hb hcos hpin hfreed hone hrest htable _
    · refine shaped_evolve hs ⟨?_, ?_⟩ (List.length_set ..) ?_ (fun _ h => h) le_rfl
      · intro k c₀ hk
        by_cases hkc : k = ci
        · subst hkc
          rw [hc] at hk
          cases hk
          exact ⟨_, (getElem?_update hc).mpr (Or.inl ⟨rfl, rfl⟩), rfl,
            fun _ h => absurd h (not_busy_pending hidle)⟩
        · exact ⟨c₀, (getElem?_update hc).mpr (Or.inr ⟨hkc, hk⟩), SameComm.refl c₀, fun h _ => h⟩
      · intro j g hj
        refine ⟨g, ?_, SameGroup.refl g, fun h _ => h⟩
        change h'.groups[j]? = some g
        rw [hgroups]
        exact hj
      · exact congrArg List.length hgroups
  | @newGroup ci c co g h' huse hi hco hb hmaps hcos hgroups hmap hproc hrank hsize hmembers
      hself =>
    obtain ⟨hc, _, _⟩ := usable_eq_some.mp huse
    have hshape := hs.comm ci c hc
    have hg : GroupShape g := by
      refine ⟨?_, ?_, ?_⟩
      · intro r hr'
        rw [hrank] at hr'
        cases hr'
        rw [hmembers, hproc]
        exact hshape.rank
      · rw [hsize, hmembers]
        exact hshape.size
      · rw [hmembers]
        exact hshape.nodup
    constructor
    · exact (hr.regroup hb hcos).localGroup hc _
    · refine shaped_localGroup (w := { w with heap := h' }) (shaped_addGroup hs hgroups hg) hc
        (g := g) ?_ hmembers ?_
      · change h'.groups[w.heap.groups.length]? = some g
        rw [hgroups]
        exact getElem?_concat.mpr (Or.inr ⟨rfl, rfl⟩)
      · intro hone
        rw [hself]
        exact decide_eq_true hone
  | @oldGroup ci c co j g h' huse hj hgroup hi hco hb hmaps hcos hgroups hmap =>
    constructor
    · exact hr.regroup hb hcos
    · refine shaped_evolve hs (evolves_setGroup hj hgroups rfl ?_) rfl ?_ (fun _ h => h) le_rfl
      · exact fun _ _ => Nat.succ_pos _
      · exact (congrArg List.length hgroups).trans (List.length_set ..)
  | @included j g ranks old new huse hnodup hlt hold hnew =>
    obtain ⟨hj, _, _⟩ := usableGroup_eq_some.mp huse
    constructor
    · exact hr.regroup (looseGroup_balanced hr.balanced new (fun _ => rfl) (fun _ => rfl)
        (fun _ => rfl)) rfl
    · exact shaped_addGroup hs rfl (included_shape (hs.group j g hj) hnodup hlt _)
  | @groupFreed j g m h' huse hb hkept hcos hgroups hmap =>
    obtain ⟨hj, _, hidle⟩ := usableGroup_eq_some.mp huse
    constructor
    · exact hr.regroup hb hcos
    · refine shaped_evolve hs (evolves_setGroup hj hgroups rfl ?_) rfl ?_ (fun _ h => h) le_rfl
      · exact fun _ h => absurd h (not_busy_pending hidle)
      · exact (congrArg List.length hgroups).trans (List.length_set ..)

theorem init_shaped (place : Placement) : Shaped place (World.init place) where
  comm ci c hc := by
    obtain ⟨p, hp, rfl | rfl⟩ := init_comm place hc
    · refine ⟨?_, ?_, List.nodup_range, rfl, fun _ h => by cases h⟩
      · simp [worldComm, hp]
      · simp [worldComm]
    · exact ⟨rfl, rfl, List.nodup_singleton _, Nat.mod_self 16, fun _ h => by cases h⟩
  group j g hj := by simp [World.init] at hj
  pending q hq := by cases hq
  world p hp := by
    refine ⟨worldComm place p, ?_, rfl, rfl⟩
    change ((List.range place.totprocs).map (worldComm place) ++ _)[p]? = _
    rw [List.getElem?_append_left (by simpa using hp)]
    exact getElem?_table.mpr ⟨hp, rfl⟩
  creations := le_rfl

theorem init_orderly (place : Placement) : Orderly place (World.init place) :=
  ⟨init_registered place, init_shaped place⟩

theorem step_orderly (ho : Orderly place w) (o : Op) (hcond : KeepsCounts place w o) :
    Yields NoUse (step place w o) (fun w' => Change place w o w' ∧ Orderly place w') := by
  refine (step_change ho.registered ho.shaped o hcond).mono ?_
  intro w' hchange
  exact ⟨hchange, change_orderly ho hchange⟩

end Changes

end FgMpi.Comm.Shapes
