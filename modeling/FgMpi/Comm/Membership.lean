import FgMpi.Comm.Lifetimes

namespace FgMpi.Comm.Membership
open Machine.Outcome Machine.Runs Machine.Slots ContextId.Mask
open Comm.NestedMaps Comm.SharedVars Comm.Communicator Comm.Ledger
open Comm.Effects Comm.Creation Comm.Registry Comm.Changes
open Comm.Shapes Comm.Lifetimes

structure Reserved (w : World) : Prop where
  mask : ∀ p id, prefixField id < 3 → hasBit (w.masks p) id = false
  pending : ∀ q ∈ w.pending, Allocatable q.contextId ∧ 3 ≤ prefixField q.contextId
  comm : ∀ (ci : CommRef) c, w.comms[ci]? = some c → 2 ≤ c.creation →
    Allocatable c.contextId ∧ 3 ≤ prefixField c.contextId
  table : ∀ pid key i co, w.table pid key = some i → w.heap.cos[i]? = some co →
    co.pinned = true → key.contextId % 16 = 0 → prefixField key.contextId < 3

theorem allocatable_of_contextId {id : Nat} (h : IsContextId id) : Allocatable id :=
  ⟨prefixField id, Nat.mod_lt _ (by decide), h⟩

theorem hasBit_free {m m' : ContextMask} {id : Nat} (hid : Allocatable id)
    (h : freeContextid m id = some m') (x : Nat) :
    hasBit m' x = (hasBit m x || decide (prefixField x = prefixField id)) := by
  cases hused : hasBit m id with
  | false =>
    obtain ⟨m'', hm'', hbits⟩ := freeContextid_spec hid hused
    rw [h] at hm''
    cases hm''
    exact hbits x
  | true =>
    -- the bit of an id that is free already makes the function abort
    have hsuffix := hid.suffix
    simp [freeContextid, hsuffix, hused] at h

section Reserved
variable {place : Placement} {w w' : World}

section
variable (hr : Reserved w)
include hr

theorem reserved_free {p : Proc} {id : Nat} {mask : ContextMask}
    (hid : Allocatable id ∧ 3 ≤ prefixField id) (h : freeContextid (w.masks p) id = some mask) :
    ∀ p' id', prefixField id' < 3 → hasBit (Function.update w.masks p mask p') id' = false := by
  intro p' id' hlt
  by_cases hp : p' = p
  · subst hp
    rw [Function.update_self, hasBit_free hid.1 h, hr.mask p' id' hlt]
    simp
    omega
  · rw [Function.update_of_ne hp]
    exact hr.mask p' id' hlt

theorem reserved_renested {i : CoRef} {n : Option Nested} (hn : Renested w w' i n) : Reserved w' := by
  obtain ⟨co, hi, _, hcos⟩ := hn.cos
  refine ⟨?_, ?_, ?_, ?_⟩
  · rw [hn.frame.masks]
    exact hr.mask
  · rw [hn.frame.pending]
    exact hr.pending
  · rw [hn.frame.comms]
    exact hr.comm
  · intro pid key k co' ht hk hpin
    rw [hn.table] at ht
    rw [hcos] at hk
    rcases (getElem?_update hi).mp hk with ⟨rfl, rfl⟩ | ⟨_, hk⟩
    · exact hr.table pid key _ co ht hi hpin
    · exact hr.table pid key k co' ht hk hpin

theorem reserved_entered {pid : Nat} {key : Key} {target : Option GroupRef} {pinned : Bool}
    {nested₀ : Option Nested} {fresh : List Proc → Prop} {i : CoRef}
    (hs : Sane w) (he : Entered pid key target pinned nested₀ fresh w w' i)
    (hkey : pinned = true → key.contextId % 16 ≠ 0) : Reserved w' := by
  refine ⟨?_, ?_, ?_, ?_⟩
  · rw [he.frame.masks]
    exact hr.mask
  · rw [he.frame.pending]
    exact hr.pending
  · rw [he.frame.comms]
    exact hr.comm
  · intro pid' key' k co ht hk hpin h16
    rw [he.table, table_update] at ht
    split at ht
    · rename_i hpk
      cases ht
      obtain ⟨rfl, rfl⟩ := hpk
      rcases he.found with ⟨co₀, htable, hi, _, hi'⟩ | ⟨_, _, m, x, a, hi', _⟩
      · rw [hi'] at hk
        cases hk
        exact hr.table _ _ _ co₀ htable hi hpin h16
      · rw [hi'] at hk
        cases hk
        exact absurd h16 (hkey hpin)
    · obtain ⟨co₀, hk₀, _⟩ := hs.table pid' key' k ht
      rw [he.old hk₀] at hk
      cases hk
      exact hr.table pid' key' k co₀ ht hk₀ hpin h16

theorem reserved_finished {pid : Nat} {ci : CommRef} {c : Intracomm} {nested : Nested}
    {n : Option Nested} {fresh : List Proc → Prop} (hs : Sane w)
    (hc : w.comms[ci]? = some c) (hid : c.contextId % 16 = 0)
    (hfin : Finished pid ci c nested n fresh w w') : Reserved w' := by
  obtain ⟨w₁, hn, ⟨_, rfl⟩ | ⟨_, w₂, i, rank, he, rfl⟩⟩ := hfin
  · exact reserved_renested hr hn
  · have hr₂ := reserved_entered (reserved_renested hr hn) (hn.sane hs) he (by
      intro _
      change (c.contextId + colocatedOffset) % 16 ≠ 0
      unfold colocatedOffset
      omega)
    refine ⟨hr₂.mask, hr₂.pending, ?_, hr₂.table⟩
    have hc₂ : w₂.comms[ci]? = some c := by
      rw [he.frame.comms, hn.frame.comms]
      exact hc
    intro ci' c' hc' hcre
    rcases (getElem?_update hc₂).mp hc' with ⟨rfl, rfl⟩ | ⟨_, hc'⟩
    · exact hr₂.comm _ c hc₂ hcre
    · exact hr₂.comm ci' c' hc' hcre

end

theorem change_reserved (ho : Orderly place w) (hr : Reserved w) {o : Op} (hchange : Change place w o w') :
    Reserved w' := by
  have hs := ho.registered.sane
  cases hchange with
  | idle => exact hr
  | @started p junk c nested n colo w₁ hp hnot hc hclosing hfin =>
    have hr₁ := reserved_finished hr hs hc (ho.shaped.comm p c hc).id hfin
    exact ⟨hr₁.mask, hr₁.pending, hr₁.comm, hr₁.table⟩
  | agreed contextId calls =>
    rcases agree_cases w contextId calls with heq | ⟨parent, ha, hbits, heq⟩
    · rw [heq]
      exact hr
    rw [heq]
    refine ⟨?_, ?_, hr.comm, hr.table⟩
    · intro p id hlt
      change hasBit (if _ then _ else _) id = false
      have hold := hr.mask p id hlt
      split
      · cases halloc : allocateContextBit (w.masks p) contextId with
        | none => exact hold
        | some m =>
          change hasBit m id = false
          rw [hasBit_allocate halloc, hold]
          rfl
      · exact hold
    · intro q hq
      rcases List.mem_append.mp hq with hq | hnew
      · exact hr.pending q hq
      · obtain ⟨t, ht, rfl⟩ := List.mem_map.mp hnew
        refine ⟨allocatable_of_contextId ha.id, ?_⟩
        by_contra hlt
        have hbit := hbits t ht
        rw [hr.mask t.1 contextId (Nat.not_le.mp hlt)] at hbit
        cases hbit
  | @returned p junk q parent size mask hfind hparent harg hle hmask =>
    have hq := List.mem_of_find?_eq_some hfind
    exact ⟨reserved_free hr (hr.pending q hq) hmask,
      fun q' hq' => hr.pending q' (List.mem_of_mem_erase hq'), hr.comm, hr.table⟩
  | @attached p junk q parent c arg target nested₀ fresh w₂ hfind hparent harg hmembers hcreates
      hatt =>
    have hq := List.mem_of_find?_eq_some hfind
    obtain ⟨w₁, nested, n, colo, he, hclosing, hfin⟩ := hatt.built
    have hps := ho.shaped.pending q hq
    have hid : c.contextId % 16 = 0 := by
      rw [hatt.contextId]
      exact hps.id
    have hr₀ : Reserved (without w q) :=
      ⟨hr.mask, fun q' hq' => hr.pending q' (List.mem_of_mem_erase hq'), hr.comm, hr.table⟩
    have hs₀ : Sane (without w q) := ⟨hs.balanced, hs.table⟩
    have hr₁ := reserved_entered hr₀ hs₀ he (fun h => by cases h)
    have hr₂ : Reserved (w₁.addComm c) := by
      refine ⟨hr₁.mask, hr₁.pending, ?_, hr₁.table⟩
      intro ci c' hc' hcre
      rcases getElem?_concat.mp hc' with hc' | ⟨_, rfl⟩
      · exact hr₁.comm ci c' hc' hcre
      · rw [hatt.contextId]
        exact hr.pending q hq
    have hs₂ : Sane (w₁.addComm c) := ⟨(he.sane hs₀).balanced, (he.sane hs₀).table⟩
    refine reserved_finished hr₂ hs₂ ?_ hid hfin
    rw [← he.frame.comms]
    exact getElem?_concat.mpr (Or.inr ⟨rfl, rfl⟩)
  | @freed ci c co co' h' freed table mask huse hcre hi hco hb hkept hgroups hcos hpin hfreed hone
      hrest htable hmask =>
    obtain ⟨hc, hlive, _⟩ := usable_eq_some.mp huse
    refine ⟨reserved_free hr (hr.comm ci c hc hcre) hmask, hr.pending, ?_, ?_⟩
    · intro ci' c' hc' hcre'
      rcases (getElem?_update hc).mp hc' with ⟨rfl, rfl⟩ | ⟨_, hc'⟩
      · exact hr.comm _ c hc hcre'
      · exact hr.comm ci' c' hc' hcre'
    · intro pid key k co₁ ht hk hp
      have hold : w.table pid key = some k := by
        change table pid key = some k at ht
        rw [htable] at ht
        split at ht
        · rw [table_update] at ht
          split at ht
          · cases ht
          · exact ht
        · exact ht
      change h'.cos[k]? = some co₁ at hk
      rw [hcos] at hk
      rcases (getElem?_update hi).mp hk with ⟨rfl, rfl⟩ | ⟨_, hk⟩
      · exact hr.table pid key _ co hold hi (hpin ▸ hp)
      · exact hr.table pid key k co₁ hold hk hp
  | @newGroup ci c co g h' huse hi hco hb hmaps hcos hgroups hmap hproc hrank hsize hmembers
      hself =>
    obtain ⟨hc, _, _⟩ := usable_eq_some.mp huse
    refine ⟨hr.mask, hr.pending, ?_, ?_⟩
    · intro ci' c' hc' hcre'
      rcases (getElem?_update hc).mp hc' with ⟨rfl, rfl⟩ | ⟨_, hc'⟩
      · exact hr.comm _ c hc hcre'
      · exact hr.comm ci' c' hc' hcre'
    · change ∀ pid key i co, w.table pid key = some i → h'.cos[i]? = some co → _
      rw [hcos]
      exact hr.table
  | @oldGroup ci c co j g h' huse hj hgroup hi hco hb hmaps hcos hgroups hmap =>
    refine ⟨hr.mask, hr.pending, hr.comm, ?_⟩
    change ∀ pid key i co, w.table pid key = some i → h'.cos[i]? = some co → _
    rw [hcos]
    exact hr.table
  | included huse hnodup hlt hold hnew => exact ⟨hr.mask, hr.pending, hr.comm, hr.table⟩
  | @groupFreed j g m h' huse hb hkept hcos hgroups hmap =>
    refine ⟨hr.mask, hr.pending, hr.comm, ?_⟩
    change ∀ pid key i co, w.table pid key = some i → h'.cos[i]? = some co → _
    rw [hcos]
    exact hr.table

theorem init_reserved (place : Placement) : Reserved (World.init place) where
  mask p id hlt := by
    have hcases : prefixField id = 0 ∨ prefixField id = 1 ∨ prefixField id = 2 := by omega
    change (contextIdInit (prefixField id / 32)).getLsbD (prefixField id % 32) = false
    rcases hcases with h | h | h
    · rw [h]
      decide
    · rw [h]
      decide
    · rw [h]
      decide
  pending q hq := by cases hq
  comm ci c hc hcre := by
    obtain ⟨p, _, rfl | rfl⟩ := init_comm place hc
    · exact absurd hcre (by simp [worldComm])
    · exact absurd hcre (by simp [selfComm])
  table pid key i co ht hi _ _ := by
    simp only [World.init] at ht
    split at ht
    · rename_i h
      have hid := h.2.2
      simp only [List.mem_cons, List.not_mem_nil, or_false] at hid
      rcases hid with hid | hid | hid
      · rw [hid]
        decide
      · rw [hid]
        decide
      · rw [hid]
        decide
    · cases ht

end Reserved

def Ranks (h : Heap) (m : Option MapRef) (members : List Proc) : Prop :=
  ∃ k a, m = some k ∧ h.maps[k]? = some a ∧ a.ranks = members

/-- The map of a communicator other than `MPI_COMM_SELF` lists its members, the first of them in
the order of the processes is the leader, and so for groups that do not come from there. -/
structure Members (w : World) : Prop where
  comm : ∀ (ci : CommRef) c, w.comms[ci]? = some c → c.live = true → c.creation ≠ 1 →
    (∃ co, w.heap.cos[c.co]? = some co ∧ Ranks w.heap co.rtwMap c.members) ∧
      c.members.min? = some c.leader
  group : ∀ (j : GroupRef) g, w.heap.groups[j]? = some g → 0 < g.handles → g.ofSelf = false →
    Ranks w.heap g.rtwGrpMap g.members

theorem Ranks.kept {h h' : Heap} {m : Option MapRef} {members : List Proc}
    (hr : Ranks h m members) (hk : RanksKept h h') : Ranks h' m members := by
  obtain ⟨k, a, hm, ha, hranks⟩ := hr
  obtain ⟨a', ha', heq⟩ := hk k a ha
  exact ⟨k, a', hm, ha', heq.trans hranks⟩

theorem Ranks.find {h : Heap} {m : Option MapRef} {members all : List Proc}
    (hr : Ranks h m members) (hfind : h.findMap m = .ok all) : all = members := by
  obtain ⟨k, a, rfl, ha, hranks⟩ := hr
  simp only [Heap.findMap, ha] at hfind
  split at hfind
  · cases hfind
    exact hranks
  · cases hfind

def NotOfSelf (h : Heap) (parent : Intracomm) : Arg → Prop
  | .createIntra j => ∀ g ∈ h.groups[j]?, g.ofSelf = false
  | _ => parent.creation ≠ 1

instance (h : Heap) (parent : Intracomm) : (arg : Arg) → Decidable (NotOfSelf h parent arg)
  | .createIntra _ => by unfold NotOfSelf; infer_instance
  | .split _ _ => by unfold NotOfSelf; infer_instance
  | .copy _ => by unfold NotOfSelf; infer_instance

theorem Picks.min?_eq {all ranks ranks' : List Proc} {keys keys' : List Nat} {l : Proc}
    (h : Picks all keys ranks) (h' : Picks all keys' ranks') (hkeys : ∀ k, k ∈ keys ↔ k ∈ keys')
    (hmin : ranks.min? = some l) : ranks'.min? = some l := by
  have hback : ∀ {a b : List Proc} {ka kb : List Nat}, Picks all ka a → Picks all kb b →
      (∀ k, k ∈ ka → k ∈ kb) → ∀ r ∈ a, r ∈ b := by
    intro a b ka kb ha hb hsub r hr
    obtain ⟨k, hk, hget⟩ := ha.mem hr
    obtain ⟨i, hi⟩ := List.mem_iff_getElem?.mp (hsub k hk)
    refine List.mem_of_getElem? (i := i) ?_
    rw [hb.getElem? hi, hget]
  rw [List.min?_eq_some_iff] at hmin ⊢
  refine ⟨hback h h' (fun k => (hkeys k).mp) l hmin.1, ?_⟩
  intro r hr
  exact hmin.2 r (hback h' h (fun k => (hkeys k).mpr) r hr)

section Creates
variable {place : Placement} {w : World} {q : Pending} {parent c : Intracomm} {arg : Arg}
  {target : Option GroupRef} {nested₀ : Option Nested} {fresh : List Proc → Prop}

theorem creates_members (hm : Members w) (hs : Shaped place w)
    (hparent : w.comms[q.parent]? = some parent) (hlive : parent.live = true)
    (hlen : q.args.length = parent.members.length) (hok : ArgOk w.heap q parent arg)
    (hself : NotOfSelf w.heap parent arg) (hcreates : Creates w q parent c arg target nested₀ fresh)
    (hmembers : c.members = newMembers w.heap parent q.args arg) :
    (∀ rs, fresh rs → rs = c.members) ∧ c.members.min? = some c.leader := by
  cases hcreates with
  | @split color key co all ranks hi hfind hranks hleader hrank hsize =>
    obtain ⟨⟨co', hi', hranks'⟩, _⟩ := hm.comm q.parent parent hparent hlive hself
    rw [hi] at hi'
    cases hi'
    have hall := hranks'.find hfind
    subst hall
    have hpicks := picks_keytable (w := w) hlen color key
    rw [hmembers]
    refine ⟨fun rs hrs => hrs.unique hpicks, ?_⟩
    refine Picks.min?_eq hranks hpicks ?_ hleader
    intro k
    unfold sortInttable
    exact (List.perm_insertionSort _ _).mem_iff.symm
  | @createIntra j g all ranks hj hfind hranks hleader hrank hsize =>
    have hnew : c.members = g.members := by
      rw [hmembers]
      simp [newMembers, hj]
    have hpos : 0 < g.handles := by
      cases hok with
      | createIntra hj' _ hpos _ =>
        rw [hj] at hj'
        cases hj'
        exact hpos
    have hall := (hm.group j g hj hpos (hself g hj)).find hfind
    subst hall
    rw [hnew]
    refine ⟨fun rs hrs => hrs, ?_⟩
    have hpicks : Picks g.members (List.range g.size) (g.members.take g.size) :=
      picks_range (le_of_eq (hs.group j g hj).size)
    rw [(hs.group j g hj).size, List.take_length] at hpicks
    rw [(hs.group j g hj).size] at hranks
    rw [← hranks.unique hpicks]
    exact hleader
  | @copy size co all hi hfind hleader hlt hrank hsize =>
    obtain ⟨⟨co', hi', hranks'⟩, hmin⟩ := hm.comm q.parent parent hparent hlive hself
    rw [hi] at hi'
    cases hi'
    have hall := hranks'.find hfind
    subst hall
    have hle : size ≤ parent.members.length := by
      cases hok with
      | copy h => exact h
    have hpsize := (hs.comm q.parent parent hparent).size
    have hnew : c.members = parent.members.take size := hmembers
    rw [hnew]
    rcases hleader with ⟨heq, hlead⟩ | ⟨hne, ranks, hranks, hlead⟩
    · have htake : parent.members.take size = parent.members := by
        rw [List.take_of_length_le]
        omega
      rw [htake]
      refine ⟨?_, ?_⟩
      · intro rs hrs
        rw [if_pos heq] at hrs
        exact hrs
      · rw [hlead]
        exact hmin
    · refine ⟨?_, ?_⟩
      · intro rs hrs
        rw [if_neg hne] at hrs
        exact hrs.unique (picks_range hle)
      · rw [← hranks.unique (picks_range hle)]
        exact hlead

end Creates

/-- The counts are kept; nothing is made from `MPI_COMM_SELF`; and live communicators of the OS
process under the key of a new one have its members. -/
def KeepsMembers (place : Placement) (w : World) : Op → Prop
  | .attach p junk =>
    KeepsCounts place w (.attach p junk) ∧
    ∀ q ∈ w.pending.find? (fun q => q.proc == p), ∀ parent ∈ w.comms[q.parent]?,
    ∀ arg ∈ q.args[parent.rank]?, NotOfSelf w.heap parent arg ∧
    ∀ c ∈ w.comms, c.live = true → 2 ≤ c.creation → place.pid c.proc = place.pid p →
      c.contextId = q.contextId → (newMembers w.heap parent q.args arg).min? = some c.leader →
      c.members = newMembers w.heap parent q.args arg
  | o => KeepsCounts place w o

instance (place : Placement) (w : World) : (o : Op) → Decidable (KeepsMembers place w o)
  | .attach _ _ => by unfold KeepsMembers; infer_instance
  | .commGroup ci => inferInstanceAs (Decidable (KeepsCounts place w (.commGroup ci)))
  | .init _ _ => isTrue trivial
  | .agree _ _ => isTrue trivial
  | .commFree _ => isTrue trivial
  | .groupIncl _ _ => isTrue trivial
  | .groupFree _ => isTrue trivial

theorem KeepsMembers.counts {place : Placement} {w : World} {o : Op}
    (h : KeepsMembers place w o) : KeepsCounts place w o := by
  cases o with
  | attach p junk => exact h.1
  | commGroup ci => exact h
  | init p junk => trivial
  | agree contextId calls => trivial
  | commFree ci => trivial
  | groupIncl j ranks => trivial
  | groupFree j => trivial

section Steps
variable {place : Placement} {w w' : World}

variable {pid : Nat} {target : Option GroupRef} {nested₀ : Option Nested} {fresh : List Proc → Prop}

theorem members_entered {key : Key} {pinned : Bool} {i : CoRef} (hm : Members w)
    (he : Entered pid key target pinned nested₀ fresh w w' i)
    (hnew : ∀ j g co, target = some j → w.heap.groups[j]? = some g → g.ofSelf = false →
      w'.heap.cos[i]? = some co → Ranks w'.heap co.rtwMap g.members) : Members w' where
  comm ci c hc hlive hself := by
    rw [he.frame.comms] at hc
    obtain ⟨⟨co, hi, hranks⟩, hmin⟩ := hm.comm ci c hc hlive hself
    exact ⟨⟨_, he.old hi, hranks.kept he.kept⟩, hmin⟩
  group j g hj hpos hself := by
    have hmoved : Moved target w.heap w'.heap i := by
      rcases he.heap with ⟨_, hj⟩ | ⟨_, hm⟩
      · exact hj.moved
      · exact hm.moved
    cases target with
    | none =>
      rw [show w'.heap.groups = w.heap.groups from hmoved] at hj
      exact (hm.group j g hj hpos hself).kept he.kept
    | some j₀ =>
      obtain ⟨g₀, co, hj₀, hi, hgroups⟩ := hmoved
      rw [hgroups] at hj
      rcases (getElem?_update hj₀).mp hj with ⟨rfl, rfl⟩ | ⟨_, hj⟩
      · exact hnew j g₀ co rfl hj₀ hself hi
      · exact (hm.group j g hj hpos hself).kept he.kept

theorem members_renested {i : CoRef} {n : Option Nested} (hm : Members w)
    (hn : Renested w w' i n) : Members w' where
  comm ci c hc hlive hself := by
    obtain ⟨co, hi, _, hcos⟩ := hn.cos
    rw [hn.frame.comms] at hc
    obtain ⟨⟨co', hi', hranks⟩, hmin⟩ := hm.comm ci c hc hlive hself
    refine ⟨?_, hmin⟩
    have hkept := hranks.kept (RanksKept.refl hn.maps)
    rw [hcos]
    by_cases hci : c.co = i
    · rw [hci, hi] at hi'
      cases hi'
      exact ⟨_, (getElem?_update hi).mpr (Or.inl ⟨hci, rfl⟩), hkept⟩
    · exact ⟨co', (getElem?_update hi).mpr (Or.inr ⟨hci, hi'⟩), hkept⟩
  group j g hj hpos hself := by
    rw [hn.groups] at hj
    exact (hm.group j g hj hpos hself).kept (RanksKept.refl hn.maps)

variable {c : Intracomm}

theorem members_setComm {ci : CommRef} {c' : Intracomm} (hm : Members w)
    (hc : w.comms[ci]? = some c) (hco : c'.co = c.co) (hmem : c'.members = c.members)
    (hleader : c'.leader = c.leader) (hcre : c'.creation = c.creation) (hlive : c'.live = c.live) :
    Members { w with comms := w.comms.set ci c' } where
  comm k c₀ hk hlive₀ hself := by
    rcases (getElem?_update hc).mp hk with ⟨rfl, rfl⟩ | ⟨_, hk⟩
    · rw [hco, hmem, hleader]
      exact hm.comm _ c hc (hlive ▸ hlive₀) (hcre ▸ hself)
    · exact hm.comm k c₀ hk hlive₀ hself
  group := hm.group

theorem members_finished {ci : CommRef} {nested : Nested} {n : Option Nested} (hm : Members w)
    (hc : w.comms[ci]? = some c) (hfin : Finished pid ci c nested n fresh w w') :
    Members w' := by
  obtain ⟨w₁, hn, ⟨_, rfl⟩ | ⟨_, w₂, i, rank, he, rfl⟩⟩ := hfin
  · exact members_renested hm hn
  · have hm₂ := members_entered (members_renested hm hn) he (fun j g co h => by cases h)
    have hc₂ : w₂.comms[ci]? = some c := by
      rw [he.frame.comms, hn.frame.comms]
      exact hc
    exact members_setComm hm₂ hc₂ rfl rfl rfl rfl rfl

theorem user_of_entry (hr : Registered place w) (hres : Reserved w) {key : Key}
    {i : CoRef} (ht : w.table pid key = some i) (h16 : key.contextId % 16 = 0)
    (hid : 3 ≤ prefixField key.contextId) :
    ∃ (ci : CommRef) (c : Intracomm), w.comms[ci]? = some c ∧ c.live = true ∧ 2 ≤ c.creation ∧
      place.pid c.proc = pid ∧
      c.contextId = key.contextId ∧ c.leader = key.leader ∧ c.co = i := by
  obtain ⟨co, hi, hco⟩ := hr.table pid key i ht
  have hpin : co.pinned = false := by
    cases hp : co.pinned with
    | false => rfl
    | true =>
      have hlt := hres.table pid key i co ht hi hp h16
      omega
  have hw := hr.within i co hi hco
  have hpos := (hr.balanced.co i co hi hco).used
  simp only [hpin, Bool.false_eq_true, if_false] at hw
  obtain ⟨ci, c, hc, hholds⟩ := exists_of_tally_pos (f := holding i) (l := w.comms) (by
    change 0 < holders w.comms i
    omega)
  unfold holding at hholds
  split at hholds
  · rename_i hold
    obtain ⟨⟨hlive, hcre⟩, hci⟩ := hold
    have hkey := hr.comm ci c hc hlive
    rw [hci] at hkey
    obtain ⟨hpid, hkeyeq⟩ := (hr.own pid key i co ht hi hpin).2 _ _ hkey
    rw [← hkeyeq]
    exact ⟨ci, c, hc, hlive, hcre, hpid, rfl, rfl, hci⟩
  · omega

theorem entered_ranks (hr : Registered place w) (hres : Reserved w) (hm : Members w)
    (he : Entered pid ⟨c.contextId, c.leader⟩ target false nested₀ fresh w w' c.co)
    (h16 : c.contextId % 16 = 0) (hid : 3 ≤ prefixField c.contextId)
    (hfresh : ∀ rs, fresh rs → rs = c.members)
    (hsame : ∀ c' ∈ w.comms, c'.live = true → 2 ≤ c'.creation → place.pid c'.proc = pid →
      c'.contextId = c.contextId → c'.leader = c.leader → c'.members = c.members) :
    ∃ co, w'.heap.cos[c.co]? = some co ∧ Ranks w'.heap co.rtwMap c.members := by
  rcases he.found with ⟨co, ht, hi, _, hi'⟩ | ⟨_, _, m, x, a, hi', ha, hranks⟩
  · obtain ⟨ci, c', hc', hlive, hcre, hpid, hctx, hlead, hco⟩ := user_of_entry hr hres ht h16 hid
    obtain ⟨⟨co', hco', hranks⟩, _⟩ := hm.comm ci c' hc' hlive (by omega)
    rw [hco, hi] at hco'
    cases hco'
    rw [hsame c' (List.mem_of_getElem? hc') hlive hcre hpid hctx hlead] at hranks
    exact ⟨_, hi', hranks.kept he.kept⟩
  · exact ⟨_, hi', m, a, rfl, ha, hfresh _ hranks⟩

theorem attached_members {q : Pending} {parent : Intracomm} {arg : Arg}
    (ho : Orderly place w) (hres : Reserved w) (hm : Members w) (hq : q ∈ w.pending)
    (hparent : w.comms[q.parent]? = some parent) (harg : q.args[parent.rank]? = some arg)
    (hmembers : c.members = newMembers w.heap parent q.args arg)
    (hcreates : Creates w q parent c arg target nested₀ fresh)
    (hatt : Attached place q parent c target nested₀ fresh (without w q) w')
    (hself : NotOfSelf w.heap parent arg)
    (hsame : ∀ c' ∈ w.comms, c'.live = true → 2 ≤ c'.creation →
      place.pid c'.proc = place.pid q.proc → c'.contextId = q.contextId →
      (newMembers w.heap parent q.args arg).min? = some c'.leader →
      c'.members = newMembers w.heap parent q.args arg) : Members w' := by
  have hps := ho.shaped.pending q hq
  obtain ⟨parent', arg', hparent', hlive, hproc, hlen, harg', hok⟩ := hps.parent
  rw [hparent] at hparent'
  cases hparent'
  rw [harg] at harg'
  cases harg'
  obtain ⟨hfresh, hmin⟩ := creates_members hm ho.shaped hparent hlive hlen hok hself hcreates hmembers
  obtain ⟨w₁, nested, n, colo, he, hclosing, hfin⟩ := hatt.built
  have howo := orderly_without ho q
  have hres₀ : Reserved (without w q) :=
    ⟨hres.mask, fun q' hq' => hres.pending q' (List.mem_of_mem_erase hq'), hres.comm, hres.table⟩
  have hm₀ : Members (without w q) := ⟨hm.comm, hm.group⟩
  have hranks : ∃ co, w₁.heap.cos[c.co]? = some co ∧ Ranks w₁.heap co.rtwMap c.members := by
    have he' := he
    rw [← hatt.contextId] at he'
    refine entered_ranks howo.registered hres₀ hm₀ he' ?_ ?_ hfresh ?_
    · rw [hatt.contextId]
      exact hps.id
    · rw [hatt.contextId]
      exact (hres.pending q hq).2
    · intro c' hc' hlive' hcre' hpid hctx hlead
      rw [hmembers]
      refine hsame c' hc' hlive' hcre' hpid (hctx.trans hatt.contextId) ?_
      rw [← hmembers, hlead]
      exact hmin
  have hm₁ : Members w₁ := by
    refine members_entered hm₀ he ?_
    intro j g co htarget hj _ hi
    subst htarget
    obtain ⟨co', hi', hranks'⟩ := hranks
    rw [hi] at hi'
    cases hi'
    cases hcreates with
    | createIntra hj' _ _ _ _ _ =>
      change w.heap.groups[j]? = some g at hj
      rw [hj] at hj'
      cases hj'
      have hnew : c.members = g.members := by
        rw [hmembers]
        simp [newMembers, hj]
      rw [← hnew]
      exact hranks'
  refine members_finished (w := w₁.addComm c) ⟨?_, hm₁.group⟩ ?_ hfin
  · intro ci c' hc' hlive' hself'
    rcases getElem?_concat.mp hc' with hc' | ⟨_, rfl⟩
    · exact hm₁.comm ci c' hc' hlive' hself'
    · exact ⟨hranks, hmin⟩
  · rw [← he.frame.comms]
    exact getElem?_concat.mpr (Or.inr ⟨rfl, rfl⟩)

theorem change_members (ho : Orderly place w) (hm : Members w) {o : Op} (hchange : Change place w o w')
    (hattached : ∀ {p : Proc} {junk : Nat → Proc} {q : Pending} {parent c : Intracomm} {arg : Arg}
      {target : Option GroupRef} {nested₀ : Option Nested} {fresh : List Proc → Prop},
      o = .attach p junk → w.pending.find? (fun q => q.proc == p) = some q →
      w.comms[q.parent]? = some parent → q.args[parent.rank]? = some arg →
      c.members = newMembers w.heap parent q.args arg →
      Creates w q parent c arg target nested₀ fresh →
      Attached place q parent c target nested₀ fresh (without w q) w' → Members w') :
    Members w' := by
  cases hchange with
  | idle => exact hm
  | @started p junk c nested n colo w₁ hp hnot hc hclosing hfin =>
    have hm₁ := members_finished hm hc hfin
    exact ⟨hm₁.comm, hm₁.group⟩
  | agreed contextId calls =>
    obtain ⟨hheap, _, hcomms⟩ := agree_same w contextId calls
    refine ⟨?_, ?_⟩
    · rw [hheap, hcomms]
      exact hm.comm
    · rw [hheap]
      exact hm.group
  | returned hq hparent harg hle hmask => exact ⟨hm.comm, hm.group⟩
  | attached hfind hparent harg hmembers hcreates hatt =>
    exact hattached rfl hfind hparent harg hmembers hcreates hatt
  | @freed ci c co co' h' freed table mask huse hcre hi hco hb hkept hgroups hcos hpin hfreed hone
      hrest htable hmask =>
    obtain ⟨hc, hlive, _⟩ := usable_eq_some.mp huse
    refine ⟨?_, ?_⟩
    · intro k c' hk hlive' hself'
      rcases (getElem?_update hc).mp hk with ⟨rfl, rfl⟩ | ⟨hne, hk⟩
      · cases hlive'
      · obtain ⟨⟨co₀, hi₀, hranks⟩, hmin⟩ := hm.comm k c' hk hlive' hself'
        refine ⟨?_, hmin⟩
        change ∃ co, h'.cos[c'.co]? = some co ∧ Ranks h' co.rtwMap c'.members
        rw [hcos]
        by_cases hsame : c'.co = c.co
        · -- the object was not freed, for `c'` has it
          have hf : freed = false := by
            cases hf : freed with
            | false => rfl
            | true =>
              obtain ⟨_, hneco⟩ :=
                ho.registered.last_holder hc ⟨hlive, hcre⟩ hi hco (hone.mp hf) hk hlive' hne
              exact absurd hsame hneco
          rw [hsame, hi] at hi₀
          cases hi₀
          refine ⟨co', (getElem?_update hi).mpr (Or.inl ⟨hsame, rfl⟩), ?_⟩
          rw [hrest hf]
          exact hranks.kept hkept
        · exact ⟨co₀, (getElem?_update hi).mpr (Or.inr ⟨hsame, hi₀⟩), hranks.kept hkept⟩
    · intro j g hj hpos hself
      change h'.groups[j]? = some g at hj
      rw [hgroups] at hj
      exact (hm.group j g hj hpos hself).kept hkept
  | @newGroup ci c co g h' huse hi hco hb hmaps hcos hgroups hmap hproc hrank hsize hmembers
      hself =>
    obtain ⟨hc, hlive, _⟩ := usable_eq_some.mp huse
    have hkept : RanksKept w.heap h' := RanksKept.refl hmaps
    have hm₁ : Members { w with heap := h' } := by
      refine ⟨?_, ?_⟩
      · intro k c' hk hlive' hself'
        obtain ⟨⟨co₀, hi₀, hranks⟩, hmin⟩ := hm.comm k c' hk hlive' hself'
        refine ⟨⟨co₀, ?_, hranks.kept hkept⟩, hmin⟩
        change h'.cos[c'.co]? = some co₀
        rw [hcos]
        exact hi₀
      · intro j g' hj hpos hself'
        change h'.groups[j]? = some g' at hj
        rw [hgroups] at hj
        rcases getElem?_concat.mp hj with hj | ⟨_, rfl⟩
        · exact (hm.group j g' hj hpos hself').kept hkept
        · have hne : c.creation ≠ 1 := by
            intro hone
            rw [hself, decide_eq_true hone] at hself'
            cases hself'
          obtain ⟨⟨co₀, hi₀, hranks⟩, _⟩ := hm.comm ci c hc hlive hne
          rw [hi] at hi₀
          cases hi₀
          rw [hmap, hmembers]
          exact hranks.kept hkept
    exact members_setComm hm₁ hc rfl rfl rfl rfl rfl
  | @oldGroup ci c co j g h' huse hj hgroup hi hco hb hmaps hcos hgroups hmap =>
    obtain ⟨hc, hlive, _⟩ := usable_eq_some.mp huse
    have hkept : RanksKept w.heap h' := RanksKept.refl hmaps
    refine ⟨?_, ?_⟩
    · intro k c' hk hlive' hself'
      obtain ⟨⟨co₀, hi₀, hranks⟩, hmin⟩ := hm.comm k c' hk hlive' hself'
      refine ⟨⟨co₀, ?_, hranks.kept hkept⟩, hmin⟩
      change h'.cos[c'.co]? = some co₀
      rw [hcos]
      exact hi₀
    · intro k g' hk hpos hself'
      change h'.groups[k]? = some g' at hk
      rw [hgroups] at hk
      rcases (getElem?_update hj).mp hk with ⟨rfl, rfl⟩ | ⟨_, hk⟩
      · -- the communicator vouches for the group, which may have been without users
        obtain ⟨g₀, hj₀, hmem, hone⟩ := (ho.shaped.comm ci c hc).group _ hgroup
        rw [hj] at hj₀
        cases hj₀
        have hne : c.creation ≠ 1 := by
          intro h
          rw [show g.ofSelf = false from hself'] at hone
          exact absurd (hone h) (by simp)
        obtain ⟨⟨co₀, hi₀, hranks⟩, _⟩ := hm.comm ci c hc hlive hne
        rw [hi] at hi₀
        cases hi₀
        rw [← hmap, ← hmem] at hranks
        exact hranks.kept hkept
      · exact (hm.group k g' hk hpos hself').kept hkept
  | @included j g ranks old new huse hnodup hlt hold hnew =>
    obtain ⟨hj, hpos, _⟩ := usableGroup_eq_some.mp huse
    have hkept : RanksKept w.heap (w.heap.looseGroup new (fun m =>
        { proc := g.proc
          rank := ranks.findIdx? (fun r => some r = g.rank)
          size := ranks.length
          rtwGrpMap := m
          ref := none
          members := ranks.filterMap (fun r => g.members[r]?)
          ofSelf := g.ofSelf })) := fun k a ha => ⟨a, getElem?_concat_of_some ha, rfl⟩
    refine ⟨?_, ?_⟩
    · intro k c' hk hlive' hself'
      obtain ⟨⟨co₀, hi₀, hranks⟩, hmin⟩ := hm.comm k c' hk hlive' hself'
      exact ⟨⟨co₀, hi₀, hranks.kept hkept⟩, hmin⟩
    · intro k g' hk hpos' hself'
      rcases getElem?_concat.mp hk with hk | ⟨_, rfl⟩
      · exact (hm.group k g' hk hpos' hself').kept hkept
      · have hall := (hm.group j g hj hpos hself').find hold
        subst hall
        refine ⟨w.heap.maps.length, ⟨new, 0⟩, rfl, getElem?_concat.mpr (Or.inr ⟨rfl, rfl⟩), ?_⟩
        refine hnew.unique (picks_filterMap ?_)
        intro r hr
        rw [← (ho.shaped.group j g hj).size]
        exact hlt r hr
  | @groupFreed j g m h' huse hb hkept hcos hgroups hmap =>
    obtain ⟨hj, _, _⟩ := usableGroup_eq_some.mp huse
    refine ⟨?_, ?_⟩
    · intro k c' hk hlive' hself'
      obtain ⟨⟨co₀, hi₀, hranks⟩, hmin⟩ := hm.comm k c' hk hlive' hself'
      refine ⟨⟨co₀, ?_, hranks.kept hkept⟩, hmin⟩
      change h'.cos[c'.co]? = some co₀
      rw [hcos]
      exact hi₀
    · intro k g' hk hpos' hself'
      change h'.groups[k]? = some g' at hk
      rw [hgroups] at hk
      rcases (getElem?_update hj).mp hk with ⟨rfl, rfl⟩ | ⟨_, hk⟩
      · have hmore : 1 < g.handles := by
          change 0 < g.handles - 1 at hpos'
          omega
        change Ranks h' m g.members
        rw [hmap hmore]
        exact (hm.group _ g hj (by omega) hself').kept hkept
      · exact (hm.group k g' hk hpos' hself').kept hkept

structure Mapped (place : Placement) (w : World) : Prop extends Orderly place w where
  reserved : Reserved w
  members : Members w

theorem step_mapped (hw : Mapped place w) (o : Op) (hcond : KeepsMembers place w o) :
    Yields NoUse (step place w o) (fun w' => Change place w o w' ∧ Mapped place w') := by
  refine (step_orderly hw.toOrderly o hcond.counts).mono ?_
  rintro w' ⟨hchange, ho'⟩
  refine ⟨hchange, ho', change_reserved hw.toOrderly hw.reserved hchange, ?_⟩
  refine change_members hw.toOrderly hw.members hchange ?_
  intro p junk q parent c arg target nested₀ fresh hop hfind hparent harg hmembers hcreates hatt
  subst hop
  have hq := List.mem_of_find?_eq_some hfind
  have hqp : q.proc = p := by simpa using List.find?_some hfind
  obtain ⟨hself, hsame⟩ := hcond.2 q hfind parent hparent arg harg
  rw [← hqp] at hsame
  exact attached_members hw.toOrderly hw.reserved hw.members hq hparent harg hmembers hcreates hatt
    hself hsame

theorem init_members (place : Placement) : Members (World.init place) where
  comm ci c hc _ hself := by
    obtain ⟨p, hp, rfl | rfl⟩ := init_comm place hc
    · refine ⟨⟨_, (init_co place).mpr ⟨place.pid_lt p hp, rfl⟩, _, _, rfl,
        (init_map place).mpr ⟨place.pid_lt p hp, rfl⟩, rfl⟩, ?_⟩
      refine List.min?_eq_some_iff.mpr ⟨?_, fun _ _ => Nat.zero_le _⟩
      exact List.mem_range.mpr (Nat.zero_lt_of_lt hp)
    · exact absurd rfl hself
  group j g hj := by simp [World.init] at hj

theorem init_mapped (place : Placement) : Mapped place (World.init place) :=
  ⟨init_orderly place, init_reserved place, init_members place⟩

end Steps

def MapsListMembers (w : World) : Prop :=
  ∀ (ci : CommRef) c, w.comms[ci]? = some c → c.live = true → 2 ≤ c.creation →
    ∃ co, w.heap.cos[c.co]? = some co ∧ w.heap.findMap co.rtwMap = .ok c.members

/-- In a run that keeps the members of maps, the map of every communicator lists its members. -/
theorem maps_list_members (place : Placement) (ops : List Op)
    (hcond : Along (step place) (KeepsMembers place) (World.init place) ops) :
    Yields NoUse (run (step place) (World.init place) ops) MapsListMembers := by
  refine Yields.mono (Yields.run (I := Mapped place) ?_ (init_mapped place) hcond) ?_
  · intro w o hw ho
    exact (step_mapped hw o ho).mono fun w' h => h.2
  · intro w hw ci c hc hlive hcre
    obtain ⟨⟨co, hi, hranks⟩, _⟩ := hw.members.comm ci c hc hlive (by omega)
    obtain ⟨co', hi', hfreed⟩ := hw.registered.co_of hc hlive
    rw [hi] at hi'
    cases hi'
    obtain ⟨m, a, _, _, hfind⟩ := findMap_of_co hw.registered.balanced hi hfreed
    refine ⟨co, hi, ?_⟩
    rw [← hranks.find hfind]
    exact hfind

def quad : Placement := ⟨4, 1, fun _ => 0, fun _ => 0, fun _ _ => Nat.one_pos⟩

def splitWorld (contextId : Nat) (color : Nat → Option Int) : Op :=
  .agree contextId ((List.range 4).map (fun p => (p, .split (color p) 0)))

def pairOf (p p' : Proc) : Nat → Option Int := fun r => if r = p ∨ r = p' then some 0 else none

def twoSplits : List Op :=
  [.init 0 noJunk, .init 1 noJunk, .init 2 noJunk, .init 3 noJunk,
    splitWorld 496 (pairOf 0 3), .attach 0 noJunk, .attach 3 noJunk,
    splitWorld 480 (fun r => if r = 3 then none else some 0), .attach 0 noJunk, .attach 1 noJunk,
    .attach 2 noJunk]

def reuseOps : List Op := twoSplits ++
  [.commFree 10, .agree 480 [(8, .copy 2), (9, .copy 2)], .attach 0 noJunk]

theorem live_entry_taken_over :
    ∃ w, run (step quad) (World.init quad) reuseOps = .ok w ∧ ¬ MapsListMembers w := by
  have hboth : (run (step quad) (World.init quad) reuseOps).toOption.map
      (fun w => ((mapOf w 13).map RtwMap.ranks,
        w.comms[13]?.map (fun c => (c.live, c.creation, c.members)))) =
      some (some [0, 1, 2], some (true, 4, [0, 3])) := by decide +kernel
  cases hrun : run (step quad) (World.init quad) reuseOps with
  | error e => rw [hrun] at hboth; cases hboth
  | ok w =>
    refine ⟨w, rfl, ?_⟩
    intro hall
    rw [hrun] at hboth
    simp only [Except.toOption, Option.map_some, Option.some.injEq, Prod.mk.injEq] at hboth
    obtain ⟨hmap, hc⟩ := hboth
    obtain ⟨c, hc, heq⟩ := Option.map_eq_some_iff.mp hc
    simp only [Prod.mk.injEq] at heq
    obtain ⟨hlive, hcre, hmem⟩ := heq
    obtain ⟨co, hi, hfind⟩ := hall 13 c hc hlive (by omega)
    obtain ⟨a, ha, hranks⟩ := Option.map_eq_some_iff.mp hmap
    unfold mapOf at ha
    simp only [hc, Option.filter_some, hlive, if_true, Option.bind_eq_bind, Option.bind_some, hi] at ha
    obtain ⟨m, hm, ha⟩ := Option.bind_eq_some_iff.mp ha
    rw [hm] at hfind
    simp only [Heap.findMap, ha] at hfind
    split at hfind
    · rw [hranks, hmem] at hfind
      cases hfind
    · cases hfind

theorem maps_list_members_splits :
    Along (step quad) (KeepsMembers quad) (World.init quad) twoSplits ∧
      Yields NoUse (run (step quad) (World.init quad) twoSplits) MapsListMembers := by
  have hcond : Along (step quad) (KeepsMembers quad) (World.init quad) twoSplits := by
    decide +kernel
  exact ⟨hcond, maps_list_members quad twoSplits hcond⟩

end FgMpi.Comm.Membership
